import Mathlib
import WeakOS.Memory.Ranges

namespace WeakOS

open Foundation

/-!
# The region pool

`get_unused` scans the pool without a bound of its own, and a slot that has been
taken is never given back.  The pool suffices all the same: a region is split
only if it has two pages or more, and then there are fewer regions than pages.
-/

namespace Session

/-- The event calls `get_unused`: the region that fits is longer than it should be. -/
def Scans (session : Session) : Event → Prop
  | .allocVirtual pages => ∃ slot, session.memory.findRgn (Memory.fits pages) = some (some slot) ∧
      pages < (session.memory.mRgns slot).length
  | .freeVirtual _ => False
  | .access _ => False

/-- The scan ends at a slot of the pool, which is unused. -/
def ScanStops (session : Session) : Prop :=
  ∃ fresh : Fin memPageCount, session.memory.mRgns.getUnused = some fresh ∧
    (session.memory.mRgns fresh).type = .none

section Pool

variable {rel : Nat → Nat → Prop} {high : Nat} {session next : Session} {event : Event}

theorem Tracked.scanStops (tracked : session.Tracked rel high) (positive : event.Positive)
    (scans : session.Scans event) : session.ScanStops := by
  rcases tracked.table with ⟨slots, arranged⟩
  cases event with
  | allocVirtual pages =>
      rcases scans with ⟨slot, found, longer⟩
      have isFree := (Memory.fits_iff.mp (Memory.accept_of_findRgn found)).1
      have member := (arranged.exact slot).mp (ne_none_of_free isFree)
      have long : 2 ≤ (session.memory.mRgns slot).length := Nat.lt_of_le_of_lt positive longer
      rcases arranged.exists_unused member long with ⟨fresh, scan⟩
      exact ⟨fresh, scan, Regions.type_of_getUnused scan⟩
  | freeVirtual ptr => exact scans.elim
  | access page => exact scans.elim

/-- No step gives a slot back. -/
theorem inUse_step (bounded : session.memory.Bounded) (taken : session.step event = some next)
    {slot : Slot} (inUse : (session.memory.mRgns slot).type ≠ .none) :
    (next.memory.mRgns slot).type ≠ .none := by
  cases event with
  | allocVirtual pages =>
      rcases Option.map_eq_some_iff.mp taken with ⟨⟨after, ptr⟩, result, rfl⟩
      rcases Memory.allocVirtual_cases bounded result with ⟨_, rfl, _⟩ | ⟨found, claimed, selection⟩
      · exact inUse
      · show (after.mRgns slot).type ≠ .none
        rw [selection.table.rgns]
        by_cases here : slot = found
        · rw [here, selection.claim.type_eq]
          exact MemVirtRgnType.noConfusion
        · rwa [selection.claim.same_of_inUse here inUse]
  | freeVirtual ptr =>
      rcases Option.map_eq_some_iff.mp taken with ⟨⟨after, freed⟩, result, rfl⟩
      rcases Memory.freeVirtual_cases result with ⟨_, rfl, _⟩ | ⟨_, found, _, used, _, rfl⟩
      · exact inUse
      · show ((Memory.releaseRgn _ found).mRgns slot).type ≠ .none
        by_cases here : slot = found
        · rw [here, Memory.releaseRgn_self]
          exact MemVirtRgnType.noConfusion
        · rwa [Memory.releaseRgn_of_ne here, (Memory.unmapRgn_table bounded used).rgns]
  | access page =>
      rw [← Option.some.inj taken]
      rwa [(Memory.access_sameRegions session.memory page).rgns]

/-- Along every run, from the table of `preinit` and from any well-formed one, each scan
of the pool ends at an unused slot of the pool, although no slot becomes unused. -/
theorem getUnused_stops {memory : Memory}
    (start : memory.WellFormed ∨ ∃ before rgns, memory = Memory.preinit before rgns)
    {events : List Event} (positive : ∀ event ∈ events, event.Positive) :
    ∀ earlier event later, events = earlier ++ event :: later →
      ∃ session next, Session.run ⟨memory, []⟩ earlier = some session ∧ session.step event = some next ∧
        (session.Scans event → session.ScanStops) ∧
        ∀ slot, (session.memory.mRgns slot).type ≠ .none → (next.memory.mRgns slot).type ≠ .none := by
  rintro earlier event later rfl
  have wellFormed : memory.WellFormed := by
    rcases start with given | ⟨before, rgns, rfl⟩
    · exact given
    · exact Memory.preinit_wellFormed before rgns
  have positiveEvent : event.Positive := positive event (by simp)
  rcases run_kept wellFormed (fun event member => positive event (List.mem_append_left _ member)) with
    ⟨session, reached, kept⟩
  rcases kept.toTracked.progress positiveEvent with ⟨next, taken⟩
  have bounded := kept.bounded Memory.Ordering.eq (Nat.le_succ _)
  exact ⟨session, next, reached, taken, kept.toTracked.scanStops positiveEvent,
    fun _ => inUse_step bounded taken⟩

/-- The second allocation, after the first one has been given back. -/
theorem getUnused_stops_preinit :
    ∃ session next,
      Session.run ⟨Memory.zero.preinit [], []⟩ [.allocVirtual 3, .freeVirtual 0] = some session ∧
      session.step (.allocVirtual 1) = some next ∧
      (session.Scans (.allocVirtual 1) → session.ScanStops) ∧
      ∀ slot, (session.memory.mRgns slot).type ≠ .none → (next.memory.mRgns slot).type ≠ .none :=
  getUnused_stops (Or.inr ⟨Memory.zero, [], rfl⟩)
    (by simp [Event.Positive]) [.allocVirtual 3, .freeVirtual 0] (.allocVirtual 1) [] rfl

end Pool

end Session

end WeakOS
