import Mathlib
import WeakOS.Memory.Calls

namespace WeakOS

open Foundation

/-!
# Runs of the memory manager

A session carries the manager's state and the allocations handed out so far.
The invariant of a session ties the two together: the region table is
arranged, and every live allocation is the extent of a used region.  One step
keeps it and, as long as no empty allocation is asked for, can be taken.

What a caller may rely on follows: a range handed out lies in one region that
was free, so it meets neither a live range nor a disabled page.
-/

/-- Allocations of at least one page. -/
def Event.Positive : Event → Prop
  | .allocVirtual pages => 1 ≤ pages
  | .freeVirtual _ => True
  | .access _ => True

instance (event : Event) : Decidable event.Positive :=
  match event with
  | .allocVirtual pages => inferInstanceAs (Decidable (1 ≤ pages))
  | .freeVirtual _ => inferInstanceAs (Decidable True)
  | .access _ => inferInstanceAs (Decidable True)

/-- The pages of a range that was handed out. -/
def Allocation.Contains (item : Allocation) (page : Nat) : Prop :=
  item.ptr / 0x1000 ≤ page ∧ page < item.ptr / 0x1000 + item.pages

/-- The two ranges share no page. -/
def Allocation.Apart (first second : Allocation) : Prop :=
  ∀ page, first.Contains page → ¬ second.Contains page

/-- The range is the extent of a used region. -/
def Allocation.BackedBy (item : Allocation) (rgns : Regions) (slot : Slot) : Prop :=
  (rgns slot).type = .used ∧ item.ptr = (rgns slot).base * 0x1000 ∧ item.pages = (rgns slot).length

theorem Allocation.BackedBy.contains_iff {item : Allocation} {rgns : Regions} {slot : Slot}
    (backed : item.BackedBy rgns slot) (page : Nat) :
    item.Contains page ↔ rgns.Contains slot page := by
  unfold Allocation.Contains
  rw [backed.2.1, backed.2.2, Nat.mul_div_cancel _ (by decide)]
  exact Iff.rfl

namespace Memory

/-- Disabled regions are the same in both states. -/
def Undisturbed (before after : Memory) : Prop :=
  ∀ slot, (before.mRgns slot).type = .disabled ∨ (after.mRgns slot).type = .disabled →
    after.mRgns slot = before.mRgns slot

theorem Undisturbed.refl (memory : Memory) : Undisturbed memory memory := fun _ _ => rfl

theorem Undisturbed.of_sameRegions {before after : Memory} (same : SameRegions before after) :
    Undisturbed before after :=
  fun slot _ => congrFun same.rgns slot

theorem Undisturbed.trans {first second third : Memory} (left : Undisturbed first second)
    (right : Undisturbed second third) : Undisturbed first third := by
  intro slot either
  rcases either with early | late
  · have same := left slot (Or.inl early)
    exact (right slot (Or.inl (same ▸ early))).trans same
  · have same := right slot (Or.inr late)
    exact same.trans (left slot (Or.inr (same ▸ late)))

section Calls

variable {rel : Nat → Nat → Prop} {high : Nat} {memory after : Memory} {pages ptr : Nat}

/-- `alloc_virtual` leaves disabled regions alone. -/
theorem Bounded.allocVirtual_undisturbed (bounded : memory.Bounded)
    (result : memory.allocVirtual pages = some (after, ptr)) : Undisturbed memory after := by
  rcases allocVirtual_cases bounded result with ⟨_, rfl, _⟩ | ⟨slot, claimed, selection⟩
  · exact Undisturbed.refl after
  · have claiming : Undisturbed memory claimed :=
      fun other either => selection.claim.disabled selection.isFree either
    exact claiming.trans (Undisturbed.of_sameRegions selection.table)

/-- `free_virtual` leaves disabled regions alone. -/
theorem Bounded.freeVirtual_undisturbed (bounded : memory.Bounded) {freed : Bool}
    (result : memory.freeVirtual ptr = some (after, freed)) : Undisturbed memory after := by
  rcases freeVirtual_cases result with ⟨_, rfl, _⟩ | ⟨_, slot, _, used, _, rfl⟩
  · exact Undisturbed.refl after
  · have same := unmapRgn_table bounded used
    refine (Undisturbed.of_sameRegions same).trans (fun other either => ?_)
    refine releaseRgn_of_ne (fun here => ?_)
    subst here
    rcases either with was | is
    · rw [same.rgns, used] at was
      cases was
    · rw [releaseRgn_self] at is
      cases is

/-- A pointer that was handed out points at the base of the selected region,
there was a frame for each page, and afterwards the region is used and has the
asked length. -/
theorem Bounded.allocVirtual_returned (bounded : memory.Bounded) (positive : 1 ≤ pages)
    (result : memory.allocVirtual pages = some (after, ptr)) (returned : ptr ≠ 0) :
    ∃ slot, memory.findRgn (fits pages) = some (some slot) ∧
      (memory.mRgns slot).type = .free ∧ pages ≤ (memory.mRgns slot).length ∧
      pages ≤ memory.freeFrames.card ∧ ptr = (memory.mRgns slot).base * 0x1000 ∧
      Allocation.BackedBy ⟨ptr, pages⟩ after.mRgns slot := by
  rcases allocVirtual_cases bounded result with ⟨_, _, null⟩ | ⟨slot, claimed, selection⟩
  · exact absurd null returned
  · have bound := selection.bound
    have pageCount := memPageCount_eq
    have supplied := selection.supplied_of_returned returned
    have address := selection.ptr_of_supplied supplied
    have exact_ : ptr = (memory.mRgns slot).base * 0x1000 := by
      rw [address] at returned ⊢
      refine Word.wrap_of_lt ?_
      by_contra large
      -- The only base past the tables is the word behind them; its address wraps to null.
      have top : (memory.mRgns slot).base * 0x1000 = 2 ^ 32 := by omega
      rw [top] at returned
      exact returned rfl
    have record := selection.record
    refine ⟨slot, selection.found, selection.isFree, selection.enough, supplied, exact_, record.1, ?_,
      record.2.2.symm⟩
    rw [exact_, record.2.1]

/-- A used region stays as it is when `alloc_virtual` is called. -/
theorem Bounded.allocVirtual_used (bounded : memory.Bounded)
    (result : memory.allocVirtual pages = some (after, ptr)) {slot : Slot}
    (used : (memory.mRgns slot).type = .used) : after.mRgns slot = memory.mRgns slot := by
  rcases allocVirtual_cases bounded result with ⟨_, rfl, _⟩ | ⟨found, claimed, selection⟩
  · rfl
  · have different : slot ≠ found := by
      rintro rfl
      rw [selection.isFree] at used
      cases used
    rw [selection.table.rgns]
    exact selection.claim.same_of_inUse different (ne_none_of_used used)

end Calls

/-! ## Accesses -/

section Access

variable (memory : Memory) (page : Nat)

/-- An access changes the TLB only. -/
theorem access_keeps : memory.access page = { memory with tlb := (memory.access page).tlb } := by
  unfold access
  split <;> rfl

theorem access_sameRegions : SameRegions memory (memory.access page) := by
  rw [access_keeps]
  exact ⟨rfl, rfl⟩

theorem access_entry : (memory.access page).entry = memory.entry := by
  rw [access_keeps]
  rfl

theorem access_mPages : (memory.access page).mPages = memory.mPages := by
  rw [access_keeps]

end Access

end Memory

namespace Session

/-- The table is arranged, every live allocation is a used region, and no two
of them share a page. -/
structure Tracked (rel : Nat → Nat → Prop) (high : Nat) (session : Session) : Prop where
  table : ∃ slots, session.memory.Arranged rel high slots
  backed : ∀ item ∈ session.live, ∃ slot, item.BackedBy session.memory.mRgns slot
  apart : session.live.Pairwise Allocation.Apart

section Tracked

variable {rel : Nat → Nat → Prop} {high : Nat} {session next : Session} {event : Event}

theorem Tracked.bounded (tracked : session.Tracked rel high) (ordering : Memory.Ordering rel)
    (within : high ≤ memPageCount + 1) : session.memory.Bounded := by
  rcases tracked.table with ⟨slots, arranged⟩
  exact arranged.bounded ordering within

/-- Nothing is live at the start. -/
theorem Tracked.start {memory : Memory} {slots : List Slot}
    (arranged : memory.Arranged rel high slots) : Tracked rel high ⟨memory, []⟩ :=
  ⟨⟨slots, arranged⟩, fun _ member => absurd member List.not_mem_nil, List.Pairwise.nil⟩

/-- A range that was handed out lies in a region that was free, and meets no
live allocation. -/
theorem Tracked.returned (tracked : session.Tracked rel high) (ordering : Memory.Ordering rel)
    (within : high ≤ memPageCount + 1) {pages ptr : Nat} {after : Memory} (positive : 1 ≤ pages)
    (result : session.memory.allocVirtual pages = some (after, ptr)) (returned : ptr ≠ 0) :
    ∃ slot, (session.memory.mRgns slot).type = .free ∧
      (∀ page, Allocation.Contains ⟨ptr, pages⟩ page → session.memory.mRgns.Contains slot page) ∧
      ∀ item ∈ session.live, Allocation.Apart ⟨ptr, pages⟩ item := by
  have bounded := tracked.bounded ordering within
  rcases bounded.allocVirtual_returned positive result returned with
    ⟨slot, _, isFree, enough, _, address, _⟩
  have inside : ∀ page, Allocation.Contains ⟨ptr, pages⟩ page →
      session.memory.mRgns.Contains slot page := by
    intro page contains
    rw [Regions.contains_iff]
    simp only [Allocation.Contains] at contains
    omega
  refine ⟨slot, isFree, inside, fun item member page inRange inItem => ?_⟩
  rcases tracked.table with ⟨slots, arranged⟩
  rcases tracked.backed item member with ⟨other, backed⟩
  have inOther := (backed.contains_iff page).mp inItem
  have same : slot = other := arranged.eq_of_contains ordering (ne_none_of_free isFree)
    (ne_none_of_used backed.1) (inside page inRange) inOther
  rw [← same, Allocation.BackedBy, isFree] at backed
  exact MemVirtRgnType.noConfusion backed.1

/-- A step keeps the invariant. -/
theorem Tracked.step (tracked : session.Tracked rel high) (ordering : Memory.Ordering rel)
    (within : high ≤ memPageCount + 1) (positive : event.Positive)
    (taken : session.step event = some next) : next.Tracked rel high := by
  have bounded := tracked.bounded ordering within
  rcases tracked.table with ⟨slots, arranged⟩
  have backed := tracked.backed
  have apart := tracked.apart
  cases event with
  | allocVirtual pages =>
      rcases Option.map_eq_some_iff.mp taken with ⟨⟨after, ptr⟩, result, rfl⟩
      have kept : ∀ item ∈ session.live, ∃ slot, item.BackedBy after.mRgns slot := by
        intro item member
        rcases backed item member with ⟨slot, used, rest⟩
        have same := bounded.allocVirtual_used result used
        exact ⟨slot, by rw [Allocation.BackedBy, same]; exact ⟨used, rest⟩⟩
      have table := arranged.allocVirtual_arranged ordering within positive result
      by_cases null : ptr = 0
      · simp only [if_pos null]
        exact ⟨table, kept, apart⟩
      · rcases bounded.allocVirtual_returned positive result null with ⟨slot, _, _, _, _, _, new⟩
        rcases tracked.returned ordering within positive result null with ⟨_, _, _, exclusive⟩
        simp only [if_neg null]
        exact ⟨table, List.forall_mem_cons.mpr ⟨⟨slot, new⟩, kept⟩,
          List.pairwise_cons.mpr ⟨exclusive, apart⟩⟩
  | freeVirtual ptr =>
      rcases Option.map_eq_some_iff.mp taken with ⟨⟨after, freed⟩, result, rfl⟩
      have table : ∃ slots, after.Arranged rel high slots :=
        ⟨slots, arranged.freeVirtual_arranged ordering within result⟩
      rcases Memory.freeVirtual_cases result with
        ⟨rfl, rfl, _⟩ | ⟨rfl, slot, found, isUsed, address, rfl⟩
      · exact ⟨table, backed, apart⟩
      · refine ⟨table, fun item member => ?_, apart.filter _⟩
        rcases List.mem_filter.mp member with ⟨member, different⟩
        rcases backed item member with ⟨other, used, location, length⟩
        have freed : session.memory.lengthAt ptr = some (session.memory.mRgns slot).length := by
          rw [Memory.lengthAt, found]
        have elsewhere : other ≠ slot := by
          rintro rfl
          rcases of_decide_eq_true different with notHere | notThis
          · exact notHere (location.trans address.symm)
          · exact notThis ((congrArg some length).trans freed.symm)
        refine ⟨other, ?_⟩
        rw [Allocation.BackedBy, Memory.releaseRgn_of_ne elsewhere,
          (Memory.unmapRgn_table bounded isUsed).rgns]
        exact ⟨used, location, length⟩
  | access page =>
      have same := Memory.access_sameRegions session.memory page
      rw [← Option.some.inj taken]
      refine ⟨⟨slots, arranged.of_sameRegions same⟩, fun item member => ?_, apart⟩
      rcases backed item member with ⟨slot, holds⟩
      exact ⟨slot, by rw [same.rgns]; exact holds⟩

/-- A step can be taken. -/
theorem Tracked.progress (tracked : session.Tracked rel high) (positive : event.Positive) :
    ∃ next, session.step event = some next := by
  rcases tracked.table with ⟨slots, arranged⟩
  cases event with
  | allocVirtual pages =>
      rcases arranged.allocVirtual_returns positive with ⟨after, ptr, result⟩
      exact ⟨_, by rw [Session.step, result]; rfl⟩
  | freeVirtual ptr =>
      rcases arranged.freeVirtual_returns ptr with ⟨after, freed, result⟩
      exact ⟨_, by rw [Session.step, result]; rfl⟩
  | access page => exact ⟨_, rfl⟩

/-- Every run of admissible events can be taken to its end, and the invariant
holds there. -/
theorem Tracked.run (tracked : session.Tracked rel high) (ordering : Memory.Ordering rel)
    (within : high ≤ memPageCount + 1) {events : List Event}
    (positive : ∀ event ∈ events, event.Positive) :
    ∃ last, session.run events = some last ∧ last.Tracked rel high := by
  refine Run.run_total (fun state event kept admissible => ?_) tracked positive
  rcases kept.progress admissible with ⟨next, taken⟩
  exact ⟨next, taken, kept.step ordering within admissible taken⟩

end Tracked

end Session

end WeakOS
