import Mathlib
import WeakOS.Memory.Session
import WeakOS.Memory.Preinit

namespace WeakOS

open Foundation

/-!
# The links backward

`disable_virtual` relinks the list through `prev`, so a table should be linked
in both directions.  `free_virtual` touches no link.  The split in
`alloc_virtual` enters a new region between the one it cuts and the successor
of that one, and it sets both links of the new region but leaves the link
backward of the old successor as it was.  So a run keeps the table doubly
linked exactly when every region it cuts is the last of the list.
-/

namespace Memory

/-- Every listed region with a successor is the predecessor of its successor,
and the first region has no predecessor. -/
def DoublyLinked (memory : Memory) : Prop :=
  ∃ slots, LinkedPool.Spells (fun slot => (memory.mRgns slot).next) memory.mFirstRgn slots ∧
    LinkedPool.Backed (fun slot => (memory.mRgns slot).next) (fun slot => (memory.mRgns slot).prev)
      memory.mFirstRgn slots

section Table

variable {rel : Nat → Nat → Prop} {high : Nat} {memory after : Memory} {slots : List Slot}

/-- On an arranged table the listed regions are the regions in use. -/
theorem Arranged.doublyLinked_iff (arranged : memory.Arranged rel high slots) :
    memory.DoublyLinked ↔
      LinkedPool.Backed (fun slot => (memory.mRgns slot).next)
        (fun slot => (memory.mRgns slot).prev) memory.mFirstRgn slots := by
  constructor
  · rintro ⟨others, spells, backed⟩
    rwa [arranged.spells.unique spells]
  · exact fun backed => ⟨slots, arranged.spells, backed⟩

/-- Only the links matter. -/
theorem doublyLinked_congr (first : after.mFirstRgn = memory.mFirstRgn)
    (next : ∀ slot, (after.mRgns slot).next = (memory.mRgns slot).next)
    (prev : ∀ slot, (after.mRgns slot).prev = (memory.mRgns slot).prev) :
    after.DoublyLinked ↔ memory.DoublyLinked := by
  unfold DoublyLinked
  rw [first, funext next, funext prev]

/-- Only the links of a record matter when the others stay as they were. -/
theorem doublyLinked_congr_record {slot : Slot} (first : after.mFirstRgn = memory.mFirstRgn)
    (next : (after.mRgns slot).next = (memory.mRgns slot).next)
    (prev : (after.mRgns slot).prev = (memory.mRgns slot).prev)
    (others : ∀ other, other ≠ slot → after.mRgns other = memory.mRgns other) :
    after.DoublyLinked ↔ memory.DoublyLinked := by
  apply doublyLinked_congr first
  · intro other
    by_cases here : other = slot
    · rw [here, next]
    · rw [others other here]
  · intro other
    by_cases here : other = slot
    · rw [here, prev]
    · rw [others other here]

theorem doublyLinked_of_sameRegions (same : SameRegions memory after) :
    after.DoublyLinked ↔ memory.DoublyLinked := by
  apply doublyLinked_congr same.first
  · exact fun slot => by rw [same.rgns]
  · exact fun slot => by rw [same.rgns]

end Table

/-! ## One call -/

/-- Claiming a region leaves its link backward alone. -/
theorem claimRgn_prev {memory claimed : Memory} {slot : Slot} {pages : Nat}
    (isFree : (memory.mRgns slot).type = .free)
    (result : memory.claimRgn slot pages = some claimed) :
    (claimed.mRgns slot).prev = (memory.mRgns slot).prev := by
  rcases Option.map_eq_some_iff.mp result with ⟨cut, split, rfl⟩
  simp only [Regions.modify_self]
  by_cases shorter : pages < (memory.mRgns slot).length
  · rw [if_pos shorter] at split
    unfold splitRgn at split
    cases scan : memory.mRgns.getUnused with
    | none => simp [scan] at split
    | some fresh =>
        have different : slot ≠ fresh := by
          rintro rfl
          exact ne_none_of_free isFree (Regions.type_of_getUnused scan)
        simp only [scan, Option.some.injEq] at split
        rw [← split]
        simp only [Regions.modify_self, Regions.modify_of_ne _ _ different]
  · rw [if_neg shorter, Option.some.injEq] at split
    rw [split]

section Call

variable {rel : Nat → Nat → Prop} {high : Nat} {memory after : Memory} {slots : List Slot}
  {pages ptr : Nat}

/-- A selected region keeps its link backward. -/
theorem Bounded.allocVirtual_prev (bounded : memory.Bounded)
    (result : memory.allocVirtual pages = some (after, ptr)) {slot : Slot}
    (found : memory.findRgn (fits pages) = some (some slot)) :
    (after.mRgns slot).prev = (memory.mRgns slot).prev := by
  rcases fits_iff.mp (accept_of_findRgn found) with ⟨isFree, _⟩
  have bound := bounded slot (ne_none_of_free isFree)
  have pageCount := memPageCount_eq
  rw [allocVirtual_eq, found] at result
  rcases Option.map_eq_some_iff.mp result with ⟨claimed, claim, mapped⟩
  have spec := claimRgn_spec (accept_of_findRgn found) (by omega) claim
  have enough := (fits_iff.mp (accept_of_findRgn found)).2
  have table : SameRegions claimed (mapClaimed claimed slot).1 := by
    rw [spec.mapClaimed_eq]
    exact mapRgn_sameRegions claimed (by omega)
  rw [mapped] at table
  rw [table.rgns]
  exact claimRgn_prev isFree claim

/-- The region that the allocation cuts, if it cuts one, is the last. -/
def CutsLast (memory : Memory) (pages : Nat) : Prop :=
  ∀ slot, memory.findRgn (fits pages) = some (some slot) → pages < (memory.mRgns slot).length →
    (memory.mRgns slot).next = none

theorem cutsLast_iff_of_found {slot : Slot} (found : memory.findRgn (fits pages) = some (some slot)) :
    memory.CutsLast pages ↔
      (pages < (memory.mRgns slot).length → (memory.mRgns slot).next = none) := by
  constructor
  · exact fun last => last slot found
  · intro last other stops
    rw [found, Option.some.injEq, Option.some.injEq] at stops
    exact stops ▸ last

/-- An allocation keeps a table doubly linked exactly when it cuts no region
that has a successor. -/
theorem Arranged.allocVirtual_doublyLinked_iff (arranged : memory.Arranged rel high slots)
    (ordering : Ordering rel) (within : high ≤ memPageCount + 1) (positive : 1 ≤ pages)
    (linked : memory.DoublyLinked) (result : memory.allocVirtual pages = some (after, ptr)) :
    after.DoublyLinked ↔ memory.CutsLast pages := by
  have bounded := arranged.bounded ordering within
  rcases allocVirtual_cases bounded result with ⟨none, rfl, _⟩ | ⟨slot, claimed, selection⟩
  · apply iff_of_true linked
    intro slot found
    rw [none] at found
    cases found
  · have found := selection.found
    have claim := selection.claim
    have prev := bounded.allocVirtual_prev result found
    have first : after.mFirstRgn = memory.mFirstRgn := by
      rw [selection.table.first, claim.keeps]
    rw [cutsLast_iff_of_found found]
    rcases claim.rest with ⟨whole, next, same⟩ | ⟨fresh, unused, shorter, record, link, same⟩
    · -- The whole region: no link changes.
      have others : ∀ other, other ≠ slot → after.mRgns other = memory.mRgns other := by
        intro other different
        rw [selection.table.rgns, same other different]
      have kept : (after.mRgns slot).next = (memory.mRgns slot).next := by
        rw [selection.table.rgns, next]
      exact iff_of_true ((doublyLinked_congr_record first kept prev others).mpr linked)
        (fun cut => absurd cut (Nat.not_lt.mpr (Nat.le_of_eq whole.symm)))
    · -- The region is cut, and the new one is linked in behind it.
      rcases arranged.allocVirtual_arranged ordering within positive result with
        ⟨slots', arranged'⟩
      rw [← selection.table.rgns] at record link
      have others : ∀ other, other ≠ slot → other ≠ fresh →
          after.mRgns other = memory.mRgns other := by
        intro other notSlot notFresh
        rw [selection.table.rgns, same other notSlot notFresh]
      have member : slot ∈ slots := arranged.toListed.mem selection.isFree (by decide)
      have unlisted : fresh ∉ slots := fun listed => (arranged.exact fresh).mpr listed unused
      have members : ∀ other, other ∈ slots' ↔ other = fresh ∨ other ∈ slots := by
        intro other
        rw [← arranged'.exact other, ← arranged.exact other]
        by_cases isFresh : other = fresh
        · rw [isFresh, record]
          exact iff_of_true MemVirtRgnType.noConfusion (Or.inl rfl)
        · rw [or_iff_right isFresh]
          by_cases here : other = slot
          · rw [here, selection.record.1, selection.isFree]
            exact iff_of_true MemVirtRgnType.noConfusion MemVirtRgnType.noConfusion
          · rw [others other here isFresh]
      rw [arranged'.doublyLinked_iff, first, imp_iff_right shorter]
      refine (arranged.doublyLinked_iff.mp linked).insert_iff arranged.spells member unlisted members
        link ?_ (fun other notSlot notFresh => ?_) ?_ (fun other listed => ?_)
      · rw [record]
      · rw [others other notSlot notFresh]
      · rw [record]
      · by_cases here : other = slot
        · rw [here, prev]
        · rw [others other here (fun isFresh => unlisted (isFresh ▸ listed))]

/-- Freeing changes no link. -/
theorem Bounded.freeVirtual_doublyLinked_iff (bounded : memory.Bounded) {freed : Bool}
    (result : memory.freeVirtual ptr = some (after, freed)) :
    after.DoublyLinked ↔ memory.DoublyLinked := by
  rcases freeVirtual_cases result with ⟨_, rfl, _⟩ | ⟨_, slot, _, used, _, rfl⟩
  · exact Iff.rfl
  · rw [← doublyLinked_of_sameRegions (unmapRgn_table bounded used)]
    apply @doublyLinked_congr_record _ _ slot
    · rfl
    · rw [releaseRgn_self]
    · rw [releaseRgn_self]
    · exact fun _ => releaseRgn_of_ne

end Call

/-- A new table has one region. -/
theorem preinit_doublyLinked (memory : Memory) (rgns : List MemBiosRgn) :
    (memory.preinit rgns).DoublyLinked := by
  rw [(preinit_arranged memory rgns).doublyLinked_iff, preinit_mRgns]
  constructor
  · intro slot member later leads
    rw [List.mem_singleton.mp member, initialRgns_zero] at leads
    cases leads
  · intro slot enters
    have entry : 0 = slot := Option.some.inj enters
    rw [← entry, initialRgns_zero]

end Memory

/-! ## Runs -/

namespace Session

/-- The step cuts no region that has a successor. -/
def CutsLast (session : Session) : Event → Prop
  | .allocVirtual pages => session.memory.CutsLast pages
  | .freeVirtual _ => True
  | .access _ => True

section Run

variable {rel : Nat → Nat → Prop} {high : Nat} {session next : Session} {event : Event}

theorem Tracked.step_doublyLinked_iff (tracked : session.Tracked rel high)
    (ordering : Memory.Ordering rel) (within : high ≤ memPageCount + 1)
    (positive : event.Positive) (linked : session.memory.DoublyLinked)
    (taken : session.step event = some next) :
    next.memory.DoublyLinked ↔ session.CutsLast event := by
  rcases tracked.table with ⟨slots, arranged⟩
  cases event with
  | allocVirtual pages =>
      rcases Option.map_eq_some_iff.mp taken with ⟨⟨after, ptr⟩, result, rfl⟩
      exact arranged.allocVirtual_doublyLinked_iff ordering within positive linked result
  | freeVirtual ptr =>
      rcases Option.map_eq_some_iff.mp taken with ⟨⟨after, freed⟩, result, rfl⟩
      have bounded := arranged.bounded ordering within
      exact iff_of_true ((bounded.freeVirtual_doublyLinked_iff result).mpr linked) trivial
  | access page =>
      rw [← Option.some.inj taken]
      have same := Memory.access_sameRegions session.memory page
      exact iff_of_true ((Memory.doublyLinked_of_sameRegions same).mpr linked) trivial

/-- A run on a doubly linked table keeps it doubly linked exactly when every
region that one of its allocations cuts is the last of the list. -/
theorem run_doublyLinked_iff {memory : Memory} {slots : List Slot}
    (arranged : memory.Arranged rel high slots) (ordering : Memory.Ordering rel)
    (within : high ≤ memPageCount + 1) (linked : memory.DoublyLinked) {events : List Event}
    (positive : ∀ event ∈ events, event.Positive) :
    Run.Always Session.step (fun session => session.memory.DoublyLinked) ⟨memory, []⟩ events ↔
      Run.EachStep Session.step CutsLast ⟨memory, []⟩ events := by
  apply Run.always_iff_eachStep ?_ ?_ (Tracked.start arranged) linked positive
  · exact fun state event next tracked admissible good taken =>
      tracked.step_doublyLinked_iff ordering within admissible good taken
  · exact fun state event next tracked admissible _ _ taken =>
      tracked.step ordering within admissible taken

end Run

theorem run_doublyLinked_iff_preinit :
    Run.Always Session.step (fun session => session.memory.DoublyLinked)
        ⟨Memory.zero.preinit [⟨0, 0x4000, .usable⟩], []⟩ [.allocVirtual 2, .freeVirtual 0] ↔
      Run.EachStep Session.step CutsLast
        ⟨Memory.zero.preinit [⟨0, 0x4000, .usable⟩], []⟩ [.allocVirtual 2, .freeVirtual 0] :=
  run_doublyLinked_iff (Memory.preinit_arranged _ _) Memory.Ordering.eq (Nat.le_succ _)
    (Memory.preinit_doublyLinked _ _) (by decide)

/-- A region of two pages is freed, and one page of it is allocated again: the
second half takes the place of the cut region in the list, and the region
behind it still names the first half as its predecessor. -/
theorem run_not_doublyLinked : ¬ ∀ (memory : Memory) (events : List Event), memory.WellFormed →
    memory.DoublyLinked → (∀ event ∈ events, event.Positive) →
    Run.Always Session.step (fun session => session.memory.DoublyLinked) ⟨memory, []⟩ events := by
  intro claim
  have always := claim (Memory.zero.preinit [⟨0, 0x4000, .usable⟩])
    [.allocVirtual 2, .freeVirtual 0, .allocVirtual 1] (Memory.preinit_wellFormed _ _)
    (Memory.preinit_doublyLinked _ _) (by decide)
  have links : (Session.run ⟨Memory.zero.preinit [⟨0, 0x4000, .usable⟩], []⟩
      [.allocVirtual 2, .freeVirtual 0, .allocVirtual 1]).map (fun session =>
        (session.memory.mFirstRgn, (session.memory.mRgns 0).next, (session.memory.mRgns 2).next,
          (session.memory.mRgns 1).prev)) = some (some 0, some 2, some 1, some 0) := by
    decide +kernel
  rcases Option.map_eq_some_iff.mp links with ⟨last, reached, records⟩
  simp only [Prod.mk.injEq] at records
  rcases records with ⟨first, front, back, stale⟩
  rcases always.of_run reached with ⟨slots, spells, backed⟩
  have second : 2 ∈ slots := spells.next_mem (spells.start_mem first) front
  have right := backed.back 2 second 1 back
  rw [stale] at right
  exact absurd (Option.some.inj right) (by decide)

end Session

end WeakOS
