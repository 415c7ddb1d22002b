import Mathlib
import WeakOS.Memory.Session

namespace WeakOS

open Foundation

namespace Memory

/-!
# Which pages a call touches

A call maps some pages and afterwards unmaps others.  `Effect` records what
that does to page-table entries, TLB and bitmap in terms of the two sets of
pages and the state before the call.  The sets themselves can be read off the
state before the call: `maps` and `unmaps`.

The set of unmapped pages is not empty in two cases: a region is freed, or the
rollback of `alloc_virtual` runs.
-/

/-- What mapping the pages of `mapped` and then unmapping those of `unmapped`
does.  The unmapped pages lie behind the mapped ones. -/
structure Effect (before after : Memory) (mapped unmapped : Set Nat) : Prop where
  directory : after.mPaging.directory = before.mPaging.directory
  behind : ∀ page ∈ unmapped, ∀ other ∈ mapped, other < page
  present : ∀ page ∈ mapped, (after.entry page).present = true
  supplied : ∀ page ∈ mapped, after.frameOf page ∈ before.freeFrames
  cleared : ∀ page ∈ unmapped, after.entry page = { before.entry page with flagsByte := 0 }
  others : ∀ page, page ∉ mapped → page ∉ unmapped → after.entry page = before.entry page
  cached : ∀ page frame, after.tlb page = some frame → before.tlb page = some frame ∧
    (page ∈ mapped → memPageCount ≤ page) ∧ page ∉ before.frameOf '' unmapped
  retained : ∀ page, (∀ other ∈ mapped, other < page) → page ∉ before.frameOf '' unmapped →
    after.tlb page = before.tlb page
  marked : ∀ frame ∈ after.marked, frame ∈ before.marked ∨ frame ∈ before.frameOf '' unmapped
  returned : ∀ page ∈ unmapped, before.frameOf page ∈ after.marked

namespace Effect

variable {before after : Memory} {mapped unmapped : Set Nat}

theorem refl (memory : Memory) : Effect memory memory ∅ ∅ where
  directory := rfl
  behind := fun _ member => absurd member (Set.notMem_empty _)
  present := fun _ member => absurd member (Set.notMem_empty _)
  supplied := fun _ member => absurd member (Set.notMem_empty _)
  cleared := fun _ member => absurd member (Set.notMem_empty _)
  others := fun _ _ _ => rfl
  cached := fun page frame cached => ⟨cached, fun member => absurd member (Set.notMem_empty _), by simp⟩
  retained := fun _ _ _ => rfl
  marked := fun _ member => Or.inl member
  returned := fun _ member => absurd member (Set.notMem_empty _)

/-- An unmapped page is not present. -/
theorem absent (effect : Effect before after mapped unmapped) {page : Nat} (dropped : page ∈ unmapped) :
    (after.entry page).present = false := by
  rw [effect.cleared page dropped]
  exact (by decide : (0 : Flags).getLsbD 0 = false)

/-- The address in an entry only changes when the page is mapped. -/
theorem frameOf_eq (effect : Effect before after mapped unmapped) {page : Nat}
    (outside : page ∉ mapped) : after.frameOf page = before.frameOf page := by
  unfold frameOf
  by_cases dropped : page ∈ unmapped
  · rw [effect.cleared page dropped]
    rfl
  · rw [effect.others page outside dropped]

/-- One more page is mapped. -/
theorem mapTo (effect : Effect before after mapped ∅) {page i : Nat} (new : page ∉ mapped)
    (isFree : i ∈ before.freeFrames) : Effect before (after.mapTo page i) (insert page mapped) ∅ := by
  have inRange : i < memPageCount := (mem_freeFrames.mp isFree).1
  have old : ∀ other ∈ mapped, other ≠ page := fun other member => ne_of_mem_of_not_mem member new
  refine ⟨effect.directory, fun _ member => absurd member (Set.notMem_empty _), ?_, ?_,
    fun _ member => absurd member (Set.notMem_empty _), ?_, ?_, ?_, ?_,
    fun _ member => absurd member (Set.notMem_empty _)⟩
  · intro other member
    rcases Set.mem_insert_iff.mp member with rfl | member
    · exact mapTo_present_self _ _ _
    · rw [mapTo_entry_of_ne _ _ _ (old other member)]
      exact effect.present other member
  · intro other member
    rcases Set.mem_insert_iff.mp member with rfl | member
    · rw [mapTo_frameOf_self _ _ _ inRange]
      exact isFree
    · rw [mapTo_frameOf_of_ne _ _ _ (old other member)]
      exact effect.supplied other member
  · intro other outside noneUnmapped
    rw [Set.mem_insert_iff, not_or] at outside
    rw [mapTo_entry_of_ne _ _ _ outside.1]
    exact effect.others other outside.2 noneUnmapped
  · intro other frame cached
    have earlier := effect.cached other frame (tlb_of_mapTo _ _ _ cached)
    refine ⟨earlier.1, fun member => ?_, earlier.2.2⟩
    rcases Set.mem_insert_iff.mp member with rfl | member
    · by_contra inTable
      rw [mapTo_tlb_self _ _ _ (Nat.not_le.mp inTable)] at cached
      cases cached
    · exact earlier.2.1 member
  · intro other behind notDropped
    rw [mapTo_tlb_of_lt _ _ _ (behind page (Set.mem_insert page mapped))]
    exact effect.retained other (fun one member => behind one (Set.mem_insert_of_mem page member))
      notDropped
  · intro frame member
    rw [mapTo_marked] at member
    exact effect.marked frame member.1

/-- One more page is unmapped. -/
theorem unmapPage (effect : Effect before after mapped unmapped) {page : Nat}
    (last : ∀ other ∈ mapped, other < page) :
    Effect before (after.unmapPage page) mapped (insert page unmapped) := by
  have outside : page ∉ mapped := fun member => Nat.lt_irrefl _ (last page member)
  have frame : after.frameOf page = before.frameOf page := effect.frameOf_eq outside
  have old : ∀ other ∈ mapped, other ≠ page := fun other member => ne_of_mem_of_not_mem member outside
  refine ⟨effect.directory, ?_, ?_, ?_, ?_, ?_, ?_, ?_, ?_, ?_⟩
  · exact fun other member => (Set.mem_insert_iff.mp member).elim (fun same => same ▸ last)
      (effect.behind other)
  · intro other member
    rw [unmapPage_entry_of_ne _ _ (old other member)]
    exact effect.present other member
  · intro other member
    rw [unmapPage_frameOf]
    exact effect.supplied other member
  · intro other member
    by_cases same : other = page
    · rw [same, unmapPage_entry_self]
      exact congrArg (PageTableEntry.mk 0) (BitVec.eq_of_toNat_eq frame)
    · rw [unmapPage_entry_of_ne _ _ same]
      exact effect.cleared other (Set.mem_of_mem_insert_of_ne member same)
  · intro other notMapped notUnmapped
    rw [Set.mem_insert_iff, not_or] at notUnmapped
    rw [unmapPage_entry_of_ne _ _ notUnmapped.1]
    exact effect.others other notMapped notUnmapped.2
  · intro other translation cached
    rw [unmapPage_tlb, Function.update_apply, frame] at cached
    split at cached
    · cases cached
    · rename_i different
      have earlier := effect.cached other translation cached
      refine ⟨earlier.1, earlier.2.1, ?_⟩
      rw [Set.image_insert_eq, Set.mem_insert_iff, not_or]
      exact ⟨different, earlier.2.2⟩
  · intro other behind notDropped
    rw [Set.image_insert_eq, Set.mem_insert_iff, not_or] at notDropped
    rw [unmapPage_tlb, frame, Function.update_of_ne notDropped.1]
    exact effect.retained other behind notDropped.2
  · intro item member
    rw [unmapPage_marked, frame] at member
    rw [Set.image_insert_eq]
    rcases Set.mem_insert_iff.mp member with same | member
    · exact Or.inr (same ▸ Set.mem_insert _ _)
    · exact (effect.marked item member).imp id (Set.mem_insert_of_mem _)
  · intro other member
    rw [unmapPage_marked, frame]
    rcases Set.mem_insert_iff.mp member with rfl | member
    · exact Set.mem_insert _ _
    · exact Set.mem_insert_of_mem _ (effect.returned other member)

end Effect

/-! ## The loops -/

section Loops

variable {memory : Memory} {base pages : Nat}

/-- The rollback after `i` mapped pages unmaps page `base + i`, if it unmaps
anything. -/
def rolledBack (base i : Nat) : Set Nat := {page | 0 < i ∧ page = base + i}

theorem rollback_effect {before current : Memory} {i : Nat}
    (effect : Effect before current (Set.Ico base (base + i)) ∅) :
    Effect before (rollback base i current) (Set.Ico base (base + i)) (rolledBack base i) := by
  have last : ∀ other ∈ Set.Ico base (base + i), other < base + i := fun _ member => member.2
  rcases Nat.eq_zero_or_pos i with rfl | positive
  · have nothing : rolledBack base 0 = ∅ :=
      Set.eq_empty_of_forall_notMem (fun _ member => Nat.lt_irrefl 0 member.1)
    rw [nothing]
    exact effect
  · have single : rolledBack base i = {base + i} := by
      ext page
      exact and_iff_right positive
    rw [single]
    -- The first of the `i` unmappings does the work, the others repeat it.
    have repeated : ∀ times, Effect before ((fun memory => memory.unmapPage (base + i))^[times + 1] current)
        (Set.Ico base (base + i)) {base + i} := by
      intro times
      induction times with
      | zero =>
          have once := effect.unmapPage last
          rwa [insert_empty_eq] at once
      | succ times inductionHypothesis =>
          rw [Function.iterate_succ_apply']
          have again := inductionHypothesis.unmapPage last
          rwa [Set.insert_eq_of_mem (Set.mem_singleton _)] at again
    have all := repeated (i - 1)
    rwa [Nat.sub_add_cancel positive] at all

/-- Noting a call to `map_page` is no effect on pages. -/
theorem Effect.note {before after : Memory} {mapped unmapped : Set Nat}
    (effect : Effect before after mapped unmapped) (page : Nat) :
    Effect before (after.note page) mapped unmapped :=
  ⟨effect.directory, effect.behind, effect.present, effect.supplied, effect.cleared, effect.others,
    effect.cached, effect.retained, effect.marked, effect.returned⟩

/-- The mapping loop maps as many pages as there are frames, and rolls back
when there are too few. -/
theorem mapRgn_effect (bound : base + pages ≤ 2 ^ 32) :
    Effect memory (mapRgn base pages 0 memory).1
      (Set.Ico base (base + min pages memory.freeFrames.card))
      {page | memory.freeFrames.card < pages ∧ page ∈ rolledBack base memory.freeFrames.card} := by
  have looped := mapRgn_rule
    (P := fun k current => current.freeFrames.card + k = memory.freeFrames.card ∧
      Effect memory current (Set.Ico base (base + k)) ∅ ∧ current.freeFrames ⊆ memory.freeFrames)
    ⟨Nat.add_zero _, by rw [Nat.add_zero, Set.Ico_self]; exact Effect.refl memory, fun _ member => member⟩
    (by rwa [Nat.zero_add] : base + (0 + pages) ≤ 2 ^ 32) (by
      intro k current frame _ _ ⟨count, effect, fewer⟩ least
      have isFree := Finset.mem_coe.mp least.1
      have taken := Finset.card_erase_add_one isFree
      have new : base + k ∉ Set.Ico base (base + k) := fun member => Nat.lt_irrefl _ member.2
      have mapped := effect.mapTo new (fewer isFree)
      rw [Set.insert_Ico_right_eq_Ico_add_one (Nat.le_add_right base k)] at mapped
      rw [mapTo_freeFrames]
      exact ⟨by omega, mapped, (Finset.erase_subset _ _).trans fewer⟩)
  rcases looped with ⟨_, count, effect, _⟩ |
    ⟨_, k, current, _, short, ⟨count, effect, _⟩, exhausted, result⟩
  · have enough : ¬ memory.freeFrames.card < pages := by omega
    have nothing : {page | memory.freeFrames.card < pages ∧
        page ∈ rolledBack base memory.freeFrames.card} = ∅ :=
      Set.eq_empty_of_forall_notMem (fun _ member => enough member.1)
    rw [nothing, Nat.min_eq_left (Nat.not_lt.mp enough)]
    rwa [Nat.zero_add] at effect
  · rw [exhausted, Finset.card_empty, Nat.zero_add] at count
    have rolled : {page | k < pages ∧ page ∈ rolledBack base k} = rolledBack base k := by
      ext page
      exact and_iff_right (by omega)
    rw [← count, rolled, result, Nat.min_eq_right (by omega)]
    exact rollback_effect (effect.note _)

/-- The unmapping loop. -/
theorem unmapRgn_effect (bound : base + pages ≤ 2 ^ 32) :
    Effect memory (unmapRgn base pages 0 memory) ∅ (Set.Ico base (base + pages)) := by
  have looped := unmapRgn_rule
    (P := fun k current => Effect memory current ∅ (Set.Ico base (base + k)))
    (by rw [Nat.add_zero, Set.Ico_self]; exact Effect.refl memory)
    (by rwa [Nat.zero_add] : base + (0 + pages) ≤ 2 ^ 32) (by
      intro k current _ _ effect
      have last : ∀ other ∈ (∅ : Set Nat), other < base + k :=
        fun other member => absurd member (Set.notMem_empty other)
      have unmapped := effect.unmapPage last
      rwa [Set.insert_Ico_right_eq_Ico_add_one (Nat.le_add_right base k)] at unmapped)
  rwa [Nat.zero_add] at looped

end Loops

/-! ## The calls -/

/-- The pages a call maps. -/
def maps (memory : Memory) : Event → Set Nat
  | .allocVirtual pages => {page | ∃ slot, memory.findRgn (fits pages) = some (some slot) ∧
      page ∈ Set.Ico (memory.mRgns slot).base
        ((memory.mRgns slot).base + min pages memory.freeFrames.card)}
  | .freeVirtual _ => ∅
  | .access _ => ∅

/-- The pages a call unmaps: those of the region it frees, or the page at which
an allocation ran out of frames. -/
def unmaps (memory : Memory) : Event → Set Nat
  | .allocVirtual pages => {page | ∃ slot, memory.findRgn (fits pages) = some (some slot) ∧
      memory.freeFrames.card < pages ∧
      page ∈ rolledBack (memory.mRgns slot).base memory.freeFrames.card}
  | .freeVirtual ptr => {page | ptr % 0x1000 = 0 ∧
      ∃ slot, memory.findRgn (startsAt (ptr / 0x1000)) = some (some slot) ∧
        memory.mRgns.Contains slot page}
  | .access _ => ∅

section Calls

variable {memory after : Memory} {pages ptr : Nat} {slot : Slot}

theorem maps_allocVirtual_of_found (found : memory.findRgn (fits pages) = some (some slot)) :
    memory.maps (.allocVirtual pages) = Set.Ico (memory.mRgns slot).base
      ((memory.mRgns slot).base + min pages memory.freeFrames.card) := by
  ext page
  simp only [maps, found, Option.some.injEq, Set.mem_ofPred_eq, exists_eq_left']

theorem unmaps_allocVirtual_of_found (found : memory.findRgn (fits pages) = some (some slot)) :
    memory.unmaps (.allocVirtual pages) = {page | memory.freeFrames.card < pages ∧
      page ∈ rolledBack (memory.mRgns slot).base memory.freeFrames.card} := by
  ext page
  simp only [unmaps, found, Option.some.injEq, Set.mem_ofPred_eq, exists_eq_left']

theorem unmaps_freeVirtual_of_found (aligned : ptr % 0x1000 = 0)
    (found : memory.findRgn (startsAt (ptr / 0x1000)) = some (some slot)) :
    memory.unmaps (.freeVirtual ptr) = Set.Ico (memory.mRgns slot).base
      ((memory.mRgns slot).base + (memory.mRgns slot).length) := by
  ext page
  simp only [unmaps, found, aligned, Option.some.injEq, Set.mem_ofPred_eq, exists_eq_left', true_and]
  exact Iff.rfl

/-- The region table plays no part in an effect. -/
theorem Effect.of_rgns {before after : Memory} {mapped unmapped : Set Nat} {rgns : Regions}
    (effect : Effect { before with mRgns := rgns } after mapped unmapped) :
    Effect before after mapped unmapped :=
  ⟨effect.directory, effect.behind, effect.present, effect.supplied, effect.cleared, effect.others,
    effect.cached, effect.retained, effect.marked, effect.returned⟩

theorem Effect.release {before after : Memory} {mapped unmapped : Set Nat}
    (effect : Effect before after mapped unmapped) (slot : Slot) :
    Effect before (after.releaseRgn slot) mapped unmapped :=
  ⟨effect.directory, effect.behind, effect.present, effect.supplied, effect.cleared, effect.others,
    effect.cached, effect.retained, effect.marked, effect.returned⟩

/-- A call keeps the regions within the tables. -/
theorem Bounded.allocVirtual_bounded (bounded : memory.Bounded)
    (result : memory.allocVirtual pages = some (after, ptr)) : after.Bounded := by
  rcases allocVirtual_cases bounded result with ⟨_, rfl, _⟩ | ⟨slot, claimed, selection⟩
  · exact bounded
  · have claim := selection.claim.bounded selection.isFree selection.enough bounded
    exact claim.of_sameRegions selection.table

theorem Bounded.freeVirtual_bounded (bounded : memory.Bounded) {freed : Bool}
    (result : memory.freeVirtual ptr = some (after, freed)) : after.Bounded := by
  rcases freeVirtual_cases result with ⟨_, rfl, _⟩ | ⟨_, slot, _, used, _, rfl⟩
  · exact bounded
  · have same := unmapRgn_table bounded used
    exact (bounded.of_sameRegions same).release (by rw [same.rgns]; exact used)

theorem Bounded.allocVirtual_effect (bounded : memory.Bounded)
    (result : memory.allocVirtual pages = some (after, ptr)) :
    Effect memory after (memory.maps (.allocVirtual pages)) (memory.unmaps (.allocVirtual pages)) := by
  rcases allocVirtual_cases bounded result with ⟨missing, rfl, _⟩ | ⟨slot, claimed, selection⟩
  · have nothing : after.maps (.allocVirtual pages) = ∅ ∧ after.unmaps (.allocVirtual pages) = ∅ := by
      simp [maps, unmaps, missing]
    rw [nothing.1, nothing.2]
    exact Effect.refl after
  · have looped : Effect claimed _ _ _ := mapRgn_effect selection.range
    rw [selection.frames, ← maps_allocVirtual_of_found selection.found,
      ← unmaps_allocVirtual_of_found selection.found, ← selection.mapped, selection.claim.keeps] at looped
    exact looped.of_rgns

theorem Bounded.freeVirtual_effect (bounded : memory.Bounded) {freed : Bool}
    (result : memory.freeVirtual ptr = some (after, freed)) :
    Effect memory after ∅ (memory.unmaps (.freeVirtual ptr)) := by
  rcases freeVirtual_cases result with ⟨_, rfl, missing⟩ | ⟨_, slot, found, used, address, rfl⟩
  · have nothing : after.unmaps (.freeVirtual ptr) = ∅ := by
      refine Set.eq_empty_of_forall_notMem (fun page member => ?_)
      rcases member with ⟨aligned, slot, found, _⟩
      rw [missing aligned] at found
      cases found
    rw [nothing]
    exact Effect.refl after
  · have bound := bounded slot (ne_none_of_used used)
    have pageCount := memPageCount_eq
    rw [unmaps_freeVirtual_of_found (by omega) found]
    exact (unmapRgn_effect (by omega)).release slot

/-- When a call returns a pointer, it has mapped every page of the range. -/
theorem Bounded.mem_maps_of_returned (bounded : memory.Bounded)
    (result : memory.allocVirtual pages = some (after, ptr)) (returned : ptr ≠ 0) {page : Nat}
    (contains : Allocation.Contains ⟨ptr, pages⟩ page) : page ∈ memory.maps (.allocVirtual pages) := by
  have positive : 1 ≤ pages := by
    have range := contains
    simp only [Allocation.Contains] at range
    omega
  rcases bounded.allocVirtual_returned positive result returned with
    ⟨slot, found, _, _, supplied, address, _⟩
  rw [maps_allocVirtual_of_found found, Nat.min_eq_left supplied, Set.mem_Ico]
  simp only [Allocation.Contains] at contains
  omega

end Calls

end Memory

/-- A step keeps the regions within the tables. -/
theorem Memory.Bounded.step {session next : Session} {event : Event}
    (bounded : session.memory.Bounded) (taken : session.step event = some next) :
    next.memory.Bounded := by
  cases event with
  | allocVirtual pages =>
      rcases Option.map_eq_some_iff.mp taken with ⟨⟨after, ptr⟩, result, rfl⟩
      exact bounded.allocVirtual_bounded result
  | freeVirtual ptr =>
      rcases Option.map_eq_some_iff.mp taken with ⟨⟨after, freed⟩, result, rfl⟩
      exact bounded.freeVirtual_bounded result
  | access page =>
      rw [← Option.some.inj taken]
      exact bounded.of_sameRegions (Memory.access_sameRegions session.memory page)

end WeakOS
