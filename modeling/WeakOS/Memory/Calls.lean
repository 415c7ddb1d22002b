import Mathlib
import WeakOS.Memory.RegionTable

namespace WeakOS

open Foundation

namespace Memory

/-!
# Everything the two calls can do

One inversion lemma for `alloc_virtual` and one for `free_virtual` list the
outcomes of a call that returns, for any region table whose regions lie within
the page tables.  On an arranged table the calls always return.

The regions of a table may reach one page past the tables: that page is the
first word behind them, and the boot reservations do leave such a region.
-/

/-- Every region lies within the page tables, or ends one page behind them. -/
def Bounded (memory : Memory) : Prop :=
  ∀ slot, (memory.mRgns slot).type ≠ .none →
    (memory.mRgns slot).base + (memory.mRgns slot).length ≤ memPageCount + 1

theorem Arranged.bounded {rel : Nat → Nat → Prop} {high : Nat} {memory : Memory}
    {slots : List Slot} (arranged : memory.Arranged rel high slots) (ordering : Ordering rel)
    (within : high ≤ memPageCount + 1) : memory.Bounded :=
  fun _slot inUse => Nat.le_trans (arranged.bounds ordering inUse).2 within

theorem Bounded.of_sameRegions {before after : Memory} (bounded : before.Bounded)
    (same : SameRegions before after) : after.Bounded := by
  unfold Bounded
  rw [same.rgns]
  exact bounded

theorem Claimed.bounded {before after : Memory} {slot : Slot} {pages : Nat}
    (claimed : Claimed before after slot pages) (isFree : (before.mRgns slot).type = .free)
    (enough : pages ≤ (before.mRgns slot).length) (bounded : before.Bounded) : after.Bounded := by
  have whole := bounded slot (ne_none_of_free isFree)
  intro other inUse
  by_cases here : other = slot
  · rw [here, claimed.base_eq, claimed.length_eq]
    omega
  · rcases claimed.rest with ⟨_, _, same⟩ | ⟨fresh, _, _, record, _, same⟩
    · rw [same other here] at inUse ⊢
      exact bounded other inUse
    · by_cases isFresh : other = fresh
      · rw [isFresh, record]
        show (before.mRgns slot).base + pages + ((before.mRgns slot).length - pages) ≤ _
        omega
      · rw [same other here isFresh] at inUse ⊢
        exact bounded other inUse

theorem Bounded.release {memory : Memory} {slot : Slot} (bounded : memory.Bounded)
    (used : (memory.mRgns slot).type = .used) : (memory.releaseRgn slot).Bounded := by
  intro other inUse
  by_cases here : other = slot
  · rw [here, releaseRgn_self]
    exact bounded slot (ne_none_of_used used)
  · rw [releaseRgn_of_ne here] at inUse ⊢
    exact bounded other inUse

/-- What `alloc_virtual` returns after claiming a region: the outcome of the
mapping loop over the claimed pages. -/
theorem Claimed.mapClaimed_eq {before claimed : Memory} {slot : Slot} {pages : Nat}
    (claim : Claimed before claimed slot pages) :
    mapClaimed claimed slot =
      ((mapRgn (before.mRgns slot).base pages 0 claimed).1,
        if (mapRgn (before.mRgns slot).base pages 0 claimed).2
        then u32 ((before.mRgns slot).base * 0x1000) else 0) := by
  unfold mapClaimed
  rw [claim.base_eq, claim.length_eq]

/-- A call of `alloc_virtual` that finds a region: its first pages are claimed,
and whether they can be mapped decides about the pointer. -/
structure Selection (memory after : Memory) (pages ptr : Nat) (slot : Slot) (claimed : Memory) :
    Prop where
  found : memory.findRgn (fits pages) = some (some slot)
  isFree : (memory.mRgns slot).type = .free
  enough : pages ≤ (memory.mRgns slot).length
  bound : (memory.mRgns slot).base + pages ≤ memPageCount + 1
  claim : Claimed memory claimed slot pages
  mapped : after = (mapRgn (memory.mRgns slot).base pages 0 claimed).1
  address : ptr = if (mapRgn (memory.mRgns slot).base pages 0 claimed).2
    then u32 ((memory.mRgns slot).base * 0x1000) else 0

/-- The outcomes of `alloc_virtual`: no region fits and nothing changes, or
the first fitting region is selected. -/
theorem allocVirtual_cases {memory after : Memory} {pages ptr : Nat} (bounded : memory.Bounded)
    (result : memory.allocVirtual pages = some (after, ptr)) :
    (memory.findRgn (fits pages) = some none ∧ after = memory ∧ ptr = 0) ∨
      ∃ slot claimed, Selection memory after pages ptr slot claimed := by
  rw [allocVirtual_eq] at result
  cases found : memory.findRgn (fits pages) with
  | none => simp [found] at result
  | some found? =>
      cases found? with
      | none =>
          simp only [found, Option.some.injEq, Prod.mk.injEq] at result
          exact Or.inl ⟨rfl, result.1.symm, result.2.symm⟩
      | some slot =>
          have fitting := accept_of_findRgn found
          rcases fits_iff.mp fitting with ⟨isFree, enough⟩
          have bound := bounded slot (ne_none_of_free isFree)
          have pageCount := memPageCount_eq
          simp only [found, Option.map_eq_some_iff] at result
          rcases result with ⟨claimed, claim, mapped⟩
          have spec := claimRgn_spec fitting (by omega) claim
          rw [spec.mapClaimed_eq, Prod.mk.injEq] at mapped
          exact Or.inr ⟨slot, claimed, found, isFree, enough, by omega, spec, mapped.1.symm,
            mapped.2.symm⟩

namespace Selection

variable {memory after claimed : Memory} {pages ptr : Nat} {slot : Slot}

/-- The call that finds a region selects it. -/
theorem of_found (bounded : memory.Bounded)
    (found : memory.findRgn (fits pages) = some (some slot))
    (result : memory.allocVirtual pages = some (after, ptr)) :
    ∃ claimed, Selection memory after pages ptr slot claimed := by
  rcases allocVirtual_cases bounded result with ⟨missing, _⟩ | ⟨other, claimed, selection⟩
  · rw [found] at missing
    cases missing
  · have same := selection.found
    rw [found, Option.some.injEq, Option.some.injEq] at same
    exact ⟨claimed, same ▸ selection⟩

variable (selection : Selection memory after pages ptr slot claimed)

include selection

/-- The pages are numbers of 32 bits. -/
theorem range : (memory.mRgns slot).base + pages ≤ 2 ^ 32 := by
  have bound := selection.bound
  have pageCount := memPageCount_eq
  omega

/-- Claiming takes no frames. -/
theorem frames : claimed.freeFrames = memory.freeFrames := by
  rw [selection.claim.keeps]
  rfl

/-- Mapping leaves the table as the claim left it. -/
theorem table : SameRegions claimed after := by
  rw [selection.mapped]
  exact mapRgn_sameRegions claimed selection.range

theorem succeeds_iff : (mapRgn (memory.mRgns slot).base pages 0 claimed).2 = true ↔
    pages ≤ memory.freeFrames.card := by
  rw [mapRgn_succeeds_iff claimed selection.range, selection.frames]

/-- With a frame for every page, the pointer is the address of the region. -/
theorem ptr_of_supplied (supplied : pages ≤ memory.freeFrames.card) :
    ptr = u32 ((memory.mRgns slot).base * 0x1000) := by
  rw [selection.address, if_pos (selection.succeeds_iff.mpr supplied)]

/-- With fewer frames it is null. -/
theorem ptr_of_short (short : memory.freeFrames.card < pages) : ptr = 0 := by
  rw [selection.address, if_neg (fun mapped =>
    Nat.not_le.mpr short (selection.succeeds_iff.mp mapped))]

theorem supplied_of_returned (returned : ptr ≠ 0) : pages ≤ memory.freeFrames.card := by
  by_contra short
  exact returned (selection.ptr_of_short (Nat.not_le.mp short))

/-- Afterwards the region is used and has the asked length. -/
theorem record : (after.mRgns slot).type = .used ∧
    (after.mRgns slot).base = (memory.mRgns slot).base ∧ (after.mRgns slot).length = pages := by
  rw [selection.table.rgns]
  exact ⟨selection.claim.type_eq, selection.claim.base_eq, selection.claim.length_eq⟩

end Selection

/-- The outcomes of `free_virtual`: the pointer is rejected and nothing
changes, or the used region that starts there is unmapped and released. -/
theorem freeVirtual_cases {memory after : Memory} {ptr : Nat} {freed : Bool}
    (result : memory.freeVirtual ptr = some (after, freed)) :
    (freed = false ∧ after = memory ∧
        (ptr % 0x1000 = 0 → memory.findRgn (startsAt (ptr / 0x1000)) = some none)) ∨
      freed = true ∧ ∃ slot, memory.findRgn (startsAt (ptr / 0x1000)) = some (some slot) ∧
        (memory.mRgns slot).type = .used ∧ ptr = (memory.mRgns slot).base * 0x1000 ∧
        after = (unmapRgn (memory.mRgns slot).base (memory.mRgns slot).length 0 memory).releaseRgn
          slot := by
  rw [freeVirtual_eq] at result
  by_cases aligned : ptr % 0x1000 = 0
  · rw [if_neg (not_not.mpr aligned)] at result
    cases found : memory.findRgn (startsAt (ptr / 0x1000)) with
    | none => simp [found] at result
    | some found? =>
        cases found? with
        | none =>
            simp only [found, Option.some.injEq, Prod.mk.injEq] at result
            exact Or.inl ⟨result.2.symm, result.1.symm, fun _ => rfl⟩
        | some slot =>
            rcases startsAt_iff.mp (accept_of_findRgn found) with ⟨base, used⟩
            simp only [found, Option.some.injEq, Prod.mk.injEq] at result
            exact Or.inr ⟨result.2.symm, slot, rfl, used, by omega, result.1.symm⟩
  · rw [if_pos aligned, Option.some.injEq, Prod.mk.injEq] at result
    exact Or.inl ⟨result.2.symm, result.1.symm, fun zero => absurd zero aligned⟩

section Returns

variable {rel : Nat → Nat → Prop} {high : Nat} {memory : Memory} {slots : List Slot}

/-- On an arranged table `alloc_virtual` returns: the traversal ends, and a
region that has to be cut leaves an unused slot. -/
theorem Arranged.allocVirtual_returns (arranged : memory.Arranged rel high slots) {pages : Nat}
    (positive : 1 ≤ pages) : ∃ after ptr, memory.allocVirtual pages = some (after, ptr) := by
  rw [allocVirtual_eq, arranged.findRgn_eq]
  cases found : slots.find? (fun slot => fits pages (memory.mRgns slot)) with
  | none => exact ⟨memory, 0, rfl⟩
  | some slot =>
      have member := List.mem_of_find?_eq_some found
      have claims : ∃ claimed, memory.claimRgn slot pages = some claimed := by
        unfold claimRgn
        by_cases shorter : pages < (memory.mRgns slot).length
        · rcases arranged.exists_unused member (by omega) with ⟨fresh, scan⟩
          rw [if_pos shorter, splitRgn, scan]
          exact ⟨_, rfl⟩
        · rw [if_neg shorter]
          exact ⟨_, rfl⟩
      rcases claims with ⟨claimed, claim⟩
      exact ⟨(mapClaimed claimed slot).1, (mapClaimed claimed slot).2, by
        simp only [claim, Option.map_some]⟩

/-- On an arranged table `free_virtual` returns. -/
theorem Arranged.freeVirtual_returns (arranged : memory.Arranged rel high slots) (ptr : Nat) :
    ∃ after freed, memory.freeVirtual ptr = some (after, freed) := by
  rw [freeVirtual_eq, arranged.findRgn_eq]
  by_cases aligned : ptr % 0x1000 = 0
  · rw [if_neg (not_not.mpr aligned)]
    cases slots.find? (fun slot => startsAt (ptr / 0x1000) (memory.mRgns slot)) with
    | none => exact ⟨memory, false, rfl⟩
    | some slot => exact ⟨_, true, rfl⟩
  · rw [if_pos aligned]
    exact ⟨memory, false, rfl⟩

end Returns

/-! ## The calls to `map_page` -/

section MapCalls

variable {memory : Memory} {base pages : Nat}

/-- The mapping loop calls `map_page` for pages of the range only. -/
theorem mapRgn_mapCalls (bound : base + pages ≤ 2 ^ 32) :
    ∀ page ∈ (mapRgn base pages 0 memory).1.mapCalls,
      page ∈ memory.mapCalls ∨ (base ≤ page ∧ page < base + pages) := by
  have looped := mapRgn_rule
    (P := fun _ current => ∀ page ∈ current.mapCalls,
      page ∈ memory.mapCalls ∨ (base ≤ page ∧ page < base + pages))
    (fun _ member => Or.inl member) (by rwa [Nat.zero_add] : base + (0 + pages) ≤ 2 ^ 32) (by
      intro k current frame _ small known _ page member
      rcases List.mem_cons.mp member with rfl | member
      · exact Or.inr ⟨Nat.le_add_right base k, by omega⟩
      · exact known page member)
  rcases looped with ⟨_, known⟩ | ⟨_, k, current, _, small, known, _, result⟩
  · exact known
  · rw [result]
    refine rollback_rule (P := fun current => ∀ page ∈ current.mapCalls,
      page ∈ memory.mapCalls ∨ (base ≤ page ∧ page < base + pages)) ?_ (fun _ _ known => known)
    intro page member
    rcases List.mem_cons.mp member with rfl | member
    · exact Or.inr ⟨Nat.le_add_right base k, by omega⟩
    · exact known page member

/-- The first page of the range is always asked for. -/
theorem first_mem_mapCalls (bound : base + pages ≤ 2 ^ 32) (positive : 1 ≤ pages) :
    base ∈ (mapRgn base pages 0 memory).1.mapCalls := by
  have looped := mapRgn_rule (P := fun k current => 0 < k → base ∈ current.mapCalls)
    (show 0 < 0 → base ∈ memory.mapCalls from fun none => absurd none (Nat.lt_irrefl 0))
    (by rwa [Nat.zero_add] : base + (0 + pages) ≤ 2 ^ 32) (by
      intro k current frame _ _ known _ _
      rcases Nat.eq_zero_or_pos k with rfl | later
      · exact List.mem_cons_self
      · exact List.mem_cons_of_mem _ (known later))
  rcases looped with ⟨_, known⟩ | ⟨_, k, current, _, _, known, _, result⟩
  · exact known (by omega)
  · rw [result]
    refine rollback_rule (P := fun current => base ∈ current.mapCalls) ?_ (fun _ _ known => known)
    rcases Nat.eq_zero_or_pos k with rfl | later
    · exact List.mem_cons_self
    · exact List.mem_cons_of_mem _ (known later)

/-- The unmapping loop does not call `map_page`. -/
theorem unmapRgn_mapCalls (bound : base + pages ≤ 2 ^ 32) :
    (unmapRgn base pages 0 memory).mapCalls = memory.mapCalls :=
  unmapRgn_rule (P := fun _ current => current.mapCalls = memory.mapCalls) rfl
    (by rwa [Nat.zero_add] : base + (0 + pages) ≤ 2 ^ 32) (fun _ _ _ _ known => known)

end MapCalls

/-! ## The region table after a call -/

section Table

variable {rel : Nat → Nat → Prop} {high : Nat} {memory claimed : Memory} {slots : List Slot}
  {slot : Slot} {pages : Nat}

/-- Unmapping a region leaves the table as it was. -/
theorem unmapRgn_table (bounded : memory.Bounded) (used : (memory.mRgns slot).type = .used) :
    SameRegions memory
      (unmapRgn (memory.mRgns slot).base (memory.mRgns slot).length 0 memory) := by
  have bound := bounded slot (ne_none_of_used used)
  have pageCount := memPageCount_eq
  exact unmapRgn_sameRegions memory (by omega)

/-- A call to `alloc_virtual` keeps an arrangement, whether it succeeds,
finds no region or runs out of frames. -/
theorem Arranged.allocVirtual_arranged (arranged : memory.Arranged rel high slots)
    (ordering : Ordering rel) (within : high ≤ memPageCount + 1) (positive : 1 ≤ pages)
    {after : Memory} {ptr : Nat} (result : memory.allocVirtual pages = some (after, ptr)) :
    ∃ slots', after.Arranged rel high slots' := by
  have bounded := arranged.bounded ordering within
  rcases allocVirtual_cases bounded result with ⟨_, rfl, _⟩ | ⟨slot, claimed, selection⟩
  · exact ⟨slots, arranged⟩
  · rcases selection.claim.arranged selection.isFree arranged ordering.refl positive with
      ⟨slots', kept⟩
    exact ⟨slots', kept.of_sameRegions selection.table⟩

/-- A call to `free_virtual` keeps an arrangement. -/
theorem Arranged.freeVirtual_arranged (arranged : memory.Arranged rel high slots)
    (ordering : Ordering rel) (within : high ≤ memPageCount + 1) {after : Memory} {ptr : Nat}
    {freed : Bool} (result : memory.freeVirtual ptr = some (after, freed)) :
    after.Arranged rel high slots := by
  have bounded := arranged.bounded ordering within
  rcases freeVirtual_cases result with ⟨_, rfl, _⟩ | ⟨_, slot, _, used, _, rfl⟩
  · exact arranged
  · have same := unmapRgn_table bounded used
    have unmapped := arranged.of_sameRegions same
    exact unmapped.release (by rw [same.rgns]; exact used)

end Table

end Memory

end WeakOS
