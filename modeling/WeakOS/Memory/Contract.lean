import Mathlib
import WeakOS.Memory.Steps

namespace WeakOS

open Foundation

/-!
# What the two calls do, in full

A call that returns a pointer moves frames and pages: the lowest free frames go
to the pages of a range, and the pages go from free to used.  A call that frees
a pointer moves them back.  The two moves are described for page-table entries
and bitmap together, and for the types of all pages.
-/

namespace Memory

/-- The pages of a range have got the lowest free frames, in order, and nothing else
has changed in the tables and in the bitmap. -/
structure Mapped (before after : Memory) (base pages : Nat) : Prop where
  directory : after.mPaging.directory = before.mPaging.directory
  flags : ∀ i < pages, (after.entry (base + i)).flagsByte = PteFlags.genericUser
  ranked : ∀ i < pages, after.frameOf (base + i) ∈ before.freeFrames ∧
    Rank.rank before.freeFrames (after.frameOf (base + i)) = i
  others : ∀ page, page ∉ Set.Ico base (base + pages) → after.entry page = before.entry page
  bits : after.marked = before.marked \ after.frameOf '' Set.Ico base (base + pages)

/-- The pages of a range are no longer present and the frames in their entries are
marked, and nothing else has changed in the tables and in the bitmap. -/
structure Unmapped (before after : Memory) (base pages : Nat) : Prop where
  directory : after.mPaging.directory = before.mPaging.directory
  cleared : ∀ i < pages, after.entry (base + i) = { before.entry (base + i) with flagsByte := 0 }
  others : ∀ page, page ∉ Set.Ico base (base + pages) → after.entry page = before.entry page
  bits : after.marked = before.marked ∪ before.frameOf '' Set.Ico base (base + pages)

/-- The pages of a range go from one type to another, and no other page changes. -/
structure Retyped (before after : Memory) (range : Set Nat) (old new : MemVirtRgnType) : Prop where
  was : ∀ page ∈ range, before.mRgns.HasType page old
  is : ∀ page ∈ range, ∀ type, type ≠ .none → (after.mRgns.HasType page type ↔ type = new)
  others : ∀ page, page ∉ range → ∀ type, type ≠ .none →
    (after.mRgns.HasType page type ↔ before.mRgns.HasType page type)

/-! ## The loops -/

section Loops

variable {memory : Memory} {base pages : Nat}

/-- The mapping loop clears the bits of the frames it hands out, and sets the flags. -/
theorem mapRgn_bits (bound : base + pages ≤ 2 ^ 32) (supplied : pages ≤ memory.freeFrames.card) :
    (mapRgn base pages 0 memory).1.marked =
        memory.marked \ (mapRgn base pages 0 memory).1.frameOf '' Set.Ico base (base + pages) ∧
      ∀ i < pages,
        ((mapRgn base pages 0 memory).1.entry (base + i)).flagsByte = PteFlags.genericUser := by
  have looped := mapRgn_rule
    (P := fun k current =>
      current.marked = memory.marked \ current.frameOf '' Set.Ico base (base + k) ∧
        ∀ i < k, (current.entry (base + i)).flagsByte = PteFlags.genericUser)
    ⟨by rw [Nat.add_zero, Set.Ico_self, Set.image_empty, Set.sdiff_empty],
      fun i none => absurd none (Nat.not_lt_zero i)⟩
    (by rwa [Nat.zero_add] : base + (0 + pages) ≤ 2 ^ 32) (by
      intro k current frame _ _ ⟨bits, flags⟩ least
      have inRange := (mem_freeFrames.mp (Finset.mem_coe.mp least.1)).1
      have earlier : Set.EqOn (current.mapTo (base + k) frame).frameOf current.frameOf
          (Set.Ico base (base + k)) := fun page member =>
        mapTo_frameOf_of_ne _ _ _ (Nat.ne_of_lt member.2)
      have range : Set.Ico base (base + (k + 1)) = insert (base + k) (Set.Ico base (base + k)) :=
        (Set.insert_Ico_right_eq_Ico_add_one (Nat.le_add_right base k)).symm
      constructor
      · rw [mapTo_marked, bits, range, Set.image_insert_eq, mapTo_frameOf_self _ _ _ inRange,
          earlier.image_eq, Set.sdiff_sdiff, Set.union_singleton]
      · intro i below
        by_cases last : i = k
        · rw [last, mapTo_entry_self]
        · rw [mapTo_entry_of_ne _ _ _ (by omega)]
          exact flags i (by omega))
  rcases looped with ⟨_, done⟩ | ⟨failed, _⟩
  · rwa [Nat.zero_add] at done
  · rw [(mapRgn_succeeds_iff memory bound).mpr supplied] at failed
    cases failed

/-- The unmapping loop sets the bits of the frames in the entries. -/
theorem unmapRgn_bits (bound : base + pages ≤ 2 ^ 32) :
    (unmapRgn base pages 0 memory).marked =
      memory.marked ∪ memory.frameOf '' Set.Ico base (base + pages) := by
  have looped := unmapRgn_rule
    (P := fun k current => current.frameOf = memory.frameOf ∧
      current.marked = memory.marked ∪ memory.frameOf '' Set.Ico base (base + k))
    ⟨rfl, by rw [Nat.add_zero, Set.Ico_self, Set.image_empty, Set.union_empty]⟩
    (by rwa [Nat.zero_add] : base + (0 + pages) ≤ 2 ^ 32) (by
      intro k current _ _ ⟨frames, bits⟩
      have range : Set.Ico base (base + (k + 1)) = insert (base + k) (Set.Ico base (base + k)) :=
        (Set.insert_Ico_right_eq_Ico_add_one (Nat.le_add_right base k)).symm
      refine ⟨funext (fun page => by rw [unmapPage_frameOf, frames]), ?_⟩
      rw [unmapPage_marked, bits, frames, range, Set.image_insert_eq, Set.union_insert])
  rw [Nat.zero_add] at looped
  exact looped.2

end Loops

/-! ## The types of the pages -/

section Types

variable {rel : Nat → Nat → Prop} {high : Nat} {memory claimed : Memory} {slots : List Slot}
  {slot : Slot} {pages : Nat}

theorem hasType_congr {first second : Regions} {slot : Slot} {page : Nat}
    (same : second slot = first slot) (contains : first.Contains slot page) :
    second.HasType page (first slot).type :=
  ⟨slot, congrArg MemVirtRgn.type same, (Regions.contains_congr same).mpr contains⟩

/-- The pages of a region in use have its type and no other. -/
theorem Arranged.hasType_iff (arranged : memory.Arranged rel high slots) (ordering : Ordering rel)
    {page : Nat} {type : MemVirtRgnType} (slotUse : (memory.mRgns slot).type ≠ .none)
    (contains : memory.mRgns.Contains slot page) (inUse : type ≠ .none) :
    memory.mRgns.HasType page type ↔ type = (memory.mRgns slot).type :=
  ⟨fun has => (arranged.type_eq_of_hasType ordering slotUse contains inUse has).symm,
    fun same => ⟨slot, same.symm, contains⟩⟩

/-- Claiming makes the first pages of a free region used; the pages behind them stay free. -/
theorem Claimed.retyped (claim : Claimed memory claimed slot pages)
    (isFree : (memory.mRgns slot).type = .free) (enough : pages ≤ (memory.mRgns slot).length)
    (arranged : memory.Arranged rel high slots) (ordering : Ordering rel) (positive : 1 ≤ pages) :
    Retyped memory claimed
      (Set.Ico (memory.mRgns slot).base ((memory.mRgns slot).base + pages)) .free .used := by
  rcases claim.arranged isFree arranged ordering.refl positive with ⟨slots', arranged'⟩
  have slotUse : (memory.mRgns slot).type ≠ .none := ne_none_of_free isFree
  have whole : ∀ page ∈ Set.Ico (memory.mRgns slot).base ((memory.mRgns slot).base + pages),
      memory.mRgns.Contains slot page := fun page inside =>
    ⟨inside.1, Nat.lt_of_lt_of_le inside.2 (Nat.add_le_add_left enough _)⟩
  refine ⟨fun page inside => ⟨slot, isFree, whole page inside⟩, fun page inside type inUse => ?_,
    fun page outside type inUse => ⟨?_, ?_⟩⟩
  · have contains : claimed.mRgns.Contains slot page := by
      rw [Regions.contains_iff, claim.base_eq, claim.length_eq]
      exact inside
    rw [arranged'.hasType_iff ordering (by rw [claim.type_eq]; decide) contains inUse, claim.type_eq]
  · rintro ⟨other, rfl, contains⟩
    by_cases here : other = slot
    · rw [here] at contains
      simp only [Regions.Contains, Layout.Covers, Regions.baseOf, Regions.lengthOf, claim.base_eq,
        claim.length_eq] at contains
      exact absurd contains outside
    · rcases claim.rest with ⟨_, _, same⟩ | ⟨fresh, unused, shorter, record, _, same⟩
      · exact hasType_congr (same other here).symm contains
      · by_cases isFresh : other = fresh
        · rw [isFresh, record]
          rw [isFresh, Regions.contains_iff, record] at contains
          dsimp only at contains
          refine ⟨slot, isFree, ?_⟩
          rw [Regions.contains_iff]
          omega
        · exact hasType_congr (same other here isFresh).symm contains
  · rintro ⟨other, rfl, contains⟩
    by_cases here : other = slot
    · -- The page lies in the part of the region that is left over.
      rw [here] at contains ⊢
      rw [Regions.contains_iff] at contains
      rw [Set.mem_Ico] at outside
      rcases claim.rest with ⟨exact_, _, _⟩ | ⟨fresh, _, shorter, record, _, _⟩
      · omega
      · refine ⟨fresh, by rw [record, isFree], ?_⟩
        rw [Regions.contains_iff, record]
        dsimp only
        omega
    · exact hasType_congr (claim.same_of_inUse here inUse) contains

theorem Retyped.of_sameRegions {before after last : Memory} {range : Set Nat} {old new : MemVirtRgnType}
    (retyped : Retyped before after range old new) (same : SameRegions after last) :
    Retyped before last range old new := by
  rcases retyped with ⟨was, is, others⟩
  rw [← same.rgns] at is others
  exact ⟨was, is, others⟩

theorem Retyped.after_sameRegions {first before after : Memory} {range : Set Nat}
    {old new : MemVirtRgnType} (same : SameRegions first before)
    (retyped : Retyped before after range old new) : Retyped first after range old new := by
  rcases retyped with ⟨was, is, others⟩
  rw [same.rgns] at was others
  exact ⟨was, is, others⟩

/-- Releasing makes the pages of a used region free. -/
theorem Arranged.release_retyped (arranged : memory.Arranged rel high slots) (ordering : Ordering rel)
    (used : (memory.mRgns slot).type = .used) :
    Retyped memory (memory.releaseRgn slot) (Set.Ico (memory.mRgns slot).base
      ((memory.mRgns slot).base + (memory.mRgns slot).length)) .used .free := by
  have released := arranged.release used
  have itself := @releaseRgn_self memory slot
  refine ⟨fun page inside => ⟨slot, used, inside⟩, fun page inside type inUse => ?_,
    fun page outside type inUse => ⟨?_, ?_⟩⟩
  · have contains : (memory.releaseRgn slot).mRgns.Contains slot page :=
      (Regions.contains_of_sameExtent (releaseRgn_sameExtent used slot)).mpr inside
    rw [released.hasType_iff ordering (by rw [itself]; exact MemVirtRgnType.noConfusion) contains inUse,
      itself]
  · rintro ⟨other, rfl, contains⟩
    have different : other ≠ slot := by
      rintro rfl
      exact outside ((Regions.contains_of_sameExtent (releaseRgn_sameExtent used other)).mp contains)
    exact hasType_congr (releaseRgn_of_ne different).symm contains
  · rintro ⟨other, rfl, contains⟩
    have different : other ≠ slot := by
      rintro rfl
      exact outside contains
    exact hasType_congr (releaseRgn_of_ne different) contains

end Types

/-! ## The calls -/

section Calls

variable {memory after claimed : Memory} {pages ptr : Nat} {slot : Slot}

/-- With a frame for each page, the selected region gets the lowest ones. -/
theorem Selection.mappedRange (selection : Selection memory after pages ptr slot claimed)
    (bounded : memory.Bounded) (result : memory.allocVirtual pages = some (after, ptr))
    (supplied : pages ≤ memory.freeFrames.card) (returned : ptr ≠ 0) :
    Mapped memory after (memory.mRgns slot).base pages := by
  have effect := bounded.allocVirtual_effect result
  have maps := maps_allocVirtual_of_found selection.found
  have unmaps := unmaps_allocVirtual_of_found selection.found
  rw [Nat.min_eq_left supplied] at maps
  have nothing : ∀ page, page ∉ memory.unmaps (.allocVirtual pages) := by
    intro page member
    rw [unmaps] at member
    exact Nat.not_lt.mpr supplied member.1
  have bits := mapRgn_bits selection.range
    (le_of_le_of_eq supplied (congrArg Finset.card selection.frames.symm))
  have marked : claimed.marked = memory.marked := by
    rw [selection.claim.keeps]
    rfl
  rw [← selection.mapped, marked] at bits
  refine ⟨effect.directory, bits.2, fun i below => ?_, fun page outside => ?_, bits.1⟩
  · exact bounded.allocVirtual_rank result returned selection.found below
  · exact effect.others page (by rw [maps]; exact outside) (nothing page)

/-- Unmapping a region and releasing it. -/
theorem Bounded.unmappedRange (bounded : memory.Bounded) (used : (memory.mRgns slot).type = .used) :
    Unmapped memory ((unmapRgn (memory.mRgns slot).base (memory.mRgns slot).length 0 memory).releaseRgn
      slot) (memory.mRgns slot).base (memory.mRgns slot).length := by
  have bound := bounded slot (ne_none_of_used used)
  have pageCount := memPageCount_eq
  have range : (memory.mRgns slot).base + (memory.mRgns slot).length ≤ 2 ^ 32 := by omega
  have effect := @unmapRgn_effect memory _ _ range
  refine ⟨effect.directory, fun i below => effect.cleared _ ?_,
    fun page outside => effect.others page (Set.notMem_empty page) outside, unmapRgn_bits range⟩
  exact ⟨Nat.le_add_right _ _, Nat.add_lt_add_left below _⟩

/-- The region that `alloc_virtual` takes: it is free, long enough, and none of these lies lower. -/
structure LowestFit (memory : Memory) (pages : Nat) (slot : Slot) : Prop where
  isFree : (memory.mRgns slot).type = .free
  enough : pages ≤ (memory.mRgns slot).length
  lowest : ∀ other, (memory.mRgns other).type = .free → pages ≤ (memory.mRgns other).length →
    (memory.mRgns slot).base ≤ (memory.mRgns other).base

/-- What `alloc_virtual` does when it returns a pointer. -/
structure Allocated (before after : Memory) (pages ptr : Nat) (slot : Slot) : Prop where
  fit : LowestFit before pages slot
  address : ptr = 0x1000 * (before.mRgns slot).base
  mapped : Mapped before after (before.mRgns slot).base pages
  retyped : Retyped before after
    (Set.Ico (before.mRgns slot).base ((before.mRgns slot).base + pages)) .free .used
  rest : ∀ page ∈ Set.Ico ((before.mRgns slot).base + pages)
    ((before.mRgns slot).base + (before.mRgns slot).length), after.mRgns.HasType page .free

section Arranged

variable {rel : Nat → Nat → Prop} {high : Nat} {slots : List Slot}

/-- A pointer that is returned is not null, as long as page 0 is not free. -/
theorem Arranged.address_ne_zero (arranged : memory.Arranged rel high slots) (ordering : Ordering rel)
    (within : high ≤ memPageCount) (zeroNotFree : ¬ memory.mRgns.HasType 0 .free)
    (isFree : (memory.mRgns slot).type = .free) :
    u32 ((memory.mRgns slot).base * 0x1000) = 0x1000 * (memory.mRgns slot).base ∧
      (memory.mRgns slot).base ≠ 0 := by
  have bounds := arranged.bounds ordering (ne_none_of_free isFree)
  have pageCount := memPageCount_eq
  refine ⟨?_, fun zero => zeroNotFree ⟨slot, isFree, Nat.le_of_eq zero, ?_⟩⟩
  · rw [u32, Word.wrap_of_lt (by omega), Nat.mul_comm]
  · exact Nat.lt_of_lt_of_le bounds.1 (Nat.le_add_left _ _)

/-- A call that returns a pointer. -/
theorem Arranged.allocVirtual_allocated (arranged : memory.Arranged rel high slots)
    (ordering : Ordering rel) (within : high ≤ memPageCount + 1) (positive : 1 ≤ pages)
    (result : memory.allocVirtual pages = some (after, ptr)) (returned : ptr ≠ 0) :
    ∃ slot, Allocated memory after pages ptr slot := by
  have bounded := arranged.bounded ordering within
  rcases bounded.allocVirtual_returned positive result returned with
    ⟨slot, found, isFree, enough, supplied, address, _⟩
  rcases Selection.of_found bounded found result with ⟨claimed, selection⟩
  have retyped := (selection.claim.retyped isFree enough arranged ordering positive).of_sameRegions
    selection.table
  refine ⟨slot, ⟨isFree, enough, fun other otherFree otherEnough => ?_⟩,
    address.trans (Nat.mul_comm _ _), selection.mappedRange bounded result supplied returned, retyped,
    fun page inside => ?_⟩
  · exact arranged.base_le_of_findRgn ordering found (ne_none_of_free otherFree)
      (fits_iff.mpr ⟨otherFree, otherEnough⟩)
  · have outside : page ∉ Set.Ico (memory.mRgns slot).base ((memory.mRgns slot).base + pages) :=
      fun early => Nat.not_lt.mpr inside.1 early.2
    exact (retyped.others page outside .free MemVirtRgnType.noConfusion).mpr
      ⟨slot, isFree, Nat.le_trans (Nat.le_add_right _ _) inside.1, inside.2⟩

/-- What `free_virtual` does when it frees a region. -/
structure Freed (before after : Memory) (base pages : Nat) : Prop where
  unmapped : Unmapped before after base pages
  retyped : Retyped before after (Set.Ico base (base + pages)) .used .free

/-- A call that frees a region. -/
theorem Arranged.freeVirtual_freed (arranged : memory.Arranged rel high slots)
    (ordering : Ordering rel) (within : high ≤ memPageCount + 1)
    (result : memory.freeVirtual ptr = some (after, true)) :
    ∃ slot, (memory.mRgns slot).type = .used ∧ ptr = (memory.mRgns slot).base * 0x1000 ∧
      Freed memory after (memory.mRgns slot).base (memory.mRgns slot).length := by
  have bounded := arranged.bounded ordering within
  rcases freeVirtual_cases result with ⟨failed, _⟩ | ⟨_, slot, _, used, address, rfl⟩
  · cases failed
  · have same := unmapRgn_table bounded used
    have retyped := (arranged.of_sameRegions same).release_retyped ordering
      (by rw [same.rgns]; exact used)
    rw [same.rgns] at retyped
    exact ⟨slot, used, address, bounded.unmappedRange used, retyped.after_sameRegions same⟩

end Arranged

/-- `alloc_virtual` returns a pointer exactly when a free region is long enough and there is a
frame for each page; then it gives the lowest frames to the lowest such region. -/
theorem allocVirtual_complete {memory : Memory} (wellFormed : memory.WellFormed)
    (zeroNotFree : ¬ memory.mRgns.HasType 0 .free) {pages : Nat} (positive : 1 ≤ pages) :
    ∃ after ptr, memory.allocVirtual pages = some (after, ptr) ∧
      (ptr ≠ 0 ↔ (∃ slot, (memory.mRgns slot).type = .free ∧ pages ≤ (memory.mRgns slot).length) ∧
        pages ≤ memory.freeFrames.card) ∧
      (ptr ≠ 0 → ∃ slot, Allocated memory after pages ptr slot) := by
  rcases wellFormed.arranged with ⟨slots, arranged⟩
  have bounded := arranged.bounded Ordering.eq (Nat.le_succ _)
  rcases arranged.allocVirtual_returns positive with ⟨after, ptr, result⟩
  refine ⟨after, ptr, result, ⟨fun returned => ?_, ?_⟩,
    arranged.allocVirtual_allocated Ordering.eq (Nat.le_succ _) positive result⟩
  · rcases bounded.allocVirtual_returned positive result returned with
      ⟨slot, _, isFree, enough, supplied, _, _⟩
    exact ⟨⟨slot, isFree, enough⟩, supplied⟩
  · rintro ⟨⟨slot, isFree, enough⟩, supplied⟩
    rcases arranged.exists_findRgn (ne_none_of_free isFree) (fits_iff.mpr ⟨isFree, enough⟩) with
      ⟨found, stops⟩
    rcases Selection.of_found bounded stops result with ⟨claimed, selection⟩
    have address := arranged.address_ne_zero Ordering.eq (Nat.le_refl _) zeroNotFree selection.isFree
    rw [selection.ptr_of_supplied supplied, address.1]
    exact Nat.mul_ne_zero (by decide) address.2

end Calls

/-- A machine with two frames and two regions, the first of which has one page. -/
def twoRegions (first second : MemVirtRgnType) : Memory where
  mPages := fun byte => if byte = 0 then 3 else 0
  mPaging := ⟨fun _ => ⟨0, 0⟩, fun _ => PageTableEntry.zero⟩
  mRgns := fun slot =>
    if slot = 0 then ⟨none, first, 0, 1, some 1⟩
    else if slot = 1 then ⟨some 0, second, 1, memPageCount - 1, none⟩
    else MemVirtRgn.zero
  mFirstRgn := some 0
  tlb := fun _ => none
  mapCalls := []

theorem twoRegions_rgns_of_ne {first second : MemVirtRgnType} {slot : Slot} (notFirst : slot ≠ 0)
    (notSecond : slot ≠ 1) : (twoRegions first second).mRgns slot = MemVirtRgn.zero := by
  simp only [twoRegions, if_neg notFirst, if_neg notSecond]

theorem twoRegions_arranged {first second : MemVirtRgnType} (firstUse : first ≠ .none)
    (secondUse : second ≠ .none) :
    (twoRegions first second).Arranged (· = ·) memPageCount [0, 1] := by
  have pageCount := memPageCount_eq
  have tiling : Layout.Chained (· = ·) (twoRegions first second).mRgns.baseOf
      (twoRegions first second).mRgns.lengthOf 0 [0, 1] memPageCount := by
    refine ⟨rfl, Nat.le_refl 1, rfl, ?_, ?_⟩
    · exact (by rw [pageCount]; decide : 1 ≤ memPageCount - 1)
    · exact (by rw [pageCount] : 1 + (memPageCount - 1) = memPageCount)
  have total := tiling.span_eq
  rw [Nat.zero_add] at total
  refine ⟨⟨⟨rfl, rfl, rfl⟩, fun slot => ?_⟩, tiling, Nat.le_of_eq total⟩
  by_cases isFirst : slot = 0
  · rw [isFirst]
    exact iff_of_true firstUse List.mem_cons_self
  · by_cases isSecond : slot = 1
    · rw [isSecond]
      exact iff_of_true secondUse (List.mem_cons_of_mem _ List.mem_cons_self)
    · rw [twoRegions_rgns_of_ne isFirst isSecond]
      refine iff_of_false (not_not.mpr rfl) ?_
      rw [List.mem_cons, List.mem_singleton, not_or]
      exact ⟨isFirst, isSecond⟩

/-- A machine with two frames whose first page is disabled. -/
def twoFrames : Memory := twoRegions .disabled .free

theorem twoFrames_wellFormed : twoFrames.WellFormed :=
  (twoRegions_arranged MemVirtRgnType.noConfusion MemVirtRgnType.noConfusion).wellFormed

theorem twoFrames_zeroNotFree : ¬ twoFrames.mRgns.HasType 0 .free := by
  rintro ⟨slot, isFree, contains⟩
  by_cases first : slot = 0
  · rw [first] at isFree
    exact MemVirtRgnType.noConfusion isFree
  · by_cases second : slot = 1
    · rw [second] at contains
      exact absurd contains.1 (by decide)
    · rw [twoFrames, twoRegions_rgns_of_ne first second] at isFree
      exact MemVirtRgnType.noConfusion isFree

theorem twoFrames_freeFrames : 2 ≤ twoFrames.freeFrames.card := by
  have included : ({0, 1} : Finset Nat) ⊆ twoFrames.freeFrames := by
    intro frame member
    rcases Finset.mem_insert.mp member with rfl | second
    · exact mem_freeFrames.mpr ⟨by decide, by decide⟩
    · rw [Finset.mem_singleton.mp second]
      exact mem_freeFrames.mpr ⟨by decide, by decide⟩
  exact Finset.card_le_card included

/-- Both frames are handed out. -/
theorem allocVirtual_complete_twoFrames : ∃ after ptr slot,
    twoFrames.allocVirtual 2 = some (after, ptr) ∧ ptr ≠ 0 ∧ Allocated twoFrames after 2 ptr slot := by
  rcases allocVirtual_complete twoFrames_wellFormed twoFrames_zeroNotFree (by decide : 1 ≤ 2) with
    ⟨after, ptr, result, succeeds, allocated⟩
  have fits : 2 ≤ (twoFrames.mRgns 1).length := by decide
  have returned := succeeds.mpr ⟨⟨1, rfl, fits⟩, twoFrames_freeFrames⟩
  rcases allocated returned with ⟨slot, done⟩
  exact ⟨after, ptr, slot, result, returned, done⟩

end Memory

end WeakOS
