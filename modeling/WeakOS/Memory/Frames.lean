import Mathlib
import WeakOS.Memory.Model

namespace WeakOS

open Foundation

namespace Memory

/-!
# What mapping and unmapping pages changes

One lemma for each outcome of `map_page` and one for `unmap_page` say what the
call does to the bitmap, the page tables and the TLB.  The loops of
`alloc_virtual` and `free_virtual` then have one rule each: a property indexed
by the number of completed iterations that every iteration carries on holds at
the end.  No later proof unfolds the loops.

None of these functions touches the region table.
-/

/-- The frames that `map_page` can hand out. -/
def freeFrames (memory : Memory) : Finset Nat :=
  Bitmap.members memory.mPages memPageCount

/-- The frames whose bit is set. -/
def marked (memory : Memory) : Set Nat := {frame | Bitmap.test memory.mPages frame = true}

/-- The frame number in the entry of a page, current or stale. -/
def frameOf (memory : Memory) (page : Nat) : Nat := (memory.entry page).frame

theorem frameOf_lt (memory : Memory) (page : Nat) : memory.frameOf page < memPageCount :=
  (memory.entry page).address.isLt

@[simp] theorem mem_freeFrames {memory : Memory} {frame : Nat} :
    frame ∈ memory.freeFrames ↔ frame < memPageCount ∧ Bitmap.test memory.mPages frame = true :=
  Bitmap.mem_members

theorem mem_marked {memory : Memory} {frame : Nat} (member : frame ∈ memory.freeFrames) :
    frame ∈ memory.marked :=
  (mem_freeFrames.mp member).2

/-- Two states with the same region table. -/
structure SameRegions (before after : Memory) : Prop where
  rgns : after.mRgns = before.mRgns
  first : after.mFirstRgn = before.mFirstRgn

theorem SameRegions.refl (memory : Memory) : SameRegions memory memory := ⟨rfl, rfl⟩

theorem SameRegions.trans {first second third : Memory} (left : SameRegions first second)
    (right : SameRegions second third) : SameRegions first third :=
  ⟨right.rgns.trans left.rgns, right.first.trans left.first⟩

/-! ## One page -/

/-- `map_page` has been called and found no frame. -/
def note (memory : Memory) (page : Nat) : Memory :=
  { memory with mapCalls := page :: memory.mapCalls }

theorem note_sameRegions (memory : Memory) (page : Nat) :
    SameRegions memory (memory.note page) := ⟨rfl, rfl⟩

/-- `map_page` has given frame `i` to `page`. -/
def mapTo (memory : Memory) (page i : Nat) : Memory :=
  (({ memory.note page with mPages := Bitmap.clear memory.mPages i }).setEntry page
    ⟨PteFlags.genericUser, BitVec.ofNat 20 i⟩).invlpg (u32 (page * 0x1000))

/-- Either the lowest free frame is taken or there is none. -/
theorem mapPage_cases (memory : Memory) (page : Nat) :
    (∃ i, IsLeast (memory.freeFrames : Set Nat) i ∧
        memory.mapPage page = (memory.mapTo page i, true)) ∨
      memory.freeFrames = ∅ ∧ memory.mapPage page = (memory.note page, false) := by
  cases found : Bitmap.lowest memory.mPages memPageCount with
  | some i =>
      refine Or.inl ⟨i, Bitmap.isLeast_of_lowest found, ?_⟩
      simp only [mapPage, found]
      rfl
  | none =>
      refine Or.inr ⟨Bitmap.lowest_eq_none_iff.mp found, ?_⟩
      simp only [mapPage, found]
      rfl

section MapTo

variable (memory : Memory) (page i : Nat)

theorem mapTo_sameRegions : SameRegions memory (memory.mapTo page i) := ⟨rfl, rfl⟩

@[simp] theorem mapTo_mPages : (memory.mapTo page i).mPages = Bitmap.clear memory.mPages i := rfl

theorem mapTo_freeFrames : (memory.mapTo page i).freeFrames = memory.freeFrames.erase i :=
  Bitmap.members_clear memory.mPages memPageCount i

theorem mapTo_marked : (memory.mapTo page i).marked = memory.marked \ {i} := by
  ext other
  simp only [marked, Set.mem_ofPred_eq, mapTo_mPages, Bitmap.test_clear, Bool.and_eq_true,
    decide_eq_true_eq, Set.mem_sdiff, Set.mem_singleton_iff]
  exact and_comm

theorem mapTo_entry_self : (memory.mapTo page i).entry page =
    ⟨PteFlags.genericUser, BitVec.ofNat 20 i⟩ :=
  Function.update_self _ _ _

theorem mapTo_present_self : ((memory.mapTo page i).entry page).present = true := by
  rw [mapTo_entry_self, PageTableEntry.present]
  exact (by decide : PteFlags.genericUser.getLsbD 0 = true)

theorem mapTo_entry_of_ne {other : Nat} (different : other ≠ page) :
    (memory.mapTo page i).entry other = memory.entry other :=
  Function.update_of_ne different _ _

theorem mapTo_frameOf_self (inRange : i < memPageCount) : (memory.mapTo page i).frameOf page = i := by
  unfold frameOf
  rw [mapTo_entry_self]
  exact Nat.mod_eq_of_lt inRange

theorem mapTo_frameOf_of_ne {other : Nat} (different : other ≠ page) :
    (memory.mapTo page i).frameOf other = memory.frameOf other := by
  unfold frameOf
  rw [mapTo_entry_of_ne memory page i different]

theorem mapTo_tlb : (memory.mapTo page i).tlb =
    Function.update memory.tlb (u32 (page * 0x1000) / 0x1000) none := rfl

/-- The mapped page loses its translation. -/
theorem mapTo_tlb_self (inTable : page < memPageCount) : (memory.mapTo page i).tlb page = none := by
  have bound := memPageCount_eq
  have addr : u32 (page * 0x1000) / 0x1000 = page := by
    rw [u32, Word.wrap_of_lt (by omega), Nat.mul_div_cancel _ (by decide)]
  rw [mapTo_tlb, addr, Function.update_self]

/-- A translation behind the mapped page stays: the address does not wrap to a
higher page. -/
theorem mapTo_tlb_of_lt {other : Nat} (behind : page < other) :
    (memory.mapTo page i).tlb other = memory.tlb other := by
  have wrapped : u32 (page * 0x1000) ≤ page * 0x1000 := Nat.mod_le _ _
  exact Function.update_of_ne (by omega) _ _

/-- Mapping adds no translation. -/
theorem tlb_of_mapTo {other frame : Nat} (cached : (memory.mapTo page i).tlb other = some frame) :
    memory.tlb other = some frame := by
  rw [mapTo_tlb, Function.update_apply] at cached
  split at cached
  · cases cached
  · exact cached

end MapTo

section Unmap

variable (memory : Memory) (page : Nat)

theorem unmapPage_sameRegions : SameRegions memory (memory.unmapPage page) := ⟨rfl, rfl⟩

@[simp] theorem unmapPage_mPages :
    (memory.unmapPage page).mPages = Bitmap.set memory.mPages (memory.frameOf page) := rfl

theorem unmapPage_marked :
    (memory.unmapPage page).marked = insert (memory.frameOf page) memory.marked := by
  ext other
  simp only [marked, Set.mem_ofPred_eq, unmapPage_mPages, Bitmap.test_set, Bool.or_eq_true,
    decide_eq_true_eq, Set.mem_insert_iff]

theorem unmapPage_entry_self : (memory.unmapPage page).entry page =
    { memory.entry page with flagsByte := 0 } :=
  Function.update_self _ _ _

theorem unmapPage_entry_of_ne {other : Nat} (different : other ≠ page) :
    (memory.unmapPage page).entry other = memory.entry other :=
  Function.update_of_ne different _ _

/-- The stale address stays behind: no entry changes its frame. -/
@[simp] theorem unmapPage_frameOf (other : Nat) :
    (memory.unmapPage page).frameOf other = memory.frameOf other := by
  unfold frameOf
  by_cases same : other = page
  · rw [same, unmapPage_entry_self]
    rfl
  · rw [unmapPage_entry_of_ne memory page same]

/-- The page whose translation is dropped is numbered by the frame. -/
theorem unmapPage_tlb :
    (memory.unmapPage page).tlb = Function.update memory.tlb (memory.frameOf page) none := by
  have small := memory.frameOf_lt page
  have bound := memPageCount_eq
  have addr : u32 (memory.frameOf page * 0x1000) / 0x1000 = memory.frameOf page := by
    rw [u32, Word.wrap_of_lt (by omega), Nat.mul_div_cancel _ (by decide)]
  show Function.update memory.tlb (u32 (memory.frameOf page * 0x1000) / 0x1000) none = _
  rw [addr]

end Unmap

/-! ## The loops -/

/-- The rollback of `alloc_virtual` after `i` mapped pages. -/
def rollback (base i : Nat) (memory : Memory) : Memory :=
  (fun memory => memory.unmapPage (base + i))^[i] memory

/-- The rule of the mapping loop.  `P k` is what holds after `k` iterations;
the loop ends with all of them done, or with the rollback after the first one
that found no free frame. -/
theorem mapRgn_rule {P : Nat → Memory → Prop} {base left i : Nat} {memory : Memory}
    (start : P i memory) (bound : base + (i + left) ≤ 2 ^ 32)
    (step : ∀ k current frame, i ≤ k → k < i + left → P k current →
      IsLeast (current.freeFrames : Set Nat) frame →
      P (k + 1) (current.mapTo (base + k) frame)) :
    ((mapRgn base left i memory).2 = true ∧ P (i + left) (mapRgn base left i memory).1) ∨
      (mapRgn base left i memory).2 = false ∧ ∃ k current, i ≤ k ∧ k < i + left ∧ P k current ∧
        current.freeFrames = ∅ ∧
        (mapRgn base left i memory).1 = rollback base k (current.note (base + k)) := by
  induction left generalizing i memory with
  | zero => exact Or.inl ⟨rfl, start⟩
  | succ left inductionHypothesis =>
      have page : u32 (base + i) = base + i := Word.wrap_of_lt (by omega)
      rcases mapPage_cases memory (base + i) with ⟨frame, least, result⟩ | ⟨exhausted, result⟩
      · have unfolded : mapRgn base (left + 1) i memory =
            mapRgn base left (i + 1) (memory.mapTo (base + i) frame) := by
          simp only [mapRgn, page, result]
        rw [unfolded]
        have next := step i memory frame (Nat.le_refl i) (by omega) start least
        have later := inductionHypothesis next (by omega)
          (fun k current frame le lt => step k current frame (by omega) (by omega))
        rw [show i + (left + 1) = i + 1 + left by omega]
        rcases later with done | ⟨failed, k, current, le, rest⟩
        · exact Or.inl done
        · exact Or.inr ⟨failed, k, current, by omega, rest⟩
      · have unfolded : mapRgn base (left + 1) i memory =
            (rollback base i (memory.note (base + i)), false) := by
          simp only [mapRgn, page, result, rollback]
        rw [unfolded]
        exact Or.inr ⟨rfl, i, memory, Nat.le_refl i, by omega, start, exhausted, rfl⟩

/-- The rule of the unmapping loop. -/
theorem unmapRgn_rule {P : Nat → Memory → Prop} {base left i : Nat} {memory : Memory}
    (start : P i memory) (bound : base + (i + left) ≤ 2 ^ 32)
    (step : ∀ k current, i ≤ k → k < i + left → P k current →
      P (k + 1) (current.unmapPage (base + k))) :
    P (i + left) (unmapRgn base left i memory) := by
  induction left generalizing i memory with
  | zero => exact start
  | succ left inductionHypothesis =>
      have page : u32 (base + i) = base + i := Word.wrap_of_lt (by omega)
      have next := step i memory (Nat.le_refl i) (by omega) start
      rw [unmapRgn, page, show i + (left + 1) = i + 1 + left by omega]
      exact inductionHypothesis next (by omega)
        (fun k current le lt => step k current (by omega) (by omega))

/-- The rule of the rollback: it repeats one unmapping. -/
theorem rollback_rule {P : Memory → Prop} {base i : Nat} {memory : Memory} (start : P memory)
    (step : 0 < i → ∀ current, P current → P (current.unmapPage (base + i))) :
    P (rollback base i memory) := by
  unfold rollback
  rcases Nat.eq_zero_or_pos i with zero | positive
  · rw [zero]
    exact start
  · exact Function.Iterate.rec _ start (fun current holds => step positive current holds) i

theorem rollback_sameRegions (base i : Nat) (memory : Memory) :
    SameRegions memory (rollback base i memory) :=
  rollback_rule (SameRegions.refl memory)
    (fun _ current same => same.trans (unmapPage_sameRegions current (base + i)))

theorem mapRgn_sameRegions {base left : Nat} (memory : Memory) (bound : base + left ≤ 2 ^ 32) :
    SameRegions memory (mapRgn base left 0 memory).1 := by
  have looped := mapRgn_rule (P := fun _ current => SameRegions memory current)
    (SameRegions.refl memory) (by rwa [Nat.zero_add] : base + (0 + left) ≤ 2 ^ 32)
    (fun k current frame _ _ same _ => same.trans (mapTo_sameRegions current (base + k) frame))
  rcases looped with ⟨_, same⟩ | ⟨_, k, current, _, _, same, _, result⟩
  · exact same
  · rw [result]
    exact same.trans ((note_sameRegions current (base + k)).trans
      (rollback_sameRegions base k (current.note (base + k))))

theorem unmapRgn_sameRegions {base left : Nat} (memory : Memory) (bound : base + left ≤ 2 ^ 32) :
    SameRegions memory (unmapRgn base left 0 memory) :=
  unmapRgn_rule (P := fun _ current => SameRegions memory current)
    (SameRegions.refl memory) (by rwa [Nat.zero_add] : base + (0 + left) ≤ 2 ^ 32)
    (fun k current _ _ same => same.trans (unmapPage_sameRegions current (base + k)))

/-- The mapping loop succeeds exactly when there are frames for all pages. -/
theorem mapRgn_succeeds_iff {base left : Nat} (memory : Memory) (bound : base + left ≤ 2 ^ 32) :
    (mapRgn base left 0 memory).2 = true ↔ left ≤ memory.freeFrames.card := by
  have looped := mapRgn_rule
    (P := fun k current => current.freeFrames.card + k = memory.freeFrames.card)
    (Nat.add_zero _) (by rwa [Nat.zero_add] : base + (0 + left) ≤ 2 ^ 32) (by
      intro k current frame _ _ count least
      have taken := Finset.card_erase_add_one (Finset.mem_coe.mp least.1)
      rw [mapTo_freeFrames]
      omega)
  rcases looped with ⟨done, count⟩ | ⟨failed, k, current, _, lt, count, exhausted, _⟩
  · exact iff_of_true done (by omega)
  · rw [exhausted, Finset.card_empty] at count
    exact iff_of_false (by rw [failed]; exact Bool.false_ne_true) (by omega)

/-- Frames are taken from the lowest up: page `base + j` gets the free frame
that has `j` free frames below it. -/
theorem mapRgn_rank {base left : Nat} (memory : Memory) (bound : base + left ≤ 2 ^ 32)
    (enough : left ≤ memory.freeFrames.card) {j : Nat} (mapped : j < left) :
    (mapRgn base left 0 memory).1.frameOf (base + j) ∈ memory.freeFrames ∧
      Rank.rank memory.freeFrames ((mapRgn base left 0 memory).1.frameOf (base + j)) = j := by
  have looped := mapRgn_rule
    (P := fun k current => current.freeFrames ⊆ memory.freeFrames ∧
      current.freeFrames.card + k = memory.freeFrames.card ∧
      (∀ gone ∈ memory.freeFrames, gone ∉ current.freeFrames →
        ∀ frame ∈ current.freeFrames, gone < frame) ∧
      ∀ j < k, current.frameOf (base + j) ∈ memory.freeFrames ∧
        Rank.rank memory.freeFrames (current.frameOf (base + j)) = j)
    ⟨fun _ member => member, Nat.add_zero _, fun _ listed gone => absurd listed gone,
      fun j none => absurd none (Nat.not_lt_zero j)⟩
    (by rwa [Nat.zero_add] : base + (0 + left) ≤ 2 ^ 32) (by
      intro k current frame _ _ ⟨fewer, count, below, earlier⟩ least
      have isFree := Finset.mem_coe.mp least.1
      have taken := Finset.card_erase_add_one isFree
      have rank := Rank.rank_of_isLeast fewer least
        (fun gone listed notLeft => below gone listed notLeft frame isFree)
      rw [mapTo_freeFrames]
      refine ⟨(Finset.erase_subset _ _).trans fewer, by omega, fun gone listed notLeft other member => ?_,
        fun j before => ?_⟩
      · rw [Finset.mem_erase] at member
        have behind := least.2 (Finset.mem_coe.mpr member.2)
        by_cases itself : gone = frame
        · exact itself ▸ Nat.lt_of_le_of_ne behind (Ne.symm member.1)
        · exact below gone listed (fun still => notLeft (Finset.mem_erase.mpr ⟨itself, still⟩))
            other member.2
      · by_cases last : j = k
        · rw [last, mapTo_frameOf_self _ _ _ (mem_freeFrames.mp isFree).1]
          exact ⟨fewer isFree, by omega⟩
        · rw [mapTo_frameOf_of_ne _ _ _ (by omega)]
          exact earlier j (by omega))
  rcases looped with ⟨_, _, _, _, ranked⟩ | ⟨failed, _⟩
  · exact ranked j (by omega)
  · rw [(mapRgn_succeeds_iff memory bound).mpr enough] at failed
    cases failed

end Memory

end WeakOS
