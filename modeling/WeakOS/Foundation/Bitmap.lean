import Mathlib
import WeakOS.Foundation.Search

namespace Foundation

/-!
# Bitmaps stored in bytes

A bitmap keeps bit `index` as bit `index % 8` of byte `index / 8`.  The
operations below are the byte operations a program performs, with the mask
shifted into place, and each has one lemma that says which bits it changes.
A bitmap is thereby a set of indices, and equal sets are equal bitmaps.
-/

/-- The bytes of a bitmap, addressed from its first byte. -/
abbrev Bitmap := Nat → BitVec 8

namespace Bitmap

/-- The byte with only the bit of `index` set. -/
def mask (index : Nat) : BitVec 8 :=
  1#8 <<< (index % 8)

/-- Read one bit. -/
def test (bits : Bitmap) (index : Nat) : Bool :=
  bits (index / 8) &&& mask index != 0#8

/-- Set one bit. -/
def set (bits : Bitmap) (index : Nat) : Bitmap :=
  Function.update bits (index / 8) (bits (index / 8) ||| mask index)

/-- Clear one bit. -/
def clear (bits : Bitmap) (index : Nat) : Bitmap :=
  Function.update bits (index / 8) (bits (index / 8) &&& ~~~mask index)

theorem getLsbD_mask (index position : Nat) (small : position < 8) :
    (mask index).getLsbD position = decide (position = index % 8) := by
  have bound : index % 8 < 8 := Nat.mod_lt _ (by decide)
  unfold mask
  interval_cases index % 8 <;> interval_cases position <;> rfl

theorem test_eq_getLsbD (bits : Bitmap) (index : Nat) :
    test bits index = (bits (index / 8)).getLsbD (index % 8) := by
  have bound : index % 8 < 8 := Nat.mod_lt _ (by decide)
  unfold test
  cases bit : (bits (index / 8)).getLsbD (index % 8) with
  | true =>
      refine bne_iff_ne.mpr (fun zero => ?_)
      have read := congrArg (fun byte => byte.getLsbD (index % 8)) zero
      simp [bit, getLsbD_mask index (index % 8) bound] at read
  | false =>
      refine bne_eq_false_iff_eq.mpr (BitVec.eq_of_getLsbD_eq (fun position small => ?_))
      rw [BitVec.getLsbD_and, getLsbD_mask index position small, BitVec.getLsbD_zero]
      by_cases here : position = index % 8
      · rw [here, bit, Bool.false_and]
      · rw [decide_eq_false here, Bool.and_false]

@[simp] theorem test_set (bits : Bitmap) (index other : Nat) :
    test (set bits index) other = (decide (other = index) || test bits other) := by
  have bound : other % 8 < 8 := Nat.mod_lt _ (by decide)
  simp only [test_eq_getLsbD, set, Function.update_apply]
  by_cases byte : other / 8 = index / 8
  · rw [if_pos byte, BitVec.getLsbD_or, getLsbD_mask index _ bound, byte, Bool.or_comm]
    congr 1
    rw [decide_eq_decide]
    omega
  · have different : other ≠ index := fun equal => byte (equal ▸ rfl)
    rw [if_neg byte, decide_eq_false different, Bool.false_or]

@[simp] theorem test_clear (bits : Bitmap) (index other : Nat) :
    test (clear bits index) other = (decide (other ≠ index) && test bits other) := by
  have bound : other % 8 < 8 := Nat.mod_lt _ (by decide)
  simp only [test_eq_getLsbD, clear, Function.update_apply]
  by_cases byte : other / 8 = index / 8
  · rw [if_pos byte, BitVec.getLsbD_and, BitVec.getLsbD_not, getLsbD_mask index _ bound, byte,
      Bool.and_comm, decide_eq_true bound, Bool.true_and, ← decide_not]
    congr 1
    rw [decide_eq_decide]
    omega
  · have different : other ≠ index := fun equal => byte (equal ▸ rfl)
    rw [if_neg byte, decide_eq_true different, Bool.true_and]

/-- Equal sets of indices are equal bitmaps. -/
theorem ext {first second : Bitmap} (same : ∀ index, test first index = test second index) :
    first = second := by
  funext byte
  refine BitVec.eq_of_getLsbD_eq (fun position small => ?_)
  have read := same (8 * byte + position)
  rw [test_eq_getLsbD, test_eq_getLsbD, show (8 * byte + position) / 8 = byte by omega,
    show (8 * byte + position) % 8 = position by omega] at read
  exact read

/-- Apply a one-bit update to `left` consecutive indices. -/
def forRange (update : Bitmap → Nat → Bitmap) : (left index : Nat) → Bitmap → Bitmap
  | 0, _, bits => bits
  | left + 1, index, bits => forRange update left (index + 1) (update bits index)

theorem test_forRange_set (left index other : Nat) (bits : Bitmap) :
    test (forRange set left index bits) other =
      (decide (index ≤ other ∧ other < index + left) || test bits other) := by
  induction left generalizing index bits with
  | zero =>
      have outside : ¬ (index ≤ other ∧ other < index + 0) := by omega
      rw [forRange, decide_eq_false outside, Bool.false_or]
  | succ left inductionHypothesis =>
      rw [forRange, inductionHypothesis, test_set, ← Bool.or_assoc, ← Bool.decide_or]
      congr 2
      apply propext
      omega

theorem test_forRange_clear (left index other : Nat) (bits : Bitmap) :
    test (forRange clear left index bits) other =
      (decide (¬ (index ≤ other ∧ other < index + left)) && test bits other) := by
  induction left generalizing index bits with
  | zero =>
      have outside : ¬ (index ≤ other ∧ other < index + 0) := by omega
      rw [forRange, decide_eq_true outside, Bool.true_and]
  | succ left inductionHypothesis =>
      rw [forRange, inductionHypothesis, test_clear, ← Bool.and_assoc, ← Bool.decide_and]
      congr 2
      apply propext
      omega

/-- The indices below `bound` whose bit is set. -/
def members (bits : Bitmap) (bound : Nat) : Finset Nat :=
  (Finset.range bound).filter (fun index => test bits index = true)

@[simp] theorem mem_members {bits : Bitmap} {bound index : Nat} :
    index ∈ members bits bound ↔ index < bound ∧ test bits index = true := by
  simp only [members, Finset.mem_filter, Finset.mem_range]

theorem members_clear (bits : Bitmap) (bound index : Nat) :
    members (clear bits index) bound = (members bits bound).erase index := by
  ext other
  simp only [mem_members, test_clear, Finset.mem_erase, Bool.and_eq_true, decide_eq_true_eq]
  tauto

/-- The loop that looks for the lowest set bit. -/
def lowest (bits : Bitmap) (bound : Nat) : Option Nat :=
  Search.first (test bits) bound

theorem lowest_eq_none_iff {bits : Bitmap} {bound : Nat} :
    lowest bits bound = none ↔ members bits bound = ∅ := by
  simp only [lowest, Search.first_eq_none_iff, Finset.eq_empty_iff_forall_notMem, mem_members,
    not_and, Bool.not_eq_true]

/-- The loop stops at the least member. -/
theorem isLeast_of_lowest {bits : Bitmap} {bound index : Nat} (found : lowest bits bound = some index) :
    IsLeast (members bits bound : Set Nat) index := by
  have spec := Search.first_eq_some_iff.mp found
  refine ⟨Finset.mem_coe.mpr (mem_members.mpr ⟨spec.1, spec.2.1⟩), fun other member => ?_⟩
  by_contra earlier
  have rejected := spec.2.2 other (Nat.not_le.mp earlier)
  rw [(mem_members.mp (Finset.mem_coe.mp member)).2] at rejected
  cases rejected

end Bitmap

/-! ## Taking the least member, again and again

The member that is taken first has rank 0, the next one rank 1, and so on: the
rank of a number counts the members below it. -/

namespace Rank

variable {members rest : Finset Nat} {first second : Nat}

/-- How many members lie below. -/
def rank (members : Finset Nat) (number : Nat) : Nat :=
  (members.filter (fun member => member < number)).card

theorem rank_lt (member : first ∈ members) (below : first < second) :
    rank members first < rank members second := by
  have fewer : members.filter (fun member => member < first) ⊆
      members.filter (fun member => member < second) :=
    Finset.monotone_filter_right members (fun _ _ less => Nat.lt_trans less below)
  refine Finset.card_lt_card (Finset.ssubset_iff_of_subset fewer |>.mpr ⟨first, ?_, ?_⟩)
  · exact Finset.mem_filter.mpr ⟨member, below⟩
  · exact fun itself => Nat.lt_irrefl first (Finset.mem_filter.mp itself).2

/-- Two members of the same rank are the same. -/
theorem eq_of_rank_eq (left : first ∈ members) (right : second ∈ members)
    (same : rank members first = rank members second) : first = second := by
  rcases Nat.lt_trichotomy first second with below | equal | above
  · exact absurd same (Nat.ne_of_lt (rank_lt left below))
  · exact equal
  · exact absurd same.symm (Nat.ne_of_lt (rank_lt right above))

/-- When the members that are gone are below the least one that is left, the
rank of that one is their number. -/
theorem rank_of_isLeast (remaining : rest ⊆ members) (least : IsLeast (rest : Set Nat) first)
    (gone : ∀ member ∈ members, member ∉ rest → member < first) :
    rank members first + rest.card = members.card := by
  have below : members.filter (fun member => member < first) = members \ rest := by
    ext member
    simp only [Finset.mem_filter, Finset.mem_sdiff]
    refine and_congr_right (fun listed => ⟨fun less isLeft => ?_, gone member listed⟩)
    exact Nat.not_le.mpr less (least.2 (Finset.mem_coe.mpr isLeft))
  rw [rank, below]
  exact Finset.card_sdiff_add_card_eq_card remaining

end Rank

end Foundation
