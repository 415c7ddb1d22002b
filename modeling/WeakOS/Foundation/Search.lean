import Mathlib

namespace Foundation

/-!
# Linear search

The loop that inspects the indices below a bound in increasing order and stops
at the first one that satisfies a test.  It is written as the loop runs, so a
search that stops early evaluates early.
-/

namespace Search

/-- Inspect `left` indices from `index` on. -/
def firstFrom (test : Nat → Bool) : (left index : Nat) → Option Nat
  | 0, _ => none
  | left + 1, index => if test index then some index else firstFrom test left (index + 1)

/-- The first index below `bound` that satisfies the test. -/
def first (test : Nat → Bool) (bound : Nat) : Option Nat :=
  firstFrom test bound 0

variable {test : Nat → Bool}

theorem firstFrom_eq_some_iff {left index found : Nat} :
    firstFrom test left index = some found ↔
      index ≤ found ∧ found < index + left ∧ test found = true ∧
        ∀ earlier, index ≤ earlier → earlier < found → test earlier = false := by
  induction left generalizing index with
  | zero =>
      simp only [firstFrom, reduceCtorEq, false_iff]
      omega
  | succ left inductionHypothesis =>
      cases here : test index with
      | true =>
          simp only [firstFrom, here, if_true, Option.some.injEq]
          constructor
          · rintro rfl
            exact ⟨Nat.le_refl _, by omega, here, fun earlier _ _ => by omega⟩
          · rintro ⟨le, _, _, none⟩
            by_contra different
            have clash := none index (Nat.le_refl _) (by omega)
            exact Bool.noConfusion (here.symm.trans clash)
      | false =>
          simp only [firstFrom, here, Bool.false_eq_true, if_false, inductionHypothesis]
          constructor
          · rintro ⟨le, lt, accepted, none⟩
            refine ⟨by omega, by omega, accepted, fun earlier from_ before => ?_⟩
            rcases Nat.eq_or_lt_of_le from_ with rfl | later
            · exact here
            · exact none earlier later before
          · rintro ⟨le, lt, accepted, none⟩
            have different : index ≠ found := by
              rintro rfl
              exact Bool.noConfusion (here.symm.trans accepted)
            exact ⟨by omega, by omega, accepted, fun earlier from_ before =>
              none earlier (by omega) before⟩

theorem firstFrom_eq_none_iff {left index : Nat} :
    firstFrom test left index = none ↔
      ∀ other, index ≤ other → other < index + left → test other = false := by
  induction left generalizing index with
  | zero =>
      simp only [firstFrom, true_iff]
      omega
  | succ left inductionHypothesis =>
      cases here : test index with
      | true =>
          simp only [firstFrom, here, if_true, reduceCtorEq, false_iff, not_forall]
          exact ⟨index, Nat.le_refl _, by omega, by simp [here]⟩
      | false =>
          simp only [firstFrom, here, Bool.false_eq_true, if_false, inductionHypothesis]
          constructor
          · intro none other from_ before
            rcases Nat.eq_or_lt_of_le from_ with rfl | later
            · exact here
            · exact none other later (by omega)
          · exact fun none other from_ before => none other (by omega) (by omega)

theorem first_eq_some_iff {bound found : Nat} :
    first test bound = some found ↔
      found < bound ∧ test found = true ∧ ∀ earlier < found, test earlier = false := by
  simp only [first, firstFrom_eq_some_iff, Nat.zero_le, true_and, Nat.zero_add, forall_const]

theorem first_eq_none_iff {bound : Nat} :
    first test bound = none ↔ ∀ other < bound, test other = false := by
  simp only [first, firstFrom_eq_none_iff, Nat.zero_le, forall_const, Nat.zero_add]

/-- A search with a satisfying index in range succeeds. -/
theorem exists_first {bound witness : Nat} (inRange : witness < bound)
    (accepted : test witness = true) : ∃ found, first test bound = some found := by
  cases result : first test bound with
  | some found => exact ⟨found, rfl⟩
  | none =>
      have rejected := first_eq_none_iff.mp result witness inRange
      exact Bool.noConfusion (accepted.symm.trans rejected)

end Search

end Foundation
