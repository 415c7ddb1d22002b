import Mathlib

namespace Foundation

/-!
# Division by shifts and subtractions

A divisor is doubled until twice as much would exceed the dividend.  Its
multiples are then subtracted from the largest one down, each where it fits,
and each of them contributes a binary digit of the quotient.  What is left is
the remainder.
-/

namespace ShiftDivision

/-- Subtract the multiples of `divisor` by `2 ^ (count - 1)` down to one where
they fit, and append a digit to `quotient` for each. -/
def subtract (divisor : Nat) : (count quotient dividend : Nat) → Nat × Nat
  | 0, quotient, dividend => (quotient, dividend)
  | count + 1, quotient, dividend =>
      if divisor * 2 ^ count ≤ dividend then
        subtract divisor count (2 * quotient + 1) (dividend - divisor * 2 ^ count)
      else subtract divisor count (2 * quotient) dividend

/-- When the dividend is below twice the largest multiple, the digits are those
of the quotient. -/
theorem subtract_eq {divisor count quotient dividend : Nat} (below : dividend < divisor * 2 ^ count) :
    subtract divisor count quotient dividend =
      (quotient * 2 ^ count + dividend / divisor, dividend % divisor) := by
  have positive : 0 < divisor := Nat.pos_of_mul_pos_right (Nat.zero_lt_of_lt below)
  induction count generalizing quotient dividend with
  | zero =>
      rw [pow_zero, Nat.mul_one] at below
      rw [subtract, Nat.div_eq_of_lt below, Nat.mod_eq_of_lt below, pow_zero, Nat.mul_one, Nat.add_zero]
  | succ count inductionHypothesis =>
      have twice : divisor * 2 ^ (count + 1) = divisor * 2 ^ count + divisor * 2 ^ count := by ring
      rw [subtract]
      by_cases fits : divisor * 2 ^ count ≤ dividend
      · obtain ⟨rest, rfl⟩ := Nat.exists_eq_add_of_le fits
        have smaller : rest < divisor * 2 ^ count := by omega
        rw [if_pos fits, Nat.add_sub_cancel_left, inductionHypothesis smaller,
          Nat.mul_add_div positive, Nat.mul_add_mod]
        apply Prod.ext
        · ring
        · rfl
      · rw [if_neg fits, inductionHypothesis (Nat.not_le.mp fits)]
        apply Prod.ext
        · ring
        · rfl

end ShiftDivision

end Foundation
