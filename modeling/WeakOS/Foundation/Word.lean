import Mathlib

namespace Foundation

/-!
# Unsigned machine words as natural numbers

A register of `width` bits is carried as a natural number, and the operations
that can leave the register's range reduce their result explicitly.  A proof
that stays below the bound discharges the reduction once, with the lemmas of
this file, and then works with ordinary arithmetic.

Words that are put together from parts have one rule, which turns them into
sums.  The last section is the usual rounding of a quantity to a multiple of an
alignment, with the reduction where the rounded value can leave the register.
-/

namespace Word

/-- Reduce a result to a register of `width` bits. -/
def wrap (width value : Nat) : Nat :=
  value % 2 ^ width

/-- Subtraction of two register values; it borrows from `2 ^ width`. -/
def sub (width left right : Nat) : Nat :=
  (left + 2 ^ width - right) % 2 ^ width

theorem wrap_of_lt {width value : Nat} (bound : value < 2 ^ width) :
    wrap width value = value :=
  Nat.mod_eq_of_lt bound

theorem wrap_lt (width value : Nat) : wrap width value < 2 ^ width :=
  Nat.mod_lt _ (Nat.two_pow_pos width)

theorem sub_of_le {width left right : Nat} (bound : left < 2 ^ width) (le : right ≤ left) :
    sub width left right = left - right := by
  have shifted : left + 2 ^ width - right = left - right + 2 ^ width := by omega
  unfold sub
  rw [shifted, Nat.add_mod_right, Nat.mod_eq_of_lt (by omega)]

/-- The number of a word that is put together from two. -/
theorem toNat_append {high low : Nat} (front : BitVec high) (back : BitVec low) :
    (front ++ back).toNat = front.toNat * 2 ^ low + back.toNat := by
  rw [BitVec.toNat_append, ← Nat.shiftLeft_add_eq_or_of_lt back.isLt, Nat.shiftLeft_eq]

/-- Round up to a multiple of `alignment`; the rounded value is reduced. -/
def alignUp (width value alignment : Nat) : Nat :=
  if value % alignment ≠ 0 then wrap width (value - value % alignment + alignment) else value

/-- Below the last multiple of the register's range, the rounded value divided
by the alignment is the ordinary ceiling of the quotient. -/
theorem alignUp_div {width value alignment : Nat} (positive : 0 < alignment)
    (bound : value + alignment ≤ 2 ^ width) :
    alignUp width value alignment / alignment = (value + (alignment - 1)) / alignment := by
  have split := Nat.div_add_mod value alignment
  have small := Nat.mod_lt value positive
  unfold alignUp
  by_cases exact : value % alignment = 0
  · rw [if_neg (not_not.mpr exact)]
    have product : value = alignment * (value / alignment) := by omega
    have sum : value + (alignment - 1) = alignment - 1 + alignment * (value / alignment) := by omega
    have below : (alignment - 1) / alignment = 0 := Nat.div_eq_of_lt (by omega)
    rw [sum, Nat.add_mul_div_left _ _ positive, below, Nat.zero_add]
  · rw [if_pos exact]
    by_cases fits : value - value % alignment + alignment < 2 ^ width
    · have left : value - value % alignment + alignment = alignment * (value / alignment + 1) := by
        rw [Nat.mul_add, Nat.mul_one]; omega
      have right : value + (alignment - 1) =
          value % alignment - 1 + alignment * (value / alignment + 1) := by
        rw [Nat.mul_add, Nat.mul_one]; omega
      have below : (value % alignment - 1) / alignment = 0 := Nat.div_eq_of_lt (by omega)
      rw [wrap_of_lt fits, left, right, Nat.mul_div_cancel_left _ positive,
        Nat.add_mul_div_left _ _ positive, below, Nat.zero_add]
    · have : 0 < value % alignment := Nat.pos_of_ne_zero exact
      omega

end Word

end Foundation
