import Mathlib
import WeakOS.Foundation.ShiftDivision

namespace WeakOS

open Foundation

namespace Abi

/-!
# Division of 64-bit integers

The functions that the compiler calls for divisions that the processor has no
instruction for.  All four run the same two loops; the signed ones run them on
the magnitudes.  A loop has no result when it needs more than 65 iterations.
-/

/-! ## The loops -/

/-- The loop that doubles the divisor.  It stops when a shift overflows. -/
def scaleLoop (dividend : BitVec 64) : (fuel : Nat) → (shift aux : BitVec 64) → Option (BitVec 64)
  | 0, _, _ => none
  | fuel + 1, shift, aux =>
      if shift < dividend then
        let aux := aux <<< 1
        if aux > shift then scaleLoop dividend fuel aux aux else some shift
      else some shift

/-- The quotient, what is left of the dividend, and what has been subtracted from
what. -/
structure Division where
  aux : BitVec 64
  dividend : BitVec 64
  subtracted : List (BitVec 64 × BitVec 64)

/-- The loop that subtracts. -/
def subtractLoop (divisor : BitVec 64) : (fuel : Nat) → (shift : BitVec 64) → Division → Option Division
  | 0, _, _ => none
  | fuel + 1, shift, ⟨aux, dividend, subtracted⟩ =>
      if shift ≥ divisor then
        let aux := aux <<< 1
        if shift ≤ dividend then
          subtractLoop divisor fuel (shift >>> 1)
            ⟨aux + 1, dividend - shift, subtracted ++ [(dividend, shift)]⟩
        else subtractLoop divisor fuel (shift >>> 1) ⟨aux, dividend, subtracted⟩
      else some ⟨aux, dividend, subtracted⟩

/-- Both loops. -/
def divide (dividend divisor : BitVec 64) : Option Division := do
  let shift ← scaleLoop dividend 65 divisor divisor
  subtractLoop divisor 65 shift ⟨0, dividend, []⟩

/-! ## The functions -/

section Functions

variable (dividend divisor : BitVec 64)

/-- `__udivdi3`. -/
def udivdi3 : Option (BitVec 64) := (divide dividend divisor).map Division.aux

/-- `__umoddi3`. -/
def umoddi3 : Option (BitVec 64) := (divide dividend divisor).map Division.dividend

/-- The loops of the signed functions, on the negated operands where these are
negative. -/
def divideMagnitudes : Option Division :=
  let dividend := if dividend.slt 0 then -dividend else dividend
  let divisor := if divisor.slt 0 then -divisor else divisor
  divide dividend divisor

/-- `__divdi3`. -/
def divdi3 : Option (BitVec 64) :=
  let sig := dividend.slt 0 ^^ divisor.slt 0
  (divideMagnitudes dividend divisor).map fun division =>
    if sig then -division.aux else division.aux

/-- `__moddi3`.  The sign is computed as it is for the quotient. -/
def moddi3 : Option (BitVec 64) :=
  let sig := dividend.slt 0 ^^ divisor.slt 0
  (divideMagnitudes dividend divisor).map fun division =>
    if sig then -division.dividend else division.dividend

end Functions

/-! ## What the loops do -/

section Loops

variable {dividend divisor shift aux : BitVec 64} {count fuel : Nat}

/-- A shift by one either doubles or overflows, and then it decreases. -/
theorem shiftLeft_gt_iff (positive : 0 < shift.toNat) :
    shift <<< 1 > shift ↔ 2 * shift.toNat < 2 ^ 64 := by
  have bound := shift.isLt
  rw [gt_iff_lt, BitVec.lt_def, BitVec.toNat_shiftLeft, Nat.shiftLeft_eq]
  omega

/-- A shift by one that does not overflow. -/
theorem toNat_double (room : 2 * aux.toNat < 2 ^ 64) : (aux <<< 1).toNat = 2 * aux.toNat := by
  rw [BitVec.toNat_shiftLeft, Nat.shiftLeft_eq, pow_one, Nat.mul_comm, Nat.mod_eq_of_lt room]

/-- The next digit of the quotient is a one. -/
theorem toNat_double_succ (room : 2 * aux.toNat + 1 < 2 ^ 64) :
    (aux <<< 1 + 1).toNat = 2 * aux.toNat + 1 := by
  have one : (1 : BitVec 64).toNat = 1 := rfl
  rw [BitVec.toNat_add, toNat_double (by omega), one, Nat.mod_eq_of_lt room]

/-- The scaled divisor is a multiple of the divisor, and more than half of the
dividend, on both exits of the loop. -/
theorem scaleLoop_spec (positive : 0 < divisor.toNat) (multiple : shift.toNat = divisor.toNat * 2 ^ count)
    (enough : 64 ≤ fuel + count) :
    ∃ scaled last, scaleLoop dividend (fuel + 1) shift shift = some scaled ∧
      scaled.toNat = divisor.toNat * 2 ^ last ∧ last < 64 ∧ dividend.toNat < 2 * scaled.toNat := by
  have few : ∀ {scaled : BitVec 64} {last : Nat}, scaled.toNat = divisor.toNat * 2 ^ last → last < 64 := by
    intro scaled last multiple
    have power : 2 ^ last ≤ scaled.toNat := multiple ▸ Nat.le_mul_of_pos_left _ positive
    exact (Nat.pow_lt_pow_iff_right (by decide)).mp (Nat.lt_of_le_of_lt power scaled.isLt)
  have nonzero : 0 < shift.toNat := multiple ▸ Nat.mul_pos positive (Nat.two_pow_pos count)
  have bound := dividend.isLt
  induction fuel generalizing shift count with
  | zero => exact absurd (few multiple) (by omega)
  | succ fuel inductionHypothesis =>
      rw [scaleLoop]
      by_cases less : shift < dividend
      · rw [if_pos less]
        by_cases doubles : shift <<< 1 > shift
        · -- the multiple is doubled
          have room := (shiftLeft_gt_iff nonzero).mp doubles
          have twice : (shift <<< 1).toNat = 2 * shift.toNat := toNat_double room
          have next : (shift <<< 1).toNat = divisor.toNat * 2 ^ (count + 1) := by
            rw [twice, multiple]
            ring
          rcases inductionHypothesis next (by omega) (by omega) with ⟨scaled, last, result, rest⟩
          exact ⟨scaled, last, (if_pos doubles).trans result, rest⟩
        · -- the shift has overflowed
          have large : 2 ^ 64 ≤ 2 * shift.toNat :=
            Nat.not_lt.mp (fun room => doubles ((shiftLeft_gt_iff nonzero).mpr room))
          exact ⟨shift, count, if_neg doubles, multiple, few multiple, by omega⟩
      · have le : dividend.toNat ≤ shift.toNat := BitVec.le_def.mp (BitVec.not_lt.mp less)
        exact ⟨shift, count, if_neg less, multiple, few multiple, by omega⟩

/-- Nothing larger than the minuend is subtracted. -/
def Division.NoUnderflow (division : Division) : Prop :=
  ∀ step ∈ division.subtracted, step.2 ≤ step.1

/-- A subtraction that fits is added. -/
theorem Division.NoUnderflow.record {division : Division} (noUnderflow : division.NoUnderflow)
    (digit left : BitVec 64) (fits : shift ≤ division.dividend) :
    Division.NoUnderflow ⟨digit, left, division.subtracted ++ [(division.dividend, shift)]⟩ := by
  intro step member
  rcases List.mem_append.mp member with earlier | last
  · exact noUnderflow step earlier
  · rw [List.mem_singleton.mp last]
    exact fits

/-- Half of a larger multiple is the multiple before it. -/
theorem half_multiple (divisor count : Nat) : divisor * 2 ^ (count + 1) / 2 = divisor * 2 ^ count := by
  rw [pow_succ, ← Nat.mul_assoc, Nat.mul_div_cancel _ Nat.two_pos]

/-- The loop subtracts the multiples of the divisor, and the digits fit into the
quotient.  When all of them have been tried, half of the divisor is left. -/
theorem subtractLoop_spec (positive : 0 < divisor.toNat)
    (half : shift.toNat = divisor.toNat * 2 ^ count / 2) (enough : count < fuel) {division : Division}
    (room : (division.aux.toNat + 1) * 2 ^ count ≤ 2 ^ 64) (noUnderflow : division.NoUnderflow) :
    ∃ result, subtractLoop divisor fuel shift division = some result ∧
      (result.aux.toNat, result.dividend.toNat) = ShiftDivision.subtract divisor.toNat count
        division.aux.toNat division.dividend.toNat ∧ result.NoUnderflow := by
  induction fuel generalizing shift count division with
  | zero => exact absurd enough (Nat.not_lt_zero count)
  | succ fuel inductionHypothesis =>
      rcases division with ⟨aux, dividend, subtracted⟩
      dsimp only at room ⊢
      rw [subtractLoop]
      cases count with
      | zero =>
          have stops : ¬ shift ≥ divisor := by
            rw [ge_iff_le, BitVec.le_def]
            omega
          exact ⟨_, if_neg stops, rfl, noUnderflow⟩
      | succ count =>
          have multiple : shift.toNat = divisor.toNat * 2 ^ count := half.trans (half_multiple _ _)
          have next : (shift >>> 1).toNat = divisor.toNat * 2 ^ count / 2 := by
            rw [BitVec.toNat_ushiftRight, Nat.shiftRight_eq_div_pow, multiple, pow_one]
          have goes : shift ≥ divisor := by
            rw [ge_iff_le, BitVec.le_def, multiple]
            exact Nat.le_mul_of_pos_right _ (Nat.two_pow_pos count)
          have digits : (2 * aux.toNat + 1 + 1) * 2 ^ count ≤ 2 ^ 64 := by
            rw [pow_succ] at room
            nlinarith
          have small : 2 * aux.toNat + 1 + 1 ≤ 2 ^ 64 :=
            Nat.le_trans (Nat.le_mul_of_pos_right _ (Nat.two_pow_pos count)) digits
          have twice : (aux <<< 1).toNat = 2 * aux.toNat := toNat_double (by omega)
          have odd : (aux <<< 1 + 1).toNat = 2 * aux.toNat + 1 := toNat_double_succ small
          rw [if_pos goes, ShiftDivision.subtract, ← multiple]
          by_cases fits : shift ≤ dividend
          · have le := BitVec.le_def.mp fits
            have difference : (dividend - shift).toNat = dividend.toNat - shift.toNat :=
              BitVec.toNat_sub_of_le fits
            rw [if_pos fits, if_pos le, ← odd, ← difference]
            refine inductionHypothesis next (Nat.lt_of_succ_lt_succ enough) ?_
              (noUnderflow.record _ _ fits)
            rw [odd]
            exact digits
          · have less : ¬ shift.toNat ≤ dividend.toNat := fun le => fits (BitVec.le_def.mpr le)
            rw [if_neg fits, if_neg less, ← twice]
            refine inductionHypothesis next (Nat.lt_of_succ_lt_succ enough) ?_ noUnderflow
            rw [twice]
            exact Nat.le_trans (Nat.mul_le_mul_right _ (Nat.le_succ _)) digits

/-- Both loops end, and leave the quotient and the remainder. -/
theorem divide_spec (dividend : BitVec 64) (positive : 0 < divisor.toNat) :
    ∃ division, divide dividend divisor = some division ∧
      division.aux.toNat = dividend.toNat / divisor.toNat ∧
      division.dividend.toNat = dividend.toNat % divisor.toNat ∧ division.NoUnderflow := by
  have unscaled : divisor.toNat = divisor.toNat * 2 ^ 0 := (Nat.mul_one _).symm
  rcases @scaleLoop_spec dividend divisor divisor 0 64 positive unscaled (Nat.le_refl 64) with
    ⟨shift, last, scaled, multiple, few, below⟩
  have half : shift.toNat = divisor.toNat * 2 ^ (last + 1) / 2 :=
    multiple.trans (half_multiple _ _).symm
  have none : (0 : BitVec 64).toNat = 0 := rfl
  have room : ((0 : BitVec 64).toNat + 1) * 2 ^ (last + 1) ≤ 2 ^ 64 := by
    rw [none, Nat.zero_add, Nat.one_mul]
    exact Nat.pow_le_pow_right Nat.two_pos few
  rcases @subtractLoop_spec divisor shift (last + 1) 65 positive half (by omega) ⟨0, dividend, []⟩ room
    (fun step member => absurd member List.not_mem_nil) with ⟨division, result, digits, noUnderflow⟩
  have largest : dividend.toNat < divisor.toNat * 2 ^ (last + 1) := by
    rw [pow_succ, ← Nat.mul_assoc, ← multiple, Nat.mul_comm]
    exact below
  rw [ShiftDivision.subtract_eq largest, none, Nat.zero_mul, Nat.zero_add] at digits
  refine ⟨division, ?_, congrArg Prod.fst digits, congrArg Prod.snd digits, noUnderflow⟩
  rw [divide, scaled]
  exact result

end Loops

/-! ## Unsigned division -/

/-- The unsigned functions return the quotient and the remainder. -/
theorem udivdi3_umoddi3_exact (dividend : BitVec 64) {divisor : BitVec 64} (nonzero : divisor ≠ 0) :
    (udivdi3 dividend divisor).map BitVec.toNat = some (dividend.toNat / divisor.toNat) ∧
      (umoddi3 dividend divisor).map BitVec.toNat = some (dividend.toNat % divisor.toNat) ∧
      ∃ division, divide dividend divisor = some division ∧ division.NoUnderflow := by
  have positive : 0 < divisor.toNat := Nat.pos_of_ne_zero (BitVec.toNat_ne_iff_ne.mpr nonzero)
  rcases divide_spec dividend positive with ⟨division, divided, quotient, remainder, noUnderflow⟩
  refine ⟨?_, ?_, division, divided, noUnderflow⟩
  · rw [udivdi3, divided, Option.map_some, Option.map_some, quotient]
  · rw [umoddi3, divided, Option.map_some, Option.map_some, remainder]

/-- A divisor that cannot be doubled. -/
theorem udivdi3_umoddi3_exact_top :
    (udivdi3 0xffffffffffffffff 0x8000000000000000).map BitVec.toNat = some 1 ∧
      (umoddi3 0xffffffffffffffff 0x8000000000000000).map BitVec.toNat = some 0x7fffffffffffffff ∧
      ∃ division, divide 0xffffffffffffffff 0x8000000000000000 = some division ∧
        division.NoUnderflow :=
  udivdi3_umoddi3_exact 0xffffffffffffffff (by decide)

/-! ## Signed division -/

/-- Truncated division divides the magnitudes. -/
theorem tdiv_eq_magnitudes (a b : Int) : a.tdiv b =
    if (decide (a < 0) ^^ decide (b < 0)) then -((a.natAbs / b.natAbs : Nat) : Int)
    else ((a.natAbs / b.natAbs : Nat) : Int) := by
  simp only [Int.natCast_div, Int.natCast_natAbs]
  rcases Int.lt_or_le a 0 with negA | posA <;> rcases Int.lt_or_le b 0 with negB | posB
  · rw [decide_eq_true negA, decide_eq_true negB, abs_of_neg negA, abs_of_neg negB,
      ← Int.tdiv_eq_ediv_of_nonneg (by omega), Int.neg_tdiv_neg]
    rfl
  · rw [decide_eq_true negA, decide_eq_false (by omega), abs_of_neg negA, abs_of_nonneg posB,
      ← Int.tdiv_eq_ediv_of_nonneg (by omega), Int.neg_tdiv, neg_neg]
    rfl
  · rw [decide_eq_true negB, decide_eq_false (by omega), abs_of_neg negB, abs_of_nonneg posA,
      ← Int.tdiv_eq_ediv_of_nonneg (by omega), Int.tdiv_neg, neg_neg]
    rfl
  · rw [decide_eq_false (by omega), decide_eq_false (by omega), abs_of_nonneg posB, abs_of_nonneg posA,
      ← Int.tdiv_eq_ediv_of_nonneg (by omega)]
    rfl

/-- The remainder has the sign of the dividend. -/
theorem tmod_eq_magnitudes (a b : Int) : a.tmod b =
    if a < 0 then -((a.natAbs % b.natAbs : Nat) : Int) else ((a.natAbs % b.natAbs : Nat) : Int) := by
  rw [← Int.natAbs_tmod]
  split
  · have opposite : 0 ≤ (-a).tmod b := Int.tmod_nonneg _ (by omega)
    rw [Int.neg_tmod] at opposite
    omega
  · have same : 0 ≤ a.tmod b := Int.tmod_nonneg _ (by omega)
    omega

/-- Quotient and remainder as the language defines them. -/
structure DividesSigned (dividend divisor quotient remainder : BitVec 64) : Prop where
  truncated : quotient.toInt = dividend.toInt.tdiv divisor.toInt
  smaller : |remainder.toInt| < |divisor.toInt|
  sign : remainder.toInt = 0 ∨ remainder.toInt.sign = dividend.toInt.sign
  together : quotient.toInt * divisor.toInt + remainder.toInt = dividend.toInt

section Signed

variable {value dividend divisor : BitVec 64}

/-- The magnitude of the least value is one more than the greatest value. -/
theorem toNat_magnitude (value : BitVec 64) :
    (if value.slt 0 then -value else value).toNat = value.toInt.natAbs := by
  have bound := value.isLt
  have signed := BitVec.toInt_eq_toNat_cond value
  have slt : value.slt 0 = decide (value.toInt < 0) := rfl
  rw [slt]
  by_cases negative : value.toInt < 0
  · rw [if_pos (decide_eq_true negative), BitVec.toNat_neg]
    split at signed <;> omega
  · rw [if_neg (Bool.not_eq_true _ ▸ decide_eq_false negative)]
    split at signed <;> omega

/-- A magnitude gets its sign. -/
theorem toInt_of_magnitude {sig : Bool}
    (fits : value.toNat < 2 ^ 63 ∨ value.toNat = 2 ^ 63 ∧ sig = true) :
    (if sig then -value else value).toInt = if sig then -(value.toNat : Int) else value.toNat := by
  cases sig with
  | true =>
      rw [if_pos rfl, if_pos rfl, BitVec.toInt_eq_toNat_cond, BitVec.toNat_neg]
      split <;> omega
  | false =>
      have small : value.toNat < 2 ^ 63 := fits.resolve_right (fun top => Bool.false_ne_true top.2)
      rw [if_neg Bool.false_ne_true, if_neg Bool.false_ne_true, BitVec.toInt_eq_toNat_cond]
      split <;> omega

/-- The quotient of the magnitudes has a sign only where it is not too large. -/
theorem quotient_fits (regular : ¬ (dividend = BitVec.intMin 64 ∧ divisor = -1)) :
    dividend.toInt.natAbs / divisor.toInt.natAbs < 2 ^ 63 ∨
      dividend.toInt.natAbs / divisor.toInt.natAbs = 2 ^ 63 ∧
        (dividend.slt 0 ^^ divisor.slt 0) = true := by
  have least := BitVec.le_toInt dividend
  have most : dividend.toInt < 2 ^ 63 := BitVec.toInt_lt
  have atMost := Nat.div_le_self dividend.toInt.natAbs divisor.toInt.natAbs
  rcases Nat.lt_or_ge (dividend.toInt.natAbs / divisor.toInt.natAbs) (2 ^ 63) with small | large
  · exact Or.inl small
  · -- only the least value divided by one is as large
    have top : dividend.toInt = -2 ^ 63 := by omega
    have one : divisor.toInt.natAbs = 1 := by
      by_contra other
      rw [top] at large
      rcases Nat.lt_or_ge divisor.toInt.natAbs 2 with less | more
      · have zero : divisor.toInt.natAbs = 0 := by omega
        rw [zero, Nat.div_zero] at large
        exact absurd large (by decide)
      · have half : (-2 ^ 63 : Int).natAbs / divisor.toInt.natAbs ≤ (-2 ^ 63 : Int).natAbs / 2 :=
          Nat.div_le_div_left more Nat.two_pos
        exact absurd (Nat.le_trans large half) (by decide)
    have isLeast : dividend = BitVec.intMin 64 := BitVec.eq_of_toInt_eq top
    have positive : divisor.toInt = 1 := by
      rcases Int.natAbs_eq divisor.toInt with plus | minus
      · rw [plus, one]
        rfl
      · refine absurd ⟨isLeast, BitVec.eq_of_toInt_eq ?_⟩ regular
        rw [minus, one]
        rfl
    have isOne : divisor = 1 := BitVec.eq_of_toInt_eq positive
    rw [isLeast, isOne]
    exact Or.inr (by decide)

/-- The remainder of the magnitudes with the sign of the quotient. -/
theorem remainder_sign (a b : Int) (nonzero : b ≠ 0) :
    (if (decide (a < 0) ^^ decide (b < 0)) then -((a.natAbs % b.natAbs : Nat) : Int)
      else ((a.natAbs % b.natAbs : Nat) : Int)) = if 0 < b then a.tmod b else -a.tmod b := by
  rw [tmod_eq_magnitudes]
  by_cases negative : a < 0 <;> by_cases below : b < 0
  · rw [if_pos negative, if_neg (by omega : ¬ 0 < b), decide_eq_true negative, decide_eq_true below,
      neg_neg]
    rfl
  · rw [if_pos negative, if_pos (by omega : 0 < b), decide_eq_true negative, decide_eq_false below]
    rfl
  · rw [if_neg negative, if_neg (by omega : ¬ 0 < b), decide_eq_false negative, decide_eq_true below]
    rfl
  · rw [if_neg negative, if_pos (by omega : 0 < b), decide_eq_false negative, decide_eq_false below]
    rfl

/-- What the signed functions return. -/
theorem signed_results (nonzero : divisor ≠ 0)
    (regular : ¬ (dividend = BitVec.intMin 64 ∧ divisor = -1)) :
    ∃ quotient remainder, divdi3 dividend divisor = some quotient ∧
      moddi3 dividend divisor = some remainder ∧
      quotient.toInt = dividend.toInt.tdiv divisor.toInt ∧
      remainder.toInt =
        if 0 < divisor.toInt then dividend.toInt.tmod divisor.toInt
        else -dividend.toInt.tmod divisor.toInt := by
  have divisorNonzero : divisor.toInt ≠ 0 := fun zero => nonzero (BitVec.eq_of_toInt_eq zero)
  have positive : 0 < (if divisor.slt 0 then -divisor else divisor).toNat := by
    rw [toNat_magnitude]
    exact Int.natAbs_pos.mpr divisorNonzero
  rcases divide_spec (if dividend.slt 0 then -dividend else dividend) positive with
    ⟨division, divided, quotient, remainder, -⟩
  rw [toNat_magnitude, toNat_magnitude] at quotient remainder
  have bound : divisor.toInt.natAbs ≤ 2 ^ 63 := by
    have least := BitVec.le_toInt divisor
    have most : divisor.toInt < 2 ^ 63 := BitVec.toInt_lt
    omega
  have less := Nat.mod_lt dividend.toInt.natAbs (Int.natAbs_pos.mpr divisorNonzero)
  refine ⟨if dividend.slt 0 ^^ divisor.slt 0 then -division.aux else division.aux,
    if dividend.slt 0 ^^ divisor.slt 0 then -division.dividend else division.dividend, ?_, ?_, ?_, ?_⟩
  · rw [divdi3, divideMagnitudes, divided, Option.map_some]
  · rw [moddi3, divideMagnitudes, divided, Option.map_some]
  · rw [toInt_of_magnitude (quotient.symm ▸ quotient_fits regular), tdiv_eq_magnitudes, quotient]
    rfl
  · have small : division.dividend.toNat < 2 ^ 63 := remainder ▸ Nat.lt_of_lt_of_le less bound
    rw [toInt_of_magnitude (Or.inl small), remainder]
    exact remainder_sign _ _ divisorNonzero

/-- The remainder has the sign of the quotient, so the two functions fit together
for positive divisors and where there is no remainder. -/
theorem divdi3_moddi3_iff (nonzero : divisor ≠ 0)
    (regular : ¬ (dividend = BitVec.intMin 64 ∧ divisor = -1)) :
    (∃ quotient remainder, divdi3 dividend divisor = some quotient ∧
        moddi3 dividend divisor = some remainder ∧
        DividesSigned dividend divisor quotient remainder) ↔
      0 < divisor.toInt ∨ divisor.toInt ∣ dividend.toInt := by
  rcases signed_results nonzero regular with
    ⟨quotient, remainder, divided, reduced, truncated, left⟩
  have whole := Int.tmod_add_tdiv_mul dividend.toInt divisor.toInt
  constructor
  · rintro ⟨other, rest, divided', reduced', divides⟩
    rw [divided, Option.some.injEq] at divided'
    rw [reduced, Option.some.injEq] at reduced'
    subst divided' reduced'
    by_cases positive : 0 < divisor.toInt
    · exact Or.inl positive
    · -- the sign is the wrong one, so there is nothing left
      rw [if_neg positive] at left
      have together := divides.together
      rw [truncated, left] at together
      exact Or.inr (Int.dvd_of_tmod_eq_zero (by omega))
  · intro fits
    have right : remainder.toInt = dividend.toInt.tmod divisor.toInt := by
      rcases fits with positive | divides
      · rw [left, if_pos positive]
      · rw [left, Int.tmod_eq_zero_of_dvd divides, neg_zero, ite_self]
    refine ⟨quotient, remainder, divided, reduced, truncated, ?_, ?_, ?_⟩
    · have divisorNonzero : divisor.toInt ≠ 0 := fun zero => nonzero (BitVec.eq_of_toInt_eq zero)
      have less := Nat.mod_lt dividend.toInt.natAbs (Int.natAbs_pos.mpr divisorNonzero)
      rw [right, Int.abs_eq_natAbs, Int.abs_eq_natAbs, Int.natAbs_tmod]
      exact Int.ofNat_lt.mpr less
    · rw [right, Int.sign_tmod]
      by_cases divides : divisor.toInt ∣ dividend.toInt
      · exact Or.inl (Int.tmod_eq_zero_of_dvd divides)
      · exact Or.inr (if_neg divides)
    · rw [truncated, right]
      omega

end Signed

/-- The least value divided by three. -/
theorem divdi3_moddi3_iff_least : ∃ quotient remainder,
    divdi3 (BitVec.intMin 64) 3 = some quotient ∧ moddi3 (BitVec.intMin 64) 3 = some remainder ∧
      DividesSigned (BitVec.intMin 64) 3 quotient remainder :=
  (divdi3_moddi3_iff (by decide) (by decide)).mpr (Or.inl (by decide))

/-- The remainder of 7 by -2 is -1 where it has to be 1. -/
theorem moddi3_negative_divisor : ¬ ∃ quotient remainder,
    divdi3 7 (-2) = some quotient ∧ moddi3 7 (-2) = some remainder ∧
      DividesSigned 7 (-2) quotient remainder := by
  rintro ⟨quotient, remainder, -, reduced, divides⟩
  have evaluated : moddi3 7 (-2) = some (-1) := by decide +kernel
  rw [evaluated, Option.some.injEq] at reduced
  rcases divides.sign with zero | same
  · rw [← reduced] at zero
    exact absurd zero (by decide)
  · rw [← reduced] at same
    exact absurd same (by decide)

end Abi

end WeakOS
