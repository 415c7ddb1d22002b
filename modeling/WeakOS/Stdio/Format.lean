import Mathlib
import WeakOS.Stdio.Printf

namespace WeakOS

open Foundation

namespace Stdio

/-!
# What `printf` prints

A format is built from pieces: literal characters, doubled percent signs and
conversions.  Expanding the pieces with matching values gives the text that
`printf` emits.  On any format and any values it returns, reads the format up
to its terminator only, and passes on the values from the left.
-/

/-! ## Digits -/

section Digits

variable (value : BitVec 64)

theorem unsignedDivides : Numeral.Divides (fun value : BitVec 64 => value.toNat) decimalDigit 10
    (fun value : BitVec 64 => decide (value > 0))
    (fun value => (value % 10).setWidth 8 + chr '0') (fun value => value / 10) where
  more_iff := fun number => by
    rw [decide_eq_true_eq, gt_iff_lt, BitVec.lt_def]
    exact Nat.pos_iff_ne_zero
  symbol_eq := fun number _ => rfl
  next_eq := fun number _ => BitVec.toNat_udiv

theorem hexDivides (hexAlpha : List (BitVec 8)) :
    Numeral.Divides (fun value : BitVec 64 => value.toNat) (hexDigit hexAlpha) 16
      (fun value : BitVec 64 => decide (value > 0))
      (fun value => hexDigit hexAlpha (value &&& 0xf).toNat) (fun value => value >>> 4) where
  more_iff := unsignedDivides.more_iff
  symbol_eq := fun number _ => by
    have low : (number &&& 0xf).toNat = number.toNat % 16 := by
      rw [BitVec.toNat_and]
      exact Nat.and_two_pow_sub_one_eq_mod number.toNat 4
    simp only [low]
  next_eq := fun number _ => by
    rw [BitVec.toNat_ushiftRight, Nat.shiftRight_eq_div_pow]

/-- The value of a register that is not negative; a negative one has no
digits. -/
def magnitude {width : Nat} (value : BitVec width) : Nat := value.toInt.toNat

section Signed

variable {width : Nat} {value : BitVec width}

theorem magnitude_of_msb (positive : value.msb = false) : magnitude value = value.toNat := by
  rw [magnitude, BitVec.toInt_eq_toNat_of_msb positive, Int.toNat_natCast]

theorem msb_of_slt (goes : BitVec.slt 0 value = true) : value.msb = false := by
  have zero : (0 : BitVec width).toInt = 0 := BitVec.toInt_zero
  have positive := zero ▸ BitVec.slt_iff_toInt_lt.mp goes
  exact BitVec.msb_eq_false_iff_two_mul_lt.mpr (by
    have value := BitVec.toInt_eq_toNat_cond value
    split at value <;> omega)

/-- Ten is positive in a register that has room for it. -/
theorem msb_ten (wide : 8 ≤ width) : (10 : BitVec width).toNat = 10 ∧ (10 : BitVec width).msb = false := by
  have room : 2 ^ 8 ≤ 2 ^ width := Nat.pow_le_pow_right Nat.two_pos wide
  have small : 10 < 2 ^ width := Nat.lt_of_lt_of_le (by decide) room
  have ten : (10 : BitVec width).toNat = 10 := Nat.mod_eq_of_lt small
  exact ⟨ten, BitVec.msb_eq_false_iff_two_mul_lt.mpr (by omega)⟩

/-- A register that is greater than zero is divided like an unsigned one. -/
theorem signedDivides (wide : 8 ≤ width) : Numeral.Divides magnitude decimalDigit 10
    (fun value : BitVec width => BitVec.slt 0 value)
    (fun value => (value.srem 10).setWidth 8 + chr '0') (fun value => value.sdiv 10) where
  more_iff := fun number => by
    have zero : (0 : BitVec width).toInt = 0 := BitVec.toInt_zero
    rw [BitVec.slt_iff_toInt_lt, magnitude, zero]
    omega
  symbol_eq := fun number goes => by
    have positive := msb_of_slt goes
    have unsigned : number.srem 10 = number % 10 := by
      rw [BitVec.srem_eq, positive, (msb_ten wide).2]
    have low : (number % 10).setWidth 8 = BitVec.ofNat 8 (number.toNat % 10) := by
      have remainder : (number % 10).toNat = number.toNat % 10 := by
        rw [BitVec.toNat_umod, (msb_ten wide).1]
      rw [← remainder, BitVec.ofNat_toNat]
    simp only [unsigned, magnitude_of_msb positive, low]
    rfl
  next_eq := fun number goes => by
    have positive := msb_of_slt goes
    have unsigned : number.sdiv 10 = number / 10 := by
      rw [BitVec.sdiv_eq, positive, (msb_ten wide).2]
      rfl
    have smaller : (number / 10).toNat = number.toNat / 10 := by
      rw [BitVec.toNat_udiv, (msb_ten wide).1]
    have still : (number / 10).msb = false := by
      have bound := BitVec.msb_eq_false_iff_two_mul_lt.mp positive
      exact BitVec.msb_eq_false_iff_two_mul_lt.mpr (by omega)
    rw [unsigned, magnitude_of_msb still, magnitude_of_msb positive, smaller]

/-- The value that is left when the sign of a register has been printed.  The
least one has no negation. -/
theorem magnitude_unsigned (negatable : value ≠ BitVec.intMin width) :
    magnitude (if value.slt 0 then -value else value) = value.toInt.natAbs := by
  have zero : (0 : BitVec width).toInt = 0 := BitVec.toInt_zero
  unfold magnitude
  split
  · rename_i negative
    have below : value.toInt < 0 := by rwa [BitVec.slt_iff_toInt_lt, zero] at negative
    rw [BitVec.toInt_neg_of_ne_intMin negatable]
    omega
  · rename_i positive
    have above : ¬ value.toInt < 0 := by rwa [BitVec.slt_iff_toInt_lt, zero] at positive
    omega

end Signed

/-- The decimal numeral of a number. -/
def decimal (n : Nat) : List (BitVec 8) := Numeral.numeral decimalDigit 10 n

/-- The hexadecimal numeral of a number. -/
def hexadecimal (hexAlpha : List (BitVec 8)) (n : Nat) : List (BitVec 8) :=
  Numeral.numeral (hexDigit hexAlpha) 16 n

/-- The buffer of the decimal loop is large enough. -/
theorem exists_unsignedDigits : ∃ str, unsignedDigits value = some str ∧
    Numeral.print (chr '0') str = decimal value.toNat := by
  have fits : value.toNat < 10 ^ 20 := Nat.lt_of_lt_of_le value.isLt (by decide)
  exact ⟨_, unsignedDivides.push_eq (by decide) 20 value [] fits,
    Numeral.print_digits decimalDigit value.toNat⟩

theorem exists_signedDigits : ∃ str, signedDigits value = some str ∧
    Numeral.print (chr '0') str = decimal (magnitude value) := by
  have fits : magnitude value < 10 ^ 20 := by
    have bound : value.toInt < 2 ^ 63 := BitVec.toInt_lt
    unfold magnitude
    omega
  exact ⟨_, (signedDivides (by decide)).push_eq (by decide) 20 value [] fits,
    Numeral.print_digits decimalDigit (magnitude value)⟩

/-- Sixteen digits are enough for 64 bits. -/
theorem exists_hexDigits (hexAlpha : List (BitVec 8)) (zero : hexDigit hexAlpha 0 = chr '0') :
    ∃ str, hexDigits hexAlpha value = some str ∧
      Numeral.print (chr '0') str = hexadecimal hexAlpha value.toNat := by
  have fits : value.toNat < 16 ^ 16 := Nat.lt_of_lt_of_le value.isLt (by decide)
  refine ⟨_, (hexDivides hexAlpha).push_eq (by decide) 16 value [] fits, ?_⟩
  rw [← zero]
  exact Numeral.print_digits (hexDigit hexAlpha) value.toNat

end Digits

/-! ## Conversions -/

/-- The numeral of an integer. -/
def signedDecimal (n : Int) : List (BitVec 8) :=
  (if n < 0 then [chr '-'] else []) ++ decimal n.natAbs

/-- What a value of an unsigned type is printed as. -/
def renderUnsigned (conversion : BitVec 8) (n : Nat) : Option (List (BitVec 8)) :=
  if conversion = chr 'i' ∨ conversion = chr 'u' then some (decimal n)
  else if conversion = chr 'x' then some (hexadecimal hexAlphaLow n)
  else if conversion = chr 'X' ∨ conversion = chr 'p' then some (hexadecimal hexAlphaUp n)
  else none

/-- What a value of a signed type is printed as. -/
def renderSigned (conversion : BitVec 8) (n : Int) : Option (List (BitVec 8)) :=
  if conversion = chr 'i' ∨ conversion = chr 'd' then some (signedDecimal n) else none

/-- What a string is printed as: its characters, of which a wide one keeps its
lower byte. -/
def renderString {width : Nat} (conversion : BitVec 8) (string : CString width) :
    Option (List (BitVec 8)) :=
  if conversion = chr 's' then some (string.units.map (fun unit => unit.setWidth 8)) else none

/-- The text for a value, when the conversion is one for its type.  The least
`int64_t` has no negation. -/
def render (conversion : BitVec 8) : Value → Option (List (BitVec 8))
  | .uint64 value => renderUnsigned conversion value.toNat
  | .unsignedInt value => renderUnsigned conversion value.toNat
  | .int64 value =>
      if value = BitVec.intMin 64 then none else renderSigned conversion value.toInt
  | .int value => renderSigned conversion value.toInt
  | .long value => renderSigned conversion value.toInt
  | .unsignedLong value => renderUnsigned conversion value.toNat
  | .voidPtr value => renderUnsigned conversion value.toNat
  | .constCharPtr string => renderString conversion string
  | .uint16Ptr string => renderString conversion string
  | .charPtr string => renderString conversion string
  | .unsignedCharPtr string => renderString conversion string
  | .unsignedChar value => renderSigned conversion value.toNat

section Putval

variable {format : CString 8} {position : Nat} {conversion : BitVec 8} {text : List (BitVec 8)}
  (here : format.at? position = some conversion)

include here

theorem putvalUint64_render {value : BitVec 64}
    (rendered : renderUnsigned conversion value.toNat = some text) :
    putvalUint64 format position value = some (position + 1, text) := by
  unfold renderUnsigned at rendered
  simp only [putvalUint64, here, Option.bind_eq_bind, Option.bind_some]
  split at rendered
  · rename_i isDecimal
    rcases exists_unsignedDigits value with ⟨str, pushed, printed⟩
    rw [if_pos isDecimal, pushed, Option.bind_some, printed, Option.some.inj rendered]
  · rename_i notDecimal
    rw [if_neg notDecimal]
    split at rendered
    · rename_i isLow
      rcases exists_hexDigits value hexAlphaLow rfl with ⟨str, pushed, printed⟩
      rw [if_pos (Or.inr (Or.inl isLow)), if_pos isLow, pushed, Option.bind_some, printed,
        Option.some.inj rendered]
    · rename_i notLow
      split at rendered
      · rename_i isUp
        rcases exists_hexDigits value hexAlphaUp rfl with ⟨str, pushed, printed⟩
        rw [if_pos (isUp.imp_right Or.inr), if_neg notLow, pushed, Option.bind_some, printed,
          Option.some.inj rendered]
      · cases rendered

theorem putvalInt64_render {value : BitVec 64} (negatable : value ≠ BitVec.intMin 64)
    (rendered : renderSigned conversion value.toInt = some text) :
    putvalInt64 format position value = some (position + 1, text) := by
  unfold renderSigned at rendered
  simp only [putvalInt64, here, Option.bind_eq_bind, Option.bind_some]
  split at rendered
  · rename_i isDecimal
    have zero : (0 : BitVec 64).toInt = 0 := BitVec.toInt_zero
    have sign : value.slt 0 = true ↔ value.toInt < 0 := by rw [BitVec.slt_iff_toInt_lt, zero]
    rcases exists_signedDigits (if value.slt 0 then -value else value) with ⟨str, pushed, printed⟩
    rw [if_pos isDecimal, pushed, Option.bind_some, printed, magnitude_unsigned negatable, ← Option.some.inj rendered,
      signedDecimal]
    simp only [sign]
  · cases rendered

theorem putvalString_render {width : Nat} {string : CString width}
    (rendered : renderString conversion string = some text) :
    putvalString format position string = some (position + 1, text) := by
  unfold renderString at rendered
  simp only [putvalString, here, Option.bind_eq_bind, Option.bind_some]
  split at rendered
  · rename_i isString
    rw [if_neg (not_not.mpr isString), Option.some.inj rendered]
  · cases rendered

/-- Widening an unsigned value keeps it. -/
theorem putval_setWidth {width : Nat} (narrow : width ≤ 64) {value : BitVec width}
    (rendered : renderUnsigned conversion value.toNat = some text) :
    putvalUint64 format position (value.setWidth 64) = some (position + 1, text) := by
  refine putvalUint64_render here ?_
  rwa [BitVec.toNat_setWidth_of_le narrow]

/-- Widening a signed value keeps it, and the widened value has a negation. -/
theorem putval_signExtend {value : BitVec 32}
    (rendered : renderSigned conversion value.toInt = some text) :
    putvalInt64 format position (value.signExtend 64) = some (position + 1, text) := by
  have same : (value.signExtend 64).toInt = value.toInt :=
    BitVec.toInt_signExtend_of_le (by decide)
  refine putvalInt64_render here (fun least => ?_) (by rwa [same])
  have bound := BitVec.le_toInt value
  rw [← same, least] at bound
  exact absurd bound (by decide)

/-- A matching value is printed, and the position moves behind the conversion. -/
theorem putval_render {value : Value} (rendered : render conversion value = some text) :
    putval format position value = some (position + 1, text) := by
  cases value with
  | uint64 value => exact putvalUint64_render here rendered
  | unsignedInt value => exact putval_setWidth here (by decide) rendered
  | int64 value =>
      simp only [render] at rendered
      split at rendered
      · cases rendered
      · rename_i negatable
        exact putvalInt64_render here negatable rendered
  | int value => exact putval_signExtend here rendered
  | long value => exact putval_signExtend here rendered
  | unsignedLong value => exact putval_setWidth here (by decide) rendered
  | voidPtr value => exact putval_setWidth here (by decide) rendered
  | constCharPtr string => exact putvalString_render here rendered
  | uint16Ptr string => exact putvalString_render here rendered
  | charPtr string => exact putvalString_render here rendered
  | unsignedCharPtr string => exact putvalString_render here rendered
  | unsignedChar value =>
      have bound := value.isLt
      have same : (value.setWidth 64).toInt = value.toNat := by
        rw [BitVec.toInt_setWidth, Int.bmod_eq_of_le (by omega) (by omega)]
      refine putvalInt64_render here (fun least => ?_) (by rwa [same])
      rw [least] at same
      exact absurd same (Int.ne_of_lt (Int.lt_of_lt_of_le (by decide) (Int.natCast_nonneg _)))

end Putval

/-! ## Pieces of a format -/

/-- What a format is built from. -/
inductive Piece where
  | literal (ch : BitVec 8)
  | percent
  | conversion (ch : BitVec 8)

/-- The characters of a piece in the format. -/
def Piece.text : Piece → List (BitVec 8)
  | .literal ch => [ch]
  | .percent => [chr '%', chr '%']
  | .conversion ch => [chr '%', ch]

/-- No piece is empty. -/
theorem length_le_text (pieces : List Piece) :
    pieces.length ≤ (pieces.flatMap Piece.text).length := by
  induction pieces with
  | nil => exact Nat.zero_le _
  | cons piece rest inductionHypothesis =>
      have nonempty : 1 ≤ piece.text.length := by
        cases piece <;> simp only [Piece.text, List.length_cons, List.length_nil] <;> omega
      rw [List.flatMap_cons, List.length_append, List.length_cons]
      omega

/-- The text for a format and values that match it. -/
def expand : List Piece → List Value → Option (List (BitVec 8))
  | [], [] => some []
  | [], _ :: _ => none
  | .literal ch :: pieces, values =>
      if ch = chr '%' then none else (expand pieces values).map (ch :: ·)
  | .percent :: pieces, values => (expand pieces values).map (chr '%' :: ·)
  | .conversion _ :: _, [] => none
  | .conversion ch :: pieces, value :: values => do
      let text ← render ch value
      let rest ← expand pieces values
      some (text ++ rest)

/-- A percent sign is not a conversion. -/
theorem render_percent (value : Value) : render (chr '%') value = none := by
  cases value with
  | int64 value => exact ite_self none
  | _ => rfl

section Pieces

variable {format : CString 8} {position : Nat} {pieces : List Piece} {values : List Value}
  {text : List (BitVec 8)}

/-- A literal is printed, and is not a percent sign. -/
theorem expand_literal {ch : BitVec 8}
    (expanded : expand (.literal ch :: pieces) values = some text) :
    ch ≠ chr '%' ∧ ∃ tail, expand pieces values = some tail ∧ ch :: tail = text := by
  by_cases percent : ch = chr '%'
  · rw [expand, if_pos percent] at expanded
    cases expanded
  · rw [expand, if_neg percent] at expanded
    exact ⟨percent, Option.map_eq_some_iff.mp expanded⟩

section String

variable {rest : List (BitVec 8)} (fuel : Nat)

theorem printfString_literal {ch : BitVec 8} (left : format.stored.drop position = ch :: rest)
    (notEnd : ch ≠ 0) (notPercent : ch ≠ chr '%') :
    printfString format (fuel + 1) position =
      (printfString format fuel (position + 1)).map (ch :: ·) := by
  simp only [printfString, CString.at?_of_drop left, Option.bind_eq_bind, Option.bind_some,
    if_neg notEnd, if_neg notPercent]
  exact (Option.map_eq_bind ..).symm

theorem printfString_percent (left : format.stored.drop position = chr '%' :: chr '%' :: rest) :
    printfString format (fuel + 1) position =
      (printfString format fuel (position + 2)).map (chr '%' :: ·) := by
  have next := CString.at?_of_drop (CString.drop_succ_of_drop left)
  simp only [printfString, CString.at?_of_drop left, next, Option.bind_eq_bind, Option.bind_some, if_true]
  rw [if_neg (by decide)]
  exact (Option.map_eq_bind ..).symm

end String

/-- Without arguments, literals and doubled percent signs are printed. -/
theorem printfString_expand (left : format.stored.drop position = pieces.flatMap Piece.text ++ [0])
    (nonzero : 0 ∉ pieces.flatMap Piece.text) (expanded : expand pieces [] = some text) {fuel : Nat}
    (fueled : pieces.length < fuel) : printfString format fuel position = some text := by
  obtain ⟨fuel, rfl⟩ := Nat.exists_eq_add_of_le' (Nat.one_le_of_lt fueled)
  induction pieces generalizing position text fuel with
  | nil =>
      have here := CString.at?_of_drop left
      simp only [printfString, here, Option.bind_eq_bind, Option.bind_some, if_true]
      exact expanded
  | cons piece rest inductionHypothesis =>
      have later : rest.length < fuel := Nat.lt_of_succ_lt_succ fueled
      obtain ⟨fuel, rfl⟩ := Nat.exists_eq_add_of_le' (Nat.one_le_of_lt later)
      rw [List.flatMap_cons] at left nonzero
      have shorter : 0 ∉ rest.flatMap Piece.text :=
        fun member => nonzero (List.mem_append_right _ member)
      cases piece with
      | literal ch =>
          have notEnd : ch ≠ 0 := fun zero => nonzero (zero ▸ List.mem_cons_self)
          rcases expand_literal expanded with ⟨notPercent, tail, expandedRest, rfl⟩
          rw [printfString_literal (fuel + 1) left notEnd notPercent,
            inductionHypothesis (CString.drop_succ_of_drop left) shorter expandedRest _ later]
          rfl
      | percent =>
          have moved := CString.drop_succ_of_drop (CString.drop_succ_of_drop left)
          rcases Option.map_eq_some_iff.mp expanded with ⟨tail, expandedRest, rfl⟩
          rw [printfString_percent (fuel + 1) left,
            inductionHypothesis moved shorter expandedRest _ later]
          rfl
      | conversion ch => cases expanded

section From

variable {rest : List (BitVec 8)} (fuel : Nat) (value : Value) (args : List Value)

theorem printfFrom_literal {ch : BitVec 8} (left : format.stored.drop position = ch :: rest)
    (notEnd : ch ≠ 0) (notPercent : ch ≠ chr '%') :
    printfFrom format (fuel + 1) position (value :: args) =
      (printfFrom format fuel (position + 1) (value :: args)).map
        fun later => ⟨ch :: later.emitted, later.passed⟩ := by
  rw [printfFrom]
  simp only [CString.at?_of_drop left, Option.bind_eq_bind, Option.bind_some, if_neg notEnd,
    if_neg notPercent]
  exact (Option.map_eq_bind ..).symm

theorem printfFrom_percent (left : format.stored.drop position = chr '%' :: chr '%' :: rest) :
    printfFrom format (fuel + 1) position (value :: args) =
      (printfFrom format fuel (position + 2) (value :: args)).map
        fun later => ⟨chr '%' :: later.emitted, later.passed⟩ := by
  have next := CString.at?_of_drop (CString.drop_succ_of_drop left)
  rw [printfFrom]
  simp only [CString.at?_of_drop left, next, Option.bind_eq_bind, Option.bind_some, if_true]
  rw [if_neg (by decide)]
  exact (Option.map_eq_bind ..).symm

/-- A value that matches the conversion is rendered and passed on. -/
theorem printfFrom_conversion {ch : BitVec 8} {first : List (BitVec 8)}
    (left : format.stored.drop position = chr '%' :: ch :: rest)
    (rendered : render ch value = some first) :
    printfFrom format (fuel + 1) position (value :: args) =
      (printfFrom format fuel (position + 2) args).map
        fun later => ⟨first ++ later.emitted, value :: later.passed⟩ := by
  have next := CString.at?_of_drop (CString.drop_succ_of_drop left)
  have notPercent : ch ≠ chr '%' := by
    rintro rfl
    exact Option.some_ne_none _ (rendered.symm.trans (render_percent value))
  rw [printfFrom]
  simp only [CString.at?_of_drop left, next, Option.bind_eq_bind, Option.bind_some, if_true,
    if_neg notPercent, putval_render next rendered]
  rw [if_neg (by decide)]
  exact (Option.map_eq_bind ..).symm

end From

/-- Pieces and values that match are printed as they expand, and all values are
passed on. -/
theorem printfFrom_expand (left : format.stored.drop position = pieces.flatMap Piece.text ++ [0])
    (nonzero : 0 ∉ pieces.flatMap Piece.text) (expanded : expand pieces values = some text)
    {fuel : Nat} (fueled : pieces.length < fuel) :
    printfFrom format fuel position values = some ⟨text, values⟩ := by
  obtain ⟨fuel, rfl⟩ := Nat.exists_eq_add_of_le' (Nat.one_le_of_lt fueled)
  induction pieces generalizing position values text fuel with
  | nil =>
      cases values with
      | nil =>
          simp only [printfFrom, printfString_expand left nonzero expanded fueled,
            Option.bind_eq_bind, Option.bind_some]
      | cons value args => cases expanded
  | cons piece rest inductionHypothesis =>
      cases values with
      | nil =>
          simp only [printfFrom, printfString_expand left nonzero expanded fueled,
            Option.bind_eq_bind, Option.bind_some]
      | cons value args =>
          have later : rest.length < fuel := Nat.lt_of_succ_lt_succ fueled
          obtain ⟨fuel, rfl⟩ := Nat.exists_eq_add_of_le' (Nat.one_le_of_lt later)
          rw [List.flatMap_cons] at left nonzero
          have shorter : 0 ∉ rest.flatMap Piece.text :=
            fun member => nonzero (List.mem_append_right _ member)
          cases piece with
          | literal ch =>
              have notEnd : ch ≠ 0 := fun zero => nonzero (zero ▸ List.mem_cons_self)
              rcases expand_literal expanded with ⟨notPercent, tail, expandedRest, rfl⟩
              rw [printfFrom_literal (fuel + 1) value args left notEnd notPercent,
                inductionHypothesis (CString.drop_succ_of_drop left) shorter expandedRest _ later]
              rfl
          | percent =>
              have moved := CString.drop_succ_of_drop (CString.drop_succ_of_drop left)
              rcases Option.map_eq_some_iff.mp expanded with ⟨tail, expandedRest, rfl⟩
              rw [printfFrom_percent (fuel + 1) value args left,
                inductionHypothesis moved shorter expandedRest _ later]
              rfl
          | conversion ch =>
              have moved := CString.drop_succ_of_drop (CString.drop_succ_of_drop left)
              simp only [expand, Option.bind_eq_bind, Option.bind_eq_some_iff] at expanded
              rcases expanded with ⟨first, rendered, tail, expandedRest, joined⟩
              rw [printfFrom_conversion (fuel + 1) value args left rendered,
                inductionHypothesis moved shorter expandedRest _ later, ← Option.some.inj joined]
              rfl

end Pieces

/-! ## Every call returns -/

section Returns

variable {format : CString 8} {position : Nat}

/-- The position stays, or moves behind a conversion. -/
def Moves (format : CString 8) (position : Nat) (result : Option (Nat × List (BitVec 8))) : Prop :=
  ∃ next text, result = some (next, text) ∧ position ≤ next ∧ next ≤ format.units.length

theorem Moves.stays (inside : position ≤ format.units.length) (text : List (BitVec 8)) :
    Moves format position (some (position, text)) :=
  ⟨position, text, rfl, Nat.le_refl _, inside⟩

/-- The terminator is not a conversion. -/
theorem Moves.behind {ch : BitVec 8} (inner : ch ≠ 0 → position < format.units.length)
    (conversion : ch ≠ 0) (text : List (BitVec 8)) :
    Moves format position (some (position + 1, text)) :=
  ⟨position + 1, text, rfl, Nat.le_succ _, inner conversion⟩

theorem putvalUint64_moves (inside : position ≤ format.units.length) (value : BitVec 64) :
    Moves format position (putvalUint64 format position value) := by
  rcases CString.exists_at? inside with ⟨ch, here, inner⟩
  simp only [putvalUint64, here, Option.bind_eq_bind, Option.bind_some]
  by_cases isDecimal : ch = chr 'i' ∨ ch = chr 'u'
  · rcases exists_unsignedDigits value with ⟨str, pushed, _⟩
    rw [if_pos isDecimal, pushed]
    exact Moves.behind inner (by rcases isDecimal with rfl | rfl <;> decide) _
  rw [if_neg isDecimal]
  by_cases isHex : ch = chr 'X' ∨ ch = chr 'x' ∨ ch = chr 'p'
  · have zero : hexDigit (if ch = chr 'x' then hexAlphaLow else hexAlphaUp) 0 = chr '0' := by
      split <;> rfl
    rcases exists_hexDigits value _ zero with ⟨str, pushed, _⟩
    rw [if_pos isHex, pushed]
    exact Moves.behind inner (by rcases isHex with rfl | rfl | rfl <;> decide) _
  · rw [if_neg isHex]
    exact Moves.stays inside _

theorem putvalInt64_moves (inside : position ≤ format.units.length) (value : BitVec 64) :
    Moves format position (putvalInt64 format position value) := by
  rcases CString.exists_at? inside with ⟨ch, here, inner⟩
  simp only [putvalInt64, here, Option.bind_eq_bind, Option.bind_some]
  by_cases isDecimal : ch = chr 'i' ∨ ch = chr 'd'
  · rcases exists_signedDigits (if value.slt 0 then -value else value) with ⟨str, pushed, _⟩
    rw [if_pos isDecimal, pushed]
    exact Moves.behind inner (by rcases isDecimal with rfl | rfl <;> decide) _
  rw [if_neg isDecimal]
  by_cases isHex : ch = chr 'X' ∨ ch = chr 'x'
  · rw [if_pos isHex]
    exact putvalUint64_moves inside value
  · rw [if_neg isHex]
    exact Moves.stays inside _

theorem putvalString_moves {width : Nat} (inside : position ≤ format.units.length)
    (string : CString width) : Moves format position (putvalString format position string) := by
  rcases CString.exists_at? inside with ⟨ch, here, inner⟩
  simp only [putvalString, here, Option.bind_eq_bind, Option.bind_some]
  by_cases isString : ch = chr 's'
  · rw [if_neg (not_not.mpr isString)]
    exact Moves.behind inner (by rw [isString]; decide) _
  · rw [if_pos isString]
    exact Moves.stays inside _

/-- Every specialisation returns, and does not move behind the terminator. -/
theorem putval_moves (inside : position ≤ format.units.length) (value : Value) :
    Moves format position (putval format position value) := by
  cases value with
  | uint64 value | unsignedInt value | unsignedLong value | voidPtr value =>
      exact putvalUint64_moves inside _
  | int64 value | int value | long value | unsignedChar value => exact putvalInt64_moves inside _
  | constCharPtr string | uint16Ptr string | charPtr string | unsignedCharPtr string =>
      exact putvalString_moves inside string

/-- Without arguments, every character is printed at most once. -/
theorem printfString_returns (inside : position ≤ format.units.length) {fuel : Nat}
    (fueled : format.units.length - position < fuel) :
    ∃ emitted, printfString format fuel position = some emitted := by
  induction fuel generalizing position with
  | zero => exact absurd fueled (Nat.not_lt_zero _)
  | succ fuel inductionHypothesis =>
      rcases CString.exists_at? inside with ⟨ch, here, inner⟩
      simp only [printfString, here, Option.bind_eq_bind, Option.bind_some]
      by_cases ends : ch = 0
      · exact ⟨[], by rw [if_pos ends]⟩
      have before := inner ends
      rw [if_neg ends]
      rcases CString.exists_at? before with ⟨next, there, innerNext⟩
      rcases inductionHypothesis before (by omega) with ⟨one, stepOne⟩
      by_cases percent : ch = chr '%'
      · rw [if_pos percent, there, Option.bind_some]
        by_cases doubled : next = chr '%'
        · have further := innerNext (doubled ▸ (by decide))
          rcases inductionHypothesis further (by omega) with ⟨two, stepTwo⟩
          exact ⟨_, by rw [if_pos doubled, stepTwo]; rfl⟩
        · exact ⟨_, by rw [if_neg doubled, stepOne]; rfl⟩
      · exact ⟨_, by rw [if_neg percent, stepOne]; rfl⟩

/-- With arguments, every iteration moves the position or passes a value on. -/
theorem printfFrom_returns {values : List Value} (inside : position ≤ format.units.length)
    {fuel : Nat} (fueled : format.units.length - position + values.length < fuel) :
    ∃ printed, printfFrom format fuel position values = some printed ∧ printed.passed <+: values := by
  induction fuel generalizing position values with
  | zero => exact absurd fueled (Nat.not_lt_zero _)
  | succ fuel inductionHypothesis =>
      cases values with
      | nil =>
          rcases @printfString_returns _ _ inside (fuel + 1) (by simpa using fueled) with
            ⟨emitted, result⟩
          exact ⟨⟨emitted, []⟩, by simp only [printfFrom, result]; rfl, List.prefix_rfl⟩
      | cons value args =>
          rw [List.length_cons] at fueled
          rcases CString.exists_at? inside with ⟨ch, here, inner⟩
          simp only [printfFrom, here, Option.bind_eq_bind, Option.bind_some]
          by_cases ends : ch = 0
          · exact ⟨⟨[], []⟩, by rw [if_pos ends], List.nil_prefix⟩
          have before := inner ends
          rw [if_neg ends]
          rcases CString.exists_at? before with ⟨next, there, innerNext⟩
          by_cases percent : ch = chr '%'
          · rw [if_pos percent, there, Option.bind_some]
            by_cases doubled : next = chr '%'
            · have further := innerNext (doubled ▸ (by decide))
              rcases @inductionHypothesis _ (value :: args) further
                (by rw [List.length_cons]; omega) with ⟨two, stepTwo, passed⟩
              exact ⟨⟨next :: two.emitted, two.passed⟩, by rw [if_pos doubled, stepTwo]; rfl, passed⟩
            · rcases putval_moves before value with ⟨position', text, moved, low, high⟩
              rcases @inductionHypothesis _ args high (by omega) with
                ⟨rest, stepRest, passed⟩
              refine ⟨⟨text ++ rest.emitted, value :: rest.passed⟩, ?_,
                List.cons_prefix_cons.mpr ⟨rfl, passed⟩⟩
              rw [if_neg doubled, moved, Option.bind_some, stepRest]
              rfl
          · rcases @inductionHypothesis _ (value :: args) before
              (by rw [List.length_cons]; omega) with ⟨one, stepOne, passed⟩
            exact ⟨⟨ch :: one.emitted, one.passed⟩, by rw [if_neg percent, stepOne]; rfl, passed⟩

end Returns

/-- A format that is built from pieces prints as they expand. -/
theorem printf_of_expand {format : CString 8} {values : List Value} {pieces : List Piece}
    {text : List (BitVec 8)} (built : format.units = pieces.flatMap Piece.text)
    (expanded : expand pieces values = some text) : printf format values = some ⟨text, values⟩ := by
  have left : format.stored.drop 0 = pieces.flatMap Piece.text ++ [0] := by
    rw [List.drop_zero, CString.stored, built]
  have long := built ▸ length_le_text pieces
  exact printfFrom_expand left (built ▸ format.terminated) expanded (by omega)

/-- A format that is built from pieces prints as they expand with the values,
and every call returns, reads the format up to its terminator only and passes
the values on from the left, each once at most. -/
theorem printf_expands (format : CString 8) (values : List Value) :
    (∀ pieces text, format.units = pieces.flatMap Piece.text → expand pieces values = some text →
      printf format values = some ⟨text, values⟩) ∧
    ∃ printed, printf format values = some printed ∧ printed.passed <+: values := by
  constructor
  · intro pieces text built expanded
    exact printf_of_expand built expanded
  · exact printfFrom_returns (Nat.zero_le _) (by omega)

theorem printf_expands_percent :
    let format : CString 8 := ⟨textOf "at %d%% of %s", by decide⟩
    let values : List Value := [.int (-5), .charPtr ⟨textOf "disk", by decide⟩]
    printf format values = some ⟨textOf "at -5% of disk", values⟩ ∧
      ∃ printed, printf format values = some printed ∧ printed.passed <+: values := by
  intro format values
  have expands := printf_expands format values
  refine ⟨expands.1 ((textOf "at ").map Piece.literal ++
    [.conversion (chr 'd'), .percent] ++ (textOf " of ").map Piece.literal ++
    [.conversion (chr 's')]) _ (by decide) ?_, expands.2⟩
  rfl

end Stdio

end WeakOS
