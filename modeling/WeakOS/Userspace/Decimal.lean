import Mathlib
import WeakOS.Userspace.Printf

namespace WeakOS

open Foundation

/-!
# Signed decimal output

The kernel and the user's library each have a loop that prints a signed
number.  Both print the sign first, negate, and then push the digits of what is
left while it is greater than zero.  The least value of the type has no
negation, so its digits are never pushed and a lone zero follows the sign.
-/

namespace Decimal

/-- The value of a decimal digit. -/
def digitValue (ch : BitVec 8) : Option Nat :=
  if chr '0' ≤ ch ∧ ch ≤ chr '9' then some (ch - chr '0').toNat else none

/-- The text without its sign. -/
def unsigned (text : List (BitVec 8)) : List (BitVec 8) :=
  if text.head? = some (chr '-') then text.tail else text

/-- Read a text as an integer. -/
def readInt (text : List (BitVec 8)) : Option Int :=
  (Numeral.read digitValue 10 (unsigned text)).map fun n : Nat =>
    if text.head? = some (chr '-') then -(n : Int) else (n : Int)

/-- The canonical decimal numeral of an integer: it reads back as the integer,
has at least one digit, and begins with a zero only if it is that zero. -/
structure IsNumeral (text : List (BitVec 8)) (n : Int) : Prop where
  readsBack : readInt text = some n
  nonempty : unsigned text ≠ []
  leading : (unsigned text).head? = some (chr '0') → text = [chr '0']

theorem digitValue_decimalDigit : ∀ value < 10, digitValue (Stdio.decimalDigit value) = some value := by
  decide

theorem digit_ne_minus : ∀ value < 10, Stdio.decimalDigit value ≠ chr '-' := by decide

/-- The numeral of a natural number has no sign. -/
theorem head_decimal (n : Nat) : (Stdio.decimal n).head? ≠ some (chr '-') := by
  intro head
  have member : chr '-' ∈ Stdio.decimal n := List.mem_of_mem_head? head
  rcases Numeral.exists_of_mem_numeral (by decide) member with ⟨value, small, same⟩
  exact digit_ne_minus value small same.symm

theorem unsigned_signedDecimal (n : Int) :
    unsigned (Stdio.signedDecimal n) = Stdio.decimal n.natAbs := by
  unfold unsigned Stdio.signedDecimal
  by_cases negative : n < 0
  · rw [if_pos negative]
    rfl
  · rw [if_neg negative, List.nil_append, if_neg (head_decimal _)]

/-- What is printed for a number that can be negated is its numeral. -/
theorem signedDecimal_isNumeral (n : Int) : IsNumeral (Stdio.signedDecimal n) n := by
  have read : Numeral.read digitValue 10 (Stdio.decimal n.natAbs) = some n.natAbs :=
    Numeral.read_numeral digitValue_decimalDigit (by decide) n.natAbs
  constructor
  · rw [readInt, unsigned_signedDecimal, read, Option.map_some, Option.some.injEq]
    unfold Stdio.signedDecimal
    by_cases negative : n < 0
    · rw [if_pos negative, List.singleton_append, List.head?_cons, if_pos rfl]
      omega
    · rw [if_neg negative, List.nil_append, if_neg (head_decimal _)]
      omega
  · rw [unsigned_signedDecimal]
    exact Numeral.numeral_ne_nil n.natAbs
  · rw [unsigned_signedDecimal]
    intro leading
    have zero := Numeral.eq_zero_of_leading digitValue_decimalDigit (by decide) leading
    rw [Int.natAbs_eq_zero.mp zero]
    rfl

/-- A sign in front of a lone zero is no numeral. -/
theorem not_isNumeral_minus_zero (n : Int) : ¬ IsNumeral [chr '-', chr '0'] n := by
  intro numeral
  exact absurd (numeral.leading rfl) (by decide)

section Putval

variable {format : CString 8} {position : Nat} {conversion : BitVec 8}

/-- The kernel's output for the least value. -/
theorem putvalInt64_intMin (here : format.at? position = some conversion)
    (isDecimal : conversion = chr 'i' ∨ conversion = chr 'd') :
    Stdio.putvalInt64 format position (BitVec.intMin 64) = some (position + 1, [chr '-', chr '0']) := by
  have negated : (if (BitVec.intMin 64).slt 0 then -BitVec.intMin 64 else BitVec.intMin 64) =
      BitVec.intMin 64 := by decide
  have pushed : Stdio.signedDigits (BitVec.intMin 64) = some [] := by decide
  have sign : (BitVec.intMin 64).slt 0 = true := by decide
  simp only [Stdio.putvalInt64, here, Option.bind_eq_bind, Option.bind_some, if_pos isDecimal, negated,
    pushed, if_pos sign]
  rfl

theorem putvalInt64_isNumeral_iff (here : format.at? position = some conversion)
    (isDecimal : conversion = chr 'i' ∨ conversion = chr 'd') (value : BitVec 64) :
    (∃ text, Stdio.putvalInt64 format position value = some (position + 1, text) ∧
      IsNumeral text value.toInt) ↔ value ≠ BitVec.intMin 64 := by
  constructor
  · rintro ⟨text, printed, numeral⟩ rfl
    rw [putvalInt64_intMin here isDecimal, Option.some.injEq, Prod.mk.injEq] at printed
    rw [← printed.2] at numeral
    exact not_isNumeral_minus_zero _ numeral
  · intro negatable
    have rendered : Stdio.renderSigned conversion value.toInt =
        some (Stdio.signedDecimal value.toInt) := if_pos isDecimal
    exact ⟨_, Stdio.putvalInt64_render here negatable rendered, signedDecimal_isNumeral _⟩

end Putval

/-- A text has been put out in front of what comes later, and counted. -/
def PutsOut (text : List (BitVec 8)) (rest output : Userspace.Output) : Prop :=
  output.emitted = text ++ rest.emitted ∧
    output.written = rest.written + BitVec.ofNat 32 text.length

theorem putsOut_putchars (text : List (BitVec 8)) (rest : Userspace.Output) :
    PutsOut text rest (Userspace.Output.putchars text rest) := by
  refine ⟨Userspace.Output.emitted_putchars text rest, ?_⟩
  induction text with
  | nil => exact (BitVec.add_zero rest.written).symm
  | cons ch text inductionHypothesis =>
      have one : (Userspace.Output.putchars (ch :: text) rest).written =
          (Userspace.Output.putchars text rest).written + 1 := rfl
      rw [one, inductionHypothesis, List.length_cons, BitVec.ofNat_add, BitVec.add_assoc]
      rfl

/-- The library's output for the least value. -/
theorem putInt_intMin (rest : Userspace.Output) :
    Userspace.putInt (BitVec.intMin 32) rest =
      some (Userspace.Output.putchars [chr '-', chr '0'] rest) := by
  have negated : (if (BitVec.intMin 32).slt 0 then -BitVec.intMin 32 else BitVec.intMin 32) =
      BitVec.intMin 32 := by decide
  have pushed : Userspace.intDigits (BitVec.intMin 32) = some [] := by decide
  have sign : (BitVec.intMin 32).slt 0 = true := by decide
  simp only [Userspace.putInt, negated, pushed, Option.bind_eq_bind, Option.bind_some, if_pos sign]
  rfl

theorem putInt_isNumeral_iff (value : BitVec 32) (rest : Userspace.Output) :
    (∃ text output, Userspace.putInt value rest = some output ∧ PutsOut text rest output ∧
      IsNumeral text value.toInt) ↔ value ≠ BitVec.intMin 32 := by
  constructor
  · rintro ⟨text, output, put, putsOut, numeral⟩ rfl
    rw [putInt_intMin, Option.some.injEq] at put
    have least := putsOut_putchars [chr '-', chr '0'] rest
    rw [put] at least
    have same : text = [chr '-', chr '0'] :=
      List.append_cancel_right (putsOut.1.symm.trans least.1)
    rw [same] at numeral
    exact not_isNumeral_minus_zero _ numeral
  · intro negatable
    exact ⟨_, _, Userspace.putInt_eq negatable rest, putsOut_putchars _ rest,
      signedDecimal_isNumeral _⟩

/-- Both print the canonical numeral, and the library counts it, exactly when
the value is not the least one of its type. -/
theorem signed_output_iff {format : CString 8} {position : Nat} {conversion : BitVec 8}
    (here : format.at? position = some conversion)
    (isDecimal : conversion = chr 'd' ∨ conversion = chr 'i') (value64 : BitVec 64)
    (value32 : BitVec 32) (rest : Userspace.Output) :
    ((∃ text, Stdio.putvalInt64 format position value64 = some (position + 1, text) ∧
        IsNumeral text value64.toInt) ↔ value64 ≠ BitVec.intMin 64) ∧
      ((∃ text output, Userspace.putInt value32 rest = some output ∧ PutsOut text rest output ∧
        IsNumeral text value32.toInt) ↔ value32 ≠ BitVec.intMin 32) :=
  ⟨putvalInt64_isNumeral_iff here isDecimal.symm value64, putInt_isNumeral_iff value32 rest⟩

/-- A number in the middle of a text. -/
def percentD : CString 8 := ⟨[chr '%', chr 'd'], by decide⟩

theorem signed_output_iff_negative :
    (∃ text, Stdio.putvalInt64 percentD 1 (BitVec.ofInt 64 (-90)) = some (2, text) ∧
        IsNumeral text (BitVec.ofInt 64 (-90)).toInt) ∧
      ∃ text output, Userspace.putInt (BitVec.ofInt 32 (-90)) Userspace.Output.empty = some output ∧
        PutsOut text Userspace.Output.empty output ∧ IsNumeral text (BitVec.ofInt 32 (-90)).toInt := by
  have here : percentD.at? 1 = some (chr 'd') := by decide
  have both := signed_output_iff here (Or.inl rfl) (BitVec.ofInt 64 (-90)) (BitVec.ofInt 32 (-90))
    Userspace.Output.empty
  exact ⟨both.1.mpr (by decide), both.2.mpr (by decide)⟩

/-- Both least values are put out as a sign and a zero. -/
theorem signed_output_not_numeral :
    (¬ ∀ (format : CString 8) (position : Nat) (conversion : BitVec 8),
      format.at? position = some conversion → conversion = chr 'd' ∨ conversion = chr 'i' →
        ∀ value : BitVec 64,
          ∃ text, Stdio.putvalInt64 format position value = some (position + 1, text) ∧
            IsNumeral text value.toInt) ∧
      ¬ ∀ (value : BitVec 32) (rest : Userspace.Output),
        ∃ text output, Userspace.putInt value rest = some output ∧ PutsOut text rest output ∧
          IsNumeral text value.toInt := by
  constructor
  · intro claim
    exact (putvalInt64_isNumeral_iff (by decide) (Or.inr rfl) (BitVec.intMin 64)).mp
      (claim percentD 1 (chr 'd') (by decide) (Or.inl rfl) _) rfl
  · intro claim
    exact (putInt_isNumeral_iff (BitVec.intMin 32) Userspace.Output.empty).mp (claim _ _) rfl

end Decimal

end WeakOS
