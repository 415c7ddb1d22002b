import Mathlib
import WeakOS.Foundation.Loop
import WeakOS.Stdio.Format

namespace WeakOS

open Foundation

namespace Stdio
namespace Buffered

/-!
# The buffers of numbers

`putval` for `uint64_t` with its buffer: the digits are stored from the least
significant one on, `ln` counts them, and they are emitted from the last one to
the first.
-/

/-! ## The loops -/

/-- What is left of the number, the buffer, and the number of digits in it. -/
structure DigitBuffer where
  value : BitVec 64
  str : Nat → BitVec 8
  ln : Nat

namespace DigitBuffer

variable (symbol : BitVec 64 → BitVec 8) (next : BitVec 64 → BitVec 64) (buffer : DigitBuffer)

/-- The loops go on while there is something left. -/
def more : Bool := decide (buffer.value > 0)

/-- `str[ln++] = symbol`, and the next value. -/
def push : DigitBuffer where
  value := next buffer.value
  str := Function.update buffer.str buffer.ln (symbol buffer.value)
  ln := buffer.ln + 1

/-- The digits in the order in which they are emitted. -/
def written : List (BitVec 8) := (List.range' 1 buffer.ln).map fun i => buffer.str (buffer.ln - i)

/-- What is emitted. -/
def put : List (BitVec 8) := if buffer.ln = 0 then [chr '0'] else buffer.written

end DigitBuffer

/-- The position after a conversion, what has been emitted, and the digits that were in
the buffer. -/
structure PrintedNumber where
  position : Nat
  emitted : List (BitVec 8)
  ln : Nat

/-- `putval` for `uint64_t`; the buffer is not initialised.  There is no result when a
loop makes more than `fuel` tests. -/
def putvalUint64 (fuel : Nat) (str : Nat → BitVec 8) (format : CString 8) (position : Nat)
    (value : BitVec 64) : Option PrintedNumber := do
  let conversion ← format.at? position
  if conversion = chr 'i' ∨ conversion = chr 'u' then
    let buffer ← loop DigitBuffer.more
      (DigitBuffer.push (fun value => (value % 10).setWidth 8 + chr '0') (fun value => value / 10))
      fuel ⟨value, str, 0⟩
    some ⟨position + 1, buffer.put, buffer.ln⟩
  else if conversion = chr 'X' ∨ conversion = chr 'x' ∨ conversion = chr 'p' then
    let hexAlpha := if conversion = chr 'x' then hexAlphaLow else hexAlphaUp
    let buffer ← loop DigitBuffer.more
      (DigitBuffer.push (fun value => hexDigit hexAlpha (value &&& 0xf).toNat) (fun value => value >>> 4))
      fuel ⟨value, str, 0⟩
    some ⟨position + 1, buffer.put, buffer.ln⟩
  else some ⟨position, [], 0⟩

/-! ## What the loops do -/

section Loops

variable {symbol : BitVec 64 → BitVec 8} {next : BitVec 64 → BitVec 64} {buffer : DigitBuffer}

/-- The last digit is emitted first. -/
theorem written_push :
    (buffer.push symbol next).written = symbol buffer.value :: buffer.written := by
  have first : buffer.ln + 1 - 1 = buffer.ln := rfl
  rw [DigitBuffer.written, DigitBuffer.push]
  dsimp only
  rw [List.range'_succ, List.map_cons, first, Function.update_self]
  refine congrArg _ ?_
  rw [← List.map_add_range' 1, DigitBuffer.written, List.map_map]
  refine List.map_congr_left fun i member => ?_
  rw [List.mem_range'_1] at member
  have index : buffer.ln + 1 - (1 + i) = buffer.ln - i := by omega
  rw [Function.comp_apply, index, Function.update_of_ne (by omega)]

theorem put_eq_print : buffer.put = Numeral.print (chr '0') buffer.written := by
  rw [DigitBuffer.put, Numeral.print]
  by_cases empty : buffer.ln = 0
  · have none : buffer.written = [] := by rw [DigitBuffer.written, empty, List.range'_zero, List.map_nil]
    rw [if_pos empty, none]
    rfl
  · have some : buffer.written.isEmpty = false := by
      rw [DigitBuffer.written, List.isEmpty_eq_false_iff, ← List.length_pos_iff]
      simpa using Nat.pos_of_ne_zero empty
    rw [if_neg empty, some, if_neg Bool.false_ne_true]

/-- When the digits fit into a room, the buffer takes them, and no more room. -/
theorem loop_push {room fuel : Nat} {text : List (BitVec 8)} (enough : room < fuel)
    (pushed : Numeral.push (fun value : BitVec 64 => decide (value > 0)) symbol next room buffer.value
      buffer.written = some text) :
    ∃ last, loop DigitBuffer.more (DigitBuffer.push symbol next) fuel buffer = some last ∧
      last.written = text ∧ last.ln ≤ buffer.ln + room := by
  induction room generalizing fuel buffer with
  | zero =>
      cases fuel with
      | zero => exact absurd enough (Nat.lt_irrefl 0)
      | succ fuel =>
          rw [loop]
          by_cases goes : buffer.more = true
          · have impossible := (if_pos goes).symm.trans pushed
            cases impossible
          · rw [if_neg goes]
            exact ⟨buffer, rfl, Option.some.inj ((if_neg goes).symm.trans pushed), Nat.le_refl _⟩
  | succ room inductionHypothesis =>
      cases fuel with
      | zero => exact absurd enough (Nat.not_lt_zero _)
      | succ fuel =>
          rw [loop]
          by_cases goes : buffer.more = true
          · have rest := (if_pos goes).symm.trans pushed
            have left : (buffer.push symbol next).value = next buffer.value := rfl
            rw [← @written_push symbol next, ← left] at rest
            rcases inductionHypothesis (Nat.lt_of_succ_lt_succ enough) rest with ⟨last, ended, same, few⟩
            rw [if_pos goes]
            have count : (buffer.push symbol next).ln = buffer.ln + 1 := rfl
            exact ⟨last, ended, same, by omega⟩
          · rw [if_neg goes]
            exact ⟨buffer, rfl, Option.some.inj ((if_neg goes).symm.trans pushed), Nat.le_add_right _ _⟩

end Loops

/-! ## Canonical numerals -/

/-- The digits of the numbers that a conversion prints. -/
def alphabetFor (conversion : BitVec 8) : Option (List (BitVec 8)) :=
  if conversion = chr 'i' ∨ conversion = chr 'u' then some (textOf "0123456789")
  else if conversion = chr 'x' then some (textOf "0123456789abcdef")
  else if conversion = chr 'X' ∨ conversion = chr 'p' then some (textOf "0123456789ABCDEF")
  else none

/-- The size of the buffer of a conversion. -/
def bufferSize (conversion : BitVec 8) : Nat :=
  if conversion = chr 'i' ∨ conversion = chr 'u' then 20 else 16

/-- A text reads back as a number in the base that the digits make, and it begins with a
zero only if it is that zero. -/
structure Canonical (alphabet : List (BitVec 8)) (text : List (BitVec 8)) (n : Nat) : Prop where
  reads : Numeral.read (fun ch => alphabet.idxOf? ch) alphabet.length text = some n
  nonempty : text ≠ []
  leading : text.head? = some (chr '0') → text = [chr '0']

theorem canonical_numeral {digit : Nat → BitVec 8} {alphabet : List (BitVec 8)} {base : Nat}
    (length : alphabet.length = base) (many : 1 < base) (zero : digit 0 = chr '0')
    (back : ∀ value < base, alphabet.idxOf? (digit value) = some value) (n : Nat) :
    Canonical alphabet (Numeral.numeral digit base n) n := by
  refine ⟨?_, Numeral.numeral_ne_nil n, fun leading => ?_⟩
  · rw [length]
    exact Numeral.read_numeral back many n
  · rw [← zero] at leading
    have none := @Numeral.eq_zero_of_leading _ digit (fun ch => alphabet.idxOf? ch) base back many n leading
    rw [none, Numeral.numeral, if_pos rfl, zero]

/-! ## The function -/

section Function

variable {fuel position : Nat} {str : Nat → BitVec 8} {format : CString 8} {conversion : BitVec 8}
  {alphabet : List (BitVec 8)} (value : BitVec 64)

/-- The decimal digits fit into the buffer. -/
theorem loop_decimal (enough : 20 < fuel) :
    ∃ buffer, loop DigitBuffer.more
      (DigitBuffer.push (fun value => (value % 10).setWidth 8 + chr '0') (fun value => value / 10))
        fuel ⟨value, str, 0⟩ = some buffer ∧ buffer.put = decimal value.toNat ∧ buffer.ln ≤ 20 := by
  rcases exists_unsignedDigits value with ⟨text, pushed, printed⟩
  rcases @loop_push _ _ ⟨value, str, 0⟩ 20 fuel text enough pushed with ⟨buffer, ended, same, few⟩
  rw [Nat.zero_add] at few
  refine ⟨buffer, ended, ?_, few⟩
  rw [put_eq_print, same, printed]

/-- The hexadecimal digits fit into the buffer. -/
theorem loop_hexadecimal {hexAlpha : List (BitVec 8)} (zero : hexDigit hexAlpha 0 = chr '0')
    (enough : 16 < fuel) :
    ∃ buffer, loop DigitBuffer.more
      (DigitBuffer.push (fun value => hexDigit hexAlpha (value &&& 0xf).toNat) (fun value => value >>> 4))
        fuel ⟨value, str, 0⟩ = some buffer ∧ buffer.put = hexadecimal hexAlpha value.toNat ∧
      buffer.ln ≤ 16 := by
  rcases exists_hexDigits value hexAlpha zero with ⟨text, pushed, printed⟩
  rcases @loop_push _ _ ⟨value, str, 0⟩ 16 fuel text enough pushed with ⟨buffer, ended, same, few⟩
  rw [Nat.zero_add] at few
  refine ⟨buffer, ended, ?_, few⟩
  rw [put_eq_print, same, printed]

theorem decimal_canonical (n : Nat) : Canonical (textOf "0123456789") (decimal n) n :=
  canonical_numeral rfl (by decide) rfl (by decide) n

theorem hexadecimal_canonical (either : alphabet = hexAlphaLow ∨ alphabet = hexAlphaUp) (n : Nat) :
    Canonical alphabet (hexadecimal alphabet n) n := by
  rcases either with rfl | rfl
  · exact canonical_numeral rfl (by decide) rfl (by decide) n
  · exact canonical_numeral rfl (by decide) rfl (by decide) n

/-- The conversions that are not decimal, and their digits. -/
theorem alphabetFor_hex (known : alphabetFor conversion = some alphabet)
    (notDecimal : ¬ (conversion = chr 'i' ∨ conversion = chr 'u')) :
    (conversion = chr 'X' ∨ conversion = chr 'x' ∨ conversion = chr 'p') ∧
      (if conversion = chr 'x' then hexAlphaLow else hexAlphaUp) = alphabet ∧
      ∀ n, renderUnsigned conversion n = some (hexadecimal alphabet n) := by
  simp only [renderUnsigned, if_neg notDecimal]
  rw [alphabetFor, if_neg notDecimal] at known
  split_ifs at known with isLow isUp
  · simp only [if_pos isLow, ← Option.some.inj known]
    exact ⟨Or.inr (Or.inl isLow), rfl, fun _ => rfl⟩
  · simp only [if_neg isLow, if_pos isUp, ← Option.some.inj known]
    exact ⟨isUp.imp_right Or.inr, rfl, fun _ => rfl⟩

/-- Every conversion for numbers emits the canonical numeral of the value in its base, and
the digits do not leave the buffer. -/
theorem putvalUint64_canonical (here : format.at? position = some conversion)
    (known : alphabetFor conversion = some alphabet) (enough : 20 < fuel) :
    ∃ printed, putvalUint64 fuel str format position value = some printed ∧
      printed.position = position + 1 ∧
      renderUnsigned conversion value.toNat = some printed.emitted ∧
      Canonical alphabet printed.emitted value.toNat ∧ printed.ln ≤ bufferSize conversion := by
  rw [putvalUint64, here, Option.bind_eq_bind, Option.bind_some, bufferSize]
  by_cases isDecimal : conversion = chr 'i' ∨ conversion = chr 'u'
  · rw [alphabetFor, if_pos isDecimal, Option.some.injEq] at known
    rcases @loop_decimal fuel str value enough with ⟨buffer, ended, put, few⟩
    rw [if_pos isDecimal, if_pos isDecimal, ended, ← known, renderUnsigned, if_pos isDecimal]
    refine ⟨_, rfl, rfl, congrArg some put.symm, ?_, few⟩
    rw [put]
    exact decimal_canonical value.toNat
  · rcases alphabetFor_hex known isDecimal with ⟨isHex, chosen, rendered⟩
    have either : alphabet = hexAlphaLow ∨ alphabet = hexAlphaUp := by
      rw [← chosen]
      exact ite_eq_or_eq _ _ _
    have zero : hexDigit alphabet 0 = chr '0' := by
      rcases either with rfl | rfl <;> rfl
    rcases @loop_hexadecimal fuel str value alphabet zero (by omega) with ⟨buffer, ended, put, few⟩
    rw [if_neg isDecimal, if_neg isDecimal, if_pos isHex, chosen]
    dsimp only
    rw [ended, rendered]
    refine ⟨_, rfl, rfl, congrArg some put.symm, ?_, few⟩
    rw [put]
    exact hexadecimal_canonical either value.toNat

/-- The largest value fills the buffer of the decimal digits. -/
theorem putvalUint64_canonical_top :
    ∃ printed, putvalUint64 21 (fun _ => 0) ⟨[chr 'u'], by decide⟩ 0 0xffffffffffffffff = some printed ∧
      printed.position = 1 ∧
      renderUnsigned (chr 'u') (0xffffffffffffffff : BitVec 64).toNat = some printed.emitted ∧
      Canonical (textOf "0123456789") printed.emitted (0xffffffffffffffff : BitVec 64).toNat ∧
      printed.ln ≤ bufferSize (chr 'u') :=
  putvalUint64_canonical 0xffffffffffffffff rfl rfl (by decide)

example : (putvalUint64 21 (fun _ => 0) ⟨[chr 'u'], by decide⟩ 0 0xffffffffffffffff).map
    (fun printed => (printed.emitted, printed.ln)) = some (textOf "18446744073709551615", 20) := by
  decide +kernel

/-- Without the buffer, this is the conversion of `printf`. -/
theorem putvalUint64_erase (enough : 20 < fuel) :
    (putvalUint64 fuel str format position value).map (fun printed => (printed.position, printed.emitted)) =
      Stdio.putvalUint64 format position value := by
  rw [putvalUint64, Stdio.putvalUint64]
  cases format.at? position with
  | none => rfl
  | some conversion =>
      simp only [Option.bind_eq_bind, Option.bind_some]
      by_cases isDecimal : conversion = chr 'i' ∨ conversion = chr 'u'
      · rcases exists_unsignedDigits value with ⟨text, pushed, printed⟩
        rcases @loop_decimal fuel str value enough with ⟨buffer, ended, put, -⟩
        rw [if_pos isDecimal, if_pos isDecimal, ended, pushed]
        simp only [Option.bind_some, Option.map_some, put, printed]
      · rw [if_neg isDecimal, if_neg isDecimal]
        by_cases isHex : conversion = chr 'X' ∨ conversion = chr 'x' ∨ conversion = chr 'p'
        · have zero : hexDigit (if conversion = chr 'x' then hexAlphaLow else hexAlphaUp) 0 = chr '0' := by
            split <;> rfl
          rcases exists_hexDigits value _ zero with ⟨text, pushed, printed⟩
          rcases @loop_hexadecimal fuel str value _ zero (by omega) with ⟨buffer, ended, put, -⟩
          rw [if_pos isHex, if_pos isHex, ended, pushed]
          simp only [Option.bind_some, Option.map_some, put, printed]
        · rw [if_neg isHex, if_neg isHex]
          rfl

end Function

end Buffered
end Stdio

end WeakOS
