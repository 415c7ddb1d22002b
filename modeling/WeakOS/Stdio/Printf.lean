import Mathlib
import WeakOS.Foundation.Numeral
import WeakOS.Libc.CString
import WeakOS.Stdio.Model

namespace WeakOS

open Foundation

namespace Stdio

/-!
# Formatted output

The overloads of `printf` and the specialisations of `putval`.  A format is
read through a position, and what is emitted is the list of the characters
handed to `putchar`, in order.  There is no result when the format is read
behind its terminator, or when digits are written behind their buffer.
-/

/-- The types that `putval` is specialised for.  `long` has 32 bits, like `int`
and pointers. -/
inductive Value where
  | uint64 (value : BitVec 64)
  | unsignedInt (value : BitVec 32)
  | int64 (value : BitVec 64)
  | int (value : BitVec 32)
  | long (value : BitVec 32)
  | unsignedLong (value : BitVec 32)
  | voidPtr (value : BitVec 32)
  | constCharPtr (string : CString 8)
  | uint16Ptr (string : CString 16)
  | charPtr (string : CString 8)
  | unsignedCharPtr (string : CString 8)
  | unsignedChar (value : BitVec 8)

/-! ## Digits -/

/-- The decimal digit of a number below ten. -/
def decimalDigit (n : Nat) : BitVec 8 := BitVec.ofNat 8 n + chr '0'

def hexAlphaLow : List (BitVec 8) := "0123456789abcdef".toList.map chr

def hexAlphaUp : List (BitVec 8) := "0123456789ABCDEF".toList.map chr

def hexDigit (hexAlpha : List (BitVec 8)) (n : Nat) : BitVec 8 := hexAlpha.getD n 0

/-- The loop for decimal digits of a `uint64_t`, into `char str[20]`. -/
def unsignedDigits (value : BitVec 64) : Option (List (BitVec 8)) :=
  Numeral.push (fun value : BitVec 64 => decide (value > 0))
    (fun value => (value % 10).setWidth 8 + chr '0') (fun value => value / 10) 20 value []

/-- The loop for decimal digits of an `int64_t`, into `char str[20]`. -/
def signedDigits (value : BitVec 64) : Option (List (BitVec 8)) :=
  Numeral.push (fun value : BitVec 64 => BitVec.slt 0 value)
    (fun value => (value.srem 10).setWidth 8 + chr '0') (fun value => value.sdiv 10) 20 value []

/-- The loop for hexadecimal digits, into `char str[16]`. -/
def hexDigits (hexAlpha : List (BitVec 8)) (value : BitVec 64) : Option (List (BitVec 8)) :=
  Numeral.push (fun value : BitVec 64 => decide (value > 0))
    (fun value => hexDigit hexAlpha (value &&& 0xf).toNat) (fun value => value >>> 4) 16 value []

/-! ## The specialisations of `putval`

Each returns the position after the conversion and the emitted characters.
-/

section Putval

variable (format : CString 8) (position : Nat)

def putvalUint64 (value : BitVec 64) : Option (Nat × List (BitVec 8)) := do
  let conversion ← format.at? position
  if conversion = chr 'i' ∨ conversion = chr 'u' then
    let str ← unsignedDigits value
    some (position + 1, Numeral.print (chr '0') str)
  else if conversion = chr 'X' ∨ conversion = chr 'x' ∨ conversion = chr 'p' then
    let hexAlpha := if conversion = chr 'x' then hexAlphaLow else hexAlphaUp
    let str ← hexDigits hexAlpha value
    some (position + 1, Numeral.print (chr '0') str)
  else some (position, [])

def putvalInt64 (value : BitVec 64) : Option (Nat × List (BitVec 8)) := do
  let conversion ← format.at? position
  if conversion = chr 'i' ∨ conversion = chr 'd' then
    let negative := value.slt 0
    let str ← signedDigits (if negative then -value else value)
    let sign := if negative then [chr '-'] else []
    some (position + 1, sign ++ Numeral.print (chr '0') str)
  else if conversion = chr 'X' ∨ conversion = chr 'x' then putvalUint64 format position value
  else some (position, [])

/-- The specialisation for a pointer to characters; each unit of the string is
handed to `putchar` as a `char`. -/
def putvalString {width : Nat} (string : CString width) : Option (Nat × List (BitVec 8)) := do
  let conversion ← format.at? position
  if conversion ≠ chr 's' then some (position, [])
  else some (position + 1, string.units.map (fun unit => unit.setWidth 8))

def putval : Value → Option (Nat × List (BitVec 8))
  | .uint64 value => putvalUint64 format position value
  | .unsignedInt value => putvalUint64 format position (value.setWidth 64)
  | .int64 value => putvalInt64 format position value
  | .int value => putvalInt64 format position (value.signExtend 64)
  | .long value => putvalInt64 format position (value.signExtend 64)
  | .unsignedLong value => putvalUint64 format position (value.setWidth 64)
  | .voidPtr value => putvalUint64 format position (value.setWidth 64)
  | .constCharPtr string => putvalString format position string
  | .uint16Ptr string => putvalString format position string
  | .charPtr string => putvalString format position string
  | .unsignedCharPtr string => putvalString format position string
  | .unsignedChar value => putvalInt64 format position (value.setWidth 64)

end Putval

/-! ## The overloads of `printf` -/

/-- What a call emits, and the values it has passed to `putval`, in order. -/
structure Printed where
  emitted : List (BitVec 8)
  passed : List Value

/-- `printf` without arguments; there is no result when the loop needs more
than `fuel` iterations. -/
def printfString (format : CString 8) : (fuel position : Nat) → Option (List (BitVec 8))
  | 0, _ => none
  | fuel + 1, position => do
      let ch ← format.at? position
      if ch = 0 then some []
      else if ch = chr '%' then
        let next ← format.at? (position + 1)
        if next = chr '%' then
          let rest ← printfString format fuel (position + 2)
          some (next :: rest)
        else
          let rest ← printfString format fuel (position + 1)
          some (ch :: rest)
      else
        let rest ← printfString format fuel (position + 1)
        some (ch :: rest)

/-- `printf` with arguments, and its recursion on them. -/
def printfFrom (format : CString 8) : (fuel position : Nat) → List Value → Option Printed
  | fuel, position, [] => do
      let emitted ← printfString format fuel position
      some ⟨emitted, []⟩
  | 0, _, _ :: _ => none
  | fuel + 1, position, value :: args => do
      let ch ← format.at? position
      if ch = 0 then some ⟨[], []⟩
      else if ch = chr '%' then
        let next ← format.at? (position + 1)
        if next = chr '%' then
          let rest ← printfFrom format fuel (position + 2) (value :: args)
          some ⟨next :: rest.emitted, rest.passed⟩
        else
          let (position, text) ← putval format (position + 1) value
          let rest ← printfFrom format fuel position args
          some ⟨text ++ rest.emitted, value :: rest.passed⟩
      else
        let rest ← printfFrom format fuel (position + 1) (value :: args)
        some ⟨ch :: rest.emitted, rest.passed⟩

/-- A call of `printf`.  Every iteration but the last consumes a character of
the format or a value. -/
def printf (format : CString 8) (args : List Value) : Option Printed :=
  printfFrom format (format.units.length + args.length + 1) 0 args

end Stdio

end WeakOS
