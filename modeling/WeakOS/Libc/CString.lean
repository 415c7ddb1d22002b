import Mathlib

namespace WeakOS

/-!
# NUL-terminated strings

A string is the list of its units before the terminator.  Reading the unit
after the last one gives the terminator, and reading behind it has no result.
-/

/-- The code of a character. -/
def chr (char : Char) : BitVec 8 := BitVec.ofNat 8 char.toNat

/-- The codes of a text. -/
def textOf (text : String) : List (BitVec 8) := text.toList.map chr

structure CString (width : Nat) where
  units : List (BitVec width)
  terminated : 0 ∉ units

namespace CString

variable {width : Nat}

/-- The units in memory, the terminator included. -/
def stored (string : CString width) : List (BitVec width) := string.units ++ [0]

/-- Read the unit at a position. -/
def at? (string : CString width) (position : Nat) : Option (BitVec width) :=
  string.stored[position]?

section Read

variable {string : CString width} {position : Nat} {unit : BitVec width} {rest : List (BitVec width)}

theorem length_stored : string.stored.length = string.units.length + 1 := by
  rw [stored, List.length_append, List.length_singleton]

/-- A position up to the terminator can be read, and the terminator is only
read at the last one. -/
theorem exists_at? (inside : position ≤ string.units.length) :
    ∃ unit, string.at? position = some unit ∧ (unit ≠ 0 → position < string.units.length) := by
  have bound : position < string.stored.length := by
    rw [length_stored]
    omega
  refine ⟨string.stored[position], List.getElem?_eq_getElem bound, fun nonzero => ?_⟩
  rcases Nat.lt_or_eq_of_le inside with earlier | rfl
  · exact earlier
  · exact absurd (List.getElem_concat_length rfl bound) nonzero

/-- What is left of a string at a position determines what is read there. -/
theorem at?_of_drop (left : string.stored.drop position = unit :: rest) :
    string.at? position = some unit := by
  rw [at?, ← List.head?_drop, left, List.head?_cons]

theorem drop_succ_of_drop (left : string.stored.drop position = unit :: rest) :
    string.stored.drop (position + 1) = rest := by
  rw [← List.drop_drop, left, List.drop_one, List.tail_cons]

end Read

end CString

end WeakOS
