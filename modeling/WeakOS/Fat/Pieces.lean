import Mathlib
import WeakOS.Fat.Listing

namespace WeakOS

namespace Fat

/-!
# Long names in the name buffer

A long-name record carries thirteen units, which are copied to the place of the
piece in the name buffer.  The buffer has room for nineteen pieces: the last
units of a twentieth are written behind it.
-/

/-- The units of a long-name record. -/
def DirEntry.units (entry : DirEntry) : List (BitVec 16) :=
  entry.nameP1 ++ entry.nameP2 ++ entry.nameP3

section Overwrite

variable (name : Name)

/-- Two writes one behind the other are one write. -/
theorem overwrite_overwrite (start : Int) (first rest : List (BitVec 16)) :
    overwrite (overwrite name start first) (start + first.length) rest =
      overwrite name start (first ++ rest) := by
  funext i
  unfold overwrite
  rw [List.length_append]
  by_cases inRest : start + first.length ≤ i ∧ i < start + first.length + rest.length
  · rw [if_pos inRest, if_pos (by omega), List.getD_append_right _ _ _ _ (by omega)]
    exact congrArg (rest.getD · 0) (by omega)
  · rw [if_neg inRest]
    by_cases inFirst : start ≤ i ∧ i < start + first.length
    · rw [if_pos inFirst, if_pos (by omega), List.getD_append _ _ _ _ (by omega)]
    · rw [if_neg inFirst, if_neg (by omega)]

/-- A record is copied as a whole, if it fits. -/
theorem copyPiece_eq (entry : DirEntry) : copyPiece name entry =
    if 0 ≤ pieceOfs entry ∧ pieceOfs entry ≤ 18 then
      some (overwrite name (pieceOfs entry * 13) entry.units) else none := by
  have lengths : entry.nameP1.length = 5 ∧ entry.nameP2.length = 6 ∧ entry.nameP3.length = 2 :=
    ⟨rfl, rfl, rfl⟩
  unfold copyPiece copyUnits
  simp only [lengths, Option.bind_eq_bind]
  by_cases inside : 0 ≤ pieceOfs entry ∧ pieceOfs entry ≤ 18
  · rw [if_pos inside, if_pos (by omega), Option.bind_some, if_pos (by omega), Option.bind_some,
      if_pos (by omega)]
    have second := overwrite_overwrite name (pieceOfs entry * 13) entry.nameP1 entry.nameP2
    have third := overwrite_overwrite name (pieceOfs entry * 13)
      (entry.nameP1 ++ entry.nameP2) entry.nameP3
    rw [List.length_append, lengths.1, lengths.2.1] at third
    rw [lengths.1] at second
    refine congrArg some ?_
    exact (congrArg (overwrite · _ entry.nameP3) second).trans third
  · rw [if_neg inside]
    by_cases begins : 0 ≤ pieceOfs entry * 13 ∧ pieceOfs entry * 13 + 5 ≤ 256
    · rw [if_pos (by omega), Option.bind_some, if_neg (by omega), Option.bind_none]
    · rw [if_neg (by omega), Option.bind_none]

end Overwrite

end Fat

end WeakOS
