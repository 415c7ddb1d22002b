import Mathlib

namespace Foundation

namespace Cache

/-!
# Caches of a fixed source

A cache has lines.  A line is empty, or holds a value under a key.  An access
finds its key in a line, or loads the value from the source into some line.
Whatever line is chosen, an access returns what the source has, as long as the
lines do; which line is chosen is a matter of policy.
-/

structure Line (Key Value : Type*) where
  key : Option Key
  value : Value

variable {Slot Key Value Priority : Type*}

/-- Every key is in one line at most, and under it is what the source has. -/
structure Consistent (source : Key → Value) (lines : Slot → Line Key Value) : Prop where
  distinct : ∀ left right key, (lines left).key = some key → (lines right).key = some key → left = right
  faithful : ∀ slot key, (lines slot).key = some key → (lines slot).value = source key

/-- The line to load into: an empty one while there is one, otherwise one of
least priority. -/
structure Victim [LE Priority] (lines : Slot → Line Key Value) (priority : Slot → Priority)
    (slot : Slot) : Prop where
  full : (lines slot).key ≠ none → ∀ other, (lines other).key ≠ none
  least : (lines slot).key ≠ none → ∀ other, priority slot ≤ priority other

/-- An access to a key, with the lines before and after it and the value it
returns. -/
inductive Access [DecidableEq Slot] (source : Key → Value) (victim : Slot → Prop)
    (lines : Slot → Line Key Value) (key : Key) : (Slot → Line Key Value) → Value → Prop where
  | hit (slot : Slot) (found : (lines slot).key = some key) :
      Access source victim lines key lines (lines slot).value
  | miss (slot : Slot) (absent : ∀ other, (lines other).key ≠ some key) (chosen : victim slot) :
      Access source victim lines key (Function.update lines slot ⟨some key, source key⟩) (source key)

section Access

variable {source : Key → Value} {lines : Slot → Line Key Value} {key : Key} {slot : Slot}

theorem Consistent.of_empty (empty : ∀ slot, (lines slot).key = none) : Consistent source lines := by
  refine ⟨fun left _ key found _ => ?_, fun slot key found => ?_⟩
  · rw [empty left] at found
    cases found
  · rw [empty slot] at found
    cases found

variable [DecidableEq Slot]

/-- Loading a key that is in no line. -/
theorem Consistent.load (consistent : Consistent source lines)
    (absent : ∀ other, (lines other).key ≠ some key) :
    Consistent source (Function.update lines slot ⟨some key, source key⟩) := by
  have loaded : ∀ {other item}, other ≠ slot →
      (Function.update lines slot ⟨some key, source key⟩ other).key = some item →
      (lines other).key = some item := by
    intro other item different found
    rwa [Function.update_of_ne different] at found
  have itself : ∀ {item}, (Function.update lines slot ⟨some key, source key⟩ slot).key = some item →
      item = key := by
    intro item found
    rw [Function.update_self] at found
    exact (Option.some.inj found).symm
  constructor
  · intro left right item onLeft onRight
    by_cases leftHere : left = slot <;> by_cases rightHere : right = slot
    · rw [leftHere, rightHere]
    · subst leftHere
      exact absurd (itself onLeft ▸ loaded rightHere onRight) (absent right)
    · subst rightHere
      exact absurd (itself onRight ▸ loaded leftHere onLeft) (absent left)
    · exact consistent.distinct left right item (loaded leftHere onLeft) (loaded rightHere onRight)
  · intro other item found
    by_cases here : other = slot
    · subst here
      rw [Function.update_self, itself found]
    · rw [Function.update_of_ne here]
      exact consistent.faithful other item (loaded here found)

variable {victim : Slot → Prop} {after : Slot → Line Key Value} {value : Value}

/-- An access is transparent. -/
theorem Access.value_eq (access : Access source victim lines key after value)
    (consistent : Consistent source lines) : value = source key := by
  cases access with
  | hit slot found => exact consistent.faithful slot key found
  | miss slot absent chosen => rfl

theorem Access.consistent (access : Access source victim lines key after value)
    (consistent : Consistent source lines) : Consistent source after := by
  cases access with
  | hit slot found => exact consistent
  | miss slot absent chosen => exact consistent.load absent

/-- A line that loses its key was chosen. -/
theorem Access.evicted (access : Access source victim lines key after value)
    (lost : (after slot).key ≠ (lines slot).key) : victim slot := by
  cases access with
  | hit other found => exact absurd rfl lost
  | miss other absent chosen =>
      by_cases here : slot = other
      · exact here ▸ chosen
      · rw [Function.update_of_ne here] at lost
        exact absurd rfl lost

end Access

end Cache

end Foundation
