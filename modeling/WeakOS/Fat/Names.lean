import Mathlib
import WeakOS.Fat.Directory

namespace WeakOS

namespace Fat

/-!
# Names

The text of a name is what comes before its first zero unit.  `namecmp` of a
component with a name compares the component with that text: it neither
accepts a prefix of the name nor one of the component.
-/

/-- The units of a buffer in order. -/
def Name.units (name : Name) : List (BitVec 16) := List.ofFn name

/-- The units before the first zero. -/
def Name.text (name : Name) : List (BitVec 16) := name.units.takeWhile (fun unit => unit ≠ 0)

/-- The units for characters. -/
def widen (chars : List (BitVec 8)) : List (BitVec 16) := chars.map (fun ch => ch.setWidth 16)

/-- A component of a path: ASCII characters without a slash, and not too many
for a name. -/
structure IsComponent (chars : List (BitVec 8)) : Prop where
  nonempty : chars ≠ []
  inPath : ∀ ch ∈ chars, ch ≠ 0 ∧ ch ≠ chr '/'
  ascii : ∀ ch ∈ chars, ch.toNat < 128
  short : chars.length < 256

section Namecmp

variable {name : Name} {i : Nat}

/-- What is left of a finite sequence begins with the element at its index. -/
theorem drop_ofFn {Element : Type} {count : Nat} (elements : Fin count → Element) (index : Fin count) :
    (List.ofFn elements).drop index =
      elements index :: (List.ofFn elements).drop (index + 1) := by
  have inside : index < (List.ofFn elements).length := by
    rw [List.length_ofFn]
    exact index.isLt
  rw [List.drop_eq_getElem_cons inside, List.getElem_ofFn]

theorem drop_units (bound : i < 256) :
    name.units.drop i = name ⟨i, bound⟩ :: name.units.drop (i + 1) :=
  drop_ofFn name ⟨i, bound⟩

/-- An ASCII character is compared with a unit as it is. -/
theorem signExtend_ne_iff {ch : BitVec 8} (ascii : ch.toNat < 128) (unit : BitVec 16) :
    ch.signExtend 32 ≠ unit.setWidth 32 ↔ unit ≠ ch.setWidth 16 := by
  have positive : ch.msb = false := BitVec.msb_eq_false_iff_two_mul_lt.mpr (by omega)
  rw [BitVec.signExtend_eq_setWidth_of_msb_false positive, not_iff_not]
  have small := unit.isLt
  have wide : (unit.setWidth 32).toNat = unit.toNat := BitVec.toNat_setWidth_of_le (by decide)
  have chWide : (ch.setWidth 32).toNat = ch.toNat := BitVec.toNat_setWidth_of_le (by decide)
  have chUnit : (ch.setWidth 16).toNat = ch.toNat := BitVec.toNat_setWidth_of_le (by decide)
  rw [← BitVec.toNat_inj, ← BitVec.toNat_inj, wide, chWide, chUnit]
  exact eq_comm

/-- The loop accepts exactly when the rest of the name's text is the rest of
the component. -/
theorem namecmpLoop_eq (chars : List (BitVec 8)) (nonzero : ∀ ch ∈ chars, ch ≠ 0)
    (ascii : ∀ ch ∈ chars, ch.toNat < 128) (bound : i + chars.length < 256) :
    namecmpLoop name i chars =
      some (decide ((name.units.drop i).takeWhile (fun unit => unit ≠ 0) = widen chars)) := by
  induction chars generalizing i with
  | nil =>
      have here : i < 256 := bound
      rw [namecmpLoop, dif_pos here, drop_units here]
      refine congrArg some (decide_eq_decide.mpr ?_)
      by_cases zero : name ⟨i, here⟩ = 0
      · rw [List.takeWhile_cons_of_neg (by simpa using zero)]
        exact iff_of_true zero rfl
      · rw [List.takeWhile_cons_of_pos (by simpa using zero)]
        exact iff_of_false zero (List.cons_ne_nil _ _)
  | cons ch rest inductionHypothesis =>
      have here : i < 256 := by omega
      have later := @inductionHypothesis (i + 1)
        (fun other member => nonzero other (List.mem_cons_of_mem _ member))
        (fun other member => ascii other (List.mem_cons_of_mem _ member))
        (by rw [List.length_cons] at bound; omega)
      have chNonzero : ch.setWidth 16 ≠ 0 := by
        intro zero
        have value := congrArg BitVec.toNat zero
        rw [BitVec.toNat_setWidth_of_le (by decide)] at value
        exact nonzero ch List.mem_cons_self (BitVec.eq_of_toNat_eq value)
      rw [namecmpLoop, dif_pos here, drop_units here, later]
      by_cases differ : name ⟨i, here⟩ ≠ ch.setWidth 16
      · rw [if_pos ((signExtend_ne_iff (ascii ch List.mem_cons_self) _).mpr differ)]
        refine congrArg some (Eq.symm (decide_eq_false fun same => ?_))
        by_cases zero : name ⟨i, here⟩ = 0
        · rw [List.takeWhile_cons_of_neg (by simpa using zero)] at same
          exact List.cons_ne_nil _ _ same.symm
        · rw [List.takeWhile_cons_of_pos (by simpa using zero)] at same
          exact differ (List.cons.inj same).1
      · have equal := not_not.mp differ
        rw [if_neg (fun other => differ ((signExtend_ne_iff (ascii ch List.mem_cons_self) _).mp other)),
          equal, List.takeWhile_cons_of_pos (by simpa using chNonzero)]
        exact congrArg some (decide_eq_decide.mpr ⟨fun same => congrArg (ch.setWidth 16 :: ·) same,
          fun same => (List.cons.inj same).2⟩)

/-- `namecmp` compares a component at the front of a path with a name's text. -/
theorem namecmp_component {chars : List (BitVec 8)} (valid : IsComponent chars)
    (rest : List (BitVec 8)) : namecmp (chars ++ rest) name chars.length =
      some (decide (name.text = widen chars)) := by
  have bound := valid.short
  rw [namecmp, List.take_left, namecmpLoop_eq chars (fun ch member => (valid.inPath ch member).1)
    valid.ascii (by omega), List.drop_zero]
  rfl

end Namecmp

/-! ## Components of a path -/

section Component

variable {chars rest : List (BitVec 8)}

theorem component_append (valid : IsComponent chars)
    (ends : rest.headD 0 = 0 ∨ rest.headD 0 = chr '/') : component (chars ++ rest) = chars ∧
      skipComponent (chars ++ rest) = rest := by
  have all : ∀ ch ∈ chars, decide (ch ≠ 0 ∧ ch ≠ chr '/') = true :=
    fun ch member => decide_eq_true (valid.inPath ch member)
  rw [component, skipComponent, List.takeWhile_append_of_pos all, List.dropWhile_append_of_pos all]
  cases rest with
  | nil => exact ⟨List.append_nil chars, rfl⟩
  | cons ch tail =>
      have stops : decide (ch ≠ 0 ∧ ch ≠ chr '/') = false := decide_eq_false fun goes =>
        ends.elim goes.1 goes.2
      simp only [List.takeWhile_cons, List.dropWhile_cons, stops]
      exact ⟨List.append_nil chars, rfl⟩

end Component

end Fat

end WeakOS
