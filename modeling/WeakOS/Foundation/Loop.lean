import Mathlib

namespace Foundation

/-!
# Loops

A loop goes on with its body as long as its test is true.  The rule for total
correctness asks for an invariant and for a number that decreases with every
iteration.
-/

section Loop

variable {State : Type*} (goes : State → Bool) (body : State → State)

/-- A loop of at most `fuel` tests; there is no result when it needs more. -/
def loop : (fuel : Nat) → State → Option State
  | 0, _ => none
  | fuel + 1, state => if goes state then loop fuel (body state) else some state

variable {goes body}

/-- The loop ends with its invariant true and its test false. -/
theorem loop_total (inv : State → Prop) (left : State → Nat)
    (step : ∀ state, inv state → goes state = true → inv (body state) ∧ left (body state) < left state)
    {fuel : Nat} {state : State} (start : inv state) (enough : left state < fuel) :
    ∃ last, loop goes body fuel state = some last ∧ inv last ∧ goes last = false := by
  induction fuel generalizing state with
  | zero => exact absurd enough (Nat.not_lt_zero _)
  | succ fuel inductionHypothesis =>
      rw [loop]
      by_cases again : goes state = true
      · have next := step state start again
        rw [if_pos again]
        exact inductionHypothesis next.1 (by omega)
      · rw [if_neg again]
        exact ⟨state, rfl, start, Bool.eq_false_iff.mpr again⟩

end Loop

end Foundation
