import Mathlib

namespace Foundation

/-!
# Visiting a list until a visitor stops

A visitor is handed the items of a list one after the other, with a state that
it may change, until it asks to stop.  What happens behind the last item is a
parameter: the list may end there, or the visit may fail.
-/

namespace Visit

variable {Item State : Type*}

/-- Hand the items to `func` until it stops, and `finish` behind the last one. -/
def visit (func : Item → State → Option (Bool × State)) (finish : State → Option State) :
    List Item → State → Option State
  | [], state => finish state
  | item :: rest, state =>
      (func item state).bind fun result =>
        if result.1 then some result.2 else visit func finish rest result.2

variable {func : Item → State → Option (Bool × State)} {finish : State → Option State}

/-- A visitor that does not stop folds over the items. -/
theorem visit_of_never (step : State → Item → State) {items : List Item}
    (never : ∀ item ∈ items, ∀ state, func item state = some (false, step state item))
    (state : State) : visit func finish items state = finish (items.foldl step state) := by
  induction items generalizing state with
  | nil => rfl
  | cons item rest inductionHypothesis =>
      have later : ∀ other ∈ rest, ∀ state, func other state = some (false, step state other) :=
        fun other member => never other (List.mem_cons_of_mem item member)
      rw [visit, never item List.mem_cons_self, Option.bind_some, if_neg Bool.false_ne_true,
        inductionHypothesis later, List.foldl_cons]

/-- The first item that a test accepts; the test may fail. -/
def search (test : Item → Option Bool) : List Item → Option (Option Item)
  | [] => some none
  | item :: rest =>
      (test item).bind fun accepted => if accepted then some (some item) else search test rest

/-- When the test does not fail, the search is `List.find?`. -/
theorem search_of_total {test : Item → Option Bool} {accepts : Item → Bool} {items : List Item}
    (total : ∀ item ∈ items, test item = some (accepts item)) :
    search test items = some (items.find? accepts) := by
  induction items with
  | nil => rfl
  | cons item rest inductionHypothesis =>
      rw [search, total item List.mem_cons_self, Option.bind_some, List.find?_cons,
        inductionHypothesis (fun other member => total other (List.mem_cons_of_mem item member))]
      cases accepts item <;> rfl

/-- A visitor that stops at the items which a test accepts, and leaves the
state alone at the others, finds the first of them. -/
theorem visit_of_search {test : Item → Option Bool} (take : Item → State → State) {state : State}
    (selects : ∀ item, func item state =
      (test item).map fun accepted => (accepted, if accepted then take item state else state))
    (items : List Item) : visit func finish items state =
      (search test items).bind fun found =>
        match found with
        | some item => some (take item state)
        | none => finish state := by
  induction items with
  | nil => rfl
  | cons item rest inductionHypothesis =>
      rw [visit, search, selects]
      cases test item with
      | none => rfl
      | some accepted =>
          cases accepted with
          | true => rfl
          | false =>
              simp only [Option.map_some, Option.bind_some, Bool.false_eq_true, if_false]
              exact inductionHypothesis

end Visit

end Foundation
