import Mathlib

namespace Foundation

/-!
# Runs of a partial step function

A machine is a step function that takes a state and an event and either
reaches the next state or gets stuck.  A run feeds it a list of events.  The
rules here are the ones a safety argument needs: an invariant of one step is
an invariant of every run, a step that is always possible makes every run
possible, and a property that one step keeps exactly when the step is allowed
holds along a run exactly when all of the run's steps are allowed.

Two predicates describe a run from its start.  `Always` says that every state
of the run is good, and `EachStep` that every step of it is allowed in the
state in which it is taken.  Both look only at states that the run reaches.
-/

namespace Run

variable {State Event : Type*} (step : State → Event → Option State)

/-- Take the events one after the other; the run is stuck when a step is. -/
def run (state : State) (events : List Event) : Option State :=
  events.foldlM step state

/-- Every state the run passes through, the first one included, is good. -/
def Always (good : State → Prop) : State → List Event → Prop
  | state, [] => good state
  | state, event :: rest =>
      good state ∧ ∀ next, step state event = some next → Always good next rest

/-- Every step that the run takes is allowed in the state in which it is
taken.  An event on which the machine gets stuck is not a step. -/
def EachStep (allowed : State → Event → Prop) : State → List Event → Prop
  | _, [] => True
  | state, event :: rest => ∀ next, step state event = some next →
      allowed state event ∧ EachStep allowed next rest

variable {step}

theorem Always.start {good : State → Prop} {state : State} {events : List Event}
    (always : Always step good state events) : good state := by
  cases events with
  | nil => exact always
  | cons _ _ => exact always.1

theorem run_cons_eq_some {state last : State} {event : Event} {rest : List Event} :
    run step state (event :: rest) = some last ↔
      ∃ next, step state event = some next ∧ run step next rest = some last := by
  simp only [run, List.foldlM_cons, Option.bind_eq_bind, Option.bind_eq_some_iff]

/-- The state that a run ends in is one of its states. -/
theorem Always.of_run {good : State → Prop} {state last : State} {events : List Event}
    (always : Always step good state events) (reached : run step state events = some last) :
    good last := by
  induction events generalizing state with
  | nil => exact Option.some.inj reached ▸ always
  | cons event rest inductionHypothesis =>
      rcases run_cons_eq_some.mp reached with ⟨next, taken, later⟩
      exact inductionHypothesis (always.2 next taken) later

/-- An invariant that every allowed step keeps is kept by every run whose
steps are all allowed. -/
theorem run_invariant {inv : State → Prop} {allowed : State → Event → Prop}
    (keep : ∀ state event next, inv state → allowed state event →
      step state event = some next → inv next)
    {state last : State} {events : List Event} (start : inv state)
    (steps : EachStep step allowed state events) (reached : run step state events = some last) :
    inv last := by
  induction events generalizing state with
  | nil => exact Option.some.inj reached ▸ start
  | cons event rest inductionHypothesis =>
      rcases run_cons_eq_some.mp reached with ⟨next, taken, later⟩
      have permitted := steps next taken
      exact inductionHypothesis (keep state event next start permitted.1 taken) permitted.2 later

/-- A condition on the events alone is a condition on every step. -/
theorem eachStep_of_forall_mem {allowed : Event → Prop} {state : State} {events : List Event}
    (all : ∀ event ∈ events, allowed event) :
    EachStep step (fun _ event => allowed event) state events := by
  induction events generalizing state with
  | nil => trivial
  | cons event rest inductionHypothesis =>
      exact fun _next _taken => ⟨all event List.mem_cons_self,
        inductionHypothesis (fun later member => all later (List.mem_cons_of_mem event member))⟩

/-- When the machine can take every admissible event from an invariant state,
no run of admissible events is stuck. -/
theorem run_total {inv : State → Prop} {admissible : Event → Prop}
    (progress : ∀ state event, inv state → admissible event →
      ∃ next, step state event = some next ∧ inv next)
    {state : State} {events : List Event} (start : inv state)
    (all : ∀ event ∈ events, admissible event) :
    ∃ last, run step state events = some last ∧ inv last := by
  induction events generalizing state with
  | nil => exact ⟨state, rfl, start⟩
  | cons event rest inductionHypothesis =>
      rcases progress state event start (all event List.mem_cons_self) with ⟨next, taken, kept⟩
      rcases inductionHypothesis kept
        (fun later member => all later (List.mem_cons_of_mem event member)) with
        ⟨last, reached, good⟩
      exact ⟨last, run_cons_eq_some.mpr ⟨next, taken, reached⟩, good⟩

theorem EachStep.and {first second : State → Event → Prop} {state : State} {events : List Event}
    (left : EachStep step first state events) (right : EachStep step second state events) :
    EachStep step (fun state event => first state event ∧ second state event) state events := by
  induction events generalizing state with
  | nil => trivial
  | cons event rest inductionHypothesis =>
      intro next taken
      have one := left next taken
      have other := right next taken
      exact ⟨⟨one.1, other.1⟩, inductionHypothesis one.2 other.2⟩

/-- The exact rule.  When a step from a good state ends in a good state just
if the step is allowed, a run is good throughout just if each of its steps is
allowed.  The invariant may rely on the step having been allowed. -/
theorem always_iff_eachStep {inv good : State → Prop} {allowed : State → Event → Prop}
    {admissible : Event → Prop}
    (decides : ∀ state event next, inv state → admissible event → good state →
      step state event = some next → (good next ↔ allowed state event))
    (keep : ∀ state event next, inv state → admissible event → good state →
      allowed state event → step state event = some next → inv next)
    {state : State} {events : List Event} (start : inv state) (first : good state)
    (all : ∀ event ∈ events, admissible event) :
    Always step good state events ↔ EachStep step allowed state events := by
  induction events generalizing state with
  | nil => exact ⟨fun _ => trivial, fun _ => first⟩
  | cons event rest inductionHypothesis =>
      have admitted := all event List.mem_cons_self
      have later : ∀ event ∈ rest, admissible event :=
        fun event member => all event (List.mem_cons_of_mem _ member)
      constructor
      · intro always next taken
        have goodNext : good next := (always.2 next taken).start
        have permitted := (decides state event next start admitted first taken).mp goodNext
        exact ⟨permitted, (inductionHypothesis
          (keep state event next start admitted first permitted taken) goodNext later).mp
          (always.2 next taken)⟩
      · intro steps
        refine ⟨first, fun next taken => ?_⟩
        have permitted := steps next taken
        have goodNext := (decides state event next start admitted first taken).mpr permitted.1
        exact (inductionHypothesis
          (keep state event next start admitted first permitted.1 taken) goodNext later).mpr
          permitted.2

end Run

end Foundation
