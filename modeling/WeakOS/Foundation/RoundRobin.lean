import Mathlib

namespace Foundation

/-!
# Tasks that take turns

What a cooperative scheduler is for.  There is a number of tasks, one of which
runs.  When it gives up the processor, its context is put aside, and the next
task in the circle goes on with the context that was put aside for it last, or
starts if there is none.
-/

namespace RoundRobin

/-- The task that runs, and the contexts that were put aside. -/
structure Tasks (Context : Type*) where
  current : Nat
  suspended : Nat → Option Context

namespace Tasks

variable {Context : Type*}

/-- Task 0 runs, and no other task has run. -/
def start : Tasks Context := ⟨0, fun _ => none⟩

/-- Put the context of the running task aside, and let the next one of `count`
tasks run. -/
def switch (count : Nat) (context : Context) (tasks : Tasks Context) : Tasks Context where
  current := (tasks.current + 1) % count
  suspended := Function.update tasks.suspended tasks.current (some context)

variable {count : Nat} {context : Context} {tasks : Tasks Context}

theorem switch_current_lt (positive : 0 < count) : (tasks.switch count context).current < count :=
  Nat.mod_lt _ positive

@[simp] theorem switch_suspended_self :
    (tasks.switch count context).suspended tasks.current = some context :=
  Function.update_self _ _ _

theorem switch_suspended_of_ne {other : Nat} (ne : other ≠ tasks.current) :
    (tasks.switch count context).suspended other = tasks.suspended other :=
  Function.update_of_ne ne _ _

end Tasks

end RoundRobin

end Foundation
