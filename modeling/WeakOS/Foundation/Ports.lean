import Mathlib
import WeakOS.Foundation.Run

namespace Foundation

/-!
# Programs that access ports

A driver reads and writes the ports of devices that act on their own between any
two accesses.  What the program does can often be predicted: from a view of the
devices that their own actions leave alone, as long as the program reads nothing
else.  Then the program runs on the view, and each interleaving with the devices
ends as that run does.
-/

/-- A program that reads and writes ports before it answers. -/
inductive PortProgram (Port Value Answer : Type) where
  | answer (result : Answer)
  | write (port : Port) (value : Value) (next : PortProgram Port Value Answer)
  | read (port : Port) (next : Value → PortProgram Port Value Answer)

namespace PortProgram

variable {Port Value Answer Result : Type}

def bind : PortProgram Port Value Answer → (Answer → PortProgram Port Value Result) →
    PortProgram Port Value Result
  | .answer result, later => later result
  | .write port value next, later => .write port value (next.bind later)
  | .read port next, later => .read port fun value => (next value).bind later

instance : Monad (PortProgram Port Value) where
  pure := .answer
  bind := bind

end PortProgram

/-- How devices answer to accesses.  A read can change them. -/
structure Ports (Port Value Device : Type) where
  write : Port → Value → Device → Device
  read : Port → Device → Value × Device

/-- What is known of the devices.  A read gives nothing when its value is not known. -/
structure Views (Port Value View : Type) where
  write : Port → Value → View → View
  read : Port → View → Option (Value × View)

namespace PortProgram

variable {Port Value Answer Result Device View Act : Type}

/-- The next access, if the program has not answered. -/
def access (ports : Ports Port Value Device) :
    PortProgram Port Value Answer × Device → PortProgram Port Value Answer × Device
  | (.answer result, device) => (.answer result, device)
  | (.write port value next, device) => (next, ports.write port value device)
  | (.read port next, device) => (next (ports.read port device).1, (ports.read port device).2)

/-- An access, or an action of the devices. -/
def step (ports : Ports Port Value Device) (act : Act → Device → Device) :
    PortProgram Port Value Answer × Device → Option Act →
      Option (PortProgram Port Value Answer × Device)
  | state, none => some (access ports state)
  | (program, device), some action => some (program, act action device)

/-- The program on what is known of the devices: its answer, and what is known then. -/
def predict (views : Views Port Value View) :
    PortProgram Port Value Answer → View → Option (Answer × View)
  | .answer result, view => some (result, view)
  | .write port value next, view => next.predict views (views.write port value view)
  | .read port next, view =>
      (views.read port view).bind fun found => (next found.1).predict views found.2

/-- The number of accesses in that run. -/
def accesses (views : Views Port Value View) : PortProgram Port Value Answer → View → Nat
  | .answer _, _ => 0
  | .write port value next, view => next.accesses views (views.write port value view) + 1
  | .read port next, view => ((views.read port view).elim 0 fun found =>
      (next found.1).accesses views found.2) + 1

/-- What is known of the devices tells what an access does to it. -/
structure Tells (view : Device → View) (ports : Ports Port Value Device)
    (views : Views Port Value View) : Prop where
  write : ∀ port value device,
    view (ports.write port value device) = views.write port value (view device)
  read : ∀ port device found, views.read port (view device) = some found →
    ((ports.read port device).1, view (ports.read port device).2) = found

section Runs

variable {views : Views Port Value View} {ports : Ports Port Value Device} {view : Device → View}
  {program program' : PortProgram Port Value Answer} {device device' : Device} {outcome : Answer × View}

theorem predict_bind (views : Views Port Value View) (program : PortProgram Port Value Answer)
    (later : Answer → PortProgram Port Value Result) (start : View) :
    (program.bind later).predict views start =
      (program.predict views start).bind fun found => (later found.1).predict views found.2 := by
  induction program generalizing start with
  | answer result => rfl
  | write port value next inductionHypothesis => exact inductionHypothesis _
  | read port next inductionHypothesis =>
      rw [bind, predict, predict, Option.bind_assoc]
      exact congrArg _ (funext fun found => inductionHypothesis found.1 found.2)

/-- After an access the rest of the program does what was predicted. -/
theorem predict_access (tells : Tells view ports views)
    (predicted : program.predict views (view device) = some outcome)
    (accessed : access ports (program, device) = (program', device')) :
    program'.predict views (view device') = some outcome ∧
      program'.accesses views (view device') = program.accesses views (view device) - 1 := by
  cases program with
  | answer result =>
      cases accessed
      exact ⟨predicted, rfl⟩
  | write port value next =>
      cases accessed
      rw [tells.write port value device]
      exact ⟨predicted, rfl⟩
  | read port next =>
      cases accessed
      rcases Option.bind_eq_some_iff.mp predicted with ⟨found, reads, later⟩
      have same := tells.read port device found reads
      rw [accesses, reads, ← same]
      rw [← same] at later
      exact ⟨later, rfl⟩

/-- However the devices act meanwhile, the program is on its way to the answer that was predicted,
and it gets there after the accesses that were predicted. -/
theorem predict_interleaved {act : Act → Device → Device} (tells : Tells view ports views)
    (keeps : ∀ action device, view (act action device) = view device)
    (predicted : program.predict views (view device) = some outcome) {events : List (Option Act)}
    (reached : Run.run (step ports act) (program, device) events = some (program', device')) :
    program'.predict views (view device') = some outcome ∧
      program'.accesses views (view device') =
        program.accesses views (view device) - events.countP Option.isNone := by
  induction events generalizing program device with
  | nil =>
      cases reached
      exact ⟨predicted, rfl⟩
  | cons event rest inductionHypothesis =>
      rcases Run.run_cons_eq_some.mp reached with ⟨⟨program₁, device₁⟩, taken, later⟩
      cases event with
      | none =>
          have accessed := predict_access tells predicted (Option.some.inj taken)
          rcases inductionHypothesis accessed.1 later with ⟨final, fewer⟩
          rw [fewer, accessed.2, List.countP_cons_of_pos rfl]
          exact ⟨final, by omega⟩
      | some action =>
          have after : (program, act action device) = (program₁, device₁) := Option.some.inj taken
          rcases Prod.mk.inj after with ⟨rfl, rfl⟩
          rw [← keeps action device] at predicted
          rcases inductionHypothesis predicted later with ⟨final, fewer⟩
          rw [fewer, keeps, List.countP_cons_of_neg Bool.false_ne_true]
          exact ⟨final, rfl⟩

/-- A program without accesses left has answered. -/
theorem answer_of_accesses (predicted : program.predict views (view device) = some outcome)
    (none : program.accesses views (view device) = 0) :
    program = .answer outcome.1 ∧ view device = outcome.2 := by
  cases program with
  | answer result =>
      rw [← Option.some.inj predicted]
      exact ⟨rfl, rfl⟩
  | write port value next => exact absurd none (Nat.succ_ne_zero _)
  | read port next => exact absurd none (Nat.succ_ne_zero _)

end Runs

end PortProgram

end Foundation
