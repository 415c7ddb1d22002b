import Mathlib
import WeakOS.Foundation.Run
import WeakOS.Interrupt.Gates
import WeakOS.Interrupt.Pic

namespace WeakOS
namespace Interrupt

open Foundation I8259

/-!
# From a request to its handler

A device asks for an interrupt, a controller passes the request on, the processor
acknowledges it and enters the handler in its table, and the handler ends the
interrupt at the controllers.  Each of these can be separated from the next one
by actions of other devices, and a device can take back its request.  The
controllers then send the number of a line for which there was no request, and
the handler has to notice.

The processor does not take interrupts while a handler accesses the ports: the gates of
the table clear the interrupt flag.  The code in `m_irqs` runs later, and may set it again.
-/

/-- How far the processor is with an acknowledgement. -/
inductive Cycle
  | idle
  | noticed
  | resolved (level : Fin 8) (served : Bool)
  deriving DecidableEq

/-- The controllers, the processor, and `m_irq_triggered`.  The last two fields record the
requests that were acknowledged and the lines whose handler in `m_irqs` was called. -/
structure Machine where
  pics : Pics
  enabled : Bool
  cycle : Cycle
  code : Option (Pic.Program (Option (Fin 16)))
  mIrqTriggered : Fin 16 → Bool
  acknowledged : List (Fin 16)
  called : List (Fin 16)

inductive Action
  | signal (signal : Pics.Signal)
  | access
  | setFlag (enabled : Bool)
  | clear (irq : Fin 16)
  | notice
  | acknowledge

/-- `internal_handler`, and the line whose handler in `m_irqs` it calls. -/
def handler (irq : Fin 16) : Pic.Program (Option (Fin 16)) := do
  let passed ← Pic.internalHandler irq
  return if passed then some irq else none

namespace Machine

/-- Before `pic_remap` in `interrupt::init`. -/
def start (pics : Pics) (mIrqTriggered : Fin 16 → Bool) : Machine where
  pics := pics
  enabled := false
  cycle := .idle
  code := some do
    Pic.remap 0x20 0x28
    return none
  mIrqTriggered := mIrqTriggered
  acknowledged := []
  called := []

/-- The processor is between two instructions of other code. -/
def Free (machine : Machine) : Prop := machine.code = none ∧ machine.cycle = .idle

instance (machine : Machine) : Decidable machine.Free :=
  inferInstanceAs (Decidable (machine.code = none ∧ _))

/-- The next access of the code to the ports, or what it does at its end. -/
def access (machine : Machine) : Machine :=
  match machine.code with
  | none => machine
  | some (.answer irq) => { machine with
      code := none
      mIrqTriggered := irq.elim machine.mIrqTriggered fun irq =>
        Function.update machine.mIrqTriggered irq true
      called := machine.called ++ irq.toList }
  | some program => { machine with
      code := some (PortProgram.access Pics.ports (program, machine.pics)).1
      pics := (PortProgram.access Pics.ports (program, machine.pics)).2 }

/-- The handler that the processor enters for a vector. -/
def enter (idt : Idt) (codeAt : BitVec 32 → Option (Fin 16)) (vector : BitVec 8) : Option (Fin 16) :=
  let gate := (idt (Fin.ofNat idtEntryCount vector.toNat)).gate
  if gate.present ∧ gate.type = 14 ∧ gate.segment = false then codeAt gate.offset else none

/-- An acknowledgement goes on.  Without a vector or a handler for it the machine is stuck. -/
def acknowledge (idt : Idt) (codeAt : BitVec 32 → Option (Fin 16)) (machine : Machine) :
    Option Machine :=
  match machine.cycle with
  | .idle => some machine
  | .noticed =>
      let ((level, served), pics) := machine.pics.resolve
      some { machine with pics := pics, cycle := .resolved level served }
  | .resolved level served => do
      let (vector, request, pics) ← machine.pics.deliver level served
      let irq ← enter idt codeAt vector
      some { machine with
        pics := pics
        enabled := false
        cycle := .idle
        code := some (handler irq)
        acknowledged := machine.acknowledged ++ request.toList }

/-- What cannot happen at the moment has no effect. -/
def step (idt : Idt) (codeAt : BitVec 32 → Option (Fin 16)) (machine : Machine) :
    Action → Option Machine
  | .signal signal => some { machine with pics := machine.pics.act signal }
  | .access => some machine.access
  | .setFlag enabled => some (if machine.Free then { machine with enabled := enabled } else machine)
  | .clear irq => some (if machine.Free then
      { machine with mIrqTriggered := Function.update machine.mIrqTriggered irq false } else machine)
  | .notice => some (if machine.Free ∧ machine.enabled ∧ machine.pics.int then
      { machine with cycle := .noticed } else machine)
  | .acknowledge => machine.acknowledge idt codeAt

section Acknowledge

variable {machine : Machine} {idt : Idt} {codeAt : BitVec 32 → Option (Fin 16)} {level : Fin 8}
  {served : Bool} {pics : Pics} {vector : BitVec 8} {request : Option (Fin 16)} {irq : Fin 16}

theorem acknowledge_noticed (noticed : machine.cycle = .noticed)
    (resolves : machine.pics.resolve = ((level, served), pics)) :
    machine.acknowledge idt codeAt =
      some { machine with pics := pics, cycle := .resolved level served } := by
  rw [acknowledge, noticed]
  simp only [resolves]

theorem acknowledge_resolved (resolved : machine.cycle = .resolved level served)
    (delivers : machine.pics.deliver level served = some (vector, request, pics))
    (entered : enter idt codeAt vector = some irq) :
    machine.acknowledge idt codeAt = some { machine with
      pics := pics
      enabled := false
      cycle := .idle
      code := some (handler irq)
      acknowledged := machine.acknowledged ++ request.toList } := by
  rw [acknowledge, resolved]
  simp only [delivers, entered, Option.bind_eq_bind, Option.bind_some]

/-- An acknowledgement is not noticed by the code. -/
theorem acknowledge_eq_some {next : Machine} (taken : machine.acknowledge idt codeAt = some next) :
    next.called = machine.called ∧ next.mIrqTriggered = machine.mIrqTriggered := by
  rw [acknowledge] at taken
  split at taken
  · cases taken
    exact ⟨rfl, rfl⟩
  · cases taken
    exact ⟨rfl, rfl⟩
  · rcases Option.bind_eq_some_iff.mp taken with ⟨⟨vector, request, pics⟩, _, entered⟩
    rcases Option.bind_eq_some_iff.mp entered with ⟨irq, _, result⟩
    cases result
    exact ⟨rfl, rfl⟩

/-- A flag is set by the handler that is called. -/
theorem triggered_step {next : Machine} {action : Action} {line : Fin 16}
    (taken : machine.step idt codeAt action = some next) (other : action ≠ .clear line) :
    ∃ more, next.called = machine.called ++ more ∧
      (next.mIrqTriggered line = true ↔ machine.mIrqTriggered line = true ∨ line ∈ more) := by
  have same : ∀ next : Machine, next.called = machine.called →
      next.mIrqTriggered line = machine.mIrqTriggered line →
      ∃ more, next.called = machine.called ++ more ∧
        (next.mIrqTriggered line = true ↔ machine.mIrqTriggered line = true ∨ line ∈ more) := by
    intro next called flag
    exact ⟨[], by rw [called, List.append_nil], by rw [flag]; simp⟩
  cases action with
  | signal signal =>
      rw [← Option.some.inj taken]
      exact same _ rfl rfl
  | access =>
      rw [← Option.some.inj taken, access]
      split
      · exact same machine rfl rfl
      · rename_i irq _
        refine ⟨irq.toList, rfl, ?_⟩
        cases irq with
        | none => simp
        | some irq => by_cases here : line = irq <;> simp [here]
      · exact same _ rfl rfl
  | setFlag enabled =>
      rw [← Option.some.inj taken]
      split <;> exact same _ rfl rfl
  | clear irq =>
      have apart : line ≠ irq := fun here => other (here ▸ rfl)
      rw [← Option.some.inj taken]
      split
      · exact same _ rfl (Function.update_of_ne apart _ _)
      · exact same _ rfl rfl
  | notice =>
      rw [← Option.some.inj taken]
      split <;> exact same _ rfl rfl
  | acknowledge =>
      rcases acknowledge_eq_some taken with ⟨called, flags⟩
      exact same next called (congrFun flags line)

end Acknowledge

end Machine

/-! ## The way to the handler -/

section Entries

variable (irq : Nat → BitVec 32) (stub : BitVec 32) (entries : Idt)

/-- The entry for each line. -/
theorem init_entry (line : Fin 16) :
    init irq stub entries (Fin.ofNat idtEntryCount (0x20 + line)) = entryFor (irq line) 0x8e := by
  fin_cases line <;> rfl

variable {irq}

/-- The processor finds the handler of each line. -/
theorem enter_init {codeAt : BitVec 32 → Option (Fin 16)}
    (placed : ∀ line : Fin 16, codeAt (irq line) = some line) (line : Fin 16) :
    Machine.enter (init irq stub entries) codeAt (BitVec.ofNat 8 (0x20 + line)) = some line := by
  have small : (BitVec.ofNat 8 (0x20 + line)).toNat = 0x20 + line := Nat.mod_eq_of_lt (by omega)
  have gate : (entryFor (irq line) 0x8e).gate = ⟨irq line, 8, 0, 14, false, 0, true⟩ := by
    rw [gate_entryFor]
    rfl
  rw [Machine.enter, small, init_entry, gate]
  exact placed line

end Entries

/-- A controller as `pic_remap` leaves it, with the given levels in service. -/
structure Programmed (offset cascade imr isr : BitVec 8) (registers : Registers) : Prop where
  expects : registers.expects = .mask
  icw2 : registers.icw2 = offset
  icw3 : registers.icw3 = cascade
  icw4 : registers.icw4 = 1
  imr : registers.imr = imr
  isr : registers.isr = isr

/-- Both controllers, with the masks that they had at boot. -/
structure Ready (booted : View) (first second : BitVec 8) (view : View) : Prop where
  master : Programmed 0x20 4 booted.master.imr first view.master
  slave : Programmed 0x28 2 booted.slave.imr second view.slave

section Ready

variable {booted view after : View} {offset cascade imr isr first second vector : BitVec 8}
  {registers : Registers} {pics pics' : Pics} {level : Fin 8} {served : Bool}

theorem Programmed.remapped (offset cascade imr : BitVec 8) :
    Programmed offset cascade imr 0 (Pic.remapped offset cascade imr) :=
  ⟨rfl, rfl, rfl, rfl, rfl, rfl⟩

theorem Programmed.released (programmed : Programmed offset cascade imr isr registers) (reads : Bool) :
    Programmed offset cascade imr 0 { registers with isr := 0, readIsr := reads } :=
  { programmed with isr := rfl }

theorem Programmed.serve (programmed : Programmed offset cascade imr 0 registers) (level : Fin 8) :
    Programmed offset cascade imr (bit level) (registers.serve level) := by
  have ends : (1 : BitVec 8).getLsbD 1 = false := by decide
  refine { programmed with isr := ?_ }
  rw [Registers.serve, programmed.icw4, programmed.isr, ends]
  exact BitVec.zero_or

theorem Programmed.vectorOf (programmed : Programmed offset cascade imr isr registers)
    (aligned : offset &&& 0xf8 = offset) (level : Fin 8) :
    registers.vectorOf level = some (offset ||| BitVec.ofNat 8 level) := by
  have mode : (1 : BitVec 8).getLsbD 0 = true := by decide
  rw [Registers.vectorOf, programmed.icw4, if_pos ⟨programmed.expects, mode⟩, programmed.icw2,
    aligned]

theorem Ready.released (ready : Ready booted first second view) (released : Pic.Released view after) :
    Ready booted 0 0 after := by
  rcases released with ⟨⟨reads₁, master⟩, ⟨reads₂, slave⟩⟩
  refine ⟨?_, ?_⟩
  · rw [master]
    exact ready.master.released reads₁
  · rw [slave]
    exact ready.slave.released reads₂

/-- The first half of an acknowledgement, with no level in service. -/
theorem Ready.resolve (ready : Ready booted 0 0 pics.view)
    (resolved : pics.resolve = ((level, served), pics')) :
    Ready booted (if served then bit level else 0) 0 pics'.view ∧ (served = false → level = 7) := by
  rw [Pics.resolve] at resolved
  cases asked : pics.cascaded.request with
  | none =>
      simp only [asked, Prod.mk.injEq] at resolved
      rcases resolved with ⟨⟨rfl, rfl⟩, rfl⟩
      exact ⟨ready, fun _ => rfl⟩
  | some wanted =>
      simp only [asked, Prod.mk.injEq] at resolved
      rcases resolved with ⟨⟨rfl, rfl⟩, rfl⟩
      exact ⟨⟨ready.master.serve wanted, ready.slave⟩, Bool.noConfusion⟩

/-- The line whose handler is entered is in service, or it is one of the two without a request. -/
inductive Delivered (line : Fin 16) (view : View) : Option (Fin 16) → Prop
  | request (serves : Pic.InService line view) : Delivered line view (some line)
  | seven (same : line = 7) (first : view.master.isr = 0) (second : view.slave.isr = 0) :
      Delivered line view none
  | fifteen (same : line = 15) (first : view.master.isr = bit 2) (second : view.slave.isr = 0) :
      Delivered line view none

/-- A line of the master, and its level. -/
theorem line_master (level : Fin 8) : (Fin.ofNat 16 level).val < 8 ∧
    Fin.ofNat 8 (Fin.ofNat 16 level).val = level ∧
    (0x20 ||| BitVec.ofNat 8 level : BitVec 8) = BitVec.ofNat 8 (0x20 + Fin.ofNat 16 level) := by
  revert level
  decide

/-- A line of the slave, and its level. -/
theorem line_slave (level : Fin 8) : ¬ (Fin.ofNat 16 (8 + level)).val < 8 ∧
    Fin.ofNat 8 (Fin.ofNat 16 (8 + level)).val = level ∧
    (0x28 ||| BitVec.ofNat 8 level : BitVec 8) = BitVec.ofNat 8 (0x20 + Fin.ofNat 16 (8 + level)) := by
  revert level
  decide

theorem attached (level : Fin 8) : (4 : BitVec 8).getLsbD level = true ↔ level = 2 := by
  revert level
  decide

/-- The second half of an acknowledgement: there is a vector, of one of the sixteen lines. -/
theorem Ready.deliver (ready : Ready booted (if served then bit level else 0) 0 pics.view)
    (spurious : served = false → level = 7) :
    ∃ (line : Fin 16) (request : Option (Fin 16)) (pics' : Pics) (first second : BitVec 8),
      pics.deliver level served = some (BitVec.ofNat 8 (0x20 + line), request, pics') ∧
        Ready booted first second pics'.view ∧ Delivered line pics'.view request := by
  have icw3 : pics.master.icw3 = 4 := ready.master.icw3
  have address : pics.slave.icw3 = 2 := ready.slave.icw3
  have first := ready.master.isr
  have second := ready.slave.isr
  rw [Pics.deliver, icw3, address]
  by_cases cascade : level = 2
  · subst cascade
    cases served with
    | false => exact absurd (spurious rfl) (by decide)
    | true =>
        rw [if_pos ((attached 2).mpr rfl), if_pos (by decide)]
        cases pics.slave.request with
        | none =>
            have vector := ready.slave.vectorOf (by decide) 7
            refine ⟨15, none, pics, _, _, ?_, ready, .fifteen rfl first second⟩
            exact congrArg (Option.map _) vector
        | some wanted =>
            have vector := ready.slave.vectorOf (by decide) wanted
            rcases line_slave wanted with ⟨high, level, value⟩
            rw [value] at vector
            have serves := ready.slave.serve wanted
            refine ⟨Fin.ofNat 16 (8 + wanted), some _, { pics with slave := pics.slave.serve wanted },
              _, _, congrArg (Option.map _) vector, ⟨ready.master, serves⟩, .request ⟨?_, ?_⟩⟩
            · rw [if_neg high]
              exact first
            · rw [if_neg high, level]
              exact serves.isr
  · have vector := ready.master.vectorOf (by decide) level
    rcases line_master level with ⟨low, same, value⟩
    rw [value] at vector
    rw [if_neg (fun there => cascade ((attached level).mp there))]
    refine ⟨Fin.ofNat 16 level, _, pics, _, _, congrArg (Option.map _) vector, ready, ?_⟩
    cases served with
    | false => exact .seven (by rw [spurious rfl]; rfl) first second
    | true =>
        refine .request ⟨?_, ?_⟩
        · rw [if_pos low, same]
          exact first
        · rw [if_pos low]
          exact second

end Ready

/-! ## Every step -/

section Runs

variable {booted view : View} {line : Fin 16} {request : Option (Fin 16)} {machine next : Machine}
  {idt : Idt} {codeAt : BitVec 32 → Option (Fin 16)}

theorem predict_handler {passed : Bool} {after : View}
    (predicted : (Pic.internalHandler line).predict Pics.views view = some (passed, after)) :
    (handler line).predict Pics.views view = some (if passed then some line else none, after) := by
  refine (PortProgram.predict_bind _ _ _ _).trans ?_
  rw [predicted]
  rfl

/-- The handler passes on what was acknowledged, and leaves nothing in service. -/
theorem Delivered.handler (delivered : Delivered line view request) : ∃ after,
    (handler line).predict Pics.views view = some (request, after) ∧ Pic.Released view after := by
  cases delivered with
  | request serves =>
      rcases Pic.predict_internalHandler serves with ⟨after, predicted, released⟩
      exact ⟨after, predict_handler predicted, released⟩
  | seven same first second =>
      subst same
      rcases Pic.predict_internalHandler_seven first second with ⟨after, predicted, released⟩
      exact ⟨after, predict_handler predicted, released⟩
  | fifteen same first second =>
      subst same
      rcases Pic.predict_internalHandler_fifteen first second with ⟨after, predicted, released⟩
      exact ⟨after, predict_handler predicted, released⟩

/-- Where the machine is between a request and its handler. -/
inductive Phase (booted : View) (machine : Machine) : Prop
  | waiting (code : machine.code = none) (cycle : machine.cycle = .idle ∨ machine.cycle = .noticed)
      (ready : Ready booted 0 0 machine.pics.view) (called : machine.called = machine.acknowledged)
  | resolved (level : Fin 8) (served : Bool) (code : machine.code = none)
      (cycle : machine.cycle = .resolved level served)
      (ready : Ready booted (if served then bit level else 0) 0 machine.pics.view)
      (spurious : served = false → level = 7) (called : machine.called = machine.acknowledged)
  | running (program : Pic.Program (Option (Fin 16))) (request : Option (Fin 16)) (after : View)
      (code : machine.code = some program) (cycle : machine.cycle = .idle)
      (disabled : machine.enabled = false)
      (predicted : program.predict Pics.views machine.pics.view = some (request, after))
      (ready : Ready booted 0 0 after) (called : machine.acknowledged = machine.called ++ request.toList)

namespace Phase

theorem start (pics : Pics) (mIrqTriggered : Fin 16 → Bool) :
    Phase pics.view (Machine.start pics mIrqTriggered) := by
  have ready : Ready pics.view 0 0
      ⟨Pic.remapped 0x20 4 pics.master.imr, Pic.remapped 0x28 2 pics.slave.imr⟩ :=
    ⟨Programmed.remapped _ _ _, Programmed.remapped _ _ _⟩
  refine .running _ none _ rfl rfl rfl ?_ ready rfl
  refine (PortProgram.predict_bind _ _ _ _).trans ?_
  exact congrArg (fun found => Option.bind found _) (Pic.predict_remap 0x20 0x28 pics.view)

/-- The devices do not change what the phase says of the controllers. -/
theorem signal (phase : Phase booted machine) (signal : Pics.Signal) :
    Phase booted { machine with pics := machine.pics.act signal } := by
  have same := Pics.view_act signal machine.pics
  cases phase with
  | waiting code cycle ready called => exact .waiting code cycle (same ▸ ready) called
  | resolved level served code cycle ready spurious called =>
      exact .resolved level served code cycle (same ▸ ready) spurious called
  | running program request after code cycle disabled predicted ready called =>
      exact .running program request after code cycle disabled (same ▸ predicted) ready called

theorem access (phase : Phase booted machine) : Phase booted machine.access := by
  cases phase with
  | waiting code cycle ready called =>
      rw [Machine.access, code]
      exact .waiting code cycle ready called
  | resolved level served code cycle ready spurious called =>
      rw [Machine.access, code]
      exact .resolved level served code cycle ready spurious called
  | running program request after code cycle disabled predicted ready called =>
      have step := PortProgram.predict_access Pics.tells predicted rfl
      rw [Machine.access, code]
      cases program with
      | answer irq =>
          rcases Prod.mk.inj (Option.some.inj predicted) with ⟨rfl, rfl⟩
          exact .waiting rfl (Or.inl cycle) ready called.symm
      | write port value rest =>
          exact .running _ request after rfl cycle disabled step.1 ready called
      | read port rest =>
          exact .running _ request after rfl cycle disabled step.1 ready called

/-- Between two instructions of other code nothing is in service. -/
theorem free (phase : Phase booted machine) (free : machine.Free) :
    Ready booted 0 0 machine.pics.view ∧ machine.called = machine.acknowledged := by
  cases phase with
  | waiting code cycle ready called => exact ⟨ready, called⟩
  | resolved level served code cycle ready spurious called =>
      rw [free.2] at cycle
      cases cycle
  | running program request after code cycle disabled predicted ready called =>
      rw [free.1] at code
      cases code

theorem acknowledge {irq : Nat → BitVec 32} {stub : BitVec 32} {entries : Idt}
    (phase : Phase booted machine) (placed : ∀ line : Fin 16, codeAt (irq line) = some line) :
    ∃ next, machine.acknowledge (init irq stub entries) codeAt = some next ∧ Phase booted next := by
  cases phase with
  | waiting code cycle ready called =>
      rcases cycle with idle | noticed
      · exact ⟨machine, by rw [Machine.acknowledge, idle], .waiting code (Or.inl idle) ready called⟩
      · rcases step : machine.pics.resolve with ⟨⟨level, served⟩, pics⟩
        rcases ready.resolve step with ⟨ready', spurious⟩
        exact ⟨_, Machine.acknowledge_noticed noticed step,
          .resolved level served code rfl ready' spurious called⟩
  | resolved level served code cycle ready spurious called =>
      rcases ready.deliver spurious with ⟨line, request, pics, _, _, delivers, ready', delivered⟩
      rcases delivered.handler with ⟨after, predicted, released⟩
      have entered := enter_init stub entries placed line
      refine ⟨_, Machine.acknowledge_resolved cycle delivers entered, ?_⟩
      exact .running _ request after rfl rfl rfl predicted (ready'.released released) (by rw [called])
  | running program request after code cycle disabled predicted ready called =>
      exact ⟨machine, by rw [Machine.acknowledge, cycle],
        .running program request after code cycle disabled predicted ready called⟩

/-- Whatever happens next, the machine is not stuck. -/
theorem step {irq : Nat → BitVec 32} {stub : BitVec 32} {entries : Idt}
    (phase : Phase booted machine) (placed : ∀ line : Fin 16, codeAt (irq line) = some line)
    (action : Action) : ∃ next, machine.step (init irq stub entries) codeAt action = some next ∧
      Phase booted next := by
  cases action with
  | signal signal => exact ⟨_, rfl, phase.signal signal⟩
  | access => exact ⟨_, rfl, phase.access⟩
  | setFlag enabled =>
      refine ⟨_, rfl, ?_⟩
      split
      · rename_i free
        exact .waiting free.1 (Or.inl free.2) (phase.free free).1 (phase.free free).2
      · exact phase
  | clear irq =>
      refine ⟨_, rfl, ?_⟩
      split
      · rename_i free
        exact .waiting free.1 (Or.inl free.2) (phase.free free).1 (phase.free free).2
      · exact phase
  | notice =>
      refine ⟨_, rfl, ?_⟩
      split
      · rename_i taken
        exact .waiting taken.1.1 (Or.inr rfl) (phase.free taken.1).1 (phase.free taken.1).2
      · exact phase
  | acknowledge => exact phase.acknowledge placed

end Phase

/-! ## Whole runs -/

/-- A level has a request that is not masked. -/
def Wants (chip : Chip) (level : Fin 8) : Prop :=
  chip.irr.getLsbD level = true ∧ chip.imr.getLsbD level = false

/-- A device has a request that is not masked.  The slave is masked also at line 2 of the
master, to which no device is attached. -/
def Asks (pics : Pics) : Prop :=
  (∃ level : Fin 8, level.val ≠ 2 ∧ Wants pics.master level) ∨
    pics.master.imr.getLsbD 2 = false ∧ ∃ level, Wants pics.slave level

theorem highest_isSome_iff (levels : BitVec 8) :
    (highest levels).isSome = true ↔ ∃ level : Fin 8, levels.getLsbD level = true := by
  rw [highest, List.find?_isSome]
  constructor
  · rintro ⟨level, _, there⟩
    exact ⟨level, there⟩
  · rintro ⟨level, there⟩
    exact ⟨level, List.mem_finRange level, there⟩

/-- With nothing in service a controller passes on every request that is not masked. -/
theorem request_isSome_iff {chip : Chip} (idle : chip.isr = 0) :
    chip.request.isSome = true ↔ ∃ level, Wants chip level := by
  have free : highest 0 = none := by decide
  have passes : chip.request = highest (chip.irr &&& ~~~chip.imr) := by
    rw [Chip.request, idle, free]
    cases highest (chip.irr &&& ~~~chip.imr) <;> rfl
  rw [passes, highest_isSome_iff]
  refine exists_congr fun level => ?_
  rw [BitVec.getLsbD_and, BitVec.getLsbD_not, Wants]
  simp [level.isLt]

/-- The master sees the slave at line 2. -/
theorem cascaded_irr (pics : Pics) (level : Fin 8) : pics.cascaded.irr.getLsbD level =
    if level = 2 then pics.slave.request.isSome else pics.master.irr.getLsbD level := by
  have line : ∀ level : Fin 8, (bit 2).getLsbD level = decide (level = 2) ∧
      (~~~bit 2).getLsbD level = decide (level ≠ 2) ∧ (0 : BitVec 8).getLsbD level = false := by
    decide
  rw [Pics.cascaded, BitVec.getLsbD_or, BitVec.getLsbD_and, (line level).2.1]
  cases pics.slave.request.isSome with
  | false =>
      rw [if_neg Bool.false_ne_true, (line level).2.2]
      split <;> simp [*]
  | true =>
      rw [if_pos rfl, (line level).1]
      split <;> simp [*]

/-- With nothing in service every request that is not masked reaches the processor. -/
theorem int_iff {pics : Pics} (first : pics.master.isr = 0) (second : pics.slave.isr = 0) :
    pics.int = true ↔ Asks pics := by
  have master : pics.cascaded.isr = 0 := first
  have wants : ∀ level, Wants pics.cascaded level ↔
      if level = 2 then pics.master.imr.getLsbD 2 = false ∧ ∃ level, Wants pics.slave level
      else Wants pics.master level := by
    intro level
    rw [Wants, cascaded_irr, show pics.cascaded.imr = pics.master.imr from rfl]
    split
    · rename_i cascade
      subst cascade
      rw [request_isSome_iff second]
      exact and_comm
    · rfl
  rw [Pics.int, request_isSome_iff master]
  constructor
  · rintro ⟨level, asks⟩
    have either := (wants level).mp asks
    split at either
    · exact Or.inr either
    · rename_i other
      exact Or.inl ⟨level, fun same => other (Fin.ext same), either⟩
  · rintro (⟨level, other, asks⟩ | asks)
    · have notCascade : level ≠ 2 := fun same => other (congrArg Fin.val same)
      exact ⟨level, (wants level).mpr (by rwa [if_neg notCascade])⟩
    · exact ⟨2, (wants 2).mpr (by rwa [if_pos rfl])⟩

/-- What the kernel and the devices may rely on. -/
structure Served (booted : View) (machine : Machine) : Prop where
  called : machine.called <+: machine.acknowledged
  ended : machine.code = none → machine.called = machine.acknowledged
  quiet : machine.Free → machine.pics.master.isr = 0 ∧ machine.pics.slave.isr = 0
  masks : machine.Free →
    machine.pics.master.imr = booted.master.imr ∧ machine.pics.slave.imr = booted.slave.imr
  int : machine.Free → (machine.pics.int = true ↔ Asks machine.pics)
  disabled : machine.code ≠ none → machine.enabled = false

theorem Phase.served (phase : Phase booted machine) : Served booted machine where
  called := by
    cases phase with
    | waiting code cycle ready called => rw [called]
    | resolved level served code cycle ready spurious called => rw [called]
    | running program request after code cycle disabled predicted ready called =>
        rw [called]
        exact List.prefix_append _ _
  ended none := by
    cases phase with
    | waiting code cycle ready called => exact called
    | resolved level served code cycle ready spurious called => exact called
    | running program request after code cycle disabled predicted ready called =>
        rw [none] at code
        cases code
  quiet free := ⟨(phase.free free).1.master.isr, (phase.free free).1.slave.isr⟩
  masks free := ⟨(phase.free free).1.master.imr, (phase.free free).1.slave.imr⟩
  int free := int_iff (phase.free free).1.master.isr (phase.free free).1.slave.isr
  disabled some := by
    cases phase with
    | waiting code cycle ready called => exact absurd code some
    | resolved level served code cycle ready spurious called => exact absurd code some
    | running program request after code cycle disabled predicted ready called => exact disabled

variable {irq : Nat → BitVec 32} {stub : BitVec 32} {entries : Idt} {pics : Pics}
  {mIrqTriggered : Fin 16 → Bool}

theorem run_phase (placed : ∀ line : Fin 16, codeAt (irq line) = some line)
    (phase : Phase booted machine) (actions : List Action) : ∃ last,
      Run.run (Machine.step (init irq stub entries) codeAt) machine actions = some last ∧
        Phase booted last :=
  Run.run_total (fun _ action phase (_ : True) => phase.step placed action) phase (fun _ _ => trivial)

/-- From `pic_remap` on, in whatever order devices ask for interrupts and take their requests
back, and wherever between two accesses this happens: the processor always finds a handler, the
handlers in `m_irqs` are called once for each request that was acknowledged, in that order, and
outside of the handlers no level is in service, so that every request reaches the processor that
the firmware did not mask. -/
theorem run_served (placed : ∀ line : Fin 16, codeAt (irq line) = some line) (actions : List Action) :
    ∃ last, Run.run (Machine.step (init irq stub entries) codeAt) (Machine.start pics mIrqTriggered)
        actions = some last ∧ Served pics.view last := by
  rcases run_phase placed (Phase.start pics mIrqTriggered) actions with ⟨last, reached, phase⟩
  exact ⟨last, reached, phase.served⟩

/-- Handlers of sixteen bytes each. -/
def handlerAddr (line : Nat) : BitVec 32 := 0x101000 + BitVec.ofNat 32 (0x10 * line)

def handlerAt (addr : BitVec 32) : Option (Fin 16) :=
  (List.finRange 16).find? fun line => addr = handlerAddr line

theorem handlerAt_handlerAddr : ∀ line : Fin 16, handlerAt (handlerAddr line) = some line := by
  decide

/-- The disk asks for an interrupt and takes its request back after the master has answered. -/
theorem run_served_withdrawn : ∃ last,
    Run.run (Machine.step (init handlerAddr 0x102000 fun _ => entryFor 0 0) handlerAt)
        (Machine.start Pic.firmware fun _ => false)
        (List.replicate 21 .access ++ [.setFlag true, .signal (.raise 12), .notice, .acknowledge,
          .signal (.drop 12), .acknowledge] ++ List.replicate 6 .access) = some last ∧
      Served Pic.firmware.view last :=
  run_served handlerAt_handlerAddr _

/-- The flag of the line tells whether its handler was called since. -/
def Since (earlier : List (Fin 16)) (line : Fin 16) (machine : Machine) : Prop :=
  ∃ later, machine.called = earlier ++ later ∧ (machine.mIrqTriggered line = true ↔ line ∈ later)

theorem Since.step {earlier : List (Fin 16)} {action : Action} (since : Since earlier line machine)
    (taken : machine.step idt codeAt action = some next) (other : action ≠ .clear line) :
    Since earlier line next := by
  rcases since with ⟨later, calls, flag⟩
  rcases Machine.triggered_step taken other with ⟨more, calls', flag'⟩
  refine ⟨later ++ more, by rw [calls', calls, List.append_assoc], ?_⟩
  rw [flag', flag, List.mem_append]

/-- `wait_irq` clears the flag and returns when it is set.  This is when an interrupt of the line
was acknowledged after the flag was cleared, and its handler has finished; one that was
acknowledged before does not count.  This holds until the flag is cleared again. -/
theorem run_waitIrq (placed : ∀ line : Fin 16, codeAt (irq line) = some line) {line : Fin 16}
    {before after : List Action} {last : Machine}
    (reached : Run.run (Machine.step (init irq stub entries) codeAt) (Machine.start pics mIrqTriggered)
      before = some machine) (free : machine.Free) (once : .clear line ∉ after)
    (waited : Run.run (Machine.step (init irq stub entries) codeAt) machine (.clear line :: after) =
      some last) : Since machine.acknowledged line last := by
  rcases run_phase placed (Phase.start pics mIrqTriggered) before with ⟨middle, arrived, phase⟩
  rw [reached] at arrived
  rcases Option.some.inj arrived with rfl
  rcases Run.run_cons_eq_some.mp waited with ⟨cleared, taken, later⟩
  have start : Since machine.acknowledged line cleared := by
    rw [← Option.some.inj taken, if_pos free]
    exact ⟨[], by rw [List.append_nil]; exact (phase.free free).2, by simp⟩
  have keep : ∀ state action next, Since machine.acknowledged line state → action ≠ .clear line →
      Machine.step (init irq stub entries) codeAt state action = some next →
        Since machine.acknowledged line next :=
    fun _ _ _ since other taken => since.step taken other
  have others : ∀ action ∈ after, action ≠ .clear line :=
    fun action member same => once (same ▸ member)
  exact Run.run_invariant keep start (Run.eachStep_of_forall_mem others) later

/-- The timer asks for an interrupt after its flag was cleared. -/
theorem run_waitIrq_timer : ∃ machine last,
    Run.run (Machine.step (init handlerAddr 0x102000 fun _ => entryFor 0 0) handlerAt)
        (Machine.start Pic.firmware fun _ => true) (List.replicate 21 .access) = some machine ∧
      Run.run (Machine.step (init handlerAddr 0x102000 fun _ => entryFor 0 0) handlerAt) machine
        [.clear 0, .setFlag true, .signal (.raise 0), .notice, .acknowledge, .acknowledge, .access,
          .access] = some last ∧ Since machine.acknowledged 0 last := by
  have reached : ∃ machine : Machine,
      Run.run (Machine.step (init handlerAddr 0x102000 fun _ => entryFor 0 0) handlerAt)
        (Machine.start Pic.firmware fun _ => true) (List.replicate 21 .access) = some machine ∧
          machine.Free :=
    ⟨_, by with_unfolding_all rfl, rfl, rfl⟩
  rcases reached with ⟨machine, reached, free⟩
  rcases run_phase handlerAt_handlerAddr (Phase.start Pic.firmware fun _ => true)
    (List.replicate 21 .access) with ⟨same, arrived, phase⟩
  rw [reached] at arrived
  rcases Option.some.inj arrived with rfl
  rcases run_phase handlerAt_handlerAddr phase [.clear 0, .setFlag true, .signal (.raise 0), .notice,
    .acknowledge, .acknowledge, .access, .access] with ⟨last, waited, _⟩
  exact ⟨machine, last, reached, waited,
    run_waitIrq handlerAt_handlerAddr reached free (by simp) waited⟩

end Runs

end Interrupt
end WeakOS
