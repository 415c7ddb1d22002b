import Mathlib
import WeakOS.Foundation.Ports

/-!
# The interrupt controllers

Two controllers of eight lines each collect the requests of the devices.  The
second one, the slave, is attached to line 2 of the first one, the master.  What
follows first is their documented behaviour, as far as the kernel makes use of it:
rotating priorities, polling and the special modes are left out.
-/

namespace I8259

open Foundation

/-- What the data port takes next. -/
inductive Expects
  | mask
  | vector
  | cascade
  | mode
  deriving DecidableEq, Repr

/-- The registers that the devices do not change. -/
structure Registers where
  isr : BitVec 8
  imr : BitVec 8
  readIsr : Bool
  expects : Expects
  icw1 : BitVec 8
  icw2 : BitVec 8
  icw3 : BitVec 8
  icw4 : BitVec 8
  deriving DecidableEq, Repr

def bit (level : Fin 8) : BitVec 8 := 1#8 <<< level.val

/-- The level of the highest priority, which has the lowest number. -/
def highest (levels : BitVec 8) : Option (Fin 8) :=
  (List.finRange 8).find? fun level => levels.getLsbD level

namespace Registers

/-- The command port.  Bit 4 is set in the first word of an initialisation, and bit 3 in the
choice of the register to read; of the other commands only the unspecific end of an
interrupt is here. -/
def command (value : BitVec 8) (registers : Registers) : Registers :=
  if value.getLsbD 4 then
    { registers with
      isr := 0
      imr := 0
      readIsr := false
      expects := .vector
      icw1 := value
      icw4 := if value.getLsbD 0 then registers.icw4 else 0 }
  else if value.getLsbD 3 then
    if value.getLsbD 1 then { registers with readIsr := value.getLsbD 0 } else registers
  else if value.extractLsb' 5 3 = 1 then
    { registers with isr := (highest registers.isr).elim registers.isr fun level =>
        registers.isr &&& ~~~bit level }
  else registers

/-- The data port.  The first word of the initialisation tells whether there is a cascade, in
bit 1, and whether there is a fourth word, in bit 0. -/
def data (value : BitVec 8) (registers : Registers) : Registers :=
  let fourth : Expects := if registers.icw1.getLsbD 0 then .mode else .mask
  match registers.expects with
  | .mask => { registers with imr := value }
  | .vector => { registers with
      icw2 := value
      expects := if registers.icw1.getLsbD 1 then fourth else .cascade }
  | .cascade => { registers with icw3 := value, expects := fourth }
  | .mode => { registers with icw4 := value, expects := .mask }

/-- A level is served.  With an automatic end of interrupt, bit 1 of the fourth word, it is not
in service afterwards. -/
def serve (level : Fin 8) (registers : Registers) : Registers :=
  { registers with
    isr := if registers.icw4.getLsbD 1 then registers.isr else registers.isr ||| bit level }

/-- The number that is sent to the processor, once the controller is initialised in the mode
for it. -/
def vectorOf (level : Fin 8) (registers : Registers) : Option (BitVec 8) :=
  if registers.expects = .mask ∧ registers.icw4.getLsbD 0 then
    some (registers.icw2 &&& 0xf8 ||| BitVec.ofNat 8 level)
  else none

end Registers

/-- A controller: the registers, and the lines with a request. -/
structure Chip extends Registers where
  irr : BitVec 8
  deriving DecidableEq, Repr

namespace Chip

/-- An initialisation forgets the requests. -/
def writeCommand (value : BitVec 8) (chip : Chip) : Chip where
  toRegisters := chip.toRegisters.command value
  irr := if value.getLsbD 4 then 0 else chip.irr

def writeData (value : BitVec 8) (chip : Chip) : Chip :=
  { chip with toRegisters := chip.toRegisters.data value }

def readCommand (chip : Chip) : BitVec 8 := if chip.readIsr then chip.isr else chip.irr

/-- The level that the controller asks to be served: one that is not masked, with a higher
priority than every level in service. -/
def request (chip : Chip) : Option (Fin 8) :=
  (highest (chip.irr &&& ~~~chip.imr)).filter fun level => (highest chip.isr).all (level < ·)

def serve (level : Fin 8) (chip : Chip) : Chip where
  toRegisters := chip.toRegisters.serve level
  irr := chip.irr &&& ~~~bit level

end Chip

/-- Both controllers. -/
structure Pics where
  master : Chip
  slave : Chip
  deriving DecidableEq, Repr

/-- What is known of the controllers without the devices. -/
structure View where
  master : Registers
  slave : Registers

namespace Pics

def view (pics : Pics) : View := ⟨pics.master.toRegisters, pics.slave.toRegisters⟩

def ports : Ports (BitVec 16) (BitVec 8) Pics where
  write port value pics :=
    if port = 0x20 then { pics with master := pics.master.writeCommand value }
    else if port = 0x21 then { pics with master := pics.master.writeData value }
    else if port = 0xa0 then { pics with slave := pics.slave.writeCommand value }
    else if port = 0xa1 then { pics with slave := pics.slave.writeData value }
    else pics
  read port pics :=
    if port = 0x20 then (pics.master.readCommand, pics)
    else if port = 0x21 then (pics.master.imr, pics)
    else if port = 0xa0 then (pics.slave.readCommand, pics)
    else if port = 0xa1 then (pics.slave.imr, pics)
    else (0xff, pics)

/-- The requests are not known, hence neither is a command port that reads them. -/
def views : Views (BitVec 16) (BitVec 8) View where
  write port value view :=
    if port = 0x20 then { view with master := view.master.command value }
    else if port = 0x21 then { view with master := view.master.data value }
    else if port = 0xa0 then { view with slave := view.slave.command value }
    else if port = 0xa1 then { view with slave := view.slave.data value }
    else view
  read port view :=
    if port = 0x20 then if view.master.readIsr then some (view.master.isr, view) else none
    else if port = 0x21 then some (view.master.imr, view)
    else if port = 0xa0 then if view.slave.readIsr then some (view.slave.isr, view) else none
    else if port = 0xa1 then some (view.slave.imr, view)
    else none

theorem tells : PortProgram.Tells view ports views where
  write port value pics := by
    simp only [ports, views]
    split_ifs <;> rfl
  read port pics found reads := by
    simp only [ports]
    simp only [views, view] at reads
    split_ifs at reads ⊢ with port₁ known port₂ port₃ known port₄
    · rw [← Option.some.inj reads, Chip.readCommand, if_pos known]
      rfl
    · exact Option.some.inj reads
    · rw [← Option.some.inj reads, Chip.readCommand, if_pos known]
      rfl
    · exact Option.some.inj reads

/-! ## Requests -/

/-- A device asks for an interrupt or takes its request back. -/
inductive Signal
  | raise (line : Fin 16)
  | drop (line : Fin 16)

def setLine (line : Fin 16) (change : BitVec 8 → Fin 8 → BitVec 8) (pics : Pics) : Pics :=
  if line.val < 8 then
    { pics with master := { pics.master with irr := change pics.master.irr (Fin.ofNat 8 line) } }
  else { pics with slave := { pics.slave with irr := change pics.slave.irr (Fin.ofNat 8 line) } }

def act : Signal → Pics → Pics
  | .raise line => setLine line fun irr level => irr ||| bit level
  | .drop line => setLine line fun irr level => irr &&& ~~~bit level

theorem view_act (signal : Signal) (pics : Pics) : (pics.act signal).view = pics.view := by
  cases signal <;> rw [act, setLine] <;> split <;> rfl

/-- The master, whose line 2 is driven by the slave. -/
def cascaded (pics : Pics) : Chip :=
  { pics.master with
    irr := (pics.master.irr &&& ~~~bit 2) ||| if pics.slave.request.isSome then bit 2 else 0 }

/-- The line to the processor. -/
def int (pics : Pics) : Bool := pics.cascaded.request.isSome

/-- The first half of an acknowledgement: the master decides which level is served.  When the
request has been taken back, this is level 7, and nothing is in service. -/
def resolve (pics : Pics) : (Fin 8 × Bool) × Pics :=
  match pics.cascaded.request with
  | some level => ((level, true), { pics with master := pics.master.serve level })
  | none => ((7, false), pics)

/-- The second half: the master sends the vector, or the slave if it is attached to the level.
The slave decides only now; without a request it sends level 7 too. -/
def deliver (pics : Pics) (level : Fin 8) (served : Bool) :
    Option (BitVec 8 × Option (Fin 16) × Pics) :=
  if pics.master.icw3.getLsbD level then
    if pics.slave.icw3.extractLsb' 0 3 = BitVec.ofNat 3 level then
      match pics.slave.request with
      | some level => (pics.slave.vectorOf level).map fun vector =>
          (vector, some (Fin.ofNat 16 (8 + level)), { pics with slave := pics.slave.serve level })
      | none => (pics.slave.vectorOf 7).map fun vector => (vector, none, pics)
    else none
  else (pics.master.vectorOf level).map fun vector =>
    (vector, if served then some (Fin.ofNat 16 level) else none, pics)

end Pics

end I8259

namespace WeakOS
namespace Pic

open Foundation I8259

/-! ## What the kernel does with them -/

/-- Code of the kernel that accesses the ports. -/
abbrev Program := PortProgram (BitVec 16) (BitVec 8)

/-- `io::outb`. -/
def outb (port : BitVec 16) (val : BitVec 8) : Program Unit := .write port val (.answer ())

/-- `io::inb`. -/
def inb (port : BitVec 16) : Program (BitVec 8) := .read port .answer

/-- `io::wait`. -/
def wait : Program Unit := outb 0x80 0

def command1 : BitVec 16 := 0x20
def command2 : BitVec 16 := 0xa0
def data1 : BitVec 16 := 0x21
def data2 : BitVec 16 := 0xa1

/-- `PIC_EOI`. -/
def endOfInterrupt : BitVec 8 := 0x20

/-- `PIC_READ_ISR`. -/
def readIsr : BitVec 8 := 0x0b

def icw1Icw4 : BitVec 8 := 0x01
def icw1Init : BitVec 8 := 0x10
def icw48086 : BitVec 8 := 0x01

/-- `pic_eoi`. -/
def eoi (irq : BitVec 8) : Program Unit := do
  if irq &&& 8 ≠ 0 then
    outb command2 endOfInterrupt
  outb command1 endOfInterrupt

/-- `pic_remap`. -/
def remap (offs1 offs2 : BitVec 8) : Program Unit := do
  let a1 ← inb data1
  let a2 ← inb data2
  outb command1 (icw1Init ||| icw1Icw4)
  wait
  outb command2 (icw1Init ||| icw1Icw4)
  wait
  outb data1 offs1
  wait
  outb data2 offs2
  wait
  outb data1 4
  wait
  outb data2 2
  wait
  outb data1 icw48086
  wait
  outb data2 icw48086
  wait
  outb data1 a1
  outb data2 a2

/-- `pic_get_isr`. -/
def getIsr : Program (BitVec 16) := do
  outb command1 readIsr
  outb command2 readIsr
  let isr1 ← inb command1
  let isr2 ← inb command2
  return isr2.setWidth 16 <<< 8 ||| isr1.setWidth 16

/-- The end of `internal_handler`, for an interrupt that a device asked for. -/
def pass (irq : Fin 16) : Program Bool := do
  eoi (BitVec.ofNat 8 irq)
  return true

/-- `internal_handler`, for the lines of the controllers: whether it goes on to set
`m_irq_triggered` and to call the handler in `m_irqs`. -/
def internalHandler (irq : Fin 16) : Program Bool :=
  if irq = 7 then do
    let isr ← getIsr
    if isr &&& 0x80 = 0 then return false else pass irq
  else if irq = 15 then do
    let isr ← getIsr
    if isr &&& 0x8000 = 0 then do
      outb command1 endOfInterrupt
      return false
    else pass irq
  else pass irq

/-! ## What it comes to -/

section Predictions

/-- After `pic_remap` both controllers are ready for requests, with the given vectors and the
masks that they had before. -/
def remapped (offset cascade imr : BitVec 8) : Registers where
  isr := 0
  imr := imr
  readIsr := false
  expects := .mask
  icw1 := 0x11
  icw2 := offset
  icw3 := cascade
  icw4 := 1

theorem predict_remap (offs1 offs2 : BitVec 8) (view : View) :
    (remap offs1 offs2).predict Pics.views view =
      some ((), ⟨remapped offs1 4 view.master.imr, remapped offs2 2 view.slave.imr⟩) := by
  with_unfolding_all rfl

theorem accesses_remap (offs1 offs2 : BitVec 8) (view : View) :
    (remap offs1 offs2).accesses Pics.views view = 20 := rfl

/-- The line is the only one in service. -/
structure InService (irq : Fin 16) (view : View) : Prop where
  master : view.master.isr = if irq.val < 8 then bit (Fin.ofNat 8 irq) else bit 2
  slave : view.slave.isr = if irq.val < 8 then 0 else bit (Fin.ofNat 8 irq)

/-- Nothing is in service any more.  Apart from the choice of the register to read, the rest is
as before. -/
structure Released (before after : View) : Prop where
  master : ∃ reads, after.master = { before.master with isr := 0, readIsr := reads }
  slave : ∃ reads, after.slave = { before.slave with isr := 0, readIsr := reads }

def cleared (view : View) : View := ⟨{ view.master with isr := 0 }, { view.slave with isr := 0 }⟩

/-- Both controllers have the levels in service read from their command ports. -/
def reading (view : View) : View :=
  ⟨{ view.master with readIsr := true }, { view.slave with readIsr := true }⟩

variable {view : View} {registers : Registers} {level : Fin 8} {irq : Fin 16}

theorem highest_bit (level : Fin 8) :
    highest (bit level) = some level ∧ bit level &&& ~~~bit level = 0 := by
  revert level
  decide

/-- The end of an interrupt is that of the only level in service. -/
theorem command_endOfInterrupt (serves : registers.isr = bit level) :
    registers.command endOfInterrupt = { registers with isr := 0 } := by
  have clears : registers.command endOfInterrupt = { registers with
      isr := (highest registers.isr).elim registers.isr fun level =>
        registers.isr &&& ~~~bit level } := rfl
  rw [clears, serves, (highest_bit level).1]
  exact congrArg (fun isr => { registers with isr := isr }) (highest_bit level).2

theorem predict_outb_command1 (value : BitVec 8) :
    (outb command1 value).predict Pics.views view =
      some ((), { view with master := view.master.command value }) := rfl

theorem predict_outb_command2 (value : BitVec 8) :
    (outb command2 value).predict Pics.views view =
      some ((), { view with slave := view.slave.command value }) := rfl

/-- The lines of the slave are those with bit 3. -/
theorem and_eight (irq : Fin 16) : BitVec.ofNat 8 irq &&& 8 ≠ 0 ↔ ¬ irq.val < 8 := by
  revert irq
  decide

/-- `pic_eoi` ends the interrupt in each controller in which it is in service. -/
theorem predict_eoi (serves : InService irq view) :
    (eoi (BitVec.ofNat 8 irq)).predict Pics.views view = some ((), cleared view) := by
  have master : ∃ level, view.master.isr = bit level := by
    rw [serves.master]
    split
    · exact ⟨_, rfl⟩
    · exact ⟨_, rfl⟩
  rcases master with ⟨level, master⟩
  have slave := serves.slave
  by_cases first : irq.val < 8
  · rw [if_pos first] at slave
    have same : cleared view = ⟨{ view.master with isr := 0 }, view.slave⟩ := by
      rw [cleared, ← slave]
    rw [eoi, if_neg (fun there => (and_eight irq).mp there first), same]
    exact (predict_outb_command1 _).trans (by rw [command_endOfInterrupt master])
  · rw [if_neg first] at slave
    rw [eoi, if_pos ((and_eight irq).mpr first)]
    refine (PortProgram.predict_bind _ _ _ _).trans ?_
    rw [predict_outb_command2, command_endOfInterrupt slave]
    exact (predict_outb_command1 _).trans (by rw [command_endOfInterrupt master]; rfl)

/-- The levels in service of both controllers. -/
def levels (view : View) : BitVec 16 := view.slave.isr.setWidth 16 <<< 8 ||| view.master.isr.setWidth 16

theorem predict_getIsr (view : View) : getIsr.predict Pics.views view =
    some (levels view, reading view) := rfl

theorem predict_pass (serves : InService irq view) : (pass irq).predict Pics.views view =
    some (true, cleared view) := by
  refine (PortProgram.predict_bind _ _ _ _).trans ?_
  rw [predict_eoi serves]
  rfl

theorem predict_getIsr_bind (later : BitVec 16 → Program Bool) :
    (getIsr >>= later).predict Pics.views view =
      (later (levels view)).predict Pics.views (reading view) := by
  refine (PortProgram.predict_bind _ _ _ _).trans ?_
  rw [predict_getIsr]
  rfl

/-- A line in service is passed on, and its interrupt is ended. -/
theorem predict_internalHandler (serves : InService irq view) : ∃ after,
    (internalHandler irq).predict Pics.views view = some (true, after) ∧ Released view after := by
  have chosen : InService irq (reading view) := ⟨serves.master, serves.slave⟩
  have passed := predict_pass chosen
  by_cases seven : irq = 7
  · subst seven
    have there : levels view &&& 0x80 ≠ 0 := by
      rw [levels, serves.master, serves.slave]
      decide
    refine ⟨cleared (reading view), ?_, ⟨true, rfl⟩, ⟨true, rfl⟩⟩
    rw [internalHandler, if_pos rfl, predict_getIsr_bind, if_neg there, passed]
  · by_cases fifteen : irq = 15
    · subst fifteen
      have there : levels view &&& 0x8000 ≠ 0 := by
        rw [levels, serves.master, serves.slave]
        decide
      refine ⟨cleared (reading view), ?_, ⟨true, rfl⟩, ⟨true, rfl⟩⟩
      rw [internalHandler, if_neg seven, if_pos rfl, predict_getIsr_bind, if_neg there, passed]
    · refine ⟨cleared view, ?_, ⟨_, rfl⟩, ⟨_, rfl⟩⟩
      rw [internalHandler, if_neg seven, if_neg fifteen, predict_pass serves]

/-- Level 7 of the master, without a request: nothing is to be ended. -/
theorem predict_internalHandler_seven (master : view.master.isr = 0) (slave : view.slave.isr = 0) :
    ∃ after, (internalHandler 7).predict Pics.views view = some (false, after) ∧
      Released view after := by
  have nothing : levels view &&& 0x80 = 0 := by
    rw [levels, master, slave]
    decide
  refine ⟨reading view, ?_, ⟨true, by rw [← master]; rfl⟩, ⟨true, by rw [← slave]; rfl⟩⟩
  rw [internalHandler, if_pos rfl, predict_getIsr_bind, if_pos nothing]
  rfl

/-- Level 7 of the slave, without a request: only the master has to be told. -/
theorem predict_internalHandler_fifteen (master : view.master.isr = bit 2)
    (slave : view.slave.isr = 0) :
    ∃ after, (internalHandler 15).predict Pics.views view = some (false, after) ∧
      Released view after := by
  have nothing : levels view &&& 0x8000 = 0 := by
    rw [levels, master, slave]
    decide
  have ended : (reading view).master.command endOfInterrupt = { (reading view).master with isr := 0 } :=
    command_endOfInterrupt master
  refine ⟨⟨{ (reading view).master with isr := 0 }, (reading view).slave⟩, ?_, ⟨true, rfl⟩,
    ⟨true, by rw [← slave]; rfl⟩⟩
  rw [internalHandler, if_neg (by decide), if_pos rfl, predict_getIsr_bind, if_pos nothing]
  refine (PortProgram.predict_bind _ _ _ _).trans ?_
  rw [predict_outb_command1, ended]
  rfl

/-- Whatever devices ask for in between, `pic_remap` leaves both controllers ready, with the
vectors that it was called with and the masks that they had. -/
theorem remap_interleaved (offs1 offs2 : BitVec 8) (pics last : Pics) {program : Program Unit}
    {events : List (Option Pics.Signal)} (enough : 20 ≤ events.countP Option.isNone)
    (reached : Run.run (PortProgram.step Pics.ports Pics.act) (remap offs1 offs2, pics) events =
      some (program, last)) :
    program = .answer () ∧ last.master.toRegisters = remapped offs1 4 pics.master.imr ∧
      last.slave.toRegisters = remapped offs2 2 pics.slave.imr := by
  rcases PortProgram.predict_interleaved Pics.tells Pics.view_act (predict_remap offs1 offs2 pics.view)
    reached with ⟨predicted, accesses⟩
  have none : program.accesses Pics.views last.view = 0 := by
    rw [accesses, accesses_remap]
    omega
  rcases PortProgram.answer_of_accesses predicted none with ⟨answered, same⟩
  exact ⟨answered, congrArg View.master same, congrArg View.slave same⟩

/-- The controllers as a firmware may leave them: a level is in service. -/
def firmware : Pics where
  master := ⟨⟨0x40, 0xb8, true, .mask, 0x11, 0x08, 4, 1⟩, 0x80⟩
  slave := ⟨⟨0, 0x8e, false, .mask, 0x11, 0x70, 2, 1⟩, 0⟩

/-- The keyboard asks for an interrupt meanwhile. -/
theorem remap_interleaved_firmware : ∃ last,
    Run.run (PortProgram.step Pics.ports Pics.act) (remap 0x20 0x28, firmware)
      (List.replicate 5 none ++ some (.raise 1) :: List.replicate 15 none) = some (.answer (), last) ∧
      last.master.toRegisters = remapped 0x20 4 0xb8 := by
  have reached : ∃ last, Run.run (PortProgram.step Pics.ports Pics.act) (remap 0x20 0x28, firmware)
      (List.replicate 5 none ++ some (.raise 1) :: List.replicate 15 none) = some (.answer (), last) :=
    ⟨_, by with_unfolding_all rfl⟩
  rcases reached with ⟨last, reached⟩
  exact ⟨last, reached, (remap_interleaved 0x20 0x28 firmware last (by decide) reached).2.1⟩

end Predictions

end Pic
end WeakOS
