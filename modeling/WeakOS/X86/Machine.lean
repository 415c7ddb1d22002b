import Mathlib
import WeakOS.X86.Memory

namespace X86

/-!
# A small x86 machine

The instructions are those that save and restore a context: moves, pushes and
pops, a little arithmetic, jumps to local labels, and interrupts.  Segments are
flat.  Of the arithmetic flags only ZF is kept, since no instruction here reads
another.

A block of code is a list of instructions.  It is left by its end, by a jump to
an address, or by an interrupt.
-/

inductive Reg where
  | eax | ebx | ecx | edx | esi | edi | ebp | esp
  deriving DecidableEq, Repr

@[ext] structure Registers where
  eax : BitVec 32
  ebx : BitVec 32
  ecx : BitVec 32
  edx : BitVec 32
  esi : BitVec 32
  edi : BitVec 32
  ebp : BitVec 32
  esp : BitVec 32
  deriving DecidableEq, Repr

namespace Registers

def get (regs : Registers) : Reg → BitVec 32
  | .eax => regs.eax
  | .ebx => regs.ebx
  | .ecx => regs.ecx
  | .edx => regs.edx
  | .esi => regs.esi
  | .edi => regs.edi
  | .ebp => regs.ebp
  | .esp => regs.esp

def set (regs : Registers) (value : BitVec 32) : Reg → Registers
  | .eax => { regs with eax := value }
  | .ebx => { regs with ebx := value }
  | .ecx => { regs with ecx := value }
  | .edx => { regs with edx := value }
  | .esi => { regs with esi := value }
  | .edi => { regs with edi := value }
  | .ebp => { regs with ebp := value }
  | .esp => { regs with esp := value }

end Registers

/-- A register, or the word at a displacement from one. -/
inductive Place where
  | reg (reg : Reg)
  | mem (disp : BitVec 32) (base : Reg)
  deriving DecidableEq, Repr

inductive Operand where
  | imm (value : BitVec 32)
  | place (place : Place)
  deriving DecidableEq, Repr

/-- Instructions, with the operands in the order of the AT&T syntax.  A jump goes
to the next or to the last label of a number. -/
inductive Instr where
  | label (number : Nat)
  | mov (src : Operand) (dest : Place)
  | push (src : Operand)
  | pop (dest : Reg)
  | add (src : Operand) (dest : Reg)
  | sub (src : Operand) (dest : Reg)
  | and (src : Operand) (dest : Reg)
  | test (src : Operand) (dest : Reg)
  | jz (forward : Nat)
  | jmp (forward : Nat)
  | loop (backward : Nat)
  | jmpl (target : Reg)
  | cli
  | sti
  | int (vector : BitVec 8)
  | iret
  deriving DecidableEq, Repr

structure Machine where
  regs : Registers
  eflags : BitVec 32
  cs : BitVec 16
  ss : BitVec 16
  mem : Mem

/-- The privilege level of a selector; that of `cs` is the current one. -/
def privilege (selector : BitVec 16) : Nat := (selector &&& 3).toNat

/-- The level in a selector that has been pushed. -/
theorem setWidth_and_three (selector : BitVec 16) :
    (selector.setWidth 32 &&& 3).toNat = privilege selector := by
  have small : selector.toNat % 2 ^ 32 = selector.toNat :=
    Nat.mod_eq_of_lt (selector.isLt.trans (by decide))
  rw [BitVec.toNat_and, BitVec.toNat_setWidth, small]
  rfl

theorem setWidth_and_three_eq_zero {selector : BitVec 16} (ring0 : privilege selector = 0) :
    selector.setWidth 32 &&& 3 = 0 :=
  BitVec.eq_of_toNat_eq ((setWidth_and_three selector).trans ring0)

def zeroFlag : BitVec 32 := 0x40

def interruptFlag : BitVec 32 := 0x200

def setFlag (flag : BitVec 32) (value : Bool) (eflags : BitVec 32) : BitVec 32 :=
  if value then eflags ||| flag else eflags &&& ~~~flag

/-- A flag is what it was set to. -/
theorem setFlag_zeroFlag (value : Bool) (eflags : BitVec 32) :
    setFlag zeroFlag value eflags &&& zeroFlag ≠ 0 ↔ value = true := by
  cases value with
  | false =>
      have clear : (eflags &&& ~~~zeroFlag) &&& zeroFlag = 0 := by
        rw [BitVec.and_assoc, show ~~~zeroFlag &&& zeroFlag = 0 by decide]
        exact BitVec.and_zero
      exact iff_of_false (not_not.mpr clear) Bool.false_ne_true
  | true =>
      have set : (eflags ||| zeroFlag) &&& zeroFlag = zeroFlag := by
        ext i
        simp only [BitVec.getElem_and, BitVec.getElem_or]
        cases zeroFlag[i] <;> simp
      exact iff_of_true (by rw [setFlag, if_pos rfl, set]; decide) rfl

namespace Machine

def addressOf (machine : Machine) (disp : BitVec 32) (base : Reg) : BitVec 32 :=
  machine.regs.get base + disp

def load (machine : Machine) : Operand → BitVec 32
  | .imm value => value
  | .place (.reg reg) => machine.regs.get reg
  | .place (.mem disp base) => read32 machine.mem (machine.addressOf disp base)

def setReg (machine : Machine) (value : BitVec 32) (reg : Reg) : Machine :=
  { machine with regs := machine.regs.set value reg }

def store (machine : Machine) (value : BitVec 32) : Place → Machine
  | .reg reg => machine.setReg value reg
  | .mem disp base =>
      { machine with mem := write32 machine.mem (machine.addressOf disp base) value }

def push (machine : Machine) (value : BitVec 32) : Machine :=
  { machine with
    regs := { machine.regs with esp := machine.regs.esp - 4 }
    mem := write32 machine.mem (machine.regs.esp - 4) value }

/-- The word on top of the stack, and the machine without it. -/
def pop (machine : Machine) : BitVec 32 × Machine :=
  (read32 machine.mem machine.regs.esp,
    { machine with regs := { machine.regs with esp := machine.regs.esp + 4 } })

/-- Write the result of an arithmetic instruction. -/
def setResult (machine : Machine) (value : BitVec 32) (dest : Reg) : Machine :=
  { machine.setReg value dest with eflags := setFlag zeroFlag (value = 0) machine.eflags }

end Machine

/-- How a block is left. -/
inductive Exit where
  | fallThrough
  | jump (target : BitVec 32)
  | interrupt (vector : BitVec 8) (pc : Nat)
  deriving DecidableEq, Repr

/-- What follows an instruction. -/
inductive Next where
  | goto (pc : Nat)
  | exit (exit : Exit)
  deriving DecidableEq, Repr

/-- The next label of a number behind a position. -/
def forward (code : List Instr) (pc number : Nat) : Nat :=
  pc + 1 + (code.drop (pc + 1)).idxOf (.label number)

/-- The last label of a number in front of a position. -/
def backward (code : List Instr) (pc number : Nat) : Nat :=
  pc - 1 - ((code.take pc).reverse).idxOf (.label number)

/-- `iret`: the frame has the stack pointer and segment only when the privilege
level changes. -/
def iret (machine : Machine) : Exit × Machine :=
  let (eip, machine) := machine.pop
  let (cs, machine) := machine.pop
  let (eflags, machine) := machine.pop
  let selector := cs.setWidth 16
  if privilege machine.cs < privilege selector then
    let (esp, machine) := machine.pop
    let (ss, machine) := machine.pop
    (.jump eip,
      { machine with
        regs := { machine.regs with esp }, eflags, cs := selector, ss := ss.setWidth 16 })
  else (.jump eip, { machine with eflags, cs := selector })

/-- What an instruction does to registers, flags and memory, when it does not
jump. -/
def execute : Instr → Machine → Machine
  | .mov src dest, machine => machine.store (machine.load src) dest
  | .push src, machine => machine.push (machine.load src)
  | .pop dest, machine => machine.pop.2.setReg machine.pop.1 dest
  | .add src dest, machine =>
      machine.setResult (machine.regs.get dest + machine.load src) dest
  | .sub src dest, machine =>
      machine.setResult (machine.regs.get dest - machine.load src) dest
  | .and src dest, machine =>
      machine.setResult (machine.regs.get dest &&& machine.load src) dest
  | .test src dest, machine =>
      { machine with
        eflags := setFlag zeroFlag (machine.regs.get dest &&& machine.load src = 0) machine.eflags }
  | .loop _, machine => machine.setReg (machine.regs.ecx - 1) .ecx
  | .cli, machine => { machine with eflags := setFlag interruptFlag false machine.eflags }
  | .sti, machine => { machine with eflags := setFlag interruptFlag true machine.eflags }
  | _, machine => machine

/-- Execute the instruction at a position. -/
def step (code : List Instr) (pc : Nat) (instr : Instr) (machine : Machine) : Next × Machine :=
  match instr with
  | .jz number =>
      (if machine.eflags &&& zeroFlag ≠ 0 then .goto (forward code pc number) else .goto (pc + 1),
        machine)
  | .jmp number => (.goto (forward code pc number), machine)
  | .loop number =>
      let machine := execute instr machine
      (if machine.regs.ecx ≠ 0 then .goto (backward code pc number) else .goto (pc + 1), machine)
  | .jmpl target => (.exit (.jump (machine.regs.get target)), machine)
  | .int vector => (.exit (.interrupt vector (pc + 1)), machine)
  | .iret => (.exit (iret machine).1, (iret machine).2)
  | _ => (.goto (pc + 1), execute instr machine)

/-- Execute a block from a position; there is no result when it takes more than
`fuel` instructions. -/
def run (code : List Instr) : (fuel pc : Nat) → Machine → Option (Exit × Machine)
  | 0, _, _ => none
  | fuel + 1, pc, machine =>
      match code[pc]? with
      | none => some (.fallThrough, machine)
      | some instr =>
          match step code pc instr machine with
          | (.goto pc, machine) => run code fuel pc machine
          | (.exit exit, machine) => some (exit, machine)

/-! ## Straight-line code -/

/-- The instruction is followed by the next one. -/
def Instr.isStraight : Instr → Bool
  | .jz _ | .jmp _ | .loop _ | .jmpl _ | .int _ | .iret => false
  | _ => true

/-- Execute instructions one after the other. -/
def executeAll (block : List Instr) (machine : Machine) : Machine :=
  block.foldl (fun machine instr => execute instr machine) machine

theorem executeAll_append (first rest : List Instr) (machine : Machine) :
    executeAll (first ++ rest) machine = executeAll rest (executeAll first machine) :=
  List.foldl_append

section Run

variable {code block rest : List Instr} {fuel pc : Nat} {machine : Machine} {instr : Instr}

theorem step_straight (straight : instr.isStraight = true) :
    step code pc instr machine = (.goto (pc + 1), execute instr machine) := by
  cases instr with
  | jz _ | jmp _ | loop _ | jmpl _ | int _ | iret => cases straight
  | _ => rfl

/-- The instruction at a position, by what is left of the code there. -/
theorem fetch (left : code.drop pc = instr :: rest) : code[pc]? = some instr := by
  rw [← List.head?_drop, left, List.head?_cons]

theorem run_goto {next : Nat} {after : Machine} (left : code.drop pc = instr :: rest)
    (goes : step code pc instr machine = (.goto next, after)) :
    run code (fuel + 1) pc machine = run code fuel next after := by
  rw [run, fetch left]
  simp only [goes]

theorem run_exit {exit : Exit} {after : Machine} (left : code.drop pc = instr :: rest)
    (leaves : step code pc instr machine = (.exit exit, after)) :
    run code (fuel + 1) pc machine = some (exit, after) := by
  rw [run, fetch left]
  simp only [leaves]

theorem run_end (left : code.drop pc = []) :
    run code (fuel + 1) pc machine = some (.fallThrough, machine) := by
  rw [run, List.getElem?_eq_none (List.drop_eq_nil_iff.mp left)]

theorem run_jz_taken {number : Nat} (left : code.drop pc = .jz number :: rest)
    (zero : machine.eflags &&& zeroFlag ≠ 0) :
    run code (fuel + 1) pc machine = run code fuel (forward code pc number) machine :=
  run_goto left (by rw [step, if_pos zero])

theorem run_jz_passed {number : Nat} (left : code.drop pc = .jz number :: rest)
    (nonzero : ¬ machine.eflags &&& zeroFlag ≠ 0) :
    run code (fuel + 1) pc machine = run code fuel (pc + 1) machine :=
  run_goto left (by rw [step, if_neg nonzero])

theorem run_loop_taken {number : Nat} (left : code.drop pc = .loop number :: rest)
    (more : machine.regs.ecx - 1 ≠ 0) : run code (fuel + 1) pc machine =
      run code fuel (backward code pc number) (machine.setReg (machine.regs.ecx - 1) .ecx) :=
  run_goto left (by
    rw [step]
    exact congrArg (·, _) (if_pos more))

theorem run_loop_passed {number : Nat} (left : code.drop pc = .loop number :: rest)
    (last : machine.regs.ecx - 1 = 0) : run code (fuel + 1) pc machine =
      run code fuel (pc + 1) (machine.setReg (machine.regs.ecx - 1) .ecx) :=
  run_goto left (by
    rw [step]
    exact congrArg (·, _) (if_neg (not_not.mpr last)))

/-- Straight-line code is executed as a whole. -/
theorem run_straight (left : code.drop pc = block ++ rest)
    (straight : block.all Instr.isStraight = true) :
    run code (fuel + block.length) pc machine =
      run code fuel (pc + block.length) (executeAll block machine) := by
  induction block generalizing pc machine with
  | nil => rfl
  | cons instr block inductionHypothesis =>
      rw [List.all_cons, Bool.and_eq_true] at straight
      rw [List.cons_append] at left
      have behind : code.drop (pc + 1) = block ++ rest := by
        rw [← List.drop_drop, left, List.drop_one, List.tail_cons]
      rw [List.length_cons, ← Nat.add_assoc, run_goto left (step_straight straight.1),
        inductionHypothesis behind straight.2, Nat.add_assoc, Nat.add_comm 1]
      rfl

/-- The part of the code between two positions, if it is straight. -/
theorem run_block {count next : Nat} {after : Machine}
    (straight : ((code.drop pc).take count).all Instr.isStraight = true)
    (inside : pc + count ≤ code.length)
    (executed : executeAll ((code.drop pc).take count) machine = after) (behind : pc + count = next) :
    run code (fuel + count) pc machine = run code fuel next after := by
  have length : ((code.drop pc).take count).length = count := by
    rw [List.length_take, List.length_drop]
    omega
  have whole := @run_straight code _ ((code.drop pc).drop count) fuel pc machine
    (List.take_append_drop count _).symm straight
  rwa [length, executed, behind] at whole

end Run

/-! ## Interrupts -/

/-- What the processor takes from its tables when an interrupt arrives: the code
segment of the gate, and the stack for its privilege level. -/
structure Gate where
  selector : BitVec 16
  esp0 : BitVec 32
  ss0 : BitVec 16

/-- Enter an interrupt gate: switch stacks when the privilege level changes, push
the frame, and disable interrupts. -/
def Machine.interrupt (machine : Machine) (gate : Gate) (eip : BitVec 32) : Machine :=
  let switched :=
    if privilege gate.selector < privilege machine.cs then
      let inner := { machine with
        regs := { machine.regs with esp := gate.esp0 }, ss := gate.ss0 }
      (inner.push (machine.ss.setWidth 32)).push machine.regs.esp
    else machine
  let framed := ((switched.push machine.eflags).push (machine.cs.setWidth 32)).push eip
  { framed with cs := gate.selector, eflags := setFlag interruptFlag false machine.eflags }

/-! ## Frames without a change of level -/

/-- The three words of an interrupt frame, pushed on a stack. -/
def frameBelow (mem : Mem) (esp eflags cs eip : BitVec 32) : Mem :=
  write32 (write32 (write32 mem (esp - 4) eflags) (esp - 4 - 4) cs) (esp - 4 - 4 - 4) eip

section Frame

variable {mem : Mem} {esp eflags cs eip addr : BitVec 32}

theorem read32_frameBelow (mem : Mem) (esp eflags cs eip : BitVec 32) :
    let framed := frameBelow mem esp eflags cs eip
    read32 framed (esp - 4 - 4 - 4) = eip ∧ read32 framed (esp - 4 - 4) = cs ∧
      read32 framed (esp - 4) = eflags := by
  have next : ∀ base : BitVec 32, Apart (base - 4) 4 base 4 := by
    intro base
    constructor <;> bv_omega
  have far : Apart (esp - 4 - 4 - 4) 4 (esp - 4) 4 := by
    constructor <;> bv_omega
  refine ⟨read32_write32 _ _ _, ?_, ?_⟩
  · rw [frameBelow, read32_write32_of_apart _ _ (next _), read32_write32]
  · rw [frameBelow, read32_write32_of_apart _ _ far, read32_write32_of_apart _ _ (next _),
      read32_write32]

theorem frameBelow_of_outside (outside : 12 ≤ (addr - (esp - 12)).toNat) :
    frameBelow mem esp eflags cs eip addr = mem addr := by
  rw [frameBelow, write32_of_outside _ _ (by bv_omega), write32_of_outside _ _ (by bv_omega),
    write32_of_outside _ _ (by bv_omega)]

/-- Entering a gate of the caller's level. -/
theorem interrupt_same {machine : Machine} {gate : Gate} {eip : BitVec 32}
    (same : ¬ privilege gate.selector < privilege machine.cs) :
    machine.interrupt gate eip =
      ⟨{ machine.regs with esp := machine.regs.esp - 4 - 4 - 4 },
        setFlag interruptFlag false machine.eflags, gate.selector, machine.ss,
        frameBelow machine.mem machine.regs.esp machine.eflags (machine.cs.setWidth 32) eip⟩ := by
  rw [Machine.interrupt]
  simp only [if_neg same]
  rfl

/-- `iret` takes such a frame again. -/
theorem iret_frameBelow (mem : Mem) {machine : Machine}
    (framed : machine.mem = frameBelow mem esp eflags cs eip)
    (bottom : machine.regs.esp = esp - 4 - 4 - 4)
    (same : ¬ privilege machine.cs < privilege (cs.setWidth 16)) :
    iret machine = (.jump eip,
      ⟨{ machine.regs with esp }, eflags, cs.setWidth 16, machine.ss, machine.mem⟩) := by
  rcases read32_frameBelow mem esp eflags cs eip with ⟨first, second, third⟩
  rw [← framed] at first second third
  have inner : ¬ privilege machine.cs <
      privilege ((read32 machine.mem (machine.regs.esp + 4)).setWidth 16) := by
    rwa [bottom, sub_add_cancel, second]
  have popped : iret machine = (.jump (read32 machine.mem machine.regs.esp),
      ⟨{ machine.regs with esp := machine.regs.esp + 4 + 4 + 4 },
        read32 machine.mem (machine.regs.esp + 4 + 4),
        (read32 machine.mem (machine.regs.esp + 4)).setWidth 16, machine.ss, machine.mem⟩) :=
    if_neg inner
  simp only [popped, bottom, sub_add_cancel, first, second, third]

end Frame

end X86
