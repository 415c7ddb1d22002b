import Mathlib
import WeakOS.X86.Arithmetic
import WeakOS.Foundation.RoundRobin
import WeakOS.Syscall.Context

namespace WeakOS

open X86 Foundation

namespace Tasks

/-!
# Switching tasks

The handler of interrupt c8h, which saves the registers of the running task in
its entry of `tasks` and loads those of the next one, and `mk_task`, which
prepares an entry.  Where the linker has put the statics is a parameter; they
do not overlap.
-/

def taskStackSize : Nat := 0x1000

/-- The size of a `task`: the ten words of `reg_values`, and the stack. -/
def taskSize : Nat := 40 + taskStackSize

/-- The addresses of `tasks`, `cur_task` and `task_cnt`, the initial value of
`task_cnt`, and the functions that `main` gives to the tasks. -/
structure Layout where
  tasks : BitVec 32
  curTask : BitVec 32
  taskCnt : BitVec 32
  count : Nat
  entry : Nat → BitVec 32
  positive : 0 < count
  fits : count * taskSize ≤ 2 ^ 32
  curTaskApart : Apart tasks (count * taskSize) curTask 4
  taskCntApart : Apart tasks (count * taskSize) taskCnt 4
  wordsApart : Apart curTask 4 taskCnt 4

namespace Layout

variable (layout : Layout)

/-- The address of `tasks[i]`, which begins with `reg`. -/
def task (i : Nat) : BitVec 32 := layout.tasks + BitVec.ofNat 32 (i * taskSize)

/-- The end of the stack of `tasks[i]`. -/
def stackTop (i : Nat) : BitVec 32 := layout.task i + 40 + BitVec.ofNat 32 taskStackSize

end Layout

/-! ## The handler -/

section Code

variable (layout : Layout)

/-- The beginning of `c8_handler_i`, up to `mul`. -/
def c8Enter : List Instr :=
  [.cli,
    .push (.place (.reg .ebp)),
    .mov (.place (.reg .esp)) (.reg .ebp),
    .sub (.imm 20) .esp,
    .mov (.place (.reg .eax)) (.mem (-4) .ebp),
    .mov (.place (.reg .ebx)) (.mem (-8) .ebp),
    .mov (.place (.reg .edx)) (.mem (-12) .ebp),
    .mov (.imm layout.tasks) (.reg .ebx),
    .mov (.imm layout.curTask) (.reg .eax),
    .mov (.imm (BitVec.ofNat 32 taskSize)) (.reg .edx),
    .mov (.place (.mem 0 .eax)) (.reg .eax)]

/-- From `mul` to `inc`: the task is saved. -/
def c8Save : List Instr :=
  [.add (.place (.reg .eax)) .ebx,
    .mov (.place (.mem (-4) .ebp)) (.reg .eax),
    .mov (.place (.reg .eax)) (.mem 0 .ebx),
    .mov (.place (.mem (-8) .ebp)) (.reg .eax),
    .mov (.place (.reg .eax)) (.mem 4 .ebx),
    .mov (.place (.reg .ecx)) (.mem 8 .ebx),
    .mov (.place (.mem (-12) .ebp)) (.reg .eax),
    .mov (.place (.reg .eax)) (.mem 12 .ebx),
    .mov (.place (.reg .esi)) (.mem 16 .ebx),
    .mov (.place (.reg .edi)) (.mem 20 .ebx),
    .mov (.place (.mem 8 .ebp)) (.reg .eax),
    .and (.imm 3) .eax,
    .test (.place (.reg .eax)) .eax,
    .jz 1,
    .mov (.place (.mem 16 .ebp)) (.reg .eax),
    .jmp 2,
    .label 1, .mov (.place (.reg .ebp)) (.reg .eax),
    .add (.imm 16) .eax,
    .label 2, .mov (.place (.reg .eax)) (.mem 24 .ebx),
    .mov (.place (.mem 0 .ebp)) (.reg .eax),
    .mov (.place (.reg .eax)) (.mem 28 .ebx),
    .mov (.place (.mem 4 .ebp)) (.reg .eax),
    .mov (.place (.reg .eax)) (.mem 32 .ebx),
    .mov (.place (.mem 12 .ebp)) (.reg .eax),
    .mov (.place (.reg .eax)) (.mem 36 .ebx),
    .mov (.imm layout.curTask) (.reg .ecx),
    .mov (.place (.mem 0 .ecx)) (.reg .eax)]

/-- From the last `mul` on: the next task is loaded. -/
def c8Load : List Instr :=
  [.add (.place (.reg .eax)) .ebx,
    .mov (.place (.mem 8 .ebx)) (.reg .ecx),
    .mov (.place (.mem 12 .ebx)) (.reg .edx),
    .mov (.place (.mem 16 .ebx)) (.reg .esi),
    .mov (.place (.mem 20 .ebx)) (.reg .edi),
    .mov (.place (.mem 24 .ebx)) (.reg .esp),
    .mov (.place (.mem 28 .ebx)) (.reg .ebp),
    .mov (.place (.mem 36 .ebx)) (.reg .eax),
    .push (.place (.reg .eax)),
    .mov (.place (.mem 32 .ebx)) (.reg .eax),
    .push (.imm 8),
    .push (.place (.reg .eax)),
    .mov (.place (.mem 0 .ebx)) (.reg .eax),
    .mov (.place (.mem 4 .ebx)) (.reg .ebx),
    .iret]

/-- From `inc` to the last `mul`: `cur_task` is advanced. -/
def c8Advance : List Part :=
  [.arith (.inc .eax),
    .arith (.xor .edx .edx),
    .block
      [.mov (.imm layout.taskCnt) (.reg .esi),
        .mov (.place (.mem 0 .esi)) (.reg .esi)],
    .arith (.div .esi),
    .block
      [.mov (.place (.reg .edx)) (.mem 0 .ecx),
        .mov (.imm layout.tasks) (.reg .ebx),
        .mov (.imm (BitVec.ofNat 32 taskSize)) (.reg .eax)],
    .arith (.xchg .edx .eax),
    .arith (.mul .edx)]

/-- The code of `c8_handler_i`. -/
def c8HandlerI : List Part :=
  .block (c8Enter layout) :: .arith (.mul .edx) :: .block (c8Save layout) :: (c8Advance layout ++ [.block c8Load])

end Code

/-- The gate that `set_c8` writes. -/
def c8Gate (esp0 : BitVec 32) (ss0 : BitVec 16) : Gate := ⟨8, esp0, ss0⟩

/-- `mk_task` for the task at an address. -/
def mkTask (t fn : BitVec 32) (mem : Mem) : Mem :=
  let mem := write32 mem (t + 24) (t + 40 + BitVec.ofNat 32 taskStackSize)
  let mem := write32 mem (t + 32) fn
  write32 mem (t + 36) 0x200

/-- `main` up to the start of task 0: the calls of `mk_task`, in order. -/
def mkTasks (layout : Layout) (mem : Mem) : Mem :=
  (List.range layout.count).foldl (fun mem i => mkTask (layout.task i) (layout.entry i) mem) mem

/-! ## Running -/

/-- What a task sees of itself: the registers, the instruction pointer and the
flags. -/
structure Context where
  regs : Registers
  eip : BitVec 32
  eflags : BitVec 32
  deriving DecidableEq, Repr

/-- The processor, with the instruction that is next, and the tasks as a
scheduler has them.  The latter is not in memory; it records what was switched. -/
structure System where
  machine : Machine
  eip : BitVec 32
  tasks : RoundRobin.Tasks Context

/-- The context of the task that runs. -/
def System.context (system : System) : Context :=
  ⟨system.machine.regs, system.eip, system.machine.eflags⟩

/-- A task runs some code, or gives up the processor by `int $0xc8`; the
instruction pointer is then behind that instruction. -/
inductive Event where
  | code (machine : Machine) (eip : BitVec 32)
  | int0xc8 (esp0 : BitVec 32) (ss0 : BitVec 16)

/-- The handler, from the interrupt to the jump out of it. -/
def c8Handler (layout : Layout) (gate : Gate) (eip : BitVec 32) (machine : Machine) :
    Option (Exit × Machine) :=
  runParts 64 (c8HandlerI layout) (machine.interrupt gate eip)

/-- Where the handler has jumped to, a task goes on. -/
def resume (tasks : RoundRobin.Tasks Context) : Option (Exit × Machine) → Option System
  | some (.jump eip, machine) => some ⟨machine, eip, tasks⟩
  | _ => none

def step (layout : Layout) (system : System) : Event → Option System
  | .code machine eip => some { system with machine, eip }
  | .int0xc8 esp0 ss0 =>
      resume (system.tasks.switch layout.count system.context)
        (c8Handler layout (c8Gate esp0 ss0) system.eip system.machine)

end Tasks

end WeakOS
