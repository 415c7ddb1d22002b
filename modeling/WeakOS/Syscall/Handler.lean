import Mathlib
import WeakOS.Syscall.Context

namespace WeakOS

open X86

namespace Syscall

/-!
# System calls from the kernel's side

The handler finds the frame of the interrupt through the saved stack pointer, and
for this takes the frame to lie on the stack of the caller, as it does when the
caller is in ring 0.
-/

/-- A command takes the address of its frame, and has a result. -/
abbrev SyscallFunction := BitVec 32 → Mem → BitVec 32 × Mem

def syscallInterrupt : BitVec 8 := 0xc9

def syscallMaxCmd : Nat := 0x100

/-- The statics of `syscall`, and the address of its handler. -/
structure Kernel where
  task : BitVec 32
  handler : BitVec 32
  cmds : Fin (syscallMaxCmd + 1) → Option SyscallFunction

/-- The registers as the compiler has left them where the assembly of `run_indir`
begins; one of them has the address of the task. -/
structure Compiled (task : BitVec 32) where
  regs : Registers
  eflags : BitVec 32
  operand : Reg
  holds : regs.get operand = task

/-- The gate that `set_int` writes. -/
def syscallGate (esp0 : BitVec 32) (ss0 : BitVec 16) : Gate := ⟨8, esp0, ss0⟩

namespace Kernel

variable (kernel : Kernel)

def frame (mem : Mem) : BitVec 32 := read32 mem (kernel.task + 24) - 12

/-- The command: the first word on the stack that the frame names if it is from
another level, and else the word behind the frame. -/
def cmd (mem : Mem) : BitVec 32 :=
  if read32 mem (kernel.frame mem + 4) &&& 3 ≠ 0 then read32 mem (read32 mem (kernel.frame mem + 12))
  else read32 mem (kernel.frame mem + 12)

/-- Where the frame of the command begins. -/
def stackframe (mem : Mem) : BitVec 32 := kernel.frame mem + 16

/-- The function of a command, when it has one. -/
def function (cmd : BitVec 32) : Option SyscallFunction :=
  if inside : cmd.toNat < syscallMaxCmd + 1 then
    if cmd ≠ 0 then kernel.cmds ⟨cmd.toNat, inside⟩ else none
  else none

/-- `syscall_handler`, without the `run_indir` at its end. -/
def syscallHandler (mem : Mem) : Mem :=
  match kernel.function (kernel.cmd mem) with
  | some function =>
      let (result, after) := function (kernel.stackframe mem) mem
      write32 after (kernel.frame mem + 12) result
  | none => mem

section Dispatch

variable {kernel : Kernel} {mem : Mem}

theorem syscallHandler_registered {function : SyscallFunction}
    (registered : kernel.function (kernel.cmd mem) = some function) :
    kernel.syscallHandler mem = write32 (function (kernel.stackframe mem) mem).2
      (kernel.frame mem + 12) (function (kernel.stackframe mem) mem).1 := by
  rw [syscallHandler, registered]

theorem syscallHandler_unregistered (unregistered : kernel.function (kernel.cmd mem) = none) :
    kernel.syscallHandler mem = mem := by
  rw [syscallHandler, unregistered]

end Dispatch

/-- From the entry of the interrupt to the handler. -/
def enter (entry : Machine) : Option Machine :=
  match run (saveContextAndGo kernel.task kernel.handler) 64 0 entry with
  | some (.jump target, entered) => if target = kernel.handler then some entered else none
  | _ => none

/-- From the entry of the interrupt to the `iret`. -/
def systemCall (compiled : Compiled kernel.task) (entry : Machine) : Option (Exit × Machine) :=
  match kernel.enter entry with
  | some entered =>
      run (runIndir compiled.operand) 64 0
        { entered with
          regs := compiled.regs, eflags := compiled.eflags, mem := kernel.syscallHandler entered.mem }
  | none => none

/-- The command that the handler calls in this memory, if it calls one, leaves the
saved task as it is. -/
def KeepsTask (mem : Mem) : Prop :=
  ∀ function, kernel.function (kernel.cmd mem) = some function → ∀ addr,
    (addr - kernel.task).toNat < 40 → (function (kernel.stackframe mem) mem).2 addr = mem addr

/-- It leaves the saved `esp` and `eip`, by which the way back is found. -/
def KeepsReturn (mem : Mem) : Prop :=
  ∀ function, kernel.function (kernel.cmd mem) = some function →
    read32 (function (kernel.stackframe mem) mem).2 (kernel.task + 24) =
        read32 mem (kernel.task + 24) ∧
      read32 (function (kernel.stackframe mem) mem).2 (kernel.task + 32) =
        read32 mem (kernel.task + 32)

/-! ## Entering -/

/-- The state of the handler, for a caller that has the frame on its stack. -/
structure Entered (caller : Machine) (eip : BitVec 32) (entered : Machine) : Prop where
  saved : Saved kernel.task entered.mem caller.regs eip caller.eflags
  selector : read32 entered.mem (caller.regs.esp - 12 + 4) = caller.cs.setWidth 32
  kept : ∀ addr, 28 ≤ (addr - (caller.regs.esp - 28)).toNat → 40 ≤ (addr - kernel.task).toNat →
    entered.mem addr = caller.mem addr
  segment : entered.cs = 8
  stack : entered.ss = caller.ss

variable {kernel}

theorem enter_eq {entry : Machine} (apart : Apart (entry.regs.esp - 16) 32 kernel.task 40) :
    ∃ stack regs eflags,
      kernel.enter entry = some ⟨regs, eflags, entry.cs, entry.ss, storeWords stack kernel.task
        (contextWords { entry.regs with esp := callerEsp entry.regs.esp entry.mem }
          (read32 entry.mem entry.regs.esp) (read32 entry.mem (entry.regs.esp + 8)))⟩ ∧
      ∀ addr, 16 ≤ (addr - (entry.regs.esp - 16)).toNat → stack addr = entry.mem addr := by
  rcases @run_saveContextAndGo kernel.task kernel.handler entry apart 64 (by decide) with
    ⟨stack, regs, eflags, saved, outside⟩
  refine ⟨stack, regs, eflags, ?_, outside⟩
  rw [enter, saved]
  exact if_pos rfl

/-- The code of the kernel is in ring 0. -/
theorem privilege_of_eq_eight {selector : BitVec 16} (kernelCode : selector = 8) :
    privilege selector = 0 := by
  rw [kernelCode]
  rfl

/-- From ring 0 the frame lies on the stack of the caller. -/
theorem enter_interrupt {caller : Machine} (ring0 : privilege caller.cs = 0)
    (apart : Apart (caller.regs.esp - 28) 32 kernel.task 40) (esp0 : BitVec 32) (ss0 : BitVec 16)
    (eip : BitVec 32) : ∃ entered,
      kernel.enter (caller.interrupt (syscallGate esp0 ss0) eip) = some entered ∧
        kernel.Entered caller eip entered := by
  have inner : ¬ privilege (syscallGate esp0 ss0).selector < privilege caller.cs := by
    rw [ring0]
    exact Nat.not_lt_zero _
  rw [interrupt_same inner]
  generalize framedEq : frameBelow caller.mem caller.regs.esp caller.eflags (caller.cs.setWidth 32)
    eip = framed
  have words := read32_frameBelow caller.mem caller.regs.esp caller.eflags (caller.cs.setWidth 32) eip
  rw [framedEq] at words
  rcases words with ⟨atEip, atCs, atEflags⟩
  have eipAt : caller.regs.esp - 12 = caller.regs.esp - 4 - 4 - 4 := by bv_omega
  have csAt : caller.regs.esp - 12 + 4 = caller.regs.esp - 4 - 4 := by bv_omega
  have eflagsAt : caller.regs.esp - 12 + 8 = caller.regs.esp - 4 := by bv_omega
  have top : caller.regs.esp - 12 + 12 = caller.regs.esp := sub_add_cancel _ _
  have bottom : caller.regs.esp - 12 - 16 = caller.regs.esp - 28 := by bv_omega
  have esp : callerEsp (caller.regs.esp - 12) framed = caller.regs.esp := by
    rw [callerEsp, csAt, atCs, if_pos (setWidth_and_three_eq_zero ring0), top]
  rw [← eipAt] at atEip ⊢
  rcases @enter_eq kernel ⟨{ caller.regs with esp := caller.regs.esp - 12 },
    setFlag interruptFlag false caller.eflags, 8, caller.ss, framed⟩ (bottom ▸ apart) with
    ⟨stack, regs, eflags, entered, outside⟩
  simp only [bottom, eflagsAt, atEip, atEflags, esp] at entered outside
  refine ⟨_, entered, saved_storeWords, ?_, fun addr belowStack belowTask => ?_, rfl, rfl⟩
  · have apartTask : Apart kernel.task 40 (caller.regs.esp - 12 + 4) 4 := by
      rcases apart with ⟨above, below⟩
      constructor <;> bv_omega
    refine (read32_storeWords_of_apart apartTask).trans ?_
    rw [read32_congr fun addr near => outside addr (by bv_omega), csAt, atCs]
  · have unsaved := @storeWords_of_outside stack kernel.task addr
      (contextWords caller.regs eip caller.eflags) belowTask
    refine unsaved.trans ?_
    rw [outside addr (by omega), ← framedEq, frameBelow_of_outside (by bv_omega)]

/-! ## Handling -/

section Handled

variable {caller entered : Machine} {eip : BitVec 32}

theorem Entered.frame (inside : kernel.Entered caller eip entered) :
    kernel.frame entered.mem = caller.regs.esp - 12 := by
  have esp : read32 entered.mem (kernel.task + 24) = caller.regs.esp := inside.saved 6 (by decide)
  rw [Kernel.frame, esp]

theorem Entered.stackframe (inside : kernel.Entered caller eip entered) :
    kernel.stackframe entered.mem = caller.regs.esp + 4 := by
  rw [Kernel.stackframe, inside.frame]
  bv_omega

theorem Entered.frame_top (inside : kernel.Entered caller eip entered) :
    kernel.frame entered.mem + 12 = caller.regs.esp := by
  rw [inside.frame]
  exact sub_add_cancel _ _

/-- The stack of the caller is as it was. -/
theorem Entered.read32_above (inside : kernel.Entered caller eip entered) {addr : BitVec 32}
    (above : Apart (caller.regs.esp - 28) 28 addr 4) (apart : Apart kernel.task 40 addr 4) :
    read32 entered.mem addr = read32 caller.mem addr := by
  rcases above with ⟨outer, inner⟩
  rcases apart with ⟨behind, before⟩
  exact read32_congr fun byte near => inside.kept byte (by bv_omega) (by bv_omega)

theorem Entered.cmd (inside : kernel.Entered caller eip entered) (ring0 : privilege caller.cs = 0)
    (apart : Apart (caller.regs.esp - 28) 32 kernel.task 40) :
    kernel.cmd entered.mem = read32 caller.mem caller.regs.esp := by
  rw [Kernel.cmd, inside.frame_top, inside.frame, inside.selector, setWidth_and_three_eq_zero ring0,
    if_neg (not_not.mpr rfl)]
  rcases apart with ⟨above, below⟩
  apply inside.read32_above
  · constructor <;> bv_omega
  · constructor <;> bv_omega

/-- The task is still there when the handler is done. -/
theorem Entered.handled (inside : kernel.Entered caller eip entered)
    (keeps : kernel.KeepsTask entered.mem)
    (apart : Apart (caller.regs.esp - 28) 32 kernel.task 40) :
    Saved kernel.task (kernel.syscallHandler entered.mem) caller.regs eip caller.eflags := by
  apply inside.saved.congr
  intro addr inTask
  cases found : kernel.function (kernel.cmd entered.mem) with
  | none => rw [syscallHandler_unregistered found]
  | some function =>
      rcases apart with ⟨above, below⟩
      rw [syscallHandler_registered found, inside.frame_top, write32_of_outside _ _ (by bv_omega),
        keeps _ found _ inTask]

/-- The way back restores everything except the code segment, which is that of the kernel. -/
theorem Entered.systemCall (inside : kernel.Entered caller eip entered) {entry : Machine}
    (enters : kernel.enter entry = some entered) (keeps : kernel.KeepsTask entered.mem)
    (apart : Apart (caller.regs.esp - 28) 32 kernel.task 40) (compiled : Compiled kernel.task) :
    kernel.systemCall compiled entry = some (.jump eip,
      { caller with
        cs := 8
        mem := frameBelow (kernel.syscallHandler entered.mem) caller.regs.esp caller.eflags 8 eip }) := by
  have part : Apart (caller.regs.esp - 12) 12 kernel.task 40 := by
    rcases apart with ⟨above, below⟩
    constructor <;> bv_omega
  have restored := @run_runIndir_saved compiled.operand kernel.task caller.eflags entered.cs entered.ss
    (kernel.syscallHandler entered.mem) compiled.regs caller.regs eip compiled.eflags
    (inside.handled keeps apart) part 64 (by decide) compiled.holds
  simp only [Kernel.systemCall, enters, ← inside.stack]
  exact restored

/-- The result is stored outside of the saved task. -/
theorem Entered.read32_handled (inside : kernel.Entered caller eip entered)
    (apart : Apart (caller.regs.esp - 28) 32 kernel.task 40) {k : BitVec 32} (small : k.toNat + 4 ≤ 40) :
    read32 (kernel.syscallHandler entered.mem) (kernel.task + k) =
      match kernel.function (kernel.cmd entered.mem) with
      | some function =>
          read32 (function (kernel.stackframe entered.mem) entered.mem).2 (kernel.task + k)
      | none => read32 entered.mem (kernel.task + k) := by
  cases found : kernel.function (kernel.cmd entered.mem) with
  | none => rw [syscallHandler_unregistered found]
  | some function =>
      rcases apart with ⟨above, below⟩
      rw [syscallHandler_registered found, inside.frame_top]
      exact read32_congr fun byte near => write32_of_outside _ _ (by bv_omega)

/-- What the handler has left of the saved `esp` and `eip` decides where the way back goes. -/
theorem Entered.keepsReturn_iff (inside : kernel.Entered caller eip entered)
    (apart : Apart (caller.regs.esp - 28) 32 kernel.task 40) :
    kernel.KeepsReturn entered.mem ↔
      read32 (kernel.syscallHandler entered.mem) (kernel.task + 24) = caller.regs.esp ∧
        read32 (kernel.syscallHandler entered.mem) (kernel.task + 32) = eip := by
  have esp : read32 entered.mem (kernel.task + 24) = caller.regs.esp := inside.saved 6 (by decide)
  have back : read32 entered.mem (kernel.task + 32) = eip := inside.saved 8 (by decide)
  have espLeft := @Entered.read32_handled kernel caller entered eip inside apart 24 (by decide)
  have backLeft := @Entered.read32_handled kernel caller entered eip inside apart 32 (by decide)
  rw [KeepsReturn, esp, back]
  cases found : kernel.function (kernel.cmd entered.mem) with
  | none =>
      simp only [found] at espLeft backLeft
      constructor
      · intro
        exact ⟨espLeft.trans esp, backLeft.trans back⟩
      · intro _ function registered
        cases registered
  | some function =>
      simp only [found] at espLeft backLeft
      rw [espLeft, backLeft]
      constructor
      · intro keeps
        exact keeps function rfl
      · intro returns other same
        cases same
        exact returns

/-- The way back goes to ring 0, with the saved `esp`, and to the saved `eip` when the
frame of the `iret` does not lie over it. -/
theorem Entered.systemCall_returned (inside : kernel.Entered caller eip entered) {entry : Machine}
    (enters : kernel.enter entry = some entered) (compiled : Compiled kernel.task) :
    ∃ regs eflags target,
      let handled := kernel.syscallHandler entered.mem
      kernel.systemCall compiled entry = some (.jump target,
        ⟨regs, eflags, 8, caller.ss, frameBelow handled regs.esp eflags 8 target⟩) ∧
      regs.esp = read32 handled (kernel.task + 24) ∧
      (Apart (regs.esp - 4) 4 kernel.task 40 → target = read32 handled (kernel.task + 32)) := by
  rcases compiled with ⟨⟨eax, ebx, ecx, edx, esi, edi, ebp, esp⟩, eflags, operand, holds⟩
  have returned := @run_runIndir operand kernel.task eax ebx ecx edx esi edi ebp esp eflags entered.cs
    entered.ss (kernel.syscallHandler entered.mem) 64 (by decide) holds
  simp only [Kernel.systemCall, enters, ← inside.stack]
  refine ⟨_, _, _, returned, rfl, fun apart => ?_⟩
  rcases apart with ⟨above, below⟩
  apply read32_write32_of_apart
  constructor <;> bv_omega

/-- When the saved `esp` and `eip` are left alone, the way back goes to the caller's `eip` and stack. -/
theorem Entered.systemCall_keepsReturn (inside : kernel.Entered caller eip entered) {entry : Machine}
    (enters : kernel.enter entry = some entered) (keeps : kernel.KeepsReturn entered.mem)
    (apart : Apart (caller.regs.esp - 28) 32 kernel.task 40) (compiled : Compiled kernel.task) :
    ∃ regs eflags, regs.esp = caller.regs.esp ∧
      kernel.systemCall compiled entry = some (.jump eip, ⟨regs, eflags, 8, caller.ss,
        frameBelow (kernel.syscallHandler entered.mem) caller.regs.esp eflags 8 eip⟩) := by
  rcases (inside.keepsReturn_iff apart).mp keeps with ⟨esp, back⟩
  rcases inside.systemCall_returned enters compiled with ⟨regs, eflags, target, returned, stack, found⟩
  have restored := stack.trans esp
  have part : Apart (regs.esp - 4) 4 kernel.task 40 := by
    rcases apart with ⟨above, below⟩
    rw [restored]
    constructor <;> bv_omega
  rw [found part, back, restored] at returned
  exact ⟨regs, eflags, restored, returned⟩

theorem read32_frameBelow_top (mem : Mem) (esp eflags cs eip : BitVec 32) :
    read32 (frameBelow mem esp eflags cs eip) esp = read32 mem esp :=
  read32_congr fun addr near => frameBelow_of_outside (by bv_omega)

/-- Where the command was is now its result; above that the memory is as the command
has left it. -/
theorem Entered.read32_result (inside : kernel.Entered caller eip entered)
    {function : SyscallFunction} (found : kernel.function (kernel.cmd entered.mem) = some function)
    (eflags : BitVec 32) :
    let after := frameBelow (kernel.syscallHandler entered.mem) caller.regs.esp eflags 8 eip
    read32 after caller.regs.esp = (function (caller.regs.esp + 4) entered.mem).1 ∧
      ∀ addr, 16 ≤ (addr - (caller.regs.esp - 12)).toNat →
        after addr = (function (caller.regs.esp + 4) entered.mem).2 addr := by
  intro after
  have handled := syscallHandler_registered found
  rw [inside.frame_top, inside.stackframe] at handled
  constructor
  · rw [read32_frameBelow_top, handled, read32_write32]
  · intro addr outside
    have framed : after addr = kernel.syscallHandler entered.mem addr :=
      frameBelow_of_outside (by omega)
    rw [framed, handled, write32_of_outside _ _ (by bv_omega)]

end Handled

/-- Whoever has called, the system call goes on in ring 0. -/
theorem systemCall_of_enter {entry entered : Machine} (enters : kernel.enter entry = some entered)
    (compiled : Compiled kernel.task) :
    ∃ exit after, kernel.systemCall compiled entry = some (exit, after) ∧ after.cs = 8 := by
  rcases compiled with ⟨⟨eax, ebx, ecx, edx, esi, edi, ebp, esp⟩, eflags, operand, holds⟩
  rw [Kernel.systemCall, enters]
  exact ⟨_, _, run_runIndir (by decide) holds, rfl⟩

theorem systemCall_segment {compiled : Compiled kernel.task} {entry after : Machine} {exit : Exit}
    (returned : kernel.systemCall compiled entry = some (exit, after)) : after.cs = 8 := by
  cases enters : kernel.enter entry with
  | none =>
      rw [systemCall, enters] at returned
      cases returned
  | some entered =>
      rcases systemCall_of_enter enters compiled with ⟨_, _, same, segment⟩
      cases same.symm.trans returned
      exact segment

/-! ## Callers -/

/-- For a caller in the code segment of the kernel, everything is as it was behind
the `int`, except for the word on the stack that had the command: there is the
result. -/
theorem systemCall_transparent {caller : Machine} (ring0 : caller.cs = 8)
    (apart : Apart (caller.regs.esp - 28) 32 kernel.task 40) (compiled : Compiled kernel.task)
    (esp0 : BitVec 32) (ss0 : BitVec 16) (eip : BitVec 32)
    (keeps : ∀ entered, kernel.enter (caller.interrupt (syscallGate esp0 ss0) eip) = some entered →
      kernel.KeepsTask entered.mem) : ∃ entered after,
      kernel.enter (caller.interrupt (syscallGate esp0 ss0) eip) = some entered ∧
      (∀ addr, 28 ≤ (addr - (caller.regs.esp - 28)).toNat → 40 ≤ (addr - kernel.task).toNat →
        entered.mem addr = caller.mem addr) ∧
      kernel.systemCall compiled (caller.interrupt (syscallGate esp0 ss0) eip) =
        some (.jump eip, { caller with mem := after }) ∧
      match kernel.function (read32 caller.mem caller.regs.esp) with
      | some function =>
          let (result, handled) := function (caller.regs.esp + 4) entered.mem
          read32 after caller.regs.esp = result ∧
            ∀ addr, 16 ≤ (addr - (caller.regs.esp - 12)).toNat → after addr = handled addr
      | none =>
          read32 after caller.regs.esp = read32 caller.mem caller.regs.esp ∧
            ∀ addr, 12 ≤ (addr - (caller.regs.esp - 12)).toNat → after addr = entered.mem addr := by
  have level := privilege_of_eq_eight ring0
  rcases enter_interrupt level apart esp0 ss0 eip with ⟨entered, enters, inside⟩
  have returned := inside.systemCall enters (keeps entered enters) apart compiled
  rw [← ring0] at returned
  refine ⟨entered, _, enters, inside.kept, returned, ?_⟩
  have cmd := inside.cmd level apart
  cases found : kernel.function (read32 caller.mem caller.regs.esp) with
  | none =>
      rw [← cmd] at found
      dsimp only
      rw [syscallHandler_unregistered found, read32_frameBelow_top]
      refine ⟨?_, fun addr outside => frameBelow_of_outside outside⟩
      rcases apart with ⟨above, below⟩
      apply inside.read32_above
      · constructor <;> bv_omega
      · constructor <;> bv_omega
  | some function =>
      rw [← cmd] at found
      exact inside.read32_result found caller.eflags

/-- A command that returns its first argument. -/
def echo : SyscallFunction := fun stackframe mem => (read32 mem (stackframe + 4), mem)

def echoKernel : Kernel where
  task := 0x10000
  handler := 0x2000
  cmds cmd := if cmd = 1 then some echo else none

theorem echoKernel_function {cmd : BitVec 32} {function : SyscallFunction}
    (registered : echoKernel.function cmd = some function) : function = echo := by
  rw [Kernel.function] at registered
  split at registered
  · split at registered
    · dsimp only [echoKernel] at registered
      split at registered
      · exact (Option.some.inj registered).symm
      · cases registered
    · cases registered
  · cases registered

theorem echoKernel_keepsTask (mem : Mem) : echoKernel.KeepsTask mem := by
  intro function registered addr _
  rw [echoKernel_function registered]
  rfl

theorem echoKernel_keepsReturn (mem : Mem) : echoKernel.KeepsReturn mem := by
  intro function registered
  rw [echoKernel_function registered]
  exact ⟨rfl, rfl⟩

def echoCompiled : Compiled echoKernel.task := ⟨⟨0x10000, 0, 0, 0, 0, 0, 0, 0⟩, 0, .eax, rfl⟩

/-- A caller of `echo`, with 42 as its argument. -/
def echoCaller (cs : BitVec 16) : Machine :=
  ⟨⟨1, 2, 3, 4, 5, 6, 7, 0x8000⟩, 0x202, cs, 0x10,
    storeWords (fun _ => 0) 0x8000 [1, 1, 42]⟩

theorem systemCall_transparent_echo : ∃ after,
    echoKernel.systemCall echoCompiled ((echoCaller 8).interrupt (syscallGate 0 0x10) 0x1234) =
      some (.jump 0x1234, { echoCaller 8 with mem := after }) ∧ read32 after 0x8000 = 42 := by
  rcases @systemCall_transparent echoKernel (echoCaller 8) rfl (by decide) echoCompiled 0 0x10 0x1234
    (fun entered _ => echoKernel_keepsTask entered.mem) with ⟨entered, after, _, kept, returned, result⟩
  have cmd : read32 (echoCaller 8).mem (echoCaller 8).regs.esp = 1 := by decide +kernel
  have argument : read32 entered.mem ((echoCaller 8).regs.esp + 4 + 4) = 42 := by
    have same : read32 entered.mem 0x8008 = read32 (echoCaller 8).mem 0x8008 :=
      read32_congr fun addr near => kept addr (by
        simp only [echoCaller]
        bv_omega) (by
        simp only [echoKernel]
        bv_omega)
    exact same.trans (by decide +kernel)
  rw [cmd] at result
  exact ⟨after, returned, result.1.trans argument⟩

/-- The system call goes back to where it was called from, to the same segment and
the same stack, and has had its command and its frame from there. -/
def ReturnsToCaller (kernel : Kernel) (compiled : Compiled kernel.task) (esp0 : BitVec 32)
    (ss0 : BitVec 16) (caller : Machine) (eip : BitVec 32) : Prop :=
  ∃ entered after,
    kernel.enter (caller.interrupt (syscallGate esp0 ss0) eip) = some entered ∧
    kernel.systemCall compiled (caller.interrupt (syscallGate esp0 ss0) eip) = some (.jump eip, after) ∧
    after.cs = caller.cs ∧ privilege after.cs = privilege caller.cs ∧
    after.regs.esp = caller.regs.esp ∧
    kernel.cmd entered.mem = read32 caller.mem caller.regs.esp ∧
    kernel.stackframe entered.mem = caller.regs.esp + 4

/-- `run_indir` pushes the selector of the kernel, so only that caller is gone back to,
and only when the command leaves the saved `esp` and `eip` alone. -/
theorem returnsToCaller_iff {caller : Machine}
    (apart : privilege caller.cs = 0 → Apart (caller.regs.esp - 28) 32 kernel.task 40)
    (compiled : Compiled kernel.task) (esp0 : BitVec 32) (ss0 : BitVec 16) (eip : BitVec 32) :
    kernel.ReturnsToCaller compiled esp0 ss0 caller eip ↔ caller.cs = 8 ∧ ∀ entered,
      kernel.enter (caller.interrupt (syscallGate esp0 ss0) eip) = some entered →
        kernel.KeepsReturn entered.mem := by
  constructor
  · rintro ⟨entered, after, enters, returned, segment, _, esp, _⟩
    have ring0 : caller.cs = 8 := by rw [← segment, systemCall_segment returned]
    have level := privilege_of_eq_eight ring0
    refine ⟨ring0, fun begun begins => ?_⟩
    cases enters.symm.trans begins
    rcases enter_interrupt level (apart level) esp0 ss0 eip with ⟨reached, reaches, inside⟩
    cases enters.symm.trans reaches
    rcases inside.systemCall_returned enters compiled with ⟨regs, eflags, target, result, stack, found⟩
    cases result.symm.trans returned
    have part : Apart (regs.esp - 4) 4 kernel.task 40 := by
      rcases apart level with ⟨above, below⟩
      dsimp only at esp
      rw [esp]
      constructor <;> bv_omega
    exact (inside.keepsReturn_iff (apart level)).mpr ⟨stack.symm.trans esp, (found part).symm⟩
  · rintro ⟨ring0, keeps⟩
    have level := privilege_of_eq_eight ring0
    rcases enter_interrupt level (apart level) esp0 ss0 eip with ⟨entered, enters, inside⟩
    rcases inside.systemCall_keepsReturn enters (keeps entered enters) (apart level) compiled with
      ⟨regs, eflags, esp, returned⟩
    refine ⟨entered, _, enters, returned, ring0.symm, ?_, esp, inside.cmd level (apart level),
      inside.stackframe⟩
    rw [ring0]

theorem returnsToCaller_iff_echo : echoKernel.ReturnsToCaller echoCompiled 0 0x10 (echoCaller 8) 0x1234 :=
  (returnsToCaller_iff (fun _ => by decide) echoCompiled 0 0x10 0x1234).mpr
    ⟨rfl, fun entered _ => echoKernel_keepsReturn entered.mem⟩

/-- From ring 3 the same call comes back in ring 0. -/
theorem not_returnsToCaller_userCode :
    ¬ echoKernel.ReturnsToCaller echoCompiled 0x9000 0x10 (echoCaller 0x1b) 0x1234 ∧
      ∃ exit after, echoKernel.systemCall echoCompiled
        ((echoCaller 0x1b).interrupt (syscallGate 0x9000 0x10) 0x1234) = some (exit, after) ∧
          privilege (echoCaller 0x1b).cs = 3 ∧ privilege after.cs = 0 := by
  constructor
  · rintro ⟨_, after, _, returned, segment, _⟩
    rw [systemCall_segment returned] at segment
    exact absurd segment (by decide)
  · rcases @enter_eq echoKernel ((echoCaller 0x1b).interrupt (syscallGate 0x9000 0x10) 0x1234)
      (by decide) with ⟨_, _, _, enters, _⟩
    rcases systemCall_of_enter enters echoCompiled with ⟨exit, after, returned, segment⟩
    refine ⟨exit, after, returned, rfl, ?_⟩
    rw [segment]
    rfl

end Kernel

end Syscall

end WeakOS
