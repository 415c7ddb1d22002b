import Mathlib
import WeakOS.Syscall.Handler

namespace WeakOS

open X86

namespace Syscall

/-!
# System calls from the user's side

`syscall` pushes the arguments in a loop, and then their number and the command.
The words lie on the stack with the last argument in front.
-/

/-- Where the compiler has put the operands of the assembly: the arguments of
`syscall` in its frame, and the result in a register that is not clobbered. -/
structure SyscallOperands where
  syscallNum : BitVec 32
  argc : BitVec 32
  argv : BitVec 32
  out : Reg
  free : out = .edx ∨ out = .esi ∨ out = .edi

/-- The assembly of the user's `syscall`. -/
def syscallCode (operands : SyscallOperands) : List Instr :=
  [.mov (.place (.mem operands.argc .ebp)) (.reg .ecx),
    .mov (.place (.mem operands.argv .ebp)) (.reg .eax),
    .test (.place (.reg .ecx)) .ecx,
    .jz 2,
    .label 1, .push (.place (.mem 0 .eax)),
    .add (.imm 4) .eax,
    .loop 1,
    .label 2, .push (.place (.mem operands.argc .ebp)),
    .push (.place (.mem operands.syscallNum .ebp)),
    .int 0xc9,
    .pop .eax,
    .pop .ecx,
    .test (.place (.reg .ecx)) .ecx,
    .jz 2,
    .label 1, .pop .ebx,
    .loop 1,
    .label 2, .mov (.place (.reg .eax)) (.reg operands.out)]

/-- From the interrupt to the code behind it, with the state in which the handler
begins. -/
def Kernel.serve (kernel : Kernel) (compiled : Compiled kernel.task) (entry : Machine)
    (eip : BitVec 32) : Option (Machine × Machine) :=
  match kernel.enter entry, kernel.systemCall compiled entry with
  | some entered, some (.jump target, returned) =>
      if target = eip then some (entered, returned) else none
  | _, _ => none

/-- The call as a whole: the state in which the handler begins, and the one at the
end.  `eip` is the address behind the `int`. -/
def Kernel.syscall (kernel : Kernel) (compiled : Compiled kernel.task) (esp0 : BitVec 32)
    (ss0 : BitVec 16) (eip : BitVec 32) (operands : SyscallOperands) (fuel : Nat)
    (machine : Machine) : Option (Machine × Machine) :=
  match run (syscallCode operands) fuel 0 machine with
  | some (.interrupt vector pc, caller) =>
      if vector = syscallInterrupt then
        match kernel.serve compiled (caller.interrupt (syscallGate esp0 ss0) eip) eip with
        | some (entered, returned) =>
            match run (syscallCode operands) fuel pc returned with
            | some (.fallThrough, after) => some (entered, after)
            | _ => none
        | none => none
      else none
  | _ => none

/-- The state in which the handler begins, for a call of `syscall` in this state. -/
def Kernel.begun (kernel : Kernel) (esp0 : BitVec 32) (ss0 : BitVec 16) (eip : BitVec 32)
    (operands : SyscallOperands) (fuel : Nat) (machine : Machine) : Option Machine :=
  match run (syscallCode operands) fuel 0 machine with
  | some (.interrupt _ _, caller) => kernel.enter (caller.interrupt (syscallGate esp0 ss0) eip)
  | _ => none

/-- The command that the handler calls in this memory, if it calls one, leaves the first
word of its frame, by which `syscall` pops the arguments. -/
def Kernel.KeepsCount (kernel : Kernel) (mem : Mem) : Prop :=
  ∀ function, kernel.function (kernel.cmd mem) = some function →
    read32 (function (kernel.stackframe mem) mem).2 (kernel.stackframe mem) =
      read32 mem (kernel.stackframe mem)

/-! ## The loops -/

section Loops

variable {operands : SyscallOperands} {eax ebx ecx edx esi edi ebp esp eflags : BitVec 32}
  {cs ss : BitVec 16} {mem : Mem}

/-- Push one argument. -/
theorem executeAll_pushOne : executeAll (((syscallCode operands).drop 4).take 3)
    ⟨⟨eax, ebx, ecx, edx, esi, edi, ebp, esp⟩, eflags, cs, ss, mem⟩ =
      ⟨⟨eax + 4, ebx, ecx, edx, esi, edi, ebp, esp - 4⟩, setFlag zeroFlag (eax + 4 = 0) eflags,
        cs, ss, write32 mem (esp - 4) (read32 mem (eax + 0))⟩ := rfl

/-- One round of the pushing loop. -/
theorem run_pushOne (fuel : Nat) : run (syscallCode operands) (fuel + 4) 4
    ⟨⟨eax, ebx, ecx, edx, esi, edi, ebp, esp⟩, eflags, cs, ss, mem⟩ =
      run (syscallCode operands) fuel (if ecx - 1 = 0 then 8 else 4)
        ⟨⟨eax + 4, ebx, ecx - 1, edx, esi, edi, ebp, esp - 4⟩, setFlag zeroFlag (eax + 4 = 0) eflags,
          cs, ss, write32 mem (esp - 4) (read32 mem (eax + 0))⟩ := by
  have pushed : run (syscallCode operands) (fuel + 1 + 3) 4
      ⟨⟨eax, ebx, ecx, edx, esi, edi, ebp, esp⟩, eflags, cs, ss, mem⟩ =
        run (syscallCode operands) (fuel + 1) 7 _ :=
    run_block rfl (Nat.le_of_ble_eq_true rfl) executeAll_pushOne rfl
  refine pushed.trans ?_
  by_cases last : ecx - 1 = 0
  · rw [if_pos last]
    exact @run_loop_passed (syscallCode operands) ((syscallCode operands).drop 8) fuel 7 _ 1 rfl last
  · rw [if_neg last]
    exact @run_loop_taken (syscallCode operands) ((syscallCode operands).drop 8) fuel 7 _ 1 rfl last

/-- One round of the popping loop. -/
theorem run_popOne (fuel : Nat) : run (syscallCode operands) (fuel + 3) 16
    ⟨⟨eax, ebx, ecx, edx, esi, edi, ebp, esp⟩, eflags, cs, ss, mem⟩ =
      run (syscallCode operands) fuel (if ecx - 1 = 0 then 19 else 16)
        ⟨⟨eax, read32 mem esp, ecx - 1, edx, esi, edi, ebp, esp + 4⟩, eflags, cs, ss, mem⟩ := by
  have popped : run (syscallCode operands) (fuel + 1 + 2) 16
      ⟨⟨eax, ebx, ecx, edx, esi, edi, ebp, esp⟩, eflags, cs, ss, mem⟩ =
        run (syscallCode operands) (fuel + 1) 18
          ⟨⟨eax, read32 mem esp, ecx, edx, esi, edi, ebp, esp + 4⟩, eflags, cs, ss, mem⟩ :=
    run_block rfl (Nat.le_of_ble_eq_true rfl) rfl rfl
  refine popped.trans ?_
  by_cases last : ecx - 1 = 0
  · rw [if_pos last]
    exact @run_loop_passed (syscallCode operands) ((syscallCode operands).drop 19) fuel 18 _ 1 rfl last
  · rw [if_neg last]
    exact @run_loop_taken (syscallCode operands) ((syscallCode operands).drop 19) fuel 18 _ 1 rfl last

theorem ofNat_succ_sub_one (count : Nat) :
    BitVec.ofNat 32 (count + 1) - 1 = BitVec.ofNat 32 count := by
  rw [BitVec.ofNat_add]
  exact add_sub_cancel_right _ _

theorem ofNat_eq_zero_iff {count : Nat} (small : 4 * count < 2 ^ 32) :
    BitVec.ofNat 32 count = 0 ↔ count = 0 := by
  constructor
  · intro zero
    bv_omega
  · rintro rfl
    rfl

/-- The words behind the first one. -/
theorem add_four_add (eax : BitVec 32) (i : Nat) :
    eax + 4 + BitVec.ofNat 32 (4 * i) = eax + BitVec.ofNat 32 (4 * (i + 1)) := by
  rw [Nat.mul_succ, BitVec.ofNat_add, add_assoc, add_comm (BitVec.ofNat 32 (4 * i))]
  rfl

/-- What is apart from a stretch of the stack is apart from its first word and
from the others. -/
theorem apart_push {count : Nat} {source : BitVec 32}
    (apart : Apart (esp - BitVec.ofNat 32 (4 * (count + 1))) (4 * (count + 1)) source 4) :
    Apart (esp - 4) 4 source 4 ∧
      Apart (esp - 4 - BitVec.ofNat 32 (4 * count)) (4 * count) source 4 := by
  rw [sub_words_succ] at apart
  rcases apart with ⟨above, below⟩
  have size : (BitVec.ofNat 32 (4 * count)).toNat = 4 * count := Nat.mod_eq_of_lt (by omega)
  generalize BitVec.ofNat 32 (4 * count) = depth at *
  refine ⟨⟨?_, ?_⟩, ?_, ?_⟩
  all_goals bv_omega

/-- The pushing loop pushes all the arguments. -/
theorem run_pushLoop {words : List (BitVec 32)} (positive : words ≠ [])
    (small : 4 * words.length < 2 ^ 32)
    (reads : ∀ i (inside : i < words.length), read32 mem (eax + BitVec.ofNat 32 (4 * i)) = words[i])
    (apart : ∀ i, i < words.length → Apart (esp - BitVec.ofNat 32 (4 * words.length))
      (4 * words.length) (eax + BitVec.ofNat 32 (4 * i)) 4) (fuel : Nat) : ∃ eflags',
      run (syscallCode operands) (fuel + 4 * words.length) 4
        ⟨⟨eax, ebx, BitVec.ofNat 32 words.length, edx, esi, edi, ebp, esp⟩, eflags, cs, ss, mem⟩ =
      run (syscallCode operands) fuel 8
        ⟨⟨eax + BitVec.ofNat 32 (4 * words.length), ebx, 0, edx, esi, edi, ebp,
          esp - BitVec.ofNat 32 (4 * words.length)⟩, eflags', cs, ss, pushWords mem esp words⟩ := by
  induction words generalizing eax esp eflags mem with
  | nil => exact absurd rfl positive
  | cons word rest inductionHypothesis =>
      have first : read32 mem (eax + 0) = word := reads 0 (Nat.zero_lt_succ _)
      rw [List.length_cons] at small apart ⊢
      rw [Nat.mul_succ, ← Nat.add_assoc, run_pushOne, first, ofNat_succ_sub_one]
      by_cases last : rest = []
      · subst last
        exact ⟨_, rfl⟩
      · have more : ¬ BitVec.ofNat 32 rest.length = 0 := by
          rw [ofNat_eq_zero_iff (by omega), List.length_eq_zero_iff]
          exact last
        have reads' : ∀ i (inside : i < rest.length),
            read32 (write32 mem (esp - 4) word) (eax + 4 + BitVec.ofNat 32 (4 * i)) = rest[i] := by
          intro i inside
          have source := (apart_push (apart (i + 1) (Nat.succ_lt_succ inside))).1
          rw [add_four_add, read32_write32_of_apart _ _ source]
          exact reads (i + 1) (Nat.succ_lt_succ inside)
        have apart' : ∀ i, i < rest.length → Apart (esp - 4 - BitVec.ofNat 32 (4 * rest.length))
            (4 * rest.length) (eax + 4 + BitVec.ofNat 32 (4 * i)) 4 := by
          intro i inside
          rw [add_four_add]
          exact (apart_push (apart (i + 1) (Nat.succ_lt_succ inside))).2
        rw [if_neg more, ← Nat.mul_succ, sub_words_succ, ← add_four_add]
        exact inductionHypothesis last (by omega) reads' apart'

/-- The popping loop goes back over as many words. -/
theorem run_popLoop {count : Nat} (positive : 0 < count) (small : 4 * count < 2 ^ 32) (fuel : Nat) :
    ∃ ebx', run (syscallCode operands) (fuel + 3 * count) 16
      ⟨⟨eax, ebx, BitVec.ofNat 32 count, edx, esi, edi, ebp, esp⟩, eflags, cs, ss, mem⟩ =
    run (syscallCode operands) fuel 19
      ⟨⟨eax, ebx', 0, edx, esi, edi, ebp, esp + BitVec.ofNat 32 (4 * count)⟩, eflags, cs, ss, mem⟩ := by
  induction count generalizing ebx esp with
  | zero => exact absurd positive (lt_irrefl 0)
  | succ count inductionHypothesis =>
      rw [Nat.mul_succ 3, ← Nat.add_assoc, run_popOne, ofNat_succ_sub_one]
      by_cases last : count = 0
      · subst last
        exact ⟨_, rfl⟩
      · have more : ¬ BitVec.ofNat 32 count = 0 := by
          rwa [ofNat_eq_zero_iff (by omega)]
        rw [if_neg more, ← add_four_add]
        exact inductionHypothesis (Nat.pos_of_ne_zero last) (by omega)

end Loops

/-! ## Before and behind the interrupt -/

/-- Apart from the stretch of the stack that a call with `count` arguments uses:
the arguments, their number, the command, and what the interrupt saves. -/
def ClearOfStack (machine : Machine) (count : Nat) (addr : BitVec 32) (size : Nat) : Prop :=
  Apart (machine.regs.esp - BitVec.ofNat 32 (4 * count) - 36) (4 * count + 36) addr size

/-- `syscall` has been given a command and arguments, and there is room below. -/
structure Passed (operands : SyscallOperands) (machine : Machine) (cmd : BitVec 32)
    (argv : List (BitVec 32)) : Prop where
  syscallNum : read32 machine.mem (machine.regs.ebp + operands.syscallNum) = cmd
  argc : read32 machine.mem (machine.regs.ebp + operands.argc) = BitVec.ofNat 32 argv.length
  words : ∀ i (inside : i < argv.length),
    read32 machine.mem (read32 machine.mem (machine.regs.ebp + operands.argv) +
      BitVec.ofNat 32 (4 * i)) = argv[i]
  syscallNumClear : ClearOfStack machine argv.length (machine.regs.ebp + operands.syscallNum) 4
  argcClear : ClearOfStack machine argv.length (machine.regs.ebp + operands.argc) 4
  wordsClear : ∀ i, i < argv.length → ClearOfStack machine argv.length
    (read32 machine.mem (machine.regs.ebp + operands.argv) + BitVec.ofNat 32 (4 * i)) 4

section Clear

variable {machine : Machine} {count : Nat} {addr : BitVec 32}

theorem ClearOfStack.small {size : Nat} (clear : ClearOfStack machine count addr size) :
    4 * count + 36 < 2 ^ 32 :=
  clear.1.trans_lt (BitVec.isLt _)

/-- The two words behind the arguments. -/
theorem ClearOfStack.behind (clear : ClearOfStack machine count addr 4) :
    let low := machine.regs.esp - BitVec.ofNat 32 (4 * count)
    Apart (low - 4) 4 addr 4 ∧ Apart (low - 4 - 4) 4 addr 4 := by
  intro low
  rcases clear with ⟨above, below⟩
  have lowEq : machine.regs.esp - BitVec.ofNat 32 (4 * count) = low := rfl
  rw [lowEq] at above below
  clear_value low
  refine ⟨⟨?_, ?_⟩, ?_, ?_⟩
  all_goals bv_omega

/-- The words of the arguments, when there are any. -/
theorem ClearOfStack.words (clear : ClearOfStack machine count addr 4) (positive : 0 < count) :
    Apart (machine.regs.esp - BitVec.ofNat 32 (4 * count)) (4 * count) addr 4 := by
  rcases clear with ⟨above, below⟩
  generalize machine.regs.esp - BitVec.ofNat 32 (4 * count) = low at *
  constructor <;> bv_omega

theorem ClearOfStack.read32_pushWords {argv : List (BitVec 32)}
    (clear : ClearOfStack machine argv.length addr 4) :
    read32 (pushWords machine.mem machine.regs.esp argv) addr = read32 machine.mem addr := by
  rcases clear with ⟨above, below⟩
  refine read32_congr (fun byte near => pushWords_of_outside ?_)
  generalize machine.regs.esp - BitVec.ofNat 32 (4 * argv.length) = low at *
  bv_omega

end Clear

section Halves

variable {operands : SyscallOperands} {eax ebx ecx edx esi edi ebp esp eflags : BitVec 32}
  {cs ss : BitVec 16} {mem : Mem}

/-- A loop is jumped over when there is nothing to count. -/
theorem run_jz_count {pc count fuel : Nat} {rest : List Instr} {machine : Machine}
    (left : (syscallCode operands).drop pc = .jz 2 :: rest) (small : 4 * count < 2 ^ 32)
    (tested : machine.eflags = setFlag zeroFlag (BitVec.ofNat 32 count = 0) eflags) :
    run (syscallCode operands) (fuel + 1) pc machine = run (syscallCode operands) fuel
      (if count = 0 then forward (syscallCode operands) pc 2 else pc + 1) machine := by
  have zero := setFlag_zeroFlag (BitVec.ofNat 32 count = 0) eflags
  rw [← tested, decide_eq_true_iff, ofNat_eq_zero_iff small] at zero
  by_cases none : count = 0
  · rw [if_pos none, run_jz_taken left (zero.mpr none)]
  · rw [if_neg none, run_jz_passed left (fun set => none (zero.mp set))]

/-- The number of arguments and the command, and the interrupt. -/
theorem run_interrupt (fuel : Nat) : run (syscallCode operands) (fuel + 4) 8
    ⟨⟨eax, ebx, ecx, edx, esi, edi, ebp, esp⟩, eflags, cs, ss, mem⟩ =
      some (.interrupt 0xc9 12, ⟨⟨eax, ebx, ecx, edx, esi, edi, ebp, esp - 4 - 4⟩, eflags, cs, ss,
        write32 (write32 mem (esp - 4) (read32 mem (ebp + operands.argc))) (esp - 4 - 4)
          (read32 (write32 mem (esp - 4) (read32 mem (ebp + operands.argc)))
            (ebp + operands.syscallNum))⟩) := by
  have pushed : run (syscallCode operands) (fuel + 1 + 3) 8
      ⟨⟨eax, ebx, ecx, edx, esi, edi, ebp, esp⟩, eflags, cs, ss, mem⟩ =
        run (syscallCode operands) (fuel + 1) 11 _ :=
    run_block rfl (Nat.le_of_ble_eq_true rfl) rfl rfl
  exact pushed.trans
    (@run_exit (syscallCode operands) ((syscallCode operands).drop 12) fuel 11 _ (.int 0xc9) _ _ rfl rfl)

/-- Everything is on the stack at the interrupt. -/
theorem run_pushed {machine : Machine} {cmd : BitVec 32} {argv : List (BitVec 32)}
    (passed : Passed operands machine cmd argv) {fuel : Nat} (enough : 4 * argv.length + 8 ≤ fuel) :
    ∃ eax eflags, let low := machine.regs.esp - BitVec.ofNat 32 (4 * argv.length)
      run (syscallCode operands) fuel 0 machine = some (.interrupt 0xc9 12,
        ⟨{ machine.regs with eax, ecx := 0, esp := low - 4 - 4 }, eflags, machine.cs, machine.ss,
          write32 (write32 (pushWords machine.mem machine.regs.esp argv) (low - 4)
            (BitVec.ofNat 32 argv.length)) (low - 4 - 4) cmd⟩) := by
  have small := passed.argcClear.small
  have argcBehind := passed.argcClear.read32_pushWords
  have numBehind := passed.syscallNumClear.read32_pushWords
  have numPushed := passed.syscallNumClear.behind.1
  rw [passed.argc] at argcBehind
  rw [passed.syscallNum] at numBehind
  have argc := passed.argc
  have words := passed.words
  have wordsClear := fun i inside => (passed.wordsClear i inside).words (by omega)
  clear passed
  rcases machine with ⟨⟨eax, ebx, ecx, edx, esi, edi, ebp, esp⟩, eflags, cs, ss, mem⟩
  rcases Nat.exists_eq_add_of_le' enough with ⟨fuel, rfl⟩
  have loaded : run (syscallCode operands) (fuel + (4 * argv.length + 8)) 0
      ⟨⟨eax, ebx, ecx, edx, esi, edi, ebp, esp⟩, eflags, cs, ss, mem⟩ =
        run (syscallCode operands) (fuel + 4 + 4 * argv.length + 1) 3
          ⟨⟨read32 mem (ebp + operands.argv), ebx, read32 mem (ebp + operands.argc), edx, esi, edi, ebp,
            esp⟩, setFlag zeroFlag (read32 mem (ebp + operands.argc) &&&
              read32 mem (ebp + operands.argc) = 0) eflags, cs, ss, mem⟩ := by
    rw [show fuel + (4 * argv.length + 8) = fuel + 4 + 4 * argv.length + 1 + 3 by omega]
    exact run_block rfl (Nat.le_of_ble_eq_true rfl) rfl rfl
  rw [argc, BitVec.and_self] at loaded
  have pushed : ∃ eax' eflags', run (syscallCode operands) (fuel + (4 * argv.length + 8)) 0
      ⟨⟨eax, ebx, ecx, edx, esi, edi, ebp, esp⟩, eflags, cs, ss, mem⟩ =
        run (syscallCode operands) (fuel + 4) 8
          ⟨⟨eax', ebx, 0, edx, esi, edi, ebp, esp - BitVec.ofNat 32 (4 * argv.length)⟩, eflags', cs, ss,
            pushWords mem esp argv⟩ := by
    rw [loaded, run_jz_count rfl (by omega) rfl]
    by_cases none : argv = []
    · subst none
      have low : esp - BitVec.ofNat 32 (4 * ([] : List (BitVec 32)).length) = esp := sub_zero esp
      rw [low]
      exact ⟨_, _, rfl⟩
    · rw [if_neg (fun empty => none (List.length_eq_zero_iff.mp empty))]
      rcases @run_pushLoop operands _ ebx edx esi edi ebp esp _ cs ss mem argv none (by omega) words
        wordsClear (fuel + 4) with ⟨eflags', looped⟩
      exact ⟨_, eflags', looped⟩
  rcases pushed with ⟨eax', eflags', pushed⟩
  refine ⟨eax', eflags', pushed.trans ((run_interrupt fuel).trans ?_)⟩
  rw [argcBehind, read32_write32_of_apart _ _ numPushed, numBehind]

/-- The result goes to its register, and the arguments go from the stack. -/
theorem run_returned {count : Nat} {result : BitVec 32} (small : 4 * count < 2 ^ 32)
    (top : read32 mem esp = result) (next : read32 mem (esp + 4) = BitVec.ofNat 32 count) {fuel : Nat}
    (enough : 3 * count + 7 ≤ fuel) : ∃ regs eflags',
      run (syscallCode operands) fuel 12
        ⟨⟨eax, ebx, ecx, edx, esi, edi, ebp, esp⟩, eflags, cs, ss, mem⟩ =
          some (.fallThrough, ⟨regs, eflags', cs, ss, mem⟩) ∧
      regs.get operands.out = result ∧ regs.esp = esp + 4 + 4 + BitVec.ofNat 32 (4 * count) := by
  rcases Nat.exists_eq_add_of_le' enough with ⟨fuel, rfl⟩
  have popped : run (syscallCode operands) (fuel + 3 + 3 * count + 1 + 3) 12
      ⟨⟨eax, ebx, ecx, edx, esi, edi, ebp, esp⟩, eflags, cs, ss, mem⟩ =
        run (syscallCode operands) (fuel + 3 + 3 * count + 1) 15
          ⟨⟨read32 mem esp, ebx, read32 mem (esp + 4), edx, esi, edi, ebp, esp + 4 + 4⟩,
            setFlag zeroFlag (read32 mem (esp + 4) &&& read32 mem (esp + 4) = 0) eflags, cs, ss, mem⟩ :=
    run_block rfl (Nat.le_of_ble_eq_true rfl) rfl rfl
  rw [top, next, BitVec.and_self] at popped
  have emptied : ∃ ebx' eflags', run (syscallCode operands) (fuel + (3 * count + 7)) 12
      ⟨⟨eax, ebx, ecx, edx, esi, edi, ebp, esp⟩, eflags, cs, ss, mem⟩ =
        run (syscallCode operands) (fuel + 3) 19
          ⟨⟨result, ebx', 0, edx, esi, edi, ebp, esp + 4 + 4 + BitVec.ofNat 32 (4 * count)⟩,
            eflags', cs, ss, mem⟩ := by
    rw [show fuel + (3 * count + 7) = fuel + 3 + 3 * count + 1 + 3 by omega, popped,
      run_jz_count rfl small rfl]
    by_cases none : count = 0
    · subst none
      have low : esp + 4 + 4 + BitVec.ofNat 32 (4 * 0) = esp + 4 + 4 := add_zero _
      rw [low]
      exact ⟨_, _, rfl⟩
    · rw [if_neg none]
      rcases @run_popLoop operands result ebx edx esi edi ebp (esp + 4 + 4) _ cs ss mem count
        (Nat.pos_of_ne_zero none) small (fuel + 3) with ⟨ebx', looped⟩
      exact ⟨ebx', _, looped⟩
  rcases emptied with ⟨ebx', eflags', emptied⟩
  have moved : run (syscallCode operands) (fuel + 1 + 2) 19
      ⟨⟨result, ebx', 0, edx, esi, edi, ebp, esp + 4 + 4 + BitVec.ofNat 32 (4 * count)⟩,
        eflags', cs, ss, mem⟩ = run (syscallCode operands) (fuel + 1) 21 _ :=
    run_block rfl (Nat.le_of_ble_eq_true rfl) rfl rfl
  refine ⟨_, eflags', emptied.trans (moved.trans (@run_end (syscallCode operands) fuel 21 _ rfl)), ?_⟩
  rcases operands with ⟨_, _, _, out, free⟩
  rcases free with rfl | rfl | rfl
  all_goals exact ⟨rfl, rfl⟩

end Halves

/-! ## The whole call -/

/-- Where a pushed argument lies. -/
theorem read32_argument {mem : Mem} {esp : BitVec 32} {argv : List (BitVec 32)}
    (room : 4 * argv.length < 2 ^ 32) {i : Nat} (inside : i < argv.reverse.length) :
    read32 (pushWords mem esp argv)
      (esp - BitVec.ofNat 32 (4 * argv.length) + BitVec.ofNat 32 (4 * i)) = argv.reverse[i] := by
  rw [List.length_reverse] at inside
  have last : argv.length - 1 - i < argv.length := by omega
  have address : esp - BitVec.ofNat 32 (4 * argv.length) + BitVec.ofNat 32 (4 * i) =
      esp - BitVec.ofNat 32 (4 * (argv.length - 1 - i + 1)) := by
    have split : 4 * argv.length = 4 * (argv.length - 1 - i + 1) + 4 * i := by omega
    rw [split, BitVec.ofNat_add, sub_add_eq_sub_sub, sub_add_cancel]
  rw [address, read32_pushWords room last, List.getElem_reverse]

/-- The machine at the interrupt, by what the kernel looks at. -/
structure AtInterrupt (machine : Machine) (cmd : BitVec 32) (argv : List (BitVec 32))
    (caller : Machine) : Prop where
  segment : caller.cs = machine.cs
  esp : caller.regs.esp = machine.regs.esp - BitVec.ofNat 32 (4 * argv.length) - 4 - 4
  cmd : read32 caller.mem caller.regs.esp = cmd
  argc : read32 caller.mem (caller.regs.esp + 4) = BitVec.ofNat 32 argv.length
  words : ∀ i (inside : i < argv.reverse.length),
    read32 caller.mem (caller.regs.esp + (8 + BitVec.ofNat 32 (4 * i))) = argv.reverse[i]

theorem run_atInterrupt {operands : SyscallOperands} {machine : Machine} {cmd : BitVec 32}
    {argv : List (BitVec 32)} (passed : Passed operands machine cmd argv) {fuel : Nat}
    (enough : 4 * argv.length + 8 ≤ fuel) : ∃ caller,
      run (syscallCode operands) fuel 0 machine = some (.interrupt 0xc9 12, caller) ∧
        AtInterrupt machine cmd argv caller := by
  have small := passed.argcClear.small
  rcases run_pushed passed enough with ⟨eax, eflags, pushed⟩
  refine ⟨_, pushed, rfl, rfl, read32_write32 _ _ _, ?_, fun i inside => ?_⟩
  · have behind : ∀ low : BitVec 32, low - 4 - 4 + 4 = low - 4 := fun low => sub_add_cancel _ _
    have apart : ∀ low : BitVec 32, Apart (low - 4) 4 low 4 := by
      intro low
      constructor <;> bv_omega
    dsimp only
    rw [behind, read32_write32_of_apart _ _ (apart _), read32_write32]
  · have argument := @read32_argument machine.mem machine.regs.esp argv (by omega) i inside
    rw [List.length_reverse] at inside
    have size : (BitVec.ofNat 32 (4 * i)).toNat = 4 * i := Nat.mod_eq_of_lt (by omega)
    dsimp only
    generalize machine.regs.esp - BitVec.ofNat 32 (4 * argv.length) = low at argument ⊢
    rw [← argument]
    generalize BitVec.ofNat 32 (4 * i) = k at size ⊢
    have address : low - 4 - 4 + (8 + k) = low + k := by bv_omega
    rw [address, read32_write32_of_apart, read32_write32_of_apart]
    · constructor <;> bv_omega
    · constructor <;> bv_omega

namespace Kernel

variable {kernel : Kernel} {operands : SyscallOperands} {machine : Machine} {cmd : BitVec 32}
  {argv : List (BitVec 32)} {function : SyscallFunction}

/-- The stack of the caller, from its top. -/
theorem Entered.read32_stack {caller entered : Machine} {eip : BitVec 32}
    (inside : kernel.Entered caller eip entered) {room : Nat}
    (apart : Apart (caller.regs.esp - 28) (room + 28) kernel.task 40) {k : BitVec 32}
    (inRoom : k.toNat + 4 ≤ room) :
    read32 entered.mem (caller.regs.esp + k) = read32 caller.mem (caller.regs.esp + k) := by
  rcases apart with ⟨above, below⟩
  apply inside.read32_above
  · constructor <;> bv_omega
  · constructor <;> bv_omega

/-- The frame of the command is what is on the stack at the interrupt. -/
theorem Entered.arguments {caller entered : Machine} {eip : BitVec 32}
    (inside : kernel.Entered caller eip entered) (atInterrupt : AtInterrupt machine cmd argv caller)
    (room : Apart (caller.regs.esp - 28) (4 * argv.length + 8 + 28) kernel.task 40) :
    read32 entered.mem (kernel.stackframe entered.mem) = BitVec.ofNat 32 argv.length ∧
      ∀ i (before : i < argv.reverse.length), read32 entered.mem
        (kernel.stackframe entered.mem + 4 + BitVec.ofNat 32 (4 * i)) = argv.reverse[i] := by
  have small : 4 * argv.length + 8 + 28 < 2 ^ 32 := room.1.trans_lt (BitVec.isLt _)
  rw [inside.stackframe]
  constructor
  · have offset : (4 : BitVec 32).toNat + 4 ≤ 4 * argv.length + 8 := Nat.le_add_left 8 _
    rw [inside.read32_stack room offset, atInterrupt.argc]
  · intro i before
    have few := before
    rw [List.length_reverse] at few
    have address : caller.regs.esp + 4 + 4 + BitVec.ofNat 32 (4 * i) =
        caller.regs.esp + (8 + BitVec.ofNat 32 (4 * i)) := by
      rw [add_assoc, add_assoc, ← add_assoc 4]
      rfl
    have offset : (8 + BitVec.ofNat 32 (4 * i)).toNat + 4 ≤ 4 * argv.length + 8 := by
      have size : (BitVec.ofNat 32 (4 * i)).toNat = 4 * i := Nat.mod_eq_of_lt (by omega)
      generalize BitVec.ofNat 32 (4 * i) = k at size ⊢
      bv_omega
    rw [address, inside.read32_stack room offset]
    exact atInterrupt.words i before

/-- The handler is entered with the command and its frame as `syscall` has pushed them. -/
theorem syscall_entered (ring0 : machine.cs = 8) (passed : Passed operands machine cmd argv)
    (taskClear : ClearOfStack machine argv.length kernel.task 40) {fuel : Nat}
    (enough : 4 * argv.length + 8 ≤ fuel) (esp0 : BitVec 32) (ss0 : BitVec 16) (eip : BitVec 32) :
    ∃ caller entered, run (syscallCode operands) fuel 0 machine = some (.interrupt 0xc9 12, caller) ∧
      AtInterrupt machine cmd argv caller ∧ Apart (caller.regs.esp - 28) 32 kernel.task 40 ∧
      kernel.enter (caller.interrupt (syscallGate esp0 ss0) eip) = some entered ∧
      kernel.Entered caller eip entered ∧ kernel.cmd entered.mem = cmd ∧
      read32 entered.mem (kernel.stackframe entered.mem) = BitVec.ofNat 32 argv.length ∧
      ∀ i (inside : i < argv.reverse.length), read32 entered.mem
        (kernel.stackframe entered.mem + 4 + BitVec.ofNat 32 (4 * i)) = argv.reverse[i] := by
  rcases run_atInterrupt passed enough with ⟨caller, pushed, atInterrupt⟩
  have level : privilege caller.cs = 0 := privilege_of_eq_eight (atInterrupt.segment.trans ring0)
  have room : Apart (caller.regs.esp - 28) (4 * argv.length + 8 + 28) kernel.task 40 := by
    have bottom : ∀ low : BitVec 32, low - 4 - 4 - 28 = low - 36 := by
      intro low
      bv_omega
    rw [atInterrupt.esp, bottom]
    exact taskClear
  have apart : Apart (caller.regs.esp - 28) 32 kernel.task 40 := ⟨by have := room.1; omega, room.2⟩
  rcases enter_interrupt level apart esp0 ss0 eip with ⟨entered, enters, inside⟩
  have found : kernel.cmd entered.mem = cmd := (inside.cmd level apart).trans atInterrupt.cmd
  rcases inside.arguments atInterrupt room with ⟨argc, words⟩
  exact ⟨caller, entered, pushed, atInterrupt, apart, enters, inside, found, argc, words⟩

/-- A call that comes to an end has gone through the handler. -/
theorem begun_of_syscall {esp0 : BitVec 32} {ss0 : BitVec 16} {eip : BitVec 32} {fuel : Nat}
    {compiled : Compiled kernel.task} {entered after : Machine}
    (whole : kernel.syscall compiled esp0 ss0 eip operands fuel machine = some (entered, after)) :
    kernel.begun esp0 ss0 eip operands fuel machine = some entered := by
  revert whole
  rw [syscall, begun]
  rcases run (syscallCode operands) fuel 0 machine with _ | ⟨_ | ⟨vector, pc⟩ | _, caller⟩ <;>
    intro whole
  all_goals try cases whole
  dsimp only at whole ⊢
  split at whole
  · rw [serve] at whole
    cases enters : kernel.enter (caller.interrupt (syscallGate esp0 ss0) eip) with
    | none =>
        rw [enters] at whole
        cases whole
    | some begun =>
        rw [enters] at whole
        grind
  · cases whole

/-- What the handler begins with, as far as the arguments are concerned. -/
theorem begun_arguments (ring0 : machine.cs = 8) (passed : Passed operands machine cmd argv)
    (taskClear : ClearOfStack machine argv.length kernel.task 40) {fuel : Nat}
    (enough : 4 * argv.length + 8 ≤ fuel) {esp0 : BitVec 32} {ss0 : BitVec 16} {eip : BitVec 32}
    {entered : Machine} (begins : kernel.begun esp0 ss0 eip operands fuel machine = some entered) :
    ∀ i (inside : i < argv.reverse.length), read32 entered.mem
      (kernel.stackframe entered.mem + 4 + BitVec.ofNat 32 (4 * i)) = argv.reverse[i] := by
  rcases syscall_entered ring0 passed taskClear enough esp0 ss0 eip with
    ⟨caller, reached, pushed, _, _, enters, _, _, _, words⟩
  rw [begun, pushed] at begins
  cases enters.symm.trans begins
  exact words

/-- The handler finds the arguments in its frame with the last one first, and the
call returns its result. -/
theorem syscall_run (ring0 : machine.cs = 8) (registered : kernel.function cmd = some function)
    (passed : Passed operands machine cmd argv)
    (taskClear : ClearOfStack machine argv.length kernel.task 40) {fuel : Nat}
    (enough : 4 * argv.length + 8 ≤ fuel) (compiled : Compiled kernel.task) (esp0 : BitVec 32)
    (ss0 : BitVec 16) (eip : BitVec 32)
    (keeps : ∀ entered, kernel.begun esp0 ss0 eip operands fuel machine = some entered →
      kernel.KeepsReturn entered.mem ∧ kernel.KeepsCount entered.mem) : ∃ entered after,
      kernel.syscall compiled esp0 ss0 eip operands fuel machine = some (entered, after) ∧
      kernel.cmd entered.mem = cmd ∧
      read32 entered.mem (kernel.stackframe entered.mem) = BitVec.ofNat 32 argv.length ∧
      (∀ i (inside : i < argv.reverse.length), read32 entered.mem
        (kernel.stackframe entered.mem + 4 + BitVec.ofNat 32 (4 * i)) = argv.reverse[i]) ∧
      after.regs.get operands.out = (function (kernel.stackframe entered.mem) entered.mem).1 ∧
      after.regs.esp = machine.regs.esp := by
  rcases syscall_entered ring0 passed taskClear enough esp0 ss0 eip with
    ⟨caller, entered, pushed, atInterrupt, apart, enters, inside, found, argc, words⟩
  have begins : kernel.begun esp0 ss0 eip operands fuel machine = some entered := by
    rw [begun, pushed]
    exact enters
  rcases keeps entered begins with ⟨keepsReturn, keepsCount⟩
  rcases inside.systemCall_keepsReturn enters keepsReturn apart compiled with
    ⟨⟨eax, ebx, ecx, edx, esi, edi, ebp, low⟩, eflags, lowEq, returned⟩
  have handles : kernel.function (kernel.cmd entered.mem) = some function := by
    rw [found]
    exact registered
  have count := keepsCount function handles
  rw [inside.stackframe] at count
  rcases inside.read32_result handles eflags with ⟨top, outside⟩
  dsimp only at lowEq
  rw [← lowEq] at returned top outside count
  generalize frameBelow (kernel.syscallHandler entered.mem) low eflags 8 eip = mem
    at returned top outside
  have next : read32 mem (low + 4) = BitVec.ofNat 32 argv.length := by
    rw [read32_congr fun addr near => outside addr (by bv_omega), count, lowEq, ← inside.stackframe, argc]
  rcases @run_returned operands eax ebx ecx edx esi edi ebp low eflags 8 caller.ss mem
    argv.length _ (by have := taskClear.small; omega) top next fuel (by omega) with
    ⟨regs, flags, ended, out, esp⟩
  have served : kernel.serve compiled (caller.interrupt (syscallGate esp0 ss0) eip) eip =
      some (entered, ⟨⟨eax, ebx, ecx, edx, esi, edi, ebp, low⟩, eflags, 8, caller.ss, mem⟩) := by
    rw [serve, enters, returned]
    exact if_pos rfl
  have whole : kernel.syscall compiled esp0 ss0 eip operands fuel machine =
      some (entered, ⟨regs, flags, 8, caller.ss, mem⟩) := by
    simp only [syscall, pushed, syscallInterrupt, if_true, served, ended]
  refine ⟨entered, _, whole, found, argc, words, ?_, ?_⟩
  · rw [inside.stackframe, ← lowEq]
    exact out
  · rw [esp, lowEq, atInterrupt.esp, sub_add_cancel, sub_add_cancel, sub_add_cancel]

/-- The command is called with `argc` and the arguments in the order of its frame,
its result is returned, and the stack pointer is what it was. -/
def ArgumentsSurvive (kernel : Kernel) (compiled : Compiled kernel.task) (esp0 : BitVec 32)
    (ss0 : BitVec 16) (eip : BitVec 32) (operands : SyscallOperands) (fuel : Nat) (machine : Machine)
    (cmd : BitVec 32) (argv : List (BitVec 32)) (function : SyscallFunction) : Prop :=
  ∃ entered after,
    kernel.syscall compiled esp0 ss0 eip operands fuel machine = some (entered, after) ∧
    kernel.cmd entered.mem = cmd ∧
    read32 entered.mem (kernel.stackframe entered.mem) = BitVec.ofNat 32 argv.length ∧
    (∀ i (inside : i < argv.length), read32 entered.mem
      (kernel.stackframe entered.mem + 4 + BitVec.ofNat 32 (4 * i)) = argv[i]) ∧
    after.regs.get operands.out = (function (kernel.stackframe entered.mem) entered.mem).1 ∧
    after.regs.esp = machine.regs.esp

section Survive

variable (ring0 : machine.cs = 8) (passed : Passed operands machine cmd argv)
  (taskClear : ClearOfStack machine argv.length kernel.task 40) {fuel : Nat}
  (enough : 4 * argv.length + 8 ≤ fuel) (compiled : Compiled kernel.task) (esp0 : BitVec 32)
  (ss0 : BitVec 16) (eip : BitVec 32)

include ring0 passed taskClear enough

/-- For this direction the command may do what it likes. -/
theorem ArgumentsSurvive.reverse
    (survive : kernel.ArgumentsSurvive compiled esp0 ss0 eip operands fuel machine cmd argv function) :
    argv.reverse = argv := by
  rcases survive with ⟨entered, after, whole, _, _, words, _⟩
  have pushed := begun_arguments ring0 passed taskClear enough (begun_of_syscall whole)
  apply List.ext_getElem List.length_reverse
  intro i inside inside'
  rw [← pushed i inside, words i inside']

/-- The loop pushes from the first argument on, so that they arrive in reverse. -/
theorem argumentsSurvive_iff (registered : kernel.function cmd = some function)
    (keeps : ∀ entered, kernel.begun esp0 ss0 eip operands fuel machine = some entered →
      kernel.KeepsReturn entered.mem ∧ kernel.KeepsCount entered.mem) :
    kernel.ArgumentsSurvive compiled esp0 ss0 eip operands fuel machine cmd argv function ↔
      argv.reverse = argv := by
  constructor
  · exact ArgumentsSurvive.reverse ring0 passed taskClear enough compiled esp0 ss0 eip
  · intro palindrome
    rcases syscall_run ring0 registered passed taskClear enough compiled esp0 ss0 eip keeps
      with ⟨entered, after, whole, found, argc, words, out, esp⟩
    refine ⟨entered, after, whole, found, argc, fun i inside => ?_, out, esp⟩
    have inside' : i < argv.reverse.length := by rwa [List.length_reverse]
    rw [words i inside']
    exact List.getElem_of_eq palindrome inside'

end Survive

/-- A program that calls `echo`. -/
def echoOperands : SyscallOperands := ⟨8, 12, 16, .edx, .inl rfl⟩

def echoProgram (argv : List (BitVec 32)) : Machine :=
  ⟨⟨0, 0, 0, 0, 0, 0, 0x8000, 0x8000⟩, 0x202, 8, 0x10,
    storeWords (fun _ => 0) 0x8008 (1 :: BitVec.ofNat 32 argv.length :: 0x8014 :: argv)⟩

theorem echoProgram_clear {argv : List (BitVec 32)} (few : argv.length ≤ 100) {addr : BitVec 32}
    {size : Nat} (positive : 0 < size) (above : 0x8000 ≤ addr.toNat) (below : addr.toNat + size ≤ 0x20000) :
    ClearOfStack (echoProgram argv) argv.length addr size := by
  have depth : (BitVec.ofNat 32 (4 * argv.length)).toNat = 4 * argv.length :=
    Nat.mod_eq_of_lt (by omega)
  simp only [ClearOfStack, echoProgram]
  generalize BitVec.ofNat 32 (4 * argv.length) = d at *
  constructor <;> bv_omega

theorem echoProgram_passed {argv : List (BitVec 32)} (few : argv.length ≤ 100) :
    Passed echoOperands (echoProgram argv) 1 argv := by
  have word : ∀ i (inside : i < argv.length + 3),
      read32 (echoProgram argv).mem (0x8008 + BitVec.ofNat 32 (4 * i)) =
        (1 :: BitVec.ofNat 32 argv.length :: 0x8014 :: argv)[i] := fun i inside =>
    read32_storeWords (by simp only [List.length_cons]; omega) inside
  have pointer : read32 (echoProgram argv).mem ((echoProgram argv).regs.ebp + echoOperands.argv) = 0x8014 :=
    word 2 (by omega)
  have source : ∀ i, 0x8014 + BitVec.ofNat 32 (4 * i) = 0x8008 + BitVec.ofNat 32 (4 * (i + 3)) := by
    intro i
    rw [Nat.mul_add, BitVec.ofNat_add, add_comm (BitVec.ofNat 32 (4 * i)), ← add_assoc]
    rfl
  refine ⟨word 0 (by omega), word 1 (by omega), ?_, ?_, ?_, ?_⟩
  · intro i inside
    rw [pointer, source]
    exact word (i + 3) (by omega)
  · exact @echoProgram_clear argv few 0x8008 4 (by decide) (by decide) (by decide)
  · exact @echoProgram_clear argv few 0x800c 4 (by decide) (by decide) (by decide)
  · intro i inside
    rw [pointer]
    exact echoProgram_clear few (by decide) (by bv_omega) (by bv_omega)

theorem echoKernel_keepsCount (mem : Mem) : echoKernel.KeepsCount mem := by
  intro function registered
  rw [echoKernel_function registered]
  rfl

theorem argumentsSurvive_iff_echo : echoKernel.ArgumentsSurvive echoCompiled 0 0x10 0x1234 echoOperands
    100 (echoProgram [7, 8, 7]) 1 [7, 8, 7] echo :=
  (@argumentsSurvive_iff echoKernel echoOperands (echoProgram [7, 8, 7]) 1 [7, 8, 7] echo rfl
    (echoProgram_passed (by decide))
    (echoProgram_clear (by decide) (by decide) (by decide) (by decide)) 100 (by decide) echoCompiled 0 0x10
    0x1234 rfl fun entered _ =>
      ⟨echoKernel_keepsReturn entered.mem, echoKernel_keepsCount entered.mem⟩).mpr rfl

/-- The first argument that `echo` finds is the last one. -/
theorem not_argumentsSurvive_two : ¬ echoKernel.ArgumentsSurvive echoCompiled 0 0x10 0x1234 echoOperands
    100 (echoProgram [1, 2]) 1 [1, 2] echo := by
  intro survive
  have palindrome := @ArgumentsSurvive.reverse echoKernel echoOperands (echoProgram [1, 2]) 1 [1, 2]
    echo rfl (echoProgram_passed (by decide))
    (echoProgram_clear (by decide) (by decide) (by decide) (by decide)) 100 (by decide) echoCompiled 0 0x10
    0x1234 survive
  exact absurd palindrome (by decide)

end Kernel

end Syscall

end WeakOS
