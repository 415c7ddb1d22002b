import Mathlib
import WeakOS.X86.Machine

namespace WeakOS

open X86

namespace Syscall

/-!
# The context of a system call

The two assembly sequences that save and restore a task, and between them the
handler, which finds the frame of the interrupt again through the saved stack
pointer.
-/

/-- `save_context_and_go`, for the addresses of the task and of the handler. -/
def saveContextAndGo (task handler : BitVec 32) : List Instr :=
  [.cli,
    .push (.place (.reg .ebp)),
    .mov (.place (.reg .esp)) (.reg .ebp),
    .sub (.imm 20) .esp,
    .mov (.place (.reg .eax)) (.mem (-4) .ebp),
    .mov (.place (.reg .ebx)) (.mem (-8) .ebp),
    .mov (.place (.reg .edx)) (.mem (-12) .ebp),
    .mov (.imm task) (.reg .ebx),
    .mov (.place (.mem (-4) .ebp)) (.reg .eax),
    .mov (.place (.reg .eax)) (.mem 0 .ebx),
    .mov (.place (.mem (-8) .ebp)) (.reg .eax),
    .mov (.place (.reg .eax)) (.mem 4 .ebx),
    .mov (.place (.reg .ecx)) (.mem 8 .ebx),
    .mov (.place (.mem (-12) .ebp)) (.reg .eax),
    .mov (.place (.reg .eax)) (.mem 12 .ebx),
    .mov (.place (.reg .esi)) (.mem 16 .ebx),
    .mov (.place (.reg .edi)) (.mem 20 .ebx),
    .mov (.place (.mem 8 .ebp)) (.reg .eax),
    .and (.imm 3) .eax,
    .test (.place (.reg .eax)) .eax,
    .jz 1,
    .mov (.place (.mem 16 .ebp)) (.reg .eax),
    .jmp 2,
    .label 1, .mov (.place (.reg .ebp)) (.reg .eax),
    .add (.imm 16) .eax,
    .label 2, .mov (.place (.reg .eax)) (.mem 24 .ebx),
    .mov (.place (.mem 0 .ebp)) (.reg .eax),
    .mov (.place (.reg .eax)) (.mem 28 .ebx),
    .mov (.place (.mem 4 .ebp)) (.reg .eax),
    .mov (.place (.reg .eax)) (.mem 32 .ebx),
    .mov (.place (.mem 12 .ebp)) (.reg .eax),
    .mov (.place (.reg .eax)) (.mem 36 .ebx),
    .mov (.imm handler) (.reg .eax),
    .sti,
    .jmpl .eax]

/-- The assembly of `process::run_indir`; the address of the task is in a
register that the compiler has chosen. -/
def runIndir (task : Reg) : List Instr :=
  [.mov (.place (.reg task)) (.reg .ebx),
    .mov (.place (.mem 8 .ebx)) (.reg .ecx),
    .mov (.place (.mem 12 .ebx)) (.reg .edx),
    .mov (.place (.mem 16 .ebx)) (.reg .esi),
    .mov (.place (.mem 20 .ebx)) (.reg .edi),
    .mov (.place (.mem 24 .ebx)) (.reg .esp),
    .mov (.place (.mem 28 .ebx)) (.reg .ebp),
    .mov (.place (.mem 36 .ebx)) (.reg .eax),
    .push (.place (.reg .eax)),
    .mov (.place (.mem 32 .ebx)) (.reg .eax),
    .push (.imm 8),
    .push (.place (.reg .eax)),
    .mov (.place (.mem 0 .ebx)) (.reg .eax),
    .mov (.place (.mem 4 .ebx)) (.reg .ebx),
    .iret]

/-! ## Saving -/

/-- The registers as `reg_values` has them. -/
def contextWords (regs : Registers) (eip eflags : BitVec 32) : List (BitVec 32) :=
  [regs.eax, regs.ebx, regs.ecx, regs.edx, regs.esi, regs.edi, regs.esp, regs.ebp, eip, eflags]

section Save

variable {task handler p eax ebx ecx edx esi edi ebp esp eflags : BitVec 32} {cs ss : BitVec 16}
  {mem : Mem}

/-- The scratch registers go to the stack. -/
theorem executeAll_scratch : executeAll ((saveContextAndGo task handler).take 8)
    ⟨⟨eax, ebx, ecx, edx, esi, edi, ebp, esp⟩, eflags, cs, ss, mem⟩ =
      ⟨⟨eax, task, ecx, edx, esi, edi, esp - 4, esp - 4 - 20⟩,
        setFlag zeroFlag (esp - 4 - 20 = 0) (setFlag interruptFlag false eflags), cs, ss,
        write32 (write32 (write32 (write32 mem (esp - 4) ebp) (esp - 4 + -4) eax) (esp - 4 + -8) ebx)
          (esp - 4 + -12) edx⟩ := rfl

/-- Writing the task does not disturb the stack. -/
theorem read32_stack (apart : Apart (p + -12) 28 task 40) (mem : Mem) (value j k : BitVec 32)
    (inTask : j.toNat + 4 ≤ 40) (inStack : (k + 12).toNat + 4 ≤ 28) :
    read32 (write32 mem (task + j) value) (p + k) = read32 mem (p + k) := by
  have here : p + k = p + -12 + (k + 12) := by bv_omega
  rw [here]
  exact apart.symm.read32_write32 mem value inTask inStack

/-- The registers go to the task. -/
theorem executeAll_registers (apart : Apart (p + -12) 28 task 40) :
    executeAll (((saveContextAndGo task handler).drop 8).take 9)
      ⟨⟨eax, task, ecx, edx, esi, edi, p, esp⟩, eflags, cs, ss, mem⟩ =
        ⟨⟨read32 mem (p + -12), task, ecx, edx, esi, edi, p, esp⟩, eflags, cs, ss,
          storeWords mem task [read32 mem (p + -4), read32 mem (p + -8), ecx, read32 mem (p + -12),
            esi, edi]⟩ := by
  have skip := @read32_stack task p apart
  simp (disch := decide) only [saveContextAndGo, List.drop_succ_cons, List.drop_zero,
    List.take_succ_cons, List.take_zero, executeAll, List.foldl_cons, List.foldl_nil, execute,
    Machine.load, Machine.store, Machine.setReg, Machine.addressOf, Registers.get, Registers.set,
    skip]
  simp only [storeWords, add_zero, BitVec.add_assoc, BitVec.reduceAdd]
  rfl

/-- The rest of the context goes to the task. -/
theorem executeAll_rest (apart : Apart (p + -12) 28 task 40) :
    executeAll (((saveContextAndGo task handler).drop 26).take 8)
      ⟨⟨eax, task, ecx, edx, esi, edi, p, esp⟩, eflags, cs, ss, mem⟩ =
        ⟨⟨read32 mem (p + 12), task, ecx, edx, esi, edi, p, esp⟩, eflags, cs, ss,
          storeWords mem (task + 24) [eax, read32 mem p, read32 mem (p + 4), read32 mem (p + 12)]⟩ := by
  have skip := @read32_stack task p apart
  simp (disch := decide) only [saveContextAndGo, List.drop_succ_cons, List.drop_zero,
    List.take_succ_cons, List.take_zero, executeAll, List.foldl_cons, List.foldl_nil, execute,
    Machine.load, Machine.store, Machine.setReg, Machine.addressOf, Registers.get, Registers.set,
    skip]
  simp only [storeWords, add_zero, BitVec.add_assoc, BitVec.reduceAdd]
  rfl

/-- And the way to the handler. -/
theorem executeAll_frame (apart : Apart (p + -12) 28 task 40) :
    executeAll (((saveContextAndGo task handler).drop 26).take 10)
      ⟨⟨eax, task, ecx, edx, esi, edi, p, esp⟩, eflags, cs, ss, mem⟩ =
        ⟨⟨handler, task, ecx, edx, esi, edi, p, esp⟩, setFlag interruptFlag true eflags, cs, ss,
          storeWords mem (task + 24) [eax, read32 mem p, read32 mem (p + 4), read32 mem (p + 12)]⟩ := by
  have parts : ((saveContextAndGo task handler).drop 26).take 10 =
      ((saveContextAndGo task handler).drop 26).take 8 ++ [.mov (.imm handler) (.reg .eax), .sti] := rfl
  rw [parts, executeAll_append, executeAll_rest apart]
  rfl

/-- From label 2 on, with the caller's stack pointer in `eax`. -/
theorem run_frame (apart : Apart (p + -12) 28 task 40) (fuel : Nat) :
    run (saveContextAndGo task handler) (fuel + 11) 26
      ⟨⟨eax, task, ecx, edx, esi, edi, p, esp⟩, eflags, cs, ss, mem⟩ =
        some (.jump handler, ⟨⟨handler, task, ecx, edx, esi, edi, p, esp⟩,
          setFlag interruptFlag true eflags, cs, ss,
          storeWords mem (task + 24)
            [eax, read32 mem p, read32 mem (p + 4), read32 mem (p + 12)]⟩) := by
  have stored : run (saveContextAndGo task handler) (fuel + 1 + 10) 26
      ⟨⟨eax, task, ecx, edx, esi, edi, p, esp⟩, eflags, cs, ss, mem⟩ =
        run (saveContextAndGo task handler) (fuel + 1) 36 _ :=
    run_block rfl (Nat.le_of_ble_eq_true rfl) (executeAll_frame apart) rfl
  exact stored.trans (@run_exit (saveContextAndGo task handler) [] fuel 36 _ (.jmpl .eax) _ _ rfl rfl)

/-- The stack pointer of the caller: it is in the frame when the interrupt has
changed the privilege level, and otherwise the frame lies on its stack. -/
def callerEsp (frame : BitVec 32) (mem : Mem) : BitVec 32 :=
  if read32 mem (frame + 4) &&& 3 = 0 then frame + 12 else read32 mem (frame + 12)

/-- From the look at the privilege level to label 2. -/
def levelCode : List Instr :=
  [.mov (.place (.mem 8 .ebp)) (.reg .eax),
    .and (.imm 3) .eax,
    .test (.place (.reg .eax)) .eax,
    .jz 1,
    .mov (.place (.mem 16 .ebp)) (.reg .eax),
    .jmp 2,
    .label 1, .mov (.place (.reg .ebp)) (.reg .eax),
    .add (.imm 16) .eax]

/-- The privilege level of the caller is looked at. -/
theorem executeAll_level : executeAll (levelCode.take 3)
    ⟨⟨eax, task, ecx, edx, esi, edi, p, esp⟩, eflags, cs, ss, mem⟩ =
      ⟨⟨read32 mem (p + 8) &&& 3, task, ecx, edx, esi, edi, p, esp⟩,
        setFlag zeroFlag ((read32 mem (p + 8) &&& 3) &&& (read32 mem (p + 8) &&& 3) = 0)
          (setFlag zeroFlag (read32 mem (p + 8) &&& 3 = 0) eflags), cs, ss, mem⟩ := rfl

/-- The branch on the privilege level, wherever it stands; one side of it is an
instruction longer. -/
theorem run_level {code rest : List Instr} {pc : Nat}
    (left : code.drop pc = levelCode ++ .label 2 :: rest) (fuel : Nat) : ∃ eflags' extra,
    run code (fuel + 7) pc ⟨⟨eax, task, ecx, edx, esi, edi, p, esp⟩, eflags, cs, ss, mem⟩ =
    run code (fuel + extra) (pc + 9)
      ⟨⟨callerEsp (p + 4) mem, task, ecx, edx, esi, edi, p, esp⟩, eflags', cs, ss, mem⟩ := by
  have behind : ∀ count, code.drop (pc + count) = (levelCode ++ .label 2 :: rest).drop count := by
    intro count
    rw [← List.drop_drop, left]
  have looked : run code (fuel + 4 + 3) pc
      ⟨⟨eax, task, ecx, edx, esi, edi, p, esp⟩, eflags, cs, ss, mem⟩ =
        run code (fuel + 4) (pc + 3) _ :=
    (@run_straight code (levelCode.take 3) (levelCode.drop 3 ++ .label 2 :: rest) (fuel + 4) pc _ left
      rfl).trans (congrArg _ executeAll_level)
  have selector : p + 4 + 4 = p + 8 := by bv_omega
  let flags := setFlag zeroFlag ((read32 mem (p + 8) &&& 3) &&& (read32 mem (p + 8) &&& 3) = 0)
    (setFlag zeroFlag (read32 mem (p + 8) &&& 3 = 0) eflags)
  by_cases kernel : read32 mem (p + 8) &&& 3 = 0
  · have same : callerEsp (p + 4) mem = p + 16 := by
      rw [callerEsp, selector, if_pos kernel]
      bv_omega
    have zero : flags &&& zeroFlag ≠ 0 := by
      rw [setFlag_zeroFlag, kernel]
      rfl
    have target : forward code (pc + 3) 1 = pc + 6 := by
      rw [forward, behind 4]
      rfl
    refine ⟨setFlag zeroFlag (p + 16 = 0) flags, 0, looked.trans ?_⟩
    rw [same]
    refine (@run_jz_taken code _ (fuel + 3) (pc + 3) _ 1 (behind 3) zero).trans ?_
    rw [target]
    exact @run_straight code (levelCode.drop 6) (.label 2 :: rest) fuel (pc + 6) _ (behind 6) rfl
  · have inFrame : callerEsp (p + 4) mem = read32 mem (p + 16) := by
      rw [callerEsp, selector, if_neg kernel, show p + 4 + 12 = p + 16 by bv_omega]
    have nonzero : ¬ flags &&& zeroFlag ≠ 0 := by
      rw [setFlag_zeroFlag, BitVec.and_self, decide_eq_true_eq]
      exact kernel
    have target : forward code (pc + 5) 2 = pc + 9 := by
      rw [forward, behind 6]
      rfl
    refine ⟨flags, 1, looked.trans ?_⟩
    rw [inFrame]
    refine (@run_jz_passed code _ (fuel + 3) (pc + 3) _ 1 (behind 3) nonzero).trans ?_
    refine (@run_goto code _ (fuel + 2) (pc + 4) _ (.mov (.place (.mem 16 .ebp)) (.reg .eax)) (pc + 5) _
      (behind 4) rfl).trans ?_
    have jumps : ∀ machine : Machine,
        step code (pc + 5) (.jmp 2) machine = (.goto (pc + 9), machine) := by
      intro machine
      rw [step, target]
    exact @run_goto code _ (fuel + 1) (pc + 5) _ (.jmp 2) (pc + 9) _ (behind 5) (jumps _)

/-- The stack with the scratch registers. -/
def scratch (mem : Mem) (p edx ebx eax ebp : BitVec 32) : Mem :=
  write32 (write32 (write32 (write32 mem p ebp) (p + -4) eax) (p + -8) ebx) (p + -12) edx

theorem read32_scratch : let stack := scratch mem p edx ebx eax ebp
    read32 stack (p + -12) = edx ∧ read32 stack (p + -8) = ebx ∧ read32 stack (p + -4) = eax ∧
      read32 stack p = ebp ∧ read32 stack (p + 4) = read32 mem (p + 4) ∧
      read32 stack (p + 8) = read32 mem (p + 8) ∧ read32 stack (p + 12) = read32 mem (p + 12) ∧
      read32 stack (p + 16) = read32 mem (p + 16) := by
  intro stack
  have written : stack = write32 (write32 (write32 (write32 mem (p + 0) ebp) (p + -4) eax)
      (p + -8) ebx) (p + -12) edx := by
    rw [add_zero]
    rfl
  have here : read32 stack p = read32 stack (p + 0) := by rw [add_zero]
  rw [here, written]
  refine ⟨?_, ?_, ?_, ?_, ?_, ?_, ?_, ?_⟩
  all_goals simp (disch := decide) only [read32_write32_offset, read32_write32]

theorem scratch_of_outside {addr : BitVec 32} (outside : 16 ≤ (addr - (p + -12)).toNat) :
    scratch mem p edx ebx eax ebp addr = mem addr := by
  rw [scratch, write32_of_outside _ _ (by omega), write32_of_outside _ _ (by bv_omega),
    write32_of_outside _ _ (by bv_omega), write32_of_outside _ _ (by bv_omega)]

/-- The stack is read as it was before the task was written. -/
theorem read32_storeWords_task {size : Nat} (apart : Apart (p + -12) size task 40) (mem : Mem)
    {words : List (BitVec 32)} (few : 4 * words.length ≤ 40) {k : BitVec 32}
    (inStack : (k + 12).toNat + 4 ≤ size) :
    read32 (storeWords mem task words) (p + k) = read32 mem (p + k) := by
  apply read32_storeWords_of_apart
  rcases apart with ⟨above, below⟩
  constructor <;> bv_omega

/-- The first half: the registers are in the task. -/
theorem run_registers (apart : Apart (p + -12) 28 task 40) (fuel : Nat) :
    run (saveContextAndGo task handler) (fuel + 17) 0
      ⟨⟨eax, ebx, ecx, edx, esi, edi, ebp, p + 4⟩, eflags, cs, ss, mem⟩ =
        run (saveContextAndGo task handler) fuel 17
          ⟨⟨edx, task, ecx, edx, esi, edi, p, p - 20⟩, setFlag zeroFlag (p - 20 = 0)
            (setFlag interruptFlag false eflags), cs, ss,
            storeWords (scratch mem p edx ebx eax ebp) task [eax, ebx, ecx, edx, esi, edi]⟩ := by
  have top : p + 4 - 4 = p := add_sub_cancel_right p 4
  rcases @read32_scratch p eax ebx edx ebp mem with ⟨atEdx, atEbx, atEax, _⟩
  have first : run (saveContextAndGo task handler) (fuel + 9 + 8) 0
      ⟨⟨eax, ebx, ecx, edx, esi, edi, ebp, p + 4⟩, eflags, cs, ss, mem⟩ =
        run (saveContextAndGo task handler) (fuel + 9) 8 _ :=
    run_block rfl (Nat.le_of_ble_eq_true rfl) executeAll_scratch rfl
  rw [top, ← scratch] at first
  have second : run (saveContextAndGo task handler) (fuel + 9) 8
      ⟨⟨eax, task, ecx, edx, esi, edi, p, p - 20⟩, setFlag zeroFlag (p - 20 = 0)
        (setFlag interruptFlag false eflags), cs, ss, scratch mem p edx ebx eax ebp⟩ =
        run (saveContextAndGo task handler) fuel 17 _ :=
    run_block rfl (Nat.le_of_ble_eq_true rfl) (executeAll_registers apart) rfl
  rw [atEdx, atEbx, atEax] at second
  exact first.trans second

/-- The frame and the saved `ebp` are still on the stack then. -/
theorem read32_registers (apart : Apart (p + -12) 32 task 40) :
    let written := storeWords (scratch mem p edx ebx eax ebp) task [eax, ebx, ecx, edx, esi, edi]
    read32 written p = ebp ∧ read32 written (p + 4) = read32 mem (p + 4) ∧
      read32 written (p + 12) = read32 mem (p + 12) ∧
      callerEsp (p + 4) written = callerEsp (p + 4) mem := by
  intro written
  rcases @read32_scratch p eax ebx edx ebp mem with ⟨_, _, _, atEbp, atEip, atCs, atEflags, atEsp⟩
  have few : 4 * [eax, ebx, ecx, edx, esi, edi].length ≤ 40 := Nat.le_of_ble_eq_true rfl
  have kept : ∀ {k : BitVec 32}, (k + 12).toNat + 4 ≤ 32 →
      read32 written (p + k) = read32 (scratch mem p edx ebx eax ebp) (p + k) :=
    fun inStack => read32_storeWords_task apart _ few inStack
  have selector : p + 4 + 4 = p + 8 := by bv_omega
  have stack : p + 4 + 12 = p + 16 := by bv_omega
  refine ⟨?_, (kept (by decide)).trans atEip, (kept (by decide)).trans atEflags, ?_⟩
  · have first := @kept 0 (by decide)
    rw [add_zero] at first
    exact first.trans atEbp
  · rw [callerEsp, callerEsp, selector, stack, kept (by decide), kept (by decide), atCs, atEsp]

/-- All of `save_context_and_go`: the context of the caller is in the task, and
the stack is changed below the frame only. -/
theorem run_saveContextAndGo {entry : Machine} (apart : Apart (entry.regs.esp - 16) 32 task 40)
    {fuel : Nat} (enough : 35 ≤ fuel) : ∃ stack regs eflags,
      run (saveContextAndGo task handler) fuel 0 entry = some (.jump handler,
        ⟨regs, eflags, entry.cs, entry.ss, storeWords stack task
          (contextWords { entry.regs with esp := callerEsp entry.regs.esp entry.mem }
            (read32 entry.mem entry.regs.esp) (read32 entry.mem (entry.regs.esp + 8)))⟩) ∧
      ∀ addr, 16 ≤ (addr - (entry.regs.esp - 16)).toNat → stack addr = entry.mem addr := by
  rcases Nat.exists_eq_add_of_le' enough with ⟨fuel, rfl⟩
  rcases entry with ⟨⟨eax, ebx, ecx, edx, esi, edi, ebp, esp⟩, eflags, cs, ss, mem⟩
  obtain ⟨p, rfl⟩ : ∃ p, esp = p + 4 := ⟨esp - 4, (sub_add_cancel esp 4).symm⟩
  have below : p + 4 - 16 = p + -12 := by bv_omega
  have eflagsAt : p + 4 + 8 = p + 12 := by bv_omega
  simp only [below, eflagsAt] at apart ⊢
  have below28 := apart.mono (by decide : 28 ≤ 32) (Nat.le_refl 40)
  have first := @run_registers task handler p eax ebx ecx edx esi edi ebp eflags cs ss mem below28
    (fuel + 18)
  rcases @read32_registers task p eax ebx ecx edx esi edi ebp mem apart with
    ⟨atEbp, atEip, atEflags, caller⟩
  -- the second half stores four more words behind the six
  have whole := @storeWords_append (scratch mem p edx ebx eax ebp) task
    [eax, ebx, ecx, edx, esi, edi] [callerEsp (p + 4) mem, ebp, read32 mem (p + 4), read32 mem (p + 12)]
  generalize storeWords (scratch mem p edx ebx eax ebp) task [eax, ebx, ecx, edx, esi, edi] = written
    at first atEbp atEip atEflags caller whole
  rcases @run_level task p edx ecx edx esi edi (p - 20)
    (setFlag zeroFlag (p - 20 = 0) (setFlag interruptFlag false eflags)) cs ss written
    (saveContextAndGo task handler) ((saveContextAndGo task handler).drop 27) 17 rfl (fuel + 11) with
    ⟨eflags', extra, second⟩
  have last := @run_frame task handler p (callerEsp (p + 4) written) ecx edx esi edi (p - 20) eflags'
    cs ss written below28 (fuel + extra)
  rw [atEbp, atEip, atEflags, caller] at last
  refine ⟨scratch mem p edx ebx eax ebp, ⟨handler, task, ecx, edx, esi, edi, p, p - 20⟩,
    setFlag interruptFlag true eflags', first.trans (second.trans ?_),
    fun addr outside => scratch_of_outside outside⟩
  rw [Nat.add_right_comm, caller]
  exact last.trans (congrArg (fun mem => some (Exit.jump handler, Machine.mk _ _ cs ss mem)) whole.symm)

end Save

/-! ## Restoring -/

/-- The registers in a saved task. -/
def taskRegs (task : BitVec 32) (mem : Mem) : Registers where
  eax := read32 mem task
  ebx := read32 mem (task + 4)
  ecx := read32 mem (task + 8)
  edx := read32 mem (task + 12)
  esi := read32 mem (task + 16)
  edi := read32 mem (task + 20)
  esp := read32 mem (task + 24)
  ebp := read32 mem (task + 28)

/-- The context that a task holds. -/
def Saved (task : BitVec 32) (mem : Mem) (regs : Registers) (eip eflags : BitVec 32) : Prop :=
  ∀ i (inside : i < 10),
    read32 mem (task + BitVec.ofNat 32 (4 * i)) = (contextWords regs eip eflags)[i]

section Saved

variable {task eip eflags : BitVec 32} {mem after : Mem} {regs : Registers}

theorem saved_storeWords : Saved task (storeWords mem task (contextWords regs eip eflags)) regs eip
    eflags :=
  fun _ inside => read32_storeWords (Nat.le_of_ble_eq_true rfl) inside

theorem Saved.congr (saved : Saved task mem regs eip eflags)
    (same : ∀ addr, (addr - task).toNat < 40 → after addr = mem addr) :
    Saved task after regs eip eflags := by
  intro i inside
  rw [← saved i inside]
  exact read32_congr fun addr near => same addr (by bv_omega)

/-- Whatever a task holds is a context. -/
theorem saved_taskRegs (task : BitVec 32) (mem : Mem) :
    Saved task mem (taskRegs task mem) (read32 mem (task + 32)) (read32 mem (task + 36)) := by
  have first : read32 mem (task + BitVec.ofNat 32 (4 * 0)) = read32 mem task :=
    congrArg (read32 mem) (add_zero task)
  intro i inside
  match i, inside with
  | 0, _ => exact first
  | 1, _ | 2, _ | 3, _ | 4, _ | 5, _ | 6, _ | 7, _ | 8, _ | 9, _ => rfl

theorem Saved.regsAt (saved : Saved task mem regs eip eflags) : taskRegs task mem = regs := by
  have first : read32 mem (task + 0) = regs.eax := saved 0 (by decide)
  rw [add_zero] at first
  exact Registers.ext first (saved 1 (by decide)) (saved 2 (by decide)) (saved 3 (by decide))
    (saved 4 (by decide)) (saved 5 (by decide)) (saved 7 (by decide)) (saved 6 (by decide))

theorem Saved.eipAt (saved : Saved task mem regs eip eflags) : read32 mem (task + 32) = eip :=
  saved 8 (by decide)

theorem Saved.eflagsAt (saved : Saved task mem regs eip eflags) : read32 mem (task + 36) = eflags :=
  saved 9 (by decide)

end Saved

section Restore

variable {operand : Reg} {task eax ebx ecx edx esi edi ebp esp eflags : BitVec 32}
  {cs ss : BitVec 16} {mem : Mem}

/-- The registers that the frame does not go through. -/
theorem executeAll_load (holds : Registers.get ⟨eax, ebx, ecx, edx, esi, edi, ebp, esp⟩ operand = task) :
    executeAll ((runIndir operand).take 7)
      ⟨⟨eax, ebx, ecx, edx, esi, edi, ebp, esp⟩, eflags, cs, ss, mem⟩ =
        ⟨{ taskRegs task mem with eax, ebx := task }, eflags, cs, ss, mem⟩ := by
  subst holds
  rfl

/-- The frame, and the two registers that it has gone through. -/
theorem executeAll_return (regs : Registers) (based : regs.ebx = task) :
    let framed := frameBelow mem regs.esp (read32 mem (task + 36)) 8
      (read32 (write32 mem (regs.esp - 4) (read32 mem (task + 36))) (task + 32))
    executeAll (((runIndir operand).drop 7).take 7) ⟨regs, eflags, cs, ss, mem⟩ =
      ⟨{ regs with
          eax := read32 framed (task + 0), ebx := read32 framed (task + 4)
          esp := regs.esp - 4 - 4 - 4 },
        eflags, cs, ss, framed⟩ := by
  subst based
  simp only [runIndir, List.drop_succ_cons, List.drop_zero, List.take_succ_cons, List.take_zero,
    executeAll, List.foldl_cons, List.foldl_nil, execute, Machine.load, Machine.store, Machine.setReg,
    Machine.addressOf, Machine.push, Registers.get, Registers.set]
  rfl

/-- `run_indir` returns to ring 0, whatever the task holds. -/
theorem run_runIndir {fuel : Nat} (enough : 15 ≤ fuel)
    (holds : Registers.get ⟨eax, ebx, ecx, edx, esi, edi, ebp, esp⟩ operand = task) :
    let saved := taskRegs task mem
    let eip := read32 (write32 mem (saved.esp - 4) (read32 mem (task + 36))) (task + 32)
    let framed := frameBelow mem saved.esp (read32 mem (task + 36)) 8 eip
    run (runIndir operand) fuel 0
      ⟨⟨eax, ebx, ecx, edx, esi, edi, ebp, esp⟩, eflags, cs, ss, mem⟩ = some (.jump eip,
        ⟨{ saved with eax := read32 framed (task + 0), ebx := read32 framed (task + 4) },
          read32 mem (task + 36), 8, ss, framed⟩) := by
  intro saved eip framed
  rcases Nat.exists_eq_add_of_le' enough with ⟨fuel, rfl⟩
  have loaded : run (runIndir operand) (fuel + 8 + 7) 0
      ⟨⟨eax, ebx, ecx, edx, esi, edi, ebp, esp⟩, eflags, cs, ss, mem⟩ =
        run (runIndir operand) (fuel + 8) 7 ⟨{ saved with eax, ebx := task }, eflags, cs, ss, mem⟩ :=
    run_block rfl (Nat.le_of_ble_eq_true rfl) (executeAll_load holds) rfl
  have built : run (runIndir operand) (fuel + 1 + 7) 7
      ⟨{ saved with eax, ebx := task }, eflags, cs, ss, mem⟩ = run (runIndir operand) (fuel + 1) 14 _ :=
    run_block rfl (Nat.le_of_ble_eq_true rfl) (executeAll_return _ rfl) rfl
  have returned := @iret_frameBelow saved.esp (read32 mem (task + 36)) 8 eip mem
    ⟨{ saved with
        eax := read32 framed (task + 0), ebx := read32 framed (task + 4), esp := saved.esp - 4 - 4 - 4 },
      eflags, cs, ss, framed⟩ rfl rfl (Nat.not_lt_zero _)
  refine loaded.trans (built.trans (@run_exit (runIndir operand) [] fuel 14 _ .iret _ _ rfl ?_))
  exact congrArg (fun result => (Next.exit result.1, result.2)) returned
/-- A saved context is restored as it was, in ring 0. -/
theorem run_runIndir_saved {current regs : Registers} {eip eflags' : BitVec 32}
    (saved : Saved task mem regs eip eflags) (apart : Apart (regs.esp - 12) 12 task 40)
    {fuel : Nat} (enough : 15 ≤ fuel) (holds : current.get operand = task) :
    run (runIndir operand) fuel 0 ⟨current, eflags', cs, ss, mem⟩ =
      some (.jump eip, ⟨regs, eflags, 8, ss, frameBelow mem regs.esp eflags 8 eip⟩) := by
  rcases apart with ⟨above, below⟩
  have flagsKept : Saved task (write32 mem (regs.esp - 4) eflags) regs eip eflags :=
    saved.congr fun addr inside => write32_of_outside _ _ (by bv_omega)
  have frameKept : Saved task (frameBelow mem regs.esp eflags 8 eip) regs eip eflags :=
    saved.congr fun addr inside => frameBelow_of_outside (by bv_omega)
  have eaxAt : read32 (frameBelow mem regs.esp eflags 8 eip) (task + 0) = regs.eax :=
    frameKept 0 (by decide)
  have ebxAt : read32 (frameBelow mem regs.esp eflags 8 eip) (task + 4) = regs.ebx :=
    frameKept 1 (by decide)
  rcases current with ⟨eax, ebx, ecx, edx, esi, edi, ebp, esp⟩
  have returned := @run_runIndir operand task eax ebx ecx edx esi edi ebp esp eflags' cs ss mem fuel
    enough holds
  simp only [saved.regsAt, saved.eflagsAt, flagsKept.eipAt, eaxAt, ebxAt] at returned
  exact returned

end Restore

end Syscall

end WeakOS
