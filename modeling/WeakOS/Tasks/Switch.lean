import Mathlib
import WeakOS.Tasks.Model

namespace WeakOS

open X86 Foundation Syscall

namespace Tasks

/-!
# One switch

What `c8_handler_i` does, in three steps: it saves the context of the running
task in its entry, advances `cur_task`, and loads the context of the next task.
The multiplications and the division clobber registers that have been saved
before.
-/

/-- The memory that the handler relies on: the saved registers, `cur_task` and
`task_cnt`. -/
def Layout.Guarded (layout : Layout) (addr : BitVec 32) : Prop :=
  (∃ i < layout.count, (addr - layout.task i).toNat < 40) ∨ (addr - layout.curTask).toNat < 4 ∨
    (addr - layout.taskCnt).toNat < 4

section Layout

variable (layout : Layout) {i j : Nat}

theorem Layout.count_lt : layout.count < 2 ^ 32 := by
  have fits := layout.fits
  unfold taskSize taskStackSize at fits
  omega

/-- The handler computes the address of an entry in 32 bits. -/
theorem Layout.tasks_add (i : Nat) :
    layout.tasks + BitVec.ofNat 32 i * BitVec.ofNat 32 taskSize = layout.task i := by
  rw [Layout.task, BitVec.ofNat_mul]

/-- The entries lie behind each other, without wrapping around. -/
theorem Layout.task_fits (inside : i < layout.count) : i * taskSize + taskSize ≤ 2 ^ 32 := by
  have next := Nat.mul_le_mul_right taskSize (Nat.succ_le_of_lt inside)
  rw [Nat.succ_mul] at next
  exact Nat.le_trans next layout.fits

theorem Layout.task_apart (first : i < layout.count) (second : j < layout.count) (ne : i ≠ j) :
    Apart (layout.task i) taskSize (layout.task j) taskSize := by
  have order : ∀ {low high : Nat}, low < high → low * taskSize + taskSize ≤ high * taskSize := by
    intro low high less
    have next := Nat.mul_le_mul_right taskSize (Nat.succ_le_of_lt less)
    rwa [Nat.succ_mul] at next
  rcases Nat.lt_or_gt_of_ne ne with less | more
  · exact apart_of_offsets _ (order less) (by decide) (by decide) (layout.task_fits second)
  · exact (apart_of_offsets _ (order more) (by decide) (by decide) (layout.task_fits first)).symm

/-- An entry is apart from what the whole array is apart from. -/
theorem Layout.task_apart_of {addr : BitVec 32}
    (apart : Apart layout.tasks (layout.count * taskSize) addr 4) (inside : i < layout.count) :
    Apart (layout.task i) taskSize addr 4 := by
  have within := layout.task_fits inside
  have next := Nat.mul_le_mul_right taskSize (Nat.succ_le_of_lt inside)
  rw [Nat.succ_mul] at next
  rcases apart with ⟨behind, before⟩
  have size : taskSize = 4136 := rfl
  unfold Layout.task
  generalize i * taskSize = offset at *
  generalize layout.count * taskSize = total at *
  rw [size] at *
  constructor <;> bv_omega

theorem Layout.task_curTask (inside : i < layout.count) : Apart (layout.task i) taskSize layout.curTask 4 :=
  layout.task_apart_of layout.curTaskApart inside

theorem Layout.task_taskCnt (inside : i < layout.count) : Apart (layout.task i) taskSize layout.taskCnt 4 :=
  layout.task_apart_of layout.taskCntApart inside

end Layout

/-! ## Saving -/

section Save

variable {layout : Layout} {cur : Nat} {p eax ebx ecx edx esi edi ebp esp eflags : BitVec 32}
  {cs ss : BitVec 16} {mem : Mem}

/-- The scratch registers go to the stack, and `cur_task` is read. -/
theorem executeAll_enter : executeAll (c8Enter layout)
    ⟨⟨eax, ebx, ecx, edx, esi, edi, ebp, p + 4⟩, eflags, cs, ss, mem⟩ =
      ⟨⟨read32 (scratch mem p edx ebx eax ebp) layout.curTask, layout.tasks, ecx,
          BitVec.ofNat 32 taskSize, esi, edi, p, p - 20⟩,
        setFlag zeroFlag (p - 20 = 0) (setFlag interruptFlag false eflags), cs, ss,
        scratch mem p edx ebx eax ebp⟩ := by
  have parts : c8Enter layout = (saveContextAndGo layout.tasks 0).take 8 ++
      [.mov (.imm layout.curTask) (.reg .eax), .mov (.imm (BitVec.ofNat 32 taskSize)) (.reg .edx),
        .mov (.place (.mem 0 .eax)) (.reg .eax)] := rfl
  have top : p + 4 - 4 = p := add_sub_cancel_right p 4
  rw [parts, executeAll_append, executeAll_scratch, top, ← scratch]
  simp only [executeAll, List.foldl_cons, List.foldl_nil, execute, Machine.load, Machine.store,
    Machine.setReg, Machine.addressOf, Registers.get, Registers.set, add_zero]

/-- The entry of the task is found, and the registers go there. -/
theorem executeAll_c8Save {task : BitVec 32} (apart : Apart (p + -12) 28 task 40)
    (based : layout.tasks + eax = task) : executeAll ((c8Save layout).take 10)
      ⟨⟨eax, layout.tasks, ecx, edx, esi, edi, p, esp⟩, eflags, cs, ss, mem⟩ =
    ⟨⟨read32 mem (p + -12), task, ecx, edx, esi, edi, p, esp⟩, setFlag zeroFlag (task = 0) eflags, cs, ss,
      storeWords mem task [read32 mem (p + -4), read32 mem (p + -8), ecx, read32 mem (p + -12),
        esi, edi]⟩ := by
  have parts : (c8Save layout).take 10 =
      [.add (.place (.reg .eax)) .ebx] ++ ((saveContextAndGo task 0).drop 8).take 9 := rfl
  subst based
  rw [parts, executeAll_append]
  exact executeAll_registers apart

/-- The frame goes there as well, and `cur_task` is read again. -/
theorem executeAll_c8Save_rest {task : BitVec 32} (apart : Apart (p + -12) 28 task 40) :
    executeAll ((c8Save layout).drop 19)
      ⟨⟨eax, task, ecx, edx, esi, edi, p, esp⟩, eflags, cs, ss, mem⟩ =
    let stored := storeWords mem (task + 24)
      [eax, read32 mem p, read32 mem (p + 4), read32 mem (p + 12)]
    ⟨⟨read32 stored layout.curTask, task, layout.curTask, edx, esi, edi, p, esp⟩, eflags, cs, ss,
      stored⟩ := by
  have parts : (c8Save layout).drop 19 = ((saveContextAndGo task 0).drop 26).take 8 ++
      [.mov (.imm layout.curTask) (.reg .ecx), .mov (.place (.mem 0 .ecx)) (.reg .eax)] := rfl
  rw [parts, executeAll_append, executeAll_rest apart]
  simp only [executeAll, List.foldl_cons, List.foldl_nil, execute, Machine.load, Machine.store,
    Machine.setReg, Machine.addressOf, Registers.get, Registers.set, add_zero]

/-- From label 2 on, with the caller's stack pointer in `eax`. -/
theorem run_c8Save_rest {task : BitVec 32} (apart : Apart (p + -12) 28 task 40) (fuel : Nat) :
    let stored := storeWords mem (task + 24)
      [eax, read32 mem p, read32 mem (p + 4), read32 mem (p + 12)]
    run (c8Save layout) (fuel + 11) 19
      ⟨⟨eax, task, ecx, edx, esi, edi, p, esp⟩, eflags, cs, ss, mem⟩ =
    some (.fallThrough, ⟨⟨read32 stored layout.curTask, task, layout.curTask, edx, esi, edi, p, esp⟩,
      eflags, cs, ss, stored⟩) := by
  intro stored
  have executed : run (c8Save layout) (fuel + 1 + 10) 19
      ⟨⟨eax, task, ecx, edx, esi, edi, p, esp⟩, eflags, cs, ss, mem⟩ =
        run (c8Save layout) (fuel + 1) 29 _ :=
    run_block rfl (Nat.le_of_ble_eq_true rfl) (executeAll_c8Save_rest apart) rfl
  exact executed.trans (run_end rfl)

/-- What the handler has saved, for a frame in ring 0. -/
def savedWords (mem : Mem) (p ecx esi edi : BitVec 32) : List (BitVec 32) :=
  contextWords ⟨read32 mem (p + -4), read32 mem (p + -8), ecx, read32 mem (p + -12), esi, edi,
    read32 mem p, p + 16⟩ (read32 mem (p + 4)) (read32 mem (p + 12))

/-- The whole context goes to the task. -/
theorem run_c8Save {task : BitVec 32} (apart : Apart (p + -12) 28 task 40)
    (based : layout.tasks + eax = task) (ring0 : read32 mem (p + 8) &&& 3 = 0) :
    let stored := storeWords mem task (savedWords mem p ecx esi edi)
    ∃ eflags', run (c8Save layout) 64 0
      ⟨⟨eax, layout.tasks, ecx, edx, esi, edi, p, esp⟩, eflags, cs, ss, mem⟩ =
    some (.fallThrough, ⟨⟨read32 stored layout.curTask, task, layout.curTask, edx, esi, edi, p, esp⟩,
      eflags', cs, ss, stored⟩) := by
  intro stored
  let words := [read32 mem (p + -4), read32 mem (p + -8), ecx, read32 mem (p + -12), esi, edi]
  have kept : ∀ {k : BitVec 32}, (k + 12).toNat + 4 ≤ 28 →
      read32 (storeWords mem task words) (p + k) = read32 mem (p + k) :=
    fun inStack => read32_storeWords_task apart mem (Nat.le_of_ble_eq_true rfl) inStack
  have atEbp := @kept 0 (by decide)
  have atEip := @kept 4 (by decide)
  have atEflags := @kept 12 (by decide)
  rw [add_zero] at atEbp
  have caller : callerEsp (p + 4) (storeWords mem task words) = p + 16 := by
    rw [callerEsp, show p + 4 + 4 = p + 8 by bv_omega, kept (by decide), if_pos ring0]
    bv_omega
  have whole : stored = storeWords (storeWords mem task words) (task + 24)
      [p + 16, read32 mem p, read32 mem (p + 4), read32 mem (p + 12)] :=
    storeWords_append words [p + 16, read32 mem p, read32 mem (p + 4), read32 mem (p + 12)]
  have first : run (c8Save layout) (54 + 10) 0
      ⟨⟨eax, layout.tasks, ecx, edx, esi, edi, p, esp⟩, eflags, cs, ss, mem⟩ =
        run (c8Save layout) 54 10 _ :=
    run_block rfl (Nat.le_of_ble_eq_true rfl) (executeAll_c8Save apart based) rfl
  rcases @run_level task p (read32 mem (p + -12)) ecx edx esi edi esp
    (setFlag zeroFlag (task = 0) eflags) cs ss (storeWords mem task words) (c8Save layout)
    ((c8Save layout).drop 20) 10 rfl (36 + 11) with ⟨eflags', extra, second⟩
  rw [caller] at second
  have third := @run_c8Save_rest layout p (p + 16) ecx edx esi edi esp eflags' cs ss
    (storeWords mem task words) task apart (36 + extra)
  rw [atEbp, atEip, atEflags, ← whole] at third
  refine ⟨eflags', first.trans (second.trans ?_)⟩
  rw [Nat.add_right_comm]
  exact third

/-- The first half of the handler: the context of task `cur` is in its entry, and
the stack is changed below the frame only. -/
theorem runParts_save (inside : cur < layout.count)
    (current : read32 mem layout.curTask = BitVec.ofNat 32 cur)
    (apartTask : Apart (p + -12) 28 (layout.task cur) 40)
    (apartCurTask : Apart (p + -12) 28 layout.curTask 4) (ring0 : read32 mem (p + 8) &&& 3 = 0) :
    ∃ stack regs eflags',
      runParts 64 (c8HandlerI layout)
        ⟨⟨eax, ebx, ecx, edx, esi, edi, ebp, p + 4⟩, eflags, cs, ss, mem⟩ =
      runParts 64 (c8Advance layout ++ [.block c8Load]) ⟨regs, eflags', cs, ss,
        storeWords stack (layout.task cur) (contextWords ⟨eax, ebx, ecx, edx, esi, edi, ebp, p + 16⟩
          (read32 mem (p + 4)) (read32 mem (p + 12)))⟩ ∧
      regs.eax = BitVec.ofNat 32 cur ∧ regs.ecx = layout.curTask ∧
      ∀ addr, 16 ≤ (addr - (p + -12)).toNat → stack addr = mem addr := by
  rcases @read32_scratch p eax ebx edx ebp mem with
    ⟨atEdx, atEbx, atEax, atEbp, atEip, atCs, atEflags, _⟩
  have outside : ∀ addr, 16 ≤ (addr - (p + -12)).toNat → scratch mem p edx ebx eax ebp addr = mem addr :=
    fun addr far => scratch_of_outside far
  generalize stackEq : scratch mem p edx ebx eax ebp = stack at *
  have atCurTask : read32 stack layout.curTask = BitVec.ofNat 32 cur := by
    rw [← current]
    rcases apartCurTask with ⟨behind, before⟩
    exact read32_congr fun addr near => outside addr (by bv_omega)
  have first : runParts 64 (c8HandlerI layout)
      ⟨⟨eax, ebx, ecx, edx, esi, edi, ebp, p + 4⟩, eflags, cs, ss, mem⟩ = _ :=
    runParts_straight rfl (Nat.le_of_ble_eq_true rfl)
  rw [executeAll_enter, stackEq, atCurTask] at first
  let product := (BitVec.ofNat 32 cur).setWidth 64 * (BitVec.ofNat 32 taskSize).setWidth 64
  have low : layout.tasks + product.setWidth 32 = layout.task cur := by
    rw [setWidth_mul_setWidth, layout.tasks_add]
  have second := @runParts_arith 64 (.mul .edx)
    (.block (c8Save layout) :: (c8Advance layout ++ [.block c8Load]))
    ⟨⟨BitVec.ofNat 32 cur, layout.tasks, ecx, BitVec.ofNat 32 taskSize, esi, edi, p, p - 20⟩,
      setFlag zeroFlag (p - 20 = 0) (setFlag interruptFlag false eflags), cs, ss, stack⟩ _ rfl
  rcases @run_c8Save layout p (product.setWidth 32) ecx (product.extractLsb' 32 32) esi edi (p - 20)
    (setFlag zeroFlag (p - 20 = 0) (setFlag interruptFlag false eflags)) cs ss stack _ apartTask low
    (atCs.symm ▸ ring0) with ⟨eflags', saved⟩
  have words : savedWords stack p ecx esi edi = contextWords ⟨eax, ebx, ecx, edx, esi, edi, ebp, p + 16⟩
      (read32 mem (p + 4)) (read32 mem (p + 12)) := by
    rw [savedWords, atEax, atEbx, atEdx, atEbp, atEip, atEflags]
  have third := @runParts_block 64 _ (c8Advance layout ++ [.block c8Load]) _ _ saved
  rw [words] at third
  have unchanged : read32 (storeWords stack (layout.task cur)
      (contextWords ⟨eax, ebx, ecx, edx, esi, edi, ebp, p + 16⟩ (read32 mem (p + 4))
        (read32 mem (p + 12)))) layout.curTask = BitVec.ofNat 32 cur :=
    (read32_storeWords_of_apart ((layout.task_curTask inside).mono (Nat.le_of_ble_eq_true rfl) (Nat.le_refl 4))).trans
      atCurTask
  exact ⟨stack, _, eflags', first.trans (second.trans third), unchanged, rfl, outside⟩

end Save

/-! ## Advancing -/

section Advance

variable {layout : Layout} {cur : Nat} {eax ebx ecx edx esi edi ebp esp eflags : BitVec 32}
  {cs ss : BitVec 16} {mem : Mem}

/-- The next task, as `div` computes it. -/
theorem ofNat_next (layout : Layout) (inside : cur < layout.count) :
    (BitVec.ofNat 32 cur + 1) % BitVec.ofNat 32 layout.count =
      BitVec.ofNat 32 ((cur + 1) % layout.count) := by
  have small := layout.count_lt
  have remainder := Nat.mod_lt (cur + 1) layout.positive
  have next : BitVec.ofNat 32 cur + 1 = BitVec.ofNat 32 (cur + 1) := (BitVec.ofNat_add cur 1).symm
  apply BitVec.eq_of_toNat_eq
  rw [next, BitVec.toNat_umod, BitVec.toNat_ofNat, BitVec.toNat_ofNat, BitVec.toNat_ofNat,
    Nat.mod_eq_of_lt small, Nat.mod_eq_of_lt (by omega : cur + 1 < 2 ^ 32),
    Nat.mod_eq_of_lt (by omega : (cur + 1) % layout.count < 2 ^ 32)]

/-- The next number is computed, and `task_cnt` is read. -/
theorem runParts_inc (rest : List Part) : ∃ eflags',
    runParts 64 (c8Advance layout ++ rest)
      ⟨⟨eax, ebx, ecx, edx, esi, edi, ebp, esp⟩, eflags, cs, ss, mem⟩ =
    runParts 64 ((c8Advance layout).drop 3 ++ rest)
      ⟨⟨eax + 1, ebx, ecx, 0, read32 mem layout.taskCnt, edi, ebp, esp⟩, eflags', cs, ss, mem⟩ := by
  refine ⟨setFlag zeroFlag ((0 : BitVec 32) = 0) (setFlag zeroFlag (eax + 1 = 0) eflags), ?_⟩
  simp only [c8Advance, List.cons_append, List.drop_succ_cons, List.drop_zero, runParts_arith_eq,
    Arith.execute, Option.bind_some, Machine.setResult, Machine.setReg, Registers.get, Registers.set,
    BitVec.xor_self]
  rw [runParts_straight rfl (Nat.le_of_ble_eq_true rfl)]
  simp only [executeAll, List.foldl_cons, List.foldl_nil, execute, Machine.load, Machine.store,
    Machine.setReg, Machine.addressOf, Registers.get, Registers.set, add_zero]
  rfl

/-- The remainder goes to `cur_task`, and is multiplied. -/
theorem runParts_remainder (rest : List Part) :
    runParts 64 ((c8Advance layout).drop 4 ++ rest)
      ⟨⟨eax, ebx, ecx, edx, esi, edi, ebp, esp⟩, eflags, cs, ss, mem⟩ =
    runParts 64 rest
      ⟨⟨edx * BitVec.ofNat 32 taskSize, layout.tasks, ecx,
        (edx.setWidth 64 * (BitVec.ofNat 32 taskSize).setWidth 64).extractLsb' 32 32, esi, edi, ebp, esp⟩,
        eflags, cs, ss, write32 mem ecx edx⟩ := by
  simp only [c8Advance, List.cons_append, List.drop_succ_cons, List.drop_zero]
  rw [runParts_straight rfl (Nat.le_of_ble_eq_true rfl)]
  simp only [executeAll, List.foldl_cons, List.foldl_nil, execute, Machine.load, Machine.store,
    Machine.setReg, Machine.addressOf, Registers.get, Registers.set, add_zero, runParts_arith_eq,
    Arith.execute, Option.bind_some, setWidth_mul_setWidth, List.nil_append]

/-- `cur_task` is advanced, and the entry of the next task is found. -/
theorem runParts_advance (inside : cur < layout.count)
    (counted : read32 mem layout.taskCnt = BitVec.ofNat 32 layout.count) (rest : List Part) :
    let next := (cur + 1) % layout.count
    ∃ regs eflags',
      runParts 64 (c8Advance layout ++ rest)
        ⟨⟨BitVec.ofNat 32 cur, ebx, layout.curTask, edx, esi, edi, ebp, esp⟩, eflags, cs, ss, mem⟩ =
      runParts 64 rest ⟨regs, eflags', cs, ss, write32 mem layout.curTask (BitVec.ofNat 32 next)⟩ ∧
      layout.tasks + regs.eax = layout.task next ∧ regs.ebx = layout.tasks := by
  intro next
  have small := layout.count_lt
  have nonzero : BitVec.ofNat 32 layout.count ≠ 0 := by
    have positive := layout.positive
    bv_omega
  rcases @runParts_inc layout (BitVec.ofNat 32 cur) ebx layout.curTask edx esi edi ebp esp eflags cs ss
    mem rest with ⟨eflags', first⟩
  rw [counted] at first
  have second := @runParts_arith 64 (.div .esi) ((c8Advance layout).drop 4 ++ rest)
    ⟨⟨BitVec.ofNat 32 cur + 1, ebx, layout.curTask, 0, BitVec.ofNat 32 layout.count, edi, ebp, esp⟩,
      eflags', cs, ss, mem⟩ _ (execute_div rfl nonzero)
  have third := @runParts_remainder layout ((BitVec.ofNat 32 cur + 1) / BitVec.ofNat 32 layout.count)
    ebx layout.curTask ((BitVec.ofNat 32 cur + 1) % BitVec.ofNat 32 layout.count)
    (BitVec.ofNat 32 layout.count) edi ebp esp eflags' cs ss mem rest
  have whole := first.trans (second.trans third)
  rw [ofNat_next layout inside] at whole
  exact ⟨_, eflags', whole, layout.tasks_add next, rfl⟩

end Advance

/-! ## Loading -/

/-- A saved context is loaded as it was: behind its first instruction the code
is that of `run_indir`. -/
theorem run_c8Load {task eip eflags eflags' : BitVec 32} {cs ss : BitVec 16} {mem : Mem}
    {current regs : Registers} (saved : Saved task mem regs eip eflags)
    (apart : Apart (regs.esp - 12) 12 task 40) (based : current.ebx + current.eax = task) :
    run c8Load 64 0 ⟨current, eflags', cs, ss, mem⟩ =
      some (.jump eip, ⟨regs, eflags, 8, ss, frameBelow mem regs.esp eflags 8 eip⟩) := by
  have added : run c8Load 64 0 ⟨current, eflags', cs, ss, mem⟩ =
      run c8Load 63 1 ⟨{ current with ebx := task }, setFlag zeroFlag (task = 0) eflags', cs, ss, mem⟩ := by
    subst based
    rfl
  have moved : run (runIndir .ebx) 64 0
      ⟨{ current with ebx := task }, setFlag zeroFlag (task = 0) eflags', cs, ss, mem⟩ =
      run (runIndir .ebx) 63 1
        ⟨{ current with ebx := task }, setFlag zeroFlag (task = 0) eflags', cs, ss, mem⟩ := rfl
  have same : run c8Load 63 1
      ⟨{ current with ebx := task }, setFlag zeroFlag (task = 0) eflags', cs, ss, mem⟩ =
      run (runIndir .ebx) 63 1
        ⟨{ current with ebx := task }, setFlag zeroFlag (task = 0) eflags', cs, ss, mem⟩ :=
    run_congr rfl rfl 63 _
  rw [added, same, ← moved]
  exact run_runIndir_saved saved apart (by decide) rfl

/-! ## The whole handler -/

/-- The words below a stack pointer are apart from what the handler relies on. -/
def Layout.ClearBelow (layout : Layout) (size : Nat) (esp : BitVec 32) : Prop :=
  ∀ addr, layout.Guarded addr → size ≤ (addr - (esp - BitVec.ofNat 32 size)).toNat

/-- What the handler has written before it loads the next task. -/
structure Stored (layout : Layout) (cur : Nat) (machine : Machine) (eip : BitVec 32) (stored : Mem) :
    Prop where
  saved : Saved (layout.task cur) stored machine.regs eip machine.eflags
  current : read32 stored layout.curTask = BitVec.ofNat 32 ((cur + 1) % layout.count)
  others : ∀ addr, 28 ≤ (addr - (machine.regs.esp - 28)).toNat →
    40 ≤ (addr - layout.task cur).toNat → 4 ≤ (addr - layout.curTask).toNat →
    stored addr = machine.mem addr

section Handler

variable {layout : Layout} {cur : Nat} {machine : Machine} {eip : BitVec 32}

theorem Layout.ClearBelow.task {size : Nat} {esp : BitVec 32} (clear : layout.ClearBelow size esp)
    (some : 0 < size) {i : Nat} (inside : i < layout.count) :
    Apart (esp - BitVec.ofNat 32 size) size (layout.task i) 40 :=
  apart_of_disjoint some (by decide) (fun addr near => clear addr (Or.inl ⟨i, inside, near⟩))

theorem Layout.ClearBelow.curTask {size : Nat} {esp : BitVec 32} (clear : layout.ClearBelow size esp)
    (some : 0 < size) : Apart (esp - BitVec.ofNat 32 size) size layout.curTask 4 :=
  apart_of_disjoint some (by decide) (fun addr near => clear addr (Or.inr (Or.inl near)))

theorem Layout.ClearBelow.taskCnt {size : Nat} {esp : BitVec 32} (clear : layout.ClearBelow size esp)
    (some : 0 < size) : Apart (esp - BitVec.ofNat 32 size) size layout.taskCnt 4 :=
  apart_of_disjoint some (by decide) (fun addr near => clear addr (Or.inr (Or.inr near)))

/-- The interrupt pushes a frame on the stack of the running task. -/
theorem c8Handler_entered (ring0 : privilege machine.cs = 0) (esp0 : BitVec 32) (ss0 : BitVec 16) :
    c8Handler layout (c8Gate esp0 ss0) eip machine = runParts 64 (c8HandlerI layout)
      ⟨{ machine.regs with esp := machine.regs.esp - 4 - 4 - 4 },
        setFlag interruptFlag false machine.eflags, 8, machine.ss,
        frameBelow machine.mem machine.regs.esp machine.eflags (machine.cs.setWidth 32) eip⟩ := by
  have inner : ¬ privilege (c8Gate esp0 ss0).selector < privilege machine.cs := by
    rw [ring0]
    exact Nat.not_lt_zero _
  exact congrArg (runParts 64 (c8HandlerI layout)) (interrupt_same inner)

/-- Where the words of the frame are, from the word below it. -/
theorem frame_offsets (p : BitVec 32) : p + 16 - 4 - 4 - 4 = p + 4 ∧ p + 16 - 4 - 4 = p + 8 ∧
    p + 16 - 4 = p + 12 ∧ p + 16 - BitVec.ofNat 32 28 = p + -12 := by
  refine ⟨?_, ?_, ?_, ?_⟩ <;> bv_omega

/-- The frame is a part of what the handler writes on the stack. -/
theorem frame_inside (p addr : BitVec 32) (far : 28 ≤ (addr - (p + -12)).toNat) :
    12 ≤ (addr - (p + 16 - 12)).toNat := by
  bv_omega

/-- From the interrupt to the end of the first half: the context that the
interrupt has found is in the entry of the task. -/
theorem c8Handler_saves (ring0 : privilege machine.cs = 0) (inside : cur < layout.count)
    (current : read32 machine.mem layout.curTask = BitVec.ofNat 32 cur)
    (clear : layout.ClearBelow 28 machine.regs.esp) (esp0 : BitVec 32) (ss0 : BitVec 16) :
    ∃ stack regs eflags',
      c8Handler layout (c8Gate esp0 ss0) eip machine =
        runParts 64 (c8Advance layout ++ [.block c8Load]) ⟨regs, eflags', 8, machine.ss,
          storeWords stack (layout.task cur) (contextWords machine.regs eip machine.eflags)⟩ ∧
      regs.eax = BitVec.ofNat 32 cur ∧ regs.ecx = layout.curTask ∧
      ∀ addr, 28 ≤ (addr - (machine.regs.esp - 28)).toNat → stack addr = machine.mem addr := by
  rcases machine with ⟨⟨eax, ebx, ecx, edx, esi, edi, ebp, esp⟩, eflags, cs, ss, mem⟩
  obtain ⟨p, rfl⟩ : ∃ p, esp = p + 16 := ⟨esp - 16, (sub_add_cancel esp 16).symm⟩
  rcases frame_offsets p with ⟨bottom, csAt, eflagsAt, start⟩
  have entered := @c8Handler_entered layout _ eip ring0 esp0 ss0
  dsimp only at entered
  rw [bottom] at entered
  rcases read32_frameBelow mem (p + 16) eflags (cs.setWidth 32) eip with ⟨atEip, atCs, atEflags⟩
  rw [bottom] at atEip
  rw [csAt] at atCs
  rw [eflagsAt] at atEflags
  have framed : ∀ addr, 28 ≤ (addr - (p + -12)).toNat →
      frameBelow mem (p + 16) eflags (cs.setWidth 32) eip addr = mem addr :=
    fun addr far => frameBelow_of_outside (frame_inside p addr far)
  generalize frameBelow mem (p + 16) eflags (cs.setWidth 32) eip = frame at *
  have atTask := clear.task (by decide) inside
  have atCurTask := clear.curTask (by decide)
  dsimp only at atTask atCurTask current
  rw [start] at atTask atCurTask
  have selector : read32 frame (p + 8) &&& 3 = 0 := by
    rw [atCs]
    exact setWidth_and_three_eq_zero ring0
  have currentFramed : read32 frame layout.curTask = BitVec.ofNat 32 cur := by
    rw [← current]
    exact read32_congr fun addr near => framed addr (atCurTask.outside near)
  rcases @runParts_save layout cur p eax ebx ecx edx esi edi ebp (setFlag interruptFlag false eflags) 8 ss
    frame inside currentFramed atTask atCurTask selector with
    ⟨stack, regs, eflags', saved, eaxAt, ecxAt, outside⟩
  rw [atEip, atEflags] at saved
  refine ⟨stack, regs, eflags', entered.trans saved, eaxAt, ecxAt, ?_⟩
  intro addr aboveStack
  have far : 28 ≤ (addr - (p + -12)).toNat := start ▸ aboveStack
  rw [outside addr (by omega), framed addr far]

/-- One switch: the context of the running task is saved, and that of the next
one is loaded. -/
theorem c8Handler_spec (ring0 : privilege machine.cs = 0) (inside : cur < layout.count)
    (current : read32 machine.mem layout.curTask = BitVec.ofNat 32 cur)
    (counted : read32 machine.mem layout.taskCnt = BitVec.ofNat 32 layout.count)
    (clear : layout.ClearBelow 28 machine.regs.esp) (esp0 : BitVec 32) (ss0 : BitVec 16) :
    ∃ stored, Stored layout cur machine eip stored ∧
      ∀ {regs : Registers} {target eflags : BitVec 32},
        Saved (layout.task ((cur + 1) % layout.count)) stored regs target eflags →
        Apart (regs.esp - 12) 12 (layout.task ((cur + 1) % layout.count)) 40 →
        c8Handler layout (c8Gate esp0 ss0) eip machine = some (.jump target,
          ⟨regs, eflags, 8, machine.ss, frameBelow stored regs.esp eflags 8 target⟩) := by
  rcases @c8Handler_saves layout cur machine eip ring0 inside current clear esp0 ss0 with
    ⟨stack, ⟨_, ebx, _, edx, esi, edi, ebp, esp⟩, eflags', saves, eaxAt, ecxAt, outside⟩
  dsimp only at eaxAt ecxAt
  subst eaxAt ecxAt
  have entry : Saved (layout.task cur)
      (storeWords stack (layout.task cur) (contextWords machine.regs eip machine.eflags)) machine.regs eip
      machine.eflags := saved_storeWords
  have ten : 4 * (contextWords machine.regs eip machine.eflags).length = 40 := rfl
  generalize contextWords machine.regs eip machine.eflags = words at *
  have small : 40 ≤ taskSize := by decide
  have countedStored : read32 (storeWords stack (layout.task cur) words) layout.taskCnt =
      BitVec.ofNat 32 layout.count := by
    have apart := (layout.task_taskCnt inside).mono (ten.trans_le small) (Nat.le_refl 4)
    rw [read32_storeWords_of_apart apart, ← counted]
    exact read32_congr fun addr near => outside addr ((clear.taskCnt (by decide)).outside near)
  rcases @runParts_advance layout cur ebx edx esi edi ebp esp eflags' 8 machine.ss _ inside countedStored
    [.block c8Load] with ⟨regs', eflags'', advanced, based, ebxAt⟩
  have apart := (layout.task_curTask inside).mono small (Nat.le_refl 4)
  refine ⟨write32 (storeWords stack (layout.task cur) words) layout.curTask
    (BitVec.ofNat 32 ((cur + 1) % layout.count)), ⟨?_, read32_write32 _ _ _, ?_⟩, ?_⟩
  · -- `cur_task` is not a part of the entry
    exact entry.congr fun addr near => write32_of_outside _ _ (apart.symm.outside near)
  · intro addr aboveStack outsideTask outsideCurTask
    rw [write32_of_outside _ _ outsideCurTask, storeWords_of_outside (by omega), outside addr aboveStack]
  · intro regs target flags savedNext apartNext
    rw [saves, advanced]
    exact runParts_jump (run_c8Load savedNext apartNext (by rw [ebxAt]; exact based))

end Handler

end Tasks

end WeakOS
