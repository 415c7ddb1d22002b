import Mathlib
import WeakOS.Foundation.Run
import WeakOS.Tasks.Switch

namespace WeakOS

open X86 Foundation Syscall

namespace Tasks

/-!
# Taking turns

The handler against the scheduler that it implements.  The entry of every task
that does not run holds what the scheduler has put aside for it, or what
`mk_task` has written.  A task keeps this as long as it leaves alone what the
handler relies on; its own stack and those of the others are its own business.
-/

/-- What a task may do.  It leaves the saved registers, `cur_task` and `task_cnt`
alone, and when it gives up the processor in ring 0, there is room on its stack
for the frame and for the four words that the handler saves there first. -/
def Allowed (layout : Layout) (system : System) : Event → Prop
  | .code machine _ => ∀ addr, layout.Guarded addr → machine.mem addr = system.machine.mem addr
  | .int0xc8 _ _ => privilege system.machine.cs = 0 ∧ layout.ClearBelow 28 system.machine.regs.esp

/-- The entry of a task that does not run. -/
def Waits (layout : Layout) (mem : Mem) (i : Nat) : Option Context → Prop
  | some context =>
      Saved (layout.task i) mem context.regs context.eip context.eflags ∧
        layout.ClearBelow 28 context.regs.esp
  | none =>
      read32 mem (layout.task i + 24) = layout.stackTop i ∧
        read32 mem (layout.task i + 32) = layout.entry i ∧ read32 mem (layout.task i + 36) = 0x200

/-- How a task goes on: as it was, or as `mk_task` has prepared it. -/
def GoesOn (layout : Layout) (i : Nat) (system : System) : Option Context → Prop
  | some context => system.context = context
  | none =>
      system.machine.regs.esp = layout.stackTop i ∧ system.eip = layout.entry i ∧
        system.machine.eflags = 0x200

/-- The memory is what the scheduler says. -/
structure Agrees (layout : Layout) (system : System) : Prop where
  counted : read32 system.machine.mem layout.taskCnt = BitVec.ofNat 32 layout.count
  inside : system.tasks.current < layout.count
  current : read32 system.machine.mem layout.curTask = BitVec.ofNat 32 system.tasks.current
  waits : ∀ i < layout.count, i ≠ system.tasks.current →
    Waits layout system.machine.mem i (system.tasks.suspended i)

section Guarded

variable {layout : Layout} {mem after : Mem} {i : Nat}

/-- The entry decides what waits. -/
theorem Waits.congr {context : Option Context} (waits : Waits layout mem i context)
    (same : ∀ addr, (addr - layout.task i).toNat < 40 → after addr = mem addr) :
    Waits layout after i context := by
  cases context with
  | some context => exact ⟨waits.1.congr same, waits.2⟩
  | none =>
      rcases waits with ⟨esp, eip, eflags⟩
      refine ⟨esp ▸ read32_congr ?_, eip ▸ read32_congr ?_, eflags ▸ read32_congr ?_⟩
      all_goals exact fun addr near => same addr (by bv_omega)

/-- A guarded byte is not on a stack. -/
theorem Layout.Guarded.outside {addr : BitVec 32} (guarded : layout.Guarded addr)
    (inside : i < layout.count) :
    (addr - layout.task i).toNat < 40 ∨ taskSize ≤ (addr - layout.task i).toNat := by
  rcases guarded with ⟨j, insideToo, near⟩ | near | near
  · by_cases same : i = j
    · exact Or.inl (same ▸ near)
    · have apart := (layout.task_apart inside insideToo same).mono (Nat.le_refl taskSize)
        (by decide : 40 ≤ taskSize)
      exact Or.inr (apart.outside near)
  · exact Or.inr ((layout.task_curTask inside).outside near)
  · exact Or.inr ((layout.task_taskCnt inside).outside near)

/-- There is room for a frame on the stack of a task that has not run. -/
theorem Layout.clearBelow_stackTop (inside : i < layout.count) :
    layout.ClearBelow 12 (layout.stackTop i) := by
  intro addr guarded
  have beside := guarded.outside inside
  have size : taskSize = 4136 := rfl
  have top : layout.stackTop i = layout.task i + 40 + 4096 := rfl
  have depth : BitVec.ofNat 32 12 = 12 := rfl
  rw [size] at beside
  rw [top, depth]
  generalize layout.task i = entry at beside ⊢
  bv_omega

theorem Layout.ClearBelow.frame {esp : BitVec 32} (clear : layout.ClearBelow 28 esp) :
    layout.ClearBelow 12 esp := by
  intro addr guarded
  have far := clear addr guarded
  have depth : BitVec.ofNat 32 28 = 28 := rfl
  have less : BitVec.ofNat 32 12 = 12 := rfl
  rw [depth] at far
  rw [less]
  bv_omega

/-- What waits can be loaded, and the task goes on as it should. -/
theorem Waits.loadable {context : Option Context} (waits : Waits layout mem i context)
    (inside : i < layout.count) : ∃ regs target eflags,
      Saved (layout.task i) mem regs target eflags ∧ layout.ClearBelow 12 regs.esp ∧
      ∀ system : System, system.context = ⟨regs, target, eflags⟩ →
        GoesOn layout i system context := by
  cases context with
  | some context =>
      exact ⟨context.regs, context.eip, context.eflags, waits.1, waits.2.frame, fun _ same => same⟩
  | none =>
      rcases waits with ⟨esp, eip, eflags⟩
      have stack : (taskRegs (layout.task i) mem).esp = layout.stackTop i := esp
      have saved := saved_taskRegs (layout.task i) mem
      rw [eip, eflags] at saved
      refine ⟨_, _, _, saved, stack.symm ▸ layout.clearBelow_stackTop inside, ?_⟩
      intro system same
      rcases Context.mk.inj same with ⟨regs, target, flags⟩
      exact ⟨regs ▸ stack, target, flags⟩

end Guarded

/-! ## A step -/

section Step

variable {layout : Layout} {system : System} {stored : Mem} {esp0 : BitVec 32} {ss0 : BitVec 16}

/-- A task that keeps to its part of the memory leaves everything as it was. -/
theorem Agrees.code (agrees : Agrees layout system) {machine : Machine} {eip : BitVec 32}
    (allowed : Allowed layout system (.code machine eip)) :
    Agrees layout { system with machine, eip } where
  counted :=
    (read32_congr fun addr near => allowed addr (Or.inr (Or.inr near))).trans agrees.counted
  inside := agrees.inside
  current :=
    (read32_congr fun addr near => allowed addr (Or.inr (Or.inl near))).trans agrees.current
  waits := fun i inside other => (agrees.waits i inside other).congr
    fun addr near => allowed addr (Or.inl ⟨i, inside, near⟩)

/-- After the first half of the handler the entry of every task is what the
scheduler has put aside, also that of the task that has been running. -/
theorem Stored.waits (written : Stored layout system.tasks.current system.machine system.eip stored)
    (agrees : Agrees layout system) (clear : layout.ClearBelow 28 system.machine.regs.esp) {i : Nat}
    (inside : i < layout.count) :
    Waits layout stored i ((system.tasks.switch layout.count system.context).suspended i) := by
  by_cases same : i = system.tasks.current
  · subst same
    rw [RoundRobin.Tasks.switch_suspended_self]
    exact ⟨written.saved, clear⟩
  · rw [RoundRobin.Tasks.switch_suspended_of_ne same]
    have entries : 40 ≤ taskSize := by decide
    have beside := (layout.task_apart agrees.inside inside (Ne.symm same)).mono entries entries
    have beforeWord := (layout.task_curTask inside).mono entries (Nat.le_refl 4)
    exact (agrees.waits i inside same).congr fun addr near =>
      written.others addr (clear addr (Or.inl ⟨i, inside, near⟩)) (beside.outside near)
        (beforeWord.symm.outside near)

theorem Stored.counted (written : Stored layout system.tasks.current system.machine system.eip stored)
    (agrees : Agrees layout system) (clear : layout.ClearBelow 28 system.machine.regs.esp) :
    read32 stored layout.taskCnt = BitVec.ofNat 32 layout.count := by
  rw [← agrees.counted]
  refine read32_congr fun addr near => ?_
  have entry := (layout.task_taskCnt agrees.inside).mono (by decide : 40 ≤ taskSize) (Nat.le_refl 4)
  exact written.others addr (clear addr (Or.inr (Or.inr near))) (entry.outside near)
    (layout.wordsApart.outside near)

/-- The handler does what the scheduler does.  The frame of the next task goes
below its stack pointer, where nothing is guarded. -/
theorem Agrees.int0xc8 (agrees : Agrees layout system)
    (allowed : Allowed layout system (.int0xc8 esp0 ss0)) :
    ∃ next, step layout system (.int0xc8 esp0 ss0) = some next ∧
      next.tasks = system.tasks.switch layout.count system.context ∧ Agrees layout next ∧
      GoesOn layout next.tasks.current next (next.tasks.suspended next.tasks.current) := by
  rcases allowed with ⟨ring0, clear⟩
  rcases @c8Handler_spec layout system.tasks.current system.machine system.eip ring0 agrees.inside
    agrees.current agrees.counted clear esp0 ss0 with ⟨stored, written, loads⟩
  have inside : (system.tasks.switch layout.count system.context).current < layout.count :=
    RoundRobin.Tasks.switch_current_lt layout.positive
  rcases (written.waits agrees clear inside).loadable inside with
    ⟨regs, target, eflags, saved, room, goesOn⟩
  have handled := loads saved (room.task (by decide) inside)
  have kept : ∀ addr, layout.Guarded addr →
      frameBelow stored regs.esp eflags 8 target addr = stored addr :=
    fun addr guarded => frameBelow_of_outside (room addr guarded)
  refine ⟨⟨⟨regs, eflags, 8, system.machine.ss, frameBelow stored regs.esp eflags 8 target⟩, target,
    system.tasks.switch layout.count system.context⟩, ?_, rfl, ⟨?_, inside, ?_, ?_⟩, goesOn _ rfl⟩
  · rw [step, handled, resume]
  · rw [← written.counted agrees clear]
    exact read32_congr fun addr near => kept addr (Or.inr (Or.inr near))
  · refine Eq.trans ?_ written.current
    exact read32_congr fun addr near => kept addr (Or.inr (Or.inl near))
  · exact fun i insideToo _ => (written.waits agrees clear insideToo).congr
      fun addr near => kept addr (Or.inl ⟨i, insideToo, near⟩)

/-- Every step that is allowed keeps the agreement. -/
theorem step_keeps_agrees (layout : Layout) (state : System) (event : Event) (next : System)
    (agrees : Agrees layout state) (allowed : Allowed layout state event)
    (taken : step layout state event = some next) : Agrees layout next := by
  cases event with
  | code machine eip =>
      cases taken
      exact agrees.code allowed
  | int0xc8 esp0 ss0 =>
      rcases agrees.int0xc8 allowed with ⟨reached, stepped, _, kept, _⟩
      rw [taken] at stepped
      exact Option.some.inj stepped ▸ kept

end Step

/-! ## The start -/

section Start

variable {layout : Layout} {mem : Mem} {i n : Nat}

theorem mkTask_of_outside {t fn addr : BitVec 32} (outside : 40 ≤ (addr - t).toNat) :
    mkTask t fn mem addr = mem addr := by
  rw [mkTask, write32_of_outside _ _ (by bv_omega), write32_of_outside _ _ (by bv_omega),
    write32_of_outside _ _ (by bv_omega)]

theorem waits_mkTask (mem : Mem) (i : Nat) :
    Waits layout (mkTask (layout.task i) (layout.entry i) mem) i none := by
  refine ⟨?_, ?_, read32_write32 _ _ _⟩
  all_goals simp (disch := decide) only [mkTask, read32_write32_offset, read32_write32, Layout.stackTop]

/-- The first calls of `mk_task` prepare the first tasks, and nothing else. -/
theorem mkTasks_first (few : n ≤ layout.count) :
    let after := (List.range n).foldl (fun mem i => mkTask (layout.task i) (layout.entry i) mem) mem
    (∀ i < n, Waits layout after i none) ∧
      ∀ addr, (∀ i < n, 40 ≤ (addr - layout.task i).toNat) → after addr = mem addr := by
  intro after
  induction n with
  | zero => exact ⟨fun i none => absurd none (Nat.not_lt_zero i), fun _ _ => rfl⟩
  | succ n inductionHypothesis =>
      rcases inductionHypothesis (Nat.le_of_succ_le few) with ⟨prepared, unchanged⟩
      have next : after = mkTask (layout.task n) (layout.entry n)
          ((List.range n).foldl (fun mem i => mkTask (layout.task i) (layout.entry i) mem) mem) := by
        simp only [after, List.range_succ, List.foldl_append, List.foldl_cons, List.foldl_nil]
      rw [next]
      constructor
      · intro i inside
        rcases Nat.lt_succ_iff_lt_or_eq.mp inside with earlier | rfl
        · have entries : 40 ≤ taskSize := by decide
          have apart := (layout.task_apart few (Nat.lt_trans earlier few) (Nat.ne_of_gt earlier)).mono
            entries entries
          exact (prepared i earlier).congr fun addr near => mkTask_of_outside (apart.outside near)
        · exact waits_mkTask _ i
      · intro addr outside
        rw [mkTask_of_outside (outside n (Nat.lt_succ_self n))]
        exact unchanged addr fun i earlier => outside i (Nat.lt_succ_of_lt earlier)

/-- `main` has prepared the tasks, and goes on as task 0. -/
structure Started (layout : Layout) (start : System) : Prop where
  tasks : start.tasks = RoundRobin.Tasks.start
  prepared : ∃ mem, read32 mem layout.curTask = 0 ∧
    read32 mem layout.taskCnt = BitVec.ofNat 32 layout.count ∧ start.machine.mem = mkTasks layout mem

theorem Started.agrees {start : System} (started : Started layout start) : Agrees layout start := by
  rcases started with ⟨tasks, mem, current, counted, prepared⟩
  rcases @mkTasks_first layout mem layout.count (Nat.le_refl _) with ⟨waits, unchanged⟩
  have entries : 40 ≤ taskSize := by decide
  have kept : ∀ {word : BitVec 32},
      (∀ {i}, i < layout.count → Apart (layout.task i) taskSize word 4) →
      read32 (mkTasks layout mem) word = read32 mem word := by
    intro word apart
    exact read32_congr fun addr near => unchanged addr fun i inside =>
      Nat.le_trans entries ((apart inside).outside near)
  refine ⟨?_, ?_, ?_, ?_⟩
  · rw [prepared, kept layout.task_taskCnt, counted]
  · rw [tasks]
    exact layout.positive
  · rw [prepared, tasks, kept layout.task_curTask, current]
    rfl
  · intro i inside _
    rw [prepared, tasks]
    exact waits i inside

end Start

/-! ## Whole runs -/

/-- In every run in which the tasks do what they may, `cur_task` is the number of
the task that runs, and a task that gives up the processor is followed by the next
one in the circle, which goes on where it was. -/
theorem run_takesTurns {layout : Layout} {start last : System} {events : List Event}
    (started : Started layout start)
    (allowed : Run.EachStep (step layout) (Allowed layout) start events)
    (reached : Run.run (step layout) start events = some last) :
    last.tasks.current < layout.count ∧
      read32 last.machine.mem layout.curTask = BitVec.ofNat 32 last.tasks.current ∧
      ∀ esp0 ss0, Allowed layout last (.int0xc8 esp0 ss0) →
        ∃ next, step layout last (.int0xc8 esp0 ss0) = some next ∧
          next.tasks = last.tasks.switch layout.count last.context ∧
          read32 next.machine.mem layout.curTask =
            BitVec.ofNat 32 ((last.tasks.current + 1) % layout.count) ∧
          GoesOn layout next.tasks.current next (next.tasks.suspended next.tasks.current) := by
  have agrees : Agrees layout last :=
    Run.run_invariant (step_keeps_agrees layout) started.agrees allowed reached
  refine ⟨agrees.inside, agrees.current, ?_⟩
  intro esp0 ss0 permitted
  rcases agrees.int0xc8 permitted with ⟨next, stepped, switched, kept, goesOn⟩
  have current := kept.current
  rw [switched] at current
  exact ⟨next, stepped, switched, current, goesOn⟩

section Four

/-- Four tasks, as in the source. -/
def four : Layout where
  tasks := 0x100000
  curTask := 0x90000
  taskCnt := 0x80000
  count := 4
  entry := fun i => BitVec.ofNat 32 (0x10000 + 0x1000 * i)
  positive := by decide
  fits := by decide
  curTaskApart := by decide
  taskCntApart := by decide
  wordsApart := by decide

/-- `main` has prepared them, on a stack of its own. -/
def booted : System where
  machine := ⟨⟨0, 0, 0, 0, 0, 0, 0, 0x70000⟩, 0x200, 8, 0x10,
    mkTasks four (write32 (fun _ => 0) four.taskCnt 4)⟩
  eip := 0x10000
  tasks := RoundRobin.Tasks.start

theorem booted_started : Started four booted :=
  ⟨rfl, _, by decide +kernel, by decide +kernel, rfl⟩

/-- The stack of `main` is far from the tasks, and the other stacks lie between their entries. -/
theorem four_clear {esp : BitVec 32} (stack : esp = 0x70000 ∨ esp = four.stackTop 1 ∨
    esp = four.stackTop 2 ∨ esp = four.stackTop 3) : four.ClearBelow 28 esp := by
  have tops : four.stackTop 1 = 0x102050 ∧ four.stackTop 2 = 0x103078 ∧ four.stackTop 3 = 0x1040a0 := by
    decide
  have entries : four.task 0 = 0x100000 ∧ four.task 1 = 0x101028 ∧ four.task 2 = 0x102050 ∧
      four.task 3 = 0x103078 := by decide
  rw [tops.1, tops.2.1, tops.2.2] at stack
  have curTask : four.curTask = 0x90000 := rfl
  have taskCnt : four.taskCnt = 0x80000 := rfl
  intro addr guarded
  rcases guarded with ⟨i, inside, near⟩ | near | near
  · have few : i < 4 := inside
    interval_cases i
    · rw [entries.1] at near
      bv_omega
    · rw [entries.2.1] at near
      bv_omega
    · rw [entries.2.2.1] at near
      bv_omega
    · rw [entries.2.2.2] at near
      bv_omega
  · rw [curTask] at near
    bv_omega
  · rw [taskCnt] at near
    bv_omega

theorem four_allowed {system : System} {events : List Event} {esp : BitVec 32}
    (reached : Run.run (step four) booted events = some system)
    (evaluated : (Run.run (step four) booted events).map (fun system =>
      (system.machine.cs, system.machine.regs.esp)) = some (8, esp))
    (stack : esp = 0x70000 ∨ esp = four.stackTop 1 ∨ esp = four.stackTop 2 ∨ esp = four.stackTop 3) :
    Allowed four system (.int0xc8 0 0) := by
  rw [reached, Option.map_some, Option.some.injEq, Prod.mk.injEq] at evaluated
  refine ⟨?_, ?_⟩
  · rw [evaluated.1]
    decide
  · rw [evaluated.2]
    exact four_clear stack

/-- After three switches task 3 runs; the next one resumes task 0 where it was put aside. -/
theorem run_takesTurns_four : ∃ third next,
    Run.run (step four) booted [.int0xc8 0 0, .int0xc8 0 0, .int0xc8 0 0] = some third ∧
      third.tasks.current = 3 ∧ step four third (.int0xc8 0 0) = some next ∧ next.tasks.current = 0 ∧
      read32 next.machine.mem four.curTask = 0 ∧ next.context = booted.context := by
  have evaluated : (Run.run (step four) booted [.int0xc8 0 0, .int0xc8 0 0, .int0xc8 0 0]).map
      (fun system => (system.tasks.current, system.tasks.suspended 0)) = some (3, some booted.context) := by
    decide +kernel
  rcases Option.map_eq_some_iff.mp evaluated with ⟨third, reached, facts⟩
  rcases Prod.mk.inj facts with ⟨current, aside⟩
  have allowed : Run.EachStep (step four) (Allowed four) booted
      [.int0xc8 0 0, .int0xc8 0 0, .int0xc8 0 0] := by
    intro one taken
    refine ⟨@four_allowed _ [] _ rfl rfl (.inl rfl), fun two taken' =>
      ⟨@four_allowed _ [.int0xc8 0 0] _ ?_ (by decide +kernel) (.inr (.inl rfl)), fun three taken'' =>
        ⟨@four_allowed _ [.int0xc8 0 0, .int0xc8 0 0] _ ?_ (by decide +kernel) (.inr (.inr (.inl rfl))),
          trivial⟩⟩⟩
    · exact Run.run_cons_eq_some.mpr ⟨one, taken, rfl⟩
    · exact Run.run_cons_eq_some.mpr ⟨one, taken, Run.run_cons_eq_some.mpr ⟨two, taken', rfl⟩⟩
  rcases (run_takesTurns booted_started allowed reached).2.2 0 0
    (four_allowed reached (by decide +kernel) (.inr (.inr (.inr rfl)))) with
    ⟨next, stepped, switched, cur, goesOn⟩
  have zero : next.tasks.current = 0 := by
    rw [switched, RoundRobin.Tasks.switch, current]
    rfl
  have put : next.tasks.suspended 0 = some booted.context := by
    rw [switched, RoundRobin.Tasks.switch_suspended_of_ne (by rw [current]; decide), aside]
  rw [zero, put] at goesOn
  rw [current] at cur
  exact ⟨third, next, reached, current, stepped, zero, cur, goesOn⟩

/-- What a task may do if it has to spare `tasks`, `cur_task`, and the memory from
the frame of another suspended task on. -/
def Spares (layout : Layout) (system : System) : Event → Prop
  | .code machine _ => ∀ addr,
      (addr - layout.tasks).toNat < layout.count * taskSize ∨ (addr - layout.curTask).toNat < 4 ∨
        (∃ i context, i ≠ system.tasks.current ∧ system.tasks.suspended i = some context ∧
          (context.regs.esp - 12).toNat ≤ addr.toNat) →
      machine.mem addr = system.machine.mem addr
  | .int0xc8 _ _ => privilege system.machine.cs = 0

/-- Task 0 changes `task_cnt` to 1. -/
def miscounted : Machine :=
  { booted.machine with mem := write32 booted.machine.mem four.taskCnt 1 }

/-- Task 0 has its stack above `cur_task`; the handler pushes `ebp` there. -/
def misplaced : Machine :=
  { booted.machine with regs := { booted.machine.regs with esp := four.curTask + 16, ebp := 2 } }

theorem run_misled {machine : Machine} {target cur : BitVec 32}
    (spared : Spares four booted (.code machine 0x10000)) (ring0 : privilege machine.cs = 0)
    (handled : (c8Handler four (c8Gate 0 0) 0x10000 machine).map
      (fun left => (left.1, read32 left.2.mem four.curTask)) = some (.jump target, cur)) :
    Run.EachStep (step four) (Spares four) booted [.code machine 0x10000, .int0xc8 0 0] ∧
      ∃ last, Run.run (step four) booted [.code machine 0x10000, .int0xc8 0 0] = some last ∧
        last.tasks.current = 1 ∧ read32 last.machine.mem four.curTask = cur := by
  rcases Option.map_eq_some_iff.mp handled with ⟨⟨exit, after⟩, result, parts⟩
  rcases Prod.mk.inj parts with ⟨exitAt, curAt⟩
  dsimp only at exitAt curAt
  subst exitAt curAt
  have stepped : step four ⟨machine, 0x10000, booted.tasks⟩ (.int0xc8 0 0) = some ⟨after, target,
      booted.tasks.switch four.count ⟨machine.regs, 0x10000, machine.eflags⟩⟩ := by
    rw [step, System.context, result, resume]
  constructor
  · intro next taken
    cases taken
    exact ⟨spared, fun _ _ => ⟨ring0, trivial⟩⟩
  · have reached : Run.run (step four) booted [.code machine 0x10000, .int0xc8 0 0] = some _ :=
      Run.run_cons_eq_some.mpr ⟨_, rfl, Run.run_cons_eq_some.mpr ⟨_, stepped, rfl⟩⟩
    exact ⟨_, reached, rfl, rfl⟩

/-- Sparing these is not enough: `cur_task` is 1 after neither of the two. -/
theorem run_spares_misled : Started four booted ∧
    (Run.EachStep (step four) (Spares four) booted [.code miscounted 0x10000, .int0xc8 0 0] ∧
      ∃ last, Run.run (step four) booted [.code miscounted 0x10000, .int0xc8 0 0] = some last ∧
        last.tasks.current = 1 ∧ read32 last.machine.mem four.curTask = 0) ∧
    Run.EachStep (step four) (Spares four) booted [.code misplaced 0x10000, .int0xc8 0 0] ∧
      ∃ last, Run.run (step four) booted [.code misplaced 0x10000, .int0xc8 0 0] = some last ∧
        last.tasks.current = 1 ∧ read32 last.machine.mem four.curTask = 3 := by
  refine ⟨booted_started, ?_, ?_⟩
  · have counted : ∀ addr, (addr - four.tasks).toNat < four.count * taskSize ∨
        (addr - four.curTask).toNat < 4 → 4 ≤ (addr - four.taskCnt).toNat := by
      have tasks : four.tasks = 0x100000 := rfl
      have size : four.count * taskSize = 4 * 4136 := rfl
      have curTask : four.curTask = 0x90000 := rfl
      have taskCnt : four.taskCnt = 0x80000 := rfl
      rw [tasks, size, curTask, taskCnt]
      bv_omega
    refine @run_misled miscounted 0x10000 0 ?_ rfl (by decide +kernel)
    rintro addr (near | near | ⟨i, context, _, suspended, _⟩)
    · exact write32_of_outside _ _ (counted addr (Or.inl near))
    · exact write32_of_outside _ _ (counted addr (Or.inr near))
    · cases suspended
  · exact @run_misled misplaced 0x13000 3 (fun _ _ => rfl) rfl (by decide +kernel)

end Four

end Tasks

end WeakOS
