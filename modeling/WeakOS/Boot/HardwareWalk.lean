import Mathlib
import WeakOS.Boot.Regions
import WeakOS.Memory.Steps
import WeakOS.Paging.Walk

namespace WeakOS

open Foundation

namespace Boot

/-!
# The allocator's tables and the processor's walk

The allocator writes table entries through their virtual addresses, and the
processor reads them at the physical addresses in the directory.  The two
agree on every page of the second GiB except for 4 MiB: there the directory has
a fixed entry of its own, the tables are never read, and every page is
translated to the frame of the fixed entry, whatever `map_page` has stored.
-/

/-- The virtual address of the entry that `PAGEOF(page)` points to. -/
def entryAddr (page : Nat) : Nat := Paging.tableAddr pagingAddr 0 + 4 * page

/-- The physical address behind a virtual one, through 4 MiB entries only. -/
def physicalAddr (directory : Nat → PageDirectoryEntry) (addr : Nat) : Option Nat :=
  (Paging.walk directory (fun _ => none) (addr / 0x1000)).map
    (fun frame => frame * 0x1000 + addr % 0x1000)

/-- The physical address of the first table. -/
def tablesPhysical : Nat := 0xc01000

/-- The table entry at a physical address. -/
def entryAt (memory : Memory) (addr : Nat) : Option PageTableEntry :=
  if tablesPhysical ≤ addr ∧ addr < tablesPhysical + 4 * memPageCount ∧ addr % 4 = 0 then
    some (memory.entry ((addr - tablesPhysical) / 4))
  else none

/-- The translation the processor performs. -/
def hardwareWalk (memory : Memory) (page : Nat) : Option Nat :=
  Paging.walk memory.mPaging.directory (entryAt memory) page

theorem entryAddr_eq (page : Nat) : entryAddr page = 0x401000 + 4 * page := by
  unfold entryAddr Paging.tableAddr pagingAddr kernelReservedBytes pageDirectoryEntryCount
  omega

/-- The tables are mapped 8 MiB above their virtual address. -/
theorem shifted_entryAddr (page : Nat) :
    (entryAddr page / 0x1000 + 0x800) * 0x1000 + entryAddr page % 0x1000 =
      tablesPhysical + 4 * page := by
  rw [entryAddr_eq, tablesPhysical]
  omega

/-- The directory is the one that `paging::init` installs. -/
def Installed (memory : Memory) : Prop :=
  ∃ paging, memory.mPaging.directory = (Paging.init pagingAddr paging).directory

theorem Installed.of_sysinit {memory booted : Memory} {rgns : List MemBiosRgn}
    (boots : sysinit memory rgns = some booted) : Installed booted :=
  ⟨memory.mPaging, congrArg PagingInfo.directory (sysinit_mPaging boots)⟩

section Installed

variable {memory : Memory} {page : Nat}

theorem entryAt_entry (memory : Memory) (inTable : page < memPageCount) :
    entryAt memory (tablesPhysical + 4 * page) = some (memory.entry page) := by
  have address : tablesPhysical % 4 = 0 := by decide
  unfold entryAt
  rw [if_pos (by omega), show (tablesPhysical + 4 * page - tablesPhysical) / 4 = page by omega]

/-- What the allocator writes through the virtual address of an entry is what
is read at its physical address. -/
theorem entryAt_physicalAddr (installed : Installed memory) (inTable : page < memPageCount)
    {addr : Nat} (physical : physicalAddr memory.mPaging.directory (entryAddr page) = some addr) :
    entryAt memory addr = some (memory.entry page) := by
  rcases installed with ⟨paging, directory⟩
  have pageCount := memPageCount_eq
  have virtual := entryAddr_eq page
  rw [physicalAddr, directory, Paging.walk_data (by omega), if_neg (by omega), Option.map_some,
    Option.some.injEq, shifted_entryAddr] at physical
  rw [← physical]
  exact entryAt_entry memory inTable

/-- Outside the fixed entry the processor finds the stored frame. -/
theorem hardwareWalk_table (installed : Installed memory) (above : 0x40000 ≤ page)
    (below : page < 0x80000) (notFixed : page < 0x5fc00 ∨ 0x60000 ≤ page)
    (present : (memory.entry page).present = true) :
    hardwareWalk memory page = some (memory.frameOf page) := by
  rcases installed with ⟨paging, directory⟩
  have pageCount := memPageCount_eq
  have address : Paging.tableAddr pagingAddr (page / 0x400) + 0x800000 =
      (0xc01 + page / 0x400) * 2 ^ 12 := by
    show 0x400000 + 4 * 0x400 + 4 * 0x400 * (page / 0x400) + 0x800000 = _
    omega
  have stored : u32 (Paging.tableAddr pagingAddr (page / 0x400) + 0x800000) >>> 12 =
      0xc01 + page / 0x400 := by
    rw [address, u32, Word.wrap_of_lt (by omega), Nat.shiftRight_eq_div_pow,
      Nat.mul_div_cancel _ (by decide)]
  have word : (BitVec.ofNat 20 (0xc01 + page / 0x400)).toNat * 0x1000 + 4 * (page % 0x400) =
      tablesPhysical + 4 * page := by
    rw [BitVec.toNat_ofNat, Nat.mod_eq_of_lt (by omega)]
    show _ = 0xc01000 + 4 * page
    omega
  have found := Paging.init_table pagingAddr paging (by omega : 0x100 ≤ page / 0x400) (by omega)
    (by omega)
  rw [stored] at found
  rw [hardwareWalk, directory, Paging.walk_table rfl found
    (by decide : PdeFlags.genericUser.getLsbD 0 = true)
    (by decide : PdeFlags.genericUser.getLsbD 7 = false), word,
    entryAt_entry memory (by omega), Option.bind_some, if_pos present]
  rfl

/-- The frame that the fixed entry gives to a page. -/
def fixedFrame (page : Nat) : Nat := page - 0x5fc00 + 0x4800

/-- Under the fixed entry the tables play no part. -/
theorem hardwareWalk_fixed (installed : Installed memory) (above : 0x5fc00 ≤ page)
    (below : page < 0x60000) : hardwareWalk memory page = some (fixedFrame page) := by
  rcases installed with ⟨paging, directory⟩
  rw [hardwareWalk, directory]
  exact Paging.walk_user above below

end Installed

/-! ## Runs -/

/-- On every page of a live allocation in the second GiB the processor finds
the frame that `map_page` has stored. -/
def WalksAgree (session : Session) : Prop :=
  ∀ item ∈ session.live, ∀ page, item.Contains page → 0x40000 ≤ page → page < 0x80000 →
    hardwareWalk session.memory page = some (session.memory.frameOf page)

/-- A request that will be granted reaches a page of the fixed entry only when
the free frame that is next for the page is the one of the fixed entry. -/
def AvoidsFixed (session : Session) : Event → Prop
  | .allocVirtual pages => ∀ slot, session.memory.findRgn (Memory.fits pages) = some (some slot) →
      pages ≤ session.memory.freeFrames.card → u32 ((session.memory.mRgns slot).base * 0x1000) ≠ 0 →
        ∀ j < pages, 0x5fc00 ≤ (session.memory.mRgns slot).base + j →
          (session.memory.mRgns slot).base + j < 0x60000 →
          fixedFrame ((session.memory.mRgns slot).base + j) ∈ session.memory.freeFrames ∧
            Rank.rank session.memory.freeFrames (fixedFrame ((session.memory.mRgns slot).base + j)) = j
  | .freeVirtual _ => True
  | .access _ => True

/-- The request is granted. -/
def Succeeds (session : Session) : Event → Prop
  | .allocVirtual pages => ∃ after ptr, session.memory.allocVirtual pages = some (after, ptr) ∧ ptr ≠ 0
  | .freeVirtual _ => True
  | .access _ => True

/-- A tracked session under the installed directory in which the entries of all
live pages are present. -/
structure Linked (session : Session) : Prop extends session.Tracked (· ≤ ·) 0x100001 where
  installed : Installed session.memory
  present : ∀ item ∈ session.live, ∀ page, item.Contains page →
    (session.memory.entry page).present = true

section Runs

variable {session next : Session} {event : Event}

theorem Linked.of_sysinit {memory booted : Memory} {rgns : List MemBiosRgn}
    (boots : sysinit memory rgns = some booted) : Linked ⟨booted, []⟩ :=
  ⟨Session.Tracked.start (Booted.of_sysinit boots).arranged, Installed.of_sysinit boots,
    fun _ member => absurd member List.not_mem_nil⟩

/-- The walks agree when they agree under the fixed entry. -/
theorem Linked.walksAgree_iff (linked : Linked session) :
    WalksAgree session ↔ ∀ item ∈ session.live, ∀ page, item.Contains page → 0x5fc00 ≤ page →
      page < 0x60000 → session.memory.frameOf page = fixedFrame page := by
  constructor
  · intro agree item member page contains above below
    have walks := agree item member page contains (by omega) (by omega)
    rw [hardwareWalk_fixed linked.installed above below] at walks
    exact (Option.some.inj walks).symm
  · intro fixed item member page contains above below
    by_cases inFixed : 0x5fc00 ≤ page ∧ page < 0x60000
    · rw [hardwareWalk_fixed linked.installed inFixed.1 inFixed.2,
        fixed item member page contains inFixed.1 inFixed.2]
    · exact hardwareWalk_table linked.installed above below (by omega)
        (linked.present item member page contains)

/-- A step keeps the session linked. -/
theorem Linked.step (linked : Linked session) (positive : event.Positive)
    (taken : session.step event = some next) : Linked next := by
  have bounded := linked.bounded Memory.Ordering.le' (Nat.le_refl 0x100001)
  refine ⟨linked.toTracked.step Memory.Ordering.le' (Nat.le_refl _) positive taken, ?_, ?_⟩
  · rcases linked.installed with ⟨paging, directory⟩
    exact ⟨paging, (Session.step_directory bounded taken).trans directory⟩
  · intro item member page contains
    rcases Session.live_cases taken member with old | ⟨_, returned, result⟩
    · have untouched := linked.untouched Memory.Ordering.le' (Nat.le_refl _) taken old member contains
      rw [Session.step_entry bounded taken untouched.1 untouched.2]
      exact linked.present item old page contains
    · exact (bounded.allocVirtual_effect result).present page
        (bounded.mem_maps_of_returned result returned contains)

/-- A step keeps the walks in agreement exactly when it avoids the fixed
entry. -/
theorem Linked.step_iff (linked : Linked session) (positive : event.Positive)
    (agree : WalksAgree session) (taken : session.step event = some next) :
    WalksAgree next ↔ AvoidsFixed session event := by
  have bounded := linked.bounded Memory.Ordering.le' (Nat.le_refl 0x100001)
  rw [(linked.step positive taken).walksAgree_iff]
  constructor
  · intro fixed
    cases event with
    | allocVirtual pages =>
        intro slot found supplied notNull j inside above below
        rcases Option.map_eq_some_iff.mp taken with ⟨⟨after, ptr⟩, result, rfl⟩
        rcases Memory.Selection.of_found bounded found result with ⟨_, selection⟩
        have address := selection.ptr_of_supplied supplied
        have returned : ptr ≠ 0 := address ▸ notNull
        rcases bounded.allocVirtual_returned positive result returned with
          ⟨other, same, _, _, _, location, _⟩
        rw [found, Option.some.injEq, Option.some.injEq] at same
        subst same
        have contains : Allocation.Contains ⟨ptr, pages⟩ ((session.memory.mRgns slot).base + j) := by
          simp only [Allocation.Contains]
          omega
        have listed : (⟨ptr, pages⟩ : Allocation) ∈
            (if ptr = 0 then session.live else ⟨ptr, pages⟩ :: session.live) := by
          rw [if_neg returned]
          exact List.mem_cons_self
        have stored := fixed ⟨ptr, pages⟩ listed _ contains above below
        rw [← stored]
        exact bounded.allocVirtual_rank result returned found inside
    | freeVirtual ptr => trivial
    | access page => trivial
  · intro avoids item member page contains above below
    rcases Session.live_cases taken member with old | ⟨rfl, returned, result⟩
    · have untouched := linked.untouched Memory.Ordering.le' (Nat.le_refl _) taken old member contains
      have same := Session.step_entry bounded taken untouched.1 untouched.2
      have stored := linked.walksAgree_iff.mp agree item old page contains above below
      rw [Memory.frameOf] at stored ⊢
      rw [same, stored]
    · rcases bounded.allocVirtual_returned positive result returned with
        ⟨slot, found, _, _, supplied, location, _⟩
      obtain ⟨j, rfl⟩ : ∃ j, page = (session.memory.mRgns slot).base + j :=
        ⟨page - (session.memory.mRgns slot).base, by simp only [Allocation.Contains] at contains; omega⟩
      have inside : j < item.pages := by
        simp only [Allocation.Contains] at contains
        omega
      have stored := bounded.allocVirtual_rank result returned found inside
      rcases Memory.Selection.of_found bounded found result with ⟨_, selection⟩
      have expected := avoids slot found supplied (selection.ptr_of_supplied supplied ▸ returned) j
        inside above below
      exact Rank.eq_of_rank_eq stored.1 expected.1 (stored.2.trans expected.2.symm)

end Runs

/-- In a run from boot the processor finds the stored frame on every page of
every live allocation, exactly when the requests avoid the fixed entry. -/
theorem run_walks_agree_iff {memory booted : Memory} {rgns : List MemBiosRgn} {events : List Event}
    (boots : sysinit memory rgns = some booted) (positive : ∀ event ∈ events, event.Positive) :
    Run.Always Session.step WalksAgree ⟨booted, []⟩ events ↔
      Run.EachStep Session.step AvoidsFixed ⟨booted, []⟩ events :=
  Run.always_iff_eachStep
    (fun _ _ _ linked admissible agree taken => linked.step_iff admissible agree taken)
    (fun _ _ _ linked admissible _ _ taken => linked.step admissible taken)
    (Linked.of_sysinit boots) (fun _ member => absurd member List.not_mem_nil) positive

theorem run_walks_agree_iff_sixtyFourMiB :
    ∃ booted, sysinit Memory.zero sixtyFourMiB = some booted ∧
      (Run.Always Session.step WalksAgree ⟨booted, []⟩ [.allocVirtual 1] ↔
        Run.EachStep Session.step AvoidsFixed ⟨booted, []⟩ [.allocVirtual 1]) :=
  ⟨_, sysinit_eq _ _, run_walks_agree_iff (sysinit_eq _ _) (by simp [Event.Positive])⟩

/-- With 2 GiB of memory, a granted request for 512 MiB has pages on which the
processor does not find the stored frame. -/
theorem run_walks_elsewhere :
    ¬ ∀ (memory booted : Memory) (rgns : List MemBiosRgn) (events : List Event),
      sysinit memory rgns = some booted → (∀ page, memory.entry page = PageTableEntry.zero) →
        (∀ event ∈ events, event.Positive) → Run.EachStep Session.step Succeeds ⟨booted, []⟩ events →
          Run.Always Session.step WalksAgree ⟨booted, []⟩ events := by
  intro agrees
  have boots := sysinit_eq Memory.zero twoGiB
  generalize { framesReserved Memory.zero twoGiB with mRgns := Regions.ofList bootTable } =
    booted at boots
  have table := Booted.of_sysinit boots
  have linked := Linked.of_sysinit boots
  have request : (Event.allocVirtual 0x20000).Positive := by decide
  have bounded := linked.bounded Memory.Ordering.le' (Nat.le_refl 0x100001)
  have frames : booted.freeFrames = Finset.Ico 0x1e23 0x80000 := by
    ext frame
    rw [mem_freeFrames_twoGiB boots, Finset.mem_Ico]
  have supplied : 0x20000 ≤ booted.freeFrames.card := by
    rw [frames, Nat.card_Ico]
    decide
  have found := table.findRgn_fits (by decide : 0x20000 ≤ 0x3ffff)
  have base : (booted.mRgns (Regions.slot 2)).base = 0x40000 := by
    rw [table.rgns]
    rfl
  rcases linked.progress request with ⟨next, taken⟩
  have succeeds : Run.EachStep Session.step Succeeds ⟨booted, []⟩ [.allocVirtual 0x20000] := by
    refine fun _ stepped => ⟨?_, trivial⟩
    rcases Option.map_eq_some_iff.mp stepped with ⟨⟨after, ptr⟩, result, _⟩
    rcases Memory.Selection.of_found bounded found result with ⟨_, selection⟩
    refine ⟨after, ptr, result, ?_⟩
    rw [selection.ptr_of_supplied supplied, base]
    decide
  have always := agrees Memory.zero booted twoGiB [.allocVirtual 0x20000] boots (fun _ => rfl)
    (by simp [Event.Positive]) succeeds
  have avoids := (linked.step_iff request always.1 taken).mp (always.2 next taken)
  -- The page at 0x5fc00 is the 0x1fc00th of the range, but frame 0x4800 is nearer to the first.
  have expected := (avoids (Regions.slot 2) found supplied (by rw [base]; decide) 0x1fc00 (by decide)
    (by rw [base]) (by rw [base]; decide)).2
  have few : Rank.rank booted.freeFrames 0x4800 ≤ 0x4800 :=
    le_of_le_of_eq (Finset.card_le_card (fun frame member =>
      Finset.mem_range.mpr (Finset.mem_filter.mp member).2)) (Finset.card_range 0x4800)
  rw [base, show fixedFrame (0x40000 + 0x1fc00) = 0x4800 by decide] at expected
  exact absurd (expected ▸ few) (by decide)

end Boot

end WeakOS
