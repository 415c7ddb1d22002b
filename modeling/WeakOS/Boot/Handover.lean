import Mathlib
import WeakOS.Boot.Sysinit
import WeakOS.Foundation.Run
import WeakOS.Paging.Walk
import WeakOS.X86.Strings

namespace WeakOS

open Foundation X86

/-!
# From the second stage's directory to the kernel's

The second stage turns paging on with a directory of its own, which maps five
ranges of 4 MiB.  The kernel writes its directory through these mappings, and
tells the processor the physical address, which it computes by adding 8 MiB.
What was mapped stays where it was: the code that goes on, its stack, and the
directory itself.
-/

namespace PageDirectoryEntry

/-- The fields of an entry in memory. -/
def ofWord (word : BitVec 32) : PageDirectoryEntry := ⟨word.extractLsb' 0 8, word.extractLsb' 12 20⟩

/-- The word when the fields have been assigned; the ignored bits stay. -/
def assign (entry : PageDirectoryEntry) (word : BitVec 32) : BitVec 32 :=
  entry.address ++ word.extractLsb' 8 4 ++ entry.flagsByte

@[simp] theorem ofWord_assign (entry : PageDirectoryEntry) (word : BitVec 32) :
    ofWord (entry.assign word) = entry := by
  have flags : (entry.assign word).extractLsb' 0 8 = entry.flagsByte := by
    ext i inside
    simp only [assign, BitVec.getElem_extractLsb', BitVec.getLsbD_append]
    grind
  have address : (entry.assign word).extractLsb' 12 20 = entry.address := by
    ext i inside
    simp only [assign, BitVec.getElem_extractLsb', BitVec.getLsbD_append]
    grind
  rw [ofWord, flags, address]

end PageDirectoryEntry

/-- The fields of an entry in memory. -/
def PageTableEntry.ofWord (word : BitVec 32) : PageTableEntry :=
  ⟨word.extractLsb' 0 8, word.extractLsb' 12 20⟩

namespace Boot

/-- The processor with paging on, and the physical memory. -/
structure Cpu where
  cr3 : BitVec 32
  ram : Mem

namespace Cpu

variable (cpu : Cpu)

/-- The directory that the processor reads. -/
def directory (index : Nat) : PageDirectoryEntry :=
  .ofWord (read32 cpu.ram (cpu.cr3 + BitVec.ofNat 32 (4 * index)))

def readEntry (addr : Nat) : Option PageTableEntry :=
  some (.ofWord (read32 cpu.ram (BitVec.ofNat 32 addr)))

/-- The physical address behind a virtual one. -/
def physical (addr : BitVec 32) : Option (BitVec 32) :=
  (Paging.walk cpu.directory cpu.readEntry (addr.toNat / 0x1000)).map fun frame =>
    BitVec.ofNat 32 (frame * 0x1000 + addr.toNat % 0x1000)

/-- The byte at a virtual address. -/
def load (addr : BitVec 32) : Option (BitVec 8) := (cpu.physical addr).map cpu.ram

/-- Store a byte; there is no result when the address is not mapped. -/
def store (item : BitVec 32 × BitVec 8) : Option Cpu :=
  (cpu.physical item.1).map fun addr => { cpu with ram := Function.update cpu.ram addr item.2 }

/-- Assign `info->directory[i]`, which is on one page. -/
def setDirectory (entry : Nat × Flags × Nat) : Option Cpu :=
  (cpu.physical (BitVec.ofNat 32 (pagingAddr + 4 * entry.1))).map fun addr =>
    { cpu with
      ram := write32 cpu.ram addr
        (PageDirectoryEntry.assign ⟨entry.2.1, BitVec.ofNat 20 entry.2.2⟩ (read32 cpu.ram addr)) }

end Cpu

/-- What the loop of `paging::init` assigns. -/
def loopEntries : List (Nat × Flags × Nat) :=
  (List.range pageDirectoryEntryCount).map fun i =>
    (i, if 0x100 ≤ i ∧ i < 0x300 then PdeFlags.genericUser else PdeFlags.generic,
      u32 (Paging.tableAddr pagingAddr i + 0x800000) >>> 12)

/-- `paging::init`, which ends with `paging::enable`.  Its own stack is left out. -/
def Cpu.pagingInit (cpu : Cpu) : Option Cpu := do
  let cpu ← Run.run Cpu.setDirectory cpu (loopEntries ++ Paging.fixedEntries)
  some { cpu with cr3 := BitVec.ofNat 32 (u32 (pagingAddr + 0x800000)) }

end Boot

/-- The second stage, from `start32` to where paging is on. -/
def Stage2.start32 (mem : Mem) : Boot.Cpu :=
  let mem := repStosd 0 0x1000 0x1000 mem
  let mem := write32 mem 0x1000 0x87
  let mem := write32 mem 0x1004 0xc00087
  let mem := write32 mem 0x1008 0x1000087
  let mem := write32 mem 0x1c00 0x400087
  let mem := write32 mem 0x1ffc 0x800087
  ⟨0x1000, mem⟩

namespace Boot

/-! ## The first directory -/

/-- The entries of the second stage. -/
def firstWord (index : Nat) : BitVec 32 :=
  if index = 0x3ff then 0x800087
  else if index = 0x300 then 0x400087
  else if index = 2 then 0x1000087
  else if index = 1 then 0xc00087
  else if index = 0 then 0x87
  else 0

/-- Where they lead. -/
def firstFrame (page : Nat) : Option Nat :=
  if page < 0x400 then some page
  else if page < 0xc00 then some (page + 0x800)
  else if 0xc0000 ≤ page ∧ page < 0xc0400 then some (page - 0xc0000 + 0x400)
  else if 0xffc00 ≤ page then some (page - 0xffc00 + 0x800)
  else none

/-- Different entries of one directory are different words. -/
theorem read32_write32_entry (mem : Mem) (base value : BitVec 32) {i j : Nat} (inside : i < 0x400)
    (within : j < 0x400) :
    read32 (write32 mem (base + BitVec.ofNat 32 (4 * j)) value) (base + BitVec.ofNat 32 (4 * i)) =
      if i = j then value else read32 mem (base + BitVec.ofNat 32 (4 * i)) := by
  by_cases same : i = j
  · rw [if_pos same, same, read32_write32]
  · rw [if_neg same]
    exact read32_write32_offset mem value base ⟨by bv_omega, by bv_omega⟩

/-- The processor still has the directory of the second stage. -/
structure Handed (cpu : Cpu) : Prop where
  cr3 : cpu.cr3 = 0x1000
  words : ∀ index < 0x400, read32 cpu.ram (0x1000 + BitVec.ofNat 32 (4 * index)) = firstWord index

theorem handed_start32 (mem : Mem) : Handed (Stage2.start32 mem) := by
  refine ⟨rfl, fun index inside => ?_⟩
  have cleared : read32 (repStosd 0 0x1000 0x1000 mem) (0x1000 + BitVec.ofNat 32 (4 * index)) = 0 := by
    have byte : ∀ offset : BitVec 32, offset.toNat < 4 →
        repStosd 0 0x1000 0x1000 mem (0x1000 + BitVec.ofNat 32 (4 * index) + offset) = 0 := by
      intro offset small
      rw [repStosd_eq 0 0x1000 (by decide), overwrite_inside (by bv_omega)]
      exact BitVec.extractLsb'_zero
    have first := byte 0 (by decide)
    rw [add_zero] at first
    rw [read32, first, byte 1 (by decide), byte 2 (by decide), byte 3 (by decide)]
    rfl
  have place : ∀ j < 0x400, ∀ (other : Mem) (value : BitVec 32),
      read32 (write32 other (0x1000 + BitVec.ofNat 32 (4 * j)) value)
        (0x1000 + BitVec.ofNat 32 (4 * index)) =
      if index = j then value else read32 other (0x1000 + BitVec.ofNat 32 (4 * index)) :=
    fun j within other value => read32_write32_entry other 0x1000 value inside within
  have last := place 0x3ff (by decide)
  have image := place 0x300 (by decide)
  have third := place 2 (by decide)
  have second := place 1 (by decide)
  have zeroth := place 0 (by decide)
  show read32 (write32 (write32 (write32 (write32 (write32 (repStosd 0 0x1000 0x1000 mem)
    (0x1000 + BitVec.ofNat 32 (4 * 0)) 0x87) (0x1000 + BitVec.ofNat 32 (4 * 1)) 0xc00087)
    (0x1000 + BitVec.ofNat 32 (4 * 2)) 0x1000087) (0x1000 + BitVec.ofNat 32 (4 * 0x300)) 0x400087)
    (0x1000 + BitVec.ofNat 32 (4 * 0x3ff)) 0x800087) (0x1000 + BitVec.ofNat 32 (4 * index)) = _
  rw [last, image, third, second, zeroth, cleared]
  rfl

section Handed

variable {cpu : Cpu} {page index frame : Nat} {addr place : BitVec 32}

theorem Handed.directory (handed : Handed cpu) (inside : index < 0x400) :
    cpu.directory index = .ofWord (firstWord index) := by
  rw [Cpu.directory, handed.cr3, handed.words index inside]

/-- A present entry of the second stage is a big page. -/
theorem Handed.walk_entry (handed : Handed cpu) (location : page / 0x400 = index) (inside : index < 0x400)
    {base : Nat} (entry : PageDirectoryEntry.ofWord (firstWord index) = ⟨0x87, BitVec.ofNat 20 (0x400 * base)⟩)
    (small : base < 0x400) :
    Paging.walk cpu.directory cpu.readEntry page = some (0x400 * base + page % 0x400) := by
  have found := (handed.directory inside).trans entry
  rw [Paging.walk_big location found (by decide : (0x87 : Flags).getLsbD 0 = true)
    (by decide : (0x87 : Flags).getLsbD 7 = true), Paging.bigPageFrame, BitVec.toNat_ofNat,
    Nat.mod_eq_of_lt (by omega), Nat.mul_div_cancel_left base (by decide), Nat.mul_comm]

/-- The directory of the second stage has big pages only. -/
theorem Handed.walk (handed : Handed cpu) (inside : page < 0x100000) :
    Paging.walk cpu.directory cpu.readEntry page = firstFrame page := by
  have below : page / 0x400 < 0x400 := by omega
  have found := handed.directory below
  generalize location : page / 0x400 = index at below found
  have reached : ∀ base < 0x400,
      PageDirectoryEntry.ofWord (firstWord index) = ⟨0x87, BitVec.ofNat 20 (0x400 * base)⟩ →
        Paging.walk cpu.directory cpu.readEntry page = some (0x400 * base + page % 0x400) :=
    fun base small entry => handed.walk_entry location below entry small
  unfold firstFrame
  -- Five entries are present; the others are zero.
  by_cases zeroth : index = 0
  · rw [if_pos (by omega), reached 0 (by decide) (by rw [zeroth]; rfl)]
    exact congrArg some (by omega)
  by_cases second : index = 1
  · rw [if_neg (by omega), if_pos (by omega), reached 3 (by decide) (by rw [second]; rfl)]
    exact congrArg some (by omega)
  by_cases third : index = 2
  · rw [if_neg (by omega), if_pos (by omega), reached 4 (by decide) (by rw [third]; rfl)]
    exact congrArg some (by omega)
  rw [if_neg (by omega), if_neg (by omega)]
  by_cases image : index = 0x300
  · rw [if_pos (by omega), reached 1 (by decide) (by rw [image]; rfl)]
    exact congrArg some (by omega)
  rw [if_neg (by omega)]
  by_cases stack : index = 0x3ff
  · rw [if_pos (by omega), reached 2 (by decide) (by rw [stack]; rfl)]
    exact congrArg some (by omega)
  have unused : firstWord index = 0 := by
    rw [firstWord, if_neg stack, if_neg image, if_neg third, if_neg second, if_neg zeroth]
  rw [if_neg (by omega), Paging.walk, Paging.shift_eq_div, location, found, unused]
  rfl

theorem page_lt (addr : BitVec 32) : addr.toNat / 0x1000 < 0x100000 := by
  have bound := addr.isLt
  omega

/-- The physical addresses of the second stage. -/
theorem Handed.physical_cases (handed : Handed cpu) (mapped : cpu.physical addr = some place) :
    (addr.toNat < 0x400000 ∧ place.toNat = addr.toNat) ∨
      (0x400000 ≤ addr.toNat ∧ addr.toNat < 0xc00000 ∧ place.toNat = addr.toNat + 0x800000) ∨
      (0xc0000000 ≤ addr.toNat ∧ addr.toNat < 0xc0400000 ∧
        place.toNat = addr.toNat - 0xc0000000 + 0x400000) ∨
      (0xffc00000 ≤ addr.toNat ∧ place.toNat = addr.toNat - 0xffc00000 + 0x800000) := by
  have bound := addr.isLt
  rw [Cpu.physical, handed.walk (page_lt addr)] at mapped
  rcases Option.map_eq_some_iff.mp mapped with ⟨frame, found, rfl⟩
  unfold firstFrame at found
  rw [BitVec.toNat_ofNat]
  split_ifs at found <;> (obtain rfl := Option.some.inj found; omega)

/-- The directory of the kernel keeps what was mapped. -/
theorem walk_of_firstFrame {readEntry : Nat → Option PageTableEntry} {paging : PagingInfo}
    (inside : page < 0x100000) (found : firstFrame page = some frame) :
    Paging.walk (Paging.init pagingAddr paging).directory readEntry page = some frame := by
  unfold firstFrame at found
  split_ifs at found with low data image stack
  · rw [Paging.walk_data (by omega), if_pos low, ← found]
  · rw [Paging.walk_data (by omega), if_neg low, ← found]
  · rw [Paging.walk_image image.1 image.2, ← found]
  · rw [Paging.walk_stack stack inside, ← found]

/-- Words outside of the first directory may be written. -/
theorem Handed.of_outside (handed : Handed cpu) {ram : Mem}
    (same : ∀ other : BitVec 32, 0x1000 ≤ other.toNat → other.toNat < 0x2000 → ram other = cpu.ram other) :
    Handed { cpu with ram := ram } := by
  refine ⟨handed.cr3, fun index inside => ?_⟩
  rw [← handed.words index inside]
  exact read32_congr (fun byte near => same byte (by bv_omega) (by bv_omega))

/-- Stores before the handover leave the first directory alone. -/
theorem Handed.store {next : Cpu} {item : BitVec 32 × BitVec 8} (handed : Handed cpu)
    (outside : item.1.toNat < 0x1000 ∨ 0x2000 ≤ item.1.toNat) (taken : cpu.store item = some next) :
    Handed next := by
  rcases Option.map_eq_some_iff.mp taken with ⟨place, mapped, rfl⟩
  refine handed.of_outside (fun other above below => Function.update_of_ne ?_ _ _)
  rintro rfl
  have cases := handed.physical_cases mapped
  omega

/-- A store to a mapped address goes on. -/
theorem Handed.store_total (handed : Handed cpu) {item : BitVec 32 × BitVec 8}
    (outside : item.1.toNat < 0x1000 ∨ 0x2000 ≤ item.1.toNat)
    (mapped : firstFrame (item.1.toNat / 0x1000) ≠ none) : ∃ next, cpu.store item = some next ∧ Handed next := by
  rcases Option.ne_none_iff_exists'.mp mapped with ⟨frame, found⟩
  have target : cpu.physical item.1 = some _ :=
    congrArg (Option.map _) ((handed.walk (page_lt item.1)).trans found)
  have taken : cpu.store item = some _ := congrArg (Option.map _) target
  exact ⟨_, taken, handed.store outside taken⟩

end Handed

/-! ## The kernel's directory is written -/

/-- Where the directory is. -/
def directoryPhysical : BitVec 32 := 0xc00000

/-- Calls of `set_directory`, one after the other. -/
def setDirectories (entries : List (Nat × Flags × Nat)) (directory : Nat → PageDirectoryEntry) :
    Nat → PageDirectoryEntry :=
  entries.foldl (fun directory entry => Paging.setDirectory directory entry.1 entry.2.1 entry.2.2) directory

/-- The directory as far as it has been written; nothing else has changed. -/
structure Written (start : Cpu) (directory : Nat → PageDirectoryEntry) (cpu : Cpu) : Prop
    extends Handed cpu where
  entries : ∀ index < 0x400,
    PageDirectoryEntry.ofWord (read32 cpu.ram (directoryPhysical + BitVec.ofNat 32 (4 * index))) =
      directory index
  rest : ∀ addr : BitVec 32, addr.toNat < 0xc00000 ∨ 0xc01000 ≤ addr.toNat → cpu.ram addr = start.ram addr

section Written

variable {start cpu : Cpu} {directory : Nat → PageDirectoryEntry} {index : Nat}

theorem Handed.physical_entry (handed : Handed cpu) (inside : index < 0x400) :
    cpu.physical (BitVec.ofNat 32 (pagingAddr + 4 * index)) =
      some (directoryPhysical + BitVec.ofNat 32 (4 * index)) := by
  have address : (BitVec.ofNat 32 (pagingAddr + 4 * index)).toNat = 0x400000 + 4 * index := by
    rw [BitVec.toNat_ofNat]
    exact Nat.mod_eq_of_lt (by show 0x400000 + _ < _; omega)
  have page : (0x400000 + 4 * index) / 0x1000 = 0x400 := by omega
  rw [Cpu.physical, handed.walk (page_lt _), address, page]
  refine congrArg some (BitVec.eq_of_toNat_eq ?_)
  rw [BitVec.toNat_ofNat, directoryPhysical]
  bv_omega

/-- An entry is assigned. -/
theorem Written.setDirectory (written : Written start directory cpu) {entry : Nat × Flags × Nat}
    (inside : entry.1 < 0x400) : ∃ next, cpu.setDirectory entry = some next ∧
      Written start (Paging.setDirectory directory entry.1 entry.2.1 entry.2.2) next := by
  refine ⟨_, congrArg (Option.map _) (written.toHanded.physical_entry inside), ?_, ?_, ?_⟩
  · refine written.toHanded.of_outside (fun other above below => write32_of_outside _ _ ?_)
    unfold directoryPhysical
    bv_omega
  · intro other within
    dsimp only
    rw [read32_write32_entry _ _ _ within inside, Paging.setDirectory, Function.update_apply]
    split
    · exact PageDirectoryEntry.ofWord_assign _ _
    · exact written.entries other within
  · intro addr outside
    rw [← written.rest addr outside]
    refine write32_of_outside _ _ ?_
    unfold directoryPhysical
    bv_omega

/-- Entries are assigned one after the other. -/
theorem Written.run {entries : List (Nat × Flags × Nat)} (written : Written start directory cpu)
    (inside : ∀ entry ∈ entries, entry.1 < 0x400) :
    ∃ last, Run.run Cpu.setDirectory cpu entries = some last ∧
      Written start (setDirectories entries directory) last := by
  induction entries generalizing cpu directory with
  | nil => exact ⟨cpu, rfl, written⟩
  | cons entry rest inductionHypothesis =>
      rcases written.setDirectory (inside entry List.mem_cons_self) with ⟨next, taken, later⟩
      rcases inductionHypothesis later (fun other member =>
        inside other (List.mem_cons_of_mem entry member)) with ⟨last, reached, done⟩
      exact ⟨last, Run.run_cons_eq_some.mpr ⟨next, taken, reached⟩, done⟩

end Written

/-! ## The handover -/

section Assigned

variable {first second : Nat → PageDirectoryEntry} {index : Nat}

/-- What an entry is in the end depends only on what it was. -/
theorem setDirectories_congr (entries : List (Nat × Flags × Nat)) (same : first index = second index) :
    setDirectories entries first index = setDirectories entries second index := by
  induction entries generalizing first second with
  | nil => exact same
  | cons entry rest inductionHypothesis =>
      rw [setDirectories, setDirectories, List.foldl_cons, List.foldl_cons]
      refine inductionHypothesis ?_
      rw [Paging.setDirectory, Paging.setDirectory, Function.update_apply, Function.update_apply, same]

/-- A loop that assigns every entry once. -/
theorem setDirectories_range (flags : Nat → Flags) (addr : Nat → Nat) (count : Nat) :
    setDirectories ((List.range count).map fun i => (i, flags i, addr i)) first index =
      if index < count then ⟨flags index, BitVec.ofNat 20 (addr index)⟩ else first index := by
  unfold setDirectories
  induction count with
  | zero => rfl
  | succ count inductionHypothesis =>
      rw [List.range_succ, List.map_append, List.foldl_append]
      rw [List.map_singleton, List.foldl_cons, List.foldl_nil, Paging.setDirectory,
        Function.update_apply, inductionHypothesis]
      by_cases last : index = count
      · rw [if_pos last, if_pos (by omega), last]
      · rw [if_neg last]
        by_cases below : index < count
        · rw [if_pos below, if_pos (by omega)]
        · rw [if_neg below, if_neg (by omega)]

/-- The assignments of `paging::init` leave the directory that it is about. -/
theorem setDirectories_init (paging : PagingInfo) (inside : index < pageDirectoryEntryCount) :
    setDirectories (loopEntries ++ Paging.fixedEntries) first index =
      (Paging.init pagingAddr paging).directory index := by
  rw [setDirectories, List.foldl_append]
  refine setDirectories_congr Paging.fixedEntries ?_
  have looped := @setDirectories_range first index
  unfold setDirectories at looped
  rw [loopEntries, looped, if_pos inside, Paging.tableEntries, if_pos inside]

end Assigned

/-- `paging::init` keeps everything in its place. -/
theorem Handed.pagingInit {cpu : Cpu} (handed : Handed cpu) : ∃ last, cpu.pagingInit = some last ∧
    (∀ (paging : PagingInfo), ∀ index < pageDirectoryEntryCount,
      last.directory index = (Paging.init pagingAddr paging).directory index) ∧
    (∀ addr place, cpu.physical addr = some place → last.physical addr = some place) ∧
    ∀ addr : BitVec 32, addr.toNat < 0xc00000 ∨ 0xc01000 ≤ addr.toNat → last.ram addr = cpu.ram addr := by
  have indices : ∀ entry ∈ loopEntries ++ Paging.fixedEntries, entry.1 < 0x400 := by
    intro entry member
    rcases List.mem_append.mp member with looped | fixed
    · rcases List.mem_map.mp looped with ⟨i, inside, rfl⟩
      exact List.mem_range.mp inside
    · exact (by decide : ∀ entry ∈ Paging.fixedEntries, entry.1 < 0x400) entry fixed
  have start : Written cpu (fun index => PageDirectoryEntry.ofWord
      (read32 cpu.ram (directoryPhysical + BitVec.ofNat 32 (4 * index)))) cpu :=
    ⟨handed, fun _ _ => rfl, fun _ _ => rfl⟩
  rcases start.run indices with ⟨last, reached, written⟩
  have directory : ∀ (paging : PagingInfo), ∀ index < pageDirectoryEntryCount,
      ({ last with cr3 := directoryPhysical } : Cpu).directory index =
        (Paging.init pagingAddr paging).directory index :=
    fun paging index inside => (written.entries index inside).trans (setDirectories_init paging inside)
  -- The directory was written through the old mapping; `cr3` gets its physical address.
  refine ⟨{ last with cr3 := directoryPhysical }, ?_, directory, fun addr place mapped => ?_, written.rest⟩
  · rw [Cpu.pagingInit, reached]
    rfl
  · rw [Cpu.physical, handed.walk (page_lt addr)] at mapped
    rcases Option.map_eq_some_iff.mp mapped with ⟨frame, found, rfl⟩
    have same := directory ⟨fun _ => ⟨0, 0⟩, fun _ => .zero⟩ (addr.toNat / 0x1000 / 0x400)
      (by have below := page_lt addr; show _ < 0x400; omega)
    rw [Cpu.physical, Paging.walk_congr same, walk_of_firstFrame (page_lt addr) found]
    rfl

/-- Whatever is stored between the second stage's switch to paging and the kernel's, as long as
the second stage's directory is left alone: the kernel's directory is what the processor reads
after the switch, every address that was mapped stays where it was, and of the memory only the
new directory has changed.  What `paging::init` pushes on its own stack is not in the model. -/
theorem handover {mem : Mem} {cpu : Cpu} {items : List (BitVec 32 × BitVec 8)}
    (outside : ∀ item ∈ items, item.1.toNat < 0x1000 ∨ 0x2000 ≤ item.1.toNat)
    (reached : Run.run Cpu.store (Stage2.start32 mem) items = some cpu) :
    ∃ last, cpu.pagingInit = some last ∧
      (∀ (paging : PagingInfo), ∀ index < pageDirectoryEntryCount,
        last.directory index = (Paging.init pagingAddr paging).directory index) ∧
      (∀ addr place, cpu.physical addr = some place → last.physical addr = some place) ∧
      ∀ addr : BitVec 32, addr.toNat < 0xc00000 ∨ 0xc01000 ≤ addr.toNat → last.ram addr = cpu.ram addr := by
  have keep : ∀ (cpu : Cpu) (item : BitVec 32 × BitVec 8) (next : Cpu), Handed cpu →
      (item.1.toNat < 0x1000 ∨ 0x2000 ≤ item.1.toNat) → cpu.store item = some next → Handed next :=
    fun _ _ _ handed outside taken => handed.store outside taken
  have steps : Run.EachStep Cpu.store (fun _ item => item.1.toNat < 0x1000 ∨ 0x2000 ≤ item.1.toNat)
      (Stage2.start32 mem) items := Run.eachStep_of_forall_mem outside
  have handed := Run.run_invariant keep (handed_start32 mem) steps reached
  exact handed.pagingInit

/-- Stores at mapped addresses behind the second stage's directory never fault. -/
theorem exists_stored (mem : Mem) {items : List (BitVec 32 × BitVec 8)}
    (all : ∀ item ∈ items, (item.1.toNat < 0x1000 ∨ 0x2000 ≤ item.1.toNat) ∧
      firstFrame (item.1.toNat / 0x1000) ≠ none) :
    ∃ cpu, Run.run Cpu.store (Stage2.start32 mem) items = some cpu ∧ Handed cpu :=
  Run.run_total (fun _ _ handed admissible => handed.store_total admissible.1 admissible.2)
    (handed_start32 mem) all

/-- A byte of the image and one of the kernel's data. -/
theorem handover_twoBytes : ∃ cpu last,
    Run.run Cpu.store (Stage2.start32 fun _ => 0) [(0xc0000000, 0x55), (0x400ffc, 7)] = some cpu ∧
      cpu.pagingInit = some last ∧ last.physical 0xc0000000 = some 0x400000 := by
  have stored : ∃ cpu, Run.run Cpu.store (Stage2.start32 fun _ => 0)
      [(0xc0000000, 0x55), (0x400ffc, 7)] = some cpu ∧ Handed cpu :=
    exists_stored _ (by simp [firstFrame])
  rcases stored with ⟨cpu, reached, handed⟩
  rcases handover (by simp) reached with ⟨last, switched, _, kept, _⟩
  have image : cpu.physical 0xc0000000 = some 0x400000 := by
    rw [Cpu.physical, handed.walk (page_lt _)]
    rfl
  exact ⟨cpu, last, reached, switched, kept _ _ image⟩

/-! ## Memory under the mappings -/

section Flat

variable {cpu next : Cpu} {addr other place : BitVec 32} {item : BitVec 32 × BitVec 8}
  {items : List (BitVec 32 × BitVec 8)} {flat : Mem}

/-- No two addresses share a byte. -/
theorem Handed.physical_injective (handed : Handed cpu) (mapped : cpu.physical addr = some place)
    (too : cpu.physical other = some place) : addr = other := by
  have first := handed.physical_cases mapped
  have second := handed.physical_cases too
  have bound := addr.isLt
  have limit := other.isLt
  apply BitVec.eq_of_toNat_eq
  omega

/-- The mappings are those of the directory alone. -/
theorem Handed.physical_eq (handed : Handed cpu) (later : Handed next) (addr : BitVec 32) :
    next.physical addr = cpu.physical addr := by
  rw [Cpu.physical, Cpu.physical, handed.walk (page_lt addr), later.walk (page_lt addr)]

/-- What is mapped is flat memory. -/
def Shows (cpu : Cpu) (flat : Mem) : Prop :=
  ∀ addr place, cpu.physical addr = some place → cpu.ram place = flat addr

theorem Shows.store (shows : Shows cpu flat) (handed : Handed cpu)
    (outside : item.1.toNat < 0x1000 ∨ 0x2000 ≤ item.1.toNat) (taken : cpu.store item = some next) :
    Shows next (Function.update flat item.1 item.2) := by
  have later := handed.store outside taken
  intro addr place mapped
  rw [handed.physical_eq later] at mapped
  rcases Option.map_eq_some_iff.mp taken with ⟨written, target, rfl⟩
  by_cases here : addr = item.1
  · subst here
    obtain rfl := Option.some.inj (target.symm.trans mapped)
    rw [Function.update_self]
    exact Function.update_self _ _ _
  · have elsewhere : place ≠ written := by
      rintro rfl
      exact here (handed.physical_injective mapped target)
    rw [Function.update_of_ne here, ← shows addr place mapped]
    exact Function.update_of_ne elsewhere _ _

/-- Stores one after the other. -/
theorem Shows.run (shows : Shows cpu flat) (handed : Handed cpu)
    (outside : ∀ item ∈ items, item.1.toNat < 0x1000 ∨ 0x2000 ≤ item.1.toNat)
    (reached : Run.run Cpu.store cpu items = some next) :
    Handed next ∧ Shows next (items.foldl (fun flat item => Function.update flat item.1 item.2) flat) := by
  induction items generalizing cpu flat with
  | nil =>
      obtain rfl := Option.some.inj reached
      exact ⟨handed, shows⟩
  | cons item rest inductionHypothesis =>
      rcases Run.run_cons_eq_some.mp reached with ⟨between, taken, later⟩
      have here := outside item List.mem_cons_self
      exact inductionHypothesis (shows.store handed here taken) (handed.store here taken)
        (fun other member => outside other (List.mem_cons_of_mem item member)) later

/-- Behind the directory, what was mapped is read as before. -/
theorem Handed.pagingInit_loads (handed : Handed cpu) (shows : Shows cpu flat) :
    ∃ last, cpu.pagingInit = some last ∧ ∀ addr : BitVec 32, cpu.physical addr ≠ none →
      (addr.toNat < 0x400000 ∨ 0x401000 ≤ addr.toNat) → last.load addr = some (flat addr) := by
  rcases handed.pagingInit with ⟨last, switched, _, kept, rest⟩
  refine ⟨last, switched, fun addr mapped outside => ?_⟩
  rcases Option.ne_none_iff_exists'.mp mapped with ⟨place, found⟩
  have cases := handed.physical_cases found
  have bound := addr.isLt
  rw [Cpu.load, kept addr place found, Option.map_some, rest place (by omega), shows addr place found]

end Flat

/-- Memory that is mapped behaves as flat memory across the switch: after any stores behind the
second stage's directory, a load under the kernel's directory gives the byte that was stored last
at the address, whichever of the five ranges it is in. -/
theorem handover_loads {mem flat : Mem} {cpu : Cpu} {items : List (BitVec 32 × BitVec 8)}
    (shows : Shows (Stage2.start32 mem) flat)
    (outside : ∀ item ∈ items, item.1.toNat < 0x1000 ∨ 0x2000 ≤ item.1.toNat)
    (reached : Run.run Cpu.store (Stage2.start32 mem) items = some cpu) :
    ∃ last, cpu.pagingInit = some last ∧ ∀ addr : BitVec 32, cpu.physical addr ≠ none →
      (addr.toNat < 0x400000 ∨ 0x401000 ≤ addr.toNat) →
        last.load addr =
          some (items.foldl (fun flat item => Function.update flat item.1 item.2) flat addr) := by
  rcases Shows.run shows (handed_start32 mem) outside reached with ⟨handed, later⟩
  exact handed.pagingInit_loads later

/-- The byte that was stored last. -/
theorem handover_loads_twice : ∃ cpu last,
    Run.run Cpu.store (Stage2.start32 fun _ => 0) [(0xc0000000, 0x55), (0x801000, 7), (0xc0000000, 0x56)] =
        some cpu ∧
      cpu.pagingInit = some last ∧ last.load 0xc0000000 = some 0x56 := by
  have shows : Shows (Stage2.start32 fun _ => 0)
      (fun addr => ((Stage2.start32 fun _ => 0).load addr).getD 0) := by
    intro addr place mapped
    show _ = ((Stage2.start32 fun _ => 0).load addr).getD 0
    rw [Cpu.load, mapped]
    rfl
  have stored : ∃ cpu, Run.run Cpu.store (Stage2.start32 fun _ => 0)
      [(0xc0000000, 0x55), (0x801000, 7), (0xc0000000, 0x56)] = some cpu ∧ Handed cpu :=
    exists_stored _ (by simp [firstFrame])
  rcases stored with ⟨cpu, reached, handed⟩
  rcases handover_loads shows (by simp) reached with ⟨last, switched, loads⟩
  have mapped : cpu.physical 0xc0000000 = some 0x400000 := by
    rw [Cpu.physical, handed.walk (page_lt _)]
    rfl
  refine ⟨cpu, last, reached, switched, (loads 0xc0000000 ?_ (by decide)).trans ?_⟩
  · rw [mapped]
    exact Option.some_ne_none _
  · rw [List.foldl_cons, List.foldl_cons, List.foldl_cons, List.foldl_nil, Function.update_self]

end Boot

end WeakOS
