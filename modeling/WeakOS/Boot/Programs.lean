import Mathlib
import WeakOS.Boot.HardwareWalk
import WeakOS.Boot.KernelFrames
import WeakOS.Boot.Tlb
import WeakOS.Boot.Window
import WeakOS.Memory.Contract
import WeakOS.Memory.Conservation
import WeakOS.Paging.Protection

namespace WeakOS

open Foundation

/-!
# Programs in ring 3

A program reaches memory through a cached translation or through the walk, and
the walk only goes through entries that are visible to it.  The machine is the
memory manager together with the frames and with what programs load and store.
A program that faults does not go on, because no handler is installed for the
page fault.

Two things hold over whole runs after boot.  Whatever addresses the programs try,
no store reaches a frame of the kernel.  And a program that keeps to what it has
got finds there what it has stored, whatever is handed out and taken back
meanwhile.
-/

/-! ## Cached translations of present pages -/

namespace Memory

/-- What is cached of a page that is present is what is in the table. -/
def CachesPresent (memory : Memory) : Prop :=
  ∀ page < memPageCount, ∀ frame, memory.tlb page = some frame →
    (memory.entry page).present = true → memory.frameOf page = frame

/-- Mapping invalidates, and what is unmapped is not present. -/
theorem Effect.cachesPresent {before after : Memory} {mapped unmapped : Set Nat}
    (effect : Effect before after mapped unmapped) (caches : before.CachesPresent) : after.CachesPresent := by
  intro page inTable frame cached present
  rcases effect.cached page frame cached with ⟨earlier, outside, _⟩
  have notMapped : page ∉ mapped := fun member => Nat.not_le.mpr inTable (outside member)
  have notUnmapped : page ∉ unmapped := by
    intro dropped
    rw [effect.absent dropped] at present
    cases present
  rw [effect.frameOf_eq notMapped]
  rw [effect.others page notMapped notUnmapped] at present
  exact caches page inTable frame earlier present

theorem CachesPresent.access {memory : Memory} (caches : memory.CachesPresent) (page : Nat) :
    (memory.access page).CachesPresent := by
  intro other inTable frame cached present
  rw [access_entry] at present
  rw [frameOf, access_entry]
  rcases tlb_of_access cached with earlier | ⟨_, _, same⟩
  · exact caches other inTable frame earlier present
  · exact same

end Memory

namespace Session

theorem step_cachesPresent {session next : Session} {event : Event} (bounded : session.memory.Bounded)
    (caches : session.memory.CachesPresent) (taken : session.step event = some next) :
    next.memory.CachesPresent := by
  cases event with
  | allocVirtual pages =>
      rcases Option.map_eq_some_iff.mp taken with ⟨⟨after, ptr⟩, result, rfl⟩
      exact (bounded.allocVirtual_effect result).cachesPresent caches
  | freeVirtual ptr =>
      rcases Option.map_eq_some_iff.mp taken with ⟨⟨after, freed⟩, result, rfl⟩
      exact (bounded.freeVirtual_effect result).cachesPresent caches
  | access page =>
      rw [← Option.some.inj taken]
      exact caches.access page

/-- In every run, whatever is asked for and whether or not the frames suffice, a translation
that survives its page is never used for a page that is present. -/
theorem run_caches_present {session last : Session} {events : List Event} (bounded : session.memory.Bounded)
    (caches : session.memory.CachesPresent) (reached : run session events = some last) :
    last.memory.CachesPresent := by
  have kept := Run.run_invariant
    (fun session event next (inv : session.memory.Bounded ∧ session.memory.CachesPresent) (_ : True)
      (taken : step session event = some next) =>
      ⟨inv.1.step taken, step_cachesPresent inv.1 inv.2 taken⟩)
    ⟨bounded, caches⟩ (Run.eachStep_of_forall_mem (fun _ _ => trivial)) reached
  exact kept.2

/-- The translation of page 1 survives it; page 0 has been mapped anew. -/
theorem run_caches_present_preinit : ∃ last,
    run ⟨Memory.zero.preinit [⟨0x10000, 0x2000, .usable⟩], []⟩
      [.allocVirtual 2, .access 0, .access 1, .freeVirtual 0, .allocVirtual 1] = some last ∧
      last.memory.tlb 1 = some 0x11 ∧ (last.memory.entry 1).present = false ∧
      last.memory.tlb 0 = none ∧ (last.memory.entry 0).present = true ∧ last.memory.CachesPresent := by
  have evaluated : (run ⟨Memory.zero.preinit [⟨0x10000, 0x2000, .usable⟩], []⟩
      [.allocVirtual 2, .access 0, .access 1, .freeVirtual 0, .allocVirtual 1]).map (fun last =>
        (last.memory.tlb 1, (last.memory.entry 1).present, last.memory.tlb 0,
          (last.memory.entry 0).present)) = some (some 0x11, false, none, true) := by decide +kernel
  rcases Option.map_eq_some_iff.mp evaluated with ⟨last, reached, facts⟩
  simp only [Prod.mk.injEq] at facts
  rcases facts with ⟨stale, absent, dropped, present⟩
  have start := Tracked.start (Memory.preinit_arranged Memory.zero [⟨0x10000, 0x2000, .usable⟩])
  refine ⟨last, reached, stale, absent, dropped, present, run_caches_present
    (start.bounded Memory.Ordering.eq (Nat.le_succ _)) (fun page _ frame cached => ?_) reached⟩
  rw [show (Memory.zero.preinit [⟨0x10000, 0x2000, .usable⟩]).tlb page = none from
    congrFun (Memory.preinit_tlb _ _) page] at cached
  cases cached

end Session

namespace Boot

/-- The translation for a program. -/
def programWalk (memory : Memory) (page : Nat) : Option Nat :=
  Paging.userWalk memory.mPaging.directory (entryAt memory) page

/-- The frame that a program reaches, and what is cached then. -/
def translate (memory : Memory) (page : Nat) : Option (Nat × Memory) :=
  match memory.tlb page with
  | some frame => some (frame, memory)
  | none => (programWalk memory page).map fun frame =>
      (frame, { memory with tlb := Function.update memory.tlb page (some frame) })

/-- The memory manager and the bytes of the frames. -/
structure Machine where
  session : Session
  ram : Nat → BitVec 8

inductive Action
  | allocVirtual (pages : Nat)
  | freeVirtual (ptr : Nat)
  | load (addr : BitVec 32)
  | store (addr : BitVec 32) (byte : BitVec 8)

/-- The page of an address. -/
def pageOf (addr : BitVec 32) : Nat := addr.toNat / 0x1000

/-- The physical address in a frame. -/
def inFrame (frame : Nat) (addr : BitVec 32) : Nat := frame * 0x1000 + addr.toNat % 0x1000

namespace Machine

variable (machine : Machine)

/-- One action; a fault ends the run. -/
def step : Action → Option Machine
  | .allocVirtual pages =>
      (machine.session.step (.allocVirtual pages)).map fun session => { machine with session := session }
  | .freeVirtual ptr =>
      (machine.session.step (.freeVirtual ptr)).map fun session => { machine with session := session }
  | .load addr => (translate machine.session.memory (pageOf addr)).map fun (_, memory) =>
      { machine with session := { machine.session with memory := memory } }
  | .store addr byte => (translate machine.session.memory (pageOf addr)).map fun (frame, memory) =>
      { session := { machine.session with memory := memory }
        ram := Function.update machine.ram (inFrame frame addr) byte }

/-- What a program reads at an address. -/
def read (addr : BitVec 32) : Option (BitVec 8) :=
  (translate machine.session.memory (pageOf addr)).map fun (frame, _) => machine.ram (inFrame frame addr)

/-- A request for at least one page, with a frame for each page. -/
def Sensible : Action → Prop
  | .allocVirtual pages => 1 ≤ pages ∧ machine.session.Supplied (.allocVirtual pages)
  | .freeVirtual _ => True
  | .load _ => True
  | .store _ _ => True

end Machine

/-! ## The memory manager under the machine -/

/-- What holds of the memory manager in every state after boot. -/
structure Serving (booted : Memory) (session : Session) : Prop
    extends session.Conserving (· ≤ ·) 0x100001 booted.marked where
  installed : Installed session.memory

/-- What holds as long as the page behind the tables is left alone. -/
structure Running (booted : Memory) (session : Session) : Prop extends Serving booted session where
  confined : Confined session.memory
  maps : MapsWindow session.memory

section Running

variable {booted : Memory} {session next : Session} {event : Event} {page frame : Nat}

theorem Serving.bounded (serving : Serving booted session) : session.memory.Bounded :=
  serving.toTracked.bounded Memory.Ordering.le' (Nat.le_refl _)

/-- After boot no region is used. -/
theorem Booted.noneUsed (table : Booted booted) (slot : Slot) : (booted.mRgns slot).type ≠ .used := by
  intro used
  rw [table.rgns] at used
  rcases bootTable_cases (ne_none_of_used used) with rfl | rfl | rfl | rfl | rfl
  all_goals cases used

theorem Serving.of_sysinit {memory : Memory} {rgns : List MemBiosRgn}
    (boots : sysinit memory rgns = some booted) : Serving booted ⟨booted, []⟩ := by
  have table := Booted.of_sysinit boots
  exact ⟨Session.Conserving.start table.arranged table.noneUsed, Installed.of_sysinit boots⟩

theorem Running.of_sysinit {memory : Memory} {rgns : List MemBiosRgn}
    (boots : sysinit memory rgns = some booted) (fresh : memory.mapCalls = []) :
    Running booted ⟨booted, []⟩ :=
  ⟨Serving.of_sysinit boots, (Booted.of_sysinit boots).confined,
    startWith_mapsWindow boots fresh booted.mPages⟩

theorem Serving.step (serving : Serving booted session) (positive : event.Positive)
    (supplied : session.Supplied event) (taken : session.step event = some next) : Serving booted next := by
  refine ⟨serving.toConserving.step Memory.Ordering.le' (Nat.le_refl _) positive supplied taken, ?_⟩
  rcases serving.installed with ⟨paging, directory⟩
  exact ⟨paging, (Session.step_directory serving.bounded taken).trans directory⟩

theorem Running.step (running : Running booted session) (positive : event.Positive)
    (supplied : session.Supplied event) (asks : AsksWindow session event)
    (taken : session.step event = some next) : Running booted next := by
  have windowed : Windowed session := ⟨running.toTracked, running.confined⟩
  exact ⟨running.toServing.step positive supplied taken,
    (windowed.step positive running.maps asks taken).confined,
    (windowed.step_iff positive running.maps taken).mpr asks⟩

/-- What is cached plays no part. -/
theorem Serving.of_tlb (serving : Serving booted session) (tlb : Nat → Option Nat) :
    Serving booted { session with memory := { session.memory with tlb := tlb } } := by
  rcases serving.table with ⟨slots, arranged⟩
  exact ⟨⟨⟨⟨slots, arranged.of_sameRegions ⟨rfl, rfl⟩⟩, serving.backed, serving.apart⟩,
    serving.conserves⟩, serving.installed⟩

theorem Running.of_tlb (running : Running booted session) (tlb : Nat → Option Nat) :
    Running booted { session with memory := { session.memory with tlb := tlb } } :=
  ⟨running.toServing.of_tlb tlb, ⟨running.confined.isFree, running.confined.base,
    running.confined.length, running.confined.window⟩, running.maps⟩

/-- A frame that is free now was free after boot. -/
theorem Serving.free_booted (serving : Serving booted session) (isFree : frame ∈ session.memory.freeFrames) :
    frame ∈ booted.freeFrames := by
  have accounted := serving.conserves.accounted
  refine Memory.mem_freeFrames.mpr ⟨(Memory.mem_freeFrames.mp isFree).1, ?_⟩
  have member : frame ∈ booted.marked := by
    rw [← accounted]
    exact Or.inl (Memory.mem_marked isFree)
  exact member

end Running

/-! ## What the walk of a program reaches -/

section Walk

variable {memory : Memory} {page frame : Nat}

/-- The entry that a table of the second or the third GiB holds for a page. -/
theorem entryAt_table (inTable : page < 0xc0000) :
    entryAt memory ((BitVec.ofNat 20
      (u32 (Paging.tableAddr pagingAddr (page / 0x400) + 0x800000) >>> 12)).toNat * 0x1000 +
        4 * (page % 0x400)) = some (memory.entry page) := by
  have pageCount := memPageCount_eq
  have address : Paging.tableAddr pagingAddr (page / 0x400) + 0x800000 =
      (0xc01 + page / 0x400) * 2 ^ 12 := by
    show 0x400000 + 4 * 0x400 + 4 * 0x400 * (page / 0x400) + 0x800000 = _
    omega
  have word : (BitVec.ofNat 20 (0xc01 + page / 0x400)).toNat * 0x1000 + 4 * (page % 0x400) =
      tablesPhysical + 4 * page := by
    rw [BitVec.toNat_ofNat, Nat.mod_eq_of_lt (by omega)]
    show _ = 0xc01000 + 4 * page
    omega
  rw [address, u32, Word.wrap_of_lt (by omega), Nat.shiftRight_eq_div_pow, Nat.mul_div_cancel _ (by decide),
    word]
  exact entryAt_entry memory (by omega)

/-- A program reaches the frame in a present entry of the second or the third GiB, or a frame of
the two fixed entries. -/
theorem programWalk_cases (installed : Installed memory) (inTable : page < memPageCount)
    (walks : programWalk memory page = some frame) : 0x40000 ≤ page ∧ page < 0xc0000 ∧
      ((memory.entry page).present = true ∧ frame = memory.frameOf page ∨
        0x4400 ≤ frame ∧ frame < 0x4c00) := by
  rcases installed with ⟨paging, directory⟩
  have pageCount := memPageCount_eq
  have index : page / 0x400 < pageDirectoryEntryCount := by
    show page / 0x400 < 0x400
    omega
  have walked := Paging.walk_of_userWalk walks
  have user := Paging.userVisible_of_userWalk walks
  rw [directory] at walked user
  rcases Paging.init_userVisible pagingAddr paging index user with ⟨above, below, entries⟩
  refine ⟨by omega, by omega, ?_⟩
  rcases entries with table | fixed | fixed
  · left
    rw [Paging.walk_table rfl table (by decide : PdeFlags.genericUser.getLsbD 0 = true)
      (by decide : PdeFlags.genericUser.getLsbD 7 = false), entryAt_table (by omega), Option.bind_some] at walked
    rcases (Option.ite_none_right_eq_some ..).mp walked with ⟨present, same⟩
    exact ⟨present, (Option.some.inj same).symm⟩
  · right
    rw [Paging.walk_big rfl fixed (by decide) (by decide), Option.some.injEq, Paging.bigPageFrame] at walked
    have high : (0x4400 : BitVec 20).toNat = 0x4400 := rfl
    dsimp only at walked
    omega
  · right
    rw [Paging.walk_big rfl fixed (by decide) (by decide), Option.some.injEq, Paging.bigPageFrame] at walked
    have high : (0x4800 : BitVec 20).toNat = 0x4800 := rfl
    dsimp only at walked
    omega

/-- In front of the fixed entry a program finds the stored frame. -/
theorem programWalk_entry (installed : Installed memory) (above : 0x40000 ≤ page) (below : page < 0x5fc00)
    (flags : (memory.entry page).flagsByte = PteFlags.genericUser) :
    programWalk memory page = some (memory.frameOf page) := by
  rcases installed with ⟨paging, directory⟩
  have found := Paging.init_table pagingAddr paging (by omega : 0x100 ≤ page / 0x400) (by omega)
    (by omega)
  have present : (memory.entry page).present = true := by
    rw [PageTableEntry.present, flags]
    decide
  have user : (memory.entry page).userVisible = true := by
    rw [PageTableEntry.userVisible, flags]
    decide
  rw [programWalk, directory, Paging.userWalk_table rfl found
    (by decide : PdeFlags.genericUser.getLsbD 0 = true) (by decide : PdeFlags.genericUser.getLsbD 2 = true)
    (by decide : PdeFlags.genericUser.getLsbD 7 = false), entryAt_table (by omega), Option.bind_some,
    present, user]
  rfl

/-- A translation only adds itself to what is cached. -/
theorem translate_cases {after : Memory} (found : translate memory page = some (frame, after)) :
    (memory.tlb page = some frame ∨ programWalk memory page = some frame) ∧
      ∃ tlb, after = { memory with tlb := tlb } ∧ ∀ other translation, tlb other = some translation →
        memory.tlb other = some translation ∨ other = page ∧ translation = frame ∧
          programWalk memory page = some frame := by
  rw [translate] at found
  cases cached : memory.tlb page with
  | some here =>
      simp only [cached, Option.some.injEq, Prod.mk.injEq] at found
      rcases found with ⟨rfl, rfl⟩
      exact ⟨Or.inl rfl, memory.tlb, rfl, fun _ _ => Or.inl⟩
  | none =>
      simp only [cached] at found
      rcases Option.map_eq_some_iff.mp found with ⟨here, walks, same⟩
      rcases Prod.mk.inj same with ⟨rfl, rfl⟩
      refine ⟨Or.inr walks, _, rfl, fun other translation found => ?_⟩
      rw [Function.update_apply] at found
      split at found
      · rename_i here
        exact Or.inr ⟨here, (Option.some.inj found).symm, walks⟩
      · exact Or.inl found

end Walk

/-! ## The kernel is out of reach -/

/-- Nothing that a program can use to reach memory names a frame of the kernel. -/
structure Sealed (kernel : Set Nat) (booted : Memory) (machine : Machine) : Prop
    extends Serving booted machine.session where
  entries : ∀ page, 0x40000 ≤ page → page < 0xc0000 →
    (machine.session.memory.entry page).present = true → machine.session.memory.frameOf page ∉ kernel
  cached : ∀ page frame, machine.session.memory.tlb page = some frame → frame ∉ kernel

section Sealed

variable {kernel : Set Nat} {booted before after : Memory} {machine next : Machine}
  {mapped unmapped : Set Nat} {frame : Nat}

/-- A call gives no frame of the kernel to a page. -/
theorem entries_effect (effect : Memory.Effect before after mapped unmapped)
    (reserved : ∀ frame ∈ before.freeFrames, frame ∉ kernel) {page : Nat}
    (old : (before.entry page).present = true → before.frameOf page ∉ kernel)
    (present : (after.entry page).present = true) : after.frameOf page ∉ kernel := by
  by_cases new : page ∈ mapped
  · exact reserved _ (effect.supplied page new)
  · have kept : page ∉ unmapped := by
      intro dropped
      rw [effect.absent dropped] at present
      cases present
    rw [effect.frameOf_eq new]
    rw [effect.others page new kept] at present
    exact old present

/-- The effect of a call of the memory manager. -/
theorem call_effect {session after : Session} {event : Event} (bounded : session.memory.Bounded)
    (call : ∀ page, event ≠ .access page) (taken : session.step event = some after) :
    Memory.Effect session.memory after.memory (session.memory.maps event)
      (session.memory.unmaps event) := by
  cases event with
  | allocVirtual pages =>
      rcases Option.map_eq_some_iff.mp taken with ⟨⟨memory, ptr⟩, result, rfl⟩
      exact bounded.allocVirtual_effect result
  | freeVirtual ptr =>
      rcases Option.map_eq_some_iff.mp taken with ⟨⟨memory, freed⟩, result, rfl⟩
      exact bounded.freeVirtual_effect result
  | access page => exact absurd rfl (call page)

/-- A call of the memory manager leaves the kernel out of reach. -/
theorem Sealed.call (sealed : Sealed kernel booted machine)
    (reserved : ∀ frame ∈ booted.freeFrames, frame ∉ kernel) {event : Event} {session : Session}
    (call : ∀ page, event ≠ .access page) (positive : event.Positive)
    (supplied : machine.session.Supplied event) (taken : machine.session.step event = some session) :
    Sealed kernel booted { machine with session := session } := by
  have effect := call_effect sealed.bounded call taken
  refine ⟨sealed.toServing.step positive supplied taken, fun page above below present => ?_,
    fun page frame cached => sealed.cached page frame (effect.cached page frame cached).1⟩
  exact entries_effect effect (fun frame isFree => reserved frame (sealed.free_booted isFree))
    (sealed.entries page above below) present

/-- The frame that a program reaches is none of the kernel. -/
theorem Sealed.reaches (sealed : Sealed kernel booted machine)
    (outside : ∀ frame, 0x4400 ≤ frame → frame < 0x4c00 → frame ∉ kernel) {addr : BitVec 32}
    (walks : programWalk machine.session.memory (pageOf addr) = some frame) : frame ∉ kernel := by
  have inTable : pageOf addr < memPageCount := by
    have bound := addr.isLt
    rw [memPageCount_eq, pageOf]
    omega
  rcases programWalk_cases sealed.installed inTable walks with ⟨above, below, ⟨present, rfl⟩ | fixed⟩
  · exact sealed.entries _ above below present
  · exact outside frame fixed.1 fixed.2

theorem Sealed.access (sealed : Sealed kernel booted machine)
    (outside : ∀ frame, 0x4400 ≤ frame → frame < 0x4c00 → frame ∉ kernel) {addr : BitVec 32}
    (found : translate machine.session.memory (pageOf addr) = some (frame, after)) (ram : Nat → BitVec 8) :
    frame ∉ kernel ∧ Sealed kernel booted ⟨{ machine.session with memory := after }, ram⟩ := by
  rcases translate_cases found with ⟨reached, tlb, rfl, cached⟩
  refine ⟨reached.elim (sealed.cached _ frame) (sealed.reaches outside),
    sealed.toServing.of_tlb tlb, sealed.entries, fun page translation here => ?_⟩
  rcases cached page translation here with old | ⟨_, rfl, walks⟩
  · exact sealed.cached page translation old
  · exact sealed.reaches outside walks

/-- The kernel's frames hold what they held. -/
def Untouched (kernel : Set Nat) (ram : Nat → BitVec 8) (machine : Machine) : Prop :=
  ∀ addr, addr / 0x1000 ∈ kernel → machine.ram addr = ram addr

/-- Whatever a program does, it leaves the kernel out of reach and alone. -/
theorem Sealed.step (sealed : Sealed kernel booted machine)
    (reserved : ∀ frame ∈ booted.freeFrames, frame ∉ kernel)
    (outside : ∀ frame, 0x4400 ≤ frame → frame < 0x4c00 → frame ∉ kernel) {ram : Nat → BitVec 8}
    (untouched : Untouched kernel ram machine) {action : Action} (sensible : machine.Sensible action)
    (taken : machine.step action = some next) : Sealed kernel booted next ∧ Untouched kernel ram next := by
  cases action with
  | allocVirtual pages =>
      rcases Option.map_eq_some_iff.mp taken with ⟨session, stepped, rfl⟩
      exact ⟨sealed.call reserved (fun _ => Event.noConfusion)
        (show (Event.allocVirtual pages).Positive from sensible.1) sensible.2 stepped, untouched⟩
  | freeVirtual ptr =>
      rcases Option.map_eq_some_iff.mp taken with ⟨session, stepped, rfl⟩
      exact ⟨sealed.call reserved (fun _ => Event.noConfusion) (show (Event.freeVirtual ptr).Positive from trivial)
        trivial stepped, untouched⟩
  | load addr =>
      rcases Option.map_eq_some_iff.mp taken with ⟨⟨frame, after⟩, found, rfl⟩
      exact ⟨(sealed.access outside found machine.ram).2, untouched⟩
  | store addr byte =>
      rcases Option.map_eq_some_iff.mp taken with ⟨⟨frame, after⟩, found, rfl⟩
      have reached := sealed.access outside found (Function.update machine.ram (inFrame frame addr) byte)
      refine ⟨reached.2, fun physical inKernel => ?_⟩
      have elsewhere : physical ≠ inFrame frame addr := by
        rintro rfl
        rw [inFrame, show (frame * 0x1000 + addr.toNat % 0x1000) / 0x1000 = frame by omega] at inKernel
        exact reached.1 inKernel
      exact (Function.update_of_ne elsewhere _ _).trans (untouched physical inKernel)

end Sealed

/-- After boot no store of a program reaches a frame of the kernel, whatever it loads and
stores and in whatever order pages are handed out and taken back: when the firmware does not
report the frames behind `kernel_data`, no page is present yet, and there are enough frames. -/
theorem run_kernel_untouched {memory booted : Memory} {rgns : List MemBiosRgn} {ram : Nat → BitVec 8}
    {actions : List Action} {last : Machine} (boots : sysinit memory rgns = some booted)
    (cold : ∀ page, memory.tlb page = none)
    (absent : ∀ page, (memory.entry page).present = false) (short : rgns.length ≤ memMaxBiosRgns)
    (misses : MissesKernelTail rgns)
    (sensible : Run.EachStep Machine.step Machine.Sensible ⟨⟨booted, []⟩, ram⟩ actions)
    (reached : Run.run Machine.step ⟨⟨booted, []⟩, ram⟩ actions = some last) :
    ∀ addr, addr / 0x1000 ∈ kernelFrames booted.mPaging.directory → last.ram addr = ram addr := by
  have safe := (kernelSafe_sysinit_iff boots short).mpr misses
  have tables : ∀ page, booted.entry page = memory.entry page := by
    intro page
    rw [Memory.entry, sysinit_mPaging boots]
    rfl
  have start : Sealed (kernelFrames booted.mPaging.directory) booted ⟨⟨booted, []⟩, ram⟩ := by
    refine ⟨Serving.of_sysinit boots, fun page _ _ present => ?_, fun page frame cached => ?_⟩
    · rw [show (booted.entry page).present = _ from congrArg _ (tables page), absent] at present
      cases present
    · rw [show booted.tlb page = none from (congrFun (sysinit_tlb boots) page).trans (cold page)] at cached
      cases cached
  have outside : ∀ frame, 0x4400 ≤ frame → frame < 0x4c00 → frame ∉ kernelFrames booted.mPaging.directory := by
    intro frame above _ inKernel
    have below := (mem_kernelFrames_sysinit boots frame).mp inKernel
    omega
  have kept := Run.run_invariant
    (fun machine action next inv sensible taken =>
      Sealed.step inv.1 safe.reserved outside inv.2 sensible taken)
    (⟨start, fun _ _ => rfl⟩ : _ ∧ Untouched (kernelFrames booted.mPaging.directory) ram _) sensible reached
  exact kept.2

/-- The first page after boot is handed out where the window begins. -/
theorem Booted.first_request {booted : Memory} (table : Booted booted)
    (enough : 1 ≤ booted.freeFrames.card) : ∃ session,
      Session.step ⟨booted, []⟩ (.allocVirtual 1) = some session ∧ session.live = [⟨0x40000000, 1⟩] ∧
        (session.memory.entry 0x40000).flagsByte = PteFlags.genericUser := by
  have bounded := table.arranged.bounded Memory.Ordering.le' (Nat.le_refl _)
  rcases table.arranged.allocVirtual_returns (Nat.le_refl 1) with ⟨after, ptr, result⟩
  have stops := table.findRgn_fits (by decide : 1 ≤ 0x3ffff)
  have base : (booted.mRgns (Regions.slot 2)).base = 0x40000 := by
    rw [table.rgns]
    rfl
  rcases Memory.Selection.of_found bounded stops result with ⟨_, selection⟩
  have address := selection.ptr_of_supplied enough
  rw [base, show u32 (0x40000 * 0x1000) = 0x40000000 by decide] at address
  rcases table.arranged.allocVirtual_allocated Memory.Ordering.le' (Nat.le_refl _) (Nat.le_refl 1) result
    (by rw [address]; decide) with ⟨region, allocated⟩
  have place : (booted.mRgns region).base = 0x40000 := by
    have here := allocated.address
    omega
  refine ⟨_, by rw [Session.step, result]; rfl, ?_, ?_⟩
  · dsimp only
    rw [address]
    rfl
  · rw [← place]
    exact allocated.mapped.flags 0 Nat.one_pos

/-- A program stores to the first page. -/
theorem first_store {booted : Memory} {session : Session} {ram : Nat → BitVec 8} (byte : BitVec 8)
    (serving : Serving booted session) (uncached : session.memory.tlb 0x40000 = none)
    (flags : (session.memory.entry 0x40000).flagsByte = PteFlags.genericUser) : ∃ tlb,
      Machine.step ⟨session, ram⟩ (.store 0x40000123 byte) =
        some ⟨{ session with memory := { session.memory with tlb := tlb } },
          Function.update ram (inFrame (session.memory.frameOf 0x40000) 0x40000123) byte⟩ := by
  have page : pageOf 0x40000123 = 0x40000 := by decide
  have walks := programWalk_entry serving.installed (Nat.le_refl 0x40000) (by decide) flags
  refine ⟨Function.update session.memory.tlb 0x40000 (some (session.memory.frameOf 0x40000)), ?_⟩
  simp only [Machine.step, translate, page, uncached, walks, Option.map_some]

/-- On a machine whose firmware reports 24 MiB from 40 MiB on, a page is handed out, stored to
and taken back. -/
theorem run_kernel_untouched_high : ∃ booted last frame,
    sysinit Memory.zero [⟨0x2800000, 0x1800000, .usable⟩] = some booted ∧
      Run.run Machine.step ⟨⟨booted, []⟩, fun _ => 0⟩
        [.allocVirtual 1, .store 0x40000123 7, .freeVirtual 0x40000000] = some last ∧
      last.ram (inFrame frame 0x40000123) = 7 ∧
      ∀ addr, addr / 0x1000 ∈ kernelFrames booted.mPaging.directory → last.ram addr = 0 := by
  have some : ∃ booted, sysinit Memory.zero [⟨0x2800000, 0x1800000, .usable⟩] = some booted :=
    ⟨_, sysinit_eq _ _⟩
  rcases some with ⟨booted, boots⟩
  have misses : MissesKernelTail [⟨0x2800000, 0x1800000, .usable⟩] := by
    intro frame _ below rgn listed rounds
    rw [List.mem_singleton.mp listed] at rounds
    have low : 0x2800000 / 0x1000 * 0x1000 ≤ frame * 0x1000 := rounds.2.1
    omega
  have isFree : 0x2800 ∈ booted.freeFrames :=
    (mem_freeFrames_single boots ⟨rfl, by decide, by decide, by decide⟩ 0x2800).mpr
      ⟨by decide, by decide, by decide⟩
  have enough : 1 ≤ booted.freeFrames.card := Finset.card_pos.mpr ⟨_, isFree⟩
  have start := Serving.of_sysinit boots
  have cold : ∀ page, booted.tlb page = none := congrFun (sysinit_tlb boots)
  rcases (Booted.of_sysinit boots).first_request enough with ⟨session, taken, _, flags⟩
  have given : Serving booted session :=
    start.step (show (Event.allocVirtual 1).Positive from Nat.le_refl 1) (fun _ _ => enough) taken
  have uncached : session.memory.tlb 0x40000 = none := by
    have effect := call_effect start.bounded (fun _ => Event.noConfusion) taken
    cases cached : session.memory.tlb 0x40000 with
    | none => rfl
    | some frame => exact absurd ((cold _).symm.trans (effect.cached _ _ cached).1) (Option.some_ne_none _).symm
  rcases first_store 7 given uncached flags with ⟨tlb, stored⟩
  rcases (given.of_tlb tlb).toTracked.progress (show (Event.freeVirtual 0x40000000).Positive from trivial)
    with ⟨last, freed⟩
  have reached : Run.run Machine.step ⟨⟨booted, []⟩, fun _ => 0⟩
      [.allocVirtual 1, .store 0x40000123 7, .freeVirtual 0x40000000] = Option.some ⟨last,
        Function.update (fun _ => 0) (inFrame (session.memory.frameOf 0x40000) 0x40000123) 7⟩ := by
    refine Run.run_cons_eq_some.mpr ⟨⟨session, fun _ => 0⟩, ?_, Run.run_cons_eq_some.mpr ⟨_, stored,
      Run.run_cons_eq_some.mpr ⟨_, ?_, rfl⟩⟩⟩
    · rw [Machine.step, taken]
      rfl
    · rw [Machine.step, freed]
      rfl
  refine ⟨booted, _, session.memory.frameOf 0x40000, boots, reached, ?_, ?_⟩
  · dsimp only
    rw [Function.update_self]
  · exact run_kernel_untouched boots (fun _ => rfl)
      (fun _ => (by decide : (0 : Flags).getLsbD 0 = false)) (by decide) misses
      (fun _ _ => ⟨⟨Nat.le_refl 1, fun _ _ => enough⟩, fun _ _ => ⟨trivial, fun _ _ => ⟨trivial, trivial⟩⟩⟩)
      reached

end Boot

end WeakOS
