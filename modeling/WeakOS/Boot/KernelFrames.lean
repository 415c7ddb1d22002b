import Mathlib
import WeakOS.Boot.Regions
import WeakOS.Memory.Effects
import WeakOS.Paging.Walk

namespace WeakOS

open Foundation

namespace Boot

/-!
# The frames behind the kernel

`sysinit` reserves the frames whose numbers are those of the pages of
`kernel_data`.  All but the first 4 MiB of that structure are mapped 8 MiB
higher, so the reserved frames end 8 MiB before the frames in use: frames
`0x1e23` up to `0x2622` back pages of `kernel_data` and are not reserved.
-/

/-- The pages of `kernel_data`, of the kernel image and of the kernel stack. -/
def kernelPages : Set Nat :=
  {page | page < sizeofKernelData / 0x1000 ∨ (0xc0000 ≤ page ∧ page < 0xc0400) ∨
    (0xffc00 ≤ page ∧ page < 0x100000)}

/-- The frames behind these pages. -/
def kernelFrames (directory : Nat → PageDirectoryEntry) : Set Nat :=
  {frame | ∃ page ∈ kernelPages, Paging.walk directory (fun _ => none) page = some frame}

theorem mem_kernelFrames_iff (info : Nat) (paging : PagingInfo) (frame : Nat) :
    frame ∈ kernelFrames (Paging.init info paging).directory ↔ frame < 0x2623 := by
  have size : sizeofKernelData / 0x1000 = 0x1e23 := by
    rw [sizeofKernelData_eq]
  constructor
  · rintro ⟨page, member, walks⟩
    rcases member with data | ⟨above, below⟩ | ⟨above, below⟩
    · rw [size] at data
      rw [Paging.walk_data (by omega), Option.some.injEq] at walks
      split at walks <;> omega
    · rw [Paging.walk_image above below, Option.some.injEq] at walks
      omega
    · rw [Paging.walk_stack above below, Option.some.injEq] at walks
      omega
  · intro below
    unfold kernelFrames kernelPages
    simp only [Set.mem_ofPred_eq, size]
    by_cases first : frame < 0x400
    · exact ⟨frame, by omega, by rw [Paging.walk_data (by omega), if_pos first]⟩
    · by_cases image : frame < 0x800
      · refine ⟨frame - 0x400 + 0xc0000, by omega, ?_⟩
        rw [Paging.walk_image (by omega) (by omega), Option.some.injEq]
        omega
      · by_cases stack : frame < 0xc00
        · refine ⟨frame - 0x800 + 0xffc00, by omega, ?_⟩
          rw [Paging.walk_stack (by omega) (by omega), Option.some.injEq]
          omega
        · refine ⟨frame - 0x800, by omega, ?_⟩
          rw [Paging.walk_data (by omega), if_neg (by omega), Option.some.injEq]
          omega

/-- No kernel frame is available, and no page that was handed out is backed by
one. -/
structure KernelSafe (kernel : Set Nat) (session : Session) : Prop where
  reserved : ∀ frame ∈ session.memory.freeFrames, frame ∉ kernel
  live : ∀ item ∈ session.live, ∀ page, item.Contains page → session.memory.frameOf page ∉ kernel

/-- No page that the call unmaps has an entry that names a kernel frame. -/
def SparesKernel (kernel : Set Nat) (session : Session) (event : Event) : Prop :=
  ∀ page ∈ session.memory.unmaps event, session.memory.frameOf page ∉ kernel

/-- The firmware marks none of the frames that back the end of `kernel_data`. -/
def MissesKernelTail (rgns : List MemBiosRgn) : Prop :=
  ∀ frame, 0x1e23 ≤ frame → frame < 0x2623 → ∀ rgn ∈ rgns, ¬ rgn.Rounds (frame * 0x1000)

section Step

variable {kernel : Set Nat} {session next : Session} {event : Event} {before after : Memory}
  {mapped unmapped : Set Nat}

/-- The available frames stay clear of the kernel exactly when no entry of an
unmapped page names a kernel frame. -/
theorem reserved_iff (effect : Memory.Effect before after mapped unmapped)
    (reserved : ∀ frame ∈ before.freeFrames, frame ∉ kernel) :
    (∀ frame ∈ after.freeFrames, frame ∉ kernel) ↔
      ∀ page ∈ unmapped, before.frameOf page ∉ kernel := by
  constructor
  · intro kept page dropped
    exact kept _ (Memory.mem_freeFrames.mpr
      ⟨before.frameOf_lt page, effect.returned page dropped⟩)
  · intro spares frame isFree
    rcases Memory.mem_freeFrames.mp isFree with ⟨inRange, marked⟩
    rcases effect.marked frame marked with early | ⟨page, dropped, rfl⟩
    · exact reserved frame (Memory.mem_freeFrames.mpr ⟨inRange, early⟩)
    · exact spares page dropped

/-- Mapping gives no kernel frame to a page, and unmapping leaves the address
in the entry. -/
theorem frameOf_notMem (effect : Memory.Effect before after mapped unmapped)
    (reserved : ∀ frame ∈ before.freeFrames, frame ∉ kernel) {page : Nat}
    (early : page ∉ mapped → before.frameOf page ∉ kernel) : after.frameOf page ∉ kernel := by
  by_cases member : page ∈ mapped
  · exact reserved _ (effect.supplied page member)
  · rw [effect.frameOf_eq member]
    exact early member

/-- A call keeps the kernel safe exactly when it unmaps no page whose entry
names a kernel frame. -/
theorem KernelSafe.step_iff (safe : KernelSafe kernel session) (bounded : session.memory.Bounded)
    (taken : session.step event = some next) :
    KernelSafe kernel next ↔ SparesKernel kernel session event := by
  cases event with
  | allocVirtual pages =>
      rcases Option.map_eq_some_iff.mp taken with ⟨⟨after, ptr⟩, result, rfl⟩
      have effect := bounded.allocVirtual_effect result
      have decides := reserved_iff effect safe.reserved
      refine ⟨fun kept => decides.mp kept.reserved, fun spares => ⟨decides.mpr spares, ?_⟩⟩
      have kept : ∀ item ∈ session.live, ∀ page, item.Contains page → after.frameOf page ∉ kernel :=
        fun item member page contains =>
          frameOf_notMem effect safe.reserved (fun _ => safe.live item member page contains)
      by_cases null : ptr = 0
      · simpa only [if_pos null] using kept
      · simp only [if_neg null]
        refine List.forall_mem_cons.mpr ⟨fun page contains => ?_, kept⟩
        have member := bounded.mem_maps_of_returned result null contains
        exact frameOf_notMem effect safe.reserved (fun outside => absurd member outside)
  | freeVirtual ptr =>
      rcases Option.map_eq_some_iff.mp taken with ⟨⟨after, freed⟩, result, rfl⟩
      have effect := bounded.freeVirtual_effect result
      have decides := reserved_iff effect safe.reserved
      refine ⟨fun kept => decides.mp kept.reserved, fun spares => ⟨decides.mpr spares, ?_⟩⟩
      intro item member page contains
      have listed : item ∈ session.live := by
        cases freed with
        | true => exact List.mem_of_mem_filter member
        | false => exact member
      exact frameOf_notMem effect safe.reserved (fun _ => safe.live item listed page contains)
  | access page =>
      rw [← Option.some.inj taken]
      refine iff_of_true ⟨?_, ?_⟩ (fun other member => absurd member (Set.notMem_empty other))
      · show ∀ frame ∈ (session.memory.access page).freeFrames, frame ∉ kernel
        unfold Memory.freeFrames
        rw [Memory.access_mPages]
        exact safe.reserved
      · show ∀ item ∈ session.live, ∀ other, item.Contains other →
          (session.memory.access page).frameOf other ∉ kernel
        unfold Memory.frameOf
        rw [Memory.access_entry]
        exact safe.live

end Step

section Boots

variable {memory booted : Memory} {rgns : List MemBiosRgn}

/-- The frames behind the kernel under the installed directory. -/
theorem mem_kernelFrames_sysinit (boots : sysinit memory rgns = some booted) (frame : Nat) :
    frame ∈ kernelFrames booted.mPaging.directory ↔ frame < 0x2623 := by
  rw [sysinit_mPaging boots]
  exact mem_kernelFrames_iff pagingAddr memory.mPaging frame

/-- After boot the kernel is safe exactly when the firmware's table does not
reach the frames that are in use but not reserved. -/
theorem kernelSafe_sysinit_iff (boots : sysinit memory rgns = some booted)
    (short : rgns.length ≤ memMaxBiosRgns) :
    KernelSafe (kernelFrames booted.mPaging.directory) ⟨booted, []⟩ ↔ MissesKernelTail rgns := by
  constructor
  · intro safe frame above below rgn listed rounds
    have isFree := (mem_freeFrames_sysinit boots short frame).mpr ⟨above, rgn, listed, rounds⟩
    exact safe.reserved frame isFree ((mem_kernelFrames_sysinit boots frame).mpr below)
  · intro misses
    refine ⟨fun frame isFree inKernel => ?_, fun _ member => absurd member List.not_mem_nil⟩
    rcases (mem_freeFrames_sysinit boots short frame).mp isFree with ⟨above, rgn, listed, rounds⟩
    exact misses frame above ((mem_kernelFrames_sysinit boots frame).mp inKernel) rgn listed rounds

/-- Along a run from boot no kernel frame is available and no page that was
handed out is backed by one, exactly when the firmware's table misses the end
of `kernel_data` and no call unmaps a page whose entry names a kernel frame. -/
theorem run_spares_kernel_iff (boots : sysinit memory rgns = some booted)
    (short : rgns.length ≤ memMaxBiosRgns) (events : List Event) :
    Run.Always Session.step (KernelSafe (kernelFrames booted.mPaging.directory)) ⟨booted, []⟩ events ↔
      MissesKernelTail rgns ∧
        Run.EachStep Session.step (SparesKernel (kernelFrames booted.mPaging.directory)) ⟨booted, []⟩
          events := by
  have bounded : booted.Bounded :=
    (Booted.of_sysinit boots).arranged.bounded Memory.Ordering.le' (Nat.le_refl _)
  have whole : KernelSafe (kernelFrames booted.mPaging.directory) ⟨booted, []⟩ →
      (Run.Always Session.step (KernelSafe (kernelFrames booted.mPaging.directory)) ⟨booted, []⟩ events ↔
        Run.EachStep Session.step (SparesKernel (kernelFrames booted.mPaging.directory)) ⟨booted, []⟩
          events) := fun safe =>
    Run.always_iff_eachStep
      (fun _ _ _ kept _ good taken => good.step_iff kept taken)
      (fun _ _ _ kept _ _ _ taken => kept.step taken) bounded safe (fun _ _ => True.intro)
  rw [← kernelSafe_sysinit_iff boots short]
  exact ⟨fun always => ⟨always.start, (whole always.start).mp always⟩,
    fun ⟨safe, steps⟩ => (whole safe).mpr steps⟩

end Boots

theorem run_spares_kernel_iff_sixtyFourMiB :
    ∃ booted, sysinit Memory.zero sixtyFourMiB = some booted ∧
      (Run.Always Session.step (KernelSafe (kernelFrames booted.mPaging.directory)) ⟨booted, []⟩
          [.allocVirtual 1] ↔
        MissesKernelTail sixtyFourMiB ∧
          Run.EachStep Session.step (SparesKernel (kernelFrames booted.mPaging.directory))
            ⟨booted, []⟩ [.allocVirtual 1]) :=
  ⟨_, sysinit_eq _ _, run_spares_kernel_iff (sysinit_eq _ _) (by decide) _⟩

/-- With 64 MiB of memory a frame behind `kernel_data` is available after boot. -/
theorem sysinit_leaves_kernel_frame :
    ¬ ∀ (memory booted : Memory) (rgns : List MemBiosRgn) (events : List Event),
      sysinit memory rgns = some booted → rgns.length ≤ memMaxBiosRgns →
        Run.Always Session.step (KernelSafe (kernelFrames booted.mPaging.directory)) ⟨booted, []⟩
          events := by
  intro safe
  have boots := sysinit_eq Memory.zero sixtyFourMiB
  generalize { framesReserved Memory.zero sixtyFourMiB with mRgns := Regions.ofList bootTable } =
    booted at boots
  have atBoot := (safe Memory.zero booted sixtyFourMiB [] boots (by decide)).start
  have isFree := (mem_freeFrames_sixtyFourMiB boots 0x1e23).mpr (by decide)
  exact atBoot.reserved 0x1e23 isFree ((mem_kernelFrames_sysinit boots 0x1e23).mpr (by decide))

end Boot

end WeakOS
