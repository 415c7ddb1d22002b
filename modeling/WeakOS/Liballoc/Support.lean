import Mathlib
import WeakOS.Liballoc.Runs
import WeakOS.Boot.Programs
import WeakOS.Memory.Contract
import WeakOS.Memory.Conservation

namespace WeakOS

open Foundation X86

namespace Liballoc

/-!
# The heap of the kernel

In the kernel the pages of the heap come from `alloc_virtual`, and
`free_virtual` takes them back.  A page keeps what it holds as long as its entry
stays; what a page with another entry holds depends on the frame, so it may be
anything.

After boot the memory manager keeps to what the heap relies on, as long as there
is a frame for each page that is asked for.  The page behind the tables is never
handed out, because it is alone and the heap asks for more.
-/

/-- What the memory holds after a call of the memory manager. -/
def remapped (found : Memory → Mem) (before after : Memory) (mem : Mem) : Mem := fun addr =>
  if after.entry (addr.toNat / 0x1000) = before.entry (addr.toNat / 0x1000) then mem addr
  else found after addr

/-- `liballoc_alloc`. -/
def liballocAlloc (found : Memory → Mem) (pages : BitVec 32) (state : Mem × Memory) :
    BitVec 32 × Mem × Memory :=
  match state.2.allocVirtual pages.toNat with
  | none => (0, state)
  | some (memory, av) => (BitVec.ofNat 32 av, remapped found state.2 memory state.1, memory)

/-- `liballoc_free`; the number of pages is not used. -/
def liballocFree (found : Memory → Mem) (ptr _pages : BitVec 32) (state : Mem × Memory) : Mem × Memory :=
  match state.2.freeVirtual ptr.toNat with
  | none => state
  | some (memory, _) => (remapped found state.2 memory state.1, memory)

/-- The functions that the kernel gives to the heap. -/
def support (found : Memory → Mem) : Hooks Memory := ⟨liballocAlloc found, liballocFree found⟩

/-- There is a frame for each page that a region is selected for. -/
def Affords (memory : Memory) (pages : BitVec 32) : Prop :=
  Session.Supplied ⟨memory, []⟩ (.allocVirtual pages.toNat)

/-- The pages as a range of the memory manager. -/
def Pages.allocation (pages : Pages) : Allocation := ⟨pages.addr.toNat, pages.count.toNat⟩

/-- The memory manager has handed out these pages and nothing else since it was booted. -/
structure Backed (booted memory : Memory) (given : List Pages) : Prop
    extends Boot.Running booted ⟨memory, given.map Pages.allocation⟩ where
  owned : ∀ slot, (memory.mRgns slot).type = .used →
    ∃ pages ∈ given, pages.allocation.BackedBy memory.mRgns slot
  nonempty : ∀ pages ∈ given, pages.count ≠ 0

section Backed

variable {found : Memory → Mem} {booted memory after : Memory} {given : List Pages} {pages : Pages}
  {count : BitVec 32} {ptr : Nat} {mem : Mem}

/-- A used region lies in the window. -/
theorem Backed.used_window (backed : Backed booted memory given) {slot : Slot}
    (used : (memory.mRgns slot).type = .used) : 0x40000 ≤ (memory.mRgns slot).base ∧
      (memory.mRgns slot).base + (memory.mRgns slot).length ≤ 0x80000 := by
  have notLast : slot ≠ Regions.slot 4 := by
    rintro rfl
    rw [show (memory.mRgns (Regions.slot 4)).type = .free from backed.confined.isFree] at used
    cases used
  exact backed.confined.window slot notLast (ne_none_of_used used) (fun disabled =>
    MemVirtRgnType.noConfusion (used.symm.trans disabled))

/-- A free region with more than one page lies in the window. -/
theorem Backed.free_window (backed : Backed booted memory given) {slot : Slot}
    (isFree : (memory.mRgns slot).type = .free) (long : 1 < (memory.mRgns slot).length) :
    0x40000 ≤ (memory.mRgns slot).base ∧
      (memory.mRgns slot).base + (memory.mRgns slot).length ≤ 0x80000 := by
  refine backed.confined.window_of_free (fun last => ?_) isFree
  subst last
  rw [show (memory.mRgns (Regions.slot 4)).length = 1 from backed.confined.length] at long
  exact Nat.lt_irrefl _ long

theorem Backed.arranged (backed : Backed booted memory given) :
    ∃ slots, memory.Arranged (· ≤ ·) 0x100001 slots := backed.table

/-- The pages that were handed out lie in the window. -/
theorem Backed.window (backed : Backed booted memory given) (member : pages ∈ given) :
    pages.addr.toNat % 0x1000 = 0 ∧ 0x40000000 ≤ pages.addr.toNat ∧ pages.limit ≤ 0x80000000 := by
  rcases backed.backed _ (List.mem_map_of_mem member) with ⟨slot, used, address, length⟩
  have bounds := backed.used_window used
  dsimp only [Pages.allocation] at address length
  unfold Pages.limit
  omega

theorem Backed.perm (backed : Backed booted memory given) {given' : List Pages}
    (perm : given.Perm given') : Backed booted memory given' := by
  have listed := perm.map Pages.allocation
  refine ⟨⟨⟨⟨⟨backed.table, fun item member => backed.backed item (listed.mem_iff.mpr member), ?_⟩,
    backed.conserves⟩, backed.installed⟩, backed.confined, backed.maps⟩, fun slot used => ?_,
    fun pages member => backed.nonempty pages (perm.mem_iff.mpr member)⟩
  · exact (listed.pairwise_iff fun {first second} apart page inSecond inFirst =>
      apart page inFirst inSecond).mp backed.apart
  · rcases backed.owned slot used with ⟨pages, member, here⟩
    exact ⟨pages, perm.mem_iff.mp member, here⟩

/-- An address is on a page of the range. -/
theorem Pages.contains_iff (aligned : pages.addr.toNat % 0x1000 = 0) (addr : BitVec 32) :
    pages.Contains addr ↔ pages.allocation.Contains (addr.toNat / 0x1000) := by
  unfold Allocation.Contains Pages.Contains Pages.limit Pages.allocation
  dsimp only
  omega

/-- Ranges without a common page lie one behind the other. -/
theorem Pages.apart_of_allocation {other : Pages} (aligned : pages.addr.toNat % 0x1000 = 0)
    (aligned' : other.addr.toNat % 0x1000 = 0) (some : pages.count ≠ 0) (some' : other.count ≠ 0)
    (apart : pages.allocation.Apart other.allocation) : pages.Apart other := by
  have positive : 0 < pages.count.toNat := by bv_omega
  have positive' : 0 < other.count.toNat := by bv_omega
  have first := apart (pages.addr.toNat / 0x1000)
  have second := apart (other.addr.toNat / 0x1000)
  unfold Allocation.Contains Pages.allocation at first second
  unfold Pages.Apart Pages.limit
  dsimp only at first second
  omega

/-- Memory on other pages than those whose entries change stays. -/
theorem remapped_eq (others : ∀ page, ¬ pages.allocation.Contains page → after.entry page = memory.entry page)
    (aligned : pages.addr.toNat % 0x1000 = 0) {addr : BitVec 32} (outside : ¬ pages.Contains addr) :
    remapped found memory after mem addr = mem addr :=
  if_pos (others _ (fun inside => outside ((Pages.contains_iff aligned addr).mpr inside)))

/-! ## The two calls -/

/-- Pages that are handed out, and nothing else has changed in the tables. -/
structure Hands (booted memory after : Memory) (given : List Pages) (pages : Pages) : Prop where
  backed : Backed booted after (pages :: given)
  others : ∀ page, ¬ pages.allocation.Contains page → after.entry page = memory.entry page
  frames : memory.freeFrames.card ≤ after.freeFrames.card + pages.count.toNat

/-- Mapping takes no more frames than there are pages. -/
theorem frames_left {base pages : Nat} (mapped : Memory.Mapped memory after base pages) :
    memory.freeFrames.card ≤ after.freeFrames.card + pages := by
  have covered : memory.freeFrames ⊆ after.freeFrames ∪
      (Finset.Ico base (base + pages)).image after.frameOf := by
    intro frame member
    by_cases taken : frame ∈ (Finset.Ico base (base + pages)).image after.frameOf
    · exact Finset.mem_union_right _ taken
    · refine Finset.mem_union_left _ (Memory.mem_freeFrames.mpr ⟨(Memory.mem_freeFrames.mp member).1, ?_⟩)
      have left : frame ∈ after.marked := by
        rw [mapped.bits]
        refine ⟨Memory.mem_marked member, fun ⟨page, inside, same⟩ => taken ?_⟩
        exact Finset.mem_image.mpr ⟨page, Finset.mem_Ico.mpr inside, same⟩
      exact left
  have taken := @Finset.card_image_le _ _ (Finset.Ico base (base + pages)) after.frameOf _
  have total := (Finset.card_le_card covered).trans (Finset.card_union_le _ _)
  rw [Nat.card_Ico] at taken
  omega

/-- `alloc_virtual` hands out pages of the window, or nothing changes. -/
theorem Backed.allocVirtual (backed : Backed booted memory given) (many : 16 ≤ count.toNat)
    (affords : Affords memory count) (result : memory.allocVirtual count.toNat = some (after, ptr)) :
    (ptr = 0 ∧ after = memory ∧ memory.findRgn (Memory.fits count.toNat) = some none) ∨
      (ptr ≠ 0 ∧ ptr < 2 ^ 32 ∧ Hands booted memory after given ⟨BitVec.ofNat 32 ptr, count⟩) := by
  have bounded : memory.Bounded := backed.bounded
  rcases backed.arranged with ⟨slots, arranged⟩
  have pageCount := memPageCount_eq
  by_cases null : ptr = 0
  · rcases Memory.allocVirtual_cases bounded result with
      ⟨missing, same, _⟩ | ⟨slot, claimed, selection⟩
    · exact Or.inl ⟨null, same, missing⟩
    · have enough := selection.enough
      have bounds := backed.free_window selection.isFree (by omega)
      have address := selection.ptr_of_supplied (affords slot selection.found)
      rw [u32, Word.wrap_of_lt (by omega)] at address
      omega
  · have positive : 1 ≤ count.toNat := by omega
    have admissible : (Event.allocVirtual count.toNat).Positive := positive
    rcases bounded.allocVirtual_returned positive result null with
      ⟨slot, found, isFree, enough, supplied, address, fresh⟩
    have bounds := backed.free_window isFree (by omega)
    have small : ptr < 2 ^ 32 := by omega
    have range : Pages.allocation ⟨BitVec.ofNat 32 ptr, count⟩ = ⟨ptr, count.toNat⟩ :=
      congrArg (Allocation.mk · count.toNat) (Nat.mod_eq_of_lt small)
    have taken : Session.step ⟨memory, given.map Pages.allocation⟩ (.allocVirtual count.toNat) =
        some ⟨after, (⟨BitVec.ofNat 32 ptr, count⟩ :: given).map Pages.allocation⟩ := by
      rw [Session.step, result, List.map_cons, range]
      exact congrArg some (congrArg (Session.mk after) (if_neg null))
    have asks : Boot.AsksWindow ⟨memory, given.map Pages.allocation⟩ (.allocVirtual count.toNat) :=
      fun one => absurd one (by omega)
    rcases arranged.allocVirtual_allocated Memory.Ordering.le' (Nat.le_refl _) positive result null with
      ⟨region, allocated⟩
    refine Or.inr ⟨null, small, ⟨⟨backed.toRunning.step admissible affords asks taken,
      fun other used => ?_, fun pages member => ?_⟩, fun page outside => ?_, frames_left allocated.mapped⟩⟩
    · rcases Memory.Selection.of_found bounded found result with ⟨claimed, selection⟩
      by_cases here : other = slot
      · exact ⟨_, List.mem_cons_self, by rw [here, range]; exact fresh⟩
      · have kept : after.mRgns other = memory.mRgns other := by
          rw [selection.table.rgns] at used ⊢
          exact (selection.claim.used_cases used).resolve_left here
        rw [kept] at used
        rcases backed.owned other used with ⟨pages, member, holds⟩
        exact ⟨pages, List.mem_cons_of_mem _ member, by rw [Allocation.BackedBy, kept]; exact holds⟩
    · rcases List.mem_cons.mp member with rfl | member
      · dsimp only
        intro zero
        rw [zero] at many
        exact absurd many (by decide)
      · exact backed.nonempty pages member
    · refine allocated.mapped.others page (fun inside => outside ?_)
      rw [range, Allocation.Contains, allocated.address]
      have above := inside.1
      have below := inside.2
      dsimp only
      omega

/-- What was handed out stays when the first of it is given back. -/
theorem Backed.live_left (backed : Backed booted memory (pages :: given))
    (lengthAt : memory.lengthAt pages.addr.toNat = some pages.count.toNat) :
    ((pages :: given).map Pages.allocation).filter (fun item =>
      item.ptr ≠ pages.addr.toNat ∨ some item.pages ≠ memory.lengthAt pages.addr.toNat) =
      given.map Pages.allocation := by
  rw [List.map_cons, List.filter_cons_of_neg]
  · refine List.filter_eq_self.mpr (fun item member => decide_eq_true (Or.inl (fun same => ?_)))
    rcases List.mem_map.mp member with ⟨other, there, rfl⟩
    have apart := (List.pairwise_cons.mp backed.apart).1 _ member (pages.addr.toNat / 0x1000)
    have positive := backed.nonempty pages List.mem_cons_self
    have positive' := backed.nonempty other (List.mem_cons_of_mem _ there)
    unfold Allocation.Contains Pages.allocation at apart
    dsimp only [Pages.allocation] at apart same
    rw [same] at apart
    bv_omega
  · intro kept
    rcases of_decide_eq_true kept with elsewhere | longer
    · exact elsewhere rfl
    · exact longer lengthAt.symm

/-- `free_virtual` takes back what was handed out. -/
theorem Backed.freeVirtual (backed : Backed booted memory (pages :: given)) :
    ∃ after, memory.freeVirtual pages.addr.toNat = some (after, true) ∧ Backed booted after given ∧
      ∀ page, ¬ pages.allocation.Contains page → after.entry page = memory.entry page := by
  have bounded : memory.Bounded := backed.bounded
  rcases backed.arranged with ⟨slots, arranged⟩
  rcases backed.backed _ List.mem_cons_self with ⟨slot, used, address, length⟩
  have start := arranged.findRgn_startsAt Memory.Ordering.le' used
  have page : pages.addr.toNat / 0x1000 = (memory.mRgns slot).base := by
    dsimp only [Pages.allocation] at address
    omega
  rw [← page] at start
  have aligned := (backed.window List.mem_cons_self).1
  rcases arranged.freeVirtual_returns pages.addr.toNat with ⟨after, freed, result⟩
  rcases Memory.freeVirtual_cases result with ⟨_, _, missing⟩ | ⟨rfl, other, stops, otherUsed, base, shape⟩
  · rw [missing aligned] at start
    cases start
  · have lengthAt : memory.lengthAt pages.addr.toNat = some pages.count.toNat := by
      rw [Memory.lengthAt, start]
      exact congrArg some length.symm
    have taken : Session.step ⟨memory, (pages :: given).map Pages.allocation⟩
        (.freeVirtual pages.addr.toNat) = some ⟨after, given.map Pages.allocation⟩ := by
      rw [Session.step, result]
      exact congrArg some (congrArg (Session.mk after) ((if_pos rfl).trans (backed.live_left lengthAt)))
    have admissible : (Event.freeVirtual pages.addr.toNat).Positive := trivial
    have asks : Boot.AsksWindow ⟨memory, (pages :: given).map Pages.allocation⟩
        (.freeVirtual pages.addr.toNat) := trivial
    refine ⟨after, result, ⟨backed.toRunning.step admissible trivial asks taken,
      fun far inUse => ?_, fun far member => backed.nonempty far (List.mem_cons_of_mem _ member)⟩,
      fun far outside => ?_⟩
    · have table := (Memory.unmapRgn_table bounded otherUsed).rgns
      have different : far ≠ other := by
        rintro rfl
        simp only [shape, Memory.releaseRgn_self] at inUse
        cases inUse
      have same : after.mRgns far = memory.mRgns far := by
        rw [shape, Memory.releaseRgn_of_ne different, table]
      rw [same] at inUse
      rcases backed.owned far inUse with ⟨owner, member, holds⟩
      rcases List.mem_cons.mp member with rfl | member
      · have bases : (memory.mRgns far).base = owner.addr.toNat / 0x1000 := by
          have here := holds.2.1
          dsimp only [Pages.allocation] at here
          omega
        have again := arranged.findRgn_startsAt Memory.Ordering.le' inUse
        rw [bases, stops] at again
        exact absurd (Option.some.inj (Option.some.inj again)).symm different
      · exact ⟨owner, member, by rw [Allocation.BackedBy, same]; exact holds⟩
    · rw [shape]
      refine (bounded.unmappedRange otherUsed).others far (fun inside => outside ?_)
      rw [start] at stops
      have same := Option.some.inj (Option.some.inj stops)
      rw [← same] at inside
      have above := inside.1
      have below := inside.2
      dsimp only [Pages.allocation] at length
      unfold Allocation.Contains Pages.allocation
      dsimp only
      omega

/-- The memory manager keeps to what the heap relies on. -/
theorem support_lawful (found : Memory → Mem) (booted : Memory) :
    (support found).Lawful (Backed booted) Affords := by
  refine ⟨fun backed => backed.perm, ?_, ?_⟩
  · intro mem memory given count ptr mem' after backed many affords answer
    rcases backed.arranged with ⟨slots, arranged⟩
    rcases arranged.allocVirtual_returns (Nat.le_trans (by decide) many) with ⟨after', av, result⟩
    simp only [support, liballocAlloc, result, Prod.mk.injEq] at answer
    rcases answer with ⟨rfl, rfl, rfl⟩
    rcases backed.allocVirtual many affords result with
      ⟨rfl, rfl, _⟩ | ⟨nonnull, small, hands⟩
    · refine ⟨fun _ => ⟨funext (fun addr => if_pos rfl), backed⟩, fun nonnull => absurd rfl nonnull⟩
    · have window := hands.backed.window List.mem_cons_self
      have apart := List.pairwise_cons.mp hands.backed.apart
      refine ⟨fun null => absurd null (fun zero => ?_), fun nonnull =>
        ⟨nonnull, Nat.le_trans window.2.2 (by decide), fun other member => ?_, fun addr =>
          remapped_eq hands.others window.1, hands.backed⟩⟩
      · have low := window.2.1
        rw [show (⟨BitVec.ofNat 32 av, count⟩ : Pages).addr = 0 from zero] at low
        exact absurd low (by decide)
      · exact Pages.apart_of_allocation window.1
          (hands.backed.window (List.mem_cons_of_mem _ member)).1
          (hands.backed.nonempty _ List.mem_cons_self)
          (hands.backed.nonempty _ (List.mem_cons_of_mem _ member))
          (apart.1 _ (List.mem_map_of_mem member))
  · intro mem memory given pages mem' after backed answer
    rcases backed.freeVirtual with ⟨after', result, backed', others⟩
    simp only [support, liballocFree, result, Prod.mk.injEq] at answer
    rcases answer with ⟨rfl, rfl⟩
    exact ⟨backed', fun addr => remapped_eq others (backed.window List.mem_cons_self).1⟩

/-- After boot nothing has been handed out. -/
theorem backed_sysinit {start : Memory} {rgns : List MemBiosRgn}
    (boots : Boot.sysinit start rgns = some booted) (fresh : start.mapCalls = []) :
    Backed booted booted [] := by
  exact ⟨Boot.Running.of_sysinit boots fresh,
    fun slot used => absurd used ((Boot.Booted.of_sysinit boots).noneUsed slot),
    fun _ nothing => absurd nothing List.not_mem_nil⟩

/-- When nothing is handed out, each frame that was available after boot is available again. -/
theorem Backed.nothing (backed : Backed booted memory []) : memory.mPages = booted.mPages := by
  have nothing : memory.usedPages = ∅ := by
    refine Set.eq_empty_of_forall_notMem (fun page ⟨slot, used, _⟩ => ?_)
    rcases backed.owned slot used with ⟨_, member, _⟩
    exact List.not_mem_nil member
  exact Bitmap.ext (fun frame =>
    Bool.eq_iff_iff.mpr (Set.ext_iff.mp (backed.conserves.free_eq_total nothing) frame))

/-! ## The first pieces after boot -/

/-- A machine with 64 MiB has frames left after boot. -/
theorem frames_sixtyFourMiB {start : Memory} (boots : Boot.sysinit start Boot.sixtyFourMiB = some booted) :
    32 ≤ booted.freeFrames.card := by
  have frames : Finset.Ico 0x1e23 0x1e43 ⊆ booted.freeFrames := by
    intro frame member
    have range := Finset.mem_Ico.mp member
    exact (Boot.mem_freeFrames_sixtyFourMiB boots frame).mpr ⟨range.1, by omega⟩
  have counted := Finset.card_le_card frames
  rwa [Nat.card_Ico] at counted

theorem exists_booted : ∃ booted, Boot.sysinit Memory.zero Boot.sixtyFourMiB = some booted ∧
    32 ≤ booted.freeFrames.card := by
  have some : ∃ booted, Boot.sysinit Memory.zero Boot.sixtyFourMiB = some booted := ⟨_, Boot.sysinit_eq _ _⟩
  rcases some with ⟨booted, boots⟩
  exact ⟨booted, boots, frames_sixtyFourMiB boots⟩

/-- The first piece after boot, with frames left for another block. -/
theorem first_piece : ∃ booted block piece heap,
    Boot.sysinit Memory.zero Boot.sixtyFourMiB = some booted ∧
    kmalloc (support fun _ _ => 0) 8 (Heap.start (fun _ => 0) booted) = some (piece.payload, heap) ∧
    Sound (Backed booted) heap [block] ∧ block.pages = 16 ∧ block.pieces = [piece] ∧
    piece.size = 40 ∧ piece.reqSize = 8 ∧ 16 ≤ heap.system.freeFrames.card := by
  rcases exists_booted with ⟨booted, boots, enough⟩
  have held := backed_sysinit boots rfl
  have pages : pagesFor (8 + (alignment + alignInfo)) = 16 := by decide
  have affords : Affords booted 16 := fun _ _ => Nat.le_trans (by decide) enough
  rcases kmalloc_answer (support_lawful (fun _ _ => 0) booted) (@sound_start _ _ (fun _ => 0) _ held)
    (by rw [pages]; exact affords) (fun _ nothing => absurd nothing List.not_mem_nil)
    (show (8 : BitVec 32).toNat + 80 < 2 ^ 32 by decide) with ⟨⟨ptr, heap⟩, called, answer⟩
  have asked : ∀ av mem' after, liballocAlloc (fun _ _ => 0) 16 ((fun _ => 0), booted) = (av, mem', after) →
      av ≠ 0 ∧ 16 ≤ after.freeFrames.card := by
    intro av mem' after answer
    rcases held.arranged with ⟨slots, arranged⟩
    rcases arranged.allocVirtual_returns (show 1 ≤ (16 : BitVec 32).toNat by decide) with
      ⟨after', av', result⟩
    simp only [liballocAlloc, result, Prod.mk.injEq] at answer
    rcases answer with ⟨rfl, _, rfl⟩
    rcases held.allocVirtual (by decide) affords result with ⟨_, _, missing⟩ | ⟨nonnull, small, hands⟩
    · rw [(Boot.Booted.of_sysinit boots).findRgn_fits (by decide)] at missing
      cases missing
    · have frames := hands.frames
      have sixteen : (16 : BitVec 32).toNat = 16 := rfl
      dsimp only at frames
      exact ⟨by bv_omega, by omega⟩
  rcases answer with ⟨null, denied⟩ | ⟨blocks, piece, rfl, size, reqSize, granted⟩
  · rcases denied.refused with ⟨mem', refused⟩
    rw [pages] at refused
    exact absurd rfl (asked _ _ _ refused).1
  · have only : allPieces blocks = [piece] := List.perm_singleton.mp granted.pieces
    rcases granted.pages with ⟨same, _⟩ | ⟨_, av, mem', spans, given⟩
    · rw [List.map_nil, List.map_eq_nil_iff] at same
      rw [same] at only
      cases only
    · rw [pages] at spans given
      rcases List.map_eq_singleton_iff.mp spans with ⟨block, rfl, span⟩
      rw [allPieces, List.flatMap_singleton] at only
      exact ⟨booted, block, piece, heap, boots, called, granted.sound, congrArg Pages.count span, only,
        size, reqSize, (asked _ _ _ given).2⟩

/-- A block without a gap for the size is almost full. -/
theorem Full.crowded {block : Block} {asked : BitVec 32} (full : Full [block] asked) :
    block.bytes < 24 + Layout.span Piece.length block.pieces +
      (block.pieces.length + 1) * (24 + asked.toNat) := by
  have crowded := @Layout.high_lt_of_crowded Piece Piece.base Piece.length (block.addr.toNat + 24)
    block.limit block.pieces (24 + asked.toNat) fun front back split => by
      by_contra wide
      refine full block (List.mem_singleton_self block) front back ⟨split, ?_⟩
      unfold Block.gapFrom Block.gapTo
      omega
  unfold Block.limit at crowded
  omega

/-- In a block with room `kmalloc` finds a gap. -/
theorem kmalloc_roomy {System : Type} {hooks : Hooks System} {holds : System → List Pages → Prop}
    {ready : System → BitVec 32 → Prop} {heap : Heap System} {block : Block} {size : BitVec 32}
    (lawful : hooks.Lawful holds ready) (sound : Sound holds heap [block]) (occupied : Occupied [block])
    (asks : ready heap.system (pagesFor (size + (alignment + alignInfo)))) (small : size.toNat + 80 < 2 ^ 32)
    (room : 24 + Layout.span Piece.length block.pieces +
      (block.pieces.length + 1) * (24 + (size + (alignment + alignInfo)).toNat) ≤ block.bytes) :
    ∃ heap' grown piece, kmalloc hooks size heap = some (piece.payload, heap') ∧ piece.payload ≠ 0 ∧
      piece.size = size + (alignment + alignInfo) ∧ piece.reqSize = size ∧ Sound holds heap' [grown] ∧
      Occupied [grown] ∧ grown.pages = block.pages ∧ grown.pieces.Perm (piece :: block.pieces) ∧
      heap'.system = heap.system := by
  have notFull : ¬ Full [block] (size + (alignment + alignInfo)) :=
    fun full => Nat.not_le.mpr full.crowded room
  rcases kmalloc_answer lawful sound asks occupied small with ⟨⟨ptr, heap'⟩, called, answer⟩
  rcases answer with ⟨_, denied⟩ | ⟨blocks, piece, rfl, sizes, sizes', granted⟩
  · exact absurd denied.full notFull
  · rcases granted.pages with ⟨spans, system⟩ | ⟨full, _⟩
    · rcases List.map_eq_singleton_iff.mp spans with ⟨grown, rfl, span⟩
      have pieces := granted.pieces
      rw [allPieces, allPieces, List.flatMap_singleton, List.flatMap_singleton] at pieces
      have nonnull := (Keeps.pointer ⟨[grown], granted.sound, granted.occupied,
        by rw [allPieces, List.flatMap_singleton]; exact pieces⟩ List.mem_cons_self).2.1
      exact ⟨heap', grown, piece, called, nonnull, sizes, sizes', granted.sound, granted.occupied,
        congrArg Pages.count span, pieces, system⟩
    · exact absurd full notFull

theorem occupied_single {block : Block} {piece : Piece} (only : block.pieces = [piece]) :
    Occupied [block] := by
  intro other member
  rw [List.mem_singleton.mp member, only]
  exact List.cons_ne_nil piece []

/-- Sixteen frames are enough for a small request. -/
theorem affords_small {memory : Memory} {asked : BitVec 32} (enough : 16 ≤ memory.freeFrames.card)
    (small : pagesFor (asked + (alignment + alignInfo)) = 16) :
    Affords memory (pagesFor (asked + (alignment + alignInfo))) := by
  rw [small]
  exact fun _ _ => enough

/-- Sixteen pages with a few pieces of forty bytes have room for another piece. -/
theorem room_forty {block : Block} {asked : BitVec 32} (pages : block.pages = 16)
    (forty : ∀ piece ∈ block.pieces, piece.size = 40) (few : block.pieces.length ≤ 2)
    (small : asked.toNat ≤ 1000) : 24 + Layout.span Piece.length block.pieces +
      (block.pieces.length + 1) * (24 + asked.toNat) ≤ block.bytes := by
  have each : ∀ piece ∈ block.pieces, piece.length = 64 := by
    intro piece member
    rw [Piece.length, forty piece member]
    rfl
  have span : Layout.span Piece.length block.pieces = block.pieces.length * 64 := by
    rw [Layout.span, List.map_congr_left each, List.map_const', List.sum_replicate, smul_eq_mul]
  have bytes : block.bytes = 65536 := by
    rw [Block.bytes, pages]
    rfl
  have wide : (block.pieces.length + 1) * (24 + asked.toNat) ≤ 3 * (24 + 1000) :=
    Nat.mul_le_mul (by omega) (by omega)
  omega

theorem room_single {block : Block} {piece : Piece} {asked : BitVec 32} (pages : block.pages = 16)
    (only : block.pieces = [piece]) (size : piece.size = 40) (small : asked.toNat ≤ 1000) :
    24 + Layout.span Piece.length block.pieces +
      (block.pieces.length + 1) * (24 + asked.toNat) ≤ block.bytes := by
  refine room_forty pages (fun other member => ?_) ?_ small
  · rw [only] at member
    rw [List.mem_singleton.mp member, size]
  · rw [only, List.length_singleton]
    decide

/-- The second piece after boot is put into the block of the first one. -/
theorem second_piece : ∃ booted block piece other heap heap', Sound (Backed booted) heap [block] ∧
    block.pieces = [piece] ∧ kmalloc (support fun _ _ => 0) 8 heap = some (Piece.payload other, heap') ∧
    ∃ grown, Sound (Backed booted) heap' [grown] ∧ Occupied [grown] ∧ grown.pages = 16 ∧
      grown.pieces.Perm [other, piece] ∧ (∀ any ∈ grown.pieces, any.size = 40 ∧ any.reqSize = 8) ∧
      16 ≤ heap.system.freeFrames.card ∧ 16 ≤ heap'.system.freeFrames.card := by
  rcases first_piece with ⟨booted, block, piece, heap, boots, _, sound, pages, only, size, reqSize, enough⟩
  rcases kmalloc_roomy (support_lawful (fun _ _ => 0) booted) sound (occupied_single only)
    (affords_small enough (by decide)) (show (8 : BitVec 32).toNat + 80 < 2 ^ 32 by decide)
    (room_single pages only size (by decide)) with
    ⟨heap', grown, other, called, _, size', reqSize', sound', occupied, pages', pieces, system⟩
  rw [only] at pieces
  refine ⟨booted, block, piece, other, heap, heap', sound, only, called, grown, sound', occupied,
    pages'.trans pages, pieces, fun any member => ?_, enough, system ▸ enough⟩
  rcases List.mem_cons.mp (pieces.mem_iff.mp member) with rfl | member
  · exact ⟨size', reqSize'⟩
  · rw [List.mem_singleton.mp member]
    exact ⟨size, reqSize⟩

theorem kcalloc_of_kmalloc {System : Type} {hooks : Hooks System} {heap heap' : Heap System}
    {nobj size ptr : BitVec 32} (called : kmalloc hooks (nobj * size) heap = some (ptr, heap')) :
    kcalloc hooks nobj size heap =
      some (ptr, { heap' with mem := liballocMemset ptr 0 (nobj * size).toNat 0 heap'.mem }) := by
  rw [kcalloc, called]
  rfl

/-- A second piece, which is cleared, is put behind the first one. -/
theorem second_cleared : ∃ booted first heap second heap',
    Boot.sysinit Memory.zero Boot.sixtyFourMiB = some booted ∧
    kmalloc (support fun _ _ => 0) 8 (Heap.start (fun _ => 0) booted) = some (Piece.payload first, heap) ∧
    kcalloc (support fun _ _ => 0) 3 5 heap = some (Piece.payload second, heap') ∧
    second.reqSize = 15 ∧ Keeps (Backed booted) heap [first] ∧
    Keeps (Backed booted) heap' [second, first] ∧ (∀ addr, second.Owns addr → heap'.mem addr = 0) ∧
    16 ≤ heap.system.freeFrames.card ∧ heap'.system = heap.system := by
  rcases first_piece with ⟨booted, block, first, heap, boots, called, sound, pages, only, size, _, enough⟩
  have occupied := occupied_single only
  have lawful := support_lawful (fun _ _ => 0) booted
  have keeps : Keeps (Backed booted) heap [first] :=
    ⟨[block], sound, occupied, by rw [allPieces, List.flatMap_singleton, only]⟩
  have asks : Affords heap.system (pagesFor (3 * 5 + (alignment + alignInfo))) :=
    affords_small enough (by decide)
  rcases kmalloc_roomy lawful sound occupied asks (by decide) (room_single pages only size (by decide)) with
    ⟨heap1, _, second, given, nonnull, _, _, _, _, _, _, system⟩
  have cleared := kcalloc_of_kmalloc given
  rcases keeps.kcalloc lawful asks (by decide) with ⟨ptr, heap', called', outcome⟩
  rcases Prod.mk.inj (Option.some.inj (cleared.symm.trans called')) with ⟨rfl, same⟩
  rcases outcome nonnull with ⟨piece, pointer, sizes, keeps', zeros, _⟩
  rw [pointer] at called'
  have kept : heap'.system = heap.system := by
    rw [← same]
    exact system
  exact ⟨booted, first, heap, piece, heap', boots, called, called', sizes, keeps, keeps', zeros, enough, kept⟩

/-! ## Runs of the kernel -/

end Backed

end Liballoc

end WeakOS
