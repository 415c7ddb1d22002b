import Mathlib
import WeakOS.Boot.Window
import WeakOS.Memory.Effects

namespace WeakOS

open Foundation

/-!
# Cached translations

`map_page` invalidates the page it maps, but `unmap_page` invalidates the page
whose number is the frame.  A translation of an unmapped page therefore
survives the call, unless the page happens to be numbered like one of the
frames that the call gives back.

The pages a call unmaps are known before the call, and so is whether their
translations survive it.  That decides coherence for whole runs.
-/

namespace Memory

/-- Every cached translation is the one in the page table. -/
def Coherent (memory : Memory) : Prop :=
  ∀ page frame, memory.tlb page = some frame →
    (memory.entry page).present = true ∧ memory.frameOf page = frame

/-- Only pages of the page tables are cached. -/
def CachesTable (memory : Memory) : Prop :=
  ∀ page, memPageCount ≤ page → memory.tlb page = none

namespace Effect

variable {before after : Memory} {mapped unmapped : Set Nat}

theorem cachesTable (effect : Effect before after mapped unmapped) (caches : before.CachesTable) :
    after.CachesTable := by
  intro page above
  cases cached : after.tlb page with
  | none => rfl
  | some frame =>
      have earlier := (effect.cached page frame cached).1
      rw [caches page above] at earlier
      cases earlier

/-- Coherence is kept exactly when each unmapped page is not cached, or is
invalidated because it is numbered like a frame that is given back. -/
theorem coherent_iff (effect : Effect before after mapped unmapped) (caches : before.CachesTable)
    (coherent : before.Coherent) :
    after.Coherent ↔
      ∀ page ∈ unmapped, before.tlb page = none ∨ page ∈ before.frameOf '' unmapped := by
  constructor
  · intro kept page dropped
    by_contra survives
    rw [not_or] at survives
    rcases Option.ne_none_iff_exists'.mp survives.1 with ⟨frame, cached⟩
    have same := effect.retained page (effect.behind page dropped) survives.2
    have present := (kept page frame (same.trans cached)).1
    rw [effect.absent dropped] at present
    cases present
  · intro invalidated page frame cached
    rcases effect.cached page frame cached with ⟨earlier, outside, notDropped⟩
    have inTable : page < memPageCount := by
      by_contra above
      rw [caches page (Nat.not_lt.mp above)] at earlier
      cases earlier
    have notMapped : page ∉ mapped := fun member => Nat.not_le.mpr inTable (outside member)
    have notUnmapped : page ∉ unmapped := by
      intro member
      rcases invalidated page member with uncached | dropped
      · rw [uncached] at earlier
        cases earlier
      · exact notDropped dropped
    have old := coherent page frame earlier
    unfold frameOf at old ⊢
    rw [effect.others page notMapped notUnmapped]
    exact old

end Effect

/-- An access adds at most the translation that is in the page table. -/
theorem tlb_of_access {memory : Memory} {page other frame : Nat}
    (cached : (memory.access page).tlb other = some frame) :
    memory.tlb other = some frame ∨ (other < memPageCount ∧ (memory.entry other).present = true ∧
      memory.frameOf other = frame) := by
  unfold access at cached
  by_cases walks : page < memPageCount ∧ (memory.entry page).present = true
  · rw [if_pos walks] at cached
    by_cases same : other = page
    · subst same
      have new := Option.some.inj ((Function.update_self other _ memory.tlb).symm.trans cached)
      exact Or.inr ⟨walks.1, walks.2, new⟩
    · exact Or.inl ((Function.update_of_ne same _ memory.tlb).symm.trans cached)
  · rw [if_neg walks] at cached
    exact Or.inl cached

theorem Coherent.access {memory : Memory} (coherent : memory.Coherent) (page : Nat) :
    (memory.access page).Coherent := by
  intro other frame cached
  unfold frameOf
  rw [access_entry]
  rcases tlb_of_access cached with earlier | ⟨_, present, same⟩
  · exact coherent other frame earlier
  · exact ⟨present, same⟩

theorem CachesTable.access {memory : Memory} (caches : memory.CachesTable) (page : Nat) :
    (memory.access page).CachesTable := by
  intro other above
  cases cached : (memory.access page).tlb other with
  | none => rfl
  | some frame =>
      rcases tlb_of_access cached with earlier | ⟨below, _⟩
      · rw [caches other above] at earlier
        cases earlier
      · exact absurd below (Nat.not_lt.mpr above)

end Memory

namespace Session

/-- No translation of a page that the call unmaps survives the call. -/
def Invalidates (session : Session) (event : Event) : Prop :=
  ∀ page ∈ session.memory.unmaps event,
    session.memory.tlb page = none ∨ page ∈ session.memory.frameOf '' session.memory.unmaps event

/-- The regions lie within the tables and nothing else is cached. -/
structure Cached (session : Session) : Prop where
  bounded : session.memory.Bounded
  caches : session.memory.CachesTable

section Step

variable {session next : Session} {event : Event}

theorem Cached.step (cached : session.Cached) (taken : session.step event = some next) :
    next.Cached := by
  refine ⟨cached.bounded.step taken, ?_⟩
  cases event with
  | allocVirtual pages =>
      rcases Option.map_eq_some_iff.mp taken with ⟨⟨after, ptr⟩, result, rfl⟩
      exact (cached.bounded.allocVirtual_effect result).cachesTable cached.caches
  | freeVirtual ptr =>
      rcases Option.map_eq_some_iff.mp taken with ⟨⟨after, freed⟩, result, rfl⟩
      exact (cached.bounded.freeVirtual_effect result).cachesTable cached.caches
  | access page =>
      rw [← Option.some.inj taken]
      exact cached.caches.access page

theorem Cached.step_coherent_iff (cached : session.Cached) (coherent : session.memory.Coherent)
    (taken : session.step event = some next) : next.memory.Coherent ↔ session.Invalidates event := by
  cases event with
  | allocVirtual pages =>
      rcases Option.map_eq_some_iff.mp taken with ⟨⟨after, ptr⟩, result, rfl⟩
      exact (cached.bounded.allocVirtual_effect result).coherent_iff cached.caches coherent
  | freeVirtual ptr =>
      rcases Option.map_eq_some_iff.mp taken with ⟨⟨after, freed⟩, result, rfl⟩
      exact (cached.bounded.freeVirtual_effect result).coherent_iff cached.caches coherent
  | access page =>
      rw [← Option.some.inj taken]
      exact iff_of_true (coherent.access page) (fun other member => absurd member (Set.notMem_empty other))

end Step

/-- A run from an empty TLB stays coherent exactly when none of its calls
leaves a translation of a page it unmaps. -/
theorem run_coherent_iff {memory : Memory} (bounded : memory.Bounded)
    (empty : ∀ page, memory.tlb page = none) (events : List Event) :
    Run.Always Session.step (fun session => session.memory.Coherent) ⟨memory, []⟩ events ↔
      Run.EachStep Session.step Invalidates ⟨memory, []⟩ events := by
  have start : Cached ⟨memory, []⟩ := ⟨bounded, fun page _ => empty page⟩
  have coherent : memory.Coherent := by
    intro page frame cached
    rw [empty page] at cached
    cases cached
  refine Run.always_iff_eachStep ?_ ?_ start coherent
    (fun _ _ => True.intro)
  · exact fun state event next kept _ good taken => kept.step_coherent_iff good taken
  · exact fun state event next kept _ _ _ taken => kept.step taken

/-- Two pages that are numbered like their frames: freeing them drops what is cached. -/
theorem run_coherent_iff_preinit : ∃ session,
    run ⟨Memory.zero.preinit [⟨0, 0x4000, .usable⟩], []⟩ [.allocVirtual 2, .access 1] = some session ∧
      session.memory.tlb 1 = some 1 ∧
      Run.Always Session.step (fun session => session.memory.Coherent)
        ⟨Memory.zero.preinit [⟨0, 0x4000, .usable⟩], []⟩
        [.allocVirtual 2, .access 1, .freeVirtual 0] := by
  have evaluated : (run ⟨Memory.zero.preinit [⟨0, 0x4000, .usable⟩], []⟩
      [.allocVirtual 2, .access 1]).map (fun session => (session.memory.tlb 1,
        session.memory.findRgn (Memory.startsAt 0), session.memory.mRgns 0, session.memory.frameOf 0,
        session.memory.frameOf 1)) =
      some (some 1, some (some 0), ⟨none, .used, 0, 2, some 1⟩, 0, 1) := by decide +kernel
  rcases Option.map_eq_some_iff.mp evaluated with ⟨session, reached, facts⟩
  simp only [Prod.mk.injEq] at facts
  rcases facts with ⟨cached, found, region, zero, one⟩
  refine ⟨session, reached, cached, (run_coherent_iff
    ((Memory.preinit_arranged _ _).bounded Memory.Ordering.eq (Nat.le_succ _))
    (fun page => congrFun (Memory.preinit_tlb Memory.zero _) page) _).mpr ?_⟩
  intro first taken
  refine ⟨fun page _ => Or.inl (congrFun (Memory.preinit_tlb Memory.zero _) page), fun second taken' =>
    ⟨fun page none => absurd none (Set.notMem_empty page), fun _ _ => ⟨fun page member => Or.inr ?_, trivial⟩⟩⟩
  have same : second = session := Option.some.inj ((Run.run_cons_eq_some.mpr
    ⟨first, taken, Run.run_cons_eq_some.mpr ⟨second, taken', rfl⟩⟩).symm.trans reached)
  subst same
  refine ⟨page, member, ?_⟩
  rw [Memory.unmaps_freeVirtual_of_found (by decide) found, region, Set.mem_Ico] at member
  rcases (show page = 0 ∨ page = 1 by have := member.2; dsimp only at this; omega) with rfl | rfl
  · exact zero
  · exact one

end Session

namespace Boot

open Regions (slot)

/-- The first page handed out after boot gets one of the available frames. -/
theorem Booted.first_page {memory after : Memory} {ptr : Nat} (booted : Booted memory)
    (some_ : memory.freeFrames.Nonempty) (result : memory.allocVirtual 1 = some (after, ptr)) :
    (after.entry 0x40000).present = true ∧ after.frameOf 0x40000 ∈ memory.freeFrames ∧
      (after.mRgns (slot 2)).type = .used ∧ (after.mRgns (slot 2)).base = 0x40000 ∧
      (after.mRgns (slot 2)).length = 1 := by
  have bounded := booted.arranged.bounded Memory.Ordering.le' (Nat.le_refl _)
  have stops : memory.findRgn (Memory.fits 1) = some (some (slot 2)) :=
    booted.findRgn_fits (by decide)
  have base : (memory.mRgns (slot 2)).base = 0x40000 := by
    rw [booted.rgns]
    rfl
  have effect := bounded.allocVirtual_effect result
  have positive : 0 < memory.freeFrames.card := Finset.card_pos.mpr some_
  have mapped : 0x40000 ∈ memory.maps (.allocVirtual 1) := by
    rw [Memory.maps_allocVirtual_of_found stops, base, Set.mem_Ico]
    omega
  rcases Memory.Selection.of_found bounded stops result with ⟨_, selection⟩
  have record := selection.record
  exact ⟨effect.present _ mapped, effect.supplied _ mapped, record.1, record.2.1.trans base,
    record.2.2⟩

/-- Freeing a one-page region leaves the translation of its page in place,
unless the page is numbered like its frame. -/
theorem not_invalidates {session : Session} (tracked : session.Tracked (· ≤ ·) 0x100001) {ptr : Nat}
    (found : Slot) (used : (session.memory.mRgns found).type = .used)
    (base : ptr = (session.memory.mRgns found).base * 0x1000)
    (length : (session.memory.mRgns found).length = 1)
    (cached : session.memory.tlb (ptr / 0x1000) ≠ none)
    (different : session.memory.frameOf (ptr / 0x1000) ≠ ptr / 0x1000) :
    ¬ session.Invalidates (.freeVirtual ptr) := by
  rcases tracked.table with ⟨slots, arranged⟩
  have location : ptr / 0x1000 = (session.memory.mRgns found).base := by omega
  have stops := arranged.findRgn_startsAt Memory.Ordering.le' used
  rw [← location] at stops
  have pages : session.memory.unmaps (.freeVirtual ptr) = {ptr / 0x1000} := by
    rw [Memory.unmaps_freeVirtual_of_found (by omega) stops, length, ← location,
      Set.Ico_add_one_right_eq_Icc, Set.Icc_self]
  intro invalidates
  unfold Session.Invalidates at invalidates
  rw [pages] at invalidates
  rcases invalidates _ (Set.mem_singleton _) with uncached | ⟨other, member, same⟩
  · exact cached uncached
  · rw [Set.mem_singleton_iff.mp member] at same
    exact different same

/-- After using and freeing one page its translation is still cached. -/
theorem run_keeps_stale_translation :
    ¬ ∀ (memory booted : Memory) (rgns : List MemBiosRgn) (events : List Event),
      sysinit memory rgns = some booted → (∀ page, memory.tlb page = none) →
        Run.Always Session.step (fun session => session.memory.Coherent) ⟨booted, []⟩ events := by
  intro coheres
  have boots := sysinit_eq Memory.zero sixtyFourMiB
  generalize { framesReserved Memory.zero sixtyFourMiB with mRgns := Regions.ofList bootTable } =
    booted at boots
  have table := Booted.of_sysinit boots
  have frames := mem_freeFrames_sixtyFourMiB boots
  have always := coheres Memory.zero booted sixtyFourMiB
    [.allocVirtual 1, .access 0x40000, .freeVirtual 0x40000000] boots (fun _ => rfl)
  have tracked := Session.Tracked.start table.arranged
  have one : (Event.allocVirtual 1).Positive := by decide
  have access : (Event.access 0x40000).Positive := trivial
  have free : (Event.freeVirtual 0x40000000).Positive := trivial
  have within : 0x100001 ≤ memPageCount + 1 := Nat.le_refl _
  have start : Session.Cached ⟨booted, []⟩ :=
    ⟨tracked.bounded Memory.Ordering.le' within, fun page _ => congrFun (sysinit_tlb boots) page⟩
  -- The page is allocated: its entry is present and names a frame below 64 MiB.
  rcases tracked.progress one with ⟨first, taken⟩
  have trackedFirst := tracked.step Memory.Ordering.le' within one taken
  have cachedFirst := start.step taken
  have alwaysFirst := always.2 first taken
  rcases Option.map_eq_some_iff.mp taken with ⟨⟨after, ptr⟩, result, rfl⟩
  rcases table.first_page ⟨0x3000, (frames 0x3000).mpr (by decide)⟩ result with
    ⟨present, supplied, used, base, length⟩
  have small := (frames _).mp supplied
  -- The page is used: its translation is cached.
  have alwaysSecond := alwaysFirst.2 _ rfl
  have trackedSecond := trackedFirst.step Memory.Ordering.le' within access rfl
  have cachedSecond := cachedFirst.step (show Session.step _ (.access 0x40000) = _ from rfl)
  have same := Memory.access_sameRegions after 0x40000
  have translation : (after.access 0x40000).tlb 0x40000 = some (after.frameOf 0x40000) := by
    unfold Memory.access
    rw [if_pos ⟨by decide, present⟩]
    exact Function.update_self 0x40000 _ after.tlb
  -- The page is freed: its number is not the frame's.
  rcases trackedSecond.progress free with ⟨last, takenLast⟩
  have coherent := (alwaysSecond.2 last takenLast).start
  have invalidates := (cachedSecond.step_coherent_iff alwaysSecond.1 takenLast).mp coherent
  have frame : (after.access 0x40000).frameOf 0x40000 = after.frameOf 0x40000 := by
    unfold Memory.frameOf
    rw [Memory.access_entry]
  refine not_invalidates trackedSecond (slot 2) ?_ ?_ ?_ ?_ ?_ invalidates
  · exact same.rgns ▸ used
  · show 0x40000000 = ((after.access 0x40000).mRgns (slot 2)).base * 0x1000
    rw [same.rgns, base]
  · show ((after.access 0x40000).mRgns (slot 2)).length = 1
    rw [same.rgns, length]
  · exact fun none => Option.some_ne_none _ (translation.symm.trans none)
  · show (after.access 0x40000).frameOf 0x40000 ≠ 0x40000
    rw [frame]
    omega

end Boot

end WeakOS
