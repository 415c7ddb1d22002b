import Mathlib
import WeakOS.Boot.Regions
import WeakOS.Memory.Session

namespace WeakOS

open Foundation

namespace Boot

open Regions (slot ofList)

/-!
# The window that is left to the allocator

After boot the free regions are one region inside the second GiB and the page
behind the tables.  The page behind the tables is the last region of the list,
so it is selected only when one page is asked for and the window has no free
region any more.
-/

/-- `map_page` has only been called for pages of the window. -/
def MapsWindow (memory : Memory) : Prop :=
  ∀ page ∈ memory.mapCalls, 0x40000 ≤ page ∧ page < 0x80000

/-- Some free region lies within the page tables. -/
def WindowOpen (memory : Memory) : Prop :=
  ∃ other, (memory.mRgns other).type = .free ∧ (memory.mRgns other).base < memPageCount

/-- One page is only asked for while the window has a free region. -/
def AsksWindow (session : Session) : Event → Prop
  | .allocVirtual pages => pages = 1 → WindowOpen session.memory
  | .freeVirtual _ => True
  | .access _ => True

/-- Until the page behind the tables is handed out, it is one free region, and
all other regions that are not reserved lie in the window. -/
structure Confined (memory : Memory) : Prop where
  isFree : (memory.mRgns (slot 4)).type = .free
  base : (memory.mRgns (slot 4)).base = 0x100000
  length : (memory.mRgns (slot 4)).length = 1
  window : ∀ other, other ≠ slot 4 → (memory.mRgns other).type ≠ .none →
    (memory.mRgns other).type ≠ .disabled →
    0x40000 ≤ (memory.mRgns other).base ∧
      (memory.mRgns other).base + (memory.mRgns other).length ≤ 0x80000

theorem Booted.confined {memory : Memory} (booted : Booted memory) : Confined memory := by
  refine ⟨?_, ?_, ?_, fun other different inUse notReserved => ?_⟩
  · rw [booted.rgns]; rfl
  · rw [booted.rgns]; rfl
  · rw [booted.rgns]; rfl
  · rw [booted.rgns] at inUse notReserved ⊢
    rcases bootTable_cases inUse with rfl | rfl | rfl | rfl | rfl
    · exact absurd rfl notReserved
    · exact absurd rfl notReserved
    · decide
    · exact absurd rfl notReserved
    · exact absurd rfl different

namespace Confined

variable {memory claimed : Memory} {found : Slot} {pages : Nat}

theorem of_sameRegions {after : Memory} (confined : Confined memory) (same : Memory.SameRegions memory after) :
    Confined after := by
  refine ⟨?_, ?_, ?_, ?_⟩
  · rw [same.rgns]; exact confined.isFree
  · rw [same.rgns]; exact confined.base
  · rw [same.rgns]; exact confined.length
  · rw [same.rgns]; exact confined.window

/-- A free region other than the last one lies in the window. -/
theorem window_of_free (confined : Confined memory) {other : Slot} (different : other ≠ slot 4)
    (isFree : (memory.mRgns other).type = .free) :
    0x40000 ≤ (memory.mRgns other).base ∧
      (memory.mRgns other).base + (memory.mRgns other).length ≤ 0x80000 :=
  confined.window other different (ne_none_of_free isFree) (by rw [isFree]; decide)

/-- Claiming a region in the window. -/
theorem claim (confined : Confined memory) (different : found ≠ slot 4)
    (isFree : (memory.mRgns found).type = .free) (enough : pages ≤ (memory.mRgns found).length)
    (claim : Memory.Claimed memory claimed found pages) : Confined claimed := by
  have same : claimed.mRgns (slot 4) = memory.mRgns (slot 4) :=
    claim.same_of_inUse different.symm (ne_none_of_free confined.isFree)
  have whole := confined.window_of_free different isFree
  refine ⟨same ▸ confined.isFree, same ▸ confined.base, same ▸ confined.length, ?_⟩
  intro other notLast inUse notReserved
  by_cases here : other = found
  · rw [here, claim.base_eq, claim.length_eq]
    omega
  · rcases claim.rest with ⟨_, _, kept⟩ | ⟨fresh, _, shorter, record, _, kept⟩
    · rw [kept other here] at inUse notReserved ⊢
      exact confined.window other notLast inUse notReserved
    · by_cases isFresh : other = fresh
      · rw [isFresh, record]
        show 0x40000 ≤ (memory.mRgns found).base + pages ∧
          (memory.mRgns found).base + pages + ((memory.mRgns found).length - pages) ≤ 0x80000
        omega
      · rw [kept other here isFresh] at inUse notReserved ⊢
        exact confined.window other notLast inUse notReserved

/-- Releasing a region. -/
theorem release (confined : Confined memory) (used : (memory.mRgns found).type = .used) :
    Confined (memory.releaseRgn found) := by
  have different : slot 4 ≠ found := by
    rintro rfl
    rw [confined.isFree] at used
    cases used
  have same : (memory.releaseRgn found).mRgns (slot 4) = memory.mRgns (slot 4) :=
    Memory.releaseRgn_of_ne different
  refine ⟨same ▸ confined.isFree, same ▸ confined.base, same ▸ confined.length, ?_⟩
  intro other notLast inUse notReserved
  by_cases here : other = found
  · rw [here, Memory.releaseRgn_self]
    exact confined.window found different.symm (ne_none_of_used used) (by rw [used]; decide)
  · rw [Memory.releaseRgn_of_ne here] at inUse notReserved ⊢
    exact confined.window other notLast inUse notReserved

end Confined

/-! ## One step -/

/-- A tracked session whose regions are confined. -/
structure Windowed (session : Session) : Prop extends session.Tracked (· ≤ ·) 0x100001 where
  confined : Confined session.memory

section Step

variable {session next : Session} {event : Event} {memory after : Memory} {pages ptr : Nat}

theorem Booted.windowed (booted : Booted memory) : Windowed ⟨memory, []⟩ :=
  ⟨Session.Tracked.start booted.arranged, booted.confined⟩

/-- The page behind the tables is selected when one page is asked for and the
window is not open. -/
theorem Windowed.selects_last_iff (windowed : Windowed session) (positive : 1 ≤ pages) {found : Slot}
    (stops : session.memory.findRgn (Memory.fits pages) = some (some found)) :
    found = slot 4 ↔ pages = 1 ∧ ¬ WindowOpen session.memory := by
  rcases windowed.table with ⟨slots, arranged⟩
  rcases Memory.fits_iff.mp (Memory.accept_of_findRgn stops) with ⟨isFree, enough⟩
  have pageCount := memPageCount_eq
  constructor
  · rintro rfl
    have one : pages = 1 := by
      rw [windowed.confined.length] at enough
      omega
    refine ⟨one, fun ⟨other, otherFree, below⟩ => ?_⟩
    have nonempty := (arranged.bounds Memory.Ordering.le' (ne_none_of_free otherFree)).1
    have lower := arranged.base_le_of_findRgn Memory.Ordering.le' stops
      (ne_none_of_free otherFree) (Memory.fits_iff.mpr ⟨otherFree, by omega⟩)
    rw [windowed.confined.base] at lower
    omega
  · rintro ⟨_, closed⟩
    by_contra different
    have inside := windowed.confined.window_of_free different isFree
    exact closed ⟨found, isFree, by omega⟩

/-- A call that selects a region of the window keeps the regions confined and
maps pages of the window only. -/
theorem Confined.allocVirtual (confined : Confined memory) (bounded : memory.Bounded)
    (maps : MapsWindow memory)
    (inside : ∀ found, memory.findRgn (Memory.fits pages) = some (some found) → found ≠ slot 4)
    (result : memory.allocVirtual pages = some (after, ptr)) : Confined after ∧ MapsWindow after := by
  rcases Memory.allocVirtual_cases bounded result with ⟨_, rfl, _⟩ | ⟨found, claimed, selection⟩
  · exact ⟨confined, maps⟩
  · have enough := selection.enough
    have different := inside found selection.found
    have claim := confined.claim different selection.isFree enough selection.claim
    refine ⟨claim.of_sameRegions selection.table, fun page member => ?_⟩
    have old : claimed.mapCalls = memory.mapCalls := by rw [selection.claim.keeps]
    have window := confined.window_of_free different selection.isFree
    rw [selection.mapped] at member
    rcases Memory.mapRgn_mapCalls selection.range page member with early | ⟨above, below⟩
    · exact maps page (old ▸ early)
    · omega

/-- A call that selects the last region maps the page behind the tables. -/
theorem Confined.allocVirtual_last (confined : Confined memory) (bounded : memory.Bounded)
    (positive : 1 ≤ pages) (stops : memory.findRgn (Memory.fits pages) = some (some (slot 4)))
    (result : memory.allocVirtual pages = some (after, ptr)) : 0x100000 ∈ after.mapCalls := by
  rcases Memory.Selection.of_found bounded stops result with ⟨claimed, selection⟩
  have called : _ ∈ (Memory.mapRgn _ _ 0 claimed).1.mapCalls :=
    Memory.first_mem_mapCalls selection.range positive
  rwa [← selection.mapped, confined.base] at called

theorem Confined.freeVirtual (confined : Confined memory) (bounded : memory.Bounded)
    (maps : MapsWindow memory) {freed : Bool}
    (result : memory.freeVirtual ptr = some (after, freed)) : Confined after ∧ MapsWindow after := by
  rcases Memory.freeVirtual_cases result with ⟨_, rfl, _⟩ | ⟨_, found, _, used, _, rfl⟩
  · exact ⟨confined, maps⟩
  · have bound := bounded found (ne_none_of_used used)
    have pageCount := memPageCount_eq
    have same := Memory.unmapRgn_table bounded used
    have unmapped := confined.of_sameRegions same
    have calls : (Memory.unmapRgn (memory.mRgns found).base (memory.mRgns found).length 0
        memory).mapCalls = memory.mapCalls := Memory.unmapRgn_mapCalls (by omega)
    exact ⟨unmapped.release (by rw [same.rgns]; exact used), fun page member =>
      maps page (calls ▸ member)⟩

end Step

/-! ## Runs -/

section Runs

variable {session next : Session} {event : Event}

/-- A step of a run that has stayed in the window so far stays in it exactly
when the step does not ask for one page more than the window has. -/
theorem Windowed.step_iff (windowed : Windowed session) (positive : event.Positive)
    (maps : MapsWindow session.memory) (taken : session.step event = some next) :
    MapsWindow next.memory ↔ AsksWindow session event := by
  have bounded := windowed.bounded Memory.Ordering.le' (Nat.le_refl 0x100001)
  cases event with
  | allocVirtual pages =>
      rcases Option.map_eq_some_iff.mp taken with ⟨⟨after, ptr⟩, result, rfl⟩
      constructor
      · intro inside one
        by_contra closed
        rcases windowed.table with ⟨slots, arranged⟩
        have fitting : Memory.fits pages (session.memory.mRgns (slot 4)) = true :=
          Memory.fits_iff.mpr ⟨windowed.confined.isFree, by rw [windowed.confined.length, one]⟩
        rcases arranged.exists_findRgn (ne_none_of_free windowed.confined.isFree) fitting with
          ⟨found, stops⟩
        have last : found = slot 4 := (windowed.selects_last_iff positive stops).mpr ⟨one, closed⟩
        subst last
        have called := windowed.confined.allocVirtual_last bounded positive stops result
        have range := inside 0x100000 called
        omega
      · intro asks
        refine (windowed.confined.allocVirtual bounded maps (fun found stops last => ?_) result).2
        have overflow := (windowed.selects_last_iff positive stops).mp last
        exact overflow.2 (asks overflow.1)
  | freeVirtual ptr =>
      rcases Option.map_eq_some_iff.mp taken with ⟨⟨after, freed⟩, result, rfl⟩
      exact iff_of_true (windowed.confined.freeVirtual bounded maps result).2 trivial
  | access page =>
      rw [← Option.some.inj taken]
      refine iff_of_true ?_ trivial
      show MapsWindow (session.memory.access page)
      unfold Memory.access
      split
      · exact maps
      · exact maps

theorem Windowed.step (windowed : Windowed session) (positive : event.Positive)
    (maps : MapsWindow session.memory) (asks : AsksWindow session event)
    (taken : session.step event = some next) : Windowed next := by
  have bounded := windowed.bounded Memory.Ordering.le' (Nat.le_refl 0x100001)
  refine ⟨windowed.toTracked.step Memory.Ordering.le' (Nat.le_refl _) positive taken, ?_⟩
  cases event with
  | allocVirtual pages =>
      rcases Option.map_eq_some_iff.mp taken with ⟨⟨after, ptr⟩, result, rfl⟩
      refine (windowed.confined.allocVirtual bounded maps (fun found stops last => ?_) result).1
      have overflow := (windowed.selects_last_iff positive stops).mp last
      exact overflow.2 (asks overflow.1)
  | freeVirtual ptr =>
      rcases Option.map_eq_some_iff.mp taken with ⟨⟨after, freed⟩, result, rfl⟩
      exact (windowed.confined.freeVirtual bounded maps result).1
  | access page =>
      rw [← Option.some.inj taken]
      exact windowed.confined.of_sameRegions (Memory.access_sameRegions session.memory page)

end Runs

/-- The session in which `sysinit` has finished and the frames of `frames` are
available. -/
def startWith (booted : Memory) (frames : Bitmap) : Session := ⟨{ booted with mPages := frames }, []⟩

theorem startWith_windowed {memory booted : Memory} {rgns : List MemBiosRgn}
    (boots : sysinit memory rgns = some booted) (frames : Bitmap) :
    Windowed (startWith booted frames) := by
  have table := Booted.of_sysinit boots
  exact Booted.windowed ⟨table.rgns, table.first⟩

theorem startWith_mapsWindow {memory booted : Memory} {rgns : List MemBiosRgn}
    (boots : sysinit memory rgns = some booted) (fresh : memory.mapCalls = []) (frames : Bitmap) :
    MapsWindow (startWith booted frames).memory := by
  have none : booted.mapCalls = [] := by
    rw [← fresh]
    exact sysinit_mapCalls boots
  intro page member
  rw [startWith, none] at member
  exact absurd member List.not_mem_nil

/-- After boot a run maps pages of the window only, exactly when it asks for
one page only while the window has a free region. -/
theorem run_maps_window_iff {memory booted : Memory} {rgns : List MemBiosRgn} {frames : Bitmap}
    {events : List Event} (boots : sysinit memory rgns = some booted)
    (fresh : memory.mapCalls = []) (positive : ∀ event ∈ events, event.Positive) :
    Run.Always Session.step (fun session => MapsWindow session.memory) (startWith booted frames) events ↔
      Run.EachStep Session.step AsksWindow (startWith booted frames) events := by
  refine Run.always_iff_eachStep ?_ ?_ (startWith_windowed boots frames)
    (startWith_mapsWindow boots fresh frames) positive
  · exact fun state event next windowed admissible maps taken =>
      windowed.step_iff admissible maps taken
  · exact fun state event next windowed admissible maps asks taken =>
      windowed.step admissible maps asks taken

theorem run_maps_window_iff_twoGiB :
    ∃ booted, sysinit Memory.zero twoGiB = some booted ∧
      (Run.Always Session.step (fun session => MapsWindow session.memory)
          (startWith booted booted.mPages) [.allocVirtual 1] ↔
        Run.EachStep Session.step AsksWindow (startWith booted booted.mPages) [.allocVirtual 1]) :=
  ⟨_, sysinit_eq _ _, run_maps_window_iff (sysinit_eq _ _) rfl (by simp [Event.Positive])⟩

/-- Once the whole window is handed out it is closed. -/
theorem Booted.window_closed {memory after : Memory} {ptr : Nat} (booted : Booted memory)
    (result : memory.allocVirtual 0x3ffff = some (after, ptr)) : ¬ WindowOpen after := by
  have bounded := booted.arranged.bounded Memory.Ordering.le' (Nat.le_refl _)
  have stops := booted.findRgn_fits (Nat.le_refl 0x3ffff)
  have length : (memory.mRgns (slot 2)).length = 0x3ffff := by
    rw [booted.rgns]
    rfl
  rintro ⟨other, isFree, below⟩
  rcases Memory.Selection.of_found bounded stops result with ⟨claimed, selection⟩
  have different : other ≠ slot 2 := by
    rintro rfl
    rw [selection.record.1] at isFree
    cases isFree
  rw [selection.table.rgns] at isFree below
  rcases selection.claim.rest with ⟨_, _, kept⟩ | ⟨_, _, shorter, _⟩
  · rw [kept other different, booted.rgns] at isFree below
    rcases bootTable_cases (ne_none_of_free isFree) with rfl | rfl | rfl | rfl | rfl
    · cases isFree
    · cases isFree
    · exact different rfl
    · cases isFree
    · exact absurd below (by decide)
  · rw [length] at shorter
    exact Nat.lt_irrefl _ shorter

/-- Handing out the whole window and then one page leaves the window. -/
theorem run_leaves_window :
    ¬ ∀ (memory booted : Memory) (rgns : List MemBiosRgn) (frames : Bitmap) (events : List Event),
      sysinit memory rgns = some booted → memory.mapCalls = [] →
        (∀ event ∈ events, event.Positive) →
          Run.Always Session.step (fun session => MapsWindow session.memory)
            (startWith booted frames) events := by
  intro stays
  have boots := sysinit_eq Memory.zero twoGiB
  generalize hidden : { framesReserved Memory.zero twoGiB with mRgns := ofList bootTable } = booted
    at boots
  have whole : (Event.allocVirtual 0x3ffff).Positive := by decide
  have one : (Event.allocVirtual 1).Positive := by decide
  have start := startWith_windowed boots booted.mPages
  have table := Booted.of_sysinit boots
  have inside := startWith_mapsWindow boots rfl booted.mPages
  have always := stays Memory.zero booted twoGiB booted.mPages
    [.allocVirtual 0x3ffff, .allocVirtual 1] boots rfl (by simp [Event.Positive])
  rcases start.progress whole with ⟨first, taken⟩
  have afterFirst := always.2 first taken
  have asksMore : AsksWindow (startWith booted booted.mPages) (.allocVirtual 0x3ffff) :=
    fun equal => absurd equal (by decide)
  have windowed := start.step whole inside asksMore taken
  rcases windowed.progress one with ⟨second, takenNext⟩
  have stillInside := afterFirst.2 second takenNext
  have asks := (windowed.step_iff one afterFirst.1 takenNext).mp stillInside
  rcases Option.map_eq_some_iff.mp taken with ⟨⟨after, ptr⟩, result, rfl⟩
  exact table.window_closed result (asks rfl)

end Boot

end WeakOS
