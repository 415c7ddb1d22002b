import Mathlib
import WeakOS.Memory.Contract
import WeakOS.Memory.Conservation

namespace WeakOS

open Foundation

/-!
# Freeing undoes allocating

As long as every allocation asks for a page and succeeds, the used regions are
the live allocations: each of them is backed by a used region, and there is no
other one.  So a pointer finds the region that was handed out with it, however
often the list has been cut around that region, and any other pointer finds
nothing.
-/

namespace Session

/-- A call to `alloc_virtual` asks for a page and returns a pointer. -/
def Granted (session : Session) : Event → Prop
  | .allocVirtual pages => 1 ≤ pages ∧
      ∃ after ptr, session.memory.allocVirtual pages = some (after, ptr) ∧ ptr ≠ 0
  | .freeVirtual _ => True
  | .access _ => True

/-- The used regions are the live allocations, and their pages are present. -/
structure Settled (total : Set Nat) (session : Session) : Prop
    extends session.Conserving (· = ·) memPageCount total where
  owned : ∀ slot, (session.memory.mRgns slot).type = .used →
    ∃ item ∈ session.live, item.BackedBy session.memory.mRgns slot
  present : ∀ page ∈ session.memory.usedPages, (session.memory.entry page).present = true

section Settled

variable {total : Set Nat} {session next : Session} {event : Event}

theorem Settled.start {memory : Memory} (wellFormed : memory.WellFormed)
    (noneUsed : ∀ slot, (memory.mRgns slot).type ≠ .used) : Settled memory.marked ⟨memory, []⟩ := by
  rcases wellFormed.arranged with ⟨slots, arranged⟩
  refine ⟨Conserving.start arranged noneUsed, fun slot used => absurd used (noneUsed slot), ?_⟩
  rintro page ⟨slot, used, _⟩
  exact absurd used (noneUsed slot)

theorem Granted.positive (granted : session.Granted event) : event.Positive := by
  cases event with
  | allocVirtual pages => exact granted.1
  | freeVirtual ptr => trivial
  | access page => trivial

/-- A granted allocation finds a frame for each page. -/
theorem Granted.supplied (granted : session.Granted event) (bounded : session.memory.Bounded) :
    session.Supplied event := by
  cases event with
  | allocVirtual pages =>
      rcases granted with ⟨positive, after, ptr, result, returned⟩
      rcases bounded.allocVirtual_returned positive result returned with ⟨_, _, _, _, supplied, _⟩
      exact fun _ _ => supplied
  | freeVirtual ptr => trivial
  | access page => trivial

/-- Two used regions with the same base are the same. -/
theorem Tracked.eq_of_base_eq {rel : Nat → Nat → Prop} {high : Nat} (tracked : session.Tracked rel high)
    (ordering : Memory.Ordering rel) {first second : Slot}
    (firstUsed : (session.memory.mRgns first).type = .used)
    (secondUsed : (session.memory.mRgns second).type = .used)
    (same : (session.memory.mRgns first).base = (session.memory.mRgns second).base) :
    first = second := by
  rcases tracked.table with ⟨slots, arranged⟩
  have found := arranged.findRgn_startsAt ordering firstUsed
  rw [same, arranged.findRgn_startsAt ordering secondUsed] at found
  exact (Option.some.inj (Option.some.inj found)).symm

/-- After a step, every used region is a live allocation. -/
theorem Settled.owned_step (settled : session.Settled total) (granted : session.Granted event)
    (taken : session.step event = some next) (slot : Slot)
    (used : (next.memory.mRgns slot).type = .used) :
    ∃ item ∈ next.live, item.BackedBy next.memory.mRgns slot := by
  have bounded := settled.toTracked.bounded Memory.Ordering.eq (Nat.le_succ _)
  cases event with
  | allocVirtual pages =>
      rcases granted with ⟨positive, memory, address, granted, returned⟩
      rcases Option.map_eq_some_iff.mp taken with ⟨⟨after, ptr⟩, result, rfl⟩
      rw [result, Option.some.injEq, Prod.mk.injEq] at granted
      rw [← granted.2] at returned
      rcases bounded.allocVirtual_returned positive result returned with ⟨fresh, found, _, _, _, _, new⟩
      rcases Memory.Selection.of_found bounded found result with ⟨claimed, selection⟩
      simp only [if_neg returned] at used ⊢
      rw [selection.table.rgns] at used
      rcases selection.claim.used_cases used with here | same
      · exact ⟨_, List.mem_cons_self, here ▸ new⟩
      · rw [same] at used
        rcases settled.owned slot used with ⟨item, member, backed⟩
        have kept := bounded.allocVirtual_used result used
        exact ⟨item, List.mem_cons_of_mem _ member, by rw [Allocation.BackedBy, kept]; exact backed⟩
  | freeVirtual ptr =>
      rcases Option.map_eq_some_iff.mp taken with ⟨⟨after, freed⟩, result, rfl⟩
      rcases Memory.freeVirtual_cases result with
        ⟨rfl, rfl, _⟩ | ⟨rfl, other, found, otherUsed, address, rfl⟩
      · exact settled.owned slot used
      · have different : slot ≠ other := by
          rintro rfl
          simp only [Memory.releaseRgn_self] at used
          cases used
        have table := (Memory.unmapRgn_table bounded otherUsed).rgns
        simp only [Memory.releaseRgn_of_ne different, table] at used
        rcases settled.owned slot used with ⟨item, member, backed⟩
        refine ⟨item, List.mem_filter.mpr ⟨member, decide_eq_true (Or.inl fun same => ?_)⟩, ?_⟩
        · have bases : (session.memory.mRgns slot).base = (session.memory.mRgns other).base := by
            have here := backed.2.1
            omega
          exact different (settled.toTracked.eq_of_base_eq Memory.Ordering.eq used otherUsed bases)
        · rw [Allocation.BackedBy, Memory.releaseRgn_of_ne different, table]
          exact backed
  | access page =>
      have same := Memory.access_sameRegions session.memory page
      rw [← Option.some.inj taken] at used ⊢
      simp only [same.rgns] at used ⊢
      exact settled.owned slot used

/-- After a step, the pages of used regions are present. -/
theorem Settled.present_step (settled : session.Settled total) (granted : session.Granted event)
    (taken : session.step event = some next) (page : Nat) (used : page ∈ next.memory.usedPages) :
    (next.memory.entry page).present = true := by
  rcases settled.table with ⟨slots, arranged⟩
  have present := settled.present
  cases event with
  | allocVirtual pages =>
      rcases granted with ⟨positive, memory, address, granted, returned⟩
      rcases Option.map_eq_some_iff.mp taken with ⟨⟨after, ptr⟩, result, rfl⟩
      rw [result, Option.some.injEq, Prod.mk.injEq] at granted
      rw [← granted.2] at returned
      rcases arranged.allocVirtual_allocated Memory.Ordering.eq (Nat.le_succ _) positive result returned
        with ⟨slot, allocated⟩
      by_cases inside : page ∈ Set.Ico (session.memory.mRgns slot).base
          ((session.memory.mRgns slot).base + pages)
      · rcases Nat.exists_eq_add_of_le inside.1 with ⟨i, rfl⟩
        rw [PageTableEntry.present, allocated.mapped.flags i (Nat.lt_of_add_lt_add_left inside.2)]
        exact (by decide : PteFlags.genericUser.getLsbD 0 = true)
      · rw [allocated.mapped.others page inside]
        exact present page
          ((allocated.retyped.others page inside .used MemVirtRgnType.noConfusion).mp used)
  | freeVirtual ptr =>
      rcases Option.map_eq_some_iff.mp taken with ⟨⟨after, freed⟩, result, rfl⟩
      cases freed with
      | false =>
          rcases Memory.freeVirtual_cases result with ⟨_, rfl, _⟩ | ⟨freed, _⟩
          · exact present page used
          · cases freed
      | true =>
          rcases arranged.freeVirtual_freed Memory.Ordering.eq (Nat.le_succ _) result with
            ⟨slot, _, _, done⟩
          have outside : page ∉ Set.Ico (session.memory.mRgns slot).base
              ((session.memory.mRgns slot).base + (session.memory.mRgns slot).length) := by
            intro inside
            have type := (done.retyped.is page inside .used MemVirtRgnType.noConfusion).mp used
            cases type
          rw [done.unmapped.others page outside]
          exact present page
            ((done.retyped.others page outside .used MemVirtRgnType.noConfusion).mp used)
  | access other =>
      have same := Memory.access_sameRegions session.memory other
      rw [← Option.some.inj taken] at used ⊢
      simp only [Memory.usedPages_of_sameRegions same] at used
      simp only [Memory.access_entry]
      exact present page used

/-- A step keeps the invariant. -/
theorem Settled.step (settled : session.Settled total) (granted : session.Granted event)
    (taken : session.step event = some next) : next.Settled total := by
  have bounded := settled.toTracked.bounded Memory.Ordering.eq (Nat.le_succ _)
  exact ⟨settled.toConserving.step Memory.Ordering.eq (Nat.le_succ _) granted.positive
    (granted.supplied bounded) taken, settled.owned_step granted taken,
    settled.present_step granted taken⟩

/-- A pointer that is not the start of a live allocation is rejected. -/
theorem Settled.rejects (settled : session.Settled total) {ptr : Nat}
    (notLive : ∀ item ∈ session.live, item.ptr ≠ ptr) :
    session.memory.freeVirtual ptr = some (session.memory, false) := by
  rcases settled.table with ⟨slots, arranged⟩
  rcases arranged.freeVirtual_returns ptr with ⟨after, freed, result⟩
  rcases Memory.freeVirtual_cases result with ⟨rfl, rfl, _⟩ | ⟨_, slot, _, used, address, _⟩
  · exact result
  · rcases settled.owned slot used with ⟨item, member, backed⟩
    exact absurd (backed.2.1.trans address.symm) (notLive item member)

/-- The pointer of a live allocation finds as many pages as were handed out. -/
theorem Settled.lengthAt (settled : session.Settled total) {item : Allocation}
    (member : item ∈ session.live) : session.memory.lengthAt item.ptr = some item.pages := by
  rcases settled.table with ⟨slots, arranged⟩
  rcases settled.backed item member with ⟨slot, used, address, length⟩
  have found := arranged.findRgn_startsAt Memory.Ordering.eq used
  rw [Memory.lengthAt, address, Nat.mul_div_cancel _ (by decide), found, length]

/-- The pointer of a live allocation is accepted. -/
theorem Settled.accepts (settled : session.Settled total) {item : Allocation}
    (member : item ∈ session.live) :
    ∃ after, session.memory.freeVirtual item.ptr = some (after, true) ∧
      Memory.Freed session.memory after (item.ptr / 0x1000) item.pages := by
  rcases settled.table with ⟨slots, arranged⟩
  rcases settled.backed item member with ⟨slot, used, address, length⟩
  have page : item.ptr / 0x1000 = (session.memory.mRgns slot).base := by omega
  have found := arranged.findRgn_startsAt Memory.Ordering.eq used
  rcases arranged.freeVirtual_returns item.ptr with ⟨after, freed, result⟩
  rcases Memory.freeVirtual_cases result with ⟨_, _, missing⟩ | ⟨rfl, other, _, otherUsed, base, _⟩
  · have nothing := missing (by omega)
    rw [page, found] at nothing
    cases nothing
  · rcases arranged.freeVirtual_freed Memory.Ordering.eq (Nat.le_succ _) result with
      ⟨region, regionUsed, start, freed⟩
    have same := settled.toTracked.eq_of_base_eq Memory.Ordering.eq regionUsed used (by omega)
    subst same
    rw [page, length]
    exact ⟨after, result, freed⟩

/-- An allocation stays live as long as its pointer is not freed. -/
theorem live_step {item : Allocation} (member : item ∈ session.live)
    (spared : event ≠ .freeVirtual item.ptr) (taken : session.step event = some next) :
    item ∈ next.live := by
  cases event with
  | allocVirtual pages =>
      rcases Option.map_eq_some_iff.mp taken with ⟨⟨after, ptr⟩, _, rfl⟩
      dsimp only
      split
      · exact member
      · exact List.mem_cons_of_mem _ member
  | freeVirtual ptr =>
      rcases Option.map_eq_some_iff.mp taken with ⟨⟨after, freed⟩, _, rfl⟩
      dsimp only
      split
      · refine List.mem_filter.mpr ⟨member, decide_eq_true (Or.inl fun same => ?_)⟩
        exact spared (congrArg Event.freeVirtual same.symm)
      · exact member
  | access page =>
      rw [← Option.some.inj taken]
      exact member

end Settled

/-- A granted event that does not free the pointer. -/
def Spares (ptr : Nat) (session : Session) (event : Event) : Prop :=
  session.Granted event ∧ event ≠ .freeVirtual ptr

/-- What a pointer of `pages` pages means in a session: freeing it takes back exactly its
pages and their frames, and afterwards it is rejected. -/
structure Undoes (session : Session) (ptr pages : Nat) (after : Memory) : Prop where
  result : session.memory.freeVirtual ptr = some (after, true)
  freed : Memory.Freed session.memory after (ptr / 0x1000) pages
  present : ∀ page ∈ Set.Ico (ptr / 0x1000) (ptr / 0x1000 + pages),
    (session.memory.entry page).present = true
  distinct : Set.InjOn session.memory.frameOf (Set.Ico (ptr / 0x1000) (ptr / 0x1000 + pages))
  unmarked : ∀ page ∈ Set.Ico (ptr / 0x1000) (ptr / 0x1000 + pages),
    Bitmap.test session.memory.mPages (session.memory.frameOf page) = false
  /-- A pointer that is not the start of another live allocation. -/
  rejected : ∀ other, (∀ item ∈ session.live, item.ptr = other → other = ptr) →
    after.freeVirtual other = some (after, false)

theorem Settled.undoes {total : Set Nat} {session : Session} (settled : session.Settled total)
    {item : Allocation} (member : item ∈ session.live) :
    ∃ after, session.Undoes item.ptr item.pages after := by
  rcases settled.accepts member with ⟨after, result, freed⟩
  have used : Set.Ico (item.ptr / 0x1000) (item.ptr / 0x1000 + item.pages) ⊆
      session.memory.usedPages := freed.retyped.was
  refine ⟨after, result, freed, fun page inside => settled.present page (used inside),
    settled.conserves.exclusive.mono used, fun page inside => ?_, fun other notLive => ?_⟩
  · exact Bool.eq_false_iff.mpr (settled.conserves.taken page (used inside))
  · have taken : session.step (.freeVirtual item.ptr) = _ := congrArg (Option.map _) result
    have next := settled.step (show session.Granted (.freeVirtual item.ptr) from trivial) taken
    refine next.rejects (fun live listed same => ?_)
    rcases List.mem_filter.mp listed with ⟨before, kept⟩
    have here : live.ptr = item.ptr := same.trans (notLive live before same)
    -- The filter removes the allocation with this pointer and the length that is found there.
    have found := settled.lengthAt before
    rw [here] at found
    rcases of_decide_eq_true kept with elsewhere | longer
    · exact elsewhere here
    · exact longer found.symm

/-- Whatever granted calls come before and between, freeing a pointer takes back exactly what
was handed out with it, and every pointer that is not the start of a live allocation is
rejected. -/
theorem freeVirtual_undoes {memory : Memory} (wellFormed : memory.WellFormed)
    (noneUsed : ∀ slot, (memory.mRgns slot).type ≠ .used) {earlier later : List Event}
    {before session : Session} {handed : Memory} {pages ptr : Nat}
    (granted : Run.EachStep Session.step Granted ⟨memory, []⟩ earlier)
    (reached : Session.run ⟨memory, []⟩ earlier = some before) (positive : 1 ≤ pages)
    (result : before.memory.allocVirtual pages = some (handed, ptr)) (returned : ptr ≠ 0)
    (spared : Run.EachStep Session.step (Spares ptr) ⟨handed, ⟨ptr, pages⟩ :: before.live⟩ later)
    (ended : Session.run ⟨handed, ⟨ptr, pages⟩ :: before.live⟩ later = some session) :
    (∃ after, session.Undoes ptr pages after) ∧
      ∀ other, (∀ item ∈ session.live, item.ptr ≠ other) →
        session.memory.freeVirtual other = some (session.memory, false) := by
  have settled : before.Settled memory.marked :=
    Run.run_invariant (fun _ _ _ kept allowed taken => kept.step allowed taken)
      (Settled.start wellFormed noneUsed) granted reached
  have taken : before.step (.allocVirtual pages) = some ⟨handed, ⟨ptr, pages⟩ :: before.live⟩ := by
    simp only [Session.step, result, Option.map_some, if_neg returned]
  have asked : before.Granted (.allocVirtual pages) := ⟨positive, handed, ptr, result, returned⟩
  have start := settled.step asked taken
  have keep : ∀ (state : Session) (event : Event) (next : Session),
      state.Settled memory.marked ∧ ⟨ptr, pages⟩ ∈ state.live → state.Spares ptr event →
      state.step event = some next → next.Settled memory.marked ∧ ⟨ptr, pages⟩ ∈ next.live :=
    fun _ _ _ kept allowed taken => ⟨kept.1.step allowed.1 taken, live_step kept.2 allowed.2 taken⟩
  have last := Run.run_invariant keep ⟨start, List.mem_cons_self⟩ spared ended
  exact ⟨last.1.undoes last.2, fun other notLive => last.1.rejects notLive⟩

theorem twoFrames_noneUsed (slot : Slot) : (Memory.twoFrames.mRgns slot).type ≠ .used := by
  by_cases first : slot = 0
  · rw [first]
    decide
  · by_cases second : slot = 1
    · rw [second]
      decide
    · rw [Memory.twoFrames, Memory.twoRegions_rgns_of_ne first second]
      decide

/-- Both frames are handed out, one after the other, before the first one is given back. -/
theorem freeVirtual_undoes_twoFrames : ∃ handed session,
    Memory.twoFrames.allocVirtual 1 = some (handed, 0x1000) ∧
      Session.run ⟨handed, [⟨0x1000, 1⟩]⟩ [.allocVirtual 1] = some session ∧
      ∃ after, session.Undoes 0x1000 1 after := by
  have first : (Memory.twoFrames.allocVirtual 1).map Prod.snd = some 0x1000 := by decide +kernel
  have second : ((Memory.twoFrames.allocVirtual 1).bind
      (fun handed => handed.1.allocVirtual 1)).map Prod.snd = some 0x2000 := by decide +kernel
  rcases Option.map_eq_some_iff.mp first with ⟨⟨handed, ptr⟩, result, rfl⟩
  rw [result, Option.bind_some] at second
  rcases Option.map_eq_some_iff.mp second with ⟨⟨next, other⟩, again, address⟩
  have spared : Run.EachStep Session.step (Spares 0x1000) ⟨handed, [⟨0x1000, 1⟩]⟩ [.allocVirtual 1] := by
    refine fun _ _ => ⟨⟨⟨Nat.le_refl 1, next, other, again, ?_⟩, Event.noConfusion⟩, trivial⟩
    rw [show other = 0x2000 from address]
    decide
  have taken : Session.step ⟨handed, [⟨0x1000, 1⟩]⟩ (.allocVirtual 1) = _ :=
    congrArg (Option.map _) again
  have ended : Session.run ⟨handed, [⟨0x1000, 1⟩]⟩ [.allocVirtual 1] = _ :=
    Run.run_cons_eq_some.mpr ⟨_, taken, Eq.refl (some _)⟩
  exact ⟨handed, _, result, ended, (freeVirtual_undoes Memory.twoFrames_wellFormed twoFrames_noneUsed
    (show Run.EachStep Session.step Granted ⟨Memory.twoFrames, []⟩ [] from trivial) rfl (Nat.le_refl 1)
    result (by decide) spared ended).1⟩

/-- An empty allocation has the pointer of the next one and is found first. -/
theorem not_freeVirtual_undoes : ¬ ∀ (memory before handed : Memory) (asked ptr other : Nat),
    memory.WellFormed → (∀ slot, (memory.mRgns slot).type ≠ .used) →
    ¬ memory.mRgns.HasType 0 .free →
    memory.allocVirtual asked = some (before, ptr) → ptr ≠ 0 →
    before.allocVirtual 1 = some (handed, other) → other ≠ 0 →
    ∃ after, handed.freeVirtual other = some (after, true) ∧
      (after.entry (other / 0x1000)).present = false := by
  intro undoes
  have first : (Memory.twoFrames.allocVirtual 0).map Prod.snd = some 0x1000 := by decide +kernel
  have second : ((Memory.twoFrames.allocVirtual 0).bind
      (fun before => before.1.allocVirtual 1)).map Prod.snd = some 0x1000 := by decide +kernel
  have third : (((Memory.twoFrames.allocVirtual 0).bind (fun before => before.1.allocVirtual 1)).bind
      (fun handed => handed.1.freeVirtual 0x1000)).map (fun freed => (freed.1.entry 1).present) =
        some true := by decide +kernel
  rcases Option.map_eq_some_iff.mp first with ⟨⟨before, ptr⟩, empty, rfl⟩
  rw [empty, Option.bind_some] at second third
  rcases Option.map_eq_some_iff.mp second with ⟨⟨handed, other⟩, result, address⟩
  have here : other = 0x1000 := address
  subst here
  rw [result, Option.bind_some] at third
  rcases undoes _ _ _ 0 _ _ Memory.twoFrames_wellFormed twoFrames_noneUsed Memory.twoFrames_zeroNotFree
    empty (by decide) result (by decide) with ⟨after, freed, absent⟩
  rw [freed, Option.map_some, Option.some.injEq] at third
  exact absurd (absent.symm.trans third) (by decide)

end Session

end WeakOS
