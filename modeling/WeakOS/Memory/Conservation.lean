import Mathlib
import WeakOS.Foundation.Ownership
import WeakOS.Memory.Preinit
import WeakOS.Memory.Session

namespace WeakOS

open Foundation

/-!
# Conservation of physical frames

The pages of used regions are the holders of frames, and the frame a page
holds is the address in its entry.  Entries of other pages may keep stale
addresses, so ownership speaks about pages of used regions only.

As long as no call runs out of frames, mapping a region takes one frame for
each of its pages and unmapping it gives them back.
-/

namespace Memory

/-- The pages of used regions. -/
def usedPages (memory : Memory) : Set Nat := {page | memory.mRgns.HasType page .used}

/-- The used pages own their frames, and the rest of `total` is marked. -/
def Conserves (total : Set Nat) (memory : Memory) : Prop :=
  Owns memory.marked memory.frameOf memory.usedPages total

theorem usedPages_of_sameRegions {before after : Memory} (same : SameRegions before after) :
    after.usedPages = before.usedPages := by
  unfold usedPages
  rw [same.rgns]

section Loops

variable {memory claimed : Memory} {held total : Set Nat} {base pages : Nat}

/-- Mapping pages that hold nothing gives a frame to each of them. -/
theorem mapRgn_owns (owns : Owns memory.marked memory.frameOf held total)
    (bound : base + pages ≤ 2 ^ 32) (new : ∀ page, base ≤ page → page < base + pages → page ∉ held)
    (supplied : pages ≤ memory.freeFrames.card) :
    Owns (mapRgn base pages 0 memory).1.marked (mapRgn base pages 0 memory).1.frameOf
      (held ∪ Set.Ico base (base + pages)) total := by
  have looped := mapRgn_rule
    (P := fun k current => Owns current.marked current.frameOf (held ∪ Set.Ico base (base + k)) total)
    (by rw [Nat.add_zero, Set.Ico_self, Set.union_empty]; exact owns)
    (by rwa [Nat.zero_add] : base + (0 + pages) ≤ 2 ^ 32) (by
      intro k current frame _ small owned least
      have isFree := Finset.mem_coe.mp least.1
      have absent : base + k ∉ held ∪ Set.Ico base (base + k) := by
        rintro (old | recent)
        · exact new (base + k) (Nat.le_add_right base k) (by omega) old
        · exact Nat.lt_irrefl _ recent.2
      have itself : (current.mapTo (base + k) frame).frameOf (base + k) = frame :=
        mapTo_frameOf_self current (base + k) frame (mem_freeFrames.mp isFree).1
      have others : Set.EqOn current.frameOf (current.mapTo (base + k) frame).frameOf
          (held ∪ Set.Ico base (base + k)) := fun other member =>
        (mapTo_frameOf_of_ne current (base + k) frame (ne_of_mem_of_not_mem member absent)).symm
      have taken := owned.take absent (by rw [itself]; exact mem_marked isFree) others
      rw [itself, ← mapTo_marked, ← Set.union_insert,
        Set.insert_Ico_right_eq_Ico_add_one (Nat.le_add_right base k)] at taken
      exact taken)
  rcases looped with ⟨_, owned⟩ | ⟨failed, _⟩
  · rwa [Nat.zero_add] at owned
  · rw [(mapRgn_succeeds_iff memory bound).mpr supplied] at failed
    cases failed

/-- Unmapping pages that hold frames gives them back. -/
theorem unmapRgn_owns (owns : Owns memory.marked memory.frameOf held total)
    (bound : base + pages ≤ 2 ^ 32) (holds : Set.Ico base (base + pages) ⊆ held) :
    Owns (unmapRgn base pages 0 memory).marked (unmapRgn base pages 0 memory).frameOf
      (held \ Set.Ico base (base + pages)) total := by
  have looped := unmapRgn_rule
    (P := fun k current => Owns current.marked current.frameOf (held \ Set.Ico base (base + k)) total)
    (by rw [Nat.add_zero, Set.Ico_self, Set.sdiff_empty]; exact owns)
    (by rwa [Nat.zero_add] : base + (0 + pages) ≤ 2 ^ 32) (by
      intro k current _ small owned
      have present : base + k ∈ held \ Set.Ico base (base + k) :=
        ⟨holds ⟨Nat.le_add_right base k, by omega⟩, fun earlier => Nat.lt_irrefl _ earlier.2⟩
      have given := owned.give present
        (fun other _ => (unmapPage_frameOf current (base + k) other).symm)
      rw [← unmapPage_marked, Set.sdiff_sdiff, Set.union_singleton,
        Set.insert_Ico_right_eq_Ico_add_one (Nat.le_add_right base k)] at given
      exact given)
  rwa [Nat.zero_add] at looped

end Loops

section Calls

variable {rel : Nat → Nat → Prop} {high : Nat} {memory after : Memory} {slots : List Slot}
  {slot : Slot} {pages ptr : Nat} {total : Set Nat}

theorem contains_iff_mem_Ico (slot : Slot) (page : Nat) :
    memory.mRgns.Contains slot page ↔
      page ∈ Set.Ico (memory.mRgns slot).base ((memory.mRgns slot).base + (memory.mRgns slot).length) :=
  Iff.rfl

/-- The used pages after a claim. -/
theorem Claimed.usedPages_eq {claimed : Memory} (claim : Claimed memory claimed slot pages)
    (isFree : (memory.mRgns slot).type = .free) :
    claimed.usedPages = memory.usedPages ∪
      Set.Ico (memory.mRgns slot).base ((memory.mRgns slot).base + pages) :=
  Set.ext (claim.hasType_used isFree)

/-- The used pages after a release. -/
theorem Arranged.usedPages_release (arranged : memory.Arranged rel high slots)
    (ordering : Ordering rel) (used : (memory.mRgns slot).type = .used) :
    (memory.releaseRgn slot).usedPages = memory.usedPages \
      Set.Ico (memory.mRgns slot).base ((memory.mRgns slot).base + (memory.mRgns slot).length) :=
  Set.ext (arranged.hasType_used_release ordering used)

/-- A supplied call to `alloc_virtual` conserves frames. -/
theorem Arranged.allocVirtual_conserves (arranged : memory.Arranged rel high slots)
    (ordering : Ordering rel) (within : high ≤ memPageCount + 1)
    (supplied : ∀ slot, memory.findRgn (fits pages) = some (some slot) →
      pages ≤ memory.freeFrames.card)
    (conserves : memory.Conserves total)
    (result : memory.allocVirtual pages = some (after, ptr)) : after.Conserves total := by
  have bounded := arranged.bounded ordering within
  rcases allocVirtual_cases bounded result with ⟨_, rfl, _⟩ | ⟨slot, claimed, selection⟩
  · exact conserves
  · have enough := selection.enough
    have before : Owns claimed.marked claimed.frameOf memory.usedPages total := by
      rw [selection.claim.keeps]
      exact conserves
    have new : ∀ page, (memory.mRgns slot).base ≤ page → page < (memory.mRgns slot).base + pages →
        page ∉ memory.usedPages := fun page above below =>
      arranged.not_hasType_of_free ordering selection.isFree
        ((contains_iff_mem_Ico slot page).mpr ⟨above, by omega⟩)
        MemVirtRgnType.noConfusion MemVirtRgnType.noConfusion
    have owned := mapRgn_owns before selection.range new
      (by rw [selection.frames]; exact supplied slot selection.found)
    rw [← selection.mapped] at owned
    refine owned.congr_held ?_
    rw [usedPages_of_sameRegions selection.table, selection.claim.usedPages_eq selection.isFree]

/-- `free_virtual` conserves frames. -/
theorem Arranged.freeVirtual_conserves (arranged : memory.Arranged rel high slots)
    (ordering : Ordering rel) (within : high ≤ memPageCount + 1) {freed : Bool}
    (conserves : memory.Conserves total)
    (result : memory.freeVirtual ptr = some (after, freed)) : after.Conserves total := by
  have bounded := arranged.bounded ordering within
  rcases freeVirtual_cases result with ⟨_, rfl, _⟩ | ⟨_, slot, _, used, _, rfl⟩
  · exact conserves
  · have bound := bounded slot (ne_none_of_used used)
    have pageCount := memPageCount_eq
    have same := unmapRgn_table bounded used
    have holds : Set.Ico (memory.mRgns slot).base
        ((memory.mRgns slot).base + (memory.mRgns slot).length) ⊆ memory.usedPages :=
      fun page member => ⟨slot, used, (contains_iff_mem_Ico slot page).mpr member⟩
    have owned := unmapRgn_owns conserves (by omega) holds
    refine owned.congr_held ?_
    have unmapped := arranged.of_sameRegions same
    rw [unmapped.usedPages_release ordering (by rw [same.rgns]; exact used),
      usedPages_of_sameRegions same, same.rgns]

end Calls

end Memory

namespace Session

/-- A call to `alloc_virtual` that selects a region finds a frame for each page
it was asked for. -/
def Supplied (session : Session) : Event → Prop
  | .allocVirtual pages => ∀ slot,
      session.memory.findRgn (Memory.fits pages) = some (some slot) →
        pages ≤ session.memory.freeFrames.card
  | .freeVirtual _ => True
  | .access _ => True

/-- A tracked session whose used pages own their frames. -/
structure Conserving (rel : Nat → Nat → Prop) (high : Nat) (total : Set Nat) (session : Session) :
    Prop extends session.Tracked rel high where
  conserves : session.memory.Conserves total

theorem Conserving.step {rel : Nat → Nat → Prop} {high : Nat} {total : Set Nat}
    {session next : Session} {event : Event} (conserving : session.Conserving rel high total)
    (ordering : Memory.Ordering rel) (within : high ≤ memPageCount + 1) (positive : event.Positive)
    (supplied : session.Supplied event) (taken : session.step event = some next) :
    next.Conserving rel high total := by
  refine ⟨conserving.toTracked.step ordering within positive taken, ?_⟩
  rcases conserving.table with ⟨slots, arranged⟩
  cases event with
  | allocVirtual pages =>
      rcases Option.map_eq_some_iff.mp taken with ⟨⟨after, ptr⟩, result, rfl⟩
      exact arranged.allocVirtual_conserves ordering within supplied conserving.conserves result
  | freeVirtual ptr =>
      rcases Option.map_eq_some_iff.mp taken with ⟨⟨after, freed⟩, result, rfl⟩
      exact arranged.freeVirtual_conserves ordering within conserving.conserves result
  | access page =>
      rw [← Option.some.inj taken]
      unfold Memory.access
      split
      · exact conserving.conserves
      · exact conserving.conserves

/-- The start of a run on a table without used regions. -/
theorem Conserving.start {rel : Nat → Nat → Prop} {high : Nat} {memory : Memory} {slots : List Slot}
    (arranged : memory.Arranged rel high slots)
    (noneUsed : ∀ slot, (memory.mRgns slot).type ≠ .used) :
    Conserving rel high memory.marked ⟨memory, []⟩ := by
  refine ⟨Tracked.start arranged, (Owns.start memory.marked memory.frameOf).congr_held ?_⟩
  exact Set.eq_empty_of_forall_notMem (fun _ ⟨slot, used, _⟩ => noneUsed slot used)

/-- In every state of a supplied run the used pages have distinct frames, none
of them marked, and together with the marked frames they are the frames that
were marked at the start. -/
theorem run_conserves_frames {memory : Memory} (wellFormed : memory.WellFormed)
    (noneUsed : ∀ slot, (memory.mRgns slot).type ≠ .used) {events : List Event}
    (positive : ∀ event ∈ events, event.Positive)
    (supplied : Run.EachStep Session.step Supplied ⟨memory, []⟩ events) :
    ∃ session, Session.run ⟨memory, []⟩ events = some session ∧
      Set.InjOn session.memory.frameOf session.memory.usedPages ∧
      (∀ page ∈ session.memory.usedPages,
        Bitmap.test session.memory.mPages (session.memory.frameOf page) = false) ∧
      session.memory.marked ∪ session.memory.frameOf '' session.memory.usedPages = memory.marked ∧
      ((∀ slot, (session.memory.mRgns slot).type ≠ .used) →
        session.memory.mPages = memory.mPages) := by
  rcases wellFormed.arranged with ⟨slots, arranged⟩
  have within : memPageCount ≤ memPageCount + 1 := Nat.le_succ _
  rcases (Tracked.start arranged).run Memory.Ordering.eq within positive with ⟨session, reached, _⟩
  have conserving : session.Conserving (· = ·) memPageCount memory.marked :=
    Run.run_invariant
      (fun state event next kept allowed taken =>
        kept.step Memory.Ordering.eq within allowed.1 allowed.2 taken)
      (Conserving.start arranged noneUsed)
      ((Run.eachStep_of_forall_mem positive).and supplied) reached
  have owns := conserving.conserves
  refine ⟨session, reached, owns.exclusive, fun page member => ?_, owns.accounted, fun freed => ?_⟩
  · exact Bool.eq_false_iff.mpr (owns.taken page member)
  · have nothing : session.memory.usedPages = ∅ :=
      Set.eq_empty_of_forall_notMem (fun _ ⟨slot, used, _⟩ => freed slot used)
    exact Bitmap.ext (fun frame => Bool.eq_iff_iff.mpr (Set.ext_iff.mp (owns.free_eq_total nothing) frame))

/-- The run on a machine with two frames that allocates and frees both. -/
theorem run_conserves_frames_two :
    ∃ session, Session.run ⟨Memory.zero.preinit [⟨0, 0x2000, .usable⟩], []⟩
        [.allocVirtual 2, .freeVirtual 0] = some session ∧
      session.memory.marked ∪ session.memory.frameOf '' session.memory.usedPages =
        (Memory.zero.preinit [⟨0, 0x2000, .usable⟩]).marked := by
  have counts : MemBiosRgn.Counts ⟨0, 0x2000, .usable⟩ := ⟨rfl, by decide, by decide, by decide⟩
  have enough : 2 ≤ (Memory.zero.preinit [⟨0, 0x2000, .usable⟩]).freeFrames.card := by
    have included : ({0, 1} : Finset Nat) ⊆
        (Memory.zero.preinit [⟨0, 0x2000, .usable⟩]).freeFrames := by
      intro frame member
      rw [Memory.mem_freeFrames_preinit (by decide)]
      refine ⟨_, List.mem_singleton_self _, counts, ?_⟩
      rcases Finset.mem_insert.mp member with rfl | member
      · decide
      · rw [Finset.mem_singleton.mp member]
        decide
    exact Finset.card_le_card included
  have supplied : Run.EachStep Session.step Supplied
      ⟨Memory.zero.preinit [⟨0, 0x2000, .usable⟩], []⟩ [.allocVirtual 2, .freeVirtual 0] :=
    fun _ _ => ⟨fun _ _ => enough, fun _ _ => ⟨trivial, trivial⟩⟩
  rcases run_conserves_frames (Memory.preinit_wellFormed _ _) (Memory.preinit_noneUsed _ _)
    (by simp [Event.Positive]) supplied with ⟨session, reached, _, _, accounted, _⟩
  exact ⟨session, reached, accounted⟩

end Session

end WeakOS
