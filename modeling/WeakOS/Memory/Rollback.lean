import Mathlib
import WeakOS.Memory.Preinit
import WeakOS.Memory.Calls

namespace WeakOS

open Foundation

namespace Memory

/-!
# Allocations that run out of frames

When `map_page` fails in the middle of a region, `alloc_virtual` returns the
null pointer.  Its rollback goes over the mapped pages with the wrong index and
leaves the region marked as used, so the caller can neither use the region nor
name it to free it.  No such call restores the state it began with.
-/

/-- The same free frames, present pages and classified pages. -/
structure Restored (before after : Memory) : Prop where
  frames : after.freeFrames = before.freeFrames
  present : ∀ page, (after.entry page).present = (before.entry page).present
  classified : ∀ page type, after.mRgns.HasType page type ↔ before.mRgns.HasType page type

/-- `alloc_virtual` selects a region and finds too few frames for its pages. -/
def Exhausts (memory : Memory) (pages : Nat) : Prop :=
  (∃ slot, memory.findRgn (fits pages) = some (some slot)) ∧ memory.freeFrames.card < pages

section Exhausted

variable {rel : Nat → Nat → Prop} {high : Nat} {memory : Memory} {slots : List Slot} {pages : Nat}

/-- What such a call leaves behind: it returns null, and the pages that were
asked for belong to a used region although they were free. -/
theorem Arranged.allocVirtual_exhausted (arranged : memory.Arranged rel high slots)
    (ordering : Ordering rel) (within : high ≤ memPageCount + 1) (exhausts : memory.Exhausts pages) :
    ∃ after page, memory.allocVirtual pages = some (after, 0) ∧
      memory.mRgns.HasType page .free ∧ ¬ memory.mRgns.HasType page .used ∧
      after.mRgns.HasType page .used := by
  rcases exhausts with ⟨⟨slot, found⟩, short⟩
  have bounded := arranged.bounded ordering within
  have pageCount := memPageCount_eq
  rcases arranged.allocVirtual_returns (by omega : 1 ≤ pages) with ⟨after, ptr, result⟩
  rcases Selection.of_found bounded found result with ⟨claimed, selection⟩
  have isFree := selection.isFree
  have null := selection.ptr_of_short short
  subst null
  have first : memory.mRgns.Contains slot (memory.mRgns slot).base :=
    ⟨Nat.le_refl _, Nat.lt_add_of_pos_right (arranged.bounds ordering (ne_none_of_free isFree)).1⟩
  refine ⟨after, (memory.mRgns slot).base, result, ⟨slot, isFree, first⟩,
    arranged.not_hasType_of_free ordering isFree first MemVirtRgnType.noConfusion
      MemVirtRgnType.noConfusion, ?_⟩
  rw [selection.table.rgns]
  exact (selection.claim.hasType_used isFree _).mpr (Or.inr ⟨Nat.le_refl _, by omega⟩)

end Exhausted

/-- Whatever the tables and the bitmap hold, an allocation that runs out of
frames returns null and does not restore the state. -/
theorem allocVirtual_never_atomic {memory : Memory} {pages : Nat} (wellFormed : memory.WellFormed)
    (exhausts : memory.Exhausts pages) :
    ∃ after, memory.allocVirtual pages = some (after, 0) ∧ ¬ Restored memory after := by
  rcases wellFormed.arranged with ⟨slots, arranged⟩
  rcases arranged.allocVirtual_exhausted Ordering.eq (Nat.le_succ _) exhausts with
    ⟨after, page, result, _, unused, used⟩
  exact ⟨after, result, fun restored => unused ((restored.classified page .used).mp used)⟩

/-- A machine with one frame. -/
def oneFrame : Memory := Memory.zero.preinit [⟨0, 0x1000, .usable⟩]

theorem oneFrame_exhausts : oneFrame.Exhausts 2 := by
  refine ⟨⟨0, findRgn_preinit _ _ (by rw [memPageCount_eq]; decide)⟩, ?_⟩
  rw [oneFrame, freeFrames_preinit_single _ ⟨rfl, by decide, by decide, by decide⟩, Nat.card_Ico]
  decide

/-- The allocation of two pages on that machine is such a call. -/
theorem allocVirtual_never_atomic_oneFrame :
    ∃ after, oneFrame.allocVirtual 2 = some (after, 0) ∧ ¬ Restored oneFrame after :=
  allocVirtual_never_atomic (preinit_wellFormed _ _) oneFrame_exhausts

/-- Atomicity fails already there: one page is mapped before the frames run
out. -/
theorem allocVirtual_not_atomic :
    ¬ ∀ (memory after : Memory) (pages : Nat), memory.WellFormed → memory.Exhausts pages →
      memory.allocVirtual pages = some (after, 0) → Restored memory after := by
  intro atomic
  rcases (preinit_arranged _ _).allocVirtual_exhausted Ordering.eq (Nat.le_succ _)
    oneFrame_exhausts with ⟨after, page, result, _, unused, used⟩
  have restored := atomic oneFrame after 2 (preinit_wellFormed _ _) oneFrame_exhausts result
  exact unused ((restored.classified page .used).mp used)

end Memory

end WeakOS
