import Mathlib
import WeakOS.Memory.Effects

namespace WeakOS

open Foundation

/-!
# What a step means for the live allocations

An allocation that is live after a step either was live before or is what the
step has handed out.  In the first case the step has touched none of its
pages; in the second its pages have got the lowest free frames, in order.
-/

namespace Memory

section Calls

variable {memory after : Memory} {pages ptr : Nat} {slot : Slot}

/-- The pages of a range that was handed out get the lowest free frames in
order. -/
theorem Bounded.allocVirtual_rank (bounded : memory.Bounded)
    (result : memory.allocVirtual pages = some (after, ptr)) (returned : ptr ≠ 0)
    (found : memory.findRgn (fits pages) = some (some slot)) {j : Nat} (mapped : j < pages) :
    after.frameOf ((memory.mRgns slot).base + j) ∈ memory.freeFrames ∧
      Rank.rank memory.freeFrames (after.frameOf ((memory.mRgns slot).base + j)) = j := by
  rcases Selection.of_found bounded found result with ⟨claimed, selection⟩
  have supplied := selection.supplied_of_returned returned
  have ranked := mapRgn_rank claimed selection.range
    (le_of_le_of_eq supplied (congrArg Finset.card selection.frames.symm)) mapped
  rw [selection.frames, ← selection.mapped] at ranked
  exact ranked

end Calls

end Memory

namespace Session

section Step

variable {session next : Session} {event : Event}

/-- What is live after a step. -/
theorem live_cases (taken : session.step event = some next) {item : Allocation}
    (member : item ∈ next.live) : item ∈ session.live ∨ event = .allocVirtual item.pages ∧
      item.ptr ≠ 0 ∧ session.memory.allocVirtual item.pages = some (next.memory, item.ptr) := by
  cases event with
  | allocVirtual pages =>
      rcases Option.map_eq_some_iff.mp taken with ⟨⟨after, ptr⟩, result, rfl⟩
      by_cases null : ptr = 0
      · simp only [if_pos null] at member
        exact Or.inl member
      · simp only [if_neg null] at member
        rcases List.mem_cons.mp member with rfl | member
        · exact Or.inr ⟨rfl, null, result⟩
        · exact Or.inl member
  | freeVirtual ptr =>
      rcases Option.map_eq_some_iff.mp taken with ⟨⟨after, freed⟩, result, rfl⟩
      cases freed with
      | true => exact Or.inl (List.mem_of_mem_filter member)
      | false => exact Or.inl member
  | access page =>
      rw [← Option.some.inj taken] at member
      exact Or.inl member

/-- A call maps and unmaps no page of an allocation that stays live. -/
theorem Tracked.untouched {rel : Nat → Nat → Prop} {high : Nat} (tracked : session.Tracked rel high)
    (ordering : Memory.Ordering rel) (within : high ≤ memPageCount + 1)
    (taken : session.step event = some next) {item : Allocation} (before : item ∈ session.live)
    (after : item ∈ next.live) {page : Nat} (contains : item.Contains page) :
    page ∉ session.memory.maps event ∧ page ∉ session.memory.unmaps event := by
  have bounded := tracked.bounded ordering within
  rcases tracked.table with ⟨slots, arranged⟩
  rcases tracked.backed item before with ⟨owner, backed⟩
  have owned := (backed.contains_iff page).mp contains
  have ownerUsed : (session.memory.mRgns owner).type ≠ .none := ne_none_of_used backed.1
  cases event with
  | allocVirtual pages =>
      -- The pages of the call lie in a free region, those of the allocation in a used one.
      have elsewhere : ∀ slot, session.memory.findRgn (Memory.fits pages) = some (some slot) →
          ¬ session.memory.mRgns.Contains slot page := by
        intro slot found inside
        rcases Memory.fits_iff.mp (Memory.accept_of_findRgn found) with ⟨isFree, _⟩
        have same := arranged.eq_of_contains ordering (ne_none_of_free isFree) ownerUsed inside owned
        rw [← same, Allocation.BackedBy, isFree] at backed
        exact MemVirtRgnType.noConfusion backed.1
      constructor
      · rintro ⟨slot, found, above, below⟩
        rcases Memory.fits_iff.mp (Memory.accept_of_findRgn found) with ⟨_, enough⟩
        have inside : page < (session.memory.mRgns slot).base + (session.memory.mRgns slot).length := by
          omega
        exact elsewhere slot found ⟨above, inside⟩
      · rintro ⟨slot, found, short, _, location⟩
        rcases Memory.fits_iff.mp (Memory.accept_of_findRgn found) with ⟨_, enough⟩
        have inside : (session.memory.mRgns slot).base ≤ page ∧
            page < (session.memory.mRgns slot).base + (session.memory.mRgns slot).length := by
          omega
        exact elsewhere slot found inside
  | freeVirtual ptr =>
      refine ⟨Set.notMem_empty page, ?_⟩
      rintro ⟨aligned, slot, found, inside⟩
      -- The allocation would be the one that is freed.
      have inUse : (session.memory.mRgns slot).type = .used := by
        have accepted := Memory.accept_of_findRgn found
        simp only [Memory.startsAt, Bool.and_eq_true, decide_eq_true_eq] at accepted
        exact accepted.2
      have same := arranged.eq_of_contains ordering (ne_none_of_used inUse) ownerUsed inside owned
      subst same
      rcases Option.map_eq_some_iff.mp taken with ⟨⟨memory, freed⟩, result, rfl⟩
      rcases Memory.freeVirtual_cases result with ⟨_, _, missing⟩ | ⟨rfl, other, stops, _, address, _⟩
      · rw [missing aligned] at found
        cases found
      · rw [found, Option.some.injEq, Option.some.injEq] at stops
        subst stops
        have length : session.memory.lengthAt ptr = some (session.memory.mRgns slot).length := by
          rw [Memory.lengthAt, found]
        rcases of_decide_eq_true (List.mem_filter.mp after).2 with notHere | notThis
        · exact notHere (backed.2.1.trans address.symm)
        · exact notThis ((congrArg some backed.2.2).trans length.symm)
  | access other => exact ⟨Set.notMem_empty page, Set.notMem_empty page⟩

/-- Entries of pages that a step does not touch stay. -/
theorem step_entry (bounded : session.memory.Bounded) (taken : session.step event = some next)
    {page : Nat} (notMapped : page ∉ session.memory.maps event)
    (notUnmapped : page ∉ session.memory.unmaps event) :
    next.memory.entry page = session.memory.entry page := by
  cases event with
  | allocVirtual pages =>
      rcases Option.map_eq_some_iff.mp taken with ⟨⟨after, ptr⟩, result, rfl⟩
      exact (bounded.allocVirtual_effect result).others page notMapped notUnmapped
  | freeVirtual ptr =>
      rcases Option.map_eq_some_iff.mp taken with ⟨⟨after, freed⟩, result, rfl⟩
      exact (bounded.freeVirtual_effect result).others page notMapped notUnmapped
  | access other =>
      rw [← Option.some.inj taken]
      exact congrFun (Memory.access_entry session.memory other) page

/-- No step writes to the directory. -/
theorem step_directory (bounded : session.memory.Bounded) (taken : session.step event = some next) :
    next.memory.mPaging.directory = session.memory.mPaging.directory := by
  cases event with
  | allocVirtual pages =>
      rcases Option.map_eq_some_iff.mp taken with ⟨⟨after, ptr⟩, result, rfl⟩
      exact (bounded.allocVirtual_effect result).directory
  | freeVirtual ptr =>
      rcases Option.map_eq_some_iff.mp taken with ⟨⟨after, freed⟩, result, rfl⟩
      exact (bounded.freeVirtual_effect result).directory
  | access other =>
      rw [← Option.some.inj taken]
      show (session.memory.access other).mPaging.directory = _
      rw [Memory.access_keeps]

end Step

end Session

end WeakOS
