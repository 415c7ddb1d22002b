import Mathlib

namespace Foundation

/-!
# Exclusive ownership of resources

Holders take resources out of a free set and give them back.  The record of
what a holder holds is a function that is meaningful only on the current
holders: it may keep stale values elsewhere, so every statement is restricted
to the held set.

`Owns` says that no two holders share a resource, that a held resource is not
free, and that the free and the held resources together are a fixed total.
Taking and giving back keep all three.
-/

variable {Holder Resource : Type*}

/-- Exclusive ownership with a fixed total. -/
structure Owns (free : Set Resource) (resource : Holder → Resource) (held : Set Holder)
    (total : Set Resource) : Prop where
  exclusive : Set.InjOn resource held
  taken : ∀ holder ∈ held, resource holder ∉ free
  accounted : free ∪ resource '' held = total

namespace Owns

variable {free free' total : Set Resource} {resource resource' : Holder → Resource}
  {held held' : Set Holder}

/-- Nothing is held at the start: the total is what is free. -/
theorem start (free : Set Resource) (resource : Holder → Resource) :
    Owns free resource ∅ free :=
  ⟨Set.injOn_empty resource, fun _ member => member.elim,
    by rw [Set.image_empty, Set.union_empty]⟩

theorem congr_held (owns : Owns free resource held total) (same : held' = held) :
    Owns free resource held' total :=
  same ▸ owns

/-- Only the recorded resources of the current holders matter. -/
theorem congr_resource (owns : Owns free resource held total)
    (same : Set.EqOn resource resource' held) : Owns free resource' held total where
  exclusive := owns.exclusive.congr same
  taken := fun holder member => same member ▸ owns.taken holder member
  accounted := by rw [← same.image_eq]; exact owns.accounted

/-- A new holder takes one free resource. -/
theorem take (owns : Owns free resource held total) {holder : Holder} (new : holder ∉ held)
    (isFree : resource' holder ∈ free) (same : Set.EqOn resource resource' held) :
    Owns (free \ {resource' holder}) resource' (insert holder held) total := by
  have old := owns.congr_resource same
  refine ⟨?_, ?_, ?_⟩
  · refine (Set.injOn_insert new).mpr ⟨old.exclusive, ?_⟩
    rintro ⟨other, member, equal⟩
    exact old.taken other member (equal ▸ isFree)
  · intro other member stillFree
    rcases Set.mem_insert_iff.mp member with rfl | member
    · exact stillFree.2 rfl
    · exact old.taken other member stillFree.1
  · rw [← old.accounted, Set.image_insert_eq]
    ext item
    by_cases same : item = resource' holder
    · subst same
      simp [isFree]
    · simp [same]

/-- A holder gives its resource back. -/
theorem give (owns : Owns free resource held total) {holder : Holder} (member : holder ∈ held)
    (same : Set.EqOn resource resource' (held \ {holder})) :
    Owns (insert (resource holder) free) resource' (held \ {holder}) total := by
  have alone : ∀ other ∈ held \ {holder}, resource other ≠ resource holder := fun other inHeld equal =>
    inHeld.2 (owns.exclusive inHeld.1 member equal)
  have remaining : Owns (insert (resource holder) free) resource (held \ {holder}) total := by
    refine ⟨owns.exclusive.mono Set.sdiff_subset, ?_, ?_⟩
    · intro other inHeld isFree
      rcases Set.mem_insert_iff.mp isFree with equal | isFree
      · exact alone other inHeld equal
      · exact owns.taken other inHeld.1 isFree
    · rw [← owns.accounted, Set.insert_union, ← Set.union_insert, ← Set.image_insert_eq,
        Set.insert_sdiff_singleton, Set.insert_eq_of_mem member]
  exact remaining.congr_resource same

/-- When nothing is held any more, everything is free again. -/
theorem free_eq_total (owns : Owns free resource held total) (none : held = ∅) : free = total := by
  rw [← owns.accounted, none, Set.image_empty, Set.union_empty]

end Owns

end Foundation
