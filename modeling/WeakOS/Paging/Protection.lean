import Mathlib
import WeakOS.Paging.Walk

namespace WeakOS

open Foundation

/-!
# What a program may reach

In ring 3 the walk needs the bit for user code in every entry on its way.  The
directory that `paging::init` builds has it in the second and the third GiB only,
and two of the entries there are fixed.
-/

namespace PageDirectoryEntry

def userVisible (entry : PageDirectoryEntry) : Bool := entry.flagsByte.getLsbD 2

end PageDirectoryEntry

namespace PageTableEntry

def userVisible (entry : PageTableEntry) : Bool := entry.flagsByte.getLsbD 2

end PageTableEntry

namespace Paging

/-- The walk for a program in ring 3. -/
def userWalk (directory : Nat → PageDirectoryEntry) (readEntry : Nat → Option PageTableEntry)
    (page : Nat) : Option Nat :=
  let entry := directory (page >>> 10)
  if entry.present && entry.userVisible then
    if entry.pageSize then some (bigPageFrame entry page)
    else
      (readEntry (entry.address.toNat * 0x1000 + 4 * (page % 0x400))).bind fun leaf =>
        if leaf.present && leaf.userVisible then some leaf.frame else none
  else none

section UserWalk

variable {directory : Nat → PageDirectoryEntry} {readEntry : Nat → Option PageTableEntry}
  {page frame : Nat}

/-- What a program reaches, the kernel reaches at the same place. -/
theorem walk_of_userWalk (walks : userWalk directory readEntry page = some frame) :
    walk directory readEntry page = some frame := by
  simp only [userWalk, Bool.and_eq_true, Option.ite_none_right_eq_some] at walks
  rcases walks with ⟨⟨present, _⟩, walks⟩
  unfold walk
  simp only [present, if_true]
  split at walks
  · rename_i big
    rw [if_pos big]
    exact walks
  · rename_i small
    rw [if_neg small]
    rcases Option.bind_eq_some_iff.mp walks with ⟨leaf, read, last⟩
    rcases (Option.ite_none_right_eq_some ..).mp last with ⟨⟨leafPresent, _⟩, same⟩
    rw [read, Option.bind_some, if_pos leafPresent]
    exact same

theorem userVisible_of_userWalk (walks : userWalk directory readEntry page = some frame) :
    (directory (page / 0x400)).userVisible = true := by
  simp only [userWalk, Bool.and_eq_true, Option.ite_none_right_eq_some, shift_eq_div] at walks
  exact walks.1.2

/-- A table for user code is looked into. -/
theorem userWalk_table {index : Nat} {entry : PageDirectoryEntry} (location : page / 0x400 = index)
    (found : directory index = entry) (present : entry.present = true)
    (user : entry.userVisible = true) (small : entry.pageSize = false) :
    userWalk directory readEntry page =
      (readEntry (entry.address.toNat * 0x1000 + 4 * (page % 0x400))).bind fun leaf =>
        if leaf.present && leaf.userVisible then some leaf.frame else none := by
  unfold userWalk
  rw [shift_eq_div, location, found, if_pos (by rw [present, user]; rfl),
    if_neg (by rw [small]; exact Bool.false_ne_true)]

end UserWalk

/-- An entry is one that a call has written, or what the loop has written. -/
theorem foldl_setDirectory_cases (entries : List (Nat × Flags × Nat))
    (directory : Nat → PageDirectoryEntry) (index : Nat) :
    entries.foldl (fun directory entry => setDirectory directory entry.1 entry.2.1 entry.2.2) directory
        index = directory index ∨
      ∃ entry ∈ entries, entry.1 = index ∧
        entries.foldl (fun directory entry => setDirectory directory entry.1 entry.2.1 entry.2.2)
          directory index = ⟨entry.2.1, BitVec.ofNat 20 entry.2.2⟩ := by
  induction entries generalizing directory with
  | nil => exact Or.inl rfl
  | cons entry rest inductionHypothesis =>
      rw [List.foldl_cons]
      rcases inductionHypothesis (setDirectory directory entry.1 entry.2.1 entry.2.2) with
        same | ⟨other, member, here, written⟩
      · rw [same, setDirectory, Function.update_apply]
        split
        · rename_i here
          exact Or.inr ⟨entry, List.mem_cons_self, here.symm, rfl⟩
        · exact Or.inl rfl
      · exact Or.inr ⟨other, List.mem_cons_of_mem _ member, here, written⟩

section Init

variable (info : Nat) (paging : PagingInfo)

/-- Only two of the fixed entries are for user code. -/
theorem fixedEntries_user : ∀ entry ∈ fixedEntries, entry.2.1.getLsbD 2 = true →
    entry = (0x200, PdeFlags.genericUser4mb, 0x4400) ∨ entry = (0x17f, PdeFlags.genericUser4mb, 0x4800) := by
  decide

/-- The entries for user code: the tables of the second and the third GiB, and the two fixed
ones. -/
theorem init_userVisible {index : Nat} (small : index < pageDirectoryEntryCount)
    (user : ((init info paging).directory index).userVisible = true) :
    0x100 ≤ index ∧ index < 0x300 ∧
      ((init info paging).directory index =
          ⟨PdeFlags.genericUser, BitVec.ofNat 20 (u32 (tableAddr info index + 0x800000) >>> 12)⟩ ∨
        (init info paging).directory index = ⟨PdeFlags.genericUser4mb, 0x4400⟩ ∨
        (init info paging).directory index = ⟨PdeFlags.genericUser4mb, 0x4800⟩) := by
  rcases foldl_setDirectory_cases fixedEntries (tableEntries info paging.directory) index with
    table | ⟨entry, member, here, written⟩
  · have looped : (init info paging).directory index = tableEntries info paging.directory index := table
    rw [looped, tableEntries, if_pos small] at user ⊢
    by_cases inside : 0x100 ≤ index ∧ index < 0x300
    · rw [if_pos inside]
      exact ⟨inside.1, inside.2, Or.inl rfl⟩
    · rw [if_neg inside] at user
      exact absurd user (show ¬ PdeFlags.generic.getLsbD 2 = true by decide)
  · have fixed : (init info paging).directory index = ⟨entry.2.1, BitVec.ofNat 20 entry.2.2⟩ := written
    rw [fixed] at user ⊢
    rcases fixedEntries_user entry member user with rfl | rfl
    · exact ⟨by omega, by omega, Or.inr (Or.inl rfl)⟩
    · exact ⟨by omega, by omega, Or.inr (Or.inr rfl)⟩

end Init

end Paging

end WeakOS
