import Mathlib
import WeakOS.Paging.Model

namespace WeakOS

open Foundation

namespace Paging

/-!
# Translation through the installed directory

The directory that `paging::init` writes has nineteen fixed entries of 4 MiB.
Translating a page through one of them is arithmetic on the page number; all
other pages go through a table.
-/

section Walk

variable {directory : Nat → PageDirectoryEntry} {readEntry : Nat → Option PageTableEntry}
  {page index : Nat} {entry : PageDirectoryEntry}

/-- The directory index of a page. -/
theorem shift_eq_div (page : Nat) : page >>> 10 = page / 0x400 :=
  Nat.shiftRight_eq_div_pow page 10

/-- Only the entry of the page plays a part. -/
theorem walk_congr {other : Nat → PageDirectoryEntry} (same : directory (page / 0x400) = other (page / 0x400)) :
    walk directory readEntry page = walk other readEntry page := by
  simp only [walk, shift_eq_div, same]

/-- A 4 MiB entry translates all of its pages. -/
theorem walk_big (location : page / 0x400 = index) (found : directory index = entry)
    (present : entry.present = true) (big : entry.pageSize = true) :
    walk directory readEntry page = some (bigPageFrame entry page) := by
  unfold walk
  rw [shift_eq_div, location, found, if_pos present, if_pos big]

/-- Any other present entry leads to a table. -/
theorem walk_table (location : page / 0x400 = index) (found : directory index = entry)
    (present : entry.present = true) (small : entry.pageSize = false) :
    walk directory readEntry page =
      (readEntry (entry.address.toNat * 0x1000 + 4 * (page % 0x400))).bind fun leaf =>
        if leaf.present then some leaf.frame else none := by
  unfold walk
  rw [shift_eq_div, location, found, if_pos present, if_neg (by rw [small]; exact Bool.false_ne_true)]

end Walk

/-- Entries that no call writes keep what the loop has written. -/
theorem foldl_setDirectory_of_ne {entries : List (Nat × Flags × Nat)}
    {directory : Nat → PageDirectoryEntry} {index : Nat}
    (other : ∀ entry ∈ entries, index ≠ entry.1) :
    entries.foldl (fun directory entry => setDirectory directory entry.1 entry.2.1 entry.2.2) directory
      index = directory index := by
  induction entries generalizing directory with
  | nil => rfl
  | cons entry rest inductionHypothesis =>
      rw [List.foldl_cons, inductionHypothesis (fun later member =>
        other later (List.mem_cons_of_mem entry member))]
      exact Function.update_of_ne (other entry List.mem_cons_self) _ _

section Init

variable (info : Nat) (paging : PagingInfo)

/-- The fixed entries for the second 4 MiB and the thirteen ranges behind. -/
theorem init_data {index : Nat} (above : 1 ≤ index) (below : index ≤ 14) :
    (init info paging).directory index =
      ⟨PdeFlags.generic4mb, BitVec.ofNat 20 (0x800 + 0x400 * index)⟩ := by
  interval_cases index <;> rfl

theorem init_zero : (init info paging).directory 0 = ⟨PdeFlags.generic4mb, 0⟩ := rfl

/-- The kernel image. -/
theorem init_image : (init info paging).directory 0x300 = ⟨PdeFlags.generic4mb, 0x400⟩ := rfl

/-- The kernel stack. -/
theorem init_stack : (init info paging).directory 0x3ff = ⟨PdeFlags.generic4mb, 0x800⟩ := rfl

/-- A fixed entry for user code inside the second GiB. -/
theorem init_user : (init info paging).directory 0x17f = ⟨PdeFlags.genericUser4mb, 0x4800⟩ := rfl

/-- The other entries of the second GiB lead to the tables. -/
theorem init_table {index : Nat} (above : 0x100 ≤ index) (below : index < 0x200)
    (notFixed : index ≠ 0x17f) :
    (init info paging).directory index =
      ⟨PdeFlags.genericUser, BitVec.ofNat 20 (u32 (tableAddr info index + 0x800000) >>> 12)⟩ := by
  have indices : fixedEntries.map Prod.fst =
      [0, 1, 2, 3, 4, 5, 6, 7, 8, 9, 10, 11, 12, 13, 14, 0x300, 0x3ff, 0x200, 0x17f] := rfl
  have other : ∀ entry ∈ fixedEntries, index ≠ entry.1 := by
    intro entry member same
    have listed : index ∈ fixedEntries.map Prod.fst := same ▸ List.mem_map_of_mem member
    rw [indices] at listed
    simp only [List.mem_cons, List.not_mem_nil, or_false] at listed
    omega
  have inDirectory : index < pageDirectoryEntryCount := Nat.lt_trans below (by decide)
  have user : 0x100 ≤ index ∧ index < 0x300 := by omega
  simp only [init]
  rw [foldl_setDirectory_of_ne other, tableEntries, if_pos inDirectory, if_pos user]

end Init

section Installed

variable {info : Nat} {paging : PagingInfo} {readEntry : Nat → Option PageTableEntry} {page : Nat}

/-- Pages below 60 MiB: the first 4 MiB are where they seem to be, the others
8 MiB higher. -/
theorem walk_data (below : page < 0x3c00) :
    walk (init info paging).directory readEntry page =
      some (if page < 0x400 then page else page + 0x800) := by
  by_cases first : page < 0x400
  · rw [if_pos first, walk_big (by omega) (init_zero info paging) (by decide) (by decide)]
    refine congrArg some ?_
    show 0 / 0x400 * 0x400 + page % 0x400 = page
    omega
  · have small : 0x800 + 0x400 * (page / 0x400) < 2 ^ 20 := by omega
    rw [if_neg first, walk_big rfl (init_data info paging (by omega) (by omega))
      (by decide : PdeFlags.generic4mb.getLsbD 0 = true)
      (by decide : PdeFlags.generic4mb.getLsbD 7 = true)]
    refine congrArg some ?_
    unfold bigPageFrame
    rw [BitVec.toNat_ofNat, Nat.mod_eq_of_lt small]
    omega

/-- The 4 MiB at the kernel image. -/
theorem walk_image (above : 0xc0000 ≤ page) (below : page < 0xc0400) :
    walk (init info paging).directory readEntry page = some (page - 0xc0000 + 0x400) := by
  rw [walk_big (by omega) (init_image info paging) (by decide) (by decide)]
  refine congrArg some ?_
  show 0x400 / 0x400 * 0x400 + page % 0x400 = page - 0xc0000 + 0x400
  omega

/-- The 4 MiB at the kernel stack. -/
theorem walk_stack (above : 0xffc00 ≤ page) (below : page < 0x100000) :
    walk (init info paging).directory readEntry page = some (page - 0xffc00 + 0x800) := by
  rw [walk_big (by omega) (init_stack info paging) (by decide) (by decide)]
  refine congrArg some ?_
  show 0x800 / 0x400 * 0x400 + page % 0x400 = page - 0xffc00 + 0x800
  omega

/-- The 4 MiB in the second GiB that the fixed entry takes. -/
theorem walk_user (above : 0x5fc00 ≤ page) (below : page < 0x60000) :
    walk (init info paging).directory readEntry page = some (page - 0x5fc00 + 0x4800) := by
  rw [walk_big (by omega) (init_user info paging) (by decide) (by decide)]
  refine congrArg some ?_
  show 0x4800 / 0x400 * 0x400 + page % 0x400 = page - 0x5fc00 + 0x4800
  omega

end Installed

end Paging

end WeakOS
