import Mathlib
import WeakOS.Foundation.Word

namespace WeakOS

open Foundation

/-!
# Paging structures and the directory built at boot

The page directory and the page tables as `paging.h` declares them, the
directory that `paging::init` writes, and the translation the processor
performs with it.

The tables are kept flat: entry `page` of the model is entry `page % 1024` of
table `page / 1024`, which is the word that the allocator's `PAGEOF(page)`
addresses.  The `global` and `ignored` bits of an entry are neither read nor
written by the kernel and are left out.
-/

/-- Arithmetic on `uint32_t`. -/
abbrev u32 (value : Nat) : Nat := Word.wrap 32 value

/-- Subtraction on `uint32_t`. -/
abbrev u32Sub (left right : Nat) : Nat := Word.sub 32 left right

/-- Flag bytes of directory and table entries. -/
abbrev Flags := BitVec 8

namespace PdeFlags

def present : Flags := 1
def writeable : Flags := 2
def userVisible : Flags := 4
def page4mb : Flags := 128

def generic : Flags := present ||| writeable
def generic4mb : Flags := page4mb ||| present ||| writeable
def genericUser : Flags := present ||| writeable ||| userVisible
def genericUser4mb : Flags := page4mb ||| present ||| writeable ||| userVisible

end PdeFlags

namespace PteFlags

def present : Flags := 1
def writeable : Flags := 2
def userVisible : Flags := 4

def genericUser : Flags := present ||| writeable ||| userVisible

end PteFlags

structure PageDirectoryEntry where
  flagsByte : Flags
  address : BitVec 20
  deriving DecidableEq, Repr

structure PageTableEntry where
  flagsByte : Flags
  address : BitVec 20
  deriving DecidableEq, Repr

namespace PageDirectoryEntry

def present (entry : PageDirectoryEntry) : Bool := entry.flagsByte.getLsbD 0

def pageSize (entry : PageDirectoryEntry) : Bool := entry.flagsByte.getLsbD 7

end PageDirectoryEntry

namespace PageTableEntry

def present (entry : PageTableEntry) : Bool := entry.flagsByte.getLsbD 0

/-- The frame number stored in the entry. -/
def frame (entry : PageTableEntry) : Nat := entry.address.toNat

/-- An entry the hardware ignores and whose address is zero. -/
def zero : PageTableEntry := ⟨0, 0⟩

end PageTableEntry

def pageDirectoryEntryCount : Nat := 0x400

def pageTableEntryCount : Nat := 0x400

structure PagingInfo where
  directory : Nat → PageDirectoryEntry
  tables : Nat → PageTableEntry

namespace Paging

/-- `DIRECTORY_FOR`. -/
def directoryFor (addr : Nat) : Nat := addr >>> 22

/-- `PSE_ADDR`. -/
def pseAddr (addr : Nat) : Nat := (addr &&& 0xffc00000) >>> 12

/-- `set_directory`: the address is stored in a field of twenty bits. -/
def setDirectory (directory : Nat → PageDirectoryEntry) (index : Nat) (flags : Flags)
    (addr : Nat) : Nat → PageDirectoryEntry :=
  Function.update directory index ⟨flags, BitVec.ofNat 20 addr⟩

/-- The `set_directory` calls of `paging::init`, in order. -/
def fixedEntries : List (Nat × Flags × Nat) :=
  [(0, PdeFlags.generic4mb, 0),
    (1, PdeFlags.generic4mb, pseAddr 0x0c00000),
    (2, PdeFlags.generic4mb, pseAddr 0x1000000),
    (3, PdeFlags.generic4mb, pseAddr 0x1400000),
    (4, PdeFlags.generic4mb, pseAddr 0x1800000),
    (5, PdeFlags.generic4mb, pseAddr 0x1c00000),
    (6, PdeFlags.generic4mb, pseAddr 0x2000000),
    (7, PdeFlags.generic4mb, pseAddr 0x2400000),
    (8, PdeFlags.generic4mb, pseAddr 0x2800000),
    (9, PdeFlags.generic4mb, pseAddr 0x2c00000),
    (10, PdeFlags.generic4mb, pseAddr 0x3000000),
    (11, PdeFlags.generic4mb, pseAddr 0x3400000),
    (12, PdeFlags.generic4mb, pseAddr 0x3800000),
    (13, PdeFlags.generic4mb, pseAddr 0x3c00000),
    (14, PdeFlags.generic4mb, pseAddr 0x4000000),
    (directoryFor 0xc0000000, PdeFlags.generic4mb, pseAddr 0x400000),
    (directoryFor 0xffc00000, PdeFlags.generic4mb, pseAddr 0x800000),
    (directoryFor 0x80000000, PdeFlags.genericUser4mb, pseAddr 0x4400000),
    (directoryFor 0x5fc00000, PdeFlags.genericUser4mb, pseAddr 0x4800000)]

/-- Virtual address of table `index` when the paging information is at `info`:
the tables follow the directory, one page each. -/
def tableAddr (info index : Nat) : Nat :=
  info + 4 * pageDirectoryEntryCount + 4 * pageTableEntryCount * index

/-- The loop of `paging::init`, before the fixed entries are written. -/
def tableEntries (info : Nat) (old : Nat → PageDirectoryEntry) (index : Nat) : PageDirectoryEntry :=
  if index < pageDirectoryEntryCount then
    { flagsByte := if 0x100 ≤ index ∧ index < 0x300 then PdeFlags.genericUser else PdeFlags.generic
      address := BitVec.ofNat 20 (u32 (tableAddr info index + 0x800000) >>> 12) }
  else old index

/-- `paging::init` on the paging information at virtual address `info`. -/
def init (info : Nat) (paging : PagingInfo) : PagingInfo :=
  { paging with
    directory := fixedEntries.foldl
      (fun directory entry => setDirectory directory entry.1 entry.2.1 entry.2.2)
      (tableEntries info paging.directory) }

/-! ## The hardware walk -/

/-- The frame behind a page of a 4 MiB directory entry: the entry supplies the
upper ten bits of the frame number, the page the lower ten. -/
def bigPageFrame (entry : PageDirectoryEntry) (page : Nat) : Nat :=
  entry.address.toNat / 0x400 * 0x400 + page % 0x400

/-- Translate a virtual page.  `readEntry` reads the table entry at a physical
address; a 4 MiB directory entry is used without reading one. -/
def walk (directory : Nat → PageDirectoryEntry) (readEntry : Nat → Option PageTableEntry)
    (page : Nat) : Option Nat :=
  let entry := directory (page >>> 10)
  if entry.present then
    if entry.pageSize then some (bigPageFrame entry page)
    else
      (readEntry (entry.address.toNat * 0x1000 + 4 * (page % 0x400))).bind fun leaf =>
        if leaf.present then some leaf.frame else none
  else none

end Paging

end WeakOS
