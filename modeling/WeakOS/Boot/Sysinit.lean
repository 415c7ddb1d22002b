import Mathlib
import WeakOS.Memory.Model

namespace WeakOS

open Foundation

namespace Boot

/-!
# The boot sequence

The layout of `kernel_data`, from which its size follows, and the part of
`sysinit` that sets up paging and memory.  The descriptor tables, the screen,
the keyboard and the disk that `sysinit` also initialises do not touch the
state of the memory manager.
-/

/-- Size and alignment of a member. -/
structure Member where
  size : Nat
  alignment : Nat
  deriving DecidableEq, Repr

/-- The offset behind a member that is placed at the next aligned offset. -/
def place (offset : Nat) (member : Member) : Nat :=
  (offset + (member.alignment - 1)) / member.alignment * member.alignment + member.size

/-- The size of a structure without padding at its end. -/
def offsetAfter (members : List Member) : Nat := members.foldl place 0

def kernelReservedBytes : Nat := 0x400000

def kernelStackSize : Nat := 0x40000

def kernelIsrStackSize : Nat := 0x40000

def pageStructureAlignment : Nat := 0x1000

/-- `paging_info`: the directory and the tables. -/
def pagingInfo : Member :=
  ⟨4 * pageDirectoryEntryCount + 4 * pageTableEntryCount * pageDirectoryEntryCount,
    pageStructureAlignment⟩

/-- `idt_info`: the packed register image and 256 packed entries. -/
def idtInfo : Member := ⟨6 + 8 * 0x100, 1⟩

/-- `mem_info`: packed firmware entries, the bitmap and the region pool. -/
def memInfo : Member := ⟨20 * memMaxBiosRgns + memPageCount / 8 + 20 * memPageCount, 4⟩

/-- `gdt_info`: the packed register image, 16 entries and one task state. -/
def gdtInfo : Member := ⟨6 + 8 * 16 + 104, 1⟩

/-- The members of `kernel_data` in order. -/
def kernelData : List Member :=
  [⟨kernelReservedBytes, 1⟩, pagingInfo, idtInfo, memInfo, gdtInfo, ⟨4 * kernelStackSize, 4⟩,
    ⟨4 * kernelIsrStackSize, 4⟩]

/-- The structure is padded to the alignment of its strictest member. -/
def sizeofKernelData : Nat := place (offsetAfter kernelData) ⟨0, pageStructureAlignment⟩

theorem sizeofKernelData_eq : sizeofKernelData = 0x1e23000 := by decide

/-- The address of `data->paging`; `data` is the null pointer. -/
def pagingAddr : Nat := kernelReservedBytes

/-- `sysinit`, up to the reservations. -/
def sysinit (memory : Memory) (rgns : List MemBiosRgn) : Option Memory :=
  let memory := { memory with mPaging := Paging.init pagingAddr memory.mPaging }
  let memory := memory.preinit rgns
  let memory := memory.disablePhysical 0 sizeofKernelData
  (memory.disableVirtual 0 0x40000000).bind fun memory =>
    (memory.disableVirtual 0x80000000 0x40000000).bind fun memory =>
      memory.disableVirtual 0xc0000000 0x40000000

end Boot

end WeakOS
