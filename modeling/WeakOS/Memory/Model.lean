import Mathlib
import WeakOS.Foundation.Bitmap
import WeakOS.Foundation.LinkedPool
import WeakOS.Foundation.Run
import WeakOS.Paging.Model

namespace WeakOS

open Foundation

/-!
# The memory manager

The physical frame bitmap, the page tables and the virtual region list of
`memory.cpp`, with the functions that change them.

A region pointer is a slot of the pool `m_rgns`, and the null pointer is
`none`; a pointer to anything else cannot be built.  A scan that leaves the
pool has no result, and neither has a traversal of a cyclic list.  A write
through the null pointer leaves the region table as it is: page zero is mapped,
and the region table is not on it.

Two components of the state are not kernel variables.  `tlb` is what the
processor has cached, which `mem_invlpg` changes, and `mapCalls` records the
pages `map_page` has been called with, the latest first.
-/

/-- `mem_bios_rgn_type`, an enumeration over `uint32_t` that the firmware may
fill with a code outside the list. -/
inductive MemBiosRgnType where
  | usable
  | reserved
  | acpiReclaimable
  | acpiNvs
  | bad
  | other (code : BitVec 32)
  deriving DecidableEq, Repr

structure MemBiosRgn where
  base : BitVec 64
  length : BitVec 64
  type : MemBiosRgnType
  deriving DecidableEq, Repr

inductive MemVirtRgnType where
  | none
  | free
  | used
  | disabled
  deriving DecidableEq, Repr

theorem ne_none_of_free {type : MemVirtRgnType} (isFree : type = .free) : type ≠ .none := by
  rw [isFree]
  exact MemVirtRgnType.noConfusion

theorem ne_none_of_used {type : MemVirtRgnType} (used : type = .used) : type ≠ .none := by
  rw [used]
  exact MemVirtRgnType.noConfusion

def memMaxBiosRgns : Nat := 0x100

/-- Pages of the 4 GiB address space. -/
def memPageCount : Nat := 2 ^ 31 / 0x1000 * 2

def memMaxVirtRgns : Nat := memPageCount

theorem memPageCount_eq : memPageCount = 0x100000 := rfl

instance : NeZero memMaxVirtRgns := ⟨by decide⟩

/-- A slot of the region pool. -/
abbrev Slot := Fin memMaxVirtRgns

structure MemVirtRgn where
  prev : Option Slot
  type : MemVirtRgnType
  base : Nat
  length : Nat
  next : Option Slot
  deriving DecidableEq, Repr

/-- A slot as `memset` leaves it. -/
def MemVirtRgn.zero : MemVirtRgn := ⟨none, .none, 0, 0, none⟩

/-- The pool of regions. -/
abbrev Regions := Slot → MemVirtRgn

namespace Regions

/-- Overwrite fields of one slot. -/
def modify (rgns : Regions) (slot : Slot) (change : MemVirtRgn → MemVirtRgn) : Regions :=
  Function.update rgns slot (change (rgns slot))

/-- The same through a pointer that may be null. -/
def modifyAt (rgns : Regions) (pointer : Option Slot) (change : MemVirtRgn → MemVirtRgn) : Regions :=
  match pointer with
  | none => rgns
  | some slot => rgns.modify slot change

/-- `get_unused`: scan the pool for a slot of type `none`. -/
def getUnused (rgns : Regions) : Option Slot :=
  (Search.first (fun index => decide ((rgns (Fin.ofNat _ index)).type = .none)) memMaxVirtRgns).map
    (Fin.ofNat _)

end Regions

structure Memory where
  mPages : Bitmap
  mPaging : PagingInfo
  mRgns : Regions
  mFirstRgn : Option Slot
  tlb : Nat → Option Nat
  mapCalls : List Nat

/-- A machine whose memory is all zero, before anything has run on it. -/
def Memory.zero : Memory where
  mPages := fun _ => 0
  mPaging := ⟨fun _ => ⟨0, 0⟩, fun _ => PageTableEntry.zero⟩
  mRgns := fun _ => MemVirtRgn.zero
  mFirstRgn := none
  tlb := fun _ => none
  mapCalls := []

def alignUp (value alignment : Nat) : Nat := Word.alignUp 32 value alignment

namespace Memory

/-! ## Physical frames -/

/-- One past the last frame that `[base, base + length)` touches, in `uint32_t`. -/
def maxPage (base length : Nat) : Nat :=
  alignUp (u32 (base + length)) 0x1000 / 0x1000

/-- The loop over the frames of a byte range that `enable_physical` and
`disable_physical` share.  It is only unfolded by name: on numerals the loop
would be run. -/
@[irreducible] def forFrames (update : Bitmap → Nat → Bitmap) (base length : Nat) (pages : Bitmap) : Bitmap :=
  Bitmap.forRange update (maxPage base length - base / 0x1000) (base / 0x1000) pages

def enablePhysical (memory : Memory) (base length : Nat) : Memory :=
  { memory with mPages := forFrames Bitmap.set base length memory.mPages }

def disablePhysical (memory : Memory) (base length : Nat) : Memory :=
  { memory with mPages := forFrames Bitmap.clear base length memory.mPages }

/-- `load_bios_rgns`: the firmware's table, padded to the size of the array.  The
entries of a longer table run over into the bitmap, which is cleared next. -/
def loadBiosRgns (rgns : List MemBiosRgn) : List MemBiosRgn :=
  List.take memMaxBiosRgns (rgns ++ List.replicate (memMaxBiosRgns - rgns.length) ⟨0, 0, .bad⟩)

/-- An entry that reaches past 4 GiB is cut off there. -/
def clipRgn (rgn : MemBiosRgn) : MemBiosRgn :=
  if 0xffffffff < rgn.base + rgn.length then { rgn with length := 0xffffffff - rgn.base + 1 }
  else rgn

/-- The body of the loop over the firmware's table in `preinit`.  Base and
length are truncated when they are passed as `uint32_t`. -/
def enableRgn (memory : Memory) (rgn : MemBiosRgn) : Memory :=
  if rgn.type ≠ .usable then memory
  else if rgn.length = 0 then memory
  else if 0xffffffff < rgn.base then memory
  else
    let rgn := clipRgn rgn
    memory.enablePhysical (rgn.base.toNat % 2 ^ 32) (rgn.length.toNat % 2 ^ 32)

/-- `preinit`, with the firmware's table as its argument. -/
def preinit (memory : Memory) (rgns : List MemBiosRgn) : Memory :=
  let cleared : Memory :=
    { memory with
      mPages := fun byte => if byte < memPageCount / 8 then 0 else memory.mPages byte
      mRgns := fun _ => MemVirtRgn.zero }
  let enabled := (loadBiosRgns rgns).foldl enableRgn cleared
  { enabled with
    mFirstRgn := some 0
    mRgns := enabled.mRgns.modify 0 (fun rgn => { rgn with type := .free, length := memPageCount }) }

/-! ## Mapping pages -/

/-- `mem_invlpg`: drop the cached translation of the page at `addr`. -/
def invlpg (memory : Memory) (addr : Nat) : Memory :=
  { memory with tlb := Function.update memory.tlb (addr / 0x1000) none }

/-- The entry that `PAGEOF(page)` points to. -/
def entry (memory : Memory) (page : Nat) : PageTableEntry := memory.mPaging.tables page

def setEntry (memory : Memory) (page : Nat) (entry : PageTableEntry) : Memory :=
  { memory with
    mPaging := { memory.mPaging with tables := Function.update memory.mPaging.tables page entry } }

/-- `unmap_page`: the frame in the entry becomes free and the flags are
cleared; the address stays in the entry. -/
def unmapPage (memory : Memory) (page : Nat) : Memory :=
  let pageNum := (memory.entry page).frame
  let memory := { memory with mPages := Bitmap.set memory.mPages pageNum }
  let memory := memory.setEntry page { memory.entry page with flagsByte := 0 }
  memory.invlpg (u32 (pageNum * 0x1000))

/-- `map_page`: the loop stops at the lowest free frame. -/
def mapPage (memory : Memory) (page : Nat) : Memory × Bool :=
  let memory := { memory with mapCalls := page :: memory.mapCalls }
  match Bitmap.lowest memory.mPages memPageCount with
  | some i =>
      let memory := { memory with mPages := Bitmap.clear memory.mPages i }
      let memory := memory.setEntry page ⟨PteFlags.genericUser, BitVec.ofNat 20 i⟩
      (memory.invlpg (u32 (page * 0x1000)), true)
  | none => (memory, false)

/-! ## Allocating and freeing virtual regions -/

/-- Follow `next` from the first region to the first one that is accepted. -/
def findRgn (memory : Memory) (accept : MemVirtRgn → Bool) : Option (Option Slot) :=
  LinkedPool.walk (fun slot => (memory.mRgns slot).next) (fun slot => accept (memory.mRgns slot))
    memMaxVirtRgns memory.mFirstRgn

/-- The test of the loop in `alloc_virtual`. -/
def fits (pages : Nat) (rgn : MemVirtRgn) : Bool :=
  decide (rgn.type = .free) && decide (pages ≤ rgn.length)

/-- The test of the loop in `free_virtual`. -/
def startsAt (addr : Nat) (rgn : MemVirtRgn) : Bool :=
  decide (rgn.base = addr) && decide (rgn.type = .used)

/-- The split in `alloc_virtual`: the region keeps its first pages, and an
unused slot takes the rest. -/
def splitRgn (memory : Memory) (rgn : Slot) (pages : Nat) : Option Memory :=
  match memory.mRgns.getUnused with
  | none => none
  | some empty =>
      let r := memory.mRgns rgn
      let rest : MemVirtRgn :=
        { type := .free
          base := u32 (r.base + pages)
          length := u32Sub r.length pages
          next := r.next
          prev := some rgn }
      some { memory with
        mRgns := (memory.mRgns.modify empty (fun _ => rest)).modify rgn
          (fun r => { r with length := pages, next := some empty }) }

/-- The mapping loop of `alloc_virtual` at iteration `i`, with `left`
iterations to go.  On failure the rollback unmaps page `base + i`, once for
each page mapped before. -/
def mapRgn (base : Nat) : (left i : Nat) → Memory → Memory × Bool
  | 0, _, memory => (memory, true)
  | left + 1, i, memory =>
      match memory.mapPage (u32 (base + i)) with
      | (memory, true) => mapRgn base left (i + 1) memory
      | (memory, false) => ((fun memory => memory.unmapPage (u32 (base + i)))^[i] memory, false)

/-- `alloc_virtual`: the resulting state and the returned pointer. -/
def allocVirtual (memory : Memory) (pages : Nat) : Option (Memory × Nat) :=
  match memory.findRgn (fits pages) with
  | none => none
  | some none => some (memory, 0)
  | some (some rgn) =>
      let split :=
        if pages < (memory.mRgns rgn).length then memory.splitRgn rgn pages else some memory
      split.map fun memory =>
        let memory :=
          { memory with mRgns := memory.mRgns.modify rgn (fun r => { r with type := .used }) }
        let r := memory.mRgns rgn
        match mapRgn r.base r.length 0 memory with
        | (memory, true) => (memory, u32 (r.base * 0x1000))
        | (memory, false) => (memory, 0)

/-- The loop of `free_virtual` that unmaps the pages of a region. -/
def unmapRgn (base : Nat) : (left i : Nat) → Memory → Memory
  | 0, _, memory => memory
  | left + 1, i, memory => unmapRgn base left (i + 1) (memory.unmapPage (u32 (base + i)))

/-- `free_virtual`: the resulting state and whether a region was freed. -/
def freeVirtual (memory : Memory) (ptr : Nat) : Option (Memory × Bool) :=
  if ptr % 0x1000 ≠ 0 then some (memory, false)
  else
    match memory.findRgn (startsAt (ptr / 0x1000)) with
    | none => none
    | some none => some (memory, false)
    | some (some rgn) =>
        let r := memory.mRgns rgn
        let memory := unmapRgn r.base r.length 0 memory
        some ({ memory with mRgns := memory.mRgns.modify rgn (fun r => { r with type := .free }) },
          true)

/-! ## Reserving virtual ranges -/

/-- A region that begins in the reserved range and reaches to its end or
beyond: the region becomes disabled, and an unused slot takes what follows. -/
def reserveFront (rgns : Regions) (rgn : Slot) (endaddr : Nat) : Option Regions :=
  let oldlen := (rgns rgn).length
  let rgns := rgns.modify rgn (fun r => { r with length := u32Sub (u32Sub endaddr 1) r.base })
  match rgns.getUnused with
  | none => none
  | some empty =>
      let r := rgns rgn
      let rest : MemVirtRgn :=
        { type := .free
          base := endaddr
          length := u32Sub (u32Sub oldlen r.length) 1
          next := r.next
          prev := some rgn }
      let rgns := rgns.modify empty (fun _ => rest)
      let rgns := rgns.modifyAt rest.next (fun r => { r with prev := some empty })
      some (rgns.modify rgn (fun r => { r with next := some empty, type := .disabled }))

/-- The slot that takes the part of a region in front of the reserved range. -/
def putBefore (rgns : Regions) (rgn : Slot) (length : Nat) : Option (Slot × Regions) :=
  match rgns.getUnused with
  | none => none
  | some before =>
      let r := rgns rgn
      let rest : MemVirtRgn :=
        { type := .free, base := r.base, length := length, next := some rgn, prev := r.prev }
      let rgns := rgns.modify before (fun _ => rest)
      some (before, rgns.modifyAt rest.prev (fun r => { r with next := some before }))

/-- The slot that takes the part of a region behind the reserved range. -/
def putAfter (rgns : Regions) (rgn : Slot) (endaddr length : Nat) : Option Regions :=
  match rgns.getUnused with
  | none => none
  | some after =>
      let r := rgns rgn
      let rest : MemVirtRgn :=
        { type := .free, base := endaddr, length := length, next := r.next, prev := some rgn }
      let rgns := rgns.modify after (fun _ => rest)
      let rgns := rgns.modifyAt rest.next (fun r => { r with prev := some after })
      some (rgns.modify rgn (fun r => { r with next := some after }))

/-- A region that begins in front of the reserved range and reaches to its end
or beyond: a slot in front, possibly a slot behind, and the region itself
becomes the disabled middle. -/
def reserveMiddle (rgns : Regions) (rgn : Slot) (addr pages endaddr : Nat) : Option Regions :=
  let beforeLength := u32Sub (u32Sub addr (rgns rgn).base) 1
  match putBefore rgns rgn beforeLength with
  | none => none
  | some (before, rgns) =>
      let r := rgns rgn
      let cut :=
        if endaddr < u32 (r.base + r.length) then
          putAfter rgns rgn endaddr (u32Sub (u32Sub r.length pages) beforeLength)
        else some rgns
      cut.map fun rgns => rgns.modify rgn (fun r =>
        { r with
          base := u32 (r.base + (beforeLength + 1))
          length := pages
          prev := some before
          type := .disabled })

/-- A region that begins in front of the reserved range and ends inside it. -/
def reserveBack (rgns : Regions) (rgn : Slot) (addr : Nat) : Option Regions :=
  let beforeLength := u32Sub addr (rgns rgn).base
  match putBefore rgns rgn beforeLength with
  | none => none
  | some (before, rgns) =>
      some (rgns.modify rgn (fun r =>
        { r with prev := some before, length := u32Sub r.length beforeLength, type := .disabled }))

/-- The traversal of `disable_virtual`.  It follows the list while it changes
it: at most one slot is added behind the region being visited. -/
def disableLoop (addr pages endaddr : Nat) : Nat → Option Slot → Regions → Option Regions
  | _, none, rgns => some rgns
  | 0, some _, _ => none
  | fuel + 1, some slot, rgns =>
      let rgn := rgns slot
      let continue_ (rgns : Regions) := disableLoop addr pages endaddr fuel (rgns slot).next rgns
      if rgn.type = .disabled ∨ rgn.type = .none then continue_ rgns
      else if addr ≤ rgn.base then
        if endaddr ≤ rgn.base then continue_ rgns
        else if u32 (rgn.base + rgn.length) < endaddr then
          continue_ (rgns.modify slot (fun r => { r with type := .disabled }))
        else (reserveFront rgns slot endaddr).bind continue_
      else if u32Sub (u32 (rgn.base + rgn.length)) 1 < addr then continue_ rgns
      else if endaddr ≤ u32 (rgn.base + rgn.length) then reserveMiddle rgns slot addr pages endaddr
      else (reserveBack rgns slot addr).bind continue_

/-- `disable_virtual`. -/
def disableVirtual (memory : Memory) (addr length : Nat) : Option Memory :=
  let pages := alignUp length 0x1000 / 0x1000
  if addr % 0x1000 ≠ 0 then some memory
  else
    (disableLoop (addr / 0x1000) pages (u32 (addr / 0x1000 + pages)) (memMaxVirtRgns + 1)
      memory.mFirstRgn memory.mRgns).map fun rgns => { memory with mRgns := rgns }

end Memory

/-! ## The machine that the rest of the kernel drives -/

/-- What happens to the memory manager from outside: the two calls, and a
memory access by any code. -/
inductive Event where
  | allocVirtual (pages : Nat)
  | freeVirtual (ptr : Nat)
  | access (page : Nat)
  deriving DecidableEq, Repr

/-- A range of pages handed out by a call that returned a pointer. -/
structure Allocation where
  ptr : Nat
  pages : Nat
  deriving DecidableEq, Repr

/-- The manager together with the allocations that are still live. -/
structure Session where
  memory : Memory
  live : List Allocation

namespace Memory

/-- An access to a page whose entry is present caches its translation. -/
def access (memory : Memory) (page : Nat) : Memory :=
  if page < memPageCount ∧ (memory.entry page).present = true then
    { memory with tlb := Function.update memory.tlb page (some (memory.entry page).frame) }
  else memory

/-- The length of the region that freeing `ptr` would free. -/
def lengthAt (memory : Memory) (ptr : Nat) : Option Nat :=
  match memory.findRgn (startsAt (ptr / 0x1000)) with
  | some (some rgn) => some (memory.mRgns rgn).length
  | _ => none

end Memory

namespace Session

/-- One event.  An allocation becomes live when its call returns a pointer,
and stops being live when its region is freed.  The region is identified by
pointer and length, since an empty allocation shares its pointer with the
allocation that follows it. -/
def step (session : Session) : Event → Option Session
  | .allocVirtual pages =>
      (session.memory.allocVirtual pages).map fun result =>
        { memory := result.1
          live := if result.2 = 0 then session.live else ⟨result.2, pages⟩ :: session.live }
  | .freeVirtual ptr =>
      (session.memory.freeVirtual ptr).map fun result =>
        { memory := result.1
          live := if result.2 then session.live.filter (fun item =>
              item.ptr ≠ ptr ∨ some item.pages ≠ session.memory.lengthAt ptr)
            else session.live }
  | .access page => some { session with memory := session.memory.access page }

/-- Run a sequence of events. -/
abbrev run : Session → List Event → Option Session := Run.run step

end Session

end WeakOS
