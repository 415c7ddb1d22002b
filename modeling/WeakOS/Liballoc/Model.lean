import Mathlib
import WeakOS.X86.Records

namespace WeakOS

open X86

/-!
# The heap

`kmalloc`, `kfree`, `kcalloc` and `krealloc`.  A block of pages from the system
begins with a `liballoc_major`, and each piece of it that is in use begins with
a `liballoc_minor`; both structures are six words, and a field is the index of
its word.  The pages come from two functions of the system, which may change the
memory as well.

The loops over the blocks and over the pieces of a block follow pointers, so
they are given more iterations than there are addresses.
-/

namespace LiballocMajor

def prev : Nat := 0
def next : Nat := 1
def pages : Nat := 2
def size : Nat := 3
def usage : Nat := 4
def first : Nat := 5

/-- `sizeof(struct liballoc_major)`. -/
def bytes : BitVec 32 := 24

end LiballocMajor

namespace LiballocMinor

def prev : Nat := 0
def next : Nat := 1
def block : Nat := 2
def magic : Nat := 3
def size : Nat := 4
def reqSize : Nat := 5

/-- `sizeof(struct liballoc_minor)`. -/
def bytes : BitVec 32 := 24

end LiballocMinor

namespace Liballoc

def alignment : BitVec 32 := 16
def alignInfo : BitVec 32 := 16
def liveMagic : BitVec 32 := 0xc001c0de
def deadMagic : BitVec 32 := 0xdeaddead
def pageSize : BitVec 32 := 4096
def pageCount : BitVec 32 := 16

/-- `liballoc_alloc` and `liballoc_free`. -/
structure Hooks (System : Type) where
  alloc : (pages : BitVec 32) → Mem × System → BitVec 32 × Mem × System
  free : (ptr pages : BitVec 32) → Mem × System → Mem × System

/-- The memory, the variables of the allocator and the state of the system. -/
structure Heap (System : Type) where
  mem : Mem
  memRoot : BitVec 32
  bestBet : BitVec 32
  allocated : BitVec 64
  inuse : BitVec 64
  warningCount : BitVec 64
  errorCount : BitVec 64
  possibleOverruns : BitVec 64
  system : System

namespace Heap

variable {System : Type} (heap : Heap System)

/-- Before the first call. -/
def start (mem : Mem) (system : System) : Heap System := ⟨mem, 0, 0, 0, 0, 0, 0, 0, system⟩

/-- A field of the structure at an address. -/
def get (record : BitVec 32) (i : Nat) : BitVec 32 := field heap.mem record i

def set (record : BitVec 32) (i : Nat) (value : BitVec 32) : Heap System :=
  { heap with mem := setField heap.mem record i value }

def setByte (addr : BitVec 32) (byte : BitVec 8) : Heap System :=
  { heap with mem := Function.update heap.mem addr byte }

end Heap

variable {System : Type} (hooks : Hooks System)

/-! ## Blocks of pages -/

/-- The number of pages for a block with one piece of the given size. -/
def pagesFor (size : BitVec 32) : BitVec 32 :=
  let st := size + LiballocMajor.bytes + LiballocMinor.bytes
  let st := if st % pageSize = 0 then st / pageSize else st / pageSize + 1
  if st < pageCount then pageCount else st

def allocateNewPage (size : BitVec 32) (heap : Heap System) : BitVec 32 × Heap System :=
  let st := pagesFor size
  let (maj, mem, system) := hooks.alloc st (heap.mem, heap.system)
  let heap := { heap with mem := mem, system := system }
  if maj = 0 then (0, { heap with warningCount := heap.warningCount + 1 })
  else
    let heap := heap.set maj LiballocMajor.prev 0
    let heap := heap.set maj LiballocMajor.next 0
    let heap := heap.set maj LiballocMajor.pages st
    let heap := heap.set maj LiballocMajor.size (st * pageSize)
    let heap := heap.set maj LiballocMajor.usage LiballocMajor.bytes
    let heap := heap.set maj LiballocMajor.first 0
    (maj, { heap with
      allocated := heap.allocated + (heap.get maj LiballocMajor.size).setWidth 64 })

/-- The block that is put behind the last one, or null. -/
def appendPage (size maj : BitVec 32) (heap : Heap System) : BitVec 32 × Heap System :=
  let (block, heap) := allocateNewPage hooks size heap
  let heap := heap.set maj LiballocMajor.next block
  if heap.get maj LiballocMajor.next = 0 then (0, heap)
  else
    let heap := heap.set (heap.get maj LiballocMajor.next) LiballocMajor.prev maj
    (heap.get maj LiballocMajor.next, heap)

/-! ## Pieces of a block -/

/-- `ALIGN`: the pointer, and the distance in front of it. -/
def align (p : BitVec 32) (heap : Heap System) : BitVec 32 × Heap System :=
  let p := p + alignInfo
  let diff := p &&& (alignment - 1)
  let (p, diff) := if diff ≠ 0 then (p + (alignment - diff), alignment - diff) else (p, diff)
  (p, heap.setByte (p - alignInfo) ((diff + alignInfo).setWidth 8))

/-- `UNALIGN`; the distance is a `char`. -/
def unalign (ptr : BitVec 32) (heap : Heap System) : BitVec 32 :=
  let diff := (heap.mem (ptr - alignInfo)).signExtend 32
  if diff < alignment + alignInfo then ptr - diff else ptr

section Place

variable (maj size reqSize : BitVec 32)

/-- The common end of the cases: the piece is counted and handed out. -/
def handOut (min : BitVec 32) (heap : Heap System) : BitVec 32 × Heap System :=
  let heap := heap.set maj LiballocMajor.usage
    (heap.get maj LiballocMajor.usage + (size + LiballocMinor.bytes))
  align (min + LiballocMinor.bytes) { heap with inuse := heap.inuse + size.setWidth 64 }

/-- CASE 2: it is a brand new block. -/
def placeFirst (heap : Heap System) : BitVec 32 × Heap System :=
  let min := maj + LiballocMajor.bytes
  let heap := heap.set maj LiballocMajor.first min
  let heap := heap.set min LiballocMinor.magic liveMagic
  let heap := heap.set min LiballocMinor.prev 0
  let heap := heap.set min LiballocMinor.next 0
  let heap := heap.set min LiballocMinor.block maj
  let heap := heap.set min LiballocMinor.size size
  let heap := heap.set min LiballocMinor.reqSize reqSize
  handOut maj size min heap

/-- CASE 3: there is enough space at the start of the block. -/
def placeBefore (heap : Heap System) : BitVec 32 × Heap System :=
  let heap := heap.set (heap.get maj LiballocMajor.first) LiballocMinor.prev
    (maj + LiballocMajor.bytes)
  let heap := heap.set (heap.get (heap.get maj LiballocMajor.first) LiballocMinor.prev)
    LiballocMinor.next (heap.get maj LiballocMajor.first)
  let heap := heap.set maj LiballocMajor.first
    (heap.get (heap.get maj LiballocMajor.first) LiballocMinor.prev)
  let min := heap.get maj LiballocMajor.first
  let heap := heap.set min LiballocMinor.magic liveMagic
  let heap := heap.set min LiballocMinor.prev 0
  let heap := heap.set min LiballocMinor.block maj
  let heap := heap.set min LiballocMinor.size size
  let heap := heap.set min LiballocMinor.reqSize reqSize
  handOut maj size min heap

/-- Behind the header and the memory of a piece. -/
def behind (min : BitVec 32) (heap : Heap System) : BitVec 32 :=
  min + LiballocMinor.bytes + heap.get min LiballocMinor.size

/-- CASE 4.1: there is enough space behind the last piece. -/
def placeLast (min : BitVec 32) (heap : Heap System) : BitVec 32 × Heap System :=
  let heap := heap.set min LiballocMinor.next (behind min heap)
  let heap := heap.set (heap.get min LiballocMinor.next) LiballocMinor.prev min
  let min := heap.get min LiballocMinor.next
  let heap := heap.set min LiballocMinor.next 0
  let heap := heap.set min LiballocMinor.magic liveMagic
  let heap := heap.set min LiballocMinor.block maj
  let heap := heap.set min LiballocMinor.size size
  let heap := heap.set min LiballocMinor.reqSize reqSize
  handOut maj size min heap

/-- CASE 4.2: there is enough space between two pieces. -/
def placeBetween (min : BitVec 32) (heap : Heap System) : BitVec 32 × Heap System :=
  let newMin := behind min heap
  let heap := heap.set newMin LiballocMinor.magic liveMagic
  let heap := heap.set newMin LiballocMinor.next (heap.get min LiballocMinor.next)
  let heap := heap.set newMin LiballocMinor.prev min
  let heap := heap.set newMin LiballocMinor.size size
  let heap := heap.set newMin LiballocMinor.reqSize reqSize
  let heap := heap.set newMin LiballocMinor.block maj
  let heap := heap.set (heap.get min LiballocMinor.next) LiballocMinor.prev newMin
  let heap := heap.set min LiballocMinor.next newMin
  handOut maj size newMin heap

/-- CASE 4: the loop over the pieces.  The inner result is `none` when there is no
gap that is large enough. -/
def minorLoop : (fuel : Nat) → (min : BitVec 32) → Heap System →
    Option (Option (BitVec 32 × Heap System))
  | 0, _, _ => none
  | fuel + 1, min, heap =>
      if min = 0 then some none
      else if heap.get min LiballocMinor.next = 0 then
        let diff := maj + heap.get maj LiballocMajor.size - min - LiballocMinor.bytes -
          heap.get min LiballocMinor.size
        if diff ≥ size + LiballocMinor.bytes then some (some (placeLast maj size reqSize min heap))
        else minorLoop fuel (heap.get min LiballocMinor.next) heap
      else
        let diff := heap.get min LiballocMinor.next - min - LiballocMinor.bytes -
          heap.get min LiballocMinor.size
        if diff ≥ size + LiballocMinor.bytes then some (some (placeBetween maj size reqSize min heap))
        else minorLoop fuel (heap.get min LiballocMinor.next) heap

/-- More iterations than a loop over different addresses can have. -/
def iterations : Nat := 2 ^ 33

/-- CASE 2 to CASE 4. -/
def placeIn (heap : Heap System) : Option (Option (BitVec 32 × Heap System)) :=
  if heap.get maj LiballocMajor.first = 0 then some (some (placeFirst maj size reqSize heap))
  else
    let diff := heap.get maj LiballocMajor.first - maj - LiballocMajor.bytes
    if diff ≥ size + LiballocMinor.bytes then some (some (placeBefore maj size reqSize heap))
    else minorLoop maj size reqSize iterations (heap.get maj LiballocMajor.first) heap

end Place

/-! ## `kmalloc` -/

section Search

variable (size reqSize : BitVec 32)

/-- CASE 2 to CASE 5, with the next iteration as an argument. -/
def visitMajor (again : (maj : BitVec 32) → (startedBet : Bool) → Heap System →
    Option (BitVec 32 × Heap System)) (maj : BitVec 32) (startedBet : Bool) (heap : Heap System) :
    Option (BitVec 32 × Heap System) :=
  (placeIn maj size reqSize heap).bind fun placed =>
    match placed with
    | some result => some result
    | none =>
        if heap.get maj LiballocMajor.next = 0 then
          if startedBet then again heap.memRoot false heap
          else
            let (block, heap) := appendPage hooks size maj heap
            if block = 0 then some (0, heap) else again block startedBet heap
        else again (heap.get maj LiballocMajor.next) startedBet heap

/-- The loop over the blocks. -/
def search : (fuel : Nat) → (maj : BitVec 32) → (bestSize : BitVec 64) → (startedBet : Bool) →
    Heap System → Option (BitVec 32 × Heap System)
  | 0, _, _, _, _ => none
  | fuel + 1, maj, bestSize, startedBet, heap =>
      if maj = 0 then some (0, heap)
      else
        let diff := heap.get maj LiballocMajor.size - heap.get maj LiballocMajor.usage
        let better := bestSize < diff.setWidth 64
        let heap := if better then { heap with bestBet := maj } else heap
        let bestSize := if better then diff.setWidth 64 else bestSize
        if diff < size + LiballocMinor.bytes then
          -- CASE 1; the new block falls through to CASE 2
          if heap.get maj LiballocMajor.next ≠ 0 then
            search fuel (heap.get maj LiballocMajor.next) bestSize startedBet heap
          else if startedBet then search fuel heap.memRoot bestSize false heap
          else
            let (block, heap) := appendPage hooks size maj heap
            if block = 0 then some (0, heap)
            else
              visitMajor hooks size reqSize (fun maj => search fuel maj bestSize) block startedBet heap
        else visitMajor hooks size reqSize (fun maj => search fuel maj bestSize) maj startedBet heap

/-- The search from the best bet, or from the first block. -/
def searchFromBest (heap : Heap System) : Option (BitVec 32 × Heap System) :=
  if heap.bestBet ≠ 0 then
    let bestSize := (heap.get heap.bestBet LiballocMajor.size -
      heap.get heap.bestBet LiballocMajor.usage).setWidth 64
    if bestSize > (size + LiballocMinor.bytes).setWidth 64 then
      search hooks size reqSize iterations heap.bestBet bestSize true heap
    else search hooks size reqSize iterations heap.memRoot bestSize false heap
  else search hooks size reqSize iterations heap.memRoot 0 false heap

/-- `kmalloc` when the size is not zero. -/
def allocate (heap : Heap System) : Option (BitVec 32 × Heap System) :=
  if heap.memRoot = 0 then
    let (root, heap) := allocateNewPage hooks size heap
    let heap := { heap with memRoot := root }
    if heap.memRoot = 0 then some (0, heap) else searchFromBest hooks size reqSize heap
  else searchFromBest hooks size reqSize heap

end Search

/-- `kmalloc`.  A size that is zero by overflow leads to the call for one byte. -/
def kmalloc (reqSize : BitVec 32) (heap : Heap System) : Option (BitVec 32 × Heap System) :=
  let size := reqSize + (alignment + alignInfo)
  if size = 0 then
    allocate hooks (1 + (alignment + alignInfo)) 1 { heap with warningCount := heap.warningCount + 1 }
  else allocate hooks size reqSize heap

/-! ## `kfree` -/

/-- The counters for a header that is not one of a piece in use. -/
def reportMagic (magic : BitVec 32) (heap : Heap System) : Heap System :=
  let heap := { heap with errorCount := heap.errorCount + 1 }
  if magic &&& 0xFFFFFF = liveMagic &&& 0xFFFFFF ∨ magic &&& 0xFFFF = liveMagic &&& 0xFFFF ∨
      magic &&& 0xFF = liveMagic &&& 0xFF then
    { heap with possibleOverruns := heap.possibleOverruns + 1 }
  else heap

/-- A piece is taken out of its block. -/
def unlinkMinor (min maj : BitVec 32) (heap : Heap System) : Heap System :=
  let heap := { heap with
    inuse := heap.inuse - (heap.get min LiballocMinor.size).setWidth 64 }
  let heap := heap.set maj LiballocMajor.usage
    (heap.get maj LiballocMajor.usage - (heap.get min LiballocMinor.size + LiballocMinor.bytes))
  let heap := heap.set min LiballocMinor.magic deadMagic
  let heap := if heap.get min LiballocMinor.next ≠ 0 then
    heap.set (heap.get min LiballocMinor.next) LiballocMinor.prev (heap.get min LiballocMinor.prev)
    else heap
  let heap := if heap.get min LiballocMinor.prev ≠ 0 then
    heap.set (heap.get min LiballocMinor.prev) LiballocMinor.next (heap.get min LiballocMinor.next)
    else heap
  if heap.get min LiballocMinor.prev = 0 then
    heap.set maj LiballocMajor.first (heap.get min LiballocMinor.next)
  else heap

/-- A block without pieces is given back. -/
def releaseMajor (maj : BitVec 32) (heap : Heap System) : Heap System :=
  let heap := if heap.memRoot = maj then { heap with memRoot := heap.get maj LiballocMajor.next }
    else heap
  let heap := if heap.bestBet = maj then { heap with bestBet := 0 } else heap
  let heap := if heap.get maj LiballocMajor.prev ≠ 0 then
    heap.set (heap.get maj LiballocMajor.prev) LiballocMajor.next (heap.get maj LiballocMajor.next)
    else heap
  let heap := if heap.get maj LiballocMajor.next ≠ 0 then
    heap.set (heap.get maj LiballocMajor.next) LiballocMajor.prev (heap.get maj LiballocMajor.prev)
    else heap
  let heap := { heap with
    allocated := heap.allocated - (heap.get maj LiballocMajor.size).setWidth 64 }
  let (mem, system) := hooks.free maj (heap.get maj LiballocMajor.pages) (heap.mem, heap.system)
  { heap with mem := mem, system := system }

/-- The best bet after a piece of `maj` has been given back; the sizes are compared as
`int`. -/
def improveBet (maj : BitVec 32) (heap : Heap System) : Heap System :=
  if heap.bestBet ≠ 0 then
    let bestSize := heap.get heap.bestBet LiballocMajor.size -
      heap.get heap.bestBet LiballocMajor.usage
    let majSize := heap.get maj LiballocMajor.size - heap.get maj LiballocMajor.usage
    if bestSize.slt majSize then { heap with bestBet := maj } else heap
  else heap

def kfree (ptr : BitVec 32) (heap : Heap System) : Heap System :=
  if ptr = 0 then { heap with warningCount := heap.warningCount + 1 }
  else
    let min := unalign ptr heap - LiballocMinor.bytes
    if heap.get min LiballocMinor.magic ≠ liveMagic then
      reportMagic (heap.get min LiballocMinor.magic) heap
    else
      let maj := heap.get min LiballocMinor.block
      let heap := unlinkMinor min maj heap
      if heap.get maj LiballocMajor.first = 0 then releaseMajor hooks maj heap else improveBet maj heap

/-! ## `kcalloc` and `krealloc` -/

/-- The loop of `liballoc_memset`. -/
def liballocMemset (s : BitVec 32) (c : BitVec 8) : (left : Nat) → (i : BitVec 32) → Mem → Mem
  | 0, _, mem => mem
  | left + 1, i, mem => liballocMemset s c left (i + 1) (Function.update mem (s + i) c)

/-- `liballoc_memcpy`: words as long as there are four bytes left, and then bytes. -/
def liballocMemcpy : (n : Nat) → (dest src : BitVec 32) → Mem → Mem
  | n + 4, dest, src, mem =>
      liballocMemcpy n (dest + 4) (src + 4) (write32 mem dest (read32 mem src))
  | n + 1, dest, src, mem =>
      liballocMemcpy n (dest + 1) (src + 1) (Function.update mem dest (mem src))
  | 0, _, _, mem => mem

/-- `kcalloc`; null is filled like any other pointer. -/
def kcalloc (nobj size : BitVec 32) (heap : Heap System) : Option (BitVec 32 × Heap System) :=
  let realSize := nobj * size
  (kmalloc hooks realSize heap).map fun (p, heap) =>
    (p, { heap with mem := liballocMemset p 0 realSize.toNat 0 heap.mem })

def krealloc (p size : BitVec 32) (heap : Heap System) : Option (BitVec 32 × Heap System) :=
  if size = 0 then some (0, kfree hooks p heap)
  else if p = 0 then kmalloc hooks size heap
  else
    let min := unalign p heap - LiballocMinor.bytes
    if heap.get min LiballocMinor.magic ≠ liveMagic then
      some (0, reportMagic (heap.get min LiballocMinor.magic) heap)
    else
      let realSize := heap.get min LiballocMinor.reqSize
      if realSize ≥ size then some (p, heap.set min LiballocMinor.reqSize size)
      else
        (kmalloc hooks size heap).map fun (ptr, heap) =>
          (ptr, kfree hooks p { heap with mem := liballocMemcpy realSize.toNat ptr p heap.mem })

end Liballoc

end WeakOS
