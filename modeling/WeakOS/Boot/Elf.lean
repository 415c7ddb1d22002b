import Mathlib
import WeakOS.X86.Strings

namespace WeakOS

open X86

namespace Elf

/-!
# The constructor of `elf`

The packed structures of the format, `memset` and `memcpy` of the kernel's
library, and the loop that loads the segments.
-/

/-! ## Packed structures -/

/-- Where a field begins, when the fields lie one behind the other. -/
def packedOffset {Field : Type} [DecidableEq Field] (fields : List (Field × Nat)) (field : Field) :
    BitVec 32 :=
  BitVec.ofNat 32 ((fields.takeWhile (fun entry => entry.1 ≠ field)).map Prod.snd).sum

inductive HeaderField where
  | magic | bits | endianness | elfVer | osAbi | padding | type | instructionSet | elfVer2
  | entryPoint | headerPos | secHeaderPos | flags | headerSize | headerEntrySize
  | headerEntryCount | secHeaderEntrySize | secHeaderEntryCount | sectionNamesIndex
  deriving DecidableEq

/-- `elf_header`. -/
def elfHeader : List (HeaderField × Nat) :=
  [(.magic, 4), (.bits, 1), (.endianness, 1), (.elfVer, 1), (.osAbi, 1), (.padding, 8), (.type, 2),
    (.instructionSet, 2), (.elfVer2, 4), (.entryPoint, 4), (.headerPos, 4), (.secHeaderPos, 4),
    (.flags, 4), (.headerSize, 2), (.headerEntrySize, 2), (.headerEntryCount, 2),
    (.secHeaderEntrySize, 2), (.secHeaderEntryCount, 2), (.sectionNamesIndex, 2)]

inductive ProgField where
  | type | pOffset | pVaddr | reserved | pFilesz | pMemsz | flags | alignment
  deriving DecidableEq

/-- `elf_prog_32_header`. -/
def elfProg32Header : List (ProgField × Nat) :=
  [(.type, 4), (.pOffset, 4), (.pVaddr, 4), (.reserved, 4), (.pFilesz, 4), (.pMemsz, 4),
    (.flags, 4), (.alignment, 4)]

/-- `sizeof(elf_prog_32_header)`. -/
def sizeofProg : Nat := (elfProg32Header.map Prod.snd).sum

def read16 (mem : Mem) (addr : BitVec 32) : BitVec 16 := mem (addr + 1) ++ mem addr

/-- The fields of a program header that are looked at. -/
structure ProgHeader where
  type : BitVec 32
  pOffset : BitVec 32
  pVaddr : BitVec 32
  pFilesz : BitVec 32
  pMemsz : BitVec 32
  deriving DecidableEq

def ProgHeader.read (mem : Mem) (addr : BitVec 32) : ProgHeader where
  type := read32 mem (addr + packedOffset elfProg32Header .type)
  pOffset := read32 mem (addr + packedOffset elfProg32Header .pOffset)
  pVaddr := read32 mem (addr + packedOffset elfProg32Header .pVaddr)
  pFilesz := read32 mem (addr + packedOffset elfProg32Header .pFilesz)
  pMemsz := read32 mem (addr + packedOffset elfProg32Header .pMemsz)

section Header

variable (mem : Mem) (data : BitVec 32)

def entryPoint : BitVec 32 := read32 mem (data + packedOffset elfHeader .entryPoint)

def headerPos : BitVec 32 := read32 mem (data + packedOffset elfHeader .headerPos)

def headerEntryCount : BitVec 16 := read16 mem (data + packedOffset elfHeader .headerEntryCount)

/-- Where an entry of the program header table is. -/
def pheader (entry : Nat) : BitVec 32 :=
  data + headerPos mem data + BitVec.ofNat 32 (sizeofProg * entry)

end Header

/-! ## `memset` and `memcpy` -/

section Set

variable (value : BitVec 8)

/-- The loops that fill byte by byte. -/
def byteLoop : (size : Nat) → (cptr : BitVec 32) → Mem → Mem
  | 0, _, mem => mem
  | size + 1, cptr, mem => byteLoop size (cptr + 1) (Function.update mem cptr value)

/-- The loop in front of the words, which goes on while the pointer is aligned.  There
is no result when it needs more than `fuel` iterations. -/
def alignLoop : (fuel : Nat) → (size : Nat) → (cptr : BitVec 32) → Mem →
    Option (Nat × BitVec 32 × Mem)
  | 0, _, _, _ => none
  | fuel + 1, size, cptr, mem =>
      if cptr &&& 3 = 0 then
        alignLoop fuel (size - 1) (cptr + 1) (Function.update mem cptr value)
      else some (size, cptr, mem)

/-- The loop that fills word by word, and the bytes that are left. -/
def wordLoop (dvalue : BitVec 32) : (size : Nat) → (dptr : BitVec 32) → Mem → Mem
  | size + 5, dptr, mem => wordLoop dvalue (size + 1) (dptr + 4) (write32 mem dptr dvalue)
  | size, dptr, mem => byteLoop value size dptr mem

def memset (ptr : BitVec 32) (size : Nat) (mem : Mem) : Option Mem :=
  if size < 4 then some (byteLoop value size ptr mem)
  else do
    let dvalue := value.setWidth 32 ||| value.setWidth 32 <<< 8 ||| value.setWidth 32 <<< 16 |||
      value.setWidth 32 <<< 24
    let (size, cptr, mem) ← alignLoop value 2 size ptr mem
    some (wordLoop value dvalue size cptr mem)

end Set

/-- The loop of `memcpy` at iteration `i`, with `left` iterations to go. -/
def copyLoop (dest src : BitVec 32) : (left i : Nat) → Mem → Mem
  | 0, _, mem => mem
  | left + 1, i, mem => copyLoop dest src left (i + 1)
      (Function.update mem (dest + BitVec.ofNat 32 i) (mem (src + BitVec.ofNat 32 i)))

def memcpy (dest src : BitVec 32) (num : Nat) (mem : Mem) : Mem := copyLoop dest src num 0 mem

/-! ## The constructor -/

/-- The body of the loop.  The fields of the entry are read again after `memset`. -/
def loadEntry (data addr : BitVec 32) (mem : Mem) : Option Mem :=
  if (ProgHeader.read mem addr).type = 1 then do
    let mem ← memset 0 (ProgHeader.read mem addr).pVaddr (ProgHeader.read mem addr).pMemsz.toNat mem
    some (memcpy (ProgHeader.read mem addr).pVaddr (data + (ProgHeader.read mem addr).pOffset)
      (ProgHeader.read mem addr).pFilesz.toNat mem)
  else some mem

/-- The loop over the entries.  The number of entries is a 16-bit field, and it is read
again in each iteration. -/
def entryLoop (data table : BitVec 32) : (left entry : Nat) → Mem → Option Mem
  | 0, _, mem => some mem
  | left + 1, entry, mem =>
      if entry < (headerEntryCount mem data).toNat then do
        let mem ← loadEntry data (table + BitVec.ofNat 32 (sizeofProg * entry)) mem
        entryLoop data table left (entry + 1) mem
      else some mem

structure Loaded where
  entry : BitVec 32
  mem : Mem

def elf (data : BitVec 32) (mem : Mem) : Option Loaded := do
  let entry := entryPoint mem data
  let mem ← entryLoop data (data + headerPos mem data) (2 ^ 16) 0 mem
  some ⟨entry, mem⟩

/-! ## What the loops do -/

section Loops

variable {value : BitVec 8} {size : Nat} {ptr : BitVec 32} {mem : Mem}

theorem byteLoop_eq (small : size ≤ 2 ^ 32) :
    byteLoop value size ptr mem = overwrite ptr size (fun _ => value) mem := by
  induction size generalizing ptr mem with
  | zero => exact overwrite_zero.symm
  | succ size inductionHypothesis =>
      rw [byteLoop, inductionHypothesis (by omega), overwrite_succ (by omega)]

/-- The four bytes of the word are equal. -/
theorem extractLsb_dvalue : ∀ value : BitVec 8, ∀ k < 4,
    (value.setWidth 32 ||| value.setWidth 32 <<< 8 ||| value.setWidth 32 <<< 16 |||
      value.setWidth 32 <<< 24).extractLsb' (8 * k) 8 = value := by
  decide

/-- A word with equal bytes fills four bytes. -/
theorem write32_eq {dvalue : BitVec 32} (bytes : ∀ k < 4, dvalue.extractLsb' (8 * k) 8 = value) :
    write32 mem ptr dvalue = overwrite ptr 4 (fun _ => value) mem := by
  funext addr
  by_cases inside : (addr - ptr).toNat < 4
  · rw [overwrite_inside inside]
    exact (if_pos inside).trans (bytes _ inside)
  · rw [overwrite_outside (Nat.not_lt.mp inside)]
    exact if_neg inside

theorem wordLoop_eq {dvalue : BitVec 32} (bytes : ∀ k < 4, dvalue.extractLsb' (8 * k) 8 = value)
    (small : size ≤ 2 ^ 32) :
    wordLoop value dvalue size ptr mem = overwrite ptr size (fun _ => value) mem := by
  induction size using Nat.strongRecOn generalizing ptr mem with
  | ind size inductionHypothesis =>
      match size with
      | rest + 5 =>
          have parts := @overwrite_add ptr 4 (fun _ => value) mem (rest + 1) (by omega)
          rw [wordLoop, inductionHypothesis (rest + 1) (by omega) (by omega), write32_eq bytes]
          rw [show rest + 5 = 4 + (rest + 1) by omega, ← parts]
          rfl
      | 0 | 1 | 2 | 3 | 4 => exact byteLoop_eq small

theorem and_three_eq_zero_iff (ptr : BitVec 32) : ptr &&& 3 = 0 ↔ ptr.toNat % 4 = 0 := by
  rw [← BitVec.toNat_inj, BitVec.toNat_and]
  exact Iff.of_eq (congrArg (· = 0) (Nat.and_two_pow_sub_one_eq_mod ptr.toNat 2))

/-- The loop in front of the words fills at most one byte, since the pointer is not
aligned after it. -/
theorem alignLoop_eq : ∃ count ≤ 1, alignLoop value 2 size ptr mem =
    some (size - count, ptr + BitVec.ofNat 32 count, overwrite ptr count (fun _ => value) mem) := by
  by_cases aligned : ptr &&& 3 = 0
  · have next : ¬ (ptr + 1) &&& 3 = 0 := by
      rw [and_three_eq_zero_iff] at aligned ⊢
      bv_omega
    refine ⟨1, Nat.le_refl 1, ?_⟩
    rw [alignLoop, if_pos aligned, alignLoop, if_neg next, overwrite_succ (by decide), overwrite_zero]
    rfl
  · refine ⟨0, Nat.zero_le 1, ?_⟩
    rw [alignLoop, if_neg aligned, overwrite_zero, BitVec.add_zero]
    rfl

/-- `memset` fills the range, whatever the alignment. -/
theorem memset_eq (small : size ≤ 2 ^ 32) :
    memset value ptr size mem = some (overwrite ptr size (fun _ => value) mem) := by
  rw [memset]
  split
  · rw [byteLoop_eq small]
  · rcases @alignLoop_eq value size ptr mem with ⟨count, few, aligned⟩
    have parts := @overwrite_add ptr count (fun _ => value) mem (size - count) (by omega)
    rw [aligned, Option.bind_eq_bind, Option.bind_some]
    dsimp only
    rw [wordLoop_eq (extractLsb_dvalue value) (by omega), parts, Nat.add_sub_cancel' (by omega)]

/-- The loop of `memcpy` is `rep movsb`. -/
theorem copyLoop_eq {dest src : BitVec 32} {left i : Nat} : copyLoop dest src left i mem =
    repMovsb left (src + BitVec.ofNat 32 i) (dest + BitVec.ofNat 32 i) mem := by
  induction left generalizing i mem with
  | zero => rfl
  | succ left inductionHypothesis =>
      have next : ∀ base : BitVec 32,
          base + BitVec.ofNat 32 (i + 1) = base + BitVec.ofNat 32 i + 1 := by
        intro base
        rw [BitVec.ofNat_add, add_assoc]
        rfl
      rw [copyLoop, inductionHypothesis, next, next, repMovsb]

theorem memcpy_eq {dest src : BitVec 32} :
    memcpy dest src size mem = repMovsb size src dest mem := by
  rw [memcpy, copyLoop_eq, BitVec.add_zero, BitVec.add_zero]

end Loops

/-! ## Images -/

/-- Load a segment, with the bytes of the image taken from `source`. -/
def loadSegment (source : Mem) (data : BitVec 32) (header : ProgHeader) (mem : Mem) : Mem :=
  if header.type = 1 then
    overwrite header.pVaddr header.pFilesz.toNat
      (fun k => source (data + header.pOffset + BitVec.ofNat 32 k))
      (overwrite header.pVaddr header.pMemsz.toNat (fun _ => 0) mem)
  else mem

/-- The program headers of an image. -/
def progHeaders (mem : Mem) (data : BitVec 32) : List ProgHeader :=
  (List.range (headerEntryCount mem data).toNat).map (fun entry =>
    ProgHeader.read mem (pheader mem data entry))

/-- Load segments in order. -/
def loadSegments (source : Mem) (data : BitVec 32) (headers : List ProgHeader) (mem : Mem) : Mem :=
  headers.foldl (fun mem header => loadSegment source data header mem) mem

/-- The size of what is loaded for a segment. -/
def ProgHeader.extent (header : ProgHeader) : Nat := max header.pMemsz.toNat header.pFilesz.toNat

/-- An image of `size` bytes: its headers and the file ranges of its segments lie inside,
and its segments are loaded elsewhere. -/
structure Image (mem : Mem) (data : BitVec 32) (size : Nat) : Prop where
  fits : data.toNat + size ≤ 2 ^ 32
  header : 52 ≤ size
  table : (headerPos mem data).toNat + sizeofProg * (headerEntryCount mem data).toNat ≤ size
  nonempty : 0 < (headerEntryCount mem data).toNat
  files : ∀ header ∈ progHeaders mem data, header.type = 1 →
    header.pOffset.toNat + header.pFilesz.toNat ≤ size
  elsewhere : ∀ header ∈ progHeaders mem data, header.type = 1 →
    NoOverlap header.pVaddr header.extent data size

/-- Two memories have the same image. -/
def SameImage (mem other : Mem) (data : BitVec 32) (size : Nat) : Prop :=
  ∀ addr, (addr - data).toNat < size → mem addr = other addr

section SameImage

variable {mem source : Mem} {data addr : BitVec 32} {size : Nat}

theorem SameImage.refl (mem : Mem) (data : BitVec 32) (size : Nat) : SameImage mem mem data size :=
  fun _ _ => rfl

theorem SameImage.read32 (same : SameImage mem source data size) {offset : BitVec 32}
    (inside : offset.toNat + 4 ≤ size) :
    X86.read32 mem (data + offset) = X86.read32 source (data + offset) := by
  refine read32_congr (fun byte near => same byte ?_)
  bv_omega

theorem SameImage.headerEntryCount (same : SameImage mem source data size) (header : 52 ≤ size) :
    Elf.headerEntryCount mem data = Elf.headerEntryCount source data := by
  have offset : packedOffset elfHeader .headerEntryCount = 44 := rfl
  rw [Elf.headerEntryCount, Elf.headerEntryCount, offset, read16, read16, same, same]
  · bv_omega
  · bv_omega

theorem SameImage.overwrite (same : SameImage mem source data size) {base : BitVec 32} {count : Nat}
    (apart : NoOverlap base count data size) (bytes : Nat → BitVec 8) :
    SameImage (X86.overwrite base count bytes mem) source data size := by
  intro addr inside
  rw [overwrite_noOverlap apart inside]
  exact same addr inside

theorem SameImage.loadSegment (same : SameImage mem source data size) {header : ProgHeader}
    (elsewhere : header.type = 1 → NoOverlap header.pVaddr header.extent data size) :
    SameImage (Elf.loadSegment source data header mem) source data size := by
  rw [Elf.loadSegment]
  split
  · rename_i loads
    have apart := elsewhere loads
    exact (same.overwrite (apart.mono (Nat.le_max_left _ _)) _).overwrite
      (apart.mono (Nat.le_max_right _ _)) _
  · exact same

/-- The program header at an offset of the image. -/
theorem SameImage.progHeader (same : SameImage mem source data size) {offset : BitVec 32}
    (inside : offset.toNat + 32 ≤ size) :
    ProgHeader.read mem (data + offset) = ProgHeader.read source (data + offset) := by
  have field : ∀ within : BitVec 32, within.toNat + 4 ≤ 32 →
      X86.read32 mem (data + offset + within) = X86.read32 source (data + offset + within) := by
    intro within small
    rw [add_assoc]
    exact same.read32 (by bv_omega)
  simp only [ProgHeader.read]
  rw [field _ (by decide), field _ (by decide), field _ (by decide), field _ (by decide),
    field _ (by decide)]

/-- The file range of a segment is not overwritten when the segment is loaded. -/
theorem noOverlap_file {header : ProgHeader} (apart : NoOverlap header.pVaddr header.extent data size)
    (file : header.pOffset.toNat + header.pFilesz.toNat ≤ size) :
    NoOverlap header.pVaddr header.pFilesz.toNat (data + header.pOffset) header.pFilesz.toNat := by
  intro addr inside
  have beyond := apart.mono (Nat.le_max_right _ _) addr inside
  bv_omega

/-- The bytes of the file that are copied are those of the image. -/
theorem SameImage.copied (same : SameImage mem source data size) {header : ProgHeader}
    (apart : NoOverlap header.pVaddr header.extent data size)
    (file : header.pOffset.toNat + header.pFilesz.toNat ≤ size) :
    repMovsb header.pFilesz.toNat (data + header.pOffset) header.pVaddr mem =
      X86.overwrite header.pVaddr header.pFilesz.toNat
        (fun k => source (data + header.pOffset + BitVec.ofNat 32 k)) mem := by
  rw [repMovsb_eq (Nat.le_of_lt (BitVec.isLt _)) (noOverlap_file apart file)]
  refine overwrite_congr (fun k inside => same _ ?_)
  have small : (BitVec.ofNat 32 k).toNat = k := Nat.mod_eq_of_lt (by omega)
  bv_omega

end SameImage

section Load

variable {mem source : Mem} {data : BitVec 32} {size : Nat}

/-- The body of the loop loads the segment of its entry. -/
theorem loadEntry_eq (same : SameImage mem source data size) {offset : BitVec 32}
    (inside : offset.toNat + 32 ≤ size) {header : ProgHeader}
    (here : ProgHeader.read source (data + offset) = header)
    (file : header.type = 1 → header.pOffset.toNat + header.pFilesz.toNat ≤ size)
    (elsewhere : header.type = 1 → NoOverlap header.pVaddr header.extent data size) :
    loadEntry data (data + offset) mem = some (loadSegment source data header mem) := by
  have read : ∀ {mem}, SameImage mem source data size →
      ProgHeader.read mem (data + offset) = header := fun same => (same.progHeader inside).trans here
  rw [loadEntry, loadSegment, read same]
  split
  · rename_i loads
    have apart := elsewhere loads
    have zeroed := same.overwrite (apart.mono (Nat.le_max_left _ _)) (fun _ => 0)
    rw [memset_eq (Nat.le_of_lt (BitVec.isLt _)), Option.bind_eq_bind, Option.bind_some, read zeroed,
      memcpy_eq, zeroed.copied apart (file loads)]
  · rfl

/-- Where the entries of an image are. -/
theorem Image.entry (image : Image source data size) {entry : Nat}
    (inside : entry < (headerEntryCount source data).toNat) :
    ∃ offset : BitVec 32, pheader source data entry = data + offset ∧ offset.toNat + 32 ≤ size := by
  have table := image.table
  have fits := image.fits
  have positive : sizeofProg = 32 := rfl
  rw [positive] at table
  have small : (BitVec.ofNat 32 (32 * entry)).toNat = 32 * entry := Nat.mod_eq_of_lt (by omega)
  refine ⟨headerPos source data + BitVec.ofNat 32 (32 * entry), add_assoc _ _ _, ?_⟩
  bv_omega

theorem progHeaders_drop {entry : Nat} (inside : entry < (headerEntryCount source data).toNat) :
    (progHeaders source data).drop entry =
      ProgHeader.read source (pheader source data entry) :: (progHeaders source data).drop (entry + 1) := by
  have bound : entry < (progHeaders source data).length := by
    rwa [progHeaders, List.length_map, List.length_range]
  rw [List.drop_eq_getElem_cons bound]
  simp only [progHeaders, List.getElem_map, List.getElem_range]

theorem progHeaders_mem {entry : Nat} (inside : entry < (headerEntryCount source data).toNat) :
    ProgHeader.read source (pheader source data entry) ∈ progHeaders source data :=
  List.mem_map.mpr ⟨entry, List.mem_range.mpr inside, rfl⟩

/-- From an entry on, the loop loads the segments that are left. -/
theorem entryLoop_eq (image : Image source data size) {left entry : Nat}
    (same : SameImage mem source data size)
    (enough : (headerEntryCount source data).toNat ≤ entry + left) :
    entryLoop data (data + headerPos source data) left entry mem =
      some (loadSegments source data ((progHeaders source data).drop entry) mem) := by
  have length : (progHeaders source data).length = (headerEntryCount source data).toNat := by
    rw [progHeaders, List.length_map, List.length_range]
  induction left generalizing entry mem with
  | zero =>
      rw [List.drop_eq_nil_of_le (by omega)]
      rfl
  | succ left inductionHypothesis =>
      rw [entryLoop, same.headerEntryCount image.header]
      split
      · rename_i inside
        rcases image.entry inside with ⟨offset, address, small⟩
        have member := progHeaders_mem inside
        have here : ProgHeader.read source (data + offset) = _ :=
          congrArg (ProgHeader.read source) address.symm
        have loaded := loadEntry_eq same small here (image.files _ member) (image.elsewhere _ member)
        have later := @inductionHypothesis _ (entry + 1)
          (same.loadSegment (image.elsewhere _ member)) (by omega)
        rw [show data + headerPos source data + BitVec.ofNat 32 (sizeofProg * entry) = data + offset from
          address, loaded, Option.bind_eq_bind, Option.bind_some, later, progHeaders_drop inside]
        rfl
      · rw [List.drop_eq_nil_of_le (by omega)]
        rfl

/-- The constructor loads the segments in order. -/
theorem elf_eq (image : Image mem data size) :
    elf data mem = some ⟨entryPoint mem data, loadSegments mem data (progHeaders mem data) mem⟩ := by
  have count : (headerEntryCount mem data).toNat ≤ 0 + 2 ^ 16 := by
    have bound := (headerEntryCount mem data).isLt
    omega
  rw [elf, entryLoop_eq image (SameImage.refl mem data size) count]
  rfl

end Load

end Elf

end WeakOS
