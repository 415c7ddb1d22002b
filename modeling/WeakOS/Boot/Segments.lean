import Mathlib
import WeakOS.Boot.Elf

namespace WeakOS

open X86

namespace Elf

/-!
# What the constructor builds

When the segments of an image are pairwise disjoint, the order in which they
are loaded does not matter: every segment is in place at the end, its part
without file contents is zero, and memory is as it was everywhere else.
-/

/-- The address lies in the range of the segment. -/
def ProgHeader.Holds (header : ProgHeader) (addr : BitVec 32) : Prop :=
  header.pVaddr.toNat ≤ addr.toNat ∧ addr.toNat < header.pVaddr.toNat + header.pMemsz.toNat

/-- No address lies in both ranges. -/
def ProgHeader.Apart (first second : ProgHeader) : Prop :=
  first.type = 1 → second.type = 1 → ∀ addr, first.Holds addr → ¬ second.Holds addr

/-- What the headers say about a byte of a segment: it comes from the file, or
it is zero. -/
def ProgHeader.byte (header : ProgHeader) (source : Mem) (data : BitVec 32) (k : Nat) : BitVec 8 :=
  if k < header.pFilesz.toNat then source (data + header.pOffset + BitVec.ofNat 32 k) else 0

/-- An image of `size` bytes whose segments are no larger in the file than in
memory, do not wrap, and meet neither the image nor each other. -/
structure Loadable (mem : Mem) (data : BitVec 32) (size : Nat) : Prop where
  fits : data.toNat + size ≤ 2 ^ 32
  header : 52 ≤ size
  table : (headerPos mem data).toNat + sizeofProg * (headerEntryCount mem data).toNat ≤ size
  files : ∀ header ∈ progHeaders mem data, header.type = 1 →
    header.pOffset.toNat + header.pFilesz.toNat ≤ size
  shorter : ∀ header ∈ progHeaders mem data, header.type = 1 →
    header.pFilesz.toNat ≤ header.pMemsz.toNat
  ends : ∀ header ∈ progHeaders mem data, header.type = 1 →
    header.pVaddr.toNat + header.pMemsz.toNat ≤ 2 ^ 32
  elsewhere : ∀ header ∈ progHeaders mem data, header.type = 1 →
    ∀ addr, header.Holds addr → size ≤ (addr - data).toNat
  apart : (progHeaders mem data).Pairwise ProgHeader.Apart

/-! ## One segment -/

section Segment

variable {header : ProgHeader} {source mem : Mem} {data addr : BitVec 32}

/-- A range that does not wrap is an interval. -/
theorem ProgHeader.holds_iff (ends : header.pVaddr.toNat + header.pMemsz.toNat ≤ 2 ^ 32) :
    header.Holds addr ↔ (addr - header.pVaddr).toNat < header.pMemsz.toNat := by
  unfold ProgHeader.Holds
  rw [BitVec.toNat_sub]
  omega

theorem loadSegment_outside (shorter : header.type = 1 → header.pFilesz.toNat ≤ header.pMemsz.toNat)
    (ends : header.type = 1 → header.pVaddr.toNat + header.pMemsz.toNat ≤ 2 ^ 32)
    (outside : header.type = 1 → ¬ header.Holds addr) :
    loadSegment source data header mem addr = mem addr := by
  unfold loadSegment
  split
  · rename_i loads
    have beyond : header.pMemsz.toNat ≤ (addr - header.pVaddr).toNat :=
      Nat.not_lt.mp (fun inside => outside loads ((ProgHeader.holds_iff (ends loads)).mpr inside))
    rw [overwrite_outside (Nat.le_trans (shorter loads) beyond), overwrite_outside beyond]
  · rfl

theorem loadSegment_inside (loads : header.type = 1)
    (ends : header.pVaddr.toNat + header.pMemsz.toNat ≤ 2 ^ 32) (holds : header.Holds addr) :
    loadSegment source data header mem addr =
      header.byte source data (addr - header.pVaddr).toNat := by
  have inside := (ProgHeader.holds_iff ends).mp holds
  unfold loadSegment ProgHeader.byte
  rw [if_pos loads]
  by_cases inFile : (addr - header.pVaddr).toNat < header.pFilesz.toNat
  · rw [overwrite_inside inFile, if_pos inFile]
  · rw [overwrite_outside (Nat.not_lt.mp inFile), overwrite_inside inside, if_neg inFile]

end Segment

/-! ## All segments -/

section Segments

variable {source mem : Mem} {data addr : BitVec 32} {headers : List ProgHeader}
  (shorter : ∀ header ∈ headers, header.type = 1 → header.pFilesz.toNat ≤ header.pMemsz.toNat)
  (ends : ∀ header ∈ headers, header.type = 1 →
    header.pVaddr.toNat + header.pMemsz.toNat ≤ 2 ^ 32)

include shorter ends

/-- Loading changes nothing outside the segments. -/
theorem loadSegments_outside
    (outside : ∀ header ∈ headers, header.type = 1 → ¬ header.Holds addr) :
    loadSegments source data headers mem addr = mem addr := by
  induction headers generalizing mem with
  | nil => rfl
  | cons first rest inductionHypothesis =>
      have later : loadSegments source data rest (loadSegment source data first mem) addr =
          loadSegment source data first mem addr :=
        inductionHypothesis
          (fun header member => shorter header (List.mem_cons_of_mem _ member))
          (fun header member => ends header (List.mem_cons_of_mem _ member))
          (fun header member => outside header (List.mem_cons_of_mem _ member))
      have here : loadSegment source data first mem addr = mem addr :=
        loadSegment_outside (shorter first List.mem_cons_self) (ends first List.mem_cons_self)
          (outside first List.mem_cons_self)
      exact later.trans here

/-- A byte of a segment is as its header says: later segments leave it alone. -/
theorem loadSegments_inside (apart : headers.Pairwise ProgHeader.Apart) {header : ProgHeader}
    (member : header ∈ headers) (loads : header.type = 1) (holds : header.Holds addr) :
    loadSegments source data headers mem addr =
      header.byte source data (addr - header.pVaddr).toNat := by
  induction headers generalizing mem with
  | nil => cases member
  | cons first rest inductionHypothesis =>
      rcases List.pairwise_cons.mp apart with ⟨others, apartRest⟩
      have shorterRest := fun header member => shorter header (List.mem_cons_of_mem first member)
      have endsRest := fun header member => ends header (List.mem_cons_of_mem first member)
      rcases List.mem_cons.mp member with rfl | later
      · have kept : loadSegments source data rest (loadSegment source data header mem) addr =
            loadSegment source data header mem addr :=
          loadSegments_outside shorterRest endsRest
            (fun other listed otherLoads => others other listed loads otherLoads addr holds)
        exact kept.trans (loadSegment_inside loads (ends header List.mem_cons_self loads) holds)
      · exact inductionHypothesis shorterRest endsRest apartRest later

end Segments

/-! ## The constructor -/

section Constructor

variable {mem : Mem} {data : BitVec 32} {size : Nat}

/-- A segment that is no larger in the file does not meet the image. -/
theorem Loadable.noOverlap (loadable : Loadable mem data size) {header : ProgHeader}
    (member : header ∈ progHeaders mem data) (loads : header.type = 1) :
    NoOverlap header.pVaddr header.extent data size := by
  intro addr inside
  rw [ProgHeader.extent, max_eq_left (loadable.shorter header member loads)] at inside
  exact loadable.elsewhere header member loads addr
    ((ProgHeader.holds_iff (loadable.ends header member loads)).mpr inside)

/-- The constructor loads the segments in order, also when there are none. -/
theorem Loadable.elf_eq (loadable : Loadable mem data size) :
    elf data mem = some ⟨entryPoint mem data, loadSegments mem data (progHeaders mem data) mem⟩ := by
  by_cases nonempty : 0 < (headerEntryCount mem data).toNat
  · exact Elf.elf_eq ⟨loadable.fits, loadable.header, loadable.table, nonempty, loadable.files,
      fun _ member loads => loadable.noOverlap member loads⟩
  · have none : (headerEntryCount mem data).toNat = 0 := Nat.eq_zero_of_not_pos nonempty
    have headers : progHeaders mem data = [] := by rw [progHeaders, none]; rfl
    have loop : entryLoop data (data + headerPos mem data) (2 ^ 16) 0 mem = some mem :=
      if_neg nonempty
    rw [elf, headers, loop]
    rfl

/-- After the construction every segment holds the bytes of its file range and
then zeros, and every other byte of memory is as it was. -/
theorem elf_builds (loadable : Loadable mem data size) :
    ∃ loaded, elf data mem = some loaded ∧
      (∀ header ∈ progHeaders mem data, header.type = 1 →
        (∀ k < header.pFilesz.toNat, loaded.mem (header.pVaddr + BitVec.ofNat 32 k) =
          mem (data + header.pOffset + BitVec.ofNat 32 k)) ∧
        ∀ k, header.pFilesz.toNat ≤ k → k < header.pMemsz.toNat →
          loaded.mem (header.pVaddr + BitVec.ofNat 32 k) = 0) ∧
      ∀ addr, (∀ header ∈ progHeaders mem data, header.type = 1 → ¬ header.Holds addr) →
        loaded.mem addr = mem addr := by
  refine ⟨_, loadable.elf_eq, fun header member loads => ?_, fun addr outside =>
    loadSegments_outside loadable.shorter loadable.ends outside⟩
  have shorter := loadable.shorter header member loads
  have placed : ∀ k < header.pMemsz.toNat, loadSegments mem data (progHeaders mem data) mem
      (header.pVaddr + BitVec.ofNat 32 k) = header.byte mem data k := by
    intro k inside
    have ends := loadable.ends header member loads
    have distance : (header.pVaddr + BitVec.ofNat 32 k - header.pVaddr).toNat = k := by
      rw [add_sub_cancel_left]
      exact Nat.mod_eq_of_lt (Nat.lt_trans inside (BitVec.isLt _))
    have holds : header.Holds (header.pVaddr + BitVec.ofNat 32 k) :=
      (ProgHeader.holds_iff ends).mpr (by rw [distance]; exact inside)
    rw [loadSegments_inside loadable.shorter loadable.ends loadable.apart member loads holds, distance]
  constructor
  · intro k inFile
    exact (placed k (Nat.lt_of_lt_of_le inFile shorter)).trans (if_pos inFile)
  · intro k beyond inside
    exact (placed k inside).trans (if_neg (Nat.not_lt.mpr beyond))

end Constructor

def dword (value : BitVec 32) : List (BitVec 8) :=
  (List.range 4).map (fun k => value.extractLsb' (8 * k) 8)

/-- An image at 10000h with a segment of four bytes and eight zeros, and an
entry of another type behind it. -/
def paddedImage : Mem := fun addr =>
  (List.replicate 28 0 ++ dword 52 ++ List.replicate 12 0 ++ [2, 0] ++ List.replicate 6 0 ++
    (dword 1 ++ dword 116 ++ dword 0x100000 ++ dword 0 ++ dword 4 ++ dword 12 ++ dword 0 ++ dword 0) ++
    (dword 6 ++ dword 52 ++ dword 0x100000 ++ dword 0 ++ dword 64 ++ dword 64 ++ dword 0 ++ dword 0) ++
    dword 5).getD (addr - 0x10000).toNat 0

theorem paddedImage_headers : progHeaders paddedImage 0x10000 =
    [⟨1, 116, 0x100000, 4, 12⟩, ⟨6, 52, 0x100000, 64, 64⟩] := by
  decide +kernel

theorem paddedImage_loadable : Loadable paddedImage 0x10000 120 := by
  have count : headerEntryCount paddedImage 0x10000 = 2 := by decide +kernel
  have pos : headerPos paddedImage 0x10000 = 52 := by decide +kernel
  have other : ¬ (6 : BitVec 32) = 1 := by decide
  refine ⟨by decide, by decide, by rw [pos, count]; decide, ?_, ?_, ?_, ?_, ?_⟩
  · rw [paddedImage_headers]
    decide
  · rw [paddedImage_headers]
    decide
  · rw [paddedImage_headers]
    decide
  · rw [paddedImage_headers]
    intro header member loads addr holds
    rcases List.mem_cons.mp member with rfl | member
    · have low : (0x100000 : BitVec 32).toNat ≤ addr.toNat := holds.1
      bv_omega
    · rw [List.mem_singleton.mp member] at loads
      exact absurd loads other
  · rw [paddedImage_headers]
    exact List.pairwise_pair.mpr (fun _ loads => absurd loads other)

theorem elf_builds_paddedImage :
    ∃ loaded, elf 0x10000 paddedImage = some loaded ∧
      (∀ k < 4, loaded.mem (0x100000 + BitVec.ofNat 32 k) =
        paddedImage (0x10000 + 116 + BitVec.ofNat 32 k)) ∧
      ∀ k, 4 ≤ k → k < 12 → loaded.mem (0x100000 + BitVec.ofNat 32 k) = 0 := by
  rcases elf_builds paddedImage_loadable with ⟨loaded, constructed, segments, _⟩
  have segment := segments ⟨1, 116, 0x100000, 4, 12⟩
    (by rw [paddedImage_headers]; exact List.mem_cons_self) rfl
  exact ⟨loaded, constructed, segment⟩

end Elf

end WeakOS
