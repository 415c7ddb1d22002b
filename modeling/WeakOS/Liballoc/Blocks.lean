import Mathlib
import WeakOS.Foundation.DoublyLinked
import WeakOS.Foundation.Layout
import WeakOS.Liballoc.Model

namespace WeakOS

open Foundation X86

namespace Liballoc

/-!
# The blocks of the heap

What the headers in memory stand for: blocks of pages, and in each of them the
pieces that are in use, in the order of their addresses and without overlap.  A
piece has room for what was asked for, for the distance in front of the pointer
and for the padding of the pointer.

`BlockAt` says that the memory holds the headers of a block.  It depends on the
bytes of the headers and on one byte in front of each pointer that was handed
out, and on nothing else.
-/

/-- A piece in use: the address of its header, and the sizes in it. -/
structure Piece where
  addr : BitVec 32
  size : BitVec 32
  reqSize : BitVec 32
  fits : reqSize.toNat + 32 ≤ size.toNat

namespace Piece

variable (piece : Piece)

def base : Nat := piece.addr.toNat

/-- The header and the memory behind it. -/
def length : Nat := 24 + piece.size.toNat

/-- The offset of the memory that is handed out: aligned, and at least sixteen bytes
behind the header. -/
def data : Nat := (piece.base + 55) / 16 * 16

/-- The pointer that is handed out. -/
def payload : BitVec 32 := BitVec.ofNat 32 piece.data

/-- The bytes that belong to the caller. -/
def Owns (addr : BitVec 32) : Prop :=
  piece.data ≤ addr.toNat ∧ addr.toNat < piece.data + piece.reqSize.toNat

/-- The bytes of the piece, its header included. -/
def Contains (addr : BitVec 32) : Prop :=
  piece.base ≤ addr.toNat ∧ addr.toNat < piece.base + piece.length

theorem length_pos : 1 ≤ piece.length := Nat.le_trans (by decide) (Nat.le_add_right 24 _)

theorem data_bounds : piece.base + 40 ≤ piece.data ∧ piece.data ≤ piece.base + 55 ∧
    piece.data + piece.reqSize.toNat < piece.base + piece.length ∧ piece.data % 16 = 0 := by
  have fits := piece.fits
  unfold data length
  omega

end Piece

/-- A block of pages with its pieces. -/
structure Block where
  addr : BitVec 32
  pages : BitVec 32
  pieces : List Piece
  nonnull : 0 < addr.toNat
  room : addr.toNat + pages.toNat * 4096 ≤ 2 ^ 32
  chained : Layout.Chained (· ≤ ·) Piece.base Piece.length (addr.toNat + 24) pieces
    (addr.toNat + pages.toNat * 4096)

namespace Block

variable (block : Block)

def bytes : Nat := block.pages.toNat * 4096

/-- The end of the block. -/
def limit : Nat := block.addr.toNat + block.bytes

/-- The bytes in use, headers included. -/
def used : Nat := 24 + Layout.span Piece.length block.pieces

def Contains (addr : BitVec 32) : Prop := block.addr.toNat ≤ addr.toNat ∧ addr.toNat < block.limit

/-- The addresses of the headers. -/
def records : List (BitVec 32) := block.addr :: block.pieces.map Piece.addr

theorem bounds {piece : Piece} (member : piece ∈ block.pieces) :
    block.addr.toNat + 24 ≤ piece.base ∧ piece.base + piece.length ≤ block.limit ∧
      block.limit ≤ 2 ^ 32 := by
  have inside := block.chained.bounds member
  exact ⟨inside.1, inside.2.2, block.room⟩

theorem header_room : block.addr.toNat + 24 ≤ block.limit := block.chained.low_le_high

theorem limit_le : block.limit ≤ 2 ^ 32 := block.room

theorem used_le : block.used ≤ block.bytes := by
  have span := block.chained.span_le
  unfold used bytes
  omega

/-- The headers do not overlap. -/
theorem records_apart : Records 6 block.records := by
  refine List.pairwise_cons.mpr ⟨?_, ?_⟩
  · intro record member
    rcases List.mem_map.mp member with ⟨piece, inside, rfl⟩
    have bounds := block.bounds inside
    refine apart_of_le (by decide) bounds.1 ?_
    have long : 24 ≤ piece.length := Nat.le_add_right 24 _
    unfold Piece.base at bounds
    omega
  · refine List.pairwise_map.mpr (block.chained.pairwise.imp_of_mem ?_)
    intro first second _ member before
    have bounds := block.bounds member
    have long : 24 ≤ second.length := Nat.le_add_right 24 _
    have long' : 24 ≤ first.length := Nat.le_add_right 24 _
    unfold Piece.base at bounds before
    exact apart_of_le (by decide) (by omega) (by omega)

theorem records_nodup : block.records.Nodup := block.records_apart.nodup (by decide)

theorem addrs_nodup : (block.pieces.map Piece.addr).Nodup := (List.nodup_cons.mp block.records_nodup).2

/-- The header of a block or of one of its pieces is inside of the block. -/
theorem header_inside {record addr : BitVec 32} (member : record ∈ block.records)
    (inside : (addr - record).toNat < 24) : block.Contains addr := by
  have limit := block.limit_le
  rcases List.mem_cons.mp member with rfl | member
  · have room := block.header_room
    unfold Contains
    bv_omega
  · rcases List.mem_map.mp member with ⟨piece, listed, rfl⟩
    have bounds := block.bounds listed
    have long : 24 ≤ piece.length := Nat.le_add_right 24 _
    unfold Piece.base at bounds
    unfold Contains
    bv_omega

/-- Two pieces with a byte in common are the same. -/
theorem piece_unique {first second : Piece} (left : first ∈ block.pieces) (right : second ∈ block.pieces)
    {addr : BitVec 32} (inFirst : first.Contains addr) (inSecond : second.Contains addr) :
    first = second :=
  block.chained.eq_of_covers left right inFirst inSecond

/-- A byte behind the header of a piece is in no header. -/
theorem outside_headers {piece : Piece} (member : piece ∈ block.pieces) {addr : BitVec 32}
    (inside : piece.base + 24 ≤ addr.toNat ∧ addr.toNat < piece.base + piece.length) :
    ∀ record ∈ block.records, 24 ≤ (addr - record).toNat := by
  have bounds := block.bounds member
  have small := addr.isLt
  intro record listed
  by_contra near
  rcases List.mem_cons.mp listed with rfl | listed
  · bv_omega
  · rcases List.mem_map.mp listed with ⟨other, otherListed, rfl⟩
    have otherBounds := block.bounds otherListed
    have otherInside : other.Contains addr := by
      have long : 24 ≤ other.length := Nat.le_add_right 24 _
      unfold Piece.base at otherBounds
      unfold Piece.Contains Piece.base
      bv_omega
    have same := block.piece_unique otherListed member otherInside
      ⟨Nat.le_of_add_right_le inside.1, inside.2⟩
    subst same
    unfold Piece.base at inside
    bv_omega

end Block

/-! ## Blocks in memory -/

/-- The header of a piece in use, and the byte in front of its pointer. -/
structure PieceAt (mem : Mem) (block : BitVec 32) (piece : Piece) : Prop where
  block : field mem piece.addr LiballocMinor.block = block
  magic : field mem piece.addr LiballocMinor.magic = liveMagic
  size : field mem piece.addr LiballocMinor.size = piece.size
  reqSize : field mem piece.addr LiballocMinor.reqSize = piece.reqSize
  info : mem (piece.payload - alignInfo) =
    (piece.payload - (piece.addr + LiballocMinor.bytes)).setWidth 8

/-- The headers of a block, apart from its links to other blocks. -/
structure BlockAt (mem : Mem) (block : Block) : Prop where
  pages : field mem block.addr LiballocMajor.pages = block.pages
  size : field mem block.addr LiballocMajor.size = block.pages * pageSize
  usage : field mem block.addr LiballocMajor.usage = BitVec.ofNat 32 block.used
  links : DoublyLinked.Linked (fun node => field mem node LiballocMinor.next)
    (fun node => field mem node LiballocMinor.prev) 0 (field mem block.addr LiballocMajor.first)
    (block.pieces.map Piece.addr) 0
  each : ∀ piece ∈ block.pieces, PieceAt mem block.addr piece

section Congr

variable {mem mem' : Mem} {block : Block}

/-- Only the fields of the headers and the distances matter, and not the links to
other blocks. -/
theorem BlockAt.congr (held : BlockAt mem block)
    (fields : ∀ record ∈ block.records, ∀ i < 6,
      (record = block.addr → i ≠ LiballocMajor.prev ∧ i ≠ LiballocMajor.next) →
        field mem' record i = field mem record i)
    (infos : ∀ piece ∈ block.pieces,
      mem' (piece.payload - alignInfo) = mem (piece.payload - alignInfo)) :
    BlockAt mem' block := by
  have header : ∀ i < 6, i ≠ LiballocMajor.prev → i ≠ LiballocMajor.next →
      field mem' block.addr i = field mem block.addr i := by
    intro i small notPrev notNext
    exact fields _ List.mem_cons_self i small (fun _ => ⟨notPrev, notNext⟩)
  have inner : ∀ record ∈ block.pieces.map Piece.addr, ∀ i < 6,
      field mem' record i = field mem record i := by
    intro record member i small
    refine fields record (List.mem_cons_of_mem _ member) i small ?_
    rintro rfl
    exact absurd member (List.nodup_cons.mp block.records_nodup).1
  refine ⟨?_, ?_, ?_, ?_, fun piece member => ?_⟩
  · rw [header _ (by decide) (by decide) (by decide), held.pages]
  · rw [header _ (by decide) (by decide) (by decide), held.size]
  · rw [header _ (by decide) (by decide) (by decide), held.usage]
  · rw [header _ (by decide) (by decide) (by decide)]
    exact held.links.congr (fun node member => inner node member _ (by decide))
      (fun node member => inner node member _ (by decide))
  · have listed : piece.addr ∈ block.pieces.map Piece.addr := List.mem_map_of_mem member
    have kept := held.each piece member
    exact ⟨(inner _ listed _ (by decide)).trans kept.block, (inner _ listed _ (by decide)).trans kept.magic,
      (inner _ listed _ (by decide)).trans kept.size, (inner _ listed _ (by decide)).trans kept.reqSize,
      (infos piece member).trans kept.info⟩

/-- The byte in front of a pointer is inside of the piece, behind its header. -/
theorem Block.info_bounds {piece : Piece} (member : piece ∈ block.pieces) :
    (piece.payload - alignInfo).toNat = piece.data - 16 ∧ piece.data < 2 ^ 32 := by
  have bounds := block.bounds member
  have data := piece.data_bounds
  have address : piece.payload.toNat = piece.data := Nat.mod_eq_of_lt (by omega)
  unfold alignInfo
  exact ⟨by bv_omega, by omega⟩

theorem Block.info_outside {piece : Piece} (member : piece ∈ block.pieces) :
    ∀ record ∈ block.records, 24 ≤ (piece.payload - alignInfo - record).toNat := by
  have info := block.info_bounds member
  have data := piece.data_bounds
  exact block.outside_headers member (by omega)

/-- The bytes of the block decide. -/
theorem BlockAt.of_bytes (held : BlockAt mem block)
    (same : ∀ addr, block.Contains addr → mem' addr = mem addr) : BlockAt mem' block := by
  refine held.congr (fun record member i small _ => ?_) (fun piece member => same _ ?_)
  · exact field_congr small (by decide) (fun addr inside => same addr (block.header_inside member inside))
  · have info := block.info_bounds member
    have bounds := block.bounds member
    have data := piece.data_bounds
    unfold Block.Contains
    omega

end Congr

end Liballoc

end WeakOS
