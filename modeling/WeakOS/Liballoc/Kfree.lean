import Mathlib
import WeakOS.Liballoc.Kmalloc

namespace WeakOS

open Foundation X86

namespace Liballoc

/-!
# `kfree`

The byte in front of the pointer leads to the header of the piece.  The piece is
taken out of its block, and a block without pieces is taken out of the list of
the blocks and given back to the system.  The header of a piece that has been
given back keeps the mark for that, as long as its block is not given back.
-/

section Unalign

variable {System : Type} {heap : Heap System} {block : Block} {piece : Piece}

/-- The way back from the pointer to the header. -/
theorem unalign_payload (held : BlockAt heap.mem block) (member : piece ∈ block.pieces) :
    unalign piece.payload heap - LiballocMinor.bytes = piece.addr := by
  have bounds := block.bounds member
  have data := piece.data_bounds
  have address : piece.payload.toNat = piece.data := Nat.mod_eq_of_lt (by omega)
  have info := (held.each piece member).info
  have start : (piece.addr + LiballocMinor.bytes).toNat = piece.base + 24 := by
    unfold LiballocMinor.bytes Piece.base at *
    bv_omega
  have distance : (piece.payload - (piece.addr + LiballocMinor.bytes)).toNat =
      piece.data - (piece.base + 24) := by bv_omega
  rw [unalign, info]
  -- the distance is below thirty-two, so that no bit is lost, and none is the sign
  have narrow : ((piece.payload - (piece.addr + LiballocMinor.bytes)).setWidth 8).signExtend 32 =
      piece.payload - (piece.addr + LiballocMinor.bytes) := by
    generalize piece.payload - (piece.addr + LiballocMinor.bytes) = diff at distance ⊢
    have small : diff.toNat < 32 := by omega
    have low : (diff.setWidth 8).toNat = diff.toNat := by
      rw [BitVec.toNat_setWidth]
      exact Nat.mod_eq_of_lt (by omega)
    have positive : (diff.setWidth 8).msb = false := by
      rw [BitVec.msb_eq_false_iff_two_mul_lt, low]
      omega
    rw [BitVec.signExtend_eq_setWidth_of_msb_false positive]
    refine BitVec.eq_of_toNat_eq ?_
    rw [BitVec.toNat_setWidth, low]
    exact Nat.mod_eq_of_lt (by omega)
  have short : piece.payload - (piece.addr + LiballocMinor.bytes) < alignment + alignInfo := by
    rw [BitVec.lt_def, distance]
    have limit : (alignment + alignInfo).toNat = 32 := rfl
    omega
  rw [narrow, if_pos short]
  unfold LiballocMinor.bytes
  bv_omega

end Unalign

/-! ## A piece is taken out of its block -/

/-- `block` without one of its pieces. -/
def Block.without (block : Block) {front back : List Piece} {piece : Piece}
    (split : block.pieces = front ++ piece :: back) : Block :=
  { block with
    pieces := front ++ back
    chained := by
      have chained := block.chained
      rw [split] at chained
      exact chained.remove }

/-- The effect of taking a piece out of its block. -/
structure Unthreaded (mem mem' : Mem) (block : Block) (front back : List Piece) (piece : Piece) :
    Prop where
  header : ∀ i < 6, i ≠ LiballocMajor.usage → i ≠ LiballocMajor.first →
    field mem' block.addr i = field mem block.addr i
  usage : field mem' block.addr LiballocMajor.usage =
    field mem block.addr LiballocMajor.usage - (piece.size + LiballocMinor.bytes)
  first : field mem' block.addr LiballocMajor.first =
    DoublyLinked.headOf (front.map Piece.addr) (DoublyLinked.headOf (back.map Piece.addr) 0)
  links : DoublyLinked.Links.Removed (fun node => field mem node LiballocMinor.next)
    (fun node => field mem node LiballocMinor.prev) (fun node => field mem' node LiballocMinor.next)
    (fun node => field mem' node LiballocMinor.prev) 0 0 (front.map Piece.addr) (back.map Piece.addr)
  dead : field mem' piece.addr LiballocMinor.magic = deadMagic
  kept : ∀ other ∈ front ++ back, ∀ i < 6, i ≠ LiballocMinor.prev → i ≠ LiballocMinor.next →
    field mem' other.addr i = field mem other.addr i
  frame : ∀ addr, (∀ record ∈ block.records, 24 ≤ (addr - record).toNat) → mem' addr = mem addr

/-- What the headers hold when the piece has been taken out. -/
def unlinkedValue (mem : Mem) (block : Block) (front back : List Piece) (piece : Piece)
    (record : BitVec 32) (i : Nat) : BitVec 32 :=
  if record = block.addr then
    if i = LiballocMajor.usage then
      field mem block.addr LiballocMajor.usage - (piece.size + LiballocMinor.bytes)
    else if i = LiballocMajor.first then
      DoublyLinked.headOf (front.map Piece.addr) (DoublyLinked.headOf (back.map Piece.addr) 0)
    else field mem record i
  else if record = piece.addr then
    if i = LiballocMinor.magic then deadMagic else field mem record i
  else if i = LiballocMinor.next ∧ record ∈ (front.map Piece.addr).getLast? then
    DoublyLinked.headOf (back.map Piece.addr) 0
  else if i = LiballocMinor.prev ∧ record ∈ (back.map Piece.addr).head? then
    DoublyLinked.lastOf 0 (front.map Piece.addr)
  else field mem record i

section Unlink

variable {System : Type} {heap : Heap System} {block : Block} {front back : List Piece} {piece : Piece}

/-- The addresses are different. -/
theorem Block.distinct_addrs (split : block.pieces = front ++ piece :: back) :
    piece.addr ≠ block.addr ∧ (∀ other ∈ front ++ back, other.addr ≠ piece.addr ∧
      other.addr ≠ block.addr) ∧ ((front ++ back).map Piece.addr).Nodup := by
  have grown : Extends (block.without split) block front back piece := ⟨rfl, rfl, rfl, split⟩
  exact grown.distinct

theorem Unthreaded.of_table {mem mem' : Mem} (split : block.pieces = front ++ piece :: back)
    (table : ∀ record ∈ block.records, ∀ i < 6,
      field mem' record i = unlinkedValue mem block front back piece record i)
    (frame : ∀ addr, (∀ record ∈ block.records, 24 ≤ (addr - record).toNat) → mem' addr = mem addr) :
    Unthreaded mem mem' block front back piece := by
  have distinct := Block.distinct_addrs split
  have blockRecord : block.addr ∈ block.records := List.mem_cons_self
  have pieceRecord : piece.addr ∈ block.records := by
    refine List.mem_cons_of_mem _ (List.mem_map_of_mem ?_)
    rw [split]
    exact List.mem_append_right _ List.mem_cons_self
  have old : ∀ node ∈ front.map Piece.addr ++ back.map Piece.addr, ∀ i < 6,
      field mem' node i =
        if i = LiballocMinor.next ∧ node ∈ (front.map Piece.addr).getLast? then
          DoublyLinked.headOf (back.map Piece.addr) 0
        else if i = LiballocMinor.prev ∧ node ∈ (back.map Piece.addr).head? then
          DoublyLinked.lastOf 0 (front.map Piece.addr)
        else field mem node i := by
    intro node member i small
    rw [← List.map_append] at member
    rcases List.mem_map.mp member with ⟨other, listed, rfl⟩
    have record : other.addr ∈ block.records := by
      refine List.mem_cons_of_mem _ (List.mem_map_of_mem ?_)
      rw [split]
      exact List.perm_middle.mem_iff.mpr (List.mem_cons_of_mem _ listed)
    rw [table _ record i small, unlinkedValue, if_neg (distinct.2.1 other listed).2,
      if_neg (distinct.2.1 other listed).1]
  refine ⟨?_, ?_, ?_, ⟨?_, ?_, ?_, ?_⟩, ?_, ?_, frame⟩
  · intro i small notUsage notFirst
    rw [table _ blockRecord i small, unlinkedValue, if_pos rfl, if_neg notUsage, if_neg notFirst]
  · rw [table _ blockRecord _ (by decide), unlinkedValue, if_pos rfl, if_pos rfl]
  · rw [table _ blockRecord _ (by decide), unlinkedValue, if_pos rfl, if_neg (by decide), if_pos rfl]
  · intro node last
    have listed := List.mem_append_left (back.map Piece.addr) (List.mem_of_getLast? last)
    exact (old node listed _ (by decide)).trans (if_pos ⟨rfl, last⟩)
  · intro node first
    have listed := List.mem_append_right (front.map Piece.addr) (List.mem_of_mem_head? first)
    refine (old node listed _ (by decide)).trans ((if_neg ?_).trans (if_pos ⟨rfl, first⟩))
    exact fun both => absurd both.1 (by decide)
  · intro node listed notLast
    refine (old node listed _ (by decide)).trans ((if_neg ?_).trans (if_neg ?_))
    · exact fun both => notLast both.2
    · exact fun both => absurd both.1 (by decide)
  · intro node listed notFirst
    refine (old node listed _ (by decide)).trans ((if_neg ?_).trans (if_neg ?_))
    · exact fun both => absurd both.1 (by decide)
    · exact fun both => notFirst both.2
  · rw [table _ pieceRecord _ (by decide), unlinkedValue, if_neg distinct.1, if_pos rfl, if_pos rfl]
  · intro other listed i small notPrev notNext
    have member : other.addr ∈ front.map Piece.addr ++ back.map Piece.addr := by
      rw [← List.map_append]
      exact List.mem_map_of_mem listed
    rw [old _ member i small, if_neg (fun both => notNext both.1), if_neg (fun both => notPrev both.1)]

/-- The first node, where null is none. -/
theorem mem_head?_iff {nodes : List (BitVec 32)} (nonnull : ∀ node ∈ nodes, node ≠ 0) {record : BitVec 32} :
    record ∈ nodes.head? ↔ DoublyLinked.headOf nodes 0 ≠ 0 ∧ record = DoublyLinked.headOf nodes 0 := by
  cases nodes with
  | nil => simp
  | cons node rest =>
      have first := nonnull node List.mem_cons_self
      simp only [List.head?_cons, Option.mem_def, Option.some.injEq, DoublyLinked.headOf_cons]
      constructor
      · rintro rfl
        exact ⟨first, rfl⟩
      · exact fun both => both.2.symm

theorem mem_getLast?_iff {nodes : List (BitVec 32)} (nonnull : ∀ node ∈ nodes, node ≠ 0)
    {record : BitVec 32} : record ∈ nodes.getLast? ↔
      DoublyLinked.lastOf 0 nodes ≠ 0 ∧ record = DoublyLinked.lastOf 0 nodes := by
  rcases List.eq_nil_or_concat nodes with rfl | ⟨init, last, rfl⟩
  · simp
  · have final := nonnull last (by simp)
    rw [List.concat_eq_append, List.getLast?_concat, DoublyLinked.lastOf_concat]
    constructor
    · rintro ⟨⟩
      exact ⟨final, rfl⟩
    · rintro ⟨_, rfl⟩
      rfl

/-- The writes of `unlinkMinor`, in their order. -/
def unlinkWrites (mem : Mem) (maj next prev : BitVec 32) (piece : Piece) : List Write :=
  [(maj, LiballocMajor.usage, field mem maj LiballocMajor.usage - (piece.size + LiballocMinor.bytes)),
    (piece.addr, LiballocMinor.magic, deadMagic)] ++
  (if next ≠ 0 then [(next, LiballocMinor.prev, prev)] else []) ++
  (if prev ≠ 0 then [(prev, LiballocMinor.next, next)] else []) ++
  (if prev = 0 then [(maj, LiballocMajor.first, next)] else [])

/-- The three parts of `unlinkMinor` that lead around the piece. -/
def leadBack (min : BitVec 32) (heap : Heap System) : Heap System :=
  if heap.get min LiballocMinor.next ≠ 0 then
    heap.set (heap.get min LiballocMinor.next) LiballocMinor.prev (heap.get min LiballocMinor.prev)
  else heap

def leadForward (min : BitVec 32) (heap : Heap System) : Heap System :=
  if heap.get min LiballocMinor.prev ≠ 0 then
    heap.set (heap.get min LiballocMinor.prev) LiballocMinor.next (heap.get min LiballocMinor.next)
  else heap

def leadIn (min maj : BitVec 32) (heap : Heap System) : Heap System :=
  if heap.get min LiballocMinor.prev = 0 then
    heap.set maj LiballocMajor.first (heap.get min LiballocMinor.next)
  else heap

/-- The links of the piece are not written, so they are the same all the time. -/
theorem unlinkMinor_eq {records : List (BitVec 32)} (apart : Records 6 records) {maj next prev : BitVec 32}
    (majRecord : maj ∈ records) (pieceRecord : piece.addr ∈ records)
    (nextRecord : next ≠ 0 → next ∈ records ∧ next ≠ piece.addr)
    (prevRecord : prev ≠ 0 → prev ∈ records ∧ prev ≠ piece.addr) (different : maj ≠ piece.addr)
    (size : heap.get piece.addr LiballocMinor.size = piece.size)
    (next_eq : heap.get piece.addr LiballocMinor.next = next)
    (prev_eq : heap.get piece.addr LiballocMinor.prev = prev) :
    unlinkMinor piece.addr maj heap = { heap with
      mem := setFields heap.mem (unlinkWrites heap.mem maj next prev piece)
      inuse := heap.inuse - piece.size.setWidth 64 } := by
  let Same (heap : Heap System) : Prop := heap.get piece.addr LiballocMinor.next = next ∧
    heap.get piece.addr LiballocMinor.prev = prev
  have keep : ∀ heap, Same heap → ∀ record j value, record ∈ records → j < 6 →
      (record = piece.addr → j = LiballocMinor.magic) → Same (heap.set record j value) := by
    intro heap same record j value member small other
    constructor
    · rw [Heap.get_set apart member pieceRecord small (by decide), if_neg ?_, same.1]
      exact fun both => absurd (both.2.trans (other both.1.symm)) (by decide)
    · rw [Heap.get_set apart member pieceRecord small (by decide), if_neg ?_, same.2]
      exact fun both => absurd (both.2.trans (other both.1.symm)) (by decide)
  let marked : Heap System := (({ heap with
    inuse := heap.inuse - piece.size.setWidth 64 } : Heap System).set maj LiballocMajor.usage
      (field heap.mem maj LiballocMajor.usage - (piece.size + LiballocMinor.bytes))).set piece.addr
      LiballocMinor.magic deadMagic
  have steps : unlinkMinor piece.addr maj heap =
      leadIn piece.addr maj (leadForward piece.addr (leadBack piece.addr marked)) := by
    simp only [marked, ← size]
    rfl
  have same : Same marked := by
    refine keep _ (keep _ ⟨next_eq, prev_eq⟩ _ _ _ majRecord (by decide) ?_) _ _ _ pieceRecord
      (by decide) (fun _ => rfl)
    exact fun wrong => absurd wrong different
  have back : Same (leadBack piece.addr marked) ∧ leadBack piece.addr marked = { marked with
      mem := setFields marked.mem (if next ≠ 0 then [(next, LiballocMinor.prev, prev)] else []) } := by
    rw [leadBack, same.1, same.2]
    split
    · rename_i there
      exact ⟨keep _ same _ _ _ (nextRecord there).1 (by decide)
        (fun wrong => absurd wrong (nextRecord there).2), rfl⟩
    · exact ⟨same, rfl⟩
  generalize leadBack piece.addr marked = heap1 at steps back
  have forward : Same (leadForward piece.addr heap1) ∧ leadForward piece.addr heap1 = { heap1 with
      mem := setFields heap1.mem (if prev ≠ 0 then [(prev, LiballocMinor.next, next)] else []) } := by
    rw [leadForward, back.1.1, back.1.2]
    split
    · rename_i there
      exact ⟨keep _ back.1 _ _ _ (prevRecord there).1 (by decide)
        (fun wrong => absurd wrong (prevRecord there).2), rfl⟩
    · exact ⟨back.1, rfl⟩
  generalize leadForward piece.addr heap1 = heap2 at steps forward
  have entry : leadIn piece.addr maj heap2 = { heap2 with
      mem := setFields heap2.mem (if prev = 0 then [(maj, LiballocMajor.first, next)] else []) } := by
    rw [leadIn, forward.1.1, forward.1.2]
    split <;> rfl
  rw [steps, entry, forward.2, back.2, unlinkWrites, setFields_append, setFields_append,
    setFields_append]
  rfl

/-- The last write to a field decides. -/
theorem written_unlink (mem : Mem) (maj next prev : BitVec 32) (piece : Piece) (record : BitVec 32)
    (i : Nat) (old : BitVec 32) : written (unlinkWrites mem maj next prev piece) record i old =
      if prev = 0 ∧ record = maj ∧ i = LiballocMajor.first then next
      else if prev ≠ 0 ∧ record = prev ∧ i = LiballocMinor.next then next
      else if next ≠ 0 ∧ record = next ∧ i = LiballocMinor.prev then prev
      else if record = piece.addr ∧ i = LiballocMinor.magic then deadMagic
      else if record = maj ∧ i = LiballocMajor.usage then
        field mem maj LiballocMajor.usage - (piece.size + LiballocMinor.bytes)
      else old := by
  rw [unlinkWrites, written_append, written_append, written_append, written_if, written_if, written_if]
  rfl

theorem Block.piece_record (member : piece ∈ block.pieces) : piece.addr ∈ block.records :=
  List.mem_cons_of_mem _ (List.mem_map_of_mem member)

theorem Block.piece_addr_ne_zero (member : piece ∈ block.pieces) : piece.addr ≠ 0 := by
  have bounds := block.bounds member
  unfold Piece.base at bounds
  bv_omega

/-- The neighbours of a piece, where null is none: `next` behind it and `prev` in front of it. -/
structure Neighbours (block : Block) (front back : List Piece) (piece : Piece) (next prev : BitVec 32) :
    Prop where
  next_eq : DoublyLinked.headOf (back.map Piece.addr) 0 = next
  prev_eq : DoublyLinked.lastOf 0 (front.map Piece.addr) = prev
  first : ∀ {record}, record ∈ (back.map Piece.addr).head? ↔ next ≠ 0 ∧ record = next
  last : ∀ {record}, record ∈ (front.map Piece.addr).getLast? ↔ prev ≠ 0 ∧ record = prev
  nextRecord : next ≠ 0 → next ∈ block.records ∧ next ≠ piece.addr ∧ next ≠ block.addr
  prevRecord : prev ≠ 0 → prev ∈ block.records ∧ prev ≠ piece.addr ∧ prev ≠ block.addr

section Neighbours

variable {next prev record : BitVec 32}

theorem other_node (split : block.pieces = front ++ piece :: back) {pieces : List Piece}
    (others : ∀ other ∈ pieces, other ∈ front ++ back) : ∀ node ∈ pieces.map Piece.addr,
      node ∈ block.records ∧ node ≠ piece.addr ∧ node ≠ block.addr ∧ node ≠ 0 := by
  intro node there
  rcases List.mem_map.mp there with ⟨other, inside, rfl⟩
  have listed : other ∈ block.pieces := by
    rw [split]
    exact List.perm_middle.mem_iff.mpr (List.mem_cons_of_mem _ (others other inside))
  have distinct := (Block.distinct_addrs split).2.1 other (others other inside)
  exact ⟨Block.piece_record listed, distinct.1, distinct.2, Block.piece_addr_ne_zero listed⟩

theorem neighbours_of_split (split : block.pieces = front ++ piece :: back) :
    Neighbours block front back piece (DoublyLinked.headOf (back.map Piece.addr) 0)
      (DoublyLinked.lastOf 0 (front.map Piece.addr)) := by
  have fronts := other_node split fun _ inside => List.mem_append_left back inside
  have backs := other_node split fun _ inside => List.mem_append_right front inside
  have first := @mem_head?_iff _ fun node there => (backs node there).2.2.2
  have last := @mem_getLast?_iff _ fun node there => (fronts node there).2.2.2
  refine ⟨rfl, rfl, @first, @last, fun nonnull => ?_, fun nonnull => ?_⟩
  · have there := backs _ (List.mem_of_mem_head? (first.mpr ⟨nonnull, rfl⟩))
    exact ⟨there.1, there.2.1, there.2.2.1⟩
  · have there := fronts _ (List.mem_of_getLast? (last.mpr ⟨nonnull, rfl⟩))
    exact ⟨there.1, there.2.1, there.2.2.1⟩

/-- Behind another piece, the first one of the block stays. -/
theorem Neighbours.first_kept (around : Neighbours block front back piece next prev)
    (held : BlockAt heap.mem block) (split : block.pieces = front ++ piece :: back) (nonnull : prev ≠ 0) :
    field heap.mem block.addr LiballocMajor.first =
      DoublyLinked.headOf (front.map Piece.addr) (DoublyLinked.headOf (back.map Piece.addr) 0) := by
  rw [held.first_eq split]
  cases front with
  | nil => exact absurd around.prev_eq.symm nonnull
  | cons other rest => rfl

/-- Without a piece in front of it, the next one becomes the first one. -/
theorem Neighbours.first_next (around : Neighbours block front back piece next prev) (null : prev = 0) :
    DoublyLinked.headOf (front.map Piece.addr) (DoublyLinked.headOf (back.map Piece.addr) 0) = next := by
  rcases List.eq_nil_or_concat (front.map Piece.addr) with none | ⟨init, final, some⟩
  · rw [none]
    exact around.next_eq
  · have inside : final ∈ (front.map Piece.addr).getLast? := by
      rw [some, List.concat_eq_append, List.getLast?_concat]
      rfl
    exact absurd null (around.last.mp inside).1

/-- The writes go to fields of headers of the block. -/
theorem Neighbours.known (around : Neighbours block front back piece next prev)
    (member : piece ∈ block.pieces) : ∀ write ∈ unlinkWrites heap.mem block.addr next prev piece,
      write.1 ∈ block.records ∧ write.2.1 < 6 := by
  have blockRecord : block.addr ∈ block.records := List.mem_cons_self
  intro write there
  simp only [unlinkWrites, List.mem_append, List.mem_cons, List.not_mem_nil, or_false] at there
  rcases there with (((rfl | rfl) | there) | there) | there
  · exact ⟨blockRecord, (by decide : LiballocMajor.usage < 6)⟩
  · exact ⟨Block.piece_record member, (by decide : LiballocMinor.magic < 6)⟩
  all_goals
    split at there
    · rename_i nonnull
      rw [List.mem_singleton.mp there]
      first
        | exact ⟨(around.nextRecord nonnull).1, (by decide : LiballocMinor.prev < 6)⟩
        | exact ⟨(around.prevRecord nonnull).1, (by decide : LiballocMinor.next < 6)⟩
        | exact ⟨blockRecord, (by decide : LiballocMajor.first < 6)⟩
    · exact absurd there List.not_mem_nil

theorem Neighbours.written_block (around : Neighbours block front back piece next prev)
    (held : BlockAt heap.mem block) (split : block.pieces = front ++ piece :: back) (i : Nat) :
    written (unlinkWrites heap.mem block.addr next prev piece) block.addr i (field heap.mem block.addr i) =
      unlinkedValue heap.mem block front back piece block.addr i := by
  have notPrev : ¬ (prev ≠ 0 ∧ block.addr = prev ∧ i = LiballocMinor.next) :=
    fun all => (around.prevRecord all.1).2.2 all.2.1.symm
  have notNext : ¬ (next ≠ 0 ∧ block.addr = next ∧ i = LiballocMinor.prev) :=
    fun all => (around.nextRecord all.1).2.2 all.2.1.symm
  have notPiece : ¬ (block.addr = piece.addr ∧ i = LiballocMinor.magic) :=
    fun both => (Block.distinct_addrs split).1 both.1.symm
  rw [written_unlink, unlinkedValue, if_neg notPrev, if_neg notNext, if_neg notPiece, if_pos rfl]
  by_cases isFirst : i = LiballocMajor.first
  · have notUsage : ¬ i = LiballocMajor.usage := by
      rw [isFirst]
      decide
    rw [if_neg notUsage, if_pos isFirst]
    by_cases noPrev : prev = 0
    · rw [if_pos ⟨noPrev, rfl, isFirst⟩, around.first_next noPrev]
    · rw [if_neg (fun all => noPrev all.1), if_neg (fun both => notUsage both.2),
        ← around.first_kept held split noPrev, isFirst]
  · rw [if_neg (fun all => isFirst all.2.2), if_neg isFirst]
    exact if_congr (and_iff_right rfl) rfl rfl

theorem Neighbours.written_piece (around : Neighbours block front back piece next prev)
    (split : block.pieces = front ++ piece :: back) (i : Nat) :
    written (unlinkWrites heap.mem block.addr next prev piece) piece.addr i (field heap.mem piece.addr i) =
      unlinkedValue heap.mem block front back piece piece.addr i := by
  have distinct := (Block.distinct_addrs split).1
  have notPrev : ¬ (prev ≠ 0 ∧ piece.addr = prev ∧ i = LiballocMinor.next) :=
    fun all => (around.prevRecord all.1).2.1 all.2.1.symm
  have notNext : ¬ (next ≠ 0 ∧ piece.addr = next ∧ i = LiballocMinor.prev) :=
    fun all => (around.nextRecord all.1).2.1 all.2.1.symm
  rw [written_unlink, unlinkedValue, if_neg (fun all => distinct all.2.1), if_neg notPrev, if_neg notNext,
    if_neg distinct, if_pos rfl]
  exact if_congr (and_iff_right rfl) rfl (if_neg (fun both => distinct both.1))

theorem Neighbours.written_other (around : Neighbours block front back piece next prev)
    (notBlock : record ≠ block.addr) (notPiece : record ≠ piece.addr) (i : Nat) :
    written (unlinkWrites heap.mem block.addr next prev piece) record i (field heap.mem record i) =
      unlinkedValue heap.mem block front back piece record i := by
  have notMagic : ¬ (record = piece.addr ∧ i = LiballocMinor.magic) := fun both => notPiece both.1
  have notUsage : ¬ (record = block.addr ∧ i = LiballocMajor.usage) := fun both => notBlock both.1
  rw [written_unlink, unlinkedValue, around.next_eq, around.prev_eq, if_neg (fun all => notBlock all.2.1),
    if_neg notBlock, if_neg notPiece, if_neg notMagic, if_neg notUsage]
  simp only [around.last, around.first]
  refine if_congr ?_ rfl (if_congr ?_ rfl rfl)
  · exact ⟨fun all => ⟨all.2.2, all.1, all.2.1⟩, fun all => ⟨all.2.1, all.2.2, all.1⟩⟩
  · exact ⟨fun all => ⟨all.2.2, all.1, all.2.1⟩, fun all => ⟨all.2.1, all.2.2, all.1⟩⟩

end Neighbours

/-- The heap when the piece has been taken out of its block. -/
def Heap.taken (heap : Heap System) (mem : Mem) (piece : Piece) : Heap System :=
  { heap with mem := mem, inuse := heap.inuse - piece.size.setWidth 64 }

theorem unlinkMinor_spec (held : BlockAt heap.mem block) (split : block.pieces = front ++ piece :: back) :
    ∃ mem', unlinkMinor piece.addr block.addr heap = heap.taken mem' piece ∧
      Unthreaded heap.mem mem' block front back piece := by
  have distinct := Block.distinct_addrs split
  have member : piece ∈ block.pieces := by
    rw [split]
    exact List.mem_append_right _ List.mem_cons_self
  have links := held.links
  rw [split, List.map_append, List.map_cons] at links
  have around := neighbours_of_split split
  have known := @Neighbours.known _ heap _ _ _ _ _ _ around member
  refine ⟨_, unlinkMinor_eq block.records_apart List.mem_cons_self (Block.piece_record member)
    (fun nonnull => ⟨(around.nextRecord nonnull).1, (around.nextRecord nonnull).2.1⟩)
    (fun nonnull => ⟨(around.prevRecord nonnull).1, (around.prevRecord nonnull).2.1⟩) distinct.1.symm
    (held.each piece member).size links.at.2 links.at.1, Unthreaded.of_table split ?_ ?_⟩
  · intro record there i small
    rw [field_setFields block.records_apart (by decide) known there small]
    by_cases isBlock : record = block.addr
    · rw [isBlock]
      exact around.written_block held split i
    · by_cases isPiece : record = piece.addr
      · rw [isPiece]
        exact around.written_piece split i
      · exact around.written_other isBlock isPiece i
  · exact fun addr outside => setFields_of_outside (by decide)
      (fun write there => ⟨outside _ (known write there).1, (known write there).2⟩)

/-- What is left of the block. -/
theorem Unthreaded.held {mem mem' : Mem} (split : block.pieces = front ++ piece :: back)
    (held : BlockAt mem block) (unthreaded : Unthreaded mem mem' block front back piece) :
    BlockAt mem' (block.without split) := by
  have distinct := Block.distinct_addrs split
  have header : ∀ i < 6, i ≠ LiballocMajor.usage → i ≠ LiballocMajor.first →
      field mem' block.addr i = field mem block.addr i := unthreaded.header
  have listed : ∀ other ∈ front ++ back, other ∈ block.pieces := by
    intro other inside
    rw [split]
    exact List.perm_middle.mem_iff.mpr (List.mem_cons_of_mem _ inside)
  have used : block.used = (block.without split).used + piece.length := by
    have grown : Extends (block.without split) block front back piece := ⟨rfl, rfl, rfl, split⟩
    exact grown.used_eq
  refine ⟨?_, ?_, ?_, ?_, fun other inside => ?_⟩
  · exact (header _ (by decide) (by decide) (by decide)).trans held.pages
  · exact (header _ (by decide) (by decide) (by decide)).trans held.size
  · have total := held.usage
    rw [used, Piece.length, BitVec.ofNat_add, BitVec.ofNat_add, BitVec.ofNat_toNat, BitVec.setWidth_eq]
      at total
    refine unthreaded.usage.trans ?_
    rw [total]
    unfold LiballocMinor.bytes
    bv_omega
  · have links := held.links
    rw [split, List.map_append, List.map_cons] at links
    have nodup := distinct.2.2
    rw [List.map_append] at nodup
    have removed := links.remove nodup unthreaded.first unthreaded.links
    rw [← List.map_append] at removed
    exact removed
  · have kept := held.each other (listed other inside)
    have same := unthreaded.kept other inside
    refine ⟨(same _ (by decide) (by decide) (by decide)).trans kept.block,
      (same _ (by decide) (by decide) (by decide)).trans kept.magic,
      (same _ (by decide) (by decide) (by decide)).trans kept.size,
      (same _ (by decide) (by decide) (by decide)).trans kept.reqSize, ?_⟩
    rw [unthreaded.frame _ (block.info_outside (listed other inside)), kept.info]

theorem Unthreaded.frame_outside {mem mem' : Mem} {addr : BitVec 32}
    (unthreaded : Unthreaded mem mem' block front back piece) (outside : ¬ block.Contains addr) :
    mem' addr = mem addr := by
  refine unthreaded.frame addr (fun record there => ?_)
  by_contra near
  exact outside (block.header_inside there (Nat.not_le.mp near))

end Unlink

/-! ## A block is given back -/

section Release

variable {System : Type} {hooks : Hooks System} {holds : System → List Pages → Prop}
  {ready : System → BitVec 32 → Prop}
  {heap : Heap System} {front back : List Block} {block : Block}

/-- The writes of `releaseMajor`, in their order. -/
def releaseWrites (next prev : BitVec 32) : List Write :=
  (if prev ≠ 0 then [(prev, LiballocMajor.next, next)] else []) ++
    (if next ≠ 0 then [(next, LiballocMajor.prev, prev)] else [])

/-- The parts of `releaseMajor`. -/
def leaveRoot (maj : BitVec 32) (heap : Heap System) : Heap System :=
  if heap.memRoot = maj then { heap with memRoot := heap.get maj LiballocMajor.next } else heap

def leaveBet (maj : BitVec 32) (heap : Heap System) : Heap System :=
  if heap.bestBet = maj then { heap with bestBet := 0 } else heap

def leaveForward (maj : BitVec 32) (heap : Heap System) : Heap System :=
  if heap.get maj LiballocMajor.prev ≠ 0 then
    heap.set (heap.get maj LiballocMajor.prev) LiballocMajor.next (heap.get maj LiballocMajor.next)
  else heap

def leaveBack (maj : BitVec 32) (heap : Heap System) : Heap System :=
  if heap.get maj LiballocMajor.next ≠ 0 then
    heap.set (heap.get maj LiballocMajor.next) LiballocMajor.prev (heap.get maj LiballocMajor.prev)
  else heap

/-- The header of the block is not written, so it is the same all the time. -/
theorem releaseMajor_eq {records : List (BitVec 32)} (apart : Records 6 records)
    {maj next prev : BitVec 32} (majRecord : maj ∈ records)
    (nextRecord : next ≠ 0 → next ∈ records ∧ next ≠ maj)
    (prevRecord : prev ≠ 0 → prev ∈ records ∧ prev ≠ maj)
    (next_eq : heap.get maj LiballocMajor.next = next) (prev_eq : heap.get maj LiballocMajor.prev = prev)
    {mem' : Mem} {system' : System}
    (freed : hooks.free maj (heap.get maj LiballocMajor.pages)
      (setFields heap.mem (releaseWrites next prev), heap.system) = (mem', system')) :
    releaseMajor hooks maj heap = { heap with
      memRoot := if heap.memRoot = maj then next else heap.memRoot
      bestBet := if heap.bestBet = maj then 0 else heap.bestBet
      allocated := heap.allocated - (heap.get maj LiballocMajor.size).setWidth 64
      mem := mem'
      system := system' } := by
  let Same (mem : Mem) : Prop := ∀ i < 6, field mem maj i = field heap.mem maj i
  have keep : ∀ heap' : Heap System, Same heap'.mem → ∀ record j value, record ∈ records →
      record ≠ maj → j < 6 → Same (heap'.set record j value).mem := by
    intro heap' same record j value member other small i inside
    have kept := @Heap.get_set _ heap' _ apart _ _ j i value member majRecord small inside
    rw [if_neg (fun both => other both.1.symm)] at kept
    exact kept.trans (same i inside)
  let renamed : Heap System := leaveBet maj (leaveRoot maj heap)
  have renamed_eq : renamed = { heap with
      memRoot := if heap.memRoot = maj then next else heap.memRoot
      bestBet := if heap.bestBet = maj then 0 else heap.bestBet } := by
    simp only [renamed, leaveBet, leaveRoot, next_eq]
    split <;> split <;> rfl
  have steps : releaseMajor hooks maj heap =
      (let linked := leaveBack maj (leaveForward maj renamed)
      let counted := { linked with
        allocated := linked.allocated - (linked.get maj LiballocMajor.size).setWidth 64 }
      let given := hooks.free maj (counted.get maj LiballocMajor.pages) (counted.mem, counted.system)
      { counted with mem := given.1, system := given.2 }) := rfl
  have same : Same renamed.mem := by
    rw [renamed_eq]
    exact fun _ _ => rfl
  have forward : Same (leaveForward maj renamed).mem ∧ leaveForward maj renamed = { renamed with
      mem := setFields renamed.mem (if prev ≠ 0 then [(prev, LiballocMajor.next, next)] else []) } := by
    have reads : renamed.get maj LiballocMajor.next = next ∧
        renamed.get maj LiballocMajor.prev = prev :=
      ⟨(same _ (by decide)).trans next_eq, (same _ (by decide)).trans prev_eq⟩
    rw [leaveForward, reads.1, reads.2]
    split
    · rename_i there
      exact ⟨keep _ same _ _ _ (prevRecord there).1 (prevRecord there).2 (by decide), rfl⟩
    · exact ⟨same, rfl⟩
  generalize leaveForward maj renamed = heap1 at steps forward
  have back : Same (leaveBack maj heap1).mem ∧ leaveBack maj heap1 = { heap1 with
      mem := setFields heap1.mem (if next ≠ 0 then [(next, LiballocMajor.prev, prev)] else []) } := by
    have reads : heap1.get maj LiballocMajor.next = next ∧ heap1.get maj LiballocMajor.prev = prev :=
      ⟨(forward.1 _ (by decide)).trans next_eq, (forward.1 _ (by decide)).trans prev_eq⟩
    rw [leaveBack, reads.1, reads.2]
    split
    · rename_i there
      exact ⟨keep _ forward.1 _ _ _ (nextRecord there).1 (nextRecord there).2 (by decide), rfl⟩
    · exact ⟨forward.1, rfl⟩
  generalize leaveBack maj heap1 = heap2 at steps back
  have sizes : heap2.get maj LiballocMajor.size = heap.get maj LiballocMajor.size :=
    back.1 _ (by decide)
  have pages : heap2.get maj LiballocMajor.pages = heap.get maj LiballocMajor.pages :=
    back.1 _ (by decide)
  have linked : heap2 = { heap with
      memRoot := if heap.memRoot = maj then next else heap.memRoot
      bestBet := if heap.bestBet = maj then 0 else heap.bestBet
      mem := setFields heap.mem (releaseWrites next prev) } := by
    rw [back.2, forward.2, renamed_eq, releaseWrites, setFields_append]
  rw [steps]
  dsimp only
  rw [show ({ heap2 with allocated :=
      heap2.allocated - (heap2.get maj LiballocMajor.size).setWidth 64 } : Heap System).get maj
        LiballocMajor.pages = heap.get maj LiballocMajor.pages from pages, sizes, linked]
  exact congrArg (fun result : Mem × System => ({ heap with
    memRoot := if heap.memRoot = maj then next else heap.memRoot
    bestBet := if heap.bestBet = maj then 0 else heap.bestBet
    allocated := heap.allocated - (heap.get maj LiballocMajor.size).setWidth 64
    mem := result.1
    system := result.2 } : Heap System)) freed

/-- The nodes next to one that is taken out of the list. -/
theorem Sound.neighbours (sound : Sound holds heap (front ++ block :: back)) :
    heap.get block.addr LiballocMajor.next = DoublyLinked.headOf (back.map Block.addr) 0 ∧
      heap.get block.addr LiballocMajor.prev = DoublyLinked.lastOf 0 (front.map Block.addr) := by
  have links := sound.links
  rw [List.map_append, List.map_cons] at links
  exact ⟨links.at.2, links.at.1⟩

theorem Sound.apart_rest (sound : Sound holds heap (front ++ block :: back)) :
    ((front ++ back).map Block.span).Pairwise Pages.Apart :=
  sound.apart.sublist (((List.sublist_cons_self block back).append_left front).map _)

/-- The links around a block lead past it. -/
theorem releaseWrites_removed (sound : Sound holds heap (front ++ block :: back)) {next prev : BitVec 32}
    (next_eq : DoublyLinked.headOf (back.map Block.addr) 0 = next)
    (prev_eq : DoublyLinked.lastOf 0 (front.map Block.addr) = prev) :
    Relinks (front ++ back) (releaseWrites next prev) ∧
      (∀ node, node ≠ 0 → (node = next ∨ node = prev) → node ∈ (front ++ back).map Block.addr) ∧
      DoublyLinked.Links.Removed (fun node => field heap.mem node LiballocMajor.next)
        (fun node => field heap.mem node LiballocMajor.prev)
        (fun node => field (setFields heap.mem (releaseWrites next prev)) node LiballocMajor.next)
        (fun node => field (setFields heap.mem (releaseWrites next prev)) node LiballocMajor.prev) 0 0
        (front.map Block.addr) (back.map Block.addr) := by
  have nonnull : ∀ blocks : List Block, ∀ node ∈ blocks.map Block.addr, node ≠ 0 := by
    intro blocks node there
    rcases List.mem_map.mp there with ⟨other, _, rfl⟩
    exact other.addr_ne_zero
  have last := @mem_getLast?_iff _ (nonnull front)
  have first := @mem_head?_iff _ (nonnull back)
  simp only [next_eq, prev_eq] at last first
  have blocks : ∀ node, node ≠ 0 → (node = next ∨ node = prev) →
      node ∈ (front ++ back).map Block.addr := by
    rw [List.map_append]
    rintro node some (rfl | rfl)
    · exact List.mem_append_right _ (List.mem_of_mem_head? (first.mpr ⟨some, rfl⟩))
    · exact List.mem_append_left _ (List.mem_of_getLast? (last.mpr ⟨some, rfl⟩))
  have relinks : Relinks (front ++ back) (releaseWrites next prev) := by
    intro write there
    rcases List.mem_append.mp there with ahead | behind
    · split at ahead
      · rename_i some
        rw [List.mem_singleton.mp ahead]
        exact ⟨blocks prev some (Or.inr rfl), Or.inl rfl⟩
      · exact absurd ahead List.not_mem_nil
    · split at behind
      · rename_i some
        rw [List.mem_singleton.mp behind]
        exact ⟨blocks next some (Or.inl rfl), Or.inr rfl⟩
      · exact absurd behind List.not_mem_nil
  have table : ∀ node ∈ front.map Block.addr ++ back.map Block.addr, ∀ i < 6,
      field (setFields heap.mem (releaseWrites next prev)) node i =
        if next ≠ 0 ∧ node = next ∧ i = LiballocMajor.prev then prev
        else if prev ≠ 0 ∧ node = prev ∧ i = LiballocMajor.next then next
        else field heap.mem node i := by
    intro node there i small
    rw [← List.map_append] at there
    rcases List.mem_map.mp there with ⟨other, inside, rfl⟩
    rw [relinks.field_eq sound.apart_rest inside small, releaseWrites, written_append, written_if,
      written_if]
  refine ⟨relinks, blocks, ?_, ?_, ?_, ?_⟩
  · intro node there
    have listed := List.mem_append_left (back.map Block.addr) (List.mem_of_getLast? there)
    have here := last.mp there
    refine (table node listed _ (by decide)).trans ((if_neg ?_).trans ((if_pos ?_).trans next_eq.symm))
    · exact fun all => absurd all.2.2 (by decide)
    · exact ⟨here.1, here.2, rfl⟩
  · intro node there
    have listed := List.mem_append_right (front.map Block.addr) (List.mem_of_mem_head? there)
    have here := first.mp there
    exact (table node listed _ (by decide)).trans ((if_pos ⟨here.1, here.2, rfl⟩).trans prev_eq.symm)
  · intro node listed notLast
    refine (table node listed _ (by decide)).trans ((if_neg ?_).trans (if_neg ?_))
    · exact fun all => absurd all.2.2 (by decide)
    · exact fun all => notLast (last.mpr ⟨all.1, all.2.1⟩)
  · intro node listed notFirst
    refine (table node listed _ (by decide)).trans ((if_neg ?_).trans (if_neg ?_))
    · exact fun all => notFirst (first.mpr ⟨all.1, all.2.1⟩)
    · exact fun all => absurd all.2.2 (by decide)

theorem allPieces_empty (empty : block.pieces = []) :
    allPieces (front ++ block :: back) = allPieces (front ++ back) := by
  simp only [allPieces, List.flatMap_append, List.flatMap_cons, empty, List.nil_append]

/-- What the code makes of the variables of the heap is right for the blocks that are left. -/
theorem Sound.memRoot_rest (sound : Sound holds heap (front ++ block :: back)) :
    (if heap.memRoot = block.addr then DoublyLinked.headOf (back.map Block.addr) 0 else heap.memRoot) =
      DoublyLinked.headOf (front.map Block.addr) (DoublyLinked.headOf (back.map Block.addr) 0) := by
  rw [sound.links.entry_eq]
  cases front with
  | nil => exact if_pos rfl
  | cons first rest =>
      exact if_neg (sound.others first (List.mem_append_left back List.mem_cons_self)).2

theorem Sound.bestBet_rest (sound : Sound holds heap (front ++ block :: back)) :
    (if heap.bestBet = block.addr then 0 else heap.bestBet) = 0 ∨
      (if heap.bestBet = block.addr then 0 else heap.bestBet) ∈ (front ++ back).map Block.addr := by
  split
  · exact Or.inl rfl
  · rename_i notBlock
    refine sound.bestBet.imp id (fun there => ?_)
    rw [List.map_append, List.map_cons] at there
    rw [List.map_append]
    exact (List.mem_cons.mp (List.perm_middle.mem_iff.mp there)).resolve_left notBlock

theorem Sound.allocated_rest (sound : Sound holds heap (front ++ block :: back)) :
    heap.allocated - (heap.get block.addr LiballocMajor.size).setWidth 64 =
      BitVec.ofNat 64 ((front ++ back).map Block.bytes).sum := by
  have bytes : (heap.get block.addr LiballocMajor.size).toNat = block.bytes :=
    (sound.each block (List.mem_append_right _ List.mem_cons_self)).size_toNat
  have total := sound.allocated
  have sums : ((front ++ block :: back).map Block.bytes).sum =
      ((front ++ back).map Block.bytes).sum + block.bytes := by
    simp only [List.map_append, List.map_cons, List.sum_append, List.sum_cons]
    omega
  rw [sums, BitVec.ofNat_add] at total
  rw [total, ← BitVec.ofNat_toNat, bytes]
  exact add_sub_cancel_right _ _

/-- The block is out of the list of blocks, and its pages are with the system again. -/
theorem releaseMajor_spec (lawful : hooks.Lawful holds ready) (sound : Sound holds heap (front ++ block :: back))
    (empty : block.pieces = []) :
    Sound holds (releaseMajor hooks block.addr heap) (front ++ back) ∧
      (∀ addr, (∀ record ∈ allRecords (front ++ back), 24 ≤ (addr - record).toNat) →
        ¬ block.Contains addr → (releaseMajor hooks block.addr heap).mem addr = heap.mem addr) ∧
      (∃ mem mem', hooks.free block.addr block.pages (mem, heap.system) =
        (mem', (releaseMajor hooks block.addr heap).system)) ∧
      Quiet heap (releaseMajor hooks block.addr heap) ∧
      (releaseMajor hooks block.addr heap).warningCount = heap.warningCount := by
  have neighbours := sound.neighbours
  have others := sound.others
  have apart := sound.apart_rest
  have listed : block ∈ front ++ block :: back := List.mem_append_right _ List.mem_cons_self
  have old : ∀ other ∈ front ++ back, other ∈ front ++ block :: back := fun other there =>
    List.perm_middle.mem_iff.mpr (List.mem_cons_of_mem _ there)
  generalize next_eq : DoublyLinked.headOf (back.map Block.addr) 0 = next at neighbours
  generalize prev_eq : DoublyLinked.lastOf 0 (front.map Block.addr) = prev at neighbours
  rcases releaseWrites_removed sound next_eq prev_eq with ⟨relinks, blocks, removed⟩
  have pages : heap.get block.addr LiballocMajor.pages = block.pages := (sound.each block listed).pages
  have size : heap.get block.addr LiballocMajor.size = block.pages * pageSize :=
    (sound.each block listed).size
  generalize mem1_eq : setFields heap.mem (releaseWrites next prev) = mem1 at removed
  rcases freed : hooks.free block.addr block.pages (mem1, heap.system) with ⟨mem', system'⟩
  have held : holds heap.system (block.span :: (front ++ back).map Block.span) := by
    refine lawful.perm sound.held ?_
    rw [List.map_append, List.map_cons, List.map_append]
    exact List.perm_middle
  have law := lawful.free held freed
  have known : ∀ node, node ≠ 0 → (node = next ∨ node = prev) →
      node ∈ allRecords (front ++ block :: back) ∧ node ≠ block.addr := by
    intro node some which
    rcases List.mem_map.mp (blocks node some which) with ⟨other, there, rfl⟩
    exact ⟨block_record (old other there), (others other there).2⟩
  have equation := @releaseMajor_eq _ hooks heap _ (records_of_blocks sound.apart) _ next prev
    (block_record listed) (fun nonnull => known _ nonnull (Or.inl rfl))
    (fun nonnull => known _ nonnull (Or.inr rfl)) neighbours.1 neighbours.2 mem' system'
    (by rw [pages, mem1_eq]; exact freed)
  rw [equation]
  have frame1 : ∀ addr, (∀ record ∈ allRecords (front ++ back), 24 ≤ (addr - record).toNat) →
      mem1 addr = heap.mem addr := by
    intro addr outside
    rw [← mem1_eq]
    exact relinks.frame outside
  have away : ∀ other ∈ front ++ back, ∀ addr, other.Contains addr → mem' addr = mem1 addr :=
    fun other there addr inside => law.2 addr ((others other there).1.symm.not_contains inside)
  have fields : ∀ i < 6, ∀ node ∈ (front ++ back).map Block.addr, field mem' node i = field mem1 node i := by
    intro i small node there
    rcases List.mem_map.mp there with ⟨other, inside, rfl⟩
    exact field_congr small (by decide)
      (fun addr near => away other inside addr (other.header_inside List.mem_cons_self near))
  refine ⟨⟨?_, fun other there => ?_, apart, ?_, ?_, ?_, law.1⟩, fun addr outside notBlock => ?_,
    ⟨mem1, mem', freed⟩, ⟨rfl, rfl⟩, rfl⟩
  · have links := sound.links
    have entered : (if heap.memRoot = block.addr then next else heap.memRoot) =
        DoublyLinked.headOf (front.map Block.addr) (DoublyLinked.headOf (back.map Block.addr) 0) := by
      rw [← next_eq]
      exact sound.memRoot_rest
    have distinct : ((front ++ back).map Block.addr).Nodup :=
      List.pairwise_map.mpr ((List.pairwise_map.mp apart).imp addr_ne_of_apart)
    rw [List.map_append] at distinct fields ⊢
    rw [List.map_append, List.map_cons] at links
    exact (links.remove distinct entered removed).congr (fields _ (by decide)) (fields _ (by decide))
  · refine BlockAt.of_bytes ?_ (away other there)
    rw [← mem1_eq]
    exact relinks.each apart there (sound.each other (old other there))
  · exact sound.bestBet_rest
  · exact sound.allocated_rest
  · rw [← allPieces_empty empty]
    exact sound.inuse
  · exact (law.2 addr notBlock).trans (frame1 addr outside)

end Release

/-! ## The call -/

/-- The pointer leads to a header that is marked as given back. -/
def Dead {System : Type} (heap : Heap System) (piece : Piece) : Prop :=
  unalign piece.payload heap - LiballocMinor.bytes = piece.addr ∧
    heap.get piece.addr LiballocMinor.magic = deadMagic

/-- A piece is not in use any longer. -/
structure Freed {System : Type} (hooks : Hooks System) (holds : System → List Pages → Prop)
    (heap heap' : Heap System) (blocks blocks' : List Block) (piece : Piece) : Prop where
  sound : Sound holds heap' blocks'
  occupied : Occupied blocks'
  pieces : (allPieces blocks).Perm (piece :: allPieces blocks')
  kept : ∀ addr, Owned blocks' addr → heap'.mem addr = heap.mem addr
  outside : ∀ addr, Outside blocks addr → heap'.mem addr = heap.mem addr
  pages : (blocks'.map Block.span = blocks.map Block.span ∧ heap'.system = heap.system ∧
      Dead heap' piece) ∨
    ∃ block ∈ blocks, block.pieces = [piece] ∧
      (blocks.map Block.span).Perm (block.span :: blocks'.map Block.span) ∧
      ∃ mem mem', hooks.free block.addr block.pages (mem, heap.system) = (mem', heap'.system)
  quiet : Quiet heap heap'
  warningCount : heap'.warningCount = heap.warningCount

section Kfree

variable {System : Type} {hooks : Hooks System} {holds : System → List Pages → Prop}
  {ready : System → BitVec 32 → Prop}
  {heap heap' : Heap System} {blocks : List Block} {piece : Piece}

/-- Only the best bet may change. -/
theorem improveBet_eq (maj : BitVec 32) (heap : Heap System) : ∃ bet,
    improveBet maj heap = { heap with bestBet := bet } ∧ (bet = heap.bestBet ∨ bet = maj) := by
  rw [improveBet]
  split
  · dsimp only
    split
    · exact ⟨maj, rfl, Or.inr rfl⟩
    · exact ⟨heap.bestBet, rfl, Or.inl rfl⟩
  · exact ⟨heap.bestBet, rfl, Or.inl rfl⟩

section Unthreaded

variable {front back : List Block} {block : Block} {pieces pieces' : List Piece} {mem : Mem}
  {split : block.pieces = pieces ++ piece :: pieces'}

/-- The piece is all that is missing. -/
theorem allPieces_without (front back : List Block) (split : block.pieces = pieces ++ piece :: pieces') :
    (allPieces (front ++ block :: back)).Perm
      (piece :: allPieces (front ++ block.without split :: back)) := by
  simp only [allPieces, List.flatMap_append, List.flatMap_cons]
  rw [split, show (block.without split).pieces = pieces ++ pieces' from rfl, List.append_assoc,
    List.append_assoc, List.cons_append]
  have inner := @List.perm_middle _ piece pieces (pieces' ++ back.flatMap Block.pieces)
  exact (inner.append_left _).trans List.perm_middle

theorem Sound.unthreaded (sound : Sound holds heap (front ++ block :: back))
    (unthreaded : Unthreaded heap.mem mem block pieces pieces' piece) :
    Sound holds (heap.taken mem piece) (front ++ block.without split :: back) := by
  have held := sound.each block (List.mem_append_right _ List.mem_cons_self)
  have replaces : Replaces heap (heap.taken mem piece) block (block.without split) :=
    ⟨rfl, unthreaded.held split held, unthreaded.header _ (by decide) (by decide) (by decide),
      unthreaded.header _ (by decide) (by decide) (by decide),
      fun addr outside => unthreaded.frame_outside outside, rfl, rfl, rfl, rfl⟩
  refine sound.replace replaces ?_
  have total := ((allPieces_without front back split).map fun piece => piece.size.toNat).sum_eq
  have before := sound.inuse
  rw [total, List.map_cons, List.sum_cons, BitVec.ofNat_add, BitVec.ofNat_toNat] at before
  show heap.inuse - piece.size.setWidth 64 = _
  rw [before]
  exact add_sub_cancel_left _ _

/-- The other pieces keep their bytes. -/
theorem Unthreaded.kept_owned (unthreaded : Unthreaded heap.mem mem block pieces pieces' piece)
    (sound : Sound holds heap (front ++ block :: back)) {addr : BitVec 32}
    (owned : Owned (front ++ block.without split :: back) addr) : mem addr = heap.mem addr := by
  have owned' : Owned (front ++ block :: back) addr := by
    rcases owned with ⟨other, inside, owns⟩
    exact ⟨other, (allPieces_without front back split).mem_iff.mpr (List.mem_cons_of_mem _ inside), owns⟩
  refine unthreaded.frame addr (fun record listed => owned_outside sound.apart owned' record ?_)
  exact mem_allRecords.mpr ⟨block, List.mem_append_right _ List.mem_cons_self, listed⟩

theorem Unthreaded.marks (unthreaded : Unthreaded heap.mem mem block pieces pieces' piece)
    (held : BlockAt heap.mem block) (member : piece ∈ block.pieces) : Dead (heap.taken mem piece) piece := by
  refine ⟨?_, unthreaded.dead⟩
  have same : unalign piece.payload (heap.taken mem piece) = unalign piece.payload heap := by
    have info := unthreaded.frame _ (block.info_outside member)
    rw [unalign, unalign, show (heap.taken mem piece).mem = mem from rfl, info]
  rw [same, unalign_payload held member]

/-- The code sees whether the block is empty now. -/
theorem Unthreaded.first_eq_zero_iff (unthreaded : Unthreaded heap.mem mem block pieces pieces' piece)
    (held : BlockAt heap.mem block) (split : block.pieces = pieces ++ piece :: pieces') :
    (heap.taken mem piece).get block.addr LiballocMajor.first = 0 ↔ pieces ++ pieces' = [] := by
  have entry : (heap.taken mem piece).get block.addr LiballocMajor.first = DoublyLinked.headOf
      ((pieces ++ pieces').map Piece.addr) 0 := (unthreaded.held split held).links.entry_eq
  rw [entry]
  cases others : pieces ++ pieces' with
  | nil => exact iff_of_true rfl rfl
  | cons other rest =>
      have listed : other ∈ block.pieces := by
        rw [split]
        refine List.perm_middle.mem_iff.mpr (List.mem_cons_of_mem _ ?_)
        rw [others]
        exact List.mem_cons_self
      exact iff_of_false (Block.piece_addr_ne_zero listed) (List.cons_ne_nil _ _)

/-- It was the last piece: the block goes back to the system. -/
theorem Freed.of_last (lawful : hooks.Lawful holds ready) (sound : Sound holds heap (front ++ block :: back))
    (occupied : Occupied (front ++ block :: back)) (split : block.pieces = pieces ++ piece :: pieces')
    (unthreaded : Unthreaded heap.mem mem block pieces pieces' piece) (empty : pieces ++ pieces' = []) :
    Freed hooks holds heap (releaseMajor hooks block.addr (heap.taken mem piece)) (front ++ block :: back)
      (front ++ back) piece := by
  have there : block ∈ front ++ block :: back := List.mem_append_right _ List.mem_cons_self
  have perm := allPieces_without front back split
  have sound1 : Sound holds (heap.taken mem piece) (front ++ block.without split :: back) :=
    sound.unthreaded unthreaded
  rcases releaseMajor_spec lawful sound1 empty with ⟨sound2, frame, ⟨mem1, mem', freed⟩, quiet, warnings⟩
  rw [show (block.without split).addr = block.addr from rfl] at sound2 frame freed quiet warnings
  have less : allPieces (front ++ block.without split :: back) = allPieces (front ++ back) :=
    allPieces_empty empty
  rw [less] at perm
  refine ⟨sound2, ?_, perm, ?_, ?_, Or.inr ⟨block, there, ?_, ?_, mem1, mem', freed⟩,
    ⟨quiet.errorCount, quiet.possibleOverruns⟩, warnings⟩
  · intro other inside
    exact occupied other (List.perm_middle.mem_iff.mpr (List.mem_cons_of_mem _ inside))
  · intro addr owned
    have owned1 : Owned (front ++ block.without split :: back) addr := by
      rwa [Owned, less]
    refine Eq.trans (frame addr (owned_outside sound2.apart owned) ?_) (unthreaded.kept_owned sound owned1)
    intro inside
    rcases owned with ⟨other, listed, owns⟩
    rcases mem_allPieces.mp listed with ⟨far, farThere, farMember⟩
    have apart := (sound.others far farThere).1
    exact apart.not_contains inside (far.owns_bounds farMember owns).1
  · intro addr outside
    refine Eq.trans (frame addr ?_ (outside block there)) (unthreaded.frame_outside (outside block there))
    refine outside_outside (fun other inside => outside other ?_)
    exact List.perm_middle.mem_iff.mpr (List.mem_cons_of_mem _ inside)
  · rcases List.append_eq_nil_iff.mp empty with ⟨rfl, rfl⟩
    exact split
  · rw [List.map_append, List.map_cons, List.map_append]
    exact List.perm_middle

/-- Another piece is left: the block stays. -/
theorem Freed.of_others (sound : Sound holds heap (front ++ block :: back))
    (occupied : Occupied (front ++ block :: back)) (split : block.pieces = pieces ++ piece :: pieces')
    (unthreaded : Unthreaded heap.mem mem block pieces pieces' piece) (others : pieces ++ pieces' ≠ []) :
    Freed hooks holds heap (improveBet block.addr (heap.taken mem piece)) (front ++ block :: back)
      (front ++ block.without split :: back) piece := by
  have there : block ∈ front ++ block :: back := List.mem_append_right _ List.mem_cons_self
  have held := sound.each block there
  have member : piece ∈ block.pieces := by
    rw [split]
    exact List.mem_append_right _ List.mem_cons_self
  have sound1 : Sound holds (heap.taken mem piece) (front ++ block.without split :: back) :=
    sound.unthreaded unthreaded
  rcases improveBet_eq block.addr (heap.taken mem piece) with ⟨bet, improved, bets⟩
  have known : bet = 0 ∨ bet ∈ (front ++ block.without split :: back).map Block.addr := by
    rcases bets with rfl | rfl
    · exact sound1.bestBet
    · refine Or.inr (List.mem_map.mpr ⟨block.without split, ?_, rfl⟩)
      exact List.mem_append_right _ List.mem_cons_self
  rw [improved]
  refine ⟨sound1.bet known, ?_, allPieces_without front back split,
    fun addr owned => unthreaded.kept_owned sound owned, ?_,
    Or.inl ⟨?_, rfl, unthreaded.marks held member⟩, ⟨rfl, rfl⟩, rfl⟩
  · intro other inside
    rcases List.mem_cons.mp (List.perm_middle.mem_iff.mp inside) with rfl | inside
    · exact others
    · exact occupied other (List.perm_middle.mem_iff.mpr (List.mem_cons_of_mem _ inside))
  · exact fun addr outside => unthreaded.frame_outside (outside block there)
  · rw [List.map_append, List.map_cons, List.map_append, List.map_cons]
    rfl

end Unthreaded

theorem kfree_freed (lawful : hooks.Lawful holds ready) (sound : Sound holds heap blocks)
    (occupied : Occupied blocks) (used : piece ∈ allPieces blocks) :
    ∃ blocks', Freed hooks holds heap (kfree hooks piece.payload heap) blocks blocks' piece := by
  rcases mem_allPieces.mp used with ⟨block, there, member⟩
  rcases List.append_of_mem there with ⟨front, back, rfl⟩
  rcases List.append_of_mem member with ⟨pieces, pieces', split⟩
  have held := sound.each block there
  have magic : heap.get piece.addr LiballocMinor.magic = liveMagic := (held.each piece member).magic
  have owner : heap.get piece.addr LiballocMinor.block = block.addr := (held.each piece member).block
  have bounds := block.bounds member
  have data := piece.data_bounds
  have address : piece.payload.toNat = piece.data := Nat.mod_eq_of_lt (by omega)
  have nonnull : piece.payload ≠ 0 := by
    intro null
    rw [null] at address
    have zero : (0 : Nat) = piece.data := address
    omega
  rcases unlinkMinor_spec held split with ⟨mem, unlinked, unthreaded⟩
  have first := unthreaded.first_eq_zero_iff held split
  rw [kfree, if_neg nonnull, unalign_payload held member]
  dsimp only
  rw [if_neg (not_not.mpr magic), owner, unlinked]
  by_cases empty : pieces ++ pieces' = []
  · rw [if_pos (first.mpr empty)]
    exact ⟨_, Freed.of_last lawful sound occupied split unthreaded empty⟩
  · rw [if_neg (mt first.mp empty)]
    exact ⟨_, Freed.of_others sound occupied split unthreaded empty⟩

/-- A pointer that has been given back is not given back twice: the error is counted, and
nothing else happens. -/
theorem kfree_of_dead (nonnull : piece.payload ≠ 0) (dead : Dead heap piece) :
    kfree hooks piece.payload heap = { heap with errorCount := heap.errorCount + 1 } := by
  rw [kfree, if_neg nonnull, dead.1]
  dsimp only
  rw [dead.2, if_pos (by decide), reportMagic]
  exact if_neg (by decide)

end Kfree

end Liballoc

end WeakOS
