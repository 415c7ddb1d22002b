import Mathlib
import WeakOS.Liballoc.Blocks

namespace WeakOS

open Foundation X86

namespace Liballoc

/-!
# A new piece in a block

Wherever `kmalloc` finds a gap, the new piece begins where the piece in front of
the gap ends.  The four cases write the links in different orders; what the
memory holds afterwards is the same.
-/

/-! ## Gaps -/

namespace Block

variable (block : Block)

/-- Where the gap behind some pieces begins. -/
def gapFrom (front : List Piece) : Nat :=
  Layout.reach Piece.base Piece.length (block.addr.toNat + 24) front

/-- Where the gap in front of some pieces ends. -/
def gapTo (back : List Piece) : Nat := Layout.start Piece.base back block.limit

/-- The gap between the pieces has room for a header and some bytes. -/
structure Gap (front back : List Piece) (size : BitVec 32) : Prop where
  split : block.pieces = front ++ back
  room : block.gapFrom front + 24 + size.toNat ≤ block.gapTo back

theorem gapFrom_concat (front : List Piece) (piece : Piece) :
    block.gapFrom (front ++ [piece]) = piece.base + piece.length := by
  unfold gapFrom
  generalize block.addr.toNat + 24 = low
  induction front generalizing low with
  | nil => rfl
  | cons first rest inductionHypothesis => exact inductionHypothesis _

theorem gapTo_le {front back : List Piece} (split : block.pieces = front ++ back) :
    block.gapFrom front ≤ block.gapTo back ∧ block.gapTo back ≤ block.limit := by
  have chained := block.chained
  rw [split] at chained
  have behind := chained.parts.2
  refine ⟨behind.low_le_start, ?_⟩
  cases back with
  | nil => exact Nat.le_refl _
  | cons piece back =>
      have bounds := behind.bounds List.mem_cons_self
      show piece.base ≤ _
      unfold limit bytes
      omega

/-- The block with one more piece. -/
def insert {front back : List Piece} {piece : Piece} (gap : block.Gap front back piece.size)
    (begins : piece.base = block.gapFrom front) : Block :=
  { block with
    pieces := front ++ piece :: back
    chained := by
      have chained := block.chained
      rw [gap.split] at chained
      refine chained.insert (Nat.le_of_eq begins.symm) piece.length_pos ?_
      have room := gap.room
      rw [begins, Piece.length, ← Nat.add_assoc]
      exact room }

end Block

/-- `whole` is `block` with one more piece. -/
structure Extends (block whole : Block) (front back : List Piece) (piece : Piece) : Prop where
  addr_eq : whole.addr = block.addr
  pages_eq : whole.pages = block.pages
  split : block.pieces = front ++ back
  split' : whole.pieces = front ++ piece :: back

namespace Block

variable {block : Block} {front back : List Piece} {piece : Piece}

theorem insert_extends (gap : block.Gap front back piece.size)
    (begins : piece.base = block.gapFrom front) :
    Extends block (block.insert gap begins) front back piece :=
  ⟨rfl, rfl, gap.split, rfl⟩

end Block

namespace Extends

variable {block whole : Block} {front back : List Piece} {piece other : Piece}

theorem used_eq (grown : Extends block whole front back piece) :
    whole.used = block.used + piece.length := by
  unfold Block.used
  rw [grown.split, grown.split', Layout.span_append, Layout.span_append, Layout.span_cons]
  omega

theorem member (grown : Extends block whole front back piece) : piece ∈ whole.pieces := by
  rw [grown.split']
  exact List.mem_append_right front List.mem_cons_self

theorem old_member (grown : Extends block whole front back piece) (listed : other ∈ front ++ back) :
    other ∈ whole.pieces := by
  rw [grown.split']
  rcases List.mem_append.mp listed with before | after
  · exact List.mem_append_left _ before
  · exact List.mem_append_right _ (List.mem_cons_of_mem _ after)

theorem mem_pieces (grown : Extends block whole front back piece) :
    other ∈ whole.pieces ↔ other = piece ∨ other ∈ block.pieces := by
  rw [grown.split, grown.split', List.mem_append, List.mem_cons, List.mem_append]
  exact or_left_comm

theorem block_record (grown : Extends block whole front back piece) :
    block.addr ∈ whole.records := by
  rw [← grown.addr_eq]
  exact List.mem_cons_self

theorem piece_record (grown : Extends block whole front back piece) : piece.addr ∈ whole.records :=
  List.mem_cons_of_mem _ (List.mem_map_of_mem grown.member)

theorem old_record (grown : Extends block whole front back piece) (listed : other ∈ front ++ back) :
    other.addr ∈ whole.records :=
  List.mem_cons_of_mem _ (List.mem_map_of_mem (grown.old_member listed))

/-- The addresses are different. -/
theorem distinct (grown : Extends block whole front back piece) :
    piece.addr ≠ block.addr ∧ (∀ other ∈ front ++ back, other.addr ≠ piece.addr ∧
      other.addr ≠ block.addr) ∧ ((front ++ back).map Piece.addr).Nodup := by
  have nodup := whole.records_nodup
  rw [Block.records, grown.addr_eq, List.nodup_cons] at nodup
  have inner := nodup.2
  rw [grown.split', List.map_append, List.map_cons, List.nodup_middle, List.nodup_cons,
    ← List.map_append] at inner
  refine ⟨?_, fun other listed => ⟨?_, ?_⟩, inner.2⟩
  · intro same
    exact nodup.1 (same ▸ List.mem_map_of_mem grown.member)
  · intro same
    exact inner.1 (same ▸ List.mem_map_of_mem listed)
  · intro same
    exact nodup.1 (same ▸ List.mem_map_of_mem (grown.old_member listed))

end Extends

/-- The block leads to its first piece. -/
theorem BlockAt.first_eq {mem : Mem} {block : Block} {pieces : List Piece} (held : BlockAt mem block)
    (split : block.pieces = pieces) : field mem block.addr LiballocMajor.first =
      DoublyLinked.headOf (pieces.map Piece.addr) 0 := split ▸ held.links.entry_eq

/-! ## What a placement does -/

/-- The effect of linking a piece into its block. -/
structure Threaded (mem mem' : Mem) (block whole : Block) (front back : List Piece) (piece : Piece) :
    Prop where
  header : ∀ i < 6, i ≠ LiballocMajor.first → field mem' block.addr i = field mem block.addr i
  first : field mem' block.addr LiballocMajor.first =
    DoublyLinked.headOf (front.map Piece.addr) piece.addr
  links : DoublyLinked.Links.Inserted (fun node => field mem node LiballocMinor.next)
    (fun node => field mem node LiballocMinor.prev) (fun node => field mem' node LiballocMinor.next)
    (fun node => field mem' node LiballocMinor.prev) 0 0 (front.map Piece.addr) (back.map Piece.addr)
    piece.addr
  magic : field mem' piece.addr LiballocMinor.magic = liveMagic
  owner : field mem' piece.addr LiballocMinor.block = block.addr
  size : field mem' piece.addr LiballocMinor.size = piece.size
  reqSize : field mem' piece.addr LiballocMinor.reqSize = piece.reqSize
  kept : ∀ other ∈ front ++ back, ∀ i < 6, i ≠ LiballocMinor.prev → i ≠ LiballocMinor.next →
    field mem' other.addr i = field mem other.addr i
  frame : ∀ addr, (∀ record ∈ whole.records, 24 ≤ (addr - record).toNat) → mem' addr = mem addr

/-- A piece that has been linked is counted, and the distance is put in front of its
pointer. -/
def counted (mem : Mem) (maj : BitVec 32) (piece : Piece) : Mem :=
  Function.update
    (setField mem maj LiballocMajor.usage
      (field mem maj LiballocMajor.usage + (piece.size + LiballocMinor.bytes)))
    (piece.payload - alignInfo) ((piece.payload - (piece.addr + LiballocMinor.bytes)).setWidth 8)

section Counted

variable {mem mem' : Mem} {block whole : Block} {front back : List Piece} {piece : Piece}

/-- Only the usage of the block changes. -/
theorem field_counted (grown : Extends block whole front back piece) {record : BitVec 32} {i : Nat}
    (member : record ∈ whole.records) (inside : i < 6) :
    field (counted mem block.addr piece) record i =
      if record = block.addr ∧ i = LiballocMajor.usage then
        field mem block.addr LiballocMajor.usage + (piece.size + LiballocMinor.bytes)
      else field mem record i := by
  rw [counted, field_update inside (by decide) (whole.info_outside grown.member record member)]
  exact field_setField (whole.records_apart.eq_or_apart grown.block_record member) (by decide)
    (by decide) inside

theorem counted_of_outside (grown : Extends block whole front back piece) {addr : BitVec 32}
    (outside : ∀ record ∈ whole.records, 24 ≤ (addr - record).toNat) (apart : ¬ piece.Contains addr) :
    counted mem block.addr piece addr = mem addr := by
  have info := whole.info_bounds grown.member
  have data := piece.data_bounds
  have different : addr ≠ piece.payload - alignInfo := by
    rintro rfl
    refine apart ?_
    unfold Piece.Contains
    omega
  rw [counted, Function.update_of_ne different]
  exact setField_of_outside (show LiballocMajor.usage < 6 by decide) (by decide)
    (outside _ grown.block_record)

/-- The block holds the new piece; its links, and the bytes outside of the headers and of
the piece, have not changed. -/
theorem Threaded.counted (grown : Extends block whole front back piece) (held : BlockAt mem block)
    (threaded : Threaded mem mem' block whole front back piece) :
    BlockAt (counted mem' block.addr piece) whole ∧
      (∀ i < 6, i ≠ LiballocMajor.usage → i ≠ LiballocMajor.first →
        field (Liballoc.counted mem' block.addr piece) block.addr i = field mem block.addr i) ∧
      ∀ addr, (∀ record ∈ whole.records, 24 ≤ (addr - record).toNat) → ¬ piece.Contains addr →
        Liballoc.counted mem' block.addr piece addr = mem addr := by
  have frame : ∀ addr, (∀ record ∈ whole.records, 24 ≤ (addr - record).toNat) →
      ¬ piece.Contains addr → Liballoc.counted mem' block.addr piece addr = mem addr :=
    fun addr outside apart =>
      (counted_of_outside grown outside apart).trans (threaded.frame addr outside)
  have distinct := grown.distinct
  have header : ∀ i < 6, i ≠ LiballocMajor.usage →
      field (Liballoc.counted mem' block.addr piece) block.addr i = field mem' block.addr i := by
    intro i small other
    rw [field_counted grown grown.block_record small, if_neg (fun both => other both.2)]
  have inner : ∀ record ∈ whole.pieces.map Piece.addr, ∀ i < 6,
      field (Liballoc.counted mem' block.addr piece) record i = field mem' record i := by
    intro record member i small
    have different : record ≠ block.addr := by
      rintro rfl
      rw [← grown.addr_eq] at member
      exact (List.nodup_cons.mp whole.records_nodup).1 member
    rw [field_counted grown (List.mem_cons_of_mem _ member) small, if_neg (fun both => different both.1)]
  refine ⟨⟨?_, ?_, ?_, ?_, ?_⟩, fun i small notUsage notFirst =>
    (header i small notUsage).trans (threaded.header i small notFirst), frame⟩
  · rw [grown.addr_eq, grown.pages_eq, header _ (by decide) (by decide),
      threaded.header _ (by decide) (by decide), held.pages]
  · rw [grown.addr_eq, grown.pages_eq, header _ (by decide) (by decide),
      threaded.header _ (by decide) (by decide), held.size]
  · rw [grown.addr_eq, field_counted grown grown.block_record (by decide), if_pos ⟨rfl, rfl⟩,
      threaded.header _ (by decide) (by decide), held.usage, grown.used_eq, Piece.length,
      BitVec.ofNat_add, BitVec.ofNat_add, BitVec.ofNat_toNat, BitVec.setWidth_eq, add_comm piece.size]
    rfl
  · have links := held.links
    rw [grown.split, List.map_append] at links
    have nodup := distinct.2.2
    rw [List.map_append] at nodup
    have inserted := links.insert nodup threaded.first threaded.links
    rw [grown.addr_eq, grown.split', List.map_append, List.map_cons, header _ (by decide) (by decide)]
    refine inserted.congr (fun node member => inner node ?_ _ (by decide))
      (fun node member => inner node ?_ _ (by decide))
    · rwa [grown.split', List.map_append, List.map_cons]
    · rwa [grown.split', List.map_append, List.map_cons]
  · intro other member
    have listed : other.addr ∈ whole.pieces.map Piece.addr := List.mem_map_of_mem member
    rw [grown.addr_eq]
    rcases grown.mem_pieces.mp member with rfl | old
    · exact ⟨(inner _ listed _ (by decide)).trans threaded.owner,
        (inner _ listed _ (by decide)).trans threaded.magic,
        (inner _ listed _ (by decide)).trans threaded.size,
        (inner _ listed _ (by decide)).trans threaded.reqSize, Function.update_self ..⟩
    · have kept := held.each other old
      have split := old
      rw [grown.split] at split
      have same : ∀ i < 6, i ≠ LiballocMinor.prev → i ≠ LiballocMinor.next →
          field (Liballoc.counted mem' block.addr piece) other.addr i = field mem other.addr i :=
        fun i small notPrev notNext =>
          (inner _ listed i small).trans (threaded.kept other split i small notPrev notNext)
      refine ⟨(same _ (by decide) (by decide) (by decide)).trans kept.block,
        (same _ (by decide) (by decide) (by decide)).trans kept.magic,
        (same _ (by decide) (by decide) (by decide)).trans kept.size,
        (same _ (by decide) (by decide) (by decide)).trans kept.reqSize, ?_⟩
      rw [frame _ (whole.info_outside member) (fun inside => ?_), kept.info]
      -- the distance in front of another pointer is inside of its own piece
      have info := whole.info_bounds member
      have data := other.data_bounds
      have own : other.Contains (other.payload - alignInfo) := by
        unfold Piece.Contains
        omega
      have equal := whole.piece_unique member grown.member own inside
      exact (distinct.2.1 other split).1 (congrArg Piece.addr equal)

end Counted

/-! ## Handing out -/

section HandOut

variable {System : Type} {heap : Heap System} {maj : BitVec 32} {piece : Piece}

theorem align_eq (room : piece.base + piece.length ≤ 2 ^ 32) (heap : Heap System) :
    align (piece.addr + LiballocMinor.bytes) heap =
      (piece.payload, heap.setByte (piece.payload - alignInfo)
        ((piece.payload - (piece.addr + LiballocMinor.bytes)).setWidth 8)) := by
  have data := piece.data_bounds
  have address : piece.payload.toNat = piece.data := Nat.mod_eq_of_lt (by omega)
  have ends : piece.data = (piece.base + 55) / 16 * 16 := rfl
  have start : (piece.addr + LiballocMinor.bytes).toNat = piece.base + 24 := by
    unfold LiballocMinor.bytes Piece.base at *
    bv_omega
  rw [align]
  dsimp only
  generalize piece.addr + LiballocMinor.bytes = q at start ⊢
  have mask : ((q + alignInfo) &&& (alignment - 1)).toNat = (q + alignInfo).toNat % 16 := by
    rw [BitVec.toNat_and]
    exact Nat.and_two_pow_sub_one_eq_mod _ 4
  generalize (q + alignInfo) &&& (alignment - 1) = diff at mask ⊢
  generalize piece.payload = payload at address ⊢
  unfold alignInfo alignment at *
  by_cases aligned : diff = 0
  · rw [if_neg (not_not.mpr aligned)]
    have same : q + 16 = payload := by bv_omega
    have distance : diff + 16 = payload - q := by bv_omega
    dsimp only
    rw [same, distance]
  · rw [if_pos aligned]
    have same : q + 16 + (16 - diff) = payload := by bv_omega
    have distance : 16 - diff + 16 = payload - q := by bv_omega
    dsimp only
    rw [same, distance]

/-- The end of every case. -/
theorem handOut_eq (room : piece.base + piece.length ≤ 2 ^ 32) (heap : Heap System)
    (maj : BitVec 32) : handOut maj piece.size piece.addr heap =
      (piece.payload, { heap with
        mem := counted heap.mem maj piece
        inuse := heap.inuse + piece.size.setWidth 64 }) := by
  rw [handOut, align_eq room]
  rfl

end HandOut

/-! ## The four cases -/

section Cases

variable {System : Type} {heap : Heap System} {block whole : Block} {front back : List Piece}
  {piece : Piece}

theorem Heap.get_set_self (heap : Heap System) (record : BitVec 32) (i : Nat) (value : BitVec 32) :
    (heap.set record i value).get record i = value := read32_write32 _ _ _

/-- Headers are the entries of a table. -/
theorem Heap.get_set {records : List (BitVec 32)} (apart : Records 6 records) {record other : BitVec 32}
    {i j : Nat} {value : BitVec 32} (member : record ∈ records) (member' : other ∈ records)
    (small : i < 6) (small' : j < 6) : (heap.set record i value).get other j =
      if other = record ∧ j = i then value else heap.get other j :=
  field_setField (apart.eq_or_apart member member') (by decide) small small'

/-- What the headers hold when the piece has been linked. -/
def linkedValue (mem : Mem) (block : Block) (front back : List Piece) (piece : Piece)
    (record : BitVec 32) (i : Nat) : BitVec 32 :=
  if record = piece.addr then
    if i = LiballocMinor.prev then DoublyLinked.lastOf 0 (front.map Piece.addr)
    else if i = LiballocMinor.next then DoublyLinked.headOf (back.map Piece.addr) 0
    else if i = LiballocMinor.block then block.addr
    else if i = LiballocMinor.magic then liveMagic
    else if i = LiballocMinor.size then piece.size
    else piece.reqSize
  else if record = block.addr then
    if i = LiballocMajor.first then DoublyLinked.headOf (front.map Piece.addr) piece.addr
    else field mem record i
  else if i = LiballocMinor.next ∧ record ∈ (front.map Piece.addr).getLast? then piece.addr
  else if i = LiballocMinor.prev ∧ record ∈ (back.map Piece.addr).head? then piece.addr
  else field mem record i

theorem Threaded.of_table {mem mem' : Mem} (grown : Extends block whole front back piece)
    (table : ∀ record ∈ whole.records, ∀ i < 6,
      field mem' record i = linkedValue mem block front back piece record i)
    (frame : ∀ addr, (∀ record ∈ whole.records, 24 ≤ (addr - record).toNat) → mem' addr = mem addr) :
    Threaded mem mem' block whole front back piece := by
  have distinct := grown.distinct
  have own : ∀ i < 6, field mem' piece.addr i = linkedValue mem block front back piece piece.addr i :=
    table _ grown.piece_record
  have old : ∀ node ∈ front.map Piece.addr ++ back.map Piece.addr, ∀ i < 6,
      field mem' node i =
        if i = LiballocMinor.next ∧ node ∈ (front.map Piece.addr).getLast? then piece.addr
        else if i = LiballocMinor.prev ∧ node ∈ (back.map Piece.addr).head? then piece.addr
        else field mem node i := by
    intro node member i small
    rw [← List.map_append] at member
    rcases List.mem_map.mp member with ⟨other, listed, rfl⟩
    rw [table _ (grown.old_record listed) i small, linkedValue, if_neg (distinct.2.1 other listed).1,
      if_neg (distinct.2.1 other listed).2]
  have header : ∀ i < 6, i ≠ LiballocMajor.first →
      field mem' block.addr i = field mem block.addr i := by
    intro i small notFirst
    rw [table _ grown.block_record i small, linkedValue, if_neg distinct.1.symm, if_pos rfl,
      if_neg notFirst]
  refine ⟨header, ?_, ⟨?_, ?_, ?_, ?_, ?_, ?_⟩, ?_, ?_, ?_, ?_, ?_, frame⟩
  · rw [table _ grown.block_record _ (by decide), linkedValue, if_neg distinct.1.symm, if_pos rfl,
      if_pos rfl]
  · exact (own _ (by decide)).trans (if_pos rfl)
  · exact (own _ (by decide)).trans (if_pos rfl)
  · intro node last
    have listed := List.mem_append_left (back.map Piece.addr) (List.mem_of_getLast? last)
    exact (old node listed _ (by decide)).trans (if_pos ⟨rfl, last⟩)
  · intro node first
    have listed := List.mem_append_right (front.map Piece.addr) (List.mem_of_mem_head? first)
    refine (old node listed _ (by decide)).trans ((if_neg ?_).trans (if_pos ⟨rfl, first⟩))
    exact fun both => absurd both.1 (by decide)
  · intro node listed notLast
    refine (old node listed _ (by decide)).trans ((if_neg ?_).trans (if_neg ?_))
    · exact fun both => notLast both.2
    · exact fun both => absurd both.1 (by decide)
  · intro node listed notFirst
    refine (old node listed _ (by decide)).trans ((if_neg ?_).trans (if_neg ?_))
    · exact fun both => absurd both.1 (by decide)
    · exact fun both => notFirst both.2
  · exact (own _ (by decide)).trans (if_pos rfl)
  · exact (own _ (by decide)).trans (if_pos rfl)
  · exact (own _ (by decide)).trans (if_pos rfl)
  · exact (own _ (by decide)).trans (if_pos rfl)
  · intro other listed i small notPrev notNext
    have member : other.addr ∈ front.map Piece.addr ++ back.map Piece.addr := by
      rw [← List.map_append]
      exact List.mem_map_of_mem listed
    rw [old _ member i small, if_neg (fun both => notNext both.1), if_neg (fun both => notPrev both.1)]

/-- A case is a list of writes that leaves the headers so. -/
theorem Threaded.of_writes {mem : Mem} (grown : Extends block whole front back piece)
    {writes : List Write} (known : ∀ write ∈ writes, write.1 ∈ whole.records ∧ write.2.1 < 6)
    (table : ∀ record ∈ whole.records, ∀ i < 6, written writes record i (field mem record i) =
      linkedValue mem block front back piece record i) :
    Threaded mem (setFields mem writes) block whole front back piece := by
  refine Threaded.of_table grown (fun record member i small => ?_) (fun addr outside => ?_)
  · rw [field_setFields whole.records_apart (by decide) known member small]
    exact table record member i small
  · exact setFields_of_outside (by decide)
      (fun write member => ⟨outside _ (known write member).1, (known write member).2⟩)

theorem placeFirst_eq (grown : Extends block whole [] [] piece)
    (begins : piece.addr = block.addr + LiballocMajor.bytes) (heap : Heap System) :
    ∃ mem', placeFirst block.addr piece.size piece.reqSize heap =
        handOut block.addr piece.size piece.addr { heap with mem := mem' } ∧
      Threaded heap.mem mem' block whole [] [] piece := by
  have distinct := grown.distinct
  let writes : List Write := [(block.addr, LiballocMajor.first, piece.addr),
    (piece.addr, LiballocMinor.magic, liveMagic), (piece.addr, LiballocMinor.prev, 0),
    (piece.addr, LiballocMinor.next, 0), (piece.addr, LiballocMinor.block, block.addr),
    (piece.addr, LiballocMinor.size, piece.size), (piece.addr, LiballocMinor.reqSize, piece.reqSize)]
  refine ⟨setFields heap.mem writes, ?_, Threaded.of_writes grown ?_ ?_⟩
  · rw [placeFirst, ← begins]
    rfl
  · simp only [writes, List.forall_mem_cons]
    exact ⟨⟨grown.block_record, by decide⟩, ⟨grown.piece_record, by decide⟩,
      ⟨grown.piece_record, by decide⟩, ⟨grown.piece_record, by decide⟩,
      ⟨grown.piece_record, by decide⟩, ⟨grown.piece_record, by decide⟩,
      ⟨grown.piece_record, by decide⟩, fun _ nothing => absurd nothing List.not_mem_nil⟩
  · intro record member i small
    by_cases new : record = piece.addr
    · subst new
      interval_cases i <;> simp [writes, written, linkedValue, LiballocMinor.prev,
        LiballocMinor.next, LiballocMinor.block, LiballocMinor.magic, LiballocMinor.size,
        LiballocMinor.reqSize]
    · simp [writes, written, linkedValue, new, ite_and]

theorem placeBefore_eq {next : Piece} (grown : Extends block whole [] (next :: back) piece)
    (begins : piece.addr = block.addr + LiballocMajor.bytes)
    (first : heap.get block.addr LiballocMajor.first = next.addr) :
    ∃ mem', placeBefore block.addr piece.size piece.reqSize heap =
        handOut block.addr piece.size piece.addr { heap with mem := mem' } ∧
      Threaded heap.mem mem' block whole [] (next :: back) piece := by
  have distinct := grown.distinct
  have nextMember : next ∈ [] ++ next :: back := List.mem_cons_self
  have nextRecord := grown.old_record nextMember
  have notPiece := (distinct.2.1 next nextMember).1
  have notBlock := (distinct.2.1 next nextMember).2
  let writes : List Write := [(next.addr, LiballocMinor.prev, piece.addr),
    (piece.addr, LiballocMinor.next, next.addr), (block.addr, LiballocMajor.first, piece.addr),
    (piece.addr, LiballocMinor.magic, liveMagic), (piece.addr, LiballocMinor.prev, 0),
    (piece.addr, LiballocMinor.block, block.addr), (piece.addr, LiballocMinor.size, piece.size),
    (piece.addr, LiballocMinor.reqSize, piece.reqSize)]
  refine ⟨setFields heap.mem writes, ?_, Threaded.of_writes grown ?_ ?_⟩
  · have apart := whole.records_apart
    have firstNow : (heap.set next.addr LiballocMinor.prev piece.addr).get block.addr
        LiballocMajor.first = next.addr := by
      rw [Heap.get_set apart nextRecord grown.block_record (by decide) (by decide),
        if_neg (fun both => notBlock both.1.symm), first]
    have firstThen : ((heap.set next.addr LiballocMinor.prev piece.addr).set piece.addr
        LiballocMinor.next next.addr).get block.addr LiballocMajor.first = next.addr := by
      rw [Heap.get_set apart grown.piece_record grown.block_record (by decide) (by decide),
        if_neg (fun both => distinct.1 both.1.symm), firstNow]
    have prevThen : ((heap.set next.addr LiballocMinor.prev piece.addr).set piece.addr
        LiballocMinor.next next.addr).get next.addr LiballocMinor.prev = piece.addr := by
      rw [Heap.get_set apart grown.piece_record nextRecord (by decide) (by decide),
        if_neg (fun both => notPiece both.1), Heap.get_set_self]
    rw [placeBefore, ← begins, first]
    rw [firstNow, Heap.get_set_self heap, firstThen, prevThen, Heap.get_set_self]
    rfl
  · simp only [writes, List.forall_mem_cons]
    exact ⟨⟨nextRecord, by decide⟩, ⟨grown.piece_record, by decide⟩, ⟨grown.block_record, by decide⟩,
      ⟨grown.piece_record, by decide⟩, ⟨grown.piece_record, by decide⟩,
      ⟨grown.piece_record, by decide⟩, ⟨grown.piece_record, by decide⟩,
      ⟨grown.piece_record, by decide⟩, fun _ nothing => absurd nothing List.not_mem_nil⟩
  · intro record member i small
    by_cases new : record = piece.addr
    · subst new
      interval_cases i <;> simp [writes, written, linkedValue, LiballocMinor.prev, distinct.1,
        LiballocMinor.next, LiballocMinor.block, LiballocMinor.magic, LiballocMinor.size,
        LiballocMinor.reqSize, LiballocMajor.first]
    · by_cases header : record = block.addr
      · subst header
        simp [writes, written, linkedValue, new, notBlock.symm]
      · by_cases follows : record = next.addr
        · subst follows
          simp [writes, written, linkedValue, new, header]
        · simp [writes, written, linkedValue, new, header, follows, Ne.symm follows]

/-- Behind another piece, the block leads to the same piece as before. -/
theorem linkedValue_block {mem : Mem} {last : Piece}
    (grown : Extends block whole (front ++ [last]) back piece) (held : BlockAt mem block) (i : Nat) :
    linkedValue mem block (front ++ [last]) back piece block.addr i = field mem block.addr i := by
  rw [linkedValue, if_neg grown.distinct.1.symm, if_pos rfl]
  split
  · rename_i isFirst
    rw [isFirst, held.first_eq grown.split]
    cases front with
    | nil => rfl
    | cons other rest => rfl
  · rfl

theorem placeLast_eq {last : Piece} (grown : Extends block whole (front ++ [last]) [] piece)
    (held : BlockAt heap.mem block) (begins : behind last.addr heap = piece.addr) :
    ∃ mem', placeLast block.addr piece.size piece.reqSize last.addr heap =
        handOut block.addr piece.size piece.addr { heap with mem := mem' } ∧
      Threaded heap.mem mem' block whole (front ++ [last]) [] piece := by
  have distinct := grown.distinct
  have lastMember : last ∈ front ++ [last] ++ [] := by simp
  have lastRecord := grown.old_record lastMember
  have notPiece := (distinct.2.1 last lastMember).1
  have notBlock := (distinct.2.1 last lastMember).2
  let writes : List Write := [(last.addr, LiballocMinor.next, piece.addr),
    (piece.addr, LiballocMinor.prev, last.addr), (piece.addr, LiballocMinor.next, 0),
    (piece.addr, LiballocMinor.magic, liveMagic), (piece.addr, LiballocMinor.block, block.addr),
    (piece.addr, LiballocMinor.size, piece.size), (piece.addr, LiballocMinor.reqSize, piece.reqSize)]
  refine ⟨setFields heap.mem writes, ?_, Threaded.of_writes grown ?_ ?_⟩
  · have nextThen : ((heap.set last.addr LiballocMinor.next piece.addr).set piece.addr
        LiballocMinor.prev last.addr).get last.addr LiballocMinor.next = piece.addr := by
      rw [Heap.get_set whole.records_apart grown.piece_record lastRecord (by decide) (by decide),
        if_neg (fun both => notPiece both.1), Heap.get_set_self]
    rw [placeLast, begins, Heap.get_set_self, nextThen]
    rfl
  · simp only [writes, List.forall_mem_cons]
    exact ⟨⟨lastRecord, by decide⟩, ⟨grown.piece_record, by decide⟩,
      ⟨grown.piece_record, by decide⟩, ⟨grown.piece_record, by decide⟩,
      ⟨grown.piece_record, by decide⟩, ⟨grown.piece_record, by decide⟩,
      ⟨grown.piece_record, by decide⟩, fun _ nothing => absurd nothing List.not_mem_nil⟩
  · intro record member i small
    by_cases new : record = piece.addr
    · subst new
      interval_cases i <;> simp [writes, written, linkedValue, LiballocMinor.prev,
        LiballocMinor.next, LiballocMinor.block, LiballocMinor.magic, LiballocMinor.size,
        LiballocMinor.reqSize]
    · by_cases header : record = block.addr
      · subst header
        rw [linkedValue_block grown held]
        simp [writes, written, new, notBlock.symm]
      · by_cases leads : record = last.addr
        · subst leads
          simp [writes, written, linkedValue, new, header]
        · simp [writes, written, linkedValue, new, header, leads, Ne.symm leads]

theorem placeBetween_eq {last next : Piece}
    (grown : Extends block whole (front ++ [last]) (next :: back) piece) (held : BlockAt heap.mem block)
    (begins : behind last.addr heap = piece.addr)
    (follows : heap.get last.addr LiballocMinor.next = next.addr) :
    ∃ mem', placeBetween block.addr piece.size piece.reqSize last.addr heap =
        handOut block.addr piece.size piece.addr { heap with mem := mem' } ∧
      Threaded heap.mem mem' block whole (front ++ [last]) (next :: back) piece := by
  have distinct := grown.distinct
  have lastMember : last ∈ front ++ [last] ++ next :: back := by simp
  have nextMember : next ∈ front ++ [last] ++ next :: back := by simp
  have lastRecord := grown.old_record lastMember
  have nextRecord := grown.old_record nextMember
  have notPiece := distinct.2.1 last lastMember
  have notPiece' := distinct.2.1 next nextMember
  have different : last.addr ≠ next.addr := by
    have nodup := distinct.2.2
    rw [List.map_append, List.nodup_append] at nodup
    exact nodup.2.2 _ (by simp) _ (by simp)
  let filled : List Write := [(piece.addr, LiballocMinor.magic, liveMagic),
    (piece.addr, LiballocMinor.next, next.addr), (piece.addr, LiballocMinor.prev, last.addr),
    (piece.addr, LiballocMinor.size, piece.size), (piece.addr, LiballocMinor.reqSize, piece.reqSize),
    (piece.addr, LiballocMinor.block, block.addr)]
  let writes : List Write := filled ++ [(next.addr, LiballocMinor.prev, piece.addr),
    (last.addr, LiballocMinor.next, piece.addr)]
  have known : ∀ write ∈ filled, write.1 ∈ whole.records ∧ write.2.1 < 6 := by
    simp only [filled, List.forall_mem_cons]
    exact ⟨⟨grown.piece_record, by decide⟩, ⟨grown.piece_record, by decide⟩,
      ⟨grown.piece_record, by decide⟩, ⟨grown.piece_record, by decide⟩,
      ⟨grown.piece_record, by decide⟩, ⟨grown.piece_record, by decide⟩,
      fun _ nothing => absurd nothing List.not_mem_nil⟩
  refine ⟨setFields heap.mem writes, ?_, Threaded.of_writes grown ?_ ?_⟩
  · have nextNow : (heap.set piece.addr LiballocMinor.magic liveMagic).get last.addr
        LiballocMinor.next = next.addr := by
      rw [Heap.get_set whole.records_apart grown.piece_record lastRecord (by decide) (by decide),
        if_neg (fun both => notPiece.1 both.1), follows]
    have nextThen : field (setFields heap.mem filled) last.addr LiballocMinor.next = next.addr := by
      rw [field_setFields whole.records_apart (by decide) known lastRecord (by decide)]
      simp only [filled, written, notPiece.1, false_and, if_false]
      exact follows
    rw [placeBetween, begins, nextNow]
    have rewritten := congrArg (fun node => handOut block.addr piece.size piece.addr
      { heap with mem := setField (setField (setFields heap.mem filled) node LiballocMinor.prev
        piece.addr) last.addr LiballocMinor.next piece.addr }) nextThen
    exact rewritten
  · intro write member
    rcases List.mem_append.mp member with inner | outer
    · exact known write inner
    · rcases List.mem_pair.mp outer with rfl | rfl
      · exact ⟨nextRecord, (by decide : LiballocMinor.prev < 6)⟩
      · exact ⟨lastRecord, (by decide : LiballocMinor.next < 6)⟩
  · intro record member i small
    by_cases new : record = piece.addr
    · subst new
      interval_cases i <;> simp [writes, filled, written, linkedValue, LiballocMinor.prev,
        notPiece.1.symm, notPiece'.1.symm, LiballocMinor.next, LiballocMinor.block,
        LiballocMinor.magic, LiballocMinor.size, LiballocMinor.reqSize]
    · by_cases header : record = block.addr
      · subst header
        rw [linkedValue_block grown held]
        simp [writes, filled, written, new, notPiece.2.symm, notPiece'.2.symm]
      · by_cases leads : record = last.addr
        · subst leads
          simp [writes, filled, written, linkedValue, new, header, different, different.symm]
        · by_cases trails : record = next.addr
          · subst trails
            simp [writes, filled, written, linkedValue, new, header, leads, Ne.symm leads]
          · simp [writes, filled, written, linkedValue, new, header, leads, Ne.symm leads, trails,
              Ne.symm trails]

end Cases

/-! ## The choice of the case -/

/-- A piece has been put into a block. -/
structure PlacedIn {System : Type} (heap heap' : Heap System) (block whole : Block) (piece : Piece) :
    Prop where
  grown : ∃ front back, Extends block whole front back piece
  held : BlockAt heap'.mem whole
  header : ∀ i < 6, i ≠ LiballocMajor.usage → i ≠ LiballocMajor.first →
    field heap'.mem block.addr i = field heap.mem block.addr i
  frame : ∀ addr, (∀ record ∈ whole.records, 24 ≤ (addr - record).toNat) → ¬ piece.Contains addr →
    heap'.mem addr = heap.mem addr
  rest : heap' = { heap with mem := heap'.mem, inuse := heap.inuse + piece.size.setWidth 64 }

section PlaceIn

variable {System : Type} {heap : Heap System} {block : Block} {front back : List Piece}
  {size reqSize : BitVec 32}

theorem BlockAt.size_toNat {mem : Mem} (held : BlockAt mem block) :
    (field mem block.addr LiballocMajor.size).toNat = block.bytes := by
  have room := block.room
  have nonnull := block.nonnull
  have pageBytes : pageSize.toNat = 4096 := rfl
  rw [held.size, BitVec.toNat_mul, pageBytes]
  exact Nat.mod_eq_of_lt (by omega)

/-- A piece for a gap. -/
theorem exists_piece (fits : reqSize.toNat + 32 ≤ size.toNat) (gap : block.Gap front back size) :
    ∃ piece : Piece, piece.size = size ∧ piece.reqSize = reqSize ∧ piece.base = block.gapFrom front ∧
      block.Gap front back piece.size := by
  have bounds := block.gapTo_le gap.split
  have limit := block.limit_le
  have room := gap.room
  refine ⟨⟨BitVec.ofNat 32 (block.gapFrom front), size, reqSize, fits⟩, rfl, rfl, ?_, gap⟩
  exact Nat.mod_eq_of_lt (by omega)

/-- Each case hands out a piece in the gap. -/
theorem PlacedIn.of_threaded {piece : Piece} {whole : Block} {mem' : Mem} {ptr : BitVec 32}
    {heap' : Heap System} (held : BlockAt heap.mem block) (grown : Extends block whole front back piece)
    (threaded : Threaded heap.mem mem' block whole front back piece)
    (result : (ptr, heap') = handOut block.addr piece.size piece.addr { heap with mem := mem' }) :
    ptr = piece.payload ∧ PlacedIn heap heap' block whole piece := by
  have bounds := whole.bounds grown.member
  have counted := threaded.counted grown held
  rw [handOut_eq (Nat.le_trans bounds.2.1 bounds.2.2), Prod.mk.injEq] at result
  rcases result with ⟨rfl, rfl⟩
  exact ⟨rfl, ⟨_, _, grown⟩, counted.1, counted.2.1, counted.2.2, rfl⟩

/-- What a search for a gap in a block finds. -/
def FindsGap (heap : Heap System) (block : Block) (size reqSize : BitVec 32)
    (absent : Prop) : Option (BitVec 32 × Heap System) → Prop
  | none => absent
  | some (ptr, heap') => ∃ whole piece, piece.size = size ∧ piece.reqSize = reqSize ∧
      ptr = piece.payload ∧ PlacedIn heap heap' block whole piece

/-- Where a piece ends that is followed by a header. -/
theorem behind_eq {last piece : Piece} (held : BlockAt heap.mem block) (member : last ∈ block.pieces)
    (begins : piece.base = last.base + last.length) : behind last.addr heap = piece.addr := by
  have size := (held.each last member).size
  have small := piece.addr.isLt
  rw [behind, Heap.get, size]
  unfold Piece.base Piece.length LiballocMinor.bytes at *
  bv_omega

theorem placeFirst_finds (held : BlockAt heap.mem block) (fits : reqSize.toNat + 32 ≤ size.toNat)
    {absent : Prop} (gap : block.Gap [] [] size) :
    FindsGap heap block size reqSize absent (some (placeFirst block.addr size reqSize heap)) := by
  rcases exists_piece fits gap with ⟨piece, rfl, rfl, begins, gap⟩
  have grown := Block.insert_extends gap begins
  have address : piece.addr = block.addr + LiballocMajor.bytes := by
    have start : piece.addr.toNat = block.addr.toNat + 24 := begins
    unfold LiballocMajor.bytes
    bv_omega
  rcases placeFirst_eq grown address heap with ⟨mem', placed, threaded⟩
  exact ⟨_, piece, rfl, rfl, PlacedIn.of_threaded held grown threaded placed⟩

theorem placeBefore_finds {next : Piece} (held : BlockAt heap.mem block)
    (fits : reqSize.toNat + 32 ≤ size.toNat) {absent : Prop} (gap : block.Gap [] (next :: back) size) :
    FindsGap heap block size reqSize absent (some (placeBefore block.addr size reqSize heap)) := by
  rcases exists_piece fits gap with ⟨piece, rfl, rfl, begins, gap⟩
  have grown := Block.insert_extends gap begins
  have address : piece.addr = block.addr + LiballocMajor.bytes := by
    have start : piece.addr.toNat = block.addr.toNat + 24 := begins
    unfold LiballocMajor.bytes
    bv_omega
  rcases placeBefore_eq grown address (held.first_eq gap.split) with ⟨mem', placed, threaded⟩
  exact ⟨_, piece, rfl, rfl, PlacedIn.of_threaded held grown threaded placed⟩

theorem placeLast_finds {last : Piece} (held : BlockAt heap.mem block)
    (fits : reqSize.toNat + 32 ≤ size.toNat) {absent : Prop} (gap : block.Gap (front ++ [last]) [] size) :
    FindsGap heap block size reqSize absent
      (some (placeLast block.addr size reqSize last.addr heap)) := by
  rcases exists_piece fits gap with ⟨piece, rfl, rfl, begins, gap⟩
  have grown := Block.insert_extends gap begins
  rw [block.gapFrom_concat] at begins
  have member : last ∈ block.pieces := by
    rw [gap.split]
    simp
  rcases placeLast_eq grown held (behind_eq held member begins) with ⟨mem', placed, threaded⟩
  exact ⟨_, piece, rfl, rfl, PlacedIn.of_threaded held grown threaded placed⟩

theorem placeBetween_finds {last next : Piece} (held : BlockAt heap.mem block)
    (fits : reqSize.toNat + 32 ≤ size.toNat) {absent : Prop}
    (gap : block.Gap (front ++ [last]) (next :: back) size)
    (follows : heap.get last.addr LiballocMinor.next = next.addr) :
    FindsGap heap block size reqSize absent
      (some (placeBetween block.addr size reqSize last.addr heap)) := by
  rcases exists_piece fits gap with ⟨piece, rfl, rfl, begins, gap⟩
  have grown := Block.insert_extends gap begins
  rw [block.gapFrom_concat] at begins
  have member : last ∈ block.pieces := by
    rw [gap.split]
    simp
  rcases placeBetween_eq grown held (behind_eq held member begins) follows with
    ⟨mem', placed, threaded⟩
  exact ⟨_, piece, rfl, rfl, PlacedIn.of_threaded held grown threaded placed⟩

/-- What the loop reads at a piece. -/
theorem BlockAt.reads {last : Piece} (held : BlockAt heap.mem block)
    (split : block.pieces = front ++ last :: back) : last.addr ≠ 0 ∧
      heap.get last.addr LiballocMinor.next = DoublyLinked.headOf (back.map Piece.addr) 0 ∧
      heap.get last.addr LiballocMinor.size = last.size := by
  have member : last ∈ block.pieces := by
    rw [split]
    exact List.mem_append_right _ List.mem_cons_self
  have links := held.links
  rw [split, List.map_append, List.map_cons] at links
  refine ⟨?_, links.at.2, (held.each last member).size⟩
  have bounds := block.bounds member
  unfold Piece.base at bounds
  bv_omega

/-- The gap behind a piece, up to the next one. -/
theorem Block.gap_iff {last : Piece} (split : block.pieces = front ++ last :: back) :
    block.Gap (front ++ [last]) back size ↔
      last.base + last.length + 24 + size.toNat ≤ block.gapTo back := by
  have split' : block.pieces = (front ++ [last]) ++ back := by
    rw [split, List.append_assoc]
    rfl
  constructor
  · intro gap
    have room := gap.room
    rwa [block.gapFrom_concat] at room
  · intro room
    refine ⟨split', ?_⟩
    rwa [block.gapFrom_concat]

/-- Where the piece ends. -/
theorem Block.end_le {last : Piece} (split : block.pieces = front ++ last :: back) :
    last.base + last.length ≤ block.gapTo back ∧ block.gapTo back ≤ block.limit := by
  have split' : block.pieces = (front ++ [last]) ++ back := by
    rw [split, List.append_assoc]
    rfl
  have bounds := block.gapTo_le split'
  rwa [block.gapFrom_concat] at bounds

/-- The loop over the pieces ends, and finds a gap behind one of them if there is one. -/
theorem minorLoop_spec (held : BlockAt heap.mem block) (fits : reqSize.toNat + 32 ≤ size.toNat)
    (small : size.toNat + 24 < 2 ^ 32) {last : Piece} {fuel : Nat}
    (split : block.pieces = front ++ last :: back) (enough : back.length + 1 < fuel) :
    ∃ outcome, minorLoop block.addr size reqSize fuel last.addr heap = some outcome ∧
      FindsGap heap block size reqSize
        (∀ middle rest, back = middle ++ rest → ¬ block.Gap (front ++ last :: middle) rest size)
        outcome := by
  have asked : (size + LiballocMinor.bytes).toNat = size.toNat + 24 := by
    unfold LiballocMinor.bytes
    bv_omega
  have limit := block.limit_le
  induction back generalizing front last fuel with
  | nil =>
      rcases held.reads split with ⟨nonnull, next, pieceSize⟩
      have ends := Block.end_le split
      have header := block.header_room
      rcases fuel with _ | _ | fuel
      · exact absurd enough (Nat.not_lt_zero _)
      · exact absurd enough (Nat.lt_irrefl _)
      have diff : (block.addr + heap.get block.addr LiballocMajor.size - last.addr -
          LiballocMinor.bytes - heap.get last.addr LiballocMinor.size).toNat =
          block.limit - (last.base + last.length) := by
        have whole : (heap.get block.addr LiballocMajor.size).toNat = block.bytes := held.size_toNat
        rw [pieceSize]
        unfold Block.gapTo Layout.start at ends
        unfold LiballocMinor.bytes Block.limit Piece.base Piece.length at *
        bv_omega
      have test : block.addr + heap.get block.addr LiballocMajor.size - last.addr -
          LiballocMinor.bytes - heap.get last.addr LiballocMinor.size ≥ size + LiballocMinor.bytes ↔
            block.Gap (front ++ [last]) [] size := by
        rw [ge_iff_le, BitVec.le_def, diff, asked, Block.gap_iff split, Block.gapTo, Layout.start]
        show _ ≤ _ ↔ _ ≤ block.limit
        omega
      have end0 : heap.get last.addr LiballocMinor.next = 0 := next
      rw [minorLoop, if_neg nonnull, end0, if_pos rfl]
      dsimp only
      by_cases gap : block.Gap (front ++ [last]) [] size
      · rw [if_pos (test.mpr gap)]
        exact ⟨_, rfl, placeLast_finds held fits gap⟩
      · rw [if_neg (mt test.mp gap)]
        refine ⟨none, if_pos rfl, fun middle rest parts => ?_⟩
        rcases List.append_eq_nil_iff.mp parts.symm with ⟨rfl, rfl⟩
        exact gap
  | cons next back inductionHypothesis =>
      rcases held.reads split with ⟨nonnull, follows, pieceSize⟩
      have ends := Block.end_le split
      have split' : block.pieces = (front ++ [last]) ++ next :: back := by
        rw [split, List.append_assoc]
        rfl
      have nextNonnull := (held.reads split').1
      rcases fuel with _ | fuel
      · exact absurd enough (Nat.not_lt_zero _)
      have diff : (next.addr - last.addr - LiballocMinor.bytes -
          heap.get last.addr LiballocMinor.size).toNat = next.base - (last.base + last.length) := by
        rw [pieceSize]
        have before : last.base + last.length ≤ next.base := ends.1
        unfold LiballocMinor.bytes Piece.base Piece.length at *
        bv_omega
      have test : next.addr - last.addr - LiballocMinor.bytes - heap.get last.addr LiballocMinor.size ≥
          size + LiballocMinor.bytes ↔ block.Gap (front ++ [last]) (next :: back) size := by
        rw [ge_iff_le, BitVec.le_def, diff, asked, Block.gap_iff split]
        show _ ≤ _ ↔ _ ≤ next.base
        have before : last.base + last.length ≤ next.base := ends.1
        omega
      have follows' : heap.get last.addr LiballocMinor.next = next.addr := follows
      rw [minorLoop, if_neg nonnull, follows', if_neg nextNonnull]
      dsimp only
      by_cases gap : block.Gap (front ++ [last]) (next :: back) size
      · rw [if_pos (test.mpr gap)]
        exact ⟨_, rfl, placeBetween_finds held fits gap follows'⟩
      · rw [if_neg (mt test.mp gap)]
        rw [List.length_cons] at enough
        rcases inductionHypothesis split' (Nat.lt_of_succ_lt_succ enough) with ⟨outcome, found, finds⟩
        refine ⟨outcome, found, ?_⟩
        cases outcome with
        | some result => exact finds
        | none =>
            intro middle rest parts
            cases middle with
            | nil =>
                rw [List.nil_append] at parts
                rw [← parts]
                exact gap
            | cons other middle =>
                rcases List.cons.inj parts with ⟨rfl, others⟩
                have absent := finds middle rest others
                rwa [List.append_assoc] at absent

/-- CASE 2 to CASE 4: a gap of the block is found if there is one. -/
theorem placeIn_spec (held : BlockAt heap.mem block) (fits : reqSize.toNat + 32 ≤ size.toNat)
    (small : size.toNat + 24 < 2 ^ 32) (fresh : block.pieces = [] → block.Gap [] [] size) :
    ∃ outcome, placeIn block.addr size reqSize heap = some outcome ∧
      FindsGap heap block size reqSize (∀ front back, ¬ block.Gap front back size) outcome := by
  have asked : (size + LiballocMinor.bytes).toNat = size.toNat + 24 := by
    unfold LiballocMinor.bytes
    bv_omega
  have limit := block.limit_le
  cases pieces : block.pieces with
  | nil =>
      have first : heap.get block.addr LiballocMajor.first = 0 := held.first_eq pieces
      rw [placeIn, if_pos first]
      exact ⟨_, rfl, placeFirst_finds held fits (fresh pieces)⟩
  | cons next back =>
      have split : block.pieces = [] ++ next :: back := pieces
      have nonnull := (held.reads split).1
      have first : heap.get block.addr LiballocMajor.first = next.addr := held.first_eq pieces
      have before : block.addr.toNat + 24 ≤ next.base := (block.gapTo_le split).1
      have diff : (next.addr - block.addr - LiballocMajor.bytes).toNat =
          next.base - (block.addr.toNat + 24) := by
        unfold LiballocMajor.bytes Piece.base at *
        bv_omega
      have test : next.addr - block.addr - LiballocMajor.bytes ≥ size + LiballocMinor.bytes ↔
          block.Gap [] (next :: back) size := by
        rw [ge_iff_le, BitVec.le_def, diff, asked]
        constructor
        · intro room
          refine ⟨split, ?_⟩
          show block.addr.toNat + 24 + 24 + size.toNat ≤ next.base
          omega
        · intro gap
          have room : block.addr.toNat + 24 + 24 + size.toNat ≤ next.base := gap.room
          omega
      rw [placeIn, first, if_neg nonnull]
      dsimp only
      by_cases gap : block.Gap [] (next :: back) size
      · rw [if_pos (test.mpr gap)]
        exact ⟨_, rfl, placeBefore_finds held fits gap⟩
      · rw [if_neg (mt test.mp gap)]
        have enough : back.length + 1 < iterations := by
          have count := block.chained.count_le_span
          have used := block.chained.span_le
          rw [pieces, List.length_cons] at count
          have room := block.room
          rw [pieces] at used
          unfold iterations
          omega
        rcases minorLoop_spec held fits small split enough with ⟨outcome, found, finds⟩
        refine ⟨outcome, found, ?_⟩
        cases outcome with
        | some result => exact finds
        | none =>
            intro front rest there
            have parts := there.split
            rw [pieces] at parts
            cases front with
            | nil =>
                rw [List.nil_append] at parts
                rw [← parts] at there
                exact gap there
            | cons other middle =>
                rcases List.cons.inj parts with ⟨rfl, others⟩
                exact finds middle rest others there

end PlaceIn

end Liballoc

end WeakOS
