import Mathlib
import WeakOS.Liballoc.Place

namespace WeakOS

open Foundation X86

namespace Liballoc

/-!
# The heap as a whole

The blocks that the allocator has got from the system are linked to a list, and
do not overlap.  What the allocator relies on is that the system gives it pages
which it does not have already, and that the system changes no memory apart from
the pages that it gives or takes.
-/

/-! ## The system -/

/-- Some pages, by address and number. -/
structure Pages where
  addr : BitVec 32
  count : BitVec 32

namespace Pages

variable (pages other : Pages)

def limit : Nat := pages.addr.toNat + pages.count.toNat * 4096

def Contains (addr : BitVec 32) : Prop := pages.addr.toNat ≤ addr.toNat ∧ addr.toNat < pages.limit

/-- The pages lie one behind the other. -/
def Apart : Prop := pages.limit ≤ other.addr.toNat ∨ other.limit ≤ pages.addr.toNat

end Pages

theorem Pages.Apart.symm {pages other : Pages} (apart : pages.Apart other) : other.Apart pages :=
  Or.symm apart

theorem Pages.Apart.not_contains {pages other : Pages} (apart : pages.Apart other) {addr : BitVec 32}
    (inside : pages.Contains addr) : ¬ other.Contains addr := by
  unfold Pages.Apart Pages.Contains at *
  omega

/-- What the pages are that a call of `liballoc_alloc` has given. -/
structure Gives {System : Type} (holds : System → List Pages → Prop) (mem : Mem)
    (given : List Pages) (pages : Pages) (mem' : Mem) (system' : System) : Prop where
  nonnull : pages.addr ≠ 0
  room : pages.limit ≤ 2 ^ 32
  apart : ∀ other ∈ given, pages.Apart other
  frame : ∀ addr, ¬ pages.Contains addr → mem' addr = mem addr
  held : holds system' (pages :: given)

/-- The system gives out pages that it has not given out, or a null pointer, and takes
back what it has given out.  It may be that it does so only when it is ready for that
many pages; it is never asked for fewer than sixteen. -/
structure Hooks.Lawful {System : Type} (hooks : Hooks System)
    (holds : System → List Pages → Prop) (ready : System → BitVec 32 → Prop) : Prop where
  perm : ∀ {system given given'}, holds system given → given.Perm given' → holds system given'
  alloc : ∀ {mem system given count ptr mem' system'}, holds system given →
    16 ≤ count.toNat → ready system count → hooks.alloc count (mem, system) = (ptr, mem', system') →
      (ptr = 0 → mem' = mem ∧ holds system' given) ∧
      (ptr ≠ 0 → Gives holds mem given ⟨ptr, count⟩ mem' system')
  free : ∀ {mem system given pages mem' system'}, holds system (pages :: given) →
    hooks.free pages.addr pages.count (mem, system) = (mem', system') →
      holds system' given ∧ ∀ addr, ¬ pages.Contains addr → mem' addr = mem addr

/-! ## The invariant -/

/-- The pages of a block. -/
def Block.span (block : Block) : Pages := ⟨block.addr, block.pages⟩

/-- All pieces in use. -/
def allPieces (blocks : List Block) : List Piece := blocks.flatMap Block.pieces

/-- The bytes that belong to the callers. -/
def Owned (blocks : List Block) (addr : BitVec 32) : Prop := ∃ piece ∈ allPieces blocks, piece.Owns addr

/-- The bytes that belong to nobody's block. -/
def Outside (blocks : List Block) (addr : BitVec 32) : Prop := ∀ block ∈ blocks, ¬ block.Contains addr

/-- The variables and the headers stand for these blocks. -/
structure Sound {System : Type} (holds : System → List Pages → Prop) (heap : Heap System)
    (blocks : List Block) : Prop where
  links : DoublyLinked.Linked (fun node => field heap.mem node LiballocMajor.next)
    (fun node => field heap.mem node LiballocMajor.prev) 0 heap.memRoot (blocks.map Block.addr) 0
  each : ∀ block ∈ blocks, BlockAt heap.mem block
  apart : (blocks.map Block.span).Pairwise Pages.Apart
  bestBet : heap.bestBet = 0 ∨ heap.bestBet ∈ blocks.map Block.addr
  allocated : heap.allocated = BitVec.ofNat 64 (blocks.map Block.bytes).sum
  inuse : heap.inuse = BitVec.ofNat 64 ((allPieces blocks).map fun piece => piece.size.toNat).sum
  held : holds heap.system (blocks.map Block.span)

section Sound

variable {System : Type} {holds : System → List Pages → Prop} {heap heap' : Heap System}
  {blocks front back : List Block} {block whole other : Block} {piece : Piece} {addr : BitVec 32}

theorem Block.addr_ne_zero (block : Block) : block.addr ≠ 0 := by
  have nonnull := block.nonnull
  bv_omega

/-- Blocks without a common page are at different addresses. -/
theorem addr_ne_of_apart (apart : block.span.Apart other.span) : block.addr ≠ other.addr := by
  have header := block.header_room
  have header' := other.header_room
  intro same
  unfold Pages.Apart Pages.limit Block.span at apart
  unfold Block.limit Block.bytes at header header'
  rw [same] at apart header
  dsimp only at apart
  omega

theorem Sound.addrs_nodup (sound : Sound holds heap blocks) : (blocks.map Block.addr).Nodup :=
  List.pairwise_map.mpr ((List.pairwise_map.mp sound.apart).imp addr_ne_of_apart)

/-- A block, and the ones that are apart from it. -/
theorem Sound.others (sound : Sound holds heap (front ++ block :: back)) :
    ∀ other ∈ front ++ back, block.span.Apart other.span ∧ other.addr ≠ block.addr := by
  have apart : (block :: (front ++ back)).Pairwise fun first second => first.span.Apart second.span :=
    (List.perm_middle.pairwise_iff Pages.Apart.symm).mp (List.pairwise_map.mp sound.apart)
  intro other member
  have separate := (List.pairwise_cons.mp apart).1 other member
  exact ⟨separate, (addr_ne_of_apart separate).symm⟩

/-- Blocks of the same pages have the same bytes. -/
theorem Block.contains_of_span (same : other.span = block.span) :
    other.Contains addr ↔ block.Contains addr :=
  Iff.of_eq (congrArg (fun pages => pages.Contains addr) same)

theorem mem_allPieces : piece ∈ allPieces blocks ↔ ∃ block ∈ blocks, piece ∈ block.pieces :=
  List.mem_flatMap

/-- The bytes that belong to a caller are in a block, behind the header of the piece. -/
theorem Block.owns_bounds (member : piece ∈ block.pieces) (owns : piece.Owns addr) :
    block.Contains addr ∧ piece.base + 24 ≤ addr.toNat ∧
      addr.toNat < piece.base + piece.length := by
  have bounds := block.bounds member
  have data := piece.data_bounds
  unfold Piece.Owns at owns
  unfold Block.Contains
  omega

/-! ### Changes inside of one block -/

/-- A block has got other pieces. -/
structure Replaces (heap heap' : Heap System) (block other : Block) : Prop where
  span : other.span = block.span
  held : BlockAt heap'.mem other
  next : field heap'.mem block.addr LiballocMajor.next = field heap.mem block.addr LiballocMajor.next
  prev : field heap'.mem block.addr LiballocMajor.prev = field heap.mem block.addr LiballocMajor.prev
  frame : ∀ addr, ¬ block.Contains addr → heap'.mem addr = heap.mem addr
  memRoot : heap'.memRoot = heap.memRoot
  bestBet : heap'.bestBet = heap.bestBet
  allocated : heap'.allocated = heap.allocated
  system : heap'.system = heap.system

theorem Sound.replace (sound : Sound holds heap (front ++ block :: back))
    (replaces : Replaces heap heap' block other)
    (inuse : heap'.inuse = BitVec.ofNat 64
      ((allPieces (front ++ other :: back)).map fun piece => piece.size.toNat).sum) :
    Sound holds heap' (front ++ other :: back) := by
  have spans : (front ++ other :: back).map Block.span = (front ++ block :: back).map Block.span := by
    rw [List.map_append, List.map_cons, replaces.span, List.map_append, List.map_cons]
  have addrs : (front ++ other :: back).map Block.addr = (front ++ block :: back).map Block.addr := by
    have same := congrArg (List.map Pages.addr) spans
    rwa [List.map_map, List.map_map] at same
  have bytes : (front ++ other :: back).map Block.bytes = (front ++ block :: back).map Block.bytes := by
    have same := congrArg (List.map fun pages => pages.count.toNat * 4096) spans
    rwa [List.map_map, List.map_map] at same
  have apart := sound.others
  have away : ∀ far ∈ front ++ back, ∀ addr, far.Contains addr → heap'.mem addr = heap.mem addr :=
    fun far member addr inside =>
      replaces.frame addr ((apart far member).1.symm.not_contains inside)
  have fields : ∀ i, (i = LiballocMajor.next ∨ i = LiballocMajor.prev) →
      ∀ node ∈ (front ++ block :: back).map Block.addr, field heap'.mem node i = field heap.mem node i := by
    intro i which node member
    rcases List.mem_map.mp member with ⟨far, listed, rfl⟩
    rcases List.mem_cons.mp (List.perm_middle.mem_iff.mp listed) with rfl | listed
    · rcases which with rfl | rfl
      · exact replaces.next
      · exact replaces.prev
    · have header : i < 6 := by rcases which with rfl | rfl <;> decide
      exact field_congr header (by decide)
        (fun addr near => away far listed addr (far.header_inside List.mem_cons_self near))
  refine ⟨?_, fun far listed => ?_, ?_, ?_, ?_, inuse, ?_⟩
  · rw [addrs, replaces.memRoot]
    exact sound.links.congr (fields _ (Or.inl rfl)) (fields _ (Or.inr rfl))
  · rcases List.mem_cons.mp (List.perm_middle.mem_iff.mp listed) with rfl | listed
    · exact replaces.held
    · have before : far ∈ front ++ block :: back :=
        List.perm_middle.mem_iff.mpr (List.mem_cons_of_mem _ listed)
      exact (sound.each far before).of_bytes (away far listed)
  · rw [spans]
    exact sound.apart
  · rw [addrs, replaces.bestBet]
    exact sound.bestBet
  · rw [bytes, replaces.allocated]
    exact sound.allocated
  · rw [spans, replaces.system]
    exact sound.held

/-- What is not in a block is neither in its headers nor in its pieces. -/
theorem PlacedIn.frame_outside (placed : PlacedIn heap heap' block whole piece)
    (outside : ¬ block.Contains addr) : heap'.mem addr = heap.mem addr := by
  rcases placed.grown with ⟨front, back, grown⟩
  have same : ∀ addr, whole.Contains addr ↔ block.Contains addr := by
    intro addr
    unfold Block.Contains Block.limit Block.bytes
    rw [grown.addr_eq, grown.pages_eq]
  refine placed.frame addr (fun record member => ?_) (fun inside => ?_)
  · by_contra near
    exact outside ((same addr).mp (whole.header_inside member (Nat.not_le.mp near)))
  · have bounds := whole.bounds grown.member
    refine outside ((same addr).mp ?_)
    unfold Piece.Contains at inside
    unfold Block.Contains
    omega

theorem PlacedIn.replaces (placed : PlacedIn heap heap' block whole piece) :
    Replaces heap heap' block whole := by
  rcases placed.grown with ⟨_, _, grown⟩
  have rest := placed.rest
  refine ⟨?_, placed.held, placed.header _ (by decide) (by decide) (by decide),
    placed.header _ (by decide) (by decide) (by decide), fun _ => placed.frame_outside, ?_, ?_, ?_, ?_⟩
  · rw [Block.span, Block.span, grown.addr_eq, grown.pages_eq]
  all_goals rw [rest]

/-- The pieces of the heap when one has been put into a block. -/
theorem PlacedIn.allPieces_perm (placed : PlacedIn heap heap' block whole piece) :
    (allPieces (front ++ whole :: back)).Perm (piece :: allPieces (front ++ block :: back)) := by
  rcases placed.grown with ⟨pieces, pieces', grown⟩
  simp only [allPieces, List.flatMap_append, List.flatMap_cons]
  rw [grown.split, grown.split', List.append_assoc, List.append_assoc, List.cons_append]
  have inner := @List.perm_middle _ piece pieces (pieces' ++ back.flatMap Block.pieces)
  exact (inner.append_left _).trans List.perm_middle

theorem Sound.place (sound : Sound holds heap (front ++ block :: back))
    (placed : PlacedIn heap heap' block whole piece) :
    Sound holds heap' (front ++ whole :: back) := by
  refine sound.replace placed.replaces ?_
  have total := (@PlacedIn.allPieces_perm _ _ _ front back _ _ _ placed).map fun piece => piece.size.toNat
  rw [total.sum_eq, List.map_cons, List.sum_cons, placed.rest]
  dsimp only
  rw [sound.inuse, BitVec.ofNat_add, BitVec.ofNat_toNat, add_comm]

/-- What belongs to the callers stays. -/
theorem PlacedIn.kept (placed : PlacedIn heap heap' block whole piece)
    (sound : Sound holds heap (front ++ block :: back)) (owned : Owned (front ++ block :: back) addr) :
    heap'.mem addr = heap.mem addr := by
  rcases owned with ⟨old, listed, owns⟩
  rcases mem_allPieces.mp listed with ⟨far, member, inside⟩
  have bounds := far.owns_bounds inside owns
  rcases List.mem_cons.mp (List.perm_middle.mem_iff.mp member) with rfl | others
  · rcases placed.grown with ⟨pieces, pieces', grown⟩
    have oldMember := grown.mem_pieces.mpr (Or.inr inside)
    refine placed.frame addr (whole.outside_headers oldMember bounds.2) (fun inNew => ?_)
    have inOld : old.Contains addr := ⟨Nat.le_of_add_right_le bounds.2.1, bounds.2.2⟩
    have same := whole.piece_unique oldMember grown.member inOld inNew
    rw [grown.split] at inside
    exact (grown.distinct.2.1 old inside).1 (congrArg Piece.addr same)
  · exact placed.frame_outside ((sound.others far others).1.symm.not_contains bounds.1)

/-! ### All headers -/

/-- The headers of all blocks. -/
def allRecords (blocks : List Block) : List (BitVec 32) := blocks.flatMap Block.records

theorem mem_allRecords {record : BitVec 32} :
    record ∈ allRecords blocks ↔ ∃ block ∈ blocks, record ∈ block.records :=
  List.mem_flatMap

theorem block_record (member : block ∈ blocks) : block.addr ∈ allRecords blocks :=
  mem_allRecords.mpr ⟨block, member, List.mem_cons_self⟩

/-- The headers in blocks that have no common page do not overlap. -/
theorem records_of_blocks (apart : (blocks.map Block.span).Pairwise Pages.Apart) :
    Records 6 (allRecords blocks) := by
  refine List.pairwise_flatMap.mpr ⟨fun block _ => block.records_apart, ?_⟩
  refine (List.pairwise_map.mp apart).imp (fun {first second} separate record member other member' => ?_)
  have disjoint : ∀ addr, (addr - record).toNat < 24 → 24 ≤ (addr - other).toNat := by
    intro addr near
    by_contra near'
    have inside := first.header_inside member near
    exact separate.not_contains inside (second.header_inside member' (Nat.not_le.mp near'))
  constructor
  · by_contra near
    have far := disjoint other (Nat.not_le.mp near)
    rw [sub_self] at far
    exact absurd far (by decide)
  · by_contra near
    have own : (record - record).toNat < 24 := by
      rw [sub_self]
      decide
    exact near (disjoint record own)

/-- Blocks with a byte in common are the same. -/
theorem block_unique (apart : (blocks.map Block.span).Pairwise Pages.Apart) (member : block ∈ blocks)
    (member' : other ∈ blocks) (inside : block.Contains addr) (inside' : other.Contains addr) :
    other = block := by
  have symmetric : Std.Symm fun first second : Block => first.span.Apart second.span :=
    ⟨fun _ _ => Pages.Apart.symm⟩
  by_contra different
  have separate := List.Pairwise.forall (List.pairwise_map.mp apart) member member' (Ne.symm different)
  exact separate.not_contains inside inside'

/-- A byte of a block is in a header of that block, or in no header. -/
theorem outside_all (apart : (blocks.map Block.span).Pairwise Pages.Apart) (member : block ∈ blocks)
    (inside : block.Contains addr) (outside : ∀ record ∈ block.records, 24 ≤ (addr - record).toNat) :
    ∀ record ∈ allRecords blocks, 24 ≤ (addr - record).toNat := by
  intro record listed
  rcases mem_allRecords.mp listed with ⟨far, member', listed⟩
  by_contra near
  have same := block_unique apart member member' inside (far.header_inside listed (Nat.not_le.mp near))
  exact near (outside record (same ▸ listed))

/-- A byte of a caller is in no header. -/
theorem owned_outside (apart : (blocks.map Block.span).Pairwise Pages.Apart) (owned : Owned blocks addr) :
    ∀ record ∈ allRecords blocks, 24 ≤ (addr - record).toNat := by
  rcases owned with ⟨piece, listed, owns⟩
  rcases mem_allPieces.mp listed with ⟨block, member, inside⟩
  have bounds := block.owns_bounds inside owns
  exact outside_all apart member bounds.1 (block.outside_headers inside bounds.2)

theorem outside_outside (outside : Outside blocks addr) :
    ∀ record ∈ allRecords blocks, 24 ≤ (addr - record).toNat := by
  intro record listed
  rcases mem_allRecords.mp listed with ⟨block, member, listed⟩
  by_contra near
  exact outside block member (block.header_inside listed (Nat.not_le.mp near))

/-! ### The links between blocks -/

/-- Only links between these blocks are written. -/
def Relinks (blocks : List Block) (writes : List Write) : Prop :=
  ∀ write ∈ writes, write.1 ∈ blocks.map Block.addr ∧
    (write.2.1 = LiballocMajor.next ∨ write.2.1 = LiballocMajor.prev)

section Relinks

variable {mem : Mem} {writes : List Write}

theorem Relinks.known (relinks : Relinks blocks writes) :
    ∀ write ∈ writes, write.1 ∈ allRecords blocks ∧ write.2.1 < 6 := by
  intro write member
  rcases relinks write member with ⟨listed, which⟩
  rcases List.mem_map.mp listed with ⟨block, inside, same⟩
  refine ⟨same ▸ block_record inside, ?_⟩
  rcases which with same | same <;> rw [same] <;> decide

theorem Relinks.field_eq (relinks : Relinks blocks writes)
    (apart : (blocks.map Block.span).Pairwise Pages.Apart) (member : block ∈ blocks) {i : Nat}
    (small : i < 6) : field (setFields mem writes) block.addr i =
      written writes block.addr i (field mem block.addr i) :=
  field_setFields (records_of_blocks apart) (by decide) relinks.known (block_record member) small

theorem Relinks.frame (relinks : Relinks blocks writes)
    (outside : ∀ record ∈ allRecords blocks, 24 ≤ (addr - record).toNat) :
    setFields mem writes addr = mem addr :=
  setFields_of_outside (by decide)
    (fun write member => ⟨outside _ (relinks.known write member).1, (relinks.known write member).2⟩)

/-- A field that no write is about. -/
theorem written_of_ne {record old : BitVec 32} {i : Nat}
    (other : ∀ write ∈ writes, ¬ (record = write.1 ∧ i = write.2.1)) :
    written writes record i old = old := by
  induction writes with
  | nil => rfl
  | cons write rest inductionHypothesis =>
      rw [written, if_neg (other write List.mem_cons_self)]
      exact inductionHypothesis (fun later member => other later (List.mem_cons_of_mem _ member))

/-- The blocks do not depend on the links between them. -/
theorem Relinks.each (relinks : Relinks blocks writes)
    (apart : (blocks.map Block.span).Pairwise Pages.Apart) (member : block ∈ blocks)
    (held : BlockAt mem block) : BlockAt (setFields mem writes) block := by
  refine held.congr (fun record listed i small notLink => ?_) (fun piece inside => ?_)
  · have listed' : record ∈ allRecords blocks := mem_allRecords.mpr ⟨block, member, listed⟩
    rw [field_setFields (records_of_blocks apart) (by decide) relinks.known listed' small]
    refine written_of_ne (fun write there same => ?_)
    rcases relinks write there with ⟨isBlock, which⟩
    rcases List.mem_map.mp isBlock with ⟨far, farMember, address⟩
    -- a header that is also the header of a block is the one of this block
    have own : record = block.addr := by
      rcases List.mem_cons.mp listed with own | inner
      · exact own
      · have near : (record - record).toNat < 24 := by
          rw [sub_self]
          decide
        have inFar : far.Contains record :=
          far.header_inside List.mem_cons_self (by rwa [address, ← same.1])
        have isOwn := block_unique apart member farMember (block.header_inside listed near) inFar
        rw [same.1, ← address, isOwn]
    rcases notLink own with ⟨notPrev, notNext⟩
    rcases which with isNext | isPrev
    · exact notNext (same.2.trans isNext)
    · exact notPrev (same.2.trans isPrev)
  · have info := block.info_bounds inside
    have bounds := block.bounds inside
    have data := piece.data_bounds
    refine relinks.frame (outside_all apart member ?_ (block.info_outside inside))
    unfold Block.Contains
    omega

end Relinks

end Sound

end Liballoc

end WeakOS
