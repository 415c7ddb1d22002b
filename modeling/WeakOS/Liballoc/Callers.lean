import Mathlib
import WeakOS.Liballoc.Kfree

namespace WeakOS

open Foundation X86

namespace Liballoc

/-!
# What the callers may rely on

To a caller the heap is a list of pieces in use.  It is the caller who says in
which order they stand, so the blocks that they are in do not occur here: a call
puts a piece in front, or takes one out, and keeps the bytes of the others.
-/

/-- The heap with these pieces in use. -/
def Keeps {System : Type} (holds : System → List Pages → Prop) (heap : Heap System)
    (pieces : List Piece) : Prop :=
  ∃ blocks, Sound holds heap blocks ∧ Occupied blocks ∧ (allPieces blocks).Perm pieces

/-- The bytes of these pieces are the same. -/
def SameBytes (pieces : List Piece) (mem mem' : Mem) : Prop :=
  ∀ piece ∈ pieces, ∀ addr, piece.Owns addr → mem' addr = mem addr

theorem SameBytes.trans {pieces : List Piece} {mem mem1 mem2 : Mem} (first : SameBytes pieces mem mem1)
    (second : SameBytes pieces mem1 mem2) : SameBytes pieces mem mem2 :=
  fun piece member addr owns => (second piece member addr owns).trans (first piece member addr owns)

theorem SameBytes.mono {pieces fewer : List Piece} {mem mem' : Mem} (same : SameBytes pieces mem mem')
    (subset : ∀ piece ∈ fewer, piece ∈ pieces) : SameBytes fewer mem mem' :=
  fun piece member => same piece (subset piece member)

section Keeps

variable {System : Type} {hooks : Hooks System} {holds : System → List Pages → Prop}
  {ready : System → BitVec 32 → Prop}
  {heap heap' : Heap System} {blocks : List Block} {pieces front back : List Piece}
  {piece other : Piece} {addr ptr size : BitVec 32}

/-- Before the first call there are no blocks. -/
theorem sound_start {mem : Mem} {system : System} (held : holds system []) :
    Sound holds (Heap.start mem system) [] :=
  ⟨rfl, fun _ nothing => absurd nothing List.not_mem_nil, List.Pairwise.nil, Or.inl rfl, rfl, rfl, held⟩

theorem Piece.owns_contains (owns : piece.Owns addr) : piece.Contains addr := by
  have data := piece.data_bounds
  unfold Piece.Owns at owns
  unfold Piece.Contains
  omega

/-- No byte is in two pieces. -/
theorem Sound.pieces_apart (sound : Sound holds heap blocks) :
    (allPieces blocks).Pairwise fun first second => ∀ addr, first.Contains addr → ¬ second.Contains addr := by
  refine List.pairwise_flatMap.mpr ⟨fun block _ => ?_, ?_⟩
  · refine block.chained.pairwise.imp (fun {first second} before addr inFirst inSecond => ?_)
    unfold Piece.Contains at inFirst inSecond
    omega
  · refine (List.pairwise_map.mp sound.apart).imp (fun {block far} apart first member second member' => ?_)
    intro addr inFirst inSecond
    have bounds := block.bounds member
    have bounds' := far.bounds member'
    unfold Piece.Contains at inFirst inSecond
    refine apart.not_contains (show block.span.Contains addr from ?_)
      (show far.span.Contains addr from ?_)
    · exact (⟨by omega, by omega⟩ : block.Contains addr)
    · exact (⟨by omega, by omega⟩ : far.Contains addr)

theorem Keeps.apart (keeps : Keeps holds heap pieces) :
    pieces.Pairwise fun first second => ∀ addr, first.Contains addr → ¬ second.Contains addr := by
  rcases keeps with ⟨blocks, sound, _, perm⟩
  refine (perm.pairwise_iff ?_).mp sound.pieces_apart
  exact fun {first second} apart addr inSecond inFirst => apart addr inFirst inSecond

/-- A pointer that was handed out is aligned, is not null, and its bytes do not wrap. -/
theorem Keeps.pointer (keeps : Keeps holds heap pieces) (member : piece ∈ pieces) :
    piece.payload.toNat = piece.data ∧ piece.payload ≠ 0 ∧ piece.payload.toNat % 16 = 0 ∧
      piece.payload.toNat + piece.reqSize.toNat < 2 ^ 32 := by
  rcases keeps with ⟨blocks, sound, _, perm⟩
  rcases mem_allPieces.mp (perm.mem_iff.mpr member) with ⟨block, _, inside⟩
  have bounds := block.bounds inside
  have data := piece.data_bounds
  have address : piece.payload.toNat = piece.data := Nat.mod_eq_of_lt (by omega)
  refine ⟨address, ?_, by omega, by omega⟩
  intro null
  rw [null] at address
  have zero : (0 : Nat) = piece.data := address
  omega

/-- The pieces are inside of the pages that the system has given. -/
theorem Keeps.held (keeps : Keeps holds heap pieces) : ∃ given, holds heap.system given ∧
    ∀ piece ∈ pieces, ∃ pages ∈ given, ∀ addr, piece.Contains addr → pages.Contains addr := by
  rcases keeps with ⟨blocks, sound, _, perm⟩
  refine ⟨blocks.map Block.span, sound.held, fun piece member => ?_⟩
  rcases mem_allPieces.mp (perm.mem_iff.mpr member) with ⟨block, there, inside⟩
  refine ⟨block.span, List.mem_map_of_mem there, fun addr inPiece => ?_⟩
  have bounds := block.bounds inside
  unfold Piece.Contains at inPiece
  exact (⟨by omega, by omega⟩ : block.Contains addr)

/-- The bytes of a piece, counted from its pointer. -/
theorem Keeps.owns_iff (keeps : Keeps holds heap pieces) (member : piece ∈ pieces) :
    piece.Owns addr ↔ (addr - piece.payload).toNat < piece.reqSize.toNat := by
  rcases keeps.pointer member with ⟨address, _, _, room⟩
  unfold Piece.Owns
  rw [← address]
  bv_omega

theorem Keeps.perm {pieces' : List Piece} (keeps : Keeps holds heap pieces) (perm : pieces.Perm pieces') :
    Keeps holds heap pieces' := by
  rcases keeps with ⟨blocks, sound, occupied, listed⟩
  exact ⟨blocks, sound, occupied, listed.trans perm⟩

theorem owned_iff (listed : (allPieces blocks).Perm pieces) :
    Owned blocks addr ↔ ∃ piece ∈ pieces, piece.Owns addr := by
  unfold Owned
  simp only [listed.mem_iff]

/-! ## The bytes of the callers -/

/-- The blocks do not depend on the bytes that belong to the callers, nor on what is not in
a block. -/
theorem Sound.write (sound : Sound holds heap blocks) {mem' : Mem}
    (same : ∀ addr, (∃ block ∈ blocks, block.Contains addr) → ¬ Owned blocks addr →
      mem' addr = heap.mem addr) : Sound holds { heap with mem := mem' } blocks := by
  have headers : ∀ block ∈ blocks, ∀ record ∈ block.records, ∀ i < 6,
      field mem' record i = field heap.mem record i := by
    intro block there record member i small
    refine field_congr small (by decide) (fun addr near => ?_)
    refine same addr ⟨block, there, block.header_inside member near⟩ (fun owned => ?_)
    have outside := owned_outside sound.apart owned record (mem_allRecords.mpr ⟨block, there, member⟩)
    omega
  have heads : ∀ i < 6, ∀ node ∈ blocks.map Block.addr, field mem' node i = field heap.mem node i := by
    intro i small node there
    rcases List.mem_map.mp there with ⟨block, inside, rfl⟩
    exact headers block inside _ List.mem_cons_self i small
  refine ⟨sound.links.congr (heads _ (by decide)) (heads _ (by decide)), fun block there => ?_,
    sound.apart, sound.bestBet, sound.allocated, sound.inuse, sound.held⟩
  refine (sound.each block there).congr (fun record member i small _ => headers block there record member i small)
    (fun piece inside => ?_)
  have info := block.info_bounds inside
  have bounds := block.bounds inside
  have data := piece.data_bounds
  have inBlock : block.Contains (piece.payload - alignInfo) := by
    unfold Block.Contains
    omega
  refine same _ ⟨block, there, inBlock⟩ ?_
  -- whoever owned that byte would be the piece itself, whose bytes begin behind it
  rintro ⟨owner, listed, owns⟩
  rcases mem_allPieces.mp listed with ⟨far, farThere, farMember⟩
  have sameBlock := block_unique sound.apart there farThere inBlock (far.owns_bounds farMember owns).1
  subst sameBlock
  have inPiece : piece.Contains (piece.payload - alignInfo) := by
    unfold Piece.Contains
    omega
  have sameOwner := far.piece_unique inside farMember inPiece (Piece.owns_contains owns)
  subst sameOwner
  unfold Piece.Owns at owns
  omega

/-- The callers write to their own bytes only. -/
theorem Keeps.write (keeps : Keeps holds heap pieces) {mem' : Mem}
    (own : ∀ addr, mem' addr ≠ heap.mem addr → ∃ piece ∈ pieces, piece.Owns addr) :
    Keeps holds { heap with mem := mem' } pieces := by
  rcases keeps with ⟨blocks, sound, occupied, perm⟩
  refine ⟨blocks, sound.write (fun addr _ free => ?_), occupied, perm⟩
  by_contra changed
  exact free ((owned_iff perm).mpr (own addr changed))

/-! ## The calls -/

/-- The answer of `kmalloc` to a caller. -/
structure Served (holds : System → List Pages → Prop) (heap : Heap System) (pieces : List Piece)
    (reqSize ptr : BitVec 32) (heap' : Heap System) : Prop where
  kept : SameBytes pieces heap.mem heap'.mem
  quiet : Quiet heap heap'
  outcome : (ptr = 0 ∧ Keeps holds heap' pieces) ∨
    ∃ piece, ptr = piece.payload ∧ piece.reqSize = reqSize ∧ Keeps holds heap' (piece :: pieces)

theorem Keeps.kmalloc (lawful : hooks.Lawful holds ready) (keeps : Keeps holds heap pieces)
    (asks : ready heap.system (pagesFor (size + (alignment + alignInfo))))
    (room : size.toNat + 80 < 2 ^ 32) : ∃ ptr heap', kmalloc hooks size heap = some (ptr, heap') ∧
      Served holds heap pieces size ptr heap' := by
  rcases keeps with ⟨blocks, sound, occupied, perm⟩
  rcases kmalloc_answer lawful sound asks occupied room with ⟨⟨ptr, heap'⟩, called, answer⟩
  refine ⟨ptr, heap', called, ?_⟩
  rcases answer with ⟨null, denied⟩ | ⟨blocks', piece, pointer, _, sizes, granted⟩
  · refine ⟨fun piece member addr owns => ?_, denied.quiet, Or.inl ⟨null, blocks, denied.sound, occupied, perm⟩⟩
    exact denied.kept addr ((owned_iff perm).mpr ⟨piece, member, owns⟩)
  · refine ⟨fun piece member addr owns => ?_, granted.quiet,
      Or.inr ⟨piece, pointer, sizes, blocks', granted.sound, granted.occupied, ?_⟩⟩
    · exact granted.kept addr ((owned_iff perm).mpr ⟨piece, member, owns⟩)
    · exact granted.pieces.trans (perm.cons piece)

theorem Keeps.kfree (lawful : hooks.Lawful holds ready) (keeps : Keeps holds heap (front ++ piece :: back)) :
    Keeps holds (kfree hooks piece.payload heap) (front ++ back) ∧
      SameBytes (front ++ back) heap.mem (kfree hooks piece.payload heap).mem ∧
      Quiet heap (kfree hooks piece.payload heap) := by
  rcases keeps with ⟨blocks, sound, occupied, perm⟩
  have used : piece ∈ allPieces blocks :=
    perm.mem_iff.mpr (List.mem_append_right _ List.mem_cons_self)
  rcases kfree_freed lawful sound occupied used with ⟨blocks', freed⟩
  have perm' : (allPieces blocks').Perm (front ++ back) :=
    (freed.pieces.symm.trans (perm.trans List.perm_middle)).cons_inv
  refine ⟨⟨blocks', freed.sound, freed.occupied, perm'⟩, fun other member addr owns => ?_, freed.quiet⟩
  exact freed.kept addr ((owned_iff perm').mpr ⟨other, member, owns⟩)

/-- When nothing is in use, the system has got all its pages back. -/
theorem Keeps.nothing (keeps : Keeps holds heap []) :
    heap.allocated = 0 ∧ heap.inuse = 0 ∧ heap.memRoot = 0 ∧ holds heap.system [] := by
  rcases keeps with ⟨blocks, sound, occupied, perm⟩
  have none : blocks = [] := by
    cases blocks with
    | nil => rfl
    | cons block rest =>
        rcases List.exists_mem_of_ne_nil _ (occupied block List.mem_cons_self) with ⟨piece, inside⟩
        have member : piece ∈ allPieces (block :: rest) :=
          mem_allPieces.mpr ⟨block, List.mem_cons_self, inside⟩
        exact absurd (perm.mem_iff.mp member) List.not_mem_nil
  subst none
  exact ⟨sound.allocated, sound.inuse, sound.links, sound.held⟩

end Keeps

end Liballoc

end WeakOS
