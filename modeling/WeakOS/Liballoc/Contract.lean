import Mathlib
import WeakOS.Liballoc.Support

namespace WeakOS

open Foundation X86

namespace Liballoc

/-!
# What one call of the heap does

The contracts hold for any system that keeps to the rules, from any state in
which the headers stand for blocks.  Sizes that are less than eighty bytes short
of 4 GiB are left out: with the headers they do not fit in a word.

A pointer that has been given back is recognised by its header, so giving it
back at once a second time is only counted as an error.  The header is gone when
its block has been given back to the system.
-/

section Contract

variable {System : Type} {hooks : Hooks System} {holds : System → List Pages → Prop}
  {ready : System → BitVec 32 → Prop}
  {heap : Heap System} {blocks : List Block} {piece : Piece} {pieces front back : List Piece}
  {size nobj : BitVec 32}

theorem Piece.contains_addr (piece : Piece) : piece.Contains piece.addr :=
  ⟨Nat.le_refl _, Nat.lt_add_of_pos_right piece.length_pos⟩

/-- The header of a piece is in its block. -/
theorem Block.piece_inside (block : Block) (member : piece ∈ block.pieces) : block.Contains piece.addr := by
  have bounds := block.bounds member
  have length := piece.length_pos
  unfold Piece.base at bounds
  unfold Block.Contains
  omega

/-- What `kmalloc` hands out: aligned bytes that nobody has, and no byte of the others has
changed. -/
structure Serves {System : Type} (holds : System → List Pages → Prop) (heap' : Heap System)
    (blocks : List Block) (size ptr : BitVec 32) : Prop where
  aligned : ptr.toNat % 16 = 0
  room : ptr.toNat + size.toNat < 2 ^ 32
  fresh : ∃ blocks' piece, Sound holds heap' blocks' ∧ Occupied blocks' ∧
    (allPieces blocks').Perm (piece :: allPieces blocks) ∧ ptr = piece.payload ∧
    (∀ addr, piece.Owns addr ↔ (addr - ptr).toNat < size.toNat) ∧
    (∀ addr, piece.Owns addr → ¬ Owned blocks addr) ∧
    (blocks'.map Block.span = blocks.map Block.span ∨ Full blocks (size + (alignment + alignInfo)))

/-- `kmalloc` always answers.  The answer is null only when no block has a gap and the system
has refused pages; otherwise it is memory that nobody has, and there is a new block only when
no block had a gap. -/
theorem kmalloc_serves (lawful : hooks.Lawful holds ready) (sound : Sound holds heap blocks)
    (occupied : Occupied blocks) (asks : ready heap.system (pagesFor (size + (alignment + alignInfo))))
    (room : size.toNat + 80 < 2 ^ 32) : ∃ ptr heap', kmalloc hooks size heap = some (ptr, heap') ∧
      (∀ addr, Owned blocks addr → heap'.mem addr = heap.mem addr) ∧
      (ptr = 0 → Sound holds heap' blocks ∧ Full blocks (size + (alignment + alignInfo)) ∧
        ∃ mem', hooks.alloc (pagesFor (size + (alignment + alignInfo))) (heap.mem, heap.system) =
          (0, mem', heap'.system)) ∧
      (ptr ≠ 0 → Serves holds heap' blocks size ptr) := by
  rcases kmalloc_answer lawful sound asks occupied room with ⟨⟨ptr, heap'⟩, called, answer⟩
  refine ⟨ptr, heap', called, ?_⟩
  rcases answer with ⟨null, denied⟩ | ⟨blocks', piece, pointer, _, sizes, granted⟩
  · exact ⟨denied.kept, fun _ => ⟨denied.sound, denied.full, denied.refused⟩,
      fun nonnull => absurd null nonnull⟩
  · have keeps : Keeps holds heap' (piece :: allPieces blocks) :=
      ⟨blocks', granted.sound, granted.occupied, granted.pieces⟩
    have address := keeps.pointer List.mem_cons_self
    dsimp only at pointer
    rw [← pointer, sizes] at address
    refine ⟨granted.kept, fun null => absurd null address.2.1, fun _ => ⟨address.2.2.1, address.2.2.2,
      blocks', piece, granted.sound, granted.occupied, granted.pieces, pointer, fun addr => ?_,
      fun addr owns => ?_, granted.pages.imp And.left And.left⟩⟩
    · rw [keeps.owns_iff List.mem_cons_self, pointer, sizes]
    · rintro ⟨other, listed, owns'⟩
      have apart := (List.pairwise_cons.mp keeps.apart).1 other listed
      exact apart addr (Piece.owns_contains owns) (Piece.owns_contains owns')

/-- The second call after boot: a pointer into the block of the first one. -/
theorem kmalloc_serves_second : ∃ (booted : Memory) (heap heap' : Heap Memory) (block : Block)
    (piece : Piece) (ptr : BitVec 32), block.pieces = [piece] ∧ Sound (Backed booted) heap [block] ∧
      kmalloc (support fun _ _ => 0) 8 heap = some (ptr, heap') ∧ ptr ≠ 0 ∧
      Serves (Backed booted) heap' [block] 8 ptr := by
  rcases second_piece with
    ⟨booted, block, piece, other, heap, heap', sound, only, called, grown, sound', occupied, _, pieces, _,
      enough, _⟩
  have keeps : Keeps (Backed booted) heap' [other, piece] :=
    ⟨[grown], sound', occupied, by rw [allPieces, List.flatMap_singleton]; exact pieces⟩
  have nonnull := (keeps.pointer List.mem_cons_self).2.1
  rcases kmalloc_serves (support_lawful (fun _ _ => 0) booted) sound (occupied_single only)
    (affords_small enough (by decide)) (show (8 : BitVec 32).toNat + 80 < 2 ^ 32 by decide) with
    ⟨ptr, after, called', _, _, served⟩
  cases called.symm.trans called'
  exact ⟨booted, heap, heap', block, piece, other.payload, only, sound, called, nonnull, served nonnull⟩

theorem used_second {block : Block} {other : Piece} (pieces : block.pieces.Perm [other, piece]) :
    piece ∈ allPieces [block] :=
  mem_allPieces.mpr ⟨block, List.mem_singleton_self block,
    pieces.mem_iff.mpr (List.mem_cons_of_mem other (List.mem_singleton_self piece))⟩

theorem several_second {block : Block} {other : Piece} (pieces : block.pieces.Perm [other, piece]) :
    ∀ same ∈ [block], same.pieces ≠ [piece] := by
  intro same member only
  have length := pieces.length_eq
  rw [← List.mem_singleton.mp member, only] at length
  exact absurd (show 1 = 2 from length) (by decide)

/-- `kfree` takes one piece away.  The pages of its block go back to the system exactly when
no other piece is in it, and no byte of the others changes. -/
theorem kfree_returns (lawful : hooks.Lawful holds ready) (sound : Sound holds heap blocks)
    (occupied : Occupied blocks) (used : piece ∈ allPieces blocks) :
    ∃ blocks', Sound holds (kfree hooks piece.payload heap) blocks' ∧ Occupied blocks' ∧
      (allPieces blocks).Perm (piece :: allPieces blocks') ∧
      (∀ addr, Owned blocks' addr ∨ Outside blocks addr →
        (kfree hooks piece.payload heap).mem addr = heap.mem addr) ∧
      Quiet heap (kfree hooks piece.payload heap) ∧
      ((∀ block ∈ blocks, block.pieces ≠ [piece]) → blocks'.map Block.span = blocks.map Block.span ∧
        (kfree hooks piece.payload heap).system = heap.system) ∧
      (∀ block ∈ blocks, block.pieces = [piece] →
        (blocks.map Block.span).Perm (block.span :: blocks'.map Block.span) ∧
        ∃ mem mem', hooks.free block.addr block.pages (mem, heap.system) =
          (mem', (kfree hooks piece.payload heap).system)) := by
  rcases kfree_freed lawful sound occupied used with ⟨blocks', freed⟩
  refine ⟨blocks', freed.sound, freed.occupied, freed.pieces,
    fun addr which => which.elim (freed.kept addr) (freed.outside addr), freed.quiet,
    fun others => ?_, fun block there only => ?_⟩
  · rcases freed.pages with ⟨spans, system, _⟩ | ⟨block, there, only, _⟩
    · exact ⟨spans, system⟩
    · exact absurd only (others block there)
  · rcases freed.pages with ⟨spans, _, _⟩ | ⟨other, there', only', spans, returned⟩
    · have listed : block.span ∈ blocks'.map Block.span := by
        rw [spans]
        exact List.mem_map_of_mem there
      rcases List.mem_map.mp listed with ⟨same, there', span⟩
      rcases List.exists_mem_of_ne_nil _ (freed.occupied same there') with ⟨left, member'⟩
      have leftover : left ∈ allPieces blocks' := mem_allPieces.mpr ⟨same, there', member'⟩
      have before : left ∈ allPieces blocks := freed.pieces.mem_iff.mpr (List.mem_cons_of_mem _ leftover)
      rcases mem_allPieces.mp before with ⟨home, homeThere, homeMember⟩
      have inside : block.Contains left.addr := (Block.contains_of_span span).mp (same.piece_inside member')
      have sameHome := block_unique sound.apart there homeThere inside (home.piece_inside homeMember)
      rw [sameHome, only] at homeMember
      rw [List.mem_singleton.mp homeMember] at leftover
      -- the piece would be in use twice
      have twice : (piece :: allPieces blocks').Pairwise
          fun first second => ∀ addr, first.Contains addr → ¬ second.Contains addr :=
        (freed.pieces.pairwise_iff fun {first second} apart addr inSecond inFirst =>
          apart addr inFirst inSecond).mp sound.pieces_apart
      exact absurd piece.contains_addr
        ((List.pairwise_cons.mp twice).1 piece leftover piece.addr piece.contains_addr)
    · have member : piece ∈ block.pieces := only ▸ List.mem_singleton_self piece
      have member' : piece ∈ other.pieces := only' ▸ List.mem_singleton_self piece
      have same : other = block :=
        block_unique sound.apart there there' (block.piece_inside member) (other.piece_inside member')
      rw [← same]
      exact ⟨spans, returned⟩

/-- The first piece after boot is given back; the block stays, for it has another piece. -/
theorem kfree_returns_second : ∃ (booted : Memory) (heap : Heap Memory) (block : Block)
    (blocks' : List Block) (piece other : Piece), block.pieces.Perm [other, piece] ∧
      Sound (Backed booted) (kfree (support fun _ _ => 0) piece.payload heap) blocks' ∧
      (allPieces [block]).Perm (piece :: allPieces blocks') ∧
      blocks'.map Block.span = [block.span] ∧
      (kfree (support fun _ _ => 0) piece.payload heap).system = heap.system := by
  rcases second_piece with
    ⟨booted, _, piece, other, _, heap, _, _, _, block, sound, occupied, _, pieces, _, _, _⟩
  rcases kfree_returns (support_lawful (fun _ _ => 0) booted) sound occupied (used_second pieces) with
    ⟨blocks', sound', _, left, _, _, stays, _⟩
  have kept := stays (several_second pieces)
  exact ⟨booted, heap, block, blocks', piece, other, pieces, sound', left, kept.1, kept.2⟩

/-- A pointer that is given back twice, while its block has another piece: the second call
counts an error and changes nothing else. -/
theorem kfree_twice (lawful : hooks.Lawful holds ready) (sound : Sound holds heap blocks)
    (occupied : Occupied blocks) (used : piece ∈ allPieces blocks)
    (others : ∀ block ∈ blocks, block.pieces ≠ [piece]) :
    kfree hooks piece.payload (kfree hooks piece.payload heap) =
      { kfree hooks piece.payload heap with
        errorCount := (kfree hooks piece.payload heap).errorCount + 1 } := by
  have keeps : Keeps holds heap (allPieces blocks) := ⟨blocks, sound, occupied, List.Perm.refl _⟩
  rcases kfree_freed lawful sound occupied used with ⟨blocks', freed⟩
  rcases freed.pages with ⟨_, _, dead⟩ | ⟨block, there, only, _⟩
  · exact kfree_of_dead (keeps.pointer used).2.1 dead
  · exact absurd only (others block there)

theorem kfree_twice_second : ∃ (heap : Heap Memory) (piece : Piece),
    kfree (support fun _ _ => 0) piece.payload (kfree (support fun _ _ => 0) piece.payload heap) =
      { kfree (support fun _ _ => 0) piece.payload heap with
        errorCount := (kfree (support fun _ _ => 0) piece.payload heap).errorCount + 1 } := by
  rcases second_piece with
    ⟨booted, _, piece, _, _, heap, _, _, _, block, sound, occupied, _, pieces, _, _, _⟩
  exact ⟨heap, piece, kfree_twice (support_lawful (fun _ _ => 0) booted) sound occupied
    (used_second pieces) (several_second pieces)⟩

/-- `krealloc` to a size that is not zero: the bytes that both sizes have stay, and no byte
of the others changes.  A piece that is large enough stays where it is. -/
theorem krealloc_keeps (lawful : hooks.Lawful holds ready) (keeps : Keeps holds heap (front ++ piece :: back))
    (some : size ≠ 0) (asks : piece.reqSize < size →
      ready heap.system (pagesFor (size + (alignment + alignInfo))) ∧ size.toNat + 80 < 2 ^ 32) :
    ∃ ptr heap', krealloc hooks piece.payload size heap = Option.some (ptr, heap') ∧
      (size ≤ piece.reqSize → ptr = piece.payload) ∧
      (ptr ≠ 0 → ∃ resized, ptr = resized.payload ∧ resized.reqSize = size ∧
        Keeps holds heap' (front ++ resized :: back) ∧
        (∀ offset : BitVec 32, offset.toNat < size.toNat → offset.toNat < piece.reqSize.toNat →
          heap'.mem (ptr + offset) = heap.mem (piece.payload + offset)) ∧
        SameBytes (front ++ back) heap.mem heap'.mem) := by
  have member : piece ∈ front ++ piece :: back := List.mem_append_right _ List.mem_cons_self
  have others : ∀ other ∈ front ++ back, other ∈ front ++ piece :: back := fun other listed =>
    List.perm_middle.mem_iff.mpr (List.mem_cons_of_mem _ listed)
  by_cases less : size ≤ piece.reqSize
  · rcases keeps.shrink less with ⟨keeps', same⟩
    refine ⟨_, _, keeps.krealloc_shrink some less, fun _ => rfl, fun _ => ⟨piece.shrink less, rfl, rfl,
      keeps', fun offset _ inside => same piece member _ ?_, same.mono others⟩⟩
    rw [keeps.owns_iff member, add_sub_cancel_left]
    exact inside
  · have more : piece.reqSize < size := BitVec.not_le.mp less
    rcases keeps.krealloc_grow lawful (asks more).1 more (asks more).2 with ⟨ptr, heap', called, outcome⟩
    refine ⟨ptr, heap', called, fun small => absurd small less, fun granted => ?_⟩
    rcases outcome granted with ⟨resized, pointer, sizes, keeps', moved, same, _⟩
    exact ⟨resized, pointer, sizes, keeps', fun offset _ inside => pointer ▸ moved offset inside, same⟩

/-- The second of two pieces gets more bytes than it had. -/
theorem krealloc_keeps_second : ∃ (booted : Memory) (heap heap' : Heap Memory) (piece other : Piece)
    (ptr : BitVec 32), Keeps (Backed booted) heap [piece, other] ∧ piece.reqSize = 8 ∧
      krealloc (support fun _ _ => 0) piece.payload 100 heap = some (ptr, heap') ∧ ptr ≠ 0 ∧
      ∃ resized : Piece, ptr = resized.payload ∧ resized.reqSize = 100 ∧
        Keeps (Backed booted) heap' [resized, other] ∧
        (∀ offset : BitVec 32, offset.toNat < 100 → offset.toNat < 8 →
          heap'.mem (ptr + offset) = heap.mem (piece.payload + offset)) ∧
        SameBytes [other] heap.mem heap'.mem := by
  rcases second_piece with
    ⟨booted, _, other, piece, _, heap, _, _, _, block, sound, occupied, pages, pieces, sizes, _, enough⟩
  have lawful := support_lawful (fun _ _ => 0) booted
  have keeps : Keeps (Backed booted) heap ([] ++ piece :: [other]) :=
    ⟨[block], sound, occupied, by rw [allPieces, List.flatMap_singleton]; exact pieces⟩
  have reqSize := (sizes piece (pieces.mem_iff.mpr List.mem_cons_self)).2
  have more : piece.reqSize < 100 := by
    rw [reqSize]
    decide
  have asks := @affords_small _ 100 enough (by decide)
  rcases kmalloc_roomy lawful sound occupied asks (by decide)
    (room_forty pages (fun any member => (sizes any member).1) (le_of_eq pieces.length_eq) (by decide)) with
    ⟨_, _, fresh, given, nonnull, _⟩
  have resizes := keeps.krealloc_called more given
  rcases krealloc_keeps lawful keeps (show (100 : BitVec 32) ≠ 0 by decide) (fun _ => ⟨asks, by decide⟩) with
    ⟨ptr, heap', called, _, outcome⟩
  have address : fresh.payload = ptr := (Prod.mk.inj (Option.some.inj (resizes.symm.trans called))).1
  rw [address] at nonnull
  rcases outcome nonnull with ⟨resized, pointer, size, kept, moved, same⟩
  rw [reqSize] at moved
  exact ⟨booted, heap, heap', piece, other, ptr, keeps, reqSize, called, nonnull, resized, pointer, size,
    kept, moved, same⟩

/-- `kcalloc` clears what it hands out, and all objects are in it exactly when their size
does not overflow. -/
theorem kcalloc_clears (lawful : hooks.Lawful holds ready) (keeps : Keeps holds heap pieces)
    (asks : ready heap.system (pagesFor (nobj * size + (alignment + alignInfo))))
    (room : (nobj * size).toNat + 80 < 2 ^ 32) : ∃ ptr heap',
      kcalloc hooks nobj size heap = some (ptr, heap') ∧ (ptr ≠ 0 → ∃ piece, ptr = piece.payload ∧
        Keeps holds heap' (piece :: pieces) ∧ SameBytes pieces heap.mem heap'.mem ∧
        (∀ addr, piece.Owns addr → heap'.mem addr = 0) ∧
        ((∀ i < nobj.toNat, ∀ j < size.toNat, piece.Owns (ptr + BitVec.ofNat 32 (i * size.toNat + j))) ↔
          nobj.toNat * size.toNat < 2 ^ 32)) := by
  rcases keeps.kcalloc lawful asks room with ⟨ptr, heap', called, outcome⟩
  refine ⟨ptr, heap', called, fun granted => ?_⟩
  rcases outcome granted with ⟨piece, pointer, sizes, keeps', zeros, same, _⟩
  refine ⟨piece, pointer, keeps', same, zeros, ?_⟩
  have product : (nobj * size).toNat = nobj.toNat * size.toNat % 2 ^ 32 := BitVec.toNat_mul nobj size
  have owns : ∀ offset, piece.Owns (ptr + BitVec.ofNat 32 offset) ↔
      offset % 2 ^ 32 < (nobj * size).toNat := by
    intro offset
    rw [keeps'.owns_iff List.mem_cons_self, pointer, add_sub_cancel_left, sizes, BitVec.toNat_ofNat]
  simp only [owns]
  constructor
  · intro inside
    by_contra large
    -- the object around the last address of the offsets
    have some : 0 < size.toNat := by
      by_contra none
      rw [Nat.eq_zero_of_not_pos none] at large
      omega
    have early : (2 ^ 32 - 1) / size.toNat < nobj.toNat := by
      refine (Nat.div_lt_iff_lt_mul some).mpr ?_
      omega
    have last := inside _ early _ (Nat.mod_lt (2 ^ 32 - 1) some)
    rw [Nat.div_add_mod'] at last
    omega
  · intro small i before j inside
    have offset : i * size.toNat + j < nobj.toNat * size.toNat := by
      calc i * size.toNat + j < i * size.toNat + size.toNat := Nat.add_lt_add_left inside _
        _ = (i + 1) * size.toNat := (Nat.succ_mul i _).symm
        _ ≤ nobj.toNat * size.toNat := Nat.mul_le_mul_right _ before
    rw [Nat.mod_eq_of_lt (by omega), product, Nat.mod_eq_of_lt small]
    exact offset

theorem kcalloc_clears_second : ∃ (booted : Memory) (heap heap' : Heap Memory) (other piece : Piece),
    Keeps (Backed booted) heap [other] ∧
      kcalloc (support fun _ _ => 0) 3 5 heap = some (piece.payload, heap') ∧ piece.payload ≠ 0 ∧
      Keeps (Backed booted) heap' [piece, other] ∧ SameBytes [other] heap.mem heap'.mem ∧
      (∀ addr, piece.Owns addr → heap'.mem addr = 0) := by
  rcases second_cleared with ⟨booted, other, heap, second, heap', _, _, called, _, keeps, keeps2, _, enough, _⟩
  have nonnull := (keeps2.pointer List.mem_cons_self).2.1
  rcases kcalloc_clears (support_lawful (fun _ _ => 0) booted) keeps
    (@affords_small _ (3 * 5) enough (by decide)) (by decide) with ⟨ptr, after, called', outcome⟩
  cases called.symm.trans called'
  rcases outcome nonnull with ⟨piece, pointer, keeps', same, zeros, _⟩
  rw [pointer] at called nonnull
  exact ⟨booted, heap, heap', other, piece, keeps, called, nonnull, keeps', same, zeros⟩

end Contract

end Liballoc

end WeakOS
