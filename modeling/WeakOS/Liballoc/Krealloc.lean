import Mathlib
import WeakOS.Liballoc.Callers

namespace WeakOS

open Foundation X86

namespace Liballoc

/-!
# `kcalloc` and `krealloc`

Both get a piece from `kmalloc` and fill it.  The bytes they write are their
caller's own, so the blocks stay as they are.  What they do with a null pointer
from `kmalloc` is to write to the addresses from zero on, so here they are called
when the system has pages.
-/

/-! ## Filling and copying -/

theorem liballocMemset_apply (s : BitVec 32) (c : BitVec 8) (left : Nat) (i : BitVec 32) (mem : Mem)
    (short : left ≤ 2 ^ 32) (addr : BitVec 32) : liballocMemset s c left i mem addr =
      if (addr - (s + i)).toNat < left then c else mem addr := by
  induction left generalizing i mem with
  | zero => rw [liballocMemset, if_neg (Nat.not_lt_zero _)]
  | succ left inductionHypothesis =>
      rw [liballocMemset, inductionHypothesis _ _ (by omega), Function.update_apply]
      by_cases first : addr = s + i
      · rw [if_pos first, ite_self, first, sub_self, if_pos (by simp)]
      · rw [if_neg first]
        refine if_congr ?_ rfl rfl
        have apart : (addr - (s + i)).toNat ≠ 0 := by
          intro zero
          exact first (by bv_omega)
        have shifted : addr - (s + (i + 1)) = addr - (s + i) - 1 := by bv_omega
        rw [shifted]
        generalize addr - (s + i) = offset at apart ⊢
        bv_omega

/-- Memory behind a copy. -/
def copied (mem : Mem) (dest src : BitVec 32) (n : Nat) : Mem := fun addr =>
  if (addr - dest).toNat < n then mem (src + (addr - dest)) else mem addr

section Copy

variable {mem : Mem} {dest src addr : BitVec 32} {n : Nat}

theorem copied_zero (mem : Mem) (dest src : BitVec 32) : copied mem dest src 0 = mem :=
  funext fun _ => if_neg (Nat.not_lt_zero _)

theorem copied_one (mem : Mem) (dest src : BitVec 32) :
    Function.update mem dest (mem src) = copied mem dest src 1 := by
  funext addr
  rw [copied, Function.update_apply]
  by_cases here : addr = dest
  · rw [if_pos here, here, sub_self, if_pos (by decide), add_zero]
  · rw [if_neg here, if_neg (by bv_omega)]

/-- A word that is copied is its four bytes. -/
theorem copied_word (mem : Mem) (dest src : BitVec 32) :
    write32 mem dest (read32 mem src) = copied mem dest src 4 := by
  funext addr
  rw [copied]
  by_cases inside : (addr - dest).toNat < 4
  · rw [if_pos inside]
    have split : addr = dest + (addr - dest) := (add_sub_cancel dest addr).symm
    generalize addr - dest = k at inside split
    subst split
    rw [write32_byte mem _ dest inside, read32]
    have which : k = 0 ∨ k = 1 ∨ k = 2 ∨ k = 3 := by bv_omega
    rcases which with rfl | rfl | rfl | rfl <;> ext i <;>
      simp [BitVec.getElem_extractLsb'] <;> grind
  · rw [if_neg inside, write32_of_outside mem _ (Nat.not_lt.mp inside)]

/-- The source is not overwritten, so that one copy goes on where another ended. -/
theorem copied_join {k : BitVec 32} (apart : Apart dest (n + k.toNat) src (n + k.toNat)) :
    copied (copied mem dest src k.toNat) (dest + k) (src + k) n = copied mem dest src (n + k.toNat) := by
  have short : n + k.toNat < 2 ^ 32 := Nat.lt_of_le_of_lt apart.1 (BitVec.isLt _)
  funext addr
  rw [copied, copied, copied, copied]
  have shifted : src + k + (addr - (dest + k)) = src + (addr - dest) := by bv_omega
  have distance : addr - (dest + k) = (addr - dest) - k := by bv_omega
  rw [shifted, distance]
  have kept : (addr - dest).toNat < n + k.toNat →
      n + k.toNat ≤ (src + (addr - dest) - dest).toNat := by
    intro inside
    refine apart.outside ?_
    rwa [add_sub_cancel_left]
  generalize addr - dest = offset at kept ⊢
  by_cases first : offset.toNat < k.toNat
  · rw [if_neg (by bv_omega), if_pos first, if_pos (by omega)]
  · by_cases inside : offset.toNat < n + k.toNat
    · have far := kept inside
      rw [if_pos (by bv_omega), if_neg (by omega), if_pos inside]
    · rw [if_neg (by bv_omega), if_neg first, if_neg inside]

/-- The words and the bytes behind them are copied alike. -/
theorem liballocMemcpy_eq (n : Nat) (dest src : BitVec 32) (mem : Mem) (apart : Apart dest n src n) :
    liballocMemcpy n dest src mem = copied mem dest src n := by
  have later : ∀ {n : Nat} {dest src : BitVec 32} (k : BitVec 32),
      Apart dest (n + k.toNat) src (n + k.toNat) → Apart (dest + k) n (src + k) n := by
    intro n dest src k apart
    have less := apart.mono (Nat.le_add_right n k.toNat) (Nat.le_add_right n k.toNat)
    unfold Apart at less ⊢
    rwa [add_sub_add_right_eq_sub, add_sub_add_right_eq_sub]
  induction n, dest, src, mem using liballocMemcpy.induct with
  | case1 dest src mem n inductionHypothesis =>
      rw [liballocMemcpy, inductionHypothesis (later 4 apart), copied_word]
      exact copied_join apart
  | case2 dest src mem n few inductionHypothesis =>
      rw [liballocMemcpy.eq_2 _ _ _ _ few, inductionHypothesis (later 1 apart), copied_one]
      exact copied_join apart
  | case3 dest src mem => rw [liballocMemcpy, copied_zero]

end Copy

/-! ## `kcalloc` -/

section Kcalloc

variable {System : Type} {hooks : Hooks System} {holds : System → List Pages → Prop}
  {ready : System → BitVec 32 → Prop}
  {heap : Heap System} {pieces front back : List Piece} {piece : Piece} {nobj size : BitVec 32}

/-- The bytes of two pieces in use are apart. -/
theorem Keeps.payloads_apart (keeps : Keeps holds heap (piece :: pieces)) {other : Piece}
    (member : other ∈ pieces) {addr : BitVec 32} (owns : other.Owns addr) :
    piece.reqSize.toNat ≤ (addr - piece.payload).toNat := by
  by_contra inside
  have apart := (List.pairwise_cons.mp keeps.apart).1 other member
  have own := (keeps.owns_iff List.mem_cons_self).mpr (Nat.not_le.mp inside)
  exact apart addr (Piece.owns_contains own) (Piece.owns_contains owns)

/-- The objects are zero, when their size does not overflow and there are pages. -/
theorem Keeps.kcalloc (lawful : hooks.Lawful holds ready) (keeps : Keeps holds heap pieces)
    (asks : ready heap.system (pagesFor (nobj * size + (alignment + alignInfo))))
    (room : (nobj * size).toNat + 80 < 2 ^ 32) : ∃ ptr heap',
      kcalloc hooks nobj size heap = some (ptr, heap') ∧ (ptr ≠ 0 → ∃ piece, ptr = piece.payload ∧
        piece.reqSize = nobj * size ∧ Keeps holds heap' (piece :: pieces) ∧
        (∀ addr, piece.Owns addr → heap'.mem addr = 0) ∧ SameBytes pieces heap.mem heap'.mem ∧
        Quiet heap heap') := by
  rcases keeps.kmalloc lawful asks room with ⟨ptr, heap1, called, served⟩
  refine ⟨ptr, { heap1 with mem := liballocMemset ptr 0 (nobj * size).toNat 0 heap1.mem },
    by rw [Liballoc.kcalloc, called]; rfl, fun nonnull => ?_⟩
  rcases served.outcome with ⟨null, _⟩ | ⟨piece, pointer, sizes, keeps1⟩
  · exact absurd null nonnull
  · have bytes : ∀ addr, liballocMemset ptr 0 (nobj * size).toNat 0 heap1.mem addr =
        if (addr - piece.payload).toNat < piece.reqSize.toNat then 0 else heap1.mem addr := by
      intro addr
      rw [liballocMemset_apply _ _ _ _ _ (by omega), add_zero, pointer, sizes]
    refine ⟨piece, pointer, sizes, keeps1.write (fun addr changed => ?_), fun addr owns => ?_, ?_,
      ⟨served.quiet.errorCount, served.quiet.possibleOverruns⟩⟩
    · refine ⟨piece, List.mem_cons_self, (keeps1.owns_iff List.mem_cons_self).mpr ?_⟩
      by_contra outside
      exact changed ((bytes addr).trans (if_neg outside))
    · exact (bytes addr).trans (if_pos ((keeps1.owns_iff List.mem_cons_self).mp owns))
    · refine served.kept.trans (fun other member addr owns => ?_)
      exact (bytes addr).trans (if_neg (Nat.not_lt.mpr (keeps1.payloads_apart member owns)))

end Kcalloc

/-! ## `krealloc` -/

/-- The piece when less of it is asked for. -/
def Piece.shrink (piece : Piece) {size : BitVec 32} (less : size ≤ piece.reqSize) : Piece :=
  { piece with reqSize := size, fits := Nat.le_trans (Nat.add_le_add_right less 32) piece.fits }

section Krealloc

variable {System : Type} {hooks : Hooks System} {holds : System → List Pages → Prop}
  {ready : System → BitVec 32 → Prop}
  {heap : Heap System} {pieces front back : List Piece} {piece : Piece} {size : BitVec 32}

/-- What `krealloc` reads at a pointer in use. -/
theorem Keeps.reads (keeps : Keeps holds heap (front ++ piece :: back)) :
    unalign piece.payload heap - LiballocMinor.bytes = piece.addr ∧
      heap.get piece.addr LiballocMinor.magic = liveMagic ∧
      heap.get piece.addr LiballocMinor.reqSize = piece.reqSize := by
  rcases keeps with ⟨blocks, sound, _, perm⟩
  have used : piece ∈ allPieces blocks :=
    perm.mem_iff.mpr (List.mem_append_right _ List.mem_cons_self)
  rcases mem_allPieces.mp used with ⟨block, there, member⟩
  have held := sound.each block there
  exact ⟨unalign_payload held member, (held.each piece member).magic, (held.each piece member).reqSize⟩

/-- The block when less is asked for one of its pieces. -/
def Block.shrink (block : Block) {left right : List Piece} (split : block.pieces = left ++ piece :: right)
    (less : size ≤ piece.reqSize) : Block :=
  { block with
    pieces := left ++ piece.shrink less :: right
    chained := by
      have chained := block.chained
      rw [split] at chained
      have parts := chained.parts
      exact parts.1.append ⟨parts.2.1, parts.2.2.1, parts.2.2.2⟩ }

/-- Asking for less changes one field of the header. -/
theorem BlockAt.shrink {block : Block} {left right : List Piece} (held : BlockAt heap.mem block)
    (split : block.pieces = left ++ piece :: right) (less : size ≤ piece.reqSize) :
    Replaces heap (heap.set piece.addr LiballocMinor.reqSize size) block (block.shrink split less) := by
  have member : piece ∈ block.pieces := by
    rw [split]
    exact List.mem_append_right _ List.mem_cons_self
  have pieceRecord := Block.piece_record member
  have addrs : (block.shrink split less).pieces.map Piece.addr = block.pieces.map Piece.addr := by
    rw [split, List.map_append]
    exact List.map_append
  have distinct := Block.distinct_addrs split
  have fields : ∀ record ∈ block.records, ∀ i < 6, (record = piece.addr → i ≠ LiballocMinor.reqSize) →
      field (heap.set piece.addr LiballocMinor.reqSize size).mem record i = field heap.mem record i := by
    intro record listed i small notSize
    refine (Heap.get_set block.records_apart pieceRecord listed (by decide) small).trans (if_neg ?_)
    exact fun both => notSize both.1 both.2
  have frame : ∀ addr, (∀ record ∈ block.records, 24 ≤ (addr - record).toNat) →
      (heap.set piece.addr LiballocMinor.reqSize size).mem addr = heap.mem addr :=
    fun addr outside => setField_of_outside (show LiballocMinor.reqSize < 6 by decide) (by decide)
      (outside _ pieceRecord)
  have header : ∀ i < 6, field (heap.set piece.addr LiballocMinor.reqSize size).mem block.addr i =
      field heap.mem block.addr i :=
    fun i small => fields _ List.mem_cons_self i small (fun wrong => absurd wrong.symm distinct.1)
  refine ⟨rfl, ⟨(header _ (by decide)).trans held.pages, (header _ (by decide)).trans held.size, ?_, ?_, ?_⟩,
    header _ (by decide), header _ (by decide), fun addr outside => frame addr (fun record listed => ?_),
    rfl, rfl, rfl, rfl⟩
  · have used : (block.shrink split less).used = block.used := by
      unfold Block.used
      rw [split, Layout.span_append, Layout.span_cons]
      exact congrArg (24 + ·) ((Layout.span_append _ _).trans
        (congrArg (_ + ·) (Layout.span_cons _ _)))
    rw [used]
    exact (header _ (by decide)).trans held.usage
  · rw [addrs, show field _ (block.shrink split less).addr _ = _ from header _ (by decide)]
    refine held.links.congr (fun node inside => ?_) (fun node inside => ?_)
    · exact fields node (List.mem_cons_of_mem _ inside) _ (by decide) (fun _ => by decide)
    · exact fields node (List.mem_cons_of_mem _ inside) _ (by decide) (fun _ => by decide)
  · intro far inside
    rcases List.mem_cons.mp (List.perm_middle.mem_iff.mp inside) with rfl | rest
    · have kept := held.each piece member
      have same : ∀ i < 6, i ≠ LiballocMinor.reqSize →
          field (heap.set piece.addr LiballocMinor.reqSize size).mem piece.addr i =
            field heap.mem piece.addr i :=
        fun i small notSize => fields _ pieceRecord i small (fun _ => notSize)
      exact ⟨(same _ (by decide) (by decide)).trans kept.block,
        (same _ (by decide) (by decide)).trans kept.magic,
        (same _ (by decide) (by decide)).trans kept.size, Heap.get_set_self _ _ _ _,
        (frame _ (block.info_outside member)).trans kept.info⟩
    · have old : far ∈ block.pieces := by
        rw [split]
        exact List.perm_middle.mem_iff.mpr (List.mem_cons_of_mem _ rest)
      have kept := held.each far old
      have same : ∀ i < 6, field (heap.set piece.addr LiballocMinor.reqSize size).mem far.addr i =
          field heap.mem far.addr i :=
        fun i small => fields _ (Block.piece_record old) i small
          (fun wrong => absurd wrong (distinct.2.1 far rest).1)
      exact ⟨(same _ (by decide)).trans kept.block, (same _ (by decide)).trans kept.magic,
        (same _ (by decide)).trans kept.size, (same _ (by decide)).trans kept.reqSize,
        (frame _ (block.info_outside old)).trans kept.info⟩
  · by_contra near
    exact outside (block.header_inside listed (Nat.not_le.mp near))

theorem Keeps.shrink (keeps : Keeps holds heap (front ++ piece :: back)) (less : size ≤ piece.reqSize) :
    Keeps holds (heap.set piece.addr LiballocMinor.reqSize size) (front ++ piece.shrink less :: back) ∧
      SameBytes (front ++ piece :: back) heap.mem
        (heap.set piece.addr LiballocMinor.reqSize size).mem := by
  rcases keeps with ⟨blocks, sound, occupied, perm⟩
  have used : piece ∈ allPieces blocks :=
    perm.mem_iff.mpr (List.mem_append_right _ List.mem_cons_self)
  rcases mem_allPieces.mp used with ⟨block, there, member⟩
  rcases List.append_of_mem there with ⟨before, behind, rfl⟩
  rcases List.append_of_mem member with ⟨left, right, split⟩
  have replaces := (sound.each block there).shrink split less
  let rest := before.flatMap Block.pieces ++ (left ++ (right ++ behind.flatMap Block.pieces))
  have old : (allPieces (before ++ block :: behind)).Perm (piece :: rest) := by
    simp only [allPieces, List.flatMap_append, List.flatMap_cons]
    rw [split, List.append_assoc, List.cons_append]
    exact (List.perm_middle.append_left _).trans List.perm_middle
  have new : (allPieces (before ++ block.shrink split less :: behind)).Perm
      (piece.shrink less :: rest) := by
    simp only [allPieces, List.flatMap_append, List.flatMap_cons]
    rw [show (block.shrink split less).pieces = left ++ piece.shrink less :: right from rfl,
      List.append_assoc, List.cons_append]
    exact (List.perm_middle.append_left _).trans List.perm_middle
  refine ⟨⟨_, sound.replace replaces ?_, ?_, ?_⟩, ?_⟩
  · have total := (old.map fun piece => piece.size.toNat).sum_eq
    have total' := (new.map fun piece => piece.size.toNat).sum_eq
    have same : heap.inuse = _ := sound.inuse
    rw [total', List.map_cons, List.sum_cons]
    rw [total, List.map_cons, List.sum_cons] at same
    exact same
  · intro far inside
    rcases List.mem_cons.mp (List.perm_middle.mem_iff.mp inside) with rfl | others
    · exact List.ne_nil_of_mem (List.mem_append_right left List.mem_cons_self)
    · exact occupied far (List.perm_middle.mem_iff.mpr (List.mem_cons_of_mem _ others))
  · have others : rest.Perm (front ++ back) :=
      (old.symm.trans (perm.trans List.perm_middle)).cons_inv
    exact new.trans ((others.cons _).trans List.perm_middle.symm)
  · intro other listed addr owns
    have outside := owned_outside sound.apart ((owned_iff perm).mpr ⟨other, listed, owns⟩)
    exact setField_of_outside (show LiballocMinor.reqSize < 6 by decide) (by decide)
      (outside _ (mem_allRecords.mpr ⟨block, there, Block.piece_record member⟩))

/-- `krealloc` with no more than what there is. -/
theorem Keeps.krealloc_shrink (keeps : Keeps holds heap (front ++ piece :: back)) (some : size ≠ 0)
    (less : size ≤ piece.reqSize) : krealloc hooks piece.payload size heap =
      Option.some (piece.payload, heap.set piece.addr LiballocMinor.reqSize size) := by
  rcases keeps.reads with ⟨header, magic, reqSize⟩
  have nonnull := (keeps.pointer (List.mem_append_right _ List.mem_cons_self)).2.1
  rw [krealloc, if_neg some, if_neg nonnull, header]
  dsimp only
  rw [if_neg (not_not.mpr magic), reqSize, if_pos less]

/-- `krealloc` with more than what there is: the pointer is the one that `kmalloc` returns. -/
theorem Keeps.krealloc_called (keeps : Keeps holds heap (front ++ piece :: back))
    (more : piece.reqSize < size) {ptr : BitVec 32} {heap1 : Heap System}
    (called : Liballoc.kmalloc hooks size heap = some (ptr, heap1)) : krealloc hooks piece.payload size heap =
      some (ptr, Liballoc.kfree hooks piece.payload
        { heap1 with mem := liballocMemcpy piece.reqSize.toNat ptr piece.payload heap1.mem }) := by
  rcases keeps.reads with ⟨header, magic, reqSize⟩
  have nonnull := (keeps.pointer (List.mem_append_right _ List.mem_cons_self)).2.1
  have some : size ≠ 0 := by
    rintro rfl
    exact absurd more (by bv_omega)
  have notLess : ¬ piece.reqSize ≥ size := BitVec.not_le.mpr more
  rw [krealloc, if_neg some, if_neg nonnull, header]
  dsimp only
  rw [if_neg (not_not.mpr magic), reqSize, if_neg notLess, called]
  rfl

/-- `krealloc` with more than what there is: a new piece gets the bytes of the old one. -/
theorem Keeps.krealloc_grow (lawful : hooks.Lawful holds ready)
    (keeps : Keeps holds heap (front ++ piece :: back))
    (asks : ready heap.system (pagesFor (size + (alignment + alignInfo))))
    (more : piece.reqSize < size) (room : size.toNat + 80 < 2 ^ 32) : ∃ ptr heap',
      krealloc hooks piece.payload size heap = some (ptr, heap') ∧ (ptr ≠ 0 → ∃ fresh,
        ptr = fresh.payload ∧ fresh.reqSize = size ∧ Keeps holds heap' (front ++ fresh :: back) ∧
        (∀ offset : BitVec 32, offset.toNat < piece.reqSize.toNat →
          heap'.mem (fresh.payload + offset) = heap.mem (piece.payload + offset)) ∧
        SameBytes (front ++ back) heap.mem heap'.mem ∧ Quiet heap heap') := by
  have member : piece ∈ front ++ piece :: back := List.mem_append_right _ List.mem_cons_self
  rcases keeps.kmalloc lawful asks room with ⟨ptr, heap1, called, served⟩
  let heap2 : Heap System :=
    { heap1 with mem := liballocMemcpy piece.reqSize.toNat ptr piece.payload heap1.mem }
  refine ⟨ptr, Liballoc.kfree hooks piece.payload heap2, keeps.krealloc_called more called,
    fun granted => ?_⟩
  · rcases served.outcome with ⟨null, _⟩ | ⟨fresh, pointer, sizes, keeps1⟩
    · exact absurd null granted
    · have old : piece ∈ fresh :: (front ++ piece :: back) := List.mem_cons_of_mem _ member
      have wide : piece.reqSize.toNat ≤ fresh.reqSize.toNat := by
        rw [sizes]
        exact Nat.le_of_lt more
      have apart : Apart ptr piece.reqSize.toNat piece.payload piece.reqSize.toNat := by
        rcases Nat.eq_zero_or_pos piece.reqSize.toNat with none | positive
        · rw [none]
          exact ⟨Nat.zero_le _, Nat.zero_le _⟩
        · refine apart_of_disjoint positive positive (fun addr inside => ?_)
          have owns := (keeps1.owns_iff old).mpr inside
          rw [pointer]
          exact Nat.le_trans wide (keeps1.payloads_apart member owns)
      have bytes : heap2.mem = copied heap1.mem fresh.payload piece.payload piece.reqSize.toNat := by
        rw [← pointer]
        exact liballocMemcpy_eq _ _ _ _ apart
      have keeps2 : Keeps holds heap2 ((fresh :: front) ++ piece :: back) := by
        refine keeps1.write (fun addr changed => ⟨fresh, List.mem_cons_self, ?_⟩)
        refine (keeps1.owns_iff List.mem_cons_self).mpr (Nat.lt_of_lt_of_le ?_ wide)
        by_contra outside
        exact changed ((congrFun bytes addr).trans (if_neg outside))
      rcases keeps2.kfree lawful with ⟨keeps3, kept, quiet⟩
      refine ⟨fresh, pointer, sizes, keeps3.perm List.perm_middle.symm, fun offset inside => ?_,
        fun other listed addr owns => ?_, ?_, ?_⟩
      · have ownsNew : fresh.Owns (fresh.payload + offset) := by
          refine (keeps1.owns_iff List.mem_cons_self).mpr ?_
          rw [add_sub_cancel_left]
          exact Nat.lt_of_lt_of_le inside wide
        have ownsOld : piece.Owns (piece.payload + offset) := by
          refine (keeps1.owns_iff old).mpr ?_
          rwa [add_sub_cancel_left]
        refine (kept fresh List.mem_cons_self _ ownsNew).trans ?_
        refine Eq.trans ?_ (served.kept piece member _ ownsOld)
        rw [bytes, copied, add_sub_cancel_left, if_pos inside]
      · have inOld : other ∈ front ++ piece :: back :=
          List.perm_middle.mem_iff.mpr (List.mem_cons_of_mem _ listed)
        refine (kept other (List.mem_cons_of_mem _ listed) addr owns).trans ?_
        refine Eq.trans ?_ (served.kept other inOld addr owns)
        rw [bytes, copied, if_neg ?_]
        exact Nat.not_lt.mpr (Nat.le_trans wide (keeps1.payloads_apart inOld owns))
      · exact quiet.errorCount.trans served.quiet.errorCount
      · exact quiet.possibleOverruns.trans served.quiet.possibleOverruns

end Krealloc

end Liballoc

end WeakOS
