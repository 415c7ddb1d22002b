import Mathlib
import WeakOS.Liballoc.Fetch

namespace WeakOS

open Foundation X86

namespace Liballoc

/-!
# `kmalloc`

The search begins at the block with the most free bytes that is known, and goes
on from the first block when it has come to the last one.  It ends with a piece
in a gap, with a piece in a new block, or with a null pointer when the system has
no pages.  A block that it has passed over after its start from the first block
has no gap that is large enough, so a new block is made only when no block has
one.
-/

/-- No block has a gap of this size. -/
def Full (blocks : List Block) (size : BitVec 32) : Prop :=
  ∀ block ∈ blocks, ∀ front back, ¬ block.Gap front back size

/-- Every block has a piece. -/
def Occupied (blocks : List Block) : Prop := ∀ block ∈ blocks, block.pieces ≠ []

/-- The counters that nothing but a complaint changes. -/
structure Quiet {System : Type} (heap heap' : Heap System) : Prop where
  errorCount : heap'.errorCount = heap.errorCount
  possibleOverruns : heap'.possibleOverruns = heap.possibleOverruns

/-- There is a new piece. -/
structure Granted {System : Type} (hooks : Hooks System) (holds : System → List Pages → Prop)
    (heap heap' : Heap System) (blocks blocks' : List Block) (size : BitVec 32) (piece : Piece) :
    Prop where
  sound : Sound holds heap' blocks'
  occupied : Occupied blocks'
  pieces : (allPieces blocks').Perm (piece :: allPieces blocks)
  kept : ∀ addr, Owned blocks addr → heap'.mem addr = heap.mem addr
  outside : ∀ addr, Outside blocks' addr → heap'.mem addr = heap.mem addr
  pages : (blocks'.map Block.span = blocks.map Block.span ∧ heap'.system = heap.system) ∨
    (Full blocks size ∧ ∃ ptr mem', blocks'.map Block.span =
        blocks.map Block.span ++ [⟨ptr, pagesFor size⟩] ∧
      hooks.alloc (pagesFor size) (heap.mem, heap.system) = (ptr, mem', heap'.system))
  quiet : Quiet heap heap'
  warningCount : heap'.warningCount = heap.warningCount

/-- There is no room, and there are no pages. -/
structure Denied {System : Type} (hooks : Hooks System) (holds : System → List Pages → Prop)
    (heap heap' : Heap System) (blocks : List Block) (size : BitVec 32) : Prop where
  sound : Sound holds heap' blocks
  full : Full blocks size
  refused : ∃ mem', hooks.alloc (pagesFor size) (heap.mem, heap.system) = (0, mem', heap'.system)
  kept : ∀ addr, Owned blocks addr → heap'.mem addr = heap.mem addr
  outside : ∀ addr, Outside blocks addr → heap'.mem addr = heap.mem addr
  quiet : Quiet heap heap'
  warningCount : heap'.warningCount = heap.warningCount + 1

/-- What `kmalloc` may answer. -/
def Answer {System : Type} (hooks : Hooks System) (holds : System → List Pages → Prop)
    (heap : Heap System) (blocks : List Block) (size reqSize : BitVec 32)
    (result : BitVec 32 × Heap System) : Prop :=
  (result.1 = 0 ∧ Denied hooks holds heap result.2 blocks size) ∨
    ∃ blocks' piece, result.1 = piece.payload ∧ piece.size = size ∧ piece.reqSize = reqSize ∧
      Granted hooks holds heap result.2 blocks blocks' size piece

section Search

variable {System : Type} {hooks : Hooks System} {holds : System → List Pages → Prop}
  {ready : System → BitVec 32 → Prop}
  {heap heap' : Heap System} {blocks front back : List Block} {block fresh whole : Block}
  {piece : Piece} {size reqSize maj : BitVec 32} {result : BitVec 32 × Heap System}

/-- The best bet is none of the things that an answer is about. -/
theorem Answer.of_bet
    (answer : Answer hooks holds { heap with bestBet := maj } blocks size reqSize result) :
    Answer hooks holds heap blocks size reqSize result := by
  rcases answer with ⟨null, denied⟩ | ⟨blocks', piece, pointer, sizes, sizes', granted⟩
  · exact Or.inl ⟨null, denied.sound, denied.full, denied.refused, denied.kept, denied.outside,
      ⟨denied.quiet.errorCount, denied.quiet.possibleOverruns⟩, denied.warningCount⟩
  · exact Or.inr ⟨blocks', piece, pointer, sizes, sizes', granted.sound, granted.occupied,
      granted.pieces, granted.kept, granted.outside, granted.pages,
      ⟨granted.quiet.errorCount, granted.quiet.possibleOverruns⟩, granted.warningCount⟩

theorem Sound.bet (sound : Sound holds heap blocks) (bet : maj = 0 ∨ maj ∈ blocks.map Block.addr) :
    Sound holds { heap with bestBet := maj } blocks :=
  ⟨sound.links, sound.each, sound.apart, bet, sound.allocated, sound.inuse, sound.held⟩

/-! ### One block -/

/-- The free bytes of a block. -/
theorem BlockAt.free_eq (held : BlockAt heap.mem block) :
    (heap.get block.addr LiballocMajor.size - heap.get block.addr LiballocMajor.usage).toNat =
      block.bytes - block.used := by
  have size : (heap.get block.addr LiballocMajor.size).toNat = block.bytes := held.size_toNat
  have used := block.used_le
  have usage : (heap.get block.addr LiballocMajor.usage).toNat = block.used := by
    rw [Heap.get, held.usage]
    exact Nat.mod_eq_of_lt (by omega)
  bv_omega

/-- A block with a gap has that many free bytes. -/
theorem Block.Gap.free {pieces pieces' : List Piece} (gap : block.Gap pieces pieces' size) :
    block.used + 24 + size.toNat ≤ block.bytes := by
  have chained := block.chained
  have room := gap.room
  rw [gap.split] at chained
  have left := chained.parts.1.span_le
  have right : block.gapTo pieces' + Layout.span Piece.length pieces' ≤ block.limit := by
    have behind := chained.parts.2
    cases pieces' with
    | nil => exact Nat.le_refl _
    | cons next rest =>
        have below := (show Layout.Chained (· ≤ ·) Piece.base Piece.length next.base (next :: rest) _ from
          ⟨Nat.le_refl _, behind.2⟩).span_le
        exact below
  have total : block.used = 24 + (Layout.span Piece.length pieces + Layout.span Piece.length pieces') := by
    rw [Block.used, gap.split, Layout.span_append]
  unfold Block.gapFrom at room
  unfold Block.limit at right
  omega

/-- A piece that has been put into one of the blocks. -/
theorem PlacedIn.granted (placed : PlacedIn heap heap' block whole piece)
    (sound : Sound holds heap (front ++ block :: back)) (occupied : Occupied (front ++ block :: back)) :
    Granted hooks holds heap heap' (front ++ block :: back) (front ++ whole :: back) size piece := by
  have spans : (front ++ whole :: back).map Block.span = (front ++ block :: back).map Block.span := by
    rw [List.map_append, List.map_cons, placed.replaces.span, List.map_append, List.map_cons]
  have rest := placed.rest
  refine ⟨sound.place placed, ?_, placed.allPieces_perm, fun addr owned => placed.kept sound owned,
    fun addr outside => placed.frame_outside (fun inside => ?_), Or.inl ⟨spans, ?_⟩, ⟨?_, ?_⟩, ?_⟩
  · intro other member
    rcases List.mem_cons.mp (List.perm_middle.mem_iff.mp member) with rfl | others
    · rcases placed.grown with ⟨_, _, grown⟩
      exact List.ne_nil_of_mem grown.member
    · exact occupied other (List.perm_middle.mem_iff.mpr (List.mem_cons_of_mem _ others))
  · refine outside whole (List.mem_append_right _ List.mem_cons_self) ?_
    exact (Block.contains_of_span placed.replaces.span).mpr inside
  all_goals rw [rest]

/-- A piece that has been put into a new block. -/
theorem PlacedIn.granted_fresh {heap1 : Heap System} {ptr : BitVec 32} {mem' : Mem}
    (placed : PlacedIn heap1 heap' fresh whole piece)
    (appended : Appended holds heap heap1 blocks size fresh) (occupied : Occupied blocks)
    (full : Full blocks size) (span : fresh.span = ⟨ptr, pagesFor size⟩)
    (answer : hooks.alloc (pagesFor size) (heap.mem, heap.system) = (ptr, mem', heap1.system)) :
    Granted hooks holds heap heap' blocks (blocks ++ [whole]) size piece := by
  have rest := placed.rest
  have whole_span := placed.replaces.span
  have perm := @PlacedIn.allPieces_perm _ _ _ blocks [] _ _ _ placed
  rw [allPieces_concat blocks appended.pieces] at perm
  refine ⟨appended.sound.place placed, ?_, perm, fun addr owned => ?_, fun addr outside => ?_,
    Or.inr ⟨full, ptr, mem', ?_, ?_⟩, ⟨?_, ?_⟩, ?_⟩
  · intro other member
    rcases List.mem_append.mp member with old | new
    · exact occupied other old
    · rcases placed.grown with ⟨_, _, grown⟩
      rw [List.mem_singleton.mp new]
      exact List.ne_nil_of_mem grown.member
  · refine (placed.kept appended.sound ?_).trans (appended.kept owned)
    rwa [Owned, allPieces_concat blocks appended.pieces]
  · have notFresh : ¬ fresh.Contains addr := by
      rw [← Block.contains_of_span whole_span]
      exact outside whole (List.mem_append_right _ List.mem_cons_self)
    refine (placed.frame_outside notFresh).trans (appended.frame addr ?_ notFresh)
    exact outside_outside (fun block member => outside block (List.mem_append_left _ member))
  · rw [List.map_append, List.map_singleton, whole_span, span]
  · rw [answer, rest]
  · rw [rest]
    exact appended.counters.2.1
  · rw [rest]
    exact appended.counters.2.2
  · rw [rest]
    exact appended.counters.1

/-- A new block gets the piece at once. -/
theorem visitMajor_fresh {heap1 : Heap System} {ptr : BitVec 32} {mem' : Mem} {startedBet : Bool}
    {again : BitVec 32 → Bool → Heap System → Option (BitVec 32 × Heap System)}
    (fits : reqSize.toNat + 32 ≤ size.toNat) (small : size.toNat + 48 < 2 ^ 32)
    (appended : Appended holds heap heap1 blocks size fresh) (occupied : Occupied blocks)
    (full : Full blocks size) (span : fresh.span = ⟨ptr, pagesFor size⟩)
    (answer : hooks.alloc (pagesFor size) (heap.mem, heap.system) = (ptr, mem', heap1.system)) :
    ∃ result, visitMajor hooks size reqSize again fresh.addr startedBet heap1 = some result ∧
      Answer hooks holds heap blocks size reqSize result := by
  have held := appended.sound.each fresh (List.mem_append_right _ List.mem_cons_self)
  have gap := appended.gap
  rcases placeIn_spec held fits (by omega) (fun _ => gap) with ⟨outcome, found, finds⟩
  cases outcome with
  | none => exact absurd gap (finds [] [])
  | some result =>
      rcases finds with ⟨whole, piece, sizes, sizes', pointer, placed⟩
      refine ⟨result, ?_, Or.inr ⟨_, piece, pointer, sizes, sizes',
        placed.granted_fresh appended occupied full span answer⟩⟩
      rw [visitMajor, found]
      rfl

/-- The end of the search, when the block is the last one and none has a gap. -/
theorem appendPage_answer {last : Block}
    (again : BitVec 32 → Bool → Heap System → Option (BitVec 32 × Heap System))
    (lawful : hooks.Lawful holds ready) (sound : Sound holds heap (front ++ [last]))
    (asks : ready heap.system (pagesFor size)) (occupied : Occupied (front ++ [last]))
    (fits : reqSize.toNat + 32 ≤ size.toNat)
    (small : size.toNat + 48 < 2 ^ 32) (full : Full (front ++ [last]) size)
    (fresh : ∀ fresh heap1, Appended holds heap heap1 (front ++ [last]) size fresh →
      ∃ bet again', again fresh.addr false heap1 =
        visitMajor hooks size reqSize again' fresh.addr false { heap1 with bestBet := bet } ∧
          (bet = 0 ∨ bet ∈ ((front ++ [last]) ++ [fresh]).map Block.addr)) :
    ∃ result, (if (appendPage hooks size last.addr heap).1 = 0 then
        some (0, (appendPage hooks size last.addr heap).2)
      else again (appendPage hooks size last.addr heap).1 false
        (appendPage hooks size last.addr heap).2) = some result ∧
      Answer hooks holds heap (front ++ [last]) size reqSize result := by
  rcases answer : hooks.alloc (pagesFor size) (heap.mem, heap.system) with ⟨ptr, mem', system'⟩
  by_cases null : ptr = 0
  · subst null
    rcases appendPage_refused lawful sound asks small answer with
      ⟨heap', called, sound', frame, system_eq, warnings, errors, overruns⟩
    refine ⟨(0, heap'), ?_, Or.inl ⟨rfl, sound', full, ⟨mem', ?_⟩, ?_, ?_, ⟨errors, overruns⟩, warnings⟩⟩
    · rw [called]
      exact if_pos rfl
    · rw [answer, system_eq]
    · exact fun addr owned => frame addr (owned_outside sound.apart owned)
    · exact fun addr outside => frame addr (outside_outside outside)
  · rcases appendPage_spec lawful sound asks small answer null with
      ⟨new, heap1, called, span, system_eq, appended⟩
    rcases fresh new heap1 appended with ⟨bet, again', visits, bets⟩
    have appended' : Appended holds heap { heap1 with bestBet := bet } (front ++ [last]) size new :=
      ⟨appended.pieces, appended.room, appended.sound.bet bets, appended.frame, appended.counters⟩
    rw [← system_eq] at answer
    rcases visitMajor_fresh fits small appended' occupied full span answer with ⟨result, found, answers⟩
    refine ⟨result, ?_, answers⟩
    rw [called]
    exact (if_neg new.addr_ne_zero).trans (visits.trans found)

/-- The loop goes on to the pieces of a new block. -/
theorem search_fresh {heap1 : Heap System} {fuel : Nat} {bestSize : BitVec 64}
    (small : size.toNat + 48 < 2 ^ 32) (appended : Appended holds heap heap1 blocks size fresh)
    (positive : 0 < fuel) : ∃ bet again,
      search hooks size reqSize fuel fresh.addr bestSize false heap1 =
        visitMajor hooks size reqSize again fresh.addr false { heap1 with bestBet := bet } ∧
          (bet = 0 ∨ bet ∈ (blocks ++ [fresh]).map Block.addr) := by
  have listed : fresh ∈ blocks ++ [fresh] := List.mem_append_right _ List.mem_cons_self
  have free := (appended.sound.each fresh listed).free_eq
  have room := appended.room
  have used : fresh.used = 24 := by
    rw [Block.used, appended.pieces]
    rfl
  have enough : ¬ heap1.get fresh.addr LiballocMajor.size - heap1.get fresh.addr LiballocMajor.usage <
      size + LiballocMinor.bytes := by
    have asked : (size + LiballocMinor.bytes).toNat = size.toNat + 24 := by
      unfold LiballocMinor.bytes
      bv_omega
    rw [BitVec.lt_def, free, asked, used]
    omega
  rcases Nat.exists_eq_succ_of_ne_zero (Nat.ne_of_gt positive) with ⟨fuel, rfl⟩
  rw [search, if_neg fresh.addr_ne_zero]
  dsimp only
  rw [if_neg enough]
  split
  · exact ⟨fresh.addr, _, rfl, Or.inr (List.mem_map_of_mem listed)⟩
  · exact ⟨heap1.bestBet, _, rfl, appended.sound.bestBet⟩

/-! ### All blocks -/

/-- What the loop reads at a block. -/
theorem Sound.next_eq (sound : Sound holds heap (front ++ block :: back)) :
    heap.get block.addr LiballocMajor.next = DoublyLinked.headOf (back.map Block.addr) 0 := by
  have links := sound.links
  rw [List.map_append, List.map_cons] at links
  exact links.at.2

/-- What the loop has to do from a block on. -/
def Searches (hooks : Hooks System) (holds : System → List Pages → Prop)
    (ready : System → BitVec 32 → Prop) (size reqSize : BitVec 32) (fuel : Nat) (heap : Heap System) (front : List Block) (block : Block) (back : List Block)
    (bestSize : BitVec 64) (startedBet : Bool) : Prop :=
  ready heap.system (pagesFor size) → Sound holds heap (front ++ block :: back) → Occupied (front ++ block :: back) →
    (startedBet = false → Full front size) →
    back.length + 2 + (if startedBet then (front ++ block :: back).length else 0) ≤ fuel →
    ∃ result, search hooks size reqSize fuel block.addr bestSize startedBet heap = some result ∧
      Answer hooks holds heap (front ++ block :: back) size reqSize result

/-- The ways to go on when a block has been passed over. -/
theorem passed {fuel : Nat} {bestSize : BitVec 64} {startedBet : Bool}
    (inductionHypothesis : ∀ front block back startedBet,
      Searches hooks holds ready size reqSize fuel heap front block back bestSize startedBet)
    (asks : ready heap.system (pagesFor size)) (sound : Sound holds heap (front ++ block :: back))
    (occupied : Occupied (front ++ block :: back)) (skipped : startedBet = false → Full front size)
    (absent : ∀ pieces pieces', ¬ block.Gap pieces pieces' size)
    (enough : back.length + 2 + (if startedBet then (front ++ block :: back).length else 0) ≤ fuel + 1) :
    (heap.get block.addr LiballocMajor.next ≠ 0 ∧ ∃ result,
      search hooks size reqSize fuel (heap.get block.addr LiballocMajor.next) bestSize startedBet heap =
        some result ∧ Answer hooks holds heap (front ++ block :: back) size reqSize result) ∨
    (heap.get block.addr LiballocMajor.next = 0 ∧ startedBet = true ∧ ∃ result,
      search hooks size reqSize fuel heap.memRoot bestSize false heap = some result ∧
        Answer hooks holds heap (front ++ block :: back) size reqSize result) ∨
    (heap.get block.addr LiballocMajor.next = 0 ∧ startedBet = false ∧ back = [] ∧
      Full (front ++ [block]) size) := by
  have next_eq := sound.next_eq
  have full : startedBet = false → Full (front ++ [block]) size := by
    intro notBet other member
    rcases List.mem_append.mp member with before | here
    · exact skipped notBet other before
    · rw [List.mem_singleton.mp here]
      exact absent
  cases back with
  | cons next rest =>
      refine Or.inl ?_
      have follows : heap.get block.addr LiballocMajor.next = next.addr := next_eq
      have split : front ++ block :: next :: rest = (front ++ [block]) ++ next :: rest := by
        rw [List.append_assoc]
        rfl
      rw [split] at sound occupied enough ⊢
      rw [follows]
      refine ⟨next.addr_ne_zero, inductionHypothesis _ _ _ _ asks sound occupied full ?_⟩
      rw [List.length_cons] at enough
      omega
  | nil =>
      refine Or.inr ?_
      have ends : heap.get block.addr LiballocMajor.next = 0 := next_eq
      cases startedBet with
      | false => exact Or.inr ⟨ends, rfl, rfl, full rfl⟩
      | true =>
          refine Or.inl ⟨ends, rfl, ?_⟩
          have entered := sound.links.entry_eq
          cases blocks : front ++ [block] with
          | nil => exact absurd blocks (by simp)
          | cons first rest =>
              rw [blocks] at sound occupied entered enough
              have root : heap.memRoot = first.addr := entered
              rw [root]
              refine inductionHypothesis [] first rest false asks sound occupied
                (fun _ other nothing => absurd nothing List.not_mem_nil) ?_
              rw [if_pos rfl, List.length_cons] at enough
              rw [if_neg (by decide)]
              omega

/-- Nobody is passed over with a gap, so the search ends with an answer. -/
theorem search_spec (lawful : hooks.Lawful holds ready) (fits : reqSize.toNat + 32 ≤ size.toNat)
    (small : size.toNat + 48 < 2 ^ 32) (fuel : Nat) : ∀ heap front block back bestSize startedBet,
      Searches hooks holds ready size reqSize fuel heap front block back bestSize startedBet := by
  have asked : (size + LiballocMinor.bytes).toNat = size.toNat + 24 := by
    unfold LiballocMinor.bytes
    bv_omega
  induction fuel with
  | zero =>
      intro heap front block back bestSize startedBet asks sound occupied skipped enough
      omega
  | succ fuel inductionHypothesis =>
      intro heap front block back bestSize startedBet asks sound occupied skipped enough
      have member : block ∈ front ++ block :: back := List.mem_append_right _ List.mem_cons_self
      have nonempty := occupied block member
      rw [search, if_neg block.addr_ne_zero]
      dsimp only
      generalize diffs : heap.get block.addr LiballocMajor.size -
        heap.get block.addr LiballocMajor.usage = diff
      have free := (sound.each block member).free_eq
      rw [diffs] at free
      generalize (if bestSize < diff.setWidth 64 then diff.setWidth 64 else bestSize) = bestSize'
      have bet : ∃ bet, (if bestSize < diff.setWidth 64 then { heap with bestBet := block.addr }
          else heap) = { heap with bestBet := bet } ∧
            (bet = 0 ∨ bet ∈ (front ++ block :: back).map Block.addr) := by
        split
        · exact ⟨_, rfl, Or.inr (List.mem_map_of_mem member)⟩
        · exact ⟨_, rfl, sound.bestBet⟩
      rcases bet with ⟨bet, updated, bets⟩
      rw [updated]
      have sound' := sound.bet bets
      have asks' : ready ({ heap with bestBet := bet } : Heap System).system (pagesFor size) := asks
      suffices goal : ∃ result, _ = some result ∧
          Answer hooks holds { heap with bestBet := bet } (front ++ block :: back) size reqSize result by
        rcases goal with ⟨result, found, answers⟩
        exact ⟨result, found, answers.of_bet⟩
      generalize { heap with bestBet := bet } = heap' at sound' asks' ⊢
      by_cases few : diff < size + LiballocMinor.bytes
      · rw [if_pos few]
        rw [BitVec.lt_def, free, asked] at few
        have absent : ∀ pieces pieces', ¬ block.Gap pieces pieces' size := by
          intro pieces pieces' gap
          have room := gap.free
          omega
        rcases passed (inductionHypothesis heap' · · · bestSize' ·) asks' sound' occupied skipped absent enough
          with ⟨next, found⟩ | ⟨ends, fromBet, found⟩ | ⟨ends, fromRoot, last, full⟩
        · rw [if_pos next]
          exact found
        · rw [if_neg (not_not.mpr ends), if_pos fromBet]
          exact found
        · subst fromRoot last
          rw [if_neg (not_not.mpr ends), if_neg (by decide)]
          refine appendPage_answer
            (visitMajor hooks size reqSize fun maj => search hooks size reqSize fuel maj bestSize')
            lawful sound' asks' occupied fits small full (fun fresh heap1 appended => ?_)
          exact ⟨heap1.bestBet, _, rfl, appended.sound.bestBet⟩
      · rw [if_neg few]
        have held := sound'.each block member
        rcases placeIn_spec held fits (by omega) (fun none => absurd none nonempty) with
          ⟨outcome, found, finds⟩
        rw [visitMajor, found, Option.bind_some]
        cases outcome with
        | some result =>
            rcases finds with ⟨whole, piece, sizes, sizes', pointer, placed⟩
            exact ⟨result, rfl, Or.inr ⟨_, piece, pointer, sizes, sizes', placed.granted sound' occupied⟩⟩
        | none =>
            dsimp only
            rcases passed (inductionHypothesis heap' · · · bestSize' ·) asks' sound' occupied skipped finds
              enough with ⟨next, found⟩ | ⟨ends, fromBet, found⟩ | ⟨ends, fromRoot, last, full⟩
            · rw [if_neg next]
              exact found
            · rw [if_pos ends, if_pos fromBet]
              exact found
            · subst fromRoot last
              rw [if_pos ends, if_neg (by decide)]
              refine appendPage_answer (fun maj => search hooks size reqSize fuel maj bestSize') lawful
                sound' asks' occupied fits small full (fun fresh heap1 appended => ?_)
              exact search_fresh small appended (by simp at enough; omega)

/-- There are not many blocks, since each has a header. -/
theorem Sound.count (sound : Sound holds heap blocks) : blocks.length ≤ 2 ^ 28 := by
  let places := blocks.map fun block => block.addr.toNat / 24
  have distinct : places.Nodup := by
    refine List.pairwise_map.mpr ((List.pairwise_map.mp sound.apart).imp (fun {first second} apart => ?_))
    have header : first.addr.toNat + 24 ≤ first.span.limit := first.header_room
    have header' : second.addr.toNat + 24 ≤ second.span.limit := second.header_room
    have apart' : first.span.limit ≤ second.addr.toNat ∨ second.span.limit ≤ first.addr.toNat := apart
    omega
  have inside : places ⊆ List.range (2 ^ 28) := by
    intro place member
    rcases List.mem_map.mp member with ⟨block, _, rfl⟩
    have small := block.addr.isLt
    exact List.mem_range.mpr (by omega)
  have bound := (distinct.subperm inside).length_le
  rwa [List.length_map, List.length_range] at bound

theorem Sound.root_eq (sound : Sound holds heap (block :: back)) : heap.memRoot = block.addr :=
  sound.links.entry_eq

theorem Sound.nil_iff (sound : Sound holds heap blocks) : heap.memRoot = 0 ↔ blocks = [] := by
  cases blocks with
  | nil =>
      have entered : heap.memRoot = 0 := sound.links
      exact iff_of_true entered rfl
  | cons block back =>
      rw [sound.root_eq]
      exact iff_of_false block.addr_ne_zero (List.cons_ne_nil _ _)

theorem searchFromBest_spec (lawful : hooks.Lawful holds ready) (sound : Sound holds heap blocks)
    (asks : ready heap.system (pagesFor size)) (occupied : Occupied blocks) (nonempty : blocks ≠ []) (fits : reqSize.toNat + 32 ≤ size.toNat)
    (small : size.toNat + 48 < 2 ^ 32) : ∃ result,
      searchFromBest hooks size reqSize heap = some result ∧
        Answer hooks holds heap blocks size reqSize result := by
  have count := sound.count
  have fromRoot : ∀ bestSize, ∃ result,
      search hooks size reqSize iterations heap.memRoot bestSize false heap = some result ∧
        Answer hooks holds heap blocks size reqSize result := by
    intro bestSize
    rcases List.exists_cons_of_ne_nil nonempty with ⟨first, rest, rfl⟩
    rw [sound.root_eq]
    refine search_spec lawful fits small iterations heap [] first rest bestSize false asks sound occupied
      (fun _ other nothing => absurd nothing List.not_mem_nil) ?_
    rw [List.length_cons] at count
    rw [if_neg (by decide), iterations]
    omega
  rw [searchFromBest]
  split
  · rename_i known
    dsimp only
    split
    · rcases List.mem_map.mp (sound.bestBet.resolve_left known) with ⟨bet, member, address⟩
      rcases List.append_of_mem member with ⟨front, back, rfl⟩
      rw [← address]
      refine search_spec lawful fits small iterations heap front bet back _ true asks sound occupied
        (fun wrong => absurd wrong (by decide)) ?_
      rw [if_pos rfl, iterations]
      rw [List.length_append, List.length_cons] at count ⊢
      omega
    · exact fromRoot _
  · exact fromRoot _

/-- There are no blocks yet. -/
theorem allocate_first (lawful : hooks.Lawful holds ready) (sound : Sound holds heap [])
    (asks : ready heap.system (pagesFor size)) (fits : reqSize.toNat + 32 ≤ size.toNat) (small : size.toNat + 48 < 2 ^ 32) : ∃ result,
      allocate hooks size reqSize heap = some result ∧
        Answer hooks holds heap [] size reqSize result := by
  have root : heap.memRoot = 0 := sound.nil_iff.mpr rfl
  have bet : heap.bestBet = 0 := sound.bestBet.resolve_right List.not_mem_nil
  have full : Full [] size := fun block nothing => absurd nothing List.not_mem_nil
  have occupied : Occupied [] := fun block nothing => absurd nothing List.not_mem_nil
  rcases answer : hooks.alloc (pagesFor size) (heap.mem, heap.system) with ⟨ptr, mem', system'⟩
  rw [allocate, if_pos root]
  dsimp only
  by_cases null : ptr = 0
  · subst null
    rcases (allocateNewPage_spec lawful sound.held asks small answer).1 rfl with ⟨held, called⟩
    rw [called]
    refine ⟨_, if_pos rfl, Or.inl ⟨rfl, ?_, full, ⟨mem', answer⟩, fun _ _ => rfl, fun _ _ => rfl,
      ⟨rfl, rfl⟩, rfl⟩⟩
    exact ⟨rfl, sound.each, sound.apart, sound.bestBet, sound.allocated, sound.inuse, held⟩
  · rcases allocateNewPage_first lawful sound asks small answer null with
      ⟨fresh, heap1, called, span, system_eq, noBet, appended⟩
    rcases @search_fresh _ hooks _ _ _ _ _ reqSize _ iterations 0 small appended (by decide) with
      ⟨bet', again, visits, bets⟩
    have appended' : Appended holds heap { heap1 with memRoot := fresh.addr, bestBet := bet' } []
        size fresh :=
      ⟨appended.pieces, appended.room, appended.sound.bet bets, appended.frame, appended.counters⟩
    rw [← system_eq] at answer
    rcases @visitMajor_fresh _ hooks _ _ _ _ _ reqSize _ _ _ false again fits small appended' occupied
      full span answer with ⟨result, found, answers⟩
    refine ⟨result, ?_, answers⟩
    rw [called, if_neg fresh.addr_ne_zero, searchFromBest, if_neg (not_not.mpr (noBet.trans bet))]
    exact visits.trans found

theorem allocate_spec (lawful : hooks.Lawful holds ready) (sound : Sound holds heap blocks)
    (asks : ready heap.system (pagesFor size)) (occupied : Occupied blocks) (fits : reqSize.toNat + 32 ≤ size.toNat)
    (small : size.toNat + 48 < 2 ^ 32) : ∃ result,
      allocate hooks size reqSize heap = some result ∧
        Answer hooks holds heap blocks size reqSize result := by
  by_cases root : heap.memRoot = 0
  · have none := sound.nil_iff.mp root
    subst none
    exact allocate_first lawful sound asks fits small
  · rw [allocate, if_neg root]
    exact searchFromBest_spec lawful sound asks occupied (mt sound.nil_iff.mpr root) fits small

/-- `kmalloc` ends with an answer, unless the size is one of the last eighty. -/
theorem kmalloc_answer (lawful : hooks.Lawful holds ready) (sound : Sound holds heap blocks)
    (asks : ready heap.system (pagesFor (reqSize + (alignment + alignInfo)))) (occupied : Occupied blocks) (room : reqSize.toNat + 80 < 2 ^ 32) : ∃ result,
      kmalloc hooks reqSize heap = some result ∧
        Answer hooks holds heap blocks (reqSize + (alignment + alignInfo)) reqSize result := by
  have size : (reqSize + (alignment + alignInfo)).toNat = reqSize.toNat + 32 := by
    unfold alignment alignInfo
    bv_omega
  have nonzero : reqSize + (alignment + alignInfo) ≠ 0 := by
    intro zero
    rw [zero] at size
    exact absurd size (by simp)
  rw [kmalloc, if_neg nonzero]
  exact allocate_spec lawful sound asks occupied (Nat.le_of_eq size.symm) (by omega)

end Search

end Liballoc

end WeakOS
