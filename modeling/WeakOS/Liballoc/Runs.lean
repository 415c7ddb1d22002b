import Mathlib
import WeakOS.Foundation.Run
import WeakOS.Liballoc.Krealloc

namespace WeakOS

open Foundation X86

namespace Liballoc

/-!
# Runs of the heap

The callers ask for memory, write to what they have got, and give it back.  For
each pointer in use the world remembers the bytes that its owner has stored; they
are what the memory holds, whatever the others do.

A caller that keeps to the rules frees and resizes only pointers in use, and
stores only to bytes that it has asked for.  The two calls that write through the
null pointer when there are no pages are asked for only when there are some.
-/

/-- Some bytes of the memory, from an address on. -/
def contents (mem : Mem) (ptr : BitVec 32) (count : Nat) : List (BitVec 8) :=
  (List.range count).map fun offset => mem (ptr + BitVec.ofNat 32 offset)

/-- A pointer in use, and the bytes that its owner has stored. -/
structure Holding where
  ptr : BitVec 32
  bytes : List (BitVec 8)

namespace Holding

variable (item : Holding)

def Contains (addr : BitVec 32) : Prop := (addr - item.ptr).toNat < item.bytes.length

instance (addr : BitVec 32) : Decidable (item.Contains addr) := inferInstanceAs (Decidable (_ < _))

def store (addr : BitVec 32) (byte : BitVec 8) : Holding :=
  { item with bytes := item.bytes.set (addr - item.ptr).toNat byte }

end Holding

/-- The heap, and what is in use. -/
structure World (System : Type) where
  heap : Heap System
  live : List Holding

inductive Request
  | kmalloc (size : BitVec 32)
  | kcalloc (nobj size : BitVec 32)
  | krealloc (ptr size : BitVec 32)
  | kfree (ptr : BitVec 32)
  | store (addr : BitVec 32) (byte : BitVec 8)

namespace World

variable {System : Type} (world : World System)

/-- A pointer that is not null is in use from now on. -/
def received (bytes : List (BitVec 8)) (ptr : BitVec 32) (heap : Heap System) : World System :=
  ⟨heap, if ptr = 0 then world.live else ⟨ptr, bytes⟩ :: world.live⟩

def returned (ptr : BitVec 32) (heap : Heap System) : World System :=
  ⟨heap, world.live.filter fun item => item.ptr ≠ ptr⟩

/-- The bytes of the old pointer, and behind them what the memory holds. -/
def resized (old size ptr : BitVec 32) (heap : Heap System) : World System :=
  ⟨heap, world.live.map fun item =>
    if item.ptr = old then
      ⟨ptr, item.bytes.take size.toNat ++ (contents heap.mem ptr size.toNat).drop item.bytes.length⟩
    else item⟩

variable (hooks : Hooks System)

def step : Request → Option (World System)
  | .kmalloc size => (kmalloc hooks size world.heap).map fun (ptr, heap) =>
      world.received (contents heap.mem ptr size.toNat) ptr heap
  | .kcalloc nobj size => (kcalloc hooks nobj size world.heap).map fun (ptr, heap) =>
      world.received (List.replicate (nobj * size).toNat 0) ptr heap
  | .krealloc old size => (krealloc hooks old size world.heap).map fun (ptr, heap) =>
      if size = 0 then world.returned old heap
      else if old = 0 then world.received (contents heap.mem ptr size.toNat) ptr heap
      else world.resized old size ptr heap
  | .kfree ptr => some (world.returned ptr (kfree hooks ptr world.heap))
  | .store addr byte => some
      ⟨world.heap.setByte addr byte, world.live.map fun item => item.store addr byte⟩

section Answered

variable {world hooks} {nobj size old ptr : BitVec 32} {heap : Heap System}

section First

variable {heap' : Heap System} {bytes : List (BitVec 8)} {others : List Holding}

end First

end Answered

/-- The pointer is in use. -/
def InUse (ptr : BitVec 32) : Prop := ∃ item ∈ world.live, item.ptr = ptr

/-- The size is none of the last eighty, and the system is ready for the pages. -/
def MayAsk (ready : System → BitVec 32 → Prop) (size : BitVec 32) : Prop :=
  size.toNat + 80 < 2 ^ 32 ∧ ready world.heap.system (pagesFor (size + (alignment + alignInfo)))

/-- What a caller may do. -/
def Permitted (ready : System → BitVec 32 → Prop) : Request → Prop
  | .kmalloc size => world.MayAsk ready size
  | .kcalloc nobj size => world.MayAsk ready (nobj * size) ∧
      (kcalloc hooks nobj size world.heap).map Prod.fst ≠ some 0
  | .krealloc old size => world.MayAsk ready size ∧ (old = 0 ∨ world.InUse old ∧
      (size ≠ 0 → (krealloc hooks old size world.heap).map Prod.fst ≠ some 0))
  | .kfree ptr => ptr = 0 ∨ world.InUse ptr
  | .store addr _ => ∃ item ∈ world.live, item.Contains addr

/-- What the callers may rely on. -/
structure Good (holds : System → List Pages → Prop) : Prop where
  aligned : ∀ item ∈ world.live, item.ptr ≠ 0 ∧ item.ptr.toNat % 16 = 0 ∧
    item.ptr.toNat + item.bytes.length < 2 ^ 32
  stored : ∀ item ∈ world.live, contents world.heap.mem item.ptr item.bytes.length = item.bytes
  apart : world.live.Pairwise fun first second =>
    first.ptr ≠ second.ptr ∧ ∀ addr, first.Contains addr → ¬ second.Contains addr
  inside : ∃ given, holds world.heap.system given ∧ ∀ item ∈ world.live, ∃ pages ∈ given,
    ∀ addr, item.Contains addr → pages.Contains addr
  quiet : world.heap.errorCount = 0 ∧ world.heap.possibleOverruns = 0
  returned : world.live = [] → world.heap.allocated = 0 ∧ world.heap.inuse = 0 ∧
    world.heap.memRoot = 0 ∧ holds world.heap.system []

end World

/-! ## What the world remembers -/

/-- A piece in use, and what the world remembers of it. -/
structure Carries (mem : Mem) (piece : Piece) (item : Holding) : Prop where
  ptr : item.ptr = piece.payload
  bytes : item.bytes = contents mem piece.payload piece.reqSize.toNat

/-- The world remembers the pieces in use. -/
def Remembers {System : Type} (holds : System → List Pages → Prop) (world : World System) : Prop :=
  (∃ pieces, Keeps holds world.heap pieces ∧
    List.Forall₂ (Carries world.heap.mem) pieces world.live) ∧
  world.heap.errorCount = 0 ∧ world.heap.possibleOverruns = 0

section Contents

variable {mem mem' : Mem} {ptr ptr' addr : BitVec 32} {count : Nat}

@[simp] theorem length_contents : (contents mem ptr count).length = count := by
  rw [contents, List.length_map, List.length_range]

theorem getElem_contents {offset : Nat} (inside : offset < (contents mem ptr count).length) :
    (contents mem ptr count)[offset] = mem (ptr + BitVec.ofNat 32 offset) := by
  simp only [contents, List.getElem_map, List.getElem_range]

theorem contents_congr (short : count ≤ 2 ^ 32)
    (same : ∀ offset : BitVec 32, offset.toNat < count → mem' (ptr' + offset) = mem (ptr + offset)) :
    contents mem' ptr' count = contents mem ptr count := by
  refine List.map_congr_left (fun offset member => same _ ?_)
  have inside := List.mem_range.mp member
  rw [BitVec.toNat_ofNat, Nat.mod_eq_of_lt (by omega)]
  exact inside

/-- A byte that is stored is a byte of what is there. -/
theorem contents_update (short : count ≤ 2 ^ 32) (byte : BitVec 8) :
    contents (Function.update mem addr byte) ptr count =
      (contents mem ptr count).set (addr - ptr).toNat byte := by
  refine List.ext_getElem (by simp) (fun offset inside inside' => ?_)
  rw [length_contents] at inside
  have small : (BitVec.ofNat 32 offset).toNat = offset := Nat.mod_eq_of_lt (by omega)
  rw [getElem_contents, List.getElem_set, getElem_contents, Function.update_apply]
  refine if_congr ?_ rfl rfl
  generalize BitVec.ofNat 32 offset = k at small
  bv_omega

end Contents

section Remembers

variable {System : Type} {hooks : Hooks System} {holds : System → List Pages → Prop}
  {ready : System → BitVec 32 → Prop}
  {world next : World System} {heap heap' : Heap System} {pieces front back : List Piece}
  {live : List Holding} {piece : Piece} {item : Holding} {mem mem' : Mem} {ptr old size addr : BitVec 32}

/-- What is remembered of a piece stays, when its bytes do. -/
theorem Carries.same (carries : Carries mem piece item)
    (same : ∀ offset : BitVec 32, offset.toNat < piece.reqSize.toNat →
      mem' (piece.payload + offset) = mem (piece.payload + offset)) : Carries mem' piece item :=
  ⟨carries.ptr, carries.bytes.trans (contents_congr (by omega) (fun offset inside =>
    (same offset inside).symm))⟩

theorem Keeps.carries {all : List Piece} (keeps : Keeps holds heap all)
    (listed : ∀ piece ∈ pieces, piece ∈ all) (same : SameBytes pieces mem mem')
    (carried : List.Forall₂ (Carries mem) pieces live) : List.Forall₂ (Carries mem') pieces live := by
  have each : ∀ piece ∈ pieces, ∀ item, Carries mem piece item → Carries mem' piece item := by
    intro piece member item carries
    refine carries.same (fun offset inside => same piece member _ ?_)
    refine (keeps.owns_iff (listed piece member)).mpr ?_
    rwa [add_sub_cancel_left]
  clear listed same
  induction carried with
  | nil => exact List.Forall₂.nil
  | @cons piece item pieces live head _ inductionHypothesis =>
      exact List.Forall₂.cons (each piece List.mem_cons_self item head)
        (inductionHypothesis (fun other member => each other (List.mem_cons_of_mem _ member)))

/-- The piece of a pointer in use, with the others around it. -/
theorem forall₂_split {First Second : Type} {rel : First → Second → Prop} {firsts : List First}
    {left right : List Second} {item : Second} (related : List.Forall₂ rel firsts (left ++ item :: right)) :
    ∃ front piece back, firsts = front ++ piece :: back ∧ List.Forall₂ rel front left ∧
      rel piece item ∧ List.Forall₂ rel back right := by
  induction left generalizing firsts with
  | nil =>
      rcases List.forall₂_cons_right_iff.mp related with ⟨piece, back, head, tail, rfl⟩
      exact ⟨[], piece, back, rfl, List.Forall₂.nil, head, tail⟩
  | cons other left inductionHypothesis =>
      rcases List.forall₂_cons_right_iff.mp related with ⟨first, rest, head, tail, rfl⟩
      rcases inductionHypothesis tail with ⟨front, piece, back, rfl, before, here, after⟩
      exact ⟨first :: front, piece, back, rfl, List.Forall₂.cons head before, here, after⟩

/-- What holds between any two members of a list holds between the members they go with. -/
theorem forall₂_pairwise {First Second : Type} {rel : First → Second → Prop}
    {before : First → First → Prop} {after : Second → Second → Prop} {firsts : List First}
    {seconds : List Second} (related : List.Forall₂ rel firsts seconds) (pairwise : firsts.Pairwise before)
    (carry : ∀ first ∈ firsts, ∀ first' ∈ firsts, ∀ second second', rel first second →
      rel first' second' → before first first' → after second second') : seconds.Pairwise after := by
  induction related with
  | nil => exact List.Pairwise.nil
  | @cons first second firsts seconds head tail inductionHypothesis =>
      have parts := List.pairwise_cons.mp pairwise
      refine List.pairwise_cons.mpr ⟨fun other member => ?_, inductionHypothesis parts.2 ?_⟩
      · rcases List.append_of_mem member with ⟨left, right, rfl⟩
        rcases forall₂_split tail with ⟨front, first', back, rfl, _, here, _⟩
        have listed : first' ∈ front ++ first' :: back := List.mem_append_right _ List.mem_cons_self
        exact carry first List.mem_cons_self first' (List.mem_cons_of_mem _ listed) second other head here
          (parts.1 first' listed)
      · exact fun one member other member' => carry one (List.mem_cons_of_mem _ member) other
          (List.mem_cons_of_mem _ member')

/-- Different pieces have different pointers. -/
theorem Keeps.payload_ne (keeps : Keeps holds heap (front ++ piece :: back)) :
    ∀ other ∈ front ++ back, other.payload ≠ piece.payload := by
  intro other member same
  have middle := keeps.perm List.perm_middle
  have apart := (List.pairwise_cons.mp middle.apart).1 other member
  have inside : ∀ far ∈ piece :: (front ++ back), far.Contains far.payload := by
    intro far listed
    have address := (middle.pointer listed).1
    have data := far.data_bounds
    unfold Piece.Contains
    omega
  refine apart piece.payload (inside piece List.mem_cons_self) ?_
  rw [← same]
  exact inside other (List.mem_cons_of_mem _ member)

/-- A pointer in use belongs to a piece, and the others have other pointers. -/
structure Located (holds : System → List Pages → Prop) (world : World System) (ptr : BitVec 32)
    (front : List Piece) (piece : Piece) (back : List Piece) (left : List Holding) (item : Holding)
    (right : List Holding) : Prop where
  pointer : piece.payload = ptr
  keeps : Keeps holds world.heap (front ++ piece :: back)
  live : world.live = left ++ item :: right
  before : List.Forall₂ (Carries world.heap.mem) front left
  here : Carries world.heap.mem piece item
  after : List.Forall₂ (Carries world.heap.mem) back right
  others : ∀ other ∈ left ++ right, other.ptr ≠ ptr

theorem Remembers.locate (remembers : Remembers holds world) (used : world.InUse ptr) :
    ∃ front piece back left item right,
      Located holds world ptr front piece back left item right := by
  rcases remembers.1 with ⟨pieces, keeps, carried⟩
  rcases used with ⟨item, member, pointer⟩
  rcases List.append_of_mem member with ⟨left, right, live⟩
  rw [live] at carried
  rcases forall₂_split carried with ⟨front, piece, back, rfl, before, here, after⟩
  have address : piece.payload = ptr := here.ptr.symm.trans pointer
  refine ⟨front, piece, back, left, item, right, address, keeps, live, before, here, after, ?_⟩
  have pointers : ∀ other ∈ left ++ right, ∃ far ∈ front ++ back, other.ptr = far.payload := by
    have related : List.Forall₂ (Carries world.heap.mem) (front ++ back) (left ++ right) :=
      List.rel_append before after
    intro other listed
    rcases List.append_of_mem listed with ⟨start, rest, split⟩
    rw [split] at related
    rcases forall₂_split related with ⟨_, far, _, parts, _, carries, _⟩
    refine ⟨far, ?_, carries.ptr⟩
    rw [parts]
    exact List.mem_append_right _ List.mem_cons_self
  intro other listed same
  rcases pointers other listed with ⟨far, inside, equal⟩
  exact keeps.payload_ne far inside (equal.symm.trans (same.trans address.symm))

theorem Located.filter {left right : List Holding}
    (located : Located holds world ptr front piece back left item right) :
    (world.live.filter fun item => item.ptr ≠ ptr) = left ++ right := by
  have here : item.ptr = ptr := located.here.ptr.trans located.pointer
  have all : ∀ items : List Holding, (∀ other ∈ items, other.ptr ≠ ptr) →
      (items.filter fun item => item.ptr ≠ ptr) = items := by
    intro items others
    exact List.filter_eq_self.mpr (fun other member => decide_eq_true (others other member))
  rw [located.live, List.filter_append, List.filter_cons_of_neg (by simp [here]),
    all left (fun other member => located.others other (List.mem_append_left _ member)),
    all right (fun other member => located.others other (List.mem_append_right _ member))]

theorem Located.map {left right : List Holding} (new : Holding → Holding)
    (located : Located holds world ptr front piece back left item right) :
    (world.live.map fun item => if item.ptr = ptr then new item else item) =
      left ++ new item :: right := by
  have here : item.ptr = ptr := located.here.ptr.trans located.pointer
  have all : ∀ items : List Holding, (∀ other ∈ items, other.ptr ≠ ptr) →
      (items.map fun item => if item.ptr = ptr then new item else item) = items := by
    intro items others
    refine (List.map_congr_left (fun other member => if_neg (others other member))).trans ?_
    exact List.map_id' items
  rw [located.live, List.map_append, List.map_cons, if_pos here,
    all left (fun other member => located.others other (List.mem_append_left _ member)),
    all right (fun other member => located.others other (List.mem_append_right _ member))]

/-- A pointer in use is another one now, with the bytes of the old one. -/
theorem Located.resized {left right : List Holding} {fresh : Piece}
    (located : Located holds world piece.payload front piece back left item right)
    (keeps : Keeps holds heap (front ++ fresh :: back)) (sizes : fresh.reqSize = size)
    (moved : ∀ offset : BitVec 32, offset.toNat < size.toNat → offset.toNat < piece.reqSize.toNat →
      heap.mem (fresh.payload + offset) = world.heap.mem (piece.payload + offset))
    (same : SameBytes (front ++ back) world.heap.mem heap.mem) :
    List.Forall₂ (Carries heap.mem) (front ++ fresh :: back)
      (world.resized piece.payload size fresh.payload heap).live := by
  have listed : ∀ other ∈ front ++ back, other ∈ front ++ fresh :: back := fun other member =>
    List.perm_middle.mem_iff.mpr (List.mem_cons_of_mem _ member)
  have before := keeps.carries (fun other member => listed other (List.mem_append_left back member))
    (same.mono (fun other member => List.mem_append_left back member)) located.before
  have after := keeps.carries (fun other member => listed other (List.mem_append_right front member))
    (same.mono (fun other member => List.mem_append_right front member)) located.after
  have length : item.bytes.length = piece.reqSize.toNat := by
    rw [located.here.bytes, length_contents]
  have start : item.bytes.take size.toNat =
      (contents heap.mem fresh.payload size.toNat).take item.bytes.length := by
    rw [length, located.here.bytes]
    refine List.ext_getElem (by simp [min_comm]) (fun offset inside inside' => ?_)
    rw [List.length_take, length_contents] at inside
    rw [List.getElem_take, List.getElem_take, getElem_contents, getElem_contents]
    have small : (BitVec.ofNat 32 offset).toNat = offset := Nat.mod_eq_of_lt (by omega)
    exact (moved _ (by omega) (by omega)).symm
  rw [World.resized, located.map (fun item => ⟨fresh.payload, item.bytes.take size.toNat ++
    (contents heap.mem fresh.payload size.toNat).drop item.bytes.length⟩)]
  refine List.rel_append before (List.Forall₂.cons ⟨rfl, ?_⟩ after)
  rw [start, sizes]
  exact List.take_append_drop _ _

/-- The counters of the complaints stay zero. -/
theorem Remembers.of_quiet (remembers : Remembers holds world) (quiet : Quiet world.heap next.heap)
    (pieces : ∃ pieces, Keeps holds next.heap pieces ∧
      List.Forall₂ (Carries next.heap.mem) pieces next.live) : Remembers holds next :=
  ⟨pieces, quiet.errorCount.trans remembers.2.1, quiet.possibleOverruns.trans remembers.2.2⟩

/-! ## One request -/

theorem Remembers.kmalloc (lawful : hooks.Lawful holds ready) (remembers : Remembers holds world)
    (asks : ready world.heap.system (pagesFor (size + (alignment + alignInfo))))
    (room : size.toNat + 80 < 2 ^ 32) : ∃ ptr heap', kmalloc hooks size world.heap = some (ptr, heap') ∧
      Remembers holds (world.received (contents heap'.mem ptr size.toNat) ptr heap') := by
  rcases remembers.1 with ⟨pieces, keeps, carried⟩
  rcases keeps.kmalloc lawful asks room with ⟨ptr, heap', called, served⟩
  refine ⟨ptr, heap', called, remembers.of_quiet served.quiet ?_⟩
  have carried' := keeps.carries (fun _ => id) served.kept carried
  rcases served.outcome with ⟨null, keeps'⟩ | ⟨piece, pointer, sizes, keeps'⟩
  · refine ⟨pieces, keeps', ?_⟩
    rw [World.received, if_pos null]
    exact carried'
  · have nonnull := (keeps'.pointer List.mem_cons_self).2.1
    refine ⟨piece :: pieces, keeps', ?_⟩
    rw [World.received, pointer, if_neg nonnull]
    exact List.Forall₂.cons ⟨rfl, by rw [sizes]⟩ carried'

theorem Remembers.kcalloc {nobj : BitVec 32} (lawful : hooks.Lawful holds ready)
    (remembers : Remembers holds world)
    (asks : ready world.heap.system (pagesFor (nobj * size + (alignment + alignInfo))))
    (room : (nobj * size).toNat + 80 < 2 ^ 32)
    (pages : (kcalloc hooks nobj size world.heap).map Prod.fst ≠ some 0) :
    ∃ ptr heap', kcalloc hooks nobj size world.heap = some (ptr, heap') ∧
      Remembers holds (world.received (List.replicate (nobj * size).toNat 0) ptr heap') := by
  rcases remembers.1 with ⟨pieces, keeps, carried⟩
  rcases keeps.kcalloc lawful asks room with ⟨ptr, heap', called, outcome⟩
  have nonnull : ptr ≠ 0 := by
    rintro rfl
    exact pages (by rw [called]; rfl)
  rcases outcome nonnull with ⟨piece, pointer, sizes, keeps', zeros, same, quiet⟩
  refine ⟨ptr, heap', called, remembers.of_quiet quiet ⟨piece :: pieces, keeps', ?_⟩⟩
  rw [World.received, if_neg nonnull]
  refine List.Forall₂.cons ⟨pointer, ?_⟩ (keeps.carries (fun _ => id) same carried)
  refine List.ext_getElem (by simp [sizes]) (fun offset inside inside' => ?_)
  rw [length_contents] at inside'
  rw [List.getElem_replicate, getElem_contents]
  refine (zeros _ ((keeps'.owns_iff List.mem_cons_self).mpr ?_)).symm
  rw [add_sub_cancel_left, BitVec.toNat_ofNat, Nat.mod_eq_of_lt (by omega)]
  exact inside'

theorem Remembers.kfree (lawful : hooks.Lawful holds ready) (remembers : Remembers holds world)
    (allowed : ptr = 0 ∨ world.InUse ptr) :
    Remembers holds (world.returned ptr (kfree hooks ptr world.heap)) := by
  by_cases null : ptr = 0
  · subst null
    rcases remembers.1 with ⟨pieces, keeps, carried⟩
    have freed : Liballoc.kfree hooks 0 world.heap =
        { world.heap with warningCount := world.heap.warningCount + 1 } := if_pos rfl
    have none : (world.live.filter fun item => item.ptr ≠ 0) = world.live := by
      refine List.filter_eq_self.mpr (fun item member => decide_eq_true (fun zero => ?_))
      rcases List.append_of_mem member with ⟨left, right, live⟩
      rw [live] at carried
      rcases forall₂_split carried with ⟨front, piece, back, rfl, _, here, _⟩
      have nonnull := (keeps.pointer (List.mem_append_right front List.mem_cons_self)).2.1
      exact nonnull (here.ptr.symm.trans zero)
    rw [World.returned, none, freed]
    rcases keeps with ⟨blocks, sound, occupied, perm⟩
    refine remembers.of_quiet ⟨rfl, rfl⟩ ⟨pieces, ⟨blocks, ?_, occupied, perm⟩, carried⟩
    exact ⟨sound.links, sound.each, sound.apart, sound.bestBet, sound.allocated, sound.inuse, sound.held⟩
  · rcases remembers.locate (allowed.resolve_left null) with ⟨front, piece, back, left, item, right, located⟩
    have address := located.pointer
    subst address
    rcases located.keeps.kfree lawful with ⟨keeps', same, quiet⟩
    rw [World.returned, located.filter]
    exact remembers.of_quiet quiet ⟨front ++ back, keeps', keeps'.carries (fun _ => id) same
      (List.rel_append located.before located.after)⟩

theorem Remembers.krealloc (lawful : hooks.Lawful holds ready) (remembers : Remembers holds world)
    (asks : ready world.heap.system (pagesFor (size + (alignment + alignInfo))))
    (room : size.toNat + 80 < 2 ^ 32) (nonnull : old ≠ 0) (some : size ≠ 0) (used : world.InUse old)
    (pages : (krealloc hooks old size world.heap).map Prod.fst ≠ Option.some 0) :
    ∃ ptr heap', krealloc hooks old size world.heap = Option.some (ptr, heap') ∧
      Remembers holds (world.resized old size ptr heap') := by
  rcases remembers.locate used with ⟨front, piece, back, left, item, right, located⟩
  have address := located.pointer
  subst address
  have others : ∀ other ∈ front ++ back, other ∈ front ++ piece :: back := fun other member =>
    List.perm_middle.mem_iff.mpr (List.mem_cons_of_mem _ member)
  by_cases less : size ≤ piece.reqSize
  · have called := @Keeps.krealloc_shrink _ hooks _ _ _ _ _ _ located.keeps some less
    rcases located.keeps.shrink less with ⟨keeps', same⟩
    refine ⟨_, _, called, remembers.of_quiet ⟨rfl, rfl⟩ ⟨_, keeps', ?_⟩⟩
    refine located.resized keeps' rfl (fun offset _ inside => ?_) (same.mono others)
    have member : piece ∈ front ++ piece :: back := List.mem_append_right _ List.mem_cons_self
    refine same piece member _ ((located.keeps.owns_iff member).mpr ?_)
    rw [show (piece.shrink less).payload = piece.payload from rfl, add_sub_cancel_left]
    exact inside
  · have more : piece.reqSize < size := BitVec.not_le.mp less
    rcases located.keeps.krealloc_grow lawful asks more room with ⟨ptr, heap', called, outcome⟩
    have granted : ptr ≠ 0 := by
      rintro rfl
      exact pages (by rw [called]; rfl)
    rcases outcome granted with ⟨fresh, rfl, sizes, keeps', moved, same, quiet⟩
    exact ⟨_, heap', called, remembers.of_quiet quiet ⟨_, keeps',
      located.resized keeps' sizes (fun offset _ inside => moved offset inside) same⟩⟩

/-- A byte that its owner stores is remembered, and belongs to nobody else. -/
theorem Remembers.store (remembers : Remembers holds world) (byte : BitVec 8)
    (allowed : ∃ item ∈ world.live, item.Contains addr) :
    Remembers holds ⟨world.heap.setByte addr byte, world.live.map fun item => item.store addr byte⟩ := by
  rcases remembers.1 with ⟨pieces, keeps, carried⟩
  refine remembers.of_quiet ⟨rfl, rfl⟩ ⟨pieces, keeps.write (fun changed differs => ?_), ?_⟩
  · have here : changed = addr := by
      by_contra other
      exact differs (Function.update_of_ne other _ _)
    rcases allowed with ⟨item, member, inside⟩
    rcases List.append_of_mem member with ⟨left, right, live⟩
    rw [live] at carried
    rcases forall₂_split carried with ⟨front, piece, back, rfl, _, carries, _⟩
    have listed : piece ∈ front ++ piece :: back := List.mem_append_right _ List.mem_cons_self
    refine ⟨piece, listed, (keeps.owns_iff listed).mpr ?_⟩
    rw [Holding.Contains, carries.bytes, length_contents, carries.ptr] at inside
    rwa [here]
  · refine List.forall₂_map_right_iff.mpr (carried.imp (fun {piece item} carries => ⟨carries.ptr, ?_⟩))
    rw [Holding.store, carries.bytes, carries.ptr]
    exact (contents_update (by omega) byte).symm

/-- What is remembered is what the callers rely on. -/
theorem Remembers.good (remembers : Remembers holds world) : world.Good holds := by
  rcases remembers with ⟨⟨pieces, keeps, carried⟩, quiet⟩
  have each : ∀ item ∈ world.live, ∃ piece ∈ pieces, Carries world.heap.mem piece item := by
    intro item member
    rcases List.append_of_mem member with ⟨left, right, live⟩
    rw [live] at carried
    rcases forall₂_split carried with ⟨front, piece, back, rfl, _, carries, _⟩
    exact ⟨piece, List.mem_append_right _ List.mem_cons_self, carries⟩
  refine ⟨fun item member => ?_, fun item member => ?_, ?_, ?_, quiet, fun none => ?_⟩
  · rcases each item member with ⟨piece, listed, carries⟩
    have pointer := keeps.pointer listed
    rw [carries.ptr, carries.bytes, length_contents]
    exact pointer.2
  · rcases each item member with ⟨piece, listed, carries⟩
    rw [carries.ptr, carries.bytes, length_contents]
  · refine forall₂_pairwise carried keeps.apart (fun piece member other member' item item' carries carries' apart => ?_)
    constructor
    · intro same
      have address := (keeps.pointer member).1
      have address' := (keeps.pointer member').1
      have data := piece.data_bounds
      have data' := other.data_bounds
      have equal : piece.payload = other.payload := carries.ptr.symm.trans (same.trans carries'.ptr)
      rw [equal] at address
      refine apart other.payload ?_ ?_
      · unfold Piece.Contains
        omega
      · unfold Piece.Contains
        omega
    · intro addr inside inside'
      rw [Holding.Contains, carries.bytes, length_contents, carries.ptr] at inside
      rw [Holding.Contains, carries'.bytes, length_contents, carries'.ptr] at inside'
      exact apart addr (Piece.owns_contains ((keeps.owns_iff member).mpr inside))
        (Piece.owns_contains ((keeps.owns_iff member').mpr inside'))
  · rcases keeps.held with ⟨given, held, around⟩
    refine ⟨given, held, fun item member => ?_⟩
    rcases each item member with ⟨piece, listed, carries⟩
    rcases around piece listed with ⟨pages, there, contains⟩
    refine ⟨pages, there, fun addr inside => contains addr ?_⟩
    rw [Holding.Contains, carries.bytes, length_contents, carries.ptr] at inside
    exact Piece.owns_contains ((keeps.owns_iff listed).mpr inside)
  · rw [none] at carried
    rw [List.forall₂_nil_right_iff.mp carried] at keeps
    exact keeps.nothing

end Remembers

end Liballoc

end WeakOS
