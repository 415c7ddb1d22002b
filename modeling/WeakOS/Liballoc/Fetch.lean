import Mathlib
import WeakOS.Liballoc.Arena

namespace WeakOS

open Foundation X86

namespace Liballoc

/-!
# New blocks

When no block has room, `allocateNewPage` asks the system for pages and makes
them a block without pieces.  `appendPage` puts it behind the last block.  When
the system has no pages, the last block stays the last one.
-/

section Fetch

variable {System : Type} {hooks : Hooks System} {holds : System → List Pages → Prop}
  {ready : System → BitVec 32 → Prop}
  {heap heap' : Heap System} {blocks front : List Block} {block last fresh : Block}
  {size ptr : BitVec 32}

/-- The pages have room for both headers and for the piece. -/
theorem pagesFor_spec (small : size.toNat + 48 < 2 ^ 32) :
    16 ≤ (pagesFor size).toNat ∧ size.toNat + 48 ≤ (pagesFor size).toNat * 4096 := by
  have total : (size + LiballocMajor.bytes + LiballocMinor.bytes).toNat = size.toNat + 48 := by
    unfold LiballocMajor.bytes LiballocMinor.bytes
    bv_omega
  rw [pagesFor]
  generalize size + LiballocMajor.bytes + LiballocMinor.bytes = st at total ⊢
  have quotient : (st / pageSize).toNat = st.toNat / 4096 := BitVec.toNat_udiv
  have remainder : (st % pageSize).toNat = st.toNat % 4096 := BitVec.toNat_umod
  have rounded : size.toNat + 48 ≤
      (if st % pageSize = 0 then st / pageSize else st / pageSize + 1).toNat * 4096 := by
    split
    · rename_i exactly
      rw [exactly] at remainder
      have zero : st.toNat % 4096 = 0 := remainder.symm
      omega
    · have next : (st / pageSize + 1).toNat = st.toNat / 4096 + 1 := by bv_omega
      omega
  generalize (if st % pageSize = 0 then st / pageSize else st / pageSize + 1) = count at rounded ⊢
  have least : pageCount.toNat = 16 := rfl
  split
  · rename_i few
    rw [BitVec.lt_def, least] at few
    rw [least]
    omega
  · rename_i many
    rw [BitVec.lt_def, least] at many
    omega

/-- The block that has been made of new pages. -/
structure Fetched (holds : System → List Pages → Prop) (heap heap' : Heap System)
    (blocks : List Block) (size : BitVec 32) (fresh : Block) : Prop where
  pieces : fresh.pieces = []
  room : size.toNat + 48 ≤ fresh.bytes
  apart : ∀ block ∈ blocks, fresh.span.Apart block.span
  header : BlockAt heap'.mem fresh
  prev : field heap'.mem fresh.addr LiballocMajor.prev = 0
  next : field heap'.mem fresh.addr LiballocMajor.next = 0
  frame : ∀ addr, ¬ fresh.Contains addr → heap'.mem addr = heap.mem addr
  held : holds heap'.system (fresh.span :: blocks.map Block.span)
  rest : heap' = { heap with
    mem := heap'.mem
    system := heap'.system
    allocated := heap.allocated + BitVec.ofNat 64 fresh.bytes }

/-- What the system answers decides. -/
theorem allocateNewPage_spec (lawful : hooks.Lawful holds ready)
    (held : holds heap.system (blocks.map Block.span)) (asks : ready heap.system (pagesFor size))
    (small : size.toNat + 48 < 2 ^ 32)
    {mem' : Mem} {system' : System}
    (answer : hooks.alloc (pagesFor size) (heap.mem, heap.system) = (ptr, mem', system')) :
    (ptr = 0 → holds system' (blocks.map Block.span) ∧ allocateNewPage hooks size heap =
      (0, { heap with system := system', warningCount := heap.warningCount + 1 })) ∧
    (ptr ≠ 0 → ∃ fresh heap', allocateNewPage hooks size heap = (fresh.addr, heap') ∧
      fresh.span = ⟨ptr, pagesFor size⟩ ∧ heap'.system = system' ∧
      Fetched holds heap heap' blocks size fresh) := by
  have pages := pagesFor_spec small
  have gives := lawful.alloc held pages.1 asks answer
  constructor
  · rintro rfl
    rcases gives.1 rfl with ⟨same, kept⟩
    refine ⟨kept, ?_⟩
    rw [allocateNewPage, answer]
    dsimp only
    rw [if_pos rfl, same]
  · intro nonnull
    have given := gives.2 nonnull
    have room := given.room
    have positive : 0 < ptr.toNat := by bv_omega
    unfold Pages.limit at room
    dsimp only at room
    let fresh : Block := ⟨ptr, pagesFor size, [], positive, room, by
      show ptr.toNat + 24 ≤ ptr.toNat + (pagesFor size).toNat * 4096
      omega⟩
    let writes : List Write := [(ptr, LiballocMajor.prev, 0), (ptr, LiballocMajor.next, 0),
      (ptr, LiballocMajor.pages, pagesFor size), (ptr, LiballocMajor.size, pagesFor size * pageSize),
      (ptr, LiballocMajor.usage, LiballocMajor.bytes), (ptr, LiballocMajor.first, 0)]
    have known : ∀ write ∈ writes, write.1 ∈ fresh.records ∧ write.2.1 < 6 := by
      simp only [writes, List.forall_mem_cons]
      exact ⟨⟨List.mem_cons_self, by decide⟩, ⟨List.mem_cons_self, by decide⟩,
        ⟨List.mem_cons_self, by decide⟩, ⟨List.mem_cons_self, by decide⟩,
        ⟨List.mem_cons_self, by decide⟩, ⟨List.mem_cons_self, by decide⟩,
        fun _ nothing => absurd nothing List.not_mem_nil⟩
    have table : ∀ i < 6, field (setFields mem' writes) ptr i =
        [0, 0, pagesFor size, pagesFor size * pageSize, LiballocMajor.bytes, 0].getD i 0 := by
      intro i inside
      rw [field_setFields fresh.records_apart (by decide) known
        (show ptr ∈ fresh.records from List.mem_cons_self) inside]
      interval_cases i <;> simp [writes, written, LiballocMajor.prev, LiballocMajor.next,
        LiballocMajor.pages, LiballocMajor.size, LiballocMajor.usage, LiballocMajor.first]
    have size_eq : field (setFields mem' writes) ptr LiballocMajor.size = pagesFor size * pageSize :=
      table 3 (by decide)
    have sizeBytes : (pagesFor size * pageSize).setWidth 64 = BitVec.ofNat 64 fresh.bytes := by
      have pageBytes : pageSize.toNat = 4096 := rfl
      have product : (pagesFor size * pageSize).toNat = (pagesFor size).toNat * 4096 := by
        rw [BitVec.toNat_mul, pageBytes]
        exact Nat.mod_eq_of_lt (by omega)
      rw [← BitVec.ofNat_toNat, product]
      rfl
    refine ⟨fresh, { heap with
      mem := setFields mem' writes
      system := system'
      allocated := heap.allocated + BitVec.ofNat 64 fresh.bytes }, ?_, rfl, rfl, ?_⟩
    · rw [← sizeBytes, ← size_eq, allocateNewPage, answer]
      dsimp only
      rw [if_neg nonnull]
      rfl
    · refine ⟨rfl, pages.2, ?_, ⟨table 2 (by decide), size_eq, table 4 (by decide),
        table 5 (by decide), fun piece nothing => absurd nothing List.not_mem_nil⟩,
        table 0 (by decide), table 1 (by decide), fun addr outside => ?_, given.held, rfl⟩
      · intro block member
        exact given.apart _ (List.mem_map_of_mem member)
      · have away : setFields mem' writes addr = mem' addr := by
          refine setFields_of_outside (by decide) (fun write member => ⟨?_, (known write member).2⟩)
          by_contra near
          exact outside (fresh.header_inside (known write member).1 (Nat.not_le.mp near))
        exact away.trans (given.frame addr outside)

/-- The pieces and the bytes of the other blocks are the same. -/
theorem allPieces_concat (blocks : List Block) (pieces : fresh.pieces = []) :
    allPieces (blocks ++ [fresh]) = allPieces blocks := by
  simp only [allPieces, List.flatMap_append, List.flatMap_singleton, pieces, List.append_nil]

theorem Fetched.apart_all (fetched : Fetched holds heap heap' blocks size fresh)
    (sound : Sound holds heap blocks) :
    ((blocks ++ [fresh]).map Block.span).Pairwise Pages.Apart := by
  rw [List.map_append, List.pairwise_append]
  refine ⟨sound.apart, List.pairwise_singleton _ _, ?_⟩
  intro span member span' member'
  rcases List.mem_map.mp member with ⟨block, listed, rfl⟩
  rw [List.mem_singleton.mp member']
  exact (fetched.apart block listed).symm

/-- The old blocks are the same behind the call. -/
theorem Fetched.old (fetched : Fetched holds heap heap' blocks size fresh) (member : block ∈ blocks) :
    ∀ addr, block.Contains addr → heap'.mem addr = heap.mem addr :=
  fun addr inside => fetched.frame addr ((fetched.apart block member).symm.not_contains inside)

/-- The new block behind the others, when the links lead to it. -/
theorem Fetched.append (fetched : Fetched holds heap heap' blocks size fresh)
    (lawful : hooks.Lawful holds ready) (sound : Sound holds heap blocks) {writes : List Write}
    {root : BitVec 32} (relinks : Relinks (blocks ++ [fresh]) writes)
    (entered : root = DoublyLinked.headOf (blocks.map Block.addr) fresh.addr)
    (inserted : DoublyLinked.Links.Inserted (fun node => field heap'.mem node LiballocMajor.next)
      (fun node => field heap'.mem node LiballocMajor.prev)
      (fun node => field (setFields heap'.mem writes) node LiballocMajor.next)
      (fun node => field (setFields heap'.mem writes) node LiballocMajor.prev) 0 0
      (blocks.map Block.addr) [] fresh.addr) :
    Sound holds { heap' with mem := setFields heap'.mem writes, memRoot := root } (blocks ++ [fresh]) := by
  have apart := fetched.apart_all sound
  have rest := fetched.rest
  have bestBet : heap'.bestBet = heap.bestBet := by rw [rest]
  have allocated : heap'.allocated = heap.allocated + BitVec.ofNat 64 fresh.bytes := by rw [rest]
  have inuse : heap'.inuse = heap.inuse := by rw [rest]
  have old : ∀ i < 6, ∀ node ∈ blocks.map Block.addr, field heap'.mem node i = field heap.mem node i := by
    intro i small node member
    rcases List.mem_map.mp member with ⟨block, listed, rfl⟩
    exact field_congr small (by decide)
      (fun addr near => fetched.old listed addr (block.header_inside List.mem_cons_self near))
  refine ⟨?_, fun block listed => ?_, apart, ?_, ?_, ?_, ?_⟩
  · have links := sound.links.congr (old LiballocMajor.next (by decide)) (old LiballocMajor.prev (by decide))
    rw [← List.append_nil (blocks.map Block.addr)] at links
    have distinct := sound.addrs_nodup
    rw [← List.append_nil (blocks.map Block.addr)] at distinct
    rw [List.map_append]
    exact links.insert distinct entered inserted
  · refine relinks.each apart listed ?_
    rcases List.mem_append.mp listed with old | new
    · exact (sound.each block old).of_bytes (fetched.old old)
    · rw [List.mem_singleton.mp new]
      exact fetched.header
  · rw [bestBet, List.map_append]
    exact sound.bestBet.imp id (List.mem_append_left _)
  · rw [List.map_append, List.sum_append, BitVec.ofNat_add, ← sound.allocated]
    exact allocated.trans (by rw [List.map_singleton, List.sum_singleton])
  · rw [allPieces_concat blocks fetched.pieces, inuse]
    exact sound.inuse
  · refine lawful.perm fetched.held ?_
    rw [List.map_append]
    exact (List.perm_append_singleton _ _).symm

/-! ## Behind the last block -/

/-- A block without pieces has been put behind the others. -/
structure Appended (holds : System → List Pages → Prop) (heap heap' : Heap System)
    (blocks : List Block) (size : BitVec 32) (fresh : Block) : Prop where
  pieces : fresh.pieces = []
  room : size.toNat + 48 ≤ fresh.bytes
  sound : Sound holds heap' (blocks ++ [fresh])
  frame : ∀ addr, (∀ record ∈ allRecords blocks, 24 ≤ (addr - record).toNat) →
    ¬ fresh.Contains addr → heap'.mem addr = heap.mem addr
  counters : heap'.warningCount = heap.warningCount ∧ heap'.errorCount = heap.errorCount ∧
    heap'.possibleOverruns = heap.possibleOverruns

/-- The new block has room for a piece of the size that it was made for. -/
theorem Appended.gap (appended : Appended holds heap heap' blocks size fresh) :
    fresh.Gap [] [] size := by
  refine ⟨appended.pieces, ?_⟩
  have room := appended.room
  show fresh.addr.toNat + 24 + 24 + size.toNat ≤ fresh.limit
  unfold Block.limit
  omega

theorem Appended.kept (appended : Appended holds heap heap' blocks size fresh) {addr : BitVec 32}
    (owned : Owned blocks addr) : heap'.mem addr = heap.mem addr := by
  have apart := appended.sound.apart
  have inAll : Owned (blocks ++ [fresh]) addr := by
    rwa [Owned, allPieces_concat blocks appended.pieces]
  have outside := owned_outside apart inAll
  have listed : ∀ record ∈ allRecords blocks, record ∈ allRecords (blocks ++ [fresh]) := by
    intro record member
    rcases mem_allRecords.mp member with ⟨block, inside, there⟩
    exact mem_allRecords.mpr ⟨block, List.mem_append_left _ inside, there⟩
  refine appended.frame addr (fun record member => outside record (listed record member)) ?_
  intro inFresh
  rcases owned with ⟨piece, member, owns⟩
  rcases mem_allPieces.mp member with ⟨block, inside, there⟩
  have same := block_unique apart (List.mem_append_left _ inside) (List.mem_append_right _ List.mem_cons_self)
    (block.owns_bounds there owns).1 inFresh
  rw [← same, appended.pieces] at there
  exact absurd there List.not_mem_nil

/-- The first block. -/
theorem allocateNewPage_first (lawful : hooks.Lawful holds ready) (sound : Sound holds heap [])
    (asks : ready heap.system (pagesFor size)) (small : size.toNat + 48 < 2 ^ 32) {mem' : Mem} {system' : System}
    (answer : hooks.alloc (pagesFor size) (heap.mem, heap.system) = (ptr, mem', system'))
    (nonnull : ptr ≠ 0) : ∃ fresh heap', allocateNewPage hooks size heap = (fresh.addr, heap') ∧
      fresh.span = ⟨ptr, pagesFor size⟩ ∧ heap'.system = system' ∧ heap'.bestBet = heap.bestBet ∧
      Appended holds heap { heap' with memRoot := fresh.addr } [] size fresh := by
  rcases (allocateNewPage_spec lawful sound.held asks small answer).2 nonnull with
    ⟨fresh, heap', called, span, system_eq, fetched⟩
  have bet : heap'.bestBet = heap.bestBet := by rw [fetched.rest]
  refine ⟨fresh, heap', called, span, system_eq, bet, fetched.pieces, fetched.room, ?_,
    fun addr _ => fetched.frame addr, ?_⟩
  · refine fetched.append lawful sound (fun write nothing => absurd nothing List.not_mem_nil) rfl
      ⟨fetched.next, fetched.prev, ?_, ?_, ?_, ?_⟩
    · exact fun node nothing => absurd nothing (by simp)
    · exact fun node nothing => absurd nothing (by simp)
    · exact fun node nothing => absurd nothing List.not_mem_nil
    · exact fun node nothing => absurd nothing List.not_mem_nil
  · rw [fetched.rest]
    exact ⟨rfl, rfl, rfl⟩

/-- A refusal changes nothing but the counter of the warnings. -/
theorem appendPage_refused (lawful : hooks.Lawful holds ready)
    (sound : Sound holds heap (front ++ [last])) (asks : ready heap.system (pagesFor size))
    (small : size.toNat + 48 < 2 ^ 32) {mem' : Mem} {system' : System}
    (answer : hooks.alloc (pagesFor size) (heap.mem, heap.system) = (0, mem', system')) :
    ∃ heap', appendPage hooks size last.addr heap = (0, heap') ∧
      Sound holds heap' (front ++ [last]) ∧
      (∀ addr, (∀ record ∈ allRecords (front ++ [last]), 24 ≤ (addr - record).toNat) →
        heap'.mem addr = heap.mem addr) ∧
      heap'.system = system' ∧ heap'.warningCount = heap.warningCount + 1 ∧
      heap'.errorCount = heap.errorCount ∧ heap'.possibleOverruns = heap.possibleOverruns := by
  rcases (allocateNewPage_spec lawful sound.held asks small answer).1 rfl with ⟨held, called⟩
  have member : last ∈ front ++ [last] := List.mem_append_right _ List.mem_cons_self
  let writes : List Write := [(last.addr, LiballocMajor.next, 0)]
  have relinks : Relinks (front ++ [last]) writes := by
    intro write listed
    rw [List.mem_singleton.mp listed]
    exact ⟨List.mem_map_of_mem member, Or.inl rfl⟩
  have links := sound.links
  have ends : field heap.mem last.addr LiballocMajor.next = 0 := by
    rw [List.map_append, List.map_singleton] at links
    exact links.at.2
  have same : ∀ node ∈ (front ++ [last]).map Block.addr, ∀ i < 6,
      field (setFields heap.mem writes) node i = field heap.mem node i := by
    intro node listed i small
    rcases List.mem_map.mp listed with ⟨block, inside, rfl⟩
    rw [relinks.field_eq sound.apart inside small, written, written]
    split
    · rename_i here
      rw [here.1, here.2, ends]
    · rfl
  refine ⟨{ heap with
    mem := setFields heap.mem writes
    system := system'
    warningCount := heap.warningCount + 1 }, ?_, ?_, fun addr outside => relinks.frame outside,
    rfl, rfl, rfl, rfl⟩
  · rw [appendPage, called]
    dsimp only
    rw [if_pos (Heap.get_set_self _ _ _ _)]
    rfl
  · refine ⟨links.congr (fun node listed => same node listed _ (by decide))
      (fun node listed => same node listed _ (by decide)),
      fun block inside => relinks.each sound.apart inside (sound.each block inside), sound.apart,
      sound.bestBet, sound.allocated, sound.inuse, held⟩

theorem appendPage_spec (lawful : hooks.Lawful holds ready)
    (sound : Sound holds heap (front ++ [last])) (asks : ready heap.system (pagesFor size))
    (small : size.toNat + 48 < 2 ^ 32) {mem' : Mem} {system' : System}
    (answer : hooks.alloc (pagesFor size) (heap.mem, heap.system) = (ptr, mem', system'))
    (nonnull : ptr ≠ 0) : ∃ fresh heap', appendPage hooks size last.addr heap = (fresh.addr, heap') ∧
      fresh.span = ⟨ptr, pagesFor size⟩ ∧ heap'.system = system' ∧
      Appended holds heap heap' (front ++ [last]) size fresh := by
  rcases (allocateNewPage_spec lawful sound.held asks small answer).2 nonnull with
    ⟨fresh, heap1, called, span, system_eq, fetched⟩
  have apart := fetched.apart_all sound
  have lastMember : last ∈ front ++ [last] := List.mem_append_right _ List.mem_cons_self
  have lastListed : last ∈ (front ++ [last]) ++ [fresh] := List.mem_append_left _ lastMember
  have freshListed : fresh ∈ (front ++ [last]) ++ [fresh] := List.mem_append_right _ List.mem_cons_self
  have different : ∀ block ∈ front ++ [last], block.addr ≠ fresh.addr :=
    fun block member => (addr_ne_of_apart (fetched.apart block member)).symm
  let writes : List Write := [(last.addr, LiballocMajor.next, fresh.addr),
    (fresh.addr, LiballocMajor.prev, last.addr)]
  have relinks : Relinks ((front ++ [last]) ++ [fresh]) writes := by
    intro write listed
    rcases List.mem_pair.mp listed with rfl | rfl
    · exact ⟨List.mem_map_of_mem lastListed, Or.inl rfl⟩
    · exact ⟨List.mem_map_of_mem freshListed, Or.inr rfl⟩
  have nextOf : ∀ block ∈ (front ++ [last]) ++ [fresh],
      field (setFields heap1.mem writes) block.addr LiballocMajor.next =
        if block.addr = last.addr then fresh.addr
        else field heap1.mem block.addr LiballocMajor.next := by
    intro block member
    rw [relinks.field_eq apart member (by decide)]
    simp [writes, written, LiballocMajor.next, LiballocMajor.prev]
  have prevOf : ∀ block ∈ (front ++ [last]) ++ [fresh],
      field (setFields heap1.mem writes) block.addr LiballocMajor.prev =
        if block.addr = fresh.addr then last.addr
        else field heap1.mem block.addr LiballocMajor.prev := by
    intro block member
    rw [relinks.field_eq apart member (by decide)]
    simp [writes, written, LiballocMajor.next, LiballocMajor.prev]
  have last_eq : ((front ++ [last]).map Block.addr).getLast? = some last.addr := by
    rw [List.map_append, List.map_singleton, List.getLast?_concat]
  refine ⟨fresh, { heap1 with mem := setFields heap1.mem writes }, ?_, span, system_eq, fetched.pieces,
    fetched.room, ?_, ?_, ?_⟩
  · have records := records_of_blocks apart
    have leads : ((heap1.set last.addr LiballocMajor.next fresh.addr).set fresh.addr
        LiballocMajor.prev last.addr).get last.addr LiballocMajor.next = fresh.addr := by
      rw [Heap.get_set records (block_record freshListed) (block_record lastListed) (by decide)
        (by decide), if_neg (fun both => different last lastMember both.1), Heap.get_set_self]
    rw [appendPage, called]
    dsimp only
    rw [Heap.get_set_self, if_neg fresh.addr_ne_zero, leads]
    rfl
  · have root : heap1.memRoot = heap.memRoot := by rw [fetched.rest]
    have entered : heap1.memRoot =
        DoublyLinked.headOf ((front ++ [last]).map Block.addr) fresh.addr := by
      rw [root, sound.links.entry_eq]
      cases front with
      | nil => rfl
      | cons first rest => rfl
    have result := fetched.append lawful sound relinks entered ⟨?_, ?_, ?_, ?_, ?_, ?_⟩
    · exact result
    · exact (nextOf fresh freshListed).trans
        ((if_neg (different last lastMember).symm).trans fetched.next)
    · rw [DoublyLinked.lastOf, last_eq]
      exact (prevOf fresh freshListed).trans (if_pos rfl)
    · rw [last_eq]
      rintro node ⟨⟩
      exact (nextOf last lastListed).trans (if_pos rfl)
    · exact fun node nothing => absurd nothing (by simp)
    · rw [last_eq]
      intro node listed notLast
      rw [List.append_nil] at listed
      rcases List.mem_map.mp listed with ⟨block, inside, rfl⟩
      refine (nextOf block (List.mem_append_left _ inside)).trans (if_neg (fun same => notLast ?_))
      exact congrArg some same.symm
    · intro node listed _
      rw [List.append_nil] at listed
      rcases List.mem_map.mp listed with ⟨block, inside, rfl⟩
      exact (prevOf block (List.mem_append_left _ inside)).trans (if_neg (different block inside))
  · intro addr outside notFresh
    refine Eq.trans (relinks.frame (fun record listed => ?_)) (fetched.frame addr notFresh)
    rcases mem_allRecords.mp listed with ⟨block, inside, there⟩
    rcases List.mem_append.mp inside with old | new
    · exact outside record (mem_allRecords.mpr ⟨block, old, there⟩)
    · by_contra near
      rw [List.mem_singleton.mp new] at there
      exact notFresh (fresh.header_inside there (Nat.not_le.mp near))
  · rw [fetched.rest]
    exact ⟨rfl, rfl, rfl⟩

end Fetch

end Liballoc

end WeakOS
