import Mathlib
import WeakOS.Foundation.Layout
import WeakOS.Memory.Frames

namespace WeakOS

open Foundation

/-!
# The region table

A region table is arranged when the list entered at `m_first_rgn` ends, lists
exactly the slots in use, and lays its regions out in order.  The relation that
compares the end of one region with the base of the next is a parameter: with
equality the regions tile the page numbers, which is what `preinit` sets up,
and with `≤` there may be gaps, which the boot reservations leave behind.

`alloc_virtual` changes the table before it maps anything: it claims a region,
cutting it when it is too long.  `free_virtual` changes it after everything is
unmapped.  The two changes are isolated here, and each keeps an arrangement
whatever the relation is.
-/

/-- The same up to the link backward and the type, and both in use or both unused. -/
structure MemVirtRgn.SameExtent (before after : MemVirtRgn) : Prop where
  next : after.next = before.next
  base : after.base = before.base
  length : after.length = before.length
  unused : after.type = .none ↔ before.type = .none

theorem MemVirtRgn.SameExtent.of_eq {before after : MemVirtRgn} (same : after = before) :
    SameExtent before after := by
  rw [same]
  exact ⟨rfl, rfl, rfl, Iff.rfl⟩

namespace Regions

def baseOf (rgns : Regions) (slot : Slot) : Nat := (rgns slot).base

def lengthOf (rgns : Regions) (slot : Slot) : Nat := (rgns slot).length

/-- The page lies in the region of the slot. -/
def Contains (rgns : Regions) (slot : Slot) (page : Nat) : Prop :=
  Layout.Covers rgns.baseOf rgns.lengthOf slot page

theorem contains_iff {rgns : Regions} {slot : Slot} {page : Nat} : rgns.Contains slot page ↔
    (rgns slot).base ≤ page ∧ page < (rgns slot).base + (rgns slot).length :=
  Iff.rfl

theorem contains_congr {before after : Regions} {slot : Slot} (same : after slot = before slot)
    {page : Nat} : after.Contains slot page ↔ before.Contains slot page := by
  rw [contains_iff, contains_iff, same]

theorem contains_of_sameExtent {before after : Regions} {slot : Slot}
    (same : (before slot).SameExtent (after slot)) {page : Nat} :
    after.Contains slot page ↔ before.Contains slot page := by
  rw [contains_iff, contains_iff, same.base, same.length]

/-- Some region of the given type contains the page. -/
def HasType (rgns : Regions) (page : Nat) (type : MemVirtRgnType) : Prop :=
  ∃ slot, (rgns slot).type = type ∧ rgns.Contains slot page

@[simp] theorem modify_self (rgns : Regions) (slot : Slot) (change : MemVirtRgn → MemVirtRgn) :
    rgns.modify slot change slot = change (rgns slot) :=
  Function.update_self _ _ _

theorem modify_of_ne (rgns : Regions) {slot other : Slot} (change : MemVirtRgn → MemVirtRgn)
    (different : other ≠ slot) : rgns.modify slot change other = rgns other :=
  Function.update_of_ne different _ _

theorem type_of_getUnused {rgns : Regions} {slot : Slot} (found : rgns.getUnused = some slot) :
    (rgns slot).type = .none := by
  rcases Option.map_eq_some_iff.mp found with ⟨index, first, rfl⟩
  exact of_decide_eq_true (Search.first_eq_some_iff.mp first).2.1

/-- The scan of the pool stops inside it when some slot is unused. -/
theorem exists_getUnused {rgns : Regions} {slot : Slot} (unused : (rgns slot).type = .none) :
    ∃ fresh, rgns.getUnused = some fresh := by
  have same : (Fin.ofNat memMaxVirtRgns slot.val : Slot) = slot := Fin.ofNat_val_eq_self slot
  have accepted : decide ((rgns (Fin.ofNat _ slot.val)).type = .none) = true := by
    rw [same]
    exact decide_eq_true unused
  have stops : ∃ index, Search.first
      (fun index => decide ((rgns (Fin.ofNat _ index)).type = .none)) memMaxVirtRgns = some index :=
    Search.exists_first slot.isLt accepted
  rcases stops with ⟨index, first⟩
  exact ⟨Fin.ofNat _ index, Option.map_eq_some_iff.mpr ⟨index, first, rfl⟩⟩

end Regions

namespace Memory

/-- The list lists the slots in use. -/
structure Listed (memory : Memory) (slots : List Slot) : Prop where
  spells : LinkedPool.Spells (fun slot => (memory.mRgns slot).next) memory.mFirstRgn slots
  exact : ∀ slot, (memory.mRgns slot).type ≠ .none ↔ slot ∈ slots

/-- The regions tile the page numbers of the address space. -/
def WellFormed (memory : Memory) : Prop :=
  ∃ slots, memory.Listed slots ∧
    Layout.Chained (· = ·) memory.mRgns.baseOf memory.mRgns.lengthOf 0 slots memPageCount

/-- The regions are laid out up to page `high`, and the pool has a slot for
each of their pages. -/
structure Arranged (rel : Nat → Nat → Prop) (high : Nat) (memory : Memory) (slots : List Slot) :
    Prop extends memory.Listed slots where
  chained : Layout.Chained rel memory.mRgns.baseOf memory.mRgns.lengthOf 0 slots high
  room : Layout.span memory.mRgns.lengthOf slots ≤ memMaxVirtRgns

/-- A relation under which the ends of regions are ordered and a region can be
cut anywhere. -/
structure Ordering (rel : Nat → Nat → Prop) : Prop where
  refl : ∀ point, rel point point
  le : ∀ first second, rel first second → first ≤ second

theorem Ordering.eq : Ordering (· = ·) := ⟨fun _ => rfl, fun _ _ equal => Nat.le_of_eq equal⟩

theorem Ordering.le' : Ordering (· ≤ ·) := ⟨Nat.le_refl, fun _ _ le => le⟩

theorem WellFormed.arranged {memory : Memory} (wellFormed : memory.WellFormed) :
    ∃ slots, memory.Arranged (· = ·) memPageCount slots := by
  rcases wellFormed with ⟨slots, listed, tiling⟩
  have total := tiling.span_eq
  exact ⟨slots, listed, tiling, by rw [Nat.zero_add] at total; exact Nat.le_of_eq total⟩

theorem Arranged.wellFormed {memory : Memory} {slots : List Slot}
    (arranged : memory.Arranged (· = ·) memPageCount slots) : memory.WellFormed :=
  ⟨slots, arranged.toListed, arranged.chained⟩

section Arranged

variable {rel : Nat → Nat → Prop} {high : Nat} {memory : Memory} {slots : List Slot}

/-- Changing types keeps an arrangement, as long as the same slots are in use. -/
theorem Arranged.of_sameExtent {after : Memory} (arranged : memory.Arranged rel high slots)
    (first : after.mFirstRgn = memory.mFirstRgn)
    (same : ∀ slot, (memory.mRgns slot).SameExtent (after.mRgns slot)) :
    after.Arranged rel high slots := by
  have span : Layout.span after.mRgns.lengthOf slots = Layout.span memory.mRgns.lengthOf slots :=
    Layout.span_congr (fun slot _ => (same slot).length)
  refine ⟨⟨?_, fun slot => ?_⟩, ?_, ?_⟩
  · rw [first]
    exact arranged.spells.congr (fun slot _ => (same slot).next)
  · rw [← arranged.exact slot]
    exact not_congr (same slot).unused
  · exact arranged.chained.congr (fun slot _ => ⟨(same slot).base, (same slot).length⟩)
  · rw [span]
    exact arranged.room

theorem Arranged.of_sameRegions {after : Memory} (arranged : memory.Arranged rel high slots)
    (same : SameRegions memory after) : after.Arranged rel high slots := by
  apply arranged.of_sameExtent same.first
  intro slot
  exact MemVirtRgn.SameExtent.of_eq (congrFun same.rgns slot)

theorem Arranged.ordered (arranged : memory.Arranged rel high slots) (ordering : Ordering rel) :
    Layout.Chained (· ≤ ·) memory.mRgns.baseOf memory.mRgns.lengthOf 0 slots high :=
  arranged.chained.mono ordering.le

theorem Listed.mem (listed : memory.Listed slots) {slot : Slot} {type : MemVirtRgnType}
    (has : (memory.mRgns slot).type = type) (inUse : type ≠ .none) : slot ∈ slots :=
  (listed.exact slot).mp (has ▸ inUse)

/-- Every region in use is nonempty and ends at or below `high`. -/
theorem Arranged.bounds (arranged : memory.Arranged rel high slots) (ordering : Ordering rel)
    {slot : Slot} (inUse : (memory.mRgns slot).type ≠ .none) :
    1 ≤ (memory.mRgns slot).length ∧
      (memory.mRgns slot).base + (memory.mRgns slot).length ≤ high :=
  ((arranged.ordered ordering).bounds ((arranged.exact slot).mp inUse)).2

/-- A page is in at most one region in use. -/
theorem Arranged.eq_of_contains (arranged : memory.Arranged rel high slots)
    (ordering : Ordering rel) {first second : Slot} {page : Nat}
    (firstUse : (memory.mRgns first).type ≠ .none) (secondUse : (memory.mRgns second).type ≠ .none)
    (inFirst : memory.mRgns.Contains first page) (inSecond : memory.mRgns.Contains second page) :
    first = second :=
  (arranged.ordered ordering).eq_of_covers ((arranged.exact first).mp firstUse)
    ((arranged.exact second).mp secondUse) inFirst inSecond

/-- A page of a region in use has the type of that region and no other. -/
theorem Arranged.type_eq_of_hasType (arranged : memory.Arranged rel high slots)
    (ordering : Ordering rel) {slot : Slot} {page : Nat} {type : MemVirtRgnType}
    (slotUse : (memory.mRgns slot).type ≠ .none) (contains : memory.mRgns.Contains slot page)
    (inUse : type ≠ .none) (has : memory.mRgns.HasType page type) :
    (memory.mRgns slot).type = type := by
  rcases has with ⟨other, rfl, inOther⟩
  rw [arranged.eq_of_contains ordering slotUse inUse contains inOther]

/-- The pages of a free region are neither used nor disabled. -/
theorem Arranged.not_hasType_of_free (arranged : memory.Arranged rel high slots)
    (ordering : Ordering rel) {slot : Slot} {page : Nat} {type : MemVirtRgnType}
    (isFree : (memory.mRgns slot).type = .free) (contains : memory.mRgns.Contains slot page)
    (inUse : type ≠ .none) (other : type ≠ .free) : ¬ memory.mRgns.HasType page type := by
  intro has
  have same := arranged.type_eq_of_hasType ordering (ne_none_of_free isFree) contains inUse has
  exact other (same.symm.trans isFree)

/-- The traversal of an arranged table visits the listed slots in order. -/
theorem Arranged.findRgn_eq (arranged : memory.Arranged rel high slots)
    (accept : MemVirtRgn → Bool) :
    memory.findRgn accept = some (slots.find? (fun slot => accept (memory.mRgns slot))) :=
  LinkedPool.walk_eq_find arranged.spells
    (Nat.le_trans arranged.chained.count_le_span arranged.room)

/-- The traversal stops at the lowest accepted region. -/
theorem Arranged.base_le_of_findRgn (arranged : memory.Arranged rel high slots)
    (ordering : Ordering rel) {accept : MemVirtRgn → Bool} {found other : Slot}
    (stops : memory.findRgn accept = some (some found)) (inUse : (memory.mRgns other).type ≠ .none)
    (accepted : accept (memory.mRgns other) = true) :
    (memory.mRgns found).base ≤ (memory.mRgns other).base := by
  rw [arranged.findRgn_eq, Option.some.injEq] at stops
  rcases List.find?_eq_some_iff_append.mp stops with ⟨_, front, back, split, rejected⟩
  have member := (arranged.exact other).mp inUse
  have ordered := arranged.ordered ordering
  rw [split] at member ordered
  rcases List.mem_append.mp member with early | late
  · have refused := rejected other early
    rw [accepted] at refused
    cases refused
  · rcases List.mem_cons.mp late with rfl | behind
    · exact Nat.le_refl _
    · rcases List.append_of_mem behind with ⟨middle, rest, rfl⟩
      rw [← List.cons_append, ← List.append_assoc] at ordered
      have before := ordered.before (List.mem_append_right front List.mem_cons_self)
      exact Nat.le_trans (Nat.le_add_right _ _) before

/-- Some accepted region is found. -/
theorem Arranged.exists_findRgn (arranged : memory.Arranged rel high slots)
    {accept : MemVirtRgn → Bool} {slot : Slot} (inUse : (memory.mRgns slot).type ≠ .none)
    (accepted : accept (memory.mRgns slot) = true) :
    ∃ found, memory.findRgn accept = some (some found) := by
  rw [arranged.findRgn_eq]
  have some_ : (slots.find? (fun slot => accept (memory.mRgns slot))).isSome = true :=
    List.find?_isSome.mpr ⟨slot, (arranged.exact slot).mp inUse, accepted⟩
  rcases Option.isSome_iff_exists.mp some_ with ⟨found, stops⟩
  exact ⟨found, congrArg some stops⟩

/-- A region of two or more pages leaves a slot of the pool unused. -/
theorem Arranged.exists_unused (arranged : memory.Arranged rel high slots) {slot : Slot}
    (member : slot ∈ slots) (long : 2 ≤ (memory.mRgns slot).length) :
    ∃ fresh, memory.mRgns.getUnused = some fresh := by
  have fewer : slots.length < memMaxVirtRgns :=
    Nat.lt_of_lt_of_le (arranged.chained.count_lt_span member long) arranged.room
  have card : slots.toFinset.card < (Finset.univ : Finset Slot).card := by
    rw [Finset.card_univ, Fintype.card_fin]
    exact Nat.lt_of_le_of_lt slots.toFinset_card_le fewer
  rcases Finset.exists_mem_notMem_of_card_lt_card card with ⟨other, _, missing⟩
  refine Regions.exists_getUnused (?_ : (memory.mRgns other).type = .none)
  by_contra inUse
  exact missing (List.mem_toFinset.mpr ((arranged.exact other).mp inUse))

end Arranged

theorem accept_of_findRgn {memory : Memory} {accept : MemVirtRgn → Bool} {slot : Slot}
    (found : memory.findRgn accept = some (some slot)) : accept (memory.mRgns slot) = true := by
  have taken := LinkedPool.accept_of_walk found
  exact taken

theorem fits_iff {pages : Nat} {rgn : MemVirtRgn} :
    fits pages rgn = true ↔ rgn.type = .free ∧ pages ≤ rgn.length := by
  simp only [fits, Bool.and_eq_true, decide_eq_true_eq]

theorem startsAt_iff {addr : Nat} {rgn : MemVirtRgn} :
    startsAt addr rgn = true ↔ rgn.base = addr ∧ rgn.type = .used := by
  simp only [startsAt, Bool.and_eq_true, decide_eq_true_eq]

/-- The base of a used region leads back to it. -/
theorem Arranged.findRgn_startsAt {rel : Nat → Nat → Prop} {high : Nat} {memory : Memory}
    {slots : List Slot} (arranged : memory.Arranged rel high slots) (ordering : Ordering rel)
    {slot : Slot} (used : (memory.mRgns slot).type = .used) :
    memory.findRgn (startsAt (memory.mRgns slot).base) = some (some slot) := by
  have inUse : (memory.mRgns slot).type ≠ .none := ne_none_of_used used
  rcases arranged.exists_findRgn inUse (startsAt_iff.mpr ⟨rfl, used⟩) with ⟨found, stops⟩
  rcases startsAt_iff.mp (accept_of_findRgn stops) with ⟨base, foundUsed⟩
  have foundInUse : (memory.mRgns found).type ≠ .none := ne_none_of_used foundUsed
  have inFound : memory.mRgns.Contains found (memory.mRgns slot).base :=
    ⟨Nat.le_of_eq base, by
      have nonempty := (arranged.bounds ordering foundInUse).1
      show _ < (memory.mRgns found).base + (memory.mRgns found).length
      omega⟩
  have inSlot : memory.mRgns.Contains slot (memory.mRgns slot).base :=
    ⟨Nat.le_refl _, Nat.lt_add_of_pos_right (arranged.bounds ordering inUse).1⟩
  rw [stops, arranged.eq_of_contains ordering foundInUse inUse inFound inSlot]

/-! ## Claiming a region -/

/-- The change `alloc_virtual` makes to the table once it has found a region. -/
def claimRgn (memory : Memory) (slot : Slot) (pages : Nat) : Option Memory :=
  (if pages < (memory.mRgns slot).length then memory.splitRgn slot pages else some memory).map
    fun memory => { memory with mRgns := memory.mRgns.modify slot (fun r => { r with type := .used }) }

/-- The mapping loop on the claimed region, and the pointer it returns. -/
def mapClaimed (claimed : Memory) (slot : Slot) : Memory × Nat :=
  let result := mapRgn (claimed.mRgns slot).base (claimed.mRgns slot).length 0 claimed
  (result.1, if result.2 then u32 ((claimed.mRgns slot).base * 0x1000) else 0)

/-- `alloc_virtual` finds a region, claims it and maps it. -/
theorem allocVirtual_eq (memory : Memory) (pages : Nat) :
    memory.allocVirtual pages =
      match memory.findRgn (fits pages) with
      | none => none
      | some none => some (memory, 0)
      | some (some slot) => (memory.claimRgn slot pages).map (fun claimed => mapClaimed claimed slot) := by
  unfold allocVirtual
  cases memory.findRgn (fits pages) with
  | none => rfl
  | some found? =>
      cases found? with
      | none => rfl
      | some slot =>
          simp only [claimRgn, Option.map_map]
          congr 1
          funext current
          simp only [Function.comp_apply, mapClaimed]
          split <;> rename_i mapped <;> rw [mapped] <;> rfl

/-- What claiming the first `pages` pages of a region leaves behind.  Either
the region is claimed whole, or an unused slot takes the pages behind them. -/
structure Claimed (before after : Memory) (slot : Slot) (pages : Nat) : Prop where
  keeps : after = { before with mRgns := after.mRgns }
  type_eq : (after.mRgns slot).type = .used
  base_eq : (after.mRgns slot).base = (before.mRgns slot).base
  length_eq : (after.mRgns slot).length = pages
  rest : (pages = (before.mRgns slot).length ∧
      (after.mRgns slot).next = (before.mRgns slot).next ∧
      ∀ other, other ≠ slot → after.mRgns other = before.mRgns other) ∨
    ∃ fresh, (before.mRgns fresh).type = .none ∧ pages < (before.mRgns slot).length ∧
      after.mRgns fresh =
        { type := .free
          base := (before.mRgns slot).base + pages
          length := (before.mRgns slot).length - pages
          next := (before.mRgns slot).next
          prev := some slot } ∧
      (after.mRgns slot).next = some fresh ∧
      ∀ other, other ≠ slot → other ≠ fresh → after.mRgns other = before.mRgns other

/-- Claiming a fitting region, as long as its page numbers are `uint32_t`. -/
theorem claimRgn_spec {memory claimed : Memory} {slot : Slot} {pages : Nat}
    (fitting : fits pages (memory.mRgns slot) = true)
    (bound : (memory.mRgns slot).base + (memory.mRgns slot).length < 2 ^ 32)
    (result : memory.claimRgn slot pages = some claimed) : Claimed memory claimed slot pages := by
  rcases fits_iff.mp fitting with ⟨isFree, enough⟩
  unfold claimRgn at result
  by_cases shorter : pages < (memory.mRgns slot).length
  · rw [if_pos shorter] at result
    unfold splitRgn at result
    cases scan : memory.mRgns.getUnused with
    | none => simp [scan] at result
    | some fresh =>
        have unused := Regions.type_of_getUnused scan
        have different : fresh ≠ slot := by
          rintro rfl
          simp [isFree] at unused
        simp only [scan, Option.map_some, Option.some.injEq] at result
        subst result
        have base : u32 ((memory.mRgns slot).base + pages) = (memory.mRgns slot).base + pages :=
          Word.wrap_of_lt (by omega)
        have length : u32Sub (memory.mRgns slot).length pages = (memory.mRgns slot).length - pages :=
          Word.sub_of_le (by omega) enough
        refine ⟨rfl, ?_, ?_, ?_, Or.inr ⟨fresh, unused, shorter, ?_, ?_, ?_⟩⟩
        · simp
        · simp [Regions.modify_of_ne _ _ different.symm]
        · simp
        · simp [Regions.modify_of_ne _ _ different, base, length]
        · simp
        · intro other notSlot notFresh
          simp [Regions.modify_of_ne _ _ notSlot, Regions.modify_of_ne _ _ notFresh]
  · rw [if_neg shorter, Option.map_some, Option.some.injEq] at result
    subst result
    refine ⟨rfl, ?_, ?_, ?_, Or.inl ⟨by omega, ?_, ?_⟩⟩
    · simp
    · simp
    · simp only [Regions.modify_self]; omega
    · simp
    · intro other notSlot
      simp [Regions.modify_of_ne _ _ notSlot]

namespace Claimed

variable {before after : Memory} {slot : Slot} {pages : Nat}

/-- A slot in use before, other than the claimed one, keeps its record. -/
theorem same_of_inUse (claimed : Claimed before after slot pages) {other : Slot}
    (different : other ≠ slot) (inUse : (before.mRgns other).type ≠ .none) :
    after.mRgns other = before.mRgns other := by
  rcases claimed.rest with ⟨_, _, same⟩ | ⟨fresh, unused, _, _, _, same⟩
  · exact same other different
  · exact same other different (fun equal => inUse (equal ▸ unused))

/-- A slot used afterwards is the claimed one or was used before. -/
theorem used_cases (claimed : Claimed before after slot pages) {other : Slot}
    (used : (after.mRgns other).type = .used) :
    other = slot ∨ after.mRgns other = before.mRgns other := by
  by_cases different : other = slot
  · exact Or.inl different
  · right
    rcases claimed.rest with ⟨_, _, same⟩ | ⟨fresh, _, _, record, _, same⟩
    · exact same other different
    · refine same other different (fun equal => ?_)
      rw [equal, record] at used
      cases used

/-- No slot becomes or stops being disabled, and a disabled one is unchanged. -/
theorem disabled (claimed : Claimed before after slot pages)
    (isFree : (before.mRgns slot).type = .free) {other : Slot}
    (either : (before.mRgns other).type = .disabled ∨ (after.mRgns other).type = .disabled) :
    after.mRgns other = before.mRgns other := by
  have different : other ≠ slot := by
    rintro rfl
    rcases either with was | is
    · rw [isFree] at was; cases was
    · rw [claimed.type_eq] at is; cases is
  rcases claimed.rest with ⟨_, _, same⟩ | ⟨fresh, unused, _, record, _, same⟩
  · exact same other different
  · refine same other different (fun equal => ?_)
    rcases either with was | is
    · rw [equal, unused] at was; cases was
    · rw [equal, record] at is; cases is

/-- The pages of used regions afterwards. -/
theorem hasType_used (claimed : Claimed before after slot pages)
    (isFree : (before.mRgns slot).type = .free) (page : Nat) :
    after.mRgns.HasType page .used ↔ before.mRgns.HasType page .used ∨
      ((before.mRgns slot).base ≤ page ∧ page < (before.mRgns slot).base + pages) := by
  constructor
  · rintro ⟨other, used, contains⟩
    rcases claimed.used_cases used with same | same
    · right
      rwa [same, Regions.contains_iff, claimed.base_eq, claimed.length_eq] at contains
    · left
      exact ⟨other, same ▸ used, (Regions.contains_congr same).mp contains⟩
  · rintro (⟨other, used, contains⟩ | ⟨above, below⟩)
    · have different : other ≠ slot := by
        rintro rfl
        rw [isFree] at used
        cases used
      have same := claimed.same_of_inUse different (ne_none_of_used used)
      exact ⟨other, same ▸ used, (Regions.contains_congr same).mpr contains⟩
    · refine ⟨slot, claimed.type_eq, ?_⟩
      rw [Regions.contains_iff, claimed.base_eq, claimed.length_eq]
      exact ⟨above, below⟩

/-- Claiming keeps an arrangement. -/
theorem arranged {rel : Nat → Nat → Prop} {high : Nat} {slots : List Slot}
    (claimed : Claimed before after slot pages) (isFree : (before.mRgns slot).type = .free)
    (arranged : before.Arranged rel high slots) (refl : ∀ point, rel point point)
    (positive : 1 ≤ pages) : ∃ slots', after.Arranged rel high slots' := by
  have member : slot ∈ slots := arranged.toListed.mem isFree (by decide)
  have first : after.mFirstRgn = before.mFirstRgn := by rw [claimed.keeps]
  have taken := claimed.type_eq
  rcases claimed.rest with ⟨whole, next, same⟩ | ⟨fresh, unused, shorter, record, link, same⟩
  · -- The whole region: only its type changes.
    refine ⟨slots, arranged.of_sameExtent first (fun other => ?_)⟩
    by_cases here : other = slot
    · rw [here]
      exact ⟨next, claimed.base_eq, claimed.length_eq.trans whole,
        iff_of_false (ne_none_of_used taken) (ne_none_of_free isFree)⟩
    · exact MemVirtRgn.SameExtent.of_eq (same other here)
  · -- The region is cut: `fresh` is linked behind it and laid behind it.
    have unlisted : fresh ∉ slots := fun listed => (arranged.exact fresh).mpr listed unused
    have distinct := arranged.spells.nodup
    rcases List.append_of_mem member with ⟨front, back, split⟩
    subst split
    have different : fresh ≠ slot := by
      rintro rfl
      exact unlisted member
    have cut : Layout.Cut before.mRgns.baseOf before.mRgns.lengthOf after.mRgns.baseOf
        after.mRgns.lengthOf slot fresh := by
      unfold Regions.baseOf Regions.lengthOf
      refine ⟨claimed.base_eq, ?_, ?_, ?_, ?_, fun other notSlot notFresh => ?_⟩
      · rw [claimed.length_eq]; exact positive
      · rw [record, claimed.length_eq]
      · rw [record]; exact Nat.sub_pos_of_lt shorter
      · rw [record, claimed.length_eq]; exact Nat.add_sub_of_le (Nat.le_of_lt shorter)
      · rw [same other notSlot notFresh]; exact ⟨rfl, rfl⟩
    refine ⟨front ++ slot :: fresh :: back, ⟨?_, ?_⟩,
      arranged.chained.cut refl distinct unlisted cut, ?_⟩
    · rw [first]
      refine arranged.spells.insert unlisted link ?_ (fun other notSlot notFresh => ?_)
      · rw [record]
      · rw [same other notSlot notFresh]
    · intro other
      have membership : other ∈ front ++ slot :: fresh :: back ↔
          other = fresh ∨ other ∈ front ++ slot :: back := by
        simp only [List.mem_append, List.mem_cons]
        tauto
      rw [membership]
      by_cases isFresh : other = fresh
      · rw [isFresh, record]
        exact iff_of_true MemVirtRgnType.noConfusion (Or.inl rfl)
      · by_cases here : other = slot
        · rw [here]
          exact iff_of_true (ne_none_of_used taken) (Or.inr member)
        · rw [same other here isFresh, arranged.exact other]
          exact (or_iff_right isFresh).symm
    · rw [Layout.span_cut distinct unlisted cut]
      exact arranged.room

end Claimed

/-! ## Releasing a region -/

/-- The change `free_virtual` makes to the table after unmapping. -/
def releaseRgn (memory : Memory) (slot : Slot) : Memory :=
  { memory with mRgns := memory.mRgns.modify slot (fun r => { r with type := .free }) }

/-- `free_virtual` rejects the pointer, or unmaps and releases the region it
found. -/
theorem freeVirtual_eq (memory : Memory) (ptr : Nat) :
    memory.freeVirtual ptr =
      if ptr % 0x1000 ≠ 0 then some (memory, false)
      else
        match memory.findRgn (startsAt (ptr / 0x1000)) with
        | none => none
        | some none => some (memory, false)
        | some (some slot) => some ((unmapRgn (memory.mRgns slot).base (memory.mRgns slot).length 0
            memory).releaseRgn slot, true) := rfl

section Release

variable {memory : Memory} {slot : Slot}

theorem releaseRgn_of_ne {other : Slot} (different : other ≠ slot) :
    (memory.releaseRgn slot).mRgns other = memory.mRgns other := by
  simp only [releaseRgn, Regions.modify_of_ne _ _ different]

theorem releaseRgn_self :
    (memory.releaseRgn slot).mRgns slot = { memory.mRgns slot with type := .free } := by
  simp only [releaseRgn, Regions.modify_self]

theorem releaseRgn_sameExtent (used : (memory.mRgns slot).type = .used) (other : Slot) :
    (memory.mRgns other).SameExtent ((memory.releaseRgn slot).mRgns other) := by
  by_cases here : other = slot
  · rw [here, releaseRgn_self]
    exact ⟨rfl, rfl, rfl, iff_of_false MemVirtRgnType.noConfusion (ne_none_of_used used)⟩
  · exact MemVirtRgn.SameExtent.of_eq (releaseRgn_of_ne here)

/-- Releasing a used region keeps an arrangement: only its type changes. -/
theorem Arranged.release {rel : Nat → Nat → Prop} {high : Nat} {slots : List Slot}
    (arranged : memory.Arranged rel high slots) (used : (memory.mRgns slot).type = .used) :
    (memory.releaseRgn slot).Arranged rel high slots :=
  arranged.of_sameExtent rfl (releaseRgn_sameExtent used)

/-- The pages of used regions after a release. -/
theorem Arranged.hasType_used_release {rel : Nat → Nat → Prop} {high : Nat} {slots : List Slot}
    (arranged : memory.Arranged rel high slots) (ordering : Ordering rel)
    (used : (memory.mRgns slot).type = .used) (page : Nat) :
    (memory.releaseRgn slot).mRgns.HasType page .used ↔
      memory.mRgns.HasType page .used ∧ ¬ memory.mRgns.Contains slot page := by
  constructor
  · rintro ⟨other, stillUsed, contains⟩
    have different : other ≠ slot := by
      rintro rfl
      rw [releaseRgn_self] at stillUsed
      cases stillUsed
    have same : (memory.releaseRgn slot).mRgns other = memory.mRgns other :=
      releaseRgn_of_ne different
    have contained := (Regions.contains_congr same).mp contains
    refine ⟨⟨other, same ▸ stillUsed, contained⟩, fun inSlot => different ?_⟩
    exact arranged.eq_of_contains ordering (by rw [← same, stillUsed]; decide)
      (ne_none_of_used used) contained inSlot
  · rintro ⟨⟨other, wasUsed, contains⟩, outside⟩
    have different : other ≠ slot := by
      rintro rfl
      exact outside contains
    have same : (memory.releaseRgn slot).mRgns other = memory.mRgns other :=
      releaseRgn_of_ne different
    exact ⟨other, same ▸ wasUsed, (Regions.contains_congr same).mpr contains⟩

end Release

end Memory

end WeakOS
