import Mathlib
import WeakOS.Memory.Contract
import WeakOS.Memory.Cuts
import WeakOS.Memory.Preinit

namespace WeakOS

open Foundation

/-!
# Reserving a range

`disable_virtual` gets a region right that begins in the range and ends before
its last page: only its type changes.  Each of the three cuts loses a page.  A
region that reaches the end of the range becomes one page too short; when it
begins in front of the range too, it is the part in front of the range that is
too short; and a region that only begins in front of it keeps its base.

A page that is in no region is never in one again, so the range is reserved
exactly when nothing has to be cut.
-/

namespace MemVirtRgn

/-- The regions that `disable_virtual` looks at. -/
def Reservable (rgn : MemVirtRgn) : Prop := ¬ (rgn.type = .disabled ∨ rgn.type = .none)

instance (rgn : MemVirtRgn) : Decidable rgn.Reservable := inferInstanceAs (Decidable (¬ _))

/-- The region has a page in the range. -/
def Meets (first last : Nat) (rgn : MemVirtRgn) : Prop :=
  rgn.base < last ∧ first < rgn.base + rgn.length

/-- The region begins in the range and ends before its last page. -/
def Inside (first last : Nat) (rgn : MemVirtRgn) : Prop :=
  first ≤ rgn.base ∧ rgn.base + rgn.length < last

instance (first last : Nat) (rgn : MemVirtRgn) : Decidable (rgn.Inside first last) :=
  inferInstanceAs (Decidable (_ ∧ _))

/-- The loop goes on to the next region. -/
def Passed (first last : Nat) (rgn : MemVirtRgn) : Prop :=
  ¬ rgn.Reservable ∨ first ≤ rgn.base ∧ last ≤ rgn.base ∨
    rgn.base < first ∧ rgn.base + rgn.length ≤ first

instance (first last : Nat) (rgn : MemVirtRgn) : Decidable (rgn.Passed first last) :=
  inferInstanceAs (Decidable (_ ∨ _))

theorem not_inside_of_passed {first last : Nat} {rgn : MemVirtRgn} (passed : rgn.Passed first last)
    (reservable : rgn.Reservable) : ¬ rgn.Inside first last := by
  rintro ⟨above, short⟩
  rcases passed with inactive | behind | before
  · exact inactive reservable
  · omega
  · omega

/-- A region that is not empty is passed by when it does not meet the range. -/
theorem passed_iff {first last : Nat} {rgn : MemVirtRgn} (order : first ≤ last)
    (positive : 1 ≤ rgn.length) :
    rgn.Passed first last ↔ ¬ (rgn.Reservable ∧ rgn.Meets first last) := by
  simp only [Passed, Meets]
  constructor
  · rintro (inactive | behind | before) ⟨reservable, meets⟩
    · exact inactive reservable
    · omega
    · omega
  · intro apart
    by_cases reservable : rgn.Reservable
    · have outside : ¬ (rgn.base < last ∧ first < rgn.base + rgn.length) :=
        fun meets => apart ⟨reservable, meets⟩
      omega
    · exact Or.inl reservable

end MemVirtRgn

namespace Memory

open Regions

section Loop

variable {addr pages endaddr fuel : Nat} {slot : Slot} {rgns : Regions}

/-- A round of the loop, on a region within the address space. -/
theorem disableLoop_succ (bound : (rgns slot).base + (rgns slot).length < 2 ^ 32)
    (nonempty : 1 ≤ (rgns slot).length ∨ addr ≤ (rgns slot).base) :
    disableLoop addr pages endaddr (fuel + 1) (some slot) rgns =
      if (rgns slot).Passed addr endaddr then
        disableLoop addr pages endaddr fuel (rgns slot).next rgns
      else if (rgns slot).Inside addr endaddr then
        disableLoop addr pages endaddr fuel (rgns slot).next
          (rgns.modify slot (fun r => { r with type := .disabled }))
      else if addr ≤ (rgns slot).base then
        (reserveFront rgns slot endaddr).bind fun cut =>
          disableLoop addr pages endaddr fuel (cut slot).next cut
      else if endaddr ≤ (rgns slot).base + (rgns slot).length then
        reserveMiddle rgns slot addr pages endaddr
      else
        (reserveBack rgns slot addr).bind fun cut =>
          disableLoop addr pages endaddr fuel (cut slot).next cut := by
  have ends : u32 ((rgns slot).base + (rgns slot).length) = (rgns slot).base + (rgns slot).length :=
    Word.wrap_of_lt bound
  rw [disableLoop]
  simp only [ends]
  by_cases reserved : (rgns slot).type = .disabled ∨ (rgns slot).type = .none
  · have passed : (rgns slot).Passed addr endaddr := Or.inl (fun active => active reserved)
    rw [if_pos reserved, if_pos passed]
  · have active : (rgns slot).Reservable := reserved
    rw [if_neg reserved]
    by_cases above : addr ≤ (rgns slot).base
    · by_cases behind : endaddr ≤ (rgns slot).base
      · have passed : (rgns slot).Passed addr endaddr := Or.inr (Or.inl ⟨above, behind⟩)
        rw [if_pos above, if_pos behind, if_pos passed]
      · have looks : ¬ (rgns slot).Passed addr endaddr := by
          rintro (inactive | passed | passed)
          · exact inactive active
          · exact behind passed.2
          · omega
        rw [if_pos above, if_neg behind, if_neg looks, if_pos above]
        by_cases short : (rgns slot).base + (rgns slot).length < endaddr
        · have inside : (rgns slot).Inside addr endaddr := ⟨above, short⟩
          rw [if_pos short, if_pos inside, modify_self]
        · have reaches : ¬ (rgns slot).Inside addr endaddr := fun inside => short inside.2
          rw [if_neg short, if_neg reaches]
    · have last : u32Sub ((rgns slot).base + (rgns slot).length) 1 =
          (rgns slot).base + (rgns slot).length - 1 := Word.sub_of_le bound (by omega)
      rw [if_neg above, last]
      by_cases ended : (rgns slot).base + (rgns slot).length - 1 < addr
      · have passed : (rgns slot).Passed addr endaddr := Or.inr (Or.inr (by omega))
        rw [if_pos ended, if_pos passed]
      · have looks : ¬ (rgns slot).Passed addr endaddr := by
          rintro (inactive | begins | before)
          · exact inactive active
          · exact above begins.1
          · omega
        have early : ¬ (rgns slot).Inside addr endaddr := fun inside => above inside.1
        rw [if_neg ended, if_neg looks, if_neg early, if_neg above]

/-- Only the type changes. -/
theorem disable_cutInto (rgns : Regions) (slot : Slot) :
    CutInto rgns (rgns.modify slot (fun r => { r with type := .disabled })) slot
      [((rgns slot).base, (rgns slot).length)] := by
  refine ⟨?_, fun other different inUse => (Beside.modify _ other different inUse).imp id ?_⟩
  · rw [modify_self]
    exact List.mem_cons_self
  · exact fun none => absurd none List.not_mem_nil

variable {start : Option Slot} {last : Regions} {page : Nat}

/-- A region that is neither passed by nor inside the range is cut, and a page of it is lost. -/
theorem disableLoop_cuts (ends : endaddr = addr + pages) (within : rgns.Within addr)
    (inUse : (rgns slot).type ≠ .none)
    (looks : ¬ (rgns slot).Passed addr endaddr)
    (crosses : ¬ (rgns slot).Inside addr endaddr)
    (run : disableLoop addr pages endaddr (fuel + 1) (some slot) rgns = some last) :
    ∃ cut pieces, Loses rgns cut slot endaddr pieces ∧ (last = cut ∨ cut.Within addr ∧
      disableLoop addr pages endaddr fuel (cut slot).next cut = some last) := by
  rcases within slot inUse with ⟨bound, nonempty⟩
  have pageCount := memPageCount_eq
  rw [disableLoop_succ (by omega) nonempty, if_neg looks, if_neg crosses] at run
  rw [MemVirtRgn.Passed, not_or, not_or] at looks
  by_cases above : addr ≤ (rgns slot).base
  · rw [if_pos above] at run
    rcases Option.bind_eq_some_iff.mp run with ⟨cut, front, later⟩
    have reaches : endaddr ≤ (rgns slot).base + (rgns slot).length :=
      Nat.not_lt.mp (fun short => crosses ⟨above, short⟩)
    rcases reserveFront_loses inUse within above (by omega) reaches front with ⟨kept, pieces, loses⟩
    exact ⟨cut, pieces, loses, Or.inr ⟨kept, later⟩⟩
  · rw [if_neg above] at run
    by_cases reaches : endaddr ≤ (rgns slot).base + (rgns slot).length
    · rw [if_pos reaches, ends] at run
      rcases reserveMiddle_loses inUse within (by omega) (by omega) run (by omega) with ⟨pieces, loses⟩
      rw [← ends] at loses
      exact ⟨last, pieces, loses, Or.inl rfl⟩
    · rw [if_neg reaches] at run
      rcases Option.bind_eq_some_iff.mp run with ⟨cut, back, later⟩
      rcases reserveBack_loses inUse within (by omega) (by omega) (Nat.not_le.mp reaches) back with
        ⟨kept, pieces, loses⟩
      exact ⟨cut, pieces, loses, Or.inr ⟨kept, later⟩⟩

/-- A page in front of the end of the range that is in no region is in none afterwards. -/
theorem disableLoop_lost (ends : endaddr = addr + pages) (within : rgns.Within addr)
    (front : page < endaddr) (lost : ¬ rgns.Covered page)
    (run : disableLoop addr pages endaddr fuel start rgns = some last) : ¬ last.Covered page := by
  have pageCount := memPageCount_eq
  induction fuel generalizing start rgns with
  | zero =>
      cases start with
      | none =>
          rw [← Option.some.inj run]
          exact lost
      | some slot => cases run
  | succ fuel inductionHypothesis =>
      cases start with
      | none =>
          rw [← Option.some.inj run]
          exact lost
      | some slot =>
          by_cases unused : (rgns slot).type = .none
          · rw [disableLoop] at run
            simp only [unused, or_true, if_true] at run
            exact inductionHypothesis within lost run
          · rcases within slot unused with ⟨bound, nonempty⟩
            have round := run
            rw [disableLoop_succ (by omega) nonempty] at run
            split at run
            · exact inductionHypothesis within lost run
            · rename_i looks
              by_cases inside : (rgns slot).Inside addr endaddr
              · rw [if_pos inside] at run
                have cut := disable_cutInto rgns slot
                refine inductionHypothesis (cut.within within ?_) (cut.keeps unused lost ?_) run
                · simpa only [List.forall_mem_singleton] using ⟨bound, nonempty⟩
                · simpa only [List.forall_mem_singleton] using fun above below => ⟨above, below⟩
              · rcases disableLoop_cuts ends within unused looks inside round with
                  ⟨cut, pieces, loses, later⟩
                have stillLost := loses.cut.keeps unused lost
                  (fun piece member => loses.inside piece member page front)
                rcases later with rfl | ⟨kept, continues⟩
                · exact stillLost
                · exact inductionHypothesis kept stillLost continues

/-- A region that is cut costs a page. -/
theorem disableLoop_crossing (ends : endaddr = addr + pages) (within : rgns.Within addr)
    (exclusive : rgns.Exclusive) (inUse : (rgns slot).type ≠ .none)
    (looks : ¬ (rgns slot).Passed addr endaddr)
    (crosses : ¬ (rgns slot).Inside addr endaddr)
    (run : disableLoop addr pages endaddr (fuel + 1) (some slot) rgns = some last) :
    ∃ page < endaddr, ¬ last.Covered page := by
  rcases disableLoop_cuts ends within inUse looks crosses run with ⟨cut, pieces, loses, later⟩
  rcases loses.page with ⟨page, front, contains, missed⟩
  have lost := loses.cut.loses exclusive inUse contains missed
  rcases later with rfl | ⟨kept, continues⟩
  · exact ⟨page, front, lost⟩
  · exact ⟨page, front, disableLoop_lost ends kept front lost continues⟩

end Loop

/-! ## A range that needs no cut -/

/-- The listed regions inside the range become disabled. -/
def disableInside (first last : Nat) (slots : List Slot) (rgns : Regions) : Regions := fun slot =>
  if slot ∈ slots ∧ (rgns slot).Reservable ∧ (rgns slot).Inside first last then
    { rgns slot with type := .disabled }
  else rgns slot

section DisableInside

variable {first last : Nat} {slots : List Slot} {rgns : Regions} {slot : Slot}

theorem disableInside_inside (member : slot ∈ slots) (reservable : (rgns slot).Reservable)
    (inside : (rgns slot).Inside first last) :
    disableInside first last slots rgns slot = { rgns slot with type := .disabled } :=
  if_pos ⟨member, reservable, inside⟩

theorem disableInside_outside
    (outside : ¬ (slot ∈ slots ∧ (rgns slot).Reservable ∧ (rgns slot).Inside first last)) :
    disableInside first last slots rgns slot = rgns slot :=
  if_neg outside

/-- Only types change, and no slot gets in or out of use. -/
theorem disableInside_sameExtent (slot : Slot) :
    (rgns slot).SameExtent (disableInside first last slots rgns slot) := by
  by_cases listed : slot ∈ slots ∧ (rgns slot).Reservable ∧ (rgns slot).Inside first last
  · rw [disableInside_inside listed.1 listed.2.1 listed.2.2]
    refine ⟨rfl, rfl, rfl, iff_of_false MemVirtRgnType.noConfusion (fun unused => ?_)⟩
    exact listed.2.1 (Or.inr unused)
  · exact MemVirtRgn.SameExtent.of_eq (disableInside_outside listed)

theorem disableInside_prev : (disableInside first last slots rgns slot).prev = (rgns slot).prev := by
  rw [disableInside]
  split <;> rfl

theorem disableInside_contains {page : Nat} :
    (disableInside first last slots rgns).Contains slot page ↔ rgns.Contains slot page :=
  contains_of_sameExtent (disableInside_sameExtent slot)

theorem disableInside_within (within : rgns.Within first) :
    (disableInside first last slots rgns).Within first := by
  intro slot inUse
  have same := @disableInside_sameExtent first last slots rgns slot
  rw [same.base, same.length]
  exact within slot (mt same.unused.mpr inUse)

theorem disableInside_exclusive (exclusive : rgns.Exclusive) :
    (disableInside first last slots rgns).Exclusive := by
  intro one other page oneUse otherUse inOne inOther
  apply exclusive one other page
  · exact mt (disableInside_sameExtent one).unused.mpr oneUse
  · exact mt (disableInside_sameExtent other).unused.mpr otherUse
  · exact disableInside_contains.mp inOne
  · exact disableInside_contains.mp inOther

theorem disableInside_nil : disableInside first last [] rgns = rgns :=
  funext (fun _ => if_neg (fun listed => absurd listed.1 List.not_mem_nil))

theorem disableInside_cons_passed (passed : (rgns slot).Passed first last) :
    disableInside first last (slot :: slots) rgns = disableInside first last slots rgns := by
  funext other
  refine if_congr (and_congr_left fun active => ?_) rfl rfl
  refine ⟨fun member => ?_, List.mem_cons_of_mem _⟩
  rcases List.mem_cons.mp member with rfl | later
  · exact absurd active.2 (MemVirtRgn.not_inside_of_passed passed active.1)
  · exact later

theorem disableInside_cons_inside (reservable : (rgns slot).Reservable)
    (inside : (rgns slot).Inside first last) (new : slot ∉ slots) :
    disableInside first last (slot :: slots) rgns =
      disableInside first last slots (rgns.modify slot (fun r => { r with type := .disabled })) := by
  funext other
  by_cases here : other = slot
  · have kept : disableInside first last slots
        (rgns.modify slot (fun r => { r with type := .disabled })) slot = _ :=
      disableInside_outside (fun listed => new listed.1)
    rw [here, disableInside_inside List.mem_cons_self reservable inside, kept, modify_self]
  · simp only [disableInside, modify_of_ne _ _ here, List.mem_cons, here, false_or]

end DisableInside

section Uncut

variable {addr pages endaddr fuel : Nat} {start : Option Slot} {rgns : Regions}

/-- The loop disables the regions inside the range until it meets a region that it cuts. -/
theorem disableLoop_append {front back : List Slot} (within : rgns.Within addr)
    (spells : LinkedPool.Spells (fun slot => (rgns slot).next) start (front ++ back))
    (inUse : ∀ slot ∈ front, (rgns slot).type ≠ .none)
    (uncut : ∀ slot ∈ front, (rgns slot).Passed addr endaddr ∨ (rgns slot).Inside addr endaddr) :
    disableLoop addr pages endaddr (front.length + fuel) start rgns =
      disableLoop addr pages endaddr fuel back.head? (disableInside addr endaddr front rgns) := by
  have pageCount := memPageCount_eq
  have distinct := spells.nodup
  induction front generalizing start rgns with
  | nil =>
      rw [disableInside_nil, List.length_nil, Nat.zero_add]
      cases back with
      | nil => rw [show start = none from spells]; rfl
      | cons slot rest => rw [show start = some slot from spells.1]; rfl
  | cons slot rest inductionHypothesis =>
      rcases spells with ⟨rfl, later⟩
      have used := inUse slot List.mem_cons_self
      rcases within slot used with ⟨bound, nonempty⟩
      have fuel_ : (slot :: rest).length + fuel = rest.length + fuel + 1 := by
        rw [List.length_cons]
        omega
      have new : slot ∉ rest ++ back := (List.nodup_cons.mp distinct).1
      rw [fuel_, disableLoop_succ (by omega) nonempty]
      by_cases passed : (rgns slot).Passed addr endaddr
      · rw [if_pos passed, disableInside_cons_passed passed]
        exact inductionHypothesis within later (fun other member => inUse other (List.mem_cons_of_mem _ member))
          (fun other member => uncut other (List.mem_cons_of_mem _ member)) (List.nodup_cons.mp distinct).2
      · have inside := (uncut slot List.mem_cons_self).resolve_left passed
        have reservable : (rgns slot).Reservable := by
          by_contra inactive
          exact passed (Or.inl inactive)
        have different : ∀ other ∈ rest, other ≠ slot := fun other member same =>
          new (List.mem_append_left back (same ▸ member))
        rw [if_neg passed, if_pos inside, disableInside_cons_inside reservable inside
          (fun member => new (List.mem_append_left back member))]
        refine inductionHypothesis ((disable_cutInto rgns slot).within within ?_) ?_
          (fun other member => ?_) (fun other member => ?_) (List.nodup_cons.mp distinct).2
        · simpa only [List.forall_mem_singleton] using ⟨bound, nonempty⟩
        · refine later.congr (fun other member => ?_)
          have apart : other ≠ slot := fun same => new (same ▸ member)
          rw [modify_of_ne _ _ apart]
        · rw [modify_of_ne _ _ (different other member)]
          exact inUse other (List.mem_cons_of_mem _ member)
        · rw [modify_of_ne _ _ (different other member)]
          exact uncut other (List.mem_cons_of_mem _ member)

end Uncut

/-! ## The call -/

/-- `prev` leads back where `next` leads. -/
def Linked (memory : Memory) (slots : List Slot) : Prop :=
  ∀ slot ∈ slots, ∀ other, (memory.mRgns slot).prev = some other ↔
    other ∈ slots ∧ (memory.mRgns other).next = some slot

/-- The list is well formed and can be followed in both directions. -/
def WellLinked (memory : Memory) : Prop :=
  ∃ slots, memory.Listed slots ∧
    Layout.Chained (· = ·) memory.mRgns.baseOf memory.mRgns.lengthOf 0 slots memPageCount ∧
    memory.Linked slots

theorem WellLinked.arranged {memory : Memory} (wellLinked : memory.WellLinked) :
    ∃ slots, memory.Arranged (· = ·) memPageCount slots ∧ memory.Linked slots := by
  rcases wellLinked with ⟨slots, listed, tiling, linked⟩
  have total := tiling.span_eq
  rw [Nat.zero_add] at total
  exact ⟨slots, ⟨listed, tiling, Nat.le_of_eq total⟩, linked⟩

/-- Exactly the pages of a range of bytes have become disabled. -/
structure Reserves (before after : Memory) (addr length : Nat) : Prop where
  wellLinked : after.WellLinked
  reserved : ∀ page, addr ≤ 0x1000 * page → 0x1000 * page < addr + length →
    after.mRgns.HasType page .disabled
  others : ∀ page, ¬ (addr ≤ 0x1000 * page ∧ 0x1000 * page < addr + length) →
    ∀ type, type ≠ .none → (after.mRgns.HasType page type ↔ before.mRgns.HasType page type)

section Call

variable {memory after : Memory} {slots : List Slot} {addr length first pages last : Nat}

theorem Arranged.within (arranged : memory.Arranged (· = ·) memPageCount slots) (first : Nat) :
    memory.mRgns.Within first := by
  intro _ inUse
  have bounds := arranged.bounds Ordering.eq inUse
  exact ⟨bounds.2, Or.inl bounds.1⟩

theorem Arranged.exclusive (arranged : memory.Arranged (· = ·) memPageCount slots) :
    memory.mRgns.Exclusive :=
  fun _ _ _ firstUse secondUse inFirst inSecond =>
    arranged.eq_of_contains Ordering.eq firstUse secondUse inFirst inSecond

/-- Every page of the address space is in a region. -/
theorem Arranged.exists_contains (arranged : memory.Arranged (· = ·) memPageCount slots) {page : Nat}
    (inSpace : page < memPageCount) :
    ∃ slot ∈ slots, (memory.mRgns slot).type ≠ .none ∧ memory.mRgns.Contains slot page := by
  rcases arranged.chained.exists_covers (Nat.zero_le page) inSpace with ⟨slot, member, contains⟩
  exact ⟨slot, member, (arranged.exact slot).mpr member, contains⟩

/-- After the call every page is still in a region. -/
theorem Reserves.covered (reserves : Reserves memory after addr length)
    (arranged : memory.Arranged (· = ·) memPageCount slots) {page : Nat}
    (inSpace : page < memPageCount) : after.mRgns.Covered page := by
  by_cases inRange : addr ≤ 0x1000 * page ∧ 0x1000 * page < addr + length
  · rcases reserves.reserved page inRange.1 inRange.2 with ⟨slot, disabled, contains⟩
    exact ⟨slot, by rw [disabled]; decide, contains⟩
  · rcases arranged.exists_contains inSpace with ⟨slot, _, inUse, contains⟩
    rcases (reserves.others page inRange _ inUse).mpr ⟨slot, rfl, contains⟩ with ⟨other, same, still⟩
    exact ⟨other, by rw [same]; exact inUse, still⟩

/-- No region in use meets the range and does not lie inside it. -/
def Uncut (memory : Memory) (first last : Nat) : Prop :=
  ∀ slot, (memory.mRgns slot).Reservable → (memory.mRgns slot).Meets first last →
    (memory.mRgns slot).Inside first last

/-- The loop on a table that needs a cut loses a page. -/
theorem Arranged.disableLoop_cut (arranged : memory.Arranged (· = ·) memPageCount slots)
    (ends : last = first + pages) (cut : ¬ memory.Uncut first last) {rgns : Regions}
    (run : disableLoop first pages last (memMaxVirtRgns + 1) memory.mFirstRgn memory.mRgns =
      some rgns) : ∃ page < last, ¬ rgns.Covered page := by
  have crossing : ∃ slot ∈ slots, ¬ (memory.mRgns slot).Passed first last ∧
      ¬ (memory.mRgns slot).Inside first last := by
    rw [Uncut, not_forall] at cut
    rcases cut with ⟨slot, cut⟩
    rw [Classical.not_imp, Classical.not_imp] at cut
    rcases cut with ⟨reservable, meets, crosses⟩
    have inUse : (memory.mRgns slot).type ≠ .none := fun unused => reservable (Or.inr unused)
    have nonempty := (arranged.bounds Ordering.eq inUse).1
    refine ⟨slot, (arranged.exact slot).mp inUse, fun passed => ?_, crosses⟩
    exact (MemVirtRgn.passed_iff (by omega) nonempty).mp passed ⟨reservable, meets⟩
  have found : (slots.find? (fun slot => decide (¬ (memory.mRgns slot).Passed first last ∧
      ¬ (memory.mRgns slot).Inside first last))).isSome = true := by
    rcases crossing with ⟨slot, member, crosses⟩
    exact List.find?_isSome.mpr ⟨slot, member, decide_eq_true crosses⟩
  rcases Option.isSome_iff_exists.mp found with ⟨slot, stops⟩
  rcases List.find?_eq_some_iff_append.mp stops with ⟨crosses, front, back, split, rejected⟩
  have crosses := of_decide_eq_true crosses
  have count := Nat.le_trans arranged.chained.count_le_span arranged.room
  have spells := arranged.spells
  have distinct := spells.nodup
  rw [split] at count spells distinct
  rw [List.length_append, List.length_cons] at count
  have inUse : ∀ other ∈ front ++ slot :: back, (memory.mRgns other).type ≠ .none := fun other member =>
    (arranged.exact other).mpr (split ▸ member)
  have uncut : ∀ other ∈ front, (memory.mRgns other).Passed first last ∨
      (memory.mRgns other).Inside first last := by
    intro other member
    have refused := rejected other member
    rw [Bool.not_eq_true', decide_eq_false_iff_not, not_and_or, not_not, not_not] at refused
    exact refused
  have fuel : memMaxVirtRgns + 1 = front.length + (memMaxVirtRgns - front.length + 1) := by omega
  rw [fuel, disableLoop_append (arranged.within first) spells
    (fun other member => inUse other (List.mem_append_left _ member)) uncut] at run
  have new : slot ∉ front := fun member =>
    (List.nodup_append.mp distinct).2.2 slot member slot List.mem_cons_self rfl
  have kept := @disableInside_outside first last front memory.mRgns slot (fun listed => new listed.1)
  refine disableLoop_crossing ends (disableInside_within (arranged.within first))
    (disableInside_exclusive arranged.exclusive) ?_ ?_ ?_ run
  · rw [kept]
    exact inUse slot (List.mem_append_right _ List.mem_cons_self)
  · rw [kept]
    exact crosses.1
  · rw [kept]
    exact crosses.2

/-- On a table that needs no cut only types change. -/
theorem Arranged.disableLoop_uncut (arranged : memory.Arranged (· = ·) memPageCount slots)
    (order : first ≤ last) (uncut : memory.Uncut first last) :
    disableLoop first pages last (memMaxVirtRgns + 1) memory.mFirstRgn memory.mRgns =
      some (disableInside first last slots memory.mRgns) := by
  have count := Nat.le_trans arranged.chained.count_le_span arranged.room
  have spells : LinkedPool.Spells (fun slot => (memory.mRgns slot).next) memory.mFirstRgn (slots ++ []) := by
    rw [List.append_nil]
    exact arranged.spells
  have passes : ∀ slot ∈ slots, (memory.mRgns slot).Passed first last ∨
      (memory.mRgns slot).Inside first last := by
    intro slot member
    have nonempty := (arranged.bounds Ordering.eq ((arranged.exact slot).mpr member)).1
    by_cases meets : (memory.mRgns slot).Reservable ∧ (memory.mRgns slot).Meets first last
    · exact Or.inr (uncut slot meets.1 meets.2)
    · exact Or.inl ((MemVirtRgn.passed_iff order nonempty).mpr meets)
  have fuel : memMaxVirtRgns + 1 = slots.length + (memMaxVirtRgns + 1 - slots.length) := by omega
  rw [fuel, disableLoop_append (arranged.within first) spells
    (fun slot member => (arranged.exact slot).mpr member) passes]
  cases memMaxVirtRgns + 1 - slots.length <;> rfl

/-- The types of the pages outside the range stay. -/
theorem hasType_disableInside {rgns : Regions} {page : Nat} {type : MemVirtRgnType}
    (outside : ¬ (first ≤ page ∧ page < last)) :
    (disableInside first last slots rgns).HasType page type ↔ rgns.HasType page type := by
  refine exists_congr (fun slot => ?_)
  rw [disableInside_contains]
  refine and_congr_left (fun contains => ?_)
  rw [disableInside_outside]
  rintro ⟨_, _, above, short⟩
  rw [contains_iff] at contains
  omega

/-- Disabling the regions inside the range reserves it when nothing had to be cut. -/
theorem Arranged.reserves (arranged : memory.Arranged (· = ·) memPageCount slots)
    (linked : memory.Linked slots)
    (uncut : memory.Uncut first last) (inSpace : last ≤ memPageCount)
    (range : ∀ page, first ≤ page ∧ page < last ↔ addr ≤ 0x1000 * page ∧ 0x1000 * page < addr + length) :
    Reserves memory { memory with mRgns := disableInside first last slots memory.mRgns } addr length := by
  have same := fun slot => @disableInside_sameExtent first last slots memory.mRgns slot
  have table : Arranged (· = ·) memPageCount
      { memory with mRgns := disableInside first last slots memory.mRgns } slots :=
    arranged.of_sameExtent rfl same
  refine ⟨⟨slots, table.toListed, table.chained, fun slot member other => ?_⟩, fun page above below => ?_,
    fun page outside type _ => ?_⟩
  · simp only [disableInside_prev, (same other).next]
    exact linked slot member other
  · have inRange := (range page).mpr ⟨above, below⟩
    rcases arranged.exists_contains (by omega : page < memPageCount) with ⟨slot, member, inUse, contains⟩
    refine ⟨slot, ?_, disableInside_contains.mpr contains⟩
    rw [contains_iff] at contains
    show (disableInside first last slots memory.mRgns slot).type = .disabled
    by_cases reservable : (memory.mRgns slot).Reservable
    · have inside := uncut slot reservable ⟨by omega, by omega⟩
      rw [disableInside_inside member reservable inside]
    · rw [disableInside_outside (fun listed => reservable listed.2.1)]
      exact (not_not.mp reservable).resolve_right inUse
  · exact hasType_disableInside (fun inside => outside ((range page).mp inside))

/-- The call on an address of a page. -/
theorem disableVirtual_eq (aligned : addr % 0x1000 = 0) :
    memory.disableVirtual addr length =
      (disableLoop (addr / 0x1000) (alignUp length 0x1000 / 0x1000)
        (u32 (addr / 0x1000 + alignUp length 0x1000 / 0x1000)) (memMaxVirtRgns + 1) memory.mFirstRgn
        memory.mRgns).map fun rgns => { memory with mRgns := rgns } := by
  rw [disableVirtual, if_neg (not_not.mpr aligned)]

/-- The call when the length can be rounded up. -/
theorem disableVirtual_rounded (aligned : addr % 0x1000 = 0) (rounds : length ≤ 0xfffff000)
    (fits : addr + length ≤ 2 ^ 32) :
    memory.disableVirtual addr length =
      (disableLoop (addr / 0x1000) ((length + 0xfff) / 0x1000) ((addr + length + 0xfff) / 0x1000)
        (memMaxVirtRgns + 1) memory.mFirstRgn memory.mRgns).map
          fun rgns => { memory with mRgns := rgns } := by
  have pages : alignUp length 0x1000 / 0x1000 = (length + 0xfff) / 0x1000 :=
    Word.alignUp_div (by decide) (by omega)
  have last : u32 (addr / 0x1000 + (length + 0xfff) / 0x1000) = (addr + length + 0xfff) / 0x1000 := by
    rw [u32, Word.wrap_of_lt (by omega)]
    omega
  rw [disableVirtual_eq aligned, pages, last]

/-- When rounding the length up gives 0, nothing is reserved. -/
theorem Arranged.disableVirtual_wrapped (arranged : memory.Arranged (· = ·) memPageCount slots)
    (wraps : 0xfffff000 < length) (word : length < 2 ^ 32) :
    memory.disableVirtual 0 length =
      some { memory with mRgns := disableInside 0 0 slots memory.mRgns } := by
  have zero : alignUp length 0x1000 = 0 := by
    have remainder : length % 0x1000 ≠ 0 := by omega
    have top : length - length % 0x1000 + 0x1000 = 2 ^ 32 := by omega
    rw [alignUp, Word.alignUp, if_pos remainder, top]
    decide
  have nothing : memory.Uncut 0 0 := fun slot _ meets => absurd meets.1 (Nat.not_lt_zero _)
  rw [disableVirtual_eq rfl, zero, show u32 (0 / 0x1000 + 0 / 0x1000) = 0 from rfl, Nat.zero_div,
    arranged.disableLoop_uncut (Nat.le_refl 0) nothing]
  rfl

/-- Then the range, which is the whole address space, has to be disabled already. -/
theorem Arranged.not_reservable_of_reserves (arranged : memory.Arranged (· = ·) memPageCount slots)
    (wraps : 0xfffff000 < length) (reserves :
      Reserves memory { memory with mRgns := disableInside 0 0 slots memory.mRgns } 0 length)
    (slot : Slot) : ¬ (memory.mRgns slot).Reservable := by
  intro reservable
  have pageCount := memPageCount_eq
  have inUse : (memory.mRgns slot).type ≠ .none := fun unused => reservable (Or.inr unused)
  have bounds := arranged.bounds Ordering.eq inUse
  have reserved := reserves.reserved (memory.mRgns slot).base (Nat.zero_le _) (by omega)
  have same := (hasType_disableInside (by omega)).mp reserved
  have contains : memory.mRgns.Contains slot (memory.mRgns slot).base :=
    ⟨Nat.le_refl _, Nat.lt_add_of_pos_right bounds.1⟩
  exact reservable (Or.inl
    (arranged.type_eq_of_hasType Ordering.eq inUse contains MemVirtRgnType.noConfusion same))

/-- `disable_virtual` reserves exactly its range if and only if no free or used region that meets
the range begins in front of it or reaches its last page, and the length can be rounded up or
there is no free or used region at all. -/
theorem disableVirtual_reserves_iff (wellLinked : memory.WellLinked) (aligned : addr % 0x1000 = 0)
    (positive : 1 ≤ length) (word : length < 2 ^ 32) (fits : addr + length ≤ 2 ^ 32) :
    (∃ after, memory.disableVirtual addr length = some after ∧ Reserves memory after addr length) ↔
      memory.Uncut (addr / 0x1000) ((addr + length + 0xfff) / 0x1000) ∧
        (0xfffff000 < length → ∀ slot, ¬ (memory.mRgns slot).Reservable) := by
  have pageCount := memPageCount_eq
  rcases wellLinked.arranged with ⟨slots, arranged, linked⟩
  have range : ∀ page, addr / 0x1000 ≤ page ∧ page < (addr + length + 0xfff) / 0x1000 ↔
      addr ≤ 0x1000 * page ∧ 0x1000 * page < addr + length := by omega
  have inSpace : (addr + length + 0xfff) / 0x1000 ≤ memPageCount := by omega
  have sufficient := fun uncut => arranged.reserves linked uncut inSpace range
  by_cases rounds : length ≤ 0xfffff000
  · have ends : (addr + length + 0xfff) / 0x1000 = addr / 0x1000 + (length + 0xfff) / 0x1000 := by omega
    rw [disableVirtual_rounded aligned rounds fits]
    constructor
    · rintro ⟨after, result, reserves⟩
      refine ⟨?_, fun long => absurd rounds (Nat.not_le.mpr long)⟩
      by_contra cut
      rcases Option.map_eq_some_iff.mp result with ⟨rgns, run, rfl⟩
      rcases arranged.disableLoop_cut ends cut run with ⟨page, front, lost⟩
      exact lost (reserves.covered arranged (by omega))
    · rintro ⟨uncut, _⟩
      rw [arranged.disableLoop_uncut (by omega) uncut]
      exact ⟨_, rfl, sufficient uncut⟩
  · have wraps : 0xfffff000 < length := Nat.not_le.mp rounds
    have zero : addr = 0 := by omega
    subst zero
    rw [arranged.disableVirtual_wrapped wraps word]
    constructor
    · rintro ⟨after, result, reserves⟩
      rw [← Option.some.inj result] at reserves
      have none := arranged.not_reservable_of_reserves wraps reserves
      exact ⟨fun slot reservable => absurd reservable (none slot), fun _ => none⟩
    · rintro ⟨uncut, none⟩
      have same : ∀ last, disableInside 0 last slots memory.mRgns = memory.mRgns := fun last =>
        funext (fun slot => disableInside_outside (fun listed => none wraps slot listed.2.1))
      have reserves := sufficient uncut
      rw [same] at reserves
      rw [same]
      exact ⟨_, rfl, reserves⟩

end Call

theorem twoRegions_linked (first second : MemVirtRgnType) : (twoRegions first second).Linked [0, 1] := by
  have next : ∀ other ∈ ([0, 1] : List Slot), ∀ slot,
      ((twoRegions first second).mRgns other).next = some slot ↔ other = 0 ∧ slot = 1 := by
    intro other member slot
    rcases List.mem_cons.mp member with rfl | member
    · exact ⟨fun same => ⟨rfl, (Option.some.inj same).symm⟩, fun same => congrArg some same.2.symm⟩
    · rw [List.mem_singleton.mp member]
      exact iff_of_false (fun same => nomatch same) (fun same => absurd same.1 (by decide))
  intro slot member other
  constructor
  · intro prev
    rcases List.mem_cons.mp member with rfl | member
    · cases prev
    · rw [List.mem_singleton.mp member] at prev ⊢
      rw [← Option.some.inj prev]
      exact ⟨List.mem_cons_self, rfl⟩
  · rintro ⟨listed, leads⟩
    rcases (next other listed slot).mp leads with ⟨rfl, rfl⟩
    rfl

/-- A page is reserved when the region behind it is disabled already. -/
theorem disableVirtual_reserves_iff_firstPage :
    ∃ after, (twoRegions .free .disabled).disableVirtual 0 0x2000 = some after ∧
      Reserves (twoRegions .free .disabled) after 0 0x2000 := by
  have arranged : (twoRegions .free .disabled).Arranged (· = ·) memPageCount [0, 1] :=
    twoRegions_arranged MemVirtRgnType.noConfusion MemVirtRgnType.noConfusion
  have uncut : (twoRegions .free .disabled).Uncut (0 / 0x1000) ((0 + 0x2000 + 0xfff) / 0x1000) := by
    intro slot reservable _
    by_cases first : slot = 0
    · rw [first]
      exact ⟨Nat.zero_le _, by decide⟩
    · by_cases second : slot = 1
      · rw [second] at reservable
        exact absurd (Or.inl rfl) reservable
      · rw [twoRegions_rgns_of_ne first second] at reservable
        exact absurd (Or.inr rfl) reservable
  exact (disableVirtual_reserves_iff ⟨[0, 1], arranged.toListed, arranged.chained,
    twoRegions_linked _ _⟩ rfl (by decide) (by decide) (by decide)).mpr
    ⟨uncut, fun long => absurd long (by decide)⟩

theorem preinit_wellLinked (memory : Memory) (rgns : List MemBiosRgn) :
    (memory.preinit rgns).WellLinked := by
  have arranged := preinit_arranged memory rgns
  refine ⟨[0], arranged.toListed, arranged.chained, fun slot member other => ?_⟩
  rw [List.mem_singleton.mp member, List.mem_singleton, preinit_mRgns, initialRgns_zero]
  refine iff_of_false (fun none => nomatch none) ?_
  rintro ⟨rfl, next⟩
  rw [initialRgns_zero] at next
  cases next

/-- The first call of `sysinit` loses the last page of the first GiB. -/
theorem disableVirtual_not_reserves : ¬ ∀ (memory : Memory) (addr length : Nat), memory.WellLinked →
    addr % 0x1000 = 0 → 1 ≤ length → length < 2 ^ 32 → addr + length ≤ 2 ^ 32 →
    ∃ after, memory.disableVirtual addr length = some after ∧ Reserves memory after addr length := by
  intro claim
  have arranged := preinit_arranged Memory.zero []
  rcases claim (Memory.zero.preinit []) 0 0x40000000 (preinit_wellLinked _ _) rfl (by decide) (by decide)
    (by decide) with ⟨after, result, reserves⟩
  rw [disableVirtual_rounded rfl (by decide) (by decide)] at result
  rcases Option.map_eq_some_iff.mp result with ⟨rgns, run, rfl⟩
  have cut : ¬ (Memory.zero.preinit []).Uncut (0 / 0x1000) ((0 + 0x40000000 + 0xfff) / 0x1000) := by
    intro uncut
    have inside := uncut 0
    rw [preinit_mRgns, initialRgns_zero] at inside
    have short := (inside (by decide) ⟨by decide, by decide⟩).2
    exact absurd short (by decide)
  rcases arranged.disableLoop_cut (by decide) cut run with ⟨page, front, lost⟩
  have pageCount := memPageCount_eq
  exact lost (reserves.covered arranged (by omega))

end Memory

end WeakOS
