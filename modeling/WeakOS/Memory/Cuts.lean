import Mathlib
import WeakOS.Memory.RegionTable

namespace WeakOS

open Foundation

/-!
# The three cuts

`disable_virtual` cuts a region that does not lie inside the range.  What a cut
leaves behind is described by its pieces, base and length, whatever happens to
the links.  In each of the three cuts the pieces miss a page of the region.
-/

namespace Regions

/-- Some region in use contains the page. -/
def Covered (rgns : Regions) (page : Nat) : Prop :=
  ∃ slot, (rgns slot).type ≠ .none ∧ rgns.Contains slot page

/-- Every region in use lies in the address space, and only those behind `first` may be
empty. -/
def Within (rgns : Regions) (first : Nat) : Prop :=
  ∀ slot, (rgns slot).type ≠ .none →
    (rgns slot).base + (rgns slot).length ≤ memPageCount ∧
      (1 ≤ (rgns slot).length ∨ first ≤ (rgns slot).base)

/-- No page is in two regions in use. -/
def Exclusive (rgns : Regions) : Prop :=
  ∀ first second page, (rgns first).type ≠ .none → (rgns second).type ≠ .none →
    rgns.Contains first page → rgns.Contains second page → first = second

/-- Every region in use afterwards, apart from the one of the slot, was in use before or has
the base and the length of one of the pieces. -/
def Beside (before after : Regions) (slot : Slot) (pieces : List (Nat × Nat)) : Prop :=
  ∀ other, other ≠ slot → (after other).type ≠ .none →
    ((before other).type ≠ .none ∧ (after other).base = (before other).base ∧
        (after other).length = (before other).length) ∨
      ((after other).base, (after other).length) ∈ pieces

/-- The region of the slot is cut: what is left of it, and what is new, are the pieces. -/
structure CutInto (before after : Regions) (slot : Slot) (pieces : List (Nat × Nat)) : Prop where
  itself : ((after slot).base, (after slot).length) ∈ pieces
  others : Beside before after slot pieces

theorem forall_mem_pair {α : Type} {property : α → Prop} {first second : α} :
    (∀ piece ∈ [first, second], property piece) ↔ property first ∧ property second := by
  rw [List.forall_mem_cons, List.forall_mem_singleton]

section CutInto

variable {before after : Regions} {slot : Slot} {pieces : List (Nat × Nat)} {first page : Nat}

theorem Beside.trans {last : Regions} {more : List (Nat × Nat)} (left : Beside before after slot pieces)
    (right : Beside after last slot more) : Beside before last slot (pieces ++ more) := by
  intro other different inUse
  rcases right other different inUse with ⟨wasInUse, base, length⟩ | member
  · rw [base, length]
    exact (left other different wasInUse).imp id (List.mem_append_left more)
  · exact Or.inr (List.mem_append_right pieces member)

/-- A write to the region itself. -/
theorem Beside.modify (change : MemVirtRgn → MemVirtRgn) :
    Beside before (before.modify slot change) slot [] := by
  intro other different inUse
  rw [modify_of_ne _ _ different] at inUse ⊢
  exact Or.inl ⟨inUse, rfl, rfl⟩

/-- Where a page that is covered after a cut was before. -/
theorem CutInto.covered (cut : CutInto before after slot pieces) (covers : after.Covered page) :
    (∃ other, other ≠ slot ∧ (before other).type ≠ .none ∧ before.Contains other page) ∨
      ∃ piece ∈ pieces, piece.1 ≤ page ∧ page < piece.1 + piece.2 := by
  rcases covers with ⟨other, inUse, contains⟩
  by_cases here : other = slot
  · rw [here] at contains
    exact Or.inr ⟨_, cut.itself, contains⟩
  · rcases cut.others other here inUse with ⟨wasInUse, base, length⟩ | member
    · refine Or.inl ⟨other, here, wasInUse, ?_⟩
      rwa [contains_iff, base, length] at contains
    · exact Or.inr ⟨_, member, contains⟩

/-- A page of the region that is in none of the pieces is lost. -/
theorem CutInto.loses (cut : CutInto before after slot pieces) (exclusive : before.Exclusive)
    (inUse : (before slot).type ≠ .none) (contains : before.Contains slot page)
    (outside : ∀ piece ∈ pieces, ¬ (piece.1 ≤ page ∧ page < piece.1 + piece.2)) :
    ¬ after.Covered page := by
  intro covers
  rcases cut.covered covers with ⟨other, different, otherInUse, inOther⟩ | ⟨piece, member, inside⟩
  · exact different (exclusive other slot page otherInUse inUse inOther contains)
  · exact outside piece member inside

/-- A page that was not covered is not covered after a cut, unless it is in a piece that
reaches beyond the region. -/
theorem CutInto.keeps (cut : CutInto before after slot pieces)
    (inUse : (before slot).type ≠ .none) (lost : ¬ before.Covered page)
    (inside : ∀ piece ∈ pieces, piece.1 ≤ page → page < piece.1 + piece.2 →
      before.Contains slot page) : ¬ after.Covered page := by
  intro covers
  rcases cut.covered covers with ⟨other, _, otherInUse, inOther⟩ | ⟨piece, member, above, below⟩
  · exact lost ⟨other, otherInUse, inOther⟩
  · exact lost ⟨slot, inUse, inside piece member above below⟩

theorem CutInto.within (cut : CutInto before after slot pieces) (within : before.Within first)
    (pieces_ : ∀ piece ∈ pieces, piece.1 + piece.2 ≤ memPageCount ∧ (1 ≤ piece.2 ∨ first ≤ piece.1)) :
    after.Within first := by
  intro other inUse
  by_cases here : other = slot
  · rw [here]
    exact pieces_ _ cut.itself
  · rcases cut.others other here inUse with ⟨wasInUse, base, length⟩ | member
    · rw [base, length]
      exact within other wasInUse
    · exact pieces_ _ member

end CutInto

/-- The same up to links. -/
def SameButLinks (before after : MemVirtRgn) : Prop :=
  after.type = before.type ∧ after.base = before.base ∧ after.length = before.length

theorem sameButLinks_prev (pointer : Option Slot) (rgn : MemVirtRgn) :
    SameButLinks rgn { rgn with prev := pointer } := ⟨rfl, rfl, rfl⟩

theorem sameButLinks_next (pointer : Option Slot) (rgn : MemVirtRgn) :
    SameButLinks rgn { rgn with next := pointer } := ⟨rfl, rfl, rfl⟩

theorem modifyAt_links (rgns : Regions) (pointer : Option Slot) (change : MemVirtRgn → MemVirtRgn)
    (links : ∀ rgn, SameButLinks rgn (change rgn)) (slot : Slot) :
    SameButLinks (rgns slot) (rgns.modifyAt pointer change slot) := by
  cases pointer with
  | none => exact ⟨rfl, rfl, rfl⟩
  | some target =>
      rw [modifyAt]
      by_cases here : slot = target
      · rw [here, modify_self]
        exact links _
      · rw [modify_of_ne _ _ here]
        exact ⟨rfl, rfl, rfl⟩

/-- An unused slot has got a region, and otherwise only links have changed. -/
structure Put (before after : Regions) (fresh : Slot) (base length : Nat) : Prop where
  unused : (before fresh).type = .none
  base_eq : (after fresh).base = base
  length_eq : (after fresh).length = length
  others : ∀ other, other ≠ fresh → SameButLinks (before other) (after other)

/-- Filling the slot that the scan has found, and writing to the links of a neighbour. -/
theorem Put.of_getUnused {rgns : Regions} {fresh : Slot} (found : rgns.getUnused = some fresh)
    (rest : MemVirtRgn) (pointer : Option Slot) {change : MemVirtRgn → MemVirtRgn}
    (links : ∀ rgn, SameButLinks rgn (change rgn)) :
    Put rgns ((rgns.modify fresh (fun _ => rest)).modifyAt pointer change) fresh rest.base
      rest.length := by
  have itself := modifyAt_links (rgns.modify fresh (fun _ => rest)) pointer change links fresh
  rw [modify_self] at itself
  refine ⟨type_of_getUnused found, itself.2.1, itself.2.2, fun other different => ?_⟩
  have kept := modifyAt_links (rgns.modify fresh (fun _ => rest)) pointer change links other
  rwa [modify_of_ne _ _ different] at kept

theorem Put.beside {before after : Regions} {fresh slot : Slot} {base length : Nat}
    (put : Put before after fresh base length) : Beside before after slot [(base, length)] := by
  intro other _ inUse
  by_cases isFresh : other = fresh
  · rw [isFresh, put.base_eq, put.length_eq]
    exact Or.inr List.mem_cons_self
  · rcases put.others other isFresh with ⟨type, base, length⟩
    rw [type] at inUse
    exact Or.inl ⟨inUse, base, length⟩

/-- The slot that is taken is not the one of a region in use. -/
theorem Put.kept {before after : Regions} {fresh slot : Slot} {base length : Nat}
    (put : Put before after fresh base length) (inUse : (before slot).type ≠ .none) :
    SameButLinks (before slot) (after slot) :=
  put.others slot (fun same => inUse (same ▸ put.unused))

end Regions

namespace Memory

open Regions

/-! ## The three cuts -/

section Cuts

variable {rgns cut : Regions} {slot : Slot} {addr pages endaddr : Nat}

theorem putBefore_put {before : Slot} {length : Nat}
    (result : putBefore rgns slot length = some (before, cut)) :
    Put rgns cut before (rgns slot).base length := by
  rw [putBefore] at result
  cases found : rgns.getUnused with
  | none => simp [found] at result
  | some fresh =>
      simp only [found, Option.some.injEq, Prod.mk.injEq] at result
      rcases result with ⟨rfl, rfl⟩
      exact Put.of_getUnused found _ _ (sameButLinks_next (some fresh))

/-- A region that begins in the range and reaches to its end loses the last page of the
range. -/
theorem reserveFront_cutInto (inUse : (rgns slot).type ≠ .none) (begins : (rgns slot).base < endaddr)
    (reaches : endaddr ≤ (rgns slot).base + (rgns slot).length)
    (bound : (rgns slot).base + (rgns slot).length < 2 ^ 32)
    (result : reserveFront rgns slot endaddr = some cut) :
    CutInto rgns cut slot [((rgns slot).base, endaddr - 1 - (rgns slot).base),
      (endaddr, (rgns slot).base + (rgns slot).length - endaddr)] := by
  have last : u32Sub endaddr 1 = endaddr - 1 := Word.sub_of_le (by omega) (by omega)
  have front : u32Sub (endaddr - 1) (rgns slot).base = endaddr - 1 - (rgns slot).base :=
    Word.sub_of_le (by omega) (by omega)
  have kept : u32Sub (rgns slot).length (endaddr - 1 - (rgns slot).base) =
      (rgns slot).length - (endaddr - 1 - (rgns slot).base) := Word.sub_of_le (by omega) (by omega)
  have rest : u32Sub ((rgns slot).length - (endaddr - 1 - (rgns slot).base)) 1 =
      (rgns slot).base + (rgns slot).length - endaddr := by
    rw [u32Sub, Word.sub_of_le (by omega) (by omega)]
    omega
  have itself : rgns.modify slot (fun r => { r with length := u32Sub (u32Sub endaddr 1) r.base }) slot =
      { rgns slot with length := endaddr - 1 - (rgns slot).base } := by
    simp only [modify_self, last, front]
  rw [reserveFront] at result
  dsimp only at result
  have shorten := @Beside.modify rgns slot
    (fun r => { r with length := u32Sub (u32Sub endaddr 1) r.base })
  generalize rgns.modify slot (fun r => { r with length := u32Sub (u32Sub endaddr 1) r.base }) =
    shortened at result itself shorten
  cases found : shortened.getUnused with
  | none => simp [found] at result
  | some fresh =>
      simp only [found, Option.some.injEq, itself, kept, rest] at result
      subst result
      have put := Put.of_getUnused found
        ⟨some slot, .free, endaddr, (rgns slot).base + (rgns slot).length - endaddr, (rgns slot).next⟩
        (rgns slot).next (sameButLinks_prev (some fresh))
      rcases put.kept (by rw [itself]; exact inUse) with ⟨_, base, length⟩
      rw [itself] at base length
      refine ⟨?_, fun other different stillInUse => ?_⟩
      · rw [modify_self, base, length]
        exact List.mem_cons_self
      · exact ((shorten.trans put.beside).trans (Beside.modify _) other different stillInUse).imp id
          (List.mem_cons_of_mem _)

theorem putAfter_beside {length : Nat} (inUse : (rgns slot).type ≠ .none)
    (result : putAfter rgns slot endaddr length = some cut) :
    Beside rgns cut slot [(endaddr, length)] ∧ SameButLinks (rgns slot) (cut slot) := by
  rw [putAfter] at result
  cases found : rgns.getUnused with
  | none => simp [found] at result
  | some fresh =>
      simp only [found, Option.some.injEq] at result
      subst result
      have put := Put.of_getUnused found ⟨some slot, .free, endaddr, length, (rgns slot).next⟩
        (rgns slot).next (sameButLinks_prev (some fresh))
      refine ⟨put.beside.trans (Beside.modify _), ?_⟩
      rw [modify_self]
      exact put.kept inUse

/-- A region that begins in front of the range and ends in it keeps its base. -/
theorem reserveBack_cutInto (inUse : (rgns slot).type ≠ .none) (before : (rgns slot).base < addr)
    (meets : addr < (rgns slot).base + (rgns slot).length)
    (bound : (rgns slot).base + (rgns slot).length < 2 ^ 32)
    (result : reserveBack rgns slot addr = some cut) :
    CutInto rgns cut slot [((rgns slot).base, addr - (rgns slot).base),
      ((rgns slot).base, (rgns slot).base + (rgns slot).length - addr)] := by
  have front : u32Sub addr (rgns slot).base = addr - (rgns slot).base :=
    Word.sub_of_le (by omega) (by omega)
  have rest : u32Sub (rgns slot).length (addr - (rgns slot).base) =
      (rgns slot).base + (rgns slot).length - addr := by
    rw [u32Sub, Word.sub_of_le (by omega) (by omega)]
    omega
  rw [reserveBack] at result
  simp only [front] at result
  cases found : putBefore rgns slot (addr - (rgns slot).base) with
  | none => simp [found] at result
  | some placed =>
      rcases placed with ⟨fresh, put⟩
      simp only [found, Option.some.injEq] at result
      subst result
      have taken := putBefore_put found
      rcases taken.kept inUse with ⟨_, base, length⟩
      refine ⟨?_, fun other different stillInUse => ?_⟩
      · rw [modify_self, base, length, rest]
        exact List.mem_cons_of_mem _ List.mem_cons_self
      · exact (taken.beside.trans (Beside.modify _) other different stillInUse).imp id
          (List.mem_append_left [_])

/-- A region that begins in front of the range and reaches to its end loses the page in
front of the range. -/
theorem reserveMiddle_cutInto (inUse : (rgns slot).type ≠ .none) (before : (rgns slot).base < addr)
    (reaches : addr + pages ≤ (rgns slot).base + (rgns slot).length)
    (bound : (rgns slot).base + (rgns slot).length < 2 ^ 32)
    (result : reserveMiddle rgns slot addr pages (addr + pages) = some cut) :
    CutInto rgns cut slot [((rgns slot).base, addr - 1 - (rgns slot).base), (addr, pages),
      (addr + pages, (rgns slot).base + (rgns slot).length + 1 - (addr + pages))] := by
  have front : u32Sub (u32Sub addr (rgns slot).base) 1 = addr - 1 - (rgns slot).base := by
    rw [u32Sub, u32Sub, Word.sub_of_le (by omega) (by omega : (rgns slot).base ≤ addr),
      Word.sub_of_le (by omega) (by omega)]
    omega
  have rest : u32Sub (u32Sub (rgns slot).length pages) (addr - 1 - (rgns slot).base) =
      (rgns slot).base + (rgns slot).length + 1 - (addr + pages) := by
    rw [u32Sub, u32Sub, Word.sub_of_le (by omega) (by omega : pages ≤ (rgns slot).length),
      Word.sub_of_le (by omega) (by omega)]
    omega
  have start : u32 ((rgns slot).base + (addr - 1 - (rgns slot).base + 1)) = addr := by
    rw [u32, Word.wrap_of_lt (by omega)]
    omega
  rw [reserveMiddle] at result
  simp only [front] at result
  cases found : putBefore rgns slot (addr - 1 - (rgns slot).base) with
  | none => simp [found] at result
  | some placed =>
      rcases placed with ⟨fresh, put⟩
      have taken := putBefore_put found
      have kept := taken.kept inUse
      simp only [found, Option.map_eq_some_iff, kept.2.1, kept.2.2, rest] at result
      rcases result with ⟨last, split, rfl⟩
      have parts : Beside put last slot [(addr + pages,
          (rgns slot).base + (rgns slot).length + 1 - (addr + pages))] ∧
            SameButLinks (put slot) (last slot) := by
        split at split
        · exact putAfter_beside (by rw [kept.1]; exact inUse) split
        · rw [← Option.some.inj split]
          exact ⟨fun other _ inUse => Or.inl ⟨inUse, rfl, rfl⟩, rfl, rfl, rfl⟩
      refine ⟨?_, fun other different stillInUse => ?_⟩
      · rw [modify_self]
        simp only [parts.2.2.1, kept.2.1, start]
        exact List.mem_cons_of_mem _ List.mem_cons_self
      · refine ((taken.beside.trans parts.1).trans (Beside.modify _) other different stillInUse).imp id
          (fun member => ?_)
        rcases List.mem_cons.mp member with first | second
        · exact first ▸ List.mem_cons_self
        · exact List.mem_cons_of_mem _ (List.mem_cons_of_mem _ second)

end Cuts

/-- A cut after which a page of the region is lost, and no page in front of `endaddr` is new. -/
structure Loses (before after : Regions) (slot : Slot) (endaddr : Nat) (pieces : List (Nat × Nat)) :
    Prop where
  cut : CutInto before after slot pieces
  inside : ∀ piece ∈ pieces, ∀ page < endaddr, piece.1 ≤ page → page < piece.1 + piece.2 →
    before.Contains slot page
  page : ∃ page < endaddr, before.Contains slot page ∧
    ∀ piece ∈ pieces, ¬ (piece.1 ≤ page ∧ page < piece.1 + piece.2)

section Loses

variable {rgns cut : Regions} {slot : Slot} {addr pages endaddr : Nat}

/-- The last page of the range is lost. -/
theorem reserveFront_loses (inUse : (rgns slot).type ≠ .none) (within : rgns.Within addr)
    (above : addr ≤ (rgns slot).base) (begins : (rgns slot).base < endaddr)
    (reaches : endaddr ≤ (rgns slot).base + (rgns slot).length)
    (result : reserveFront rgns slot endaddr = some cut) :
    cut.Within addr ∧ ∃ pieces, Loses rgns cut slot endaddr pieces := by
  have bound := (within slot inUse).1
  have pageCount := memPageCount_eq
  have parts := reserveFront_cutInto inUse begins reaches (by omega) result
  refine ⟨parts.within within ?_, _, parts, ?_, endaddr - 1, by omega, ?_, ?_⟩
  · rw [forall_mem_pair]
    omega
  · rw [forall_mem_pair]
    constructor <;> intro page front first behind
    · rw [contains_iff]
      omega
    · omega
  · rw [contains_iff]
    omega
  · rw [forall_mem_pair]
    omega

/-- The last page of the region is lost. -/
theorem reserveBack_loses (inUse : (rgns slot).type ≠ .none) (within : rgns.Within addr)
    (before : (rgns slot).base < addr) (meets : addr < (rgns slot).base + (rgns slot).length)
    (ends : (rgns slot).base + (rgns slot).length < endaddr)
    (result : reserveBack rgns slot addr = some cut) :
    cut.Within addr ∧ ∃ pieces, Loses rgns cut slot endaddr pieces := by
  have bound := (within slot inUse).1
  have pageCount := memPageCount_eq
  have parts := reserveBack_cutInto inUse before meets (by omega) result
  refine ⟨parts.within within ?_, _, parts, ?_, (rgns slot).base + (rgns slot).length - 1, by omega,
    ?_, ?_⟩
  · rw [forall_mem_pair]
    omega
  · rw [forall_mem_pair]
    constructor <;> intro page front first behind <;> rw [contains_iff] <;> omega
  · rw [contains_iff]
    omega
  · rw [forall_mem_pair]
    omega

/-- The page in front of the range is lost. -/
theorem reserveMiddle_loses (inUse : (rgns slot).type ≠ .none) (within : rgns.Within addr)
    (before : (rgns slot).base < addr) (reaches : addr + pages ≤ (rgns slot).base + (rgns slot).length)
    (result : reserveMiddle rgns slot addr pages (addr + pages) = some cut)
    (meets : addr < (rgns slot).base + (rgns slot).length) :
    ∃ pieces, Loses rgns cut slot (addr + pages) pieces := by
  have bound := (within slot inUse).1
  have pageCount := memPageCount_eq
  have parts := reserveMiddle_cutInto inUse before reaches (by omega) result
  refine ⟨_, parts, ?_, addr - 1, by omega, ?_, ?_⟩
  · rw [List.forall_mem_cons, forall_mem_pair]
    refine ⟨?_, ?_, ?_⟩ <;> intro page front first behind
    · rw [contains_iff]
      omega
    · rw [contains_iff]
      omega
    · omega
  · rw [contains_iff]
    omega
  · rw [List.forall_mem_cons, forall_mem_pair]
    omega

end Loses

end Memory

end WeakOS
