import Mathlib
import WeakOS.Boot.Sysinit
import WeakOS.Memory.Preinit

namespace WeakOS

open Foundation

/-!
# The region table after boot

A pool in which the first slots are in use is written as the list of their
records.  On such pools the scan for an unused slot, the write to a slot and
the write to the first unused slot are operations on the list, so the three
reservations of `sysinit` can be followed on lists of at most five records.

The reservations leave the list in an order that is not the order of the slots,
and three pages are lost between the regions: they no longer tile the address
space, and the last region lies behind the page tables.
-/

namespace Regions

/-- The pool whose first slots hold the given records. -/
def ofList (rgns : List MemVirtRgn) : Regions := fun slot => rgns.getD slot.val MemVirtRgn.zero

/-- The slot with the given number. -/
abbrev slot (index : Nat) : Slot := Fin.ofNat _ index

theorem slot_val {index : Nat} (small : index < memMaxVirtRgns) : (slot index).val = index :=
  Nat.mod_eq_of_lt small

theorem slot_eq_iff {index : Nat} (small : index < memMaxVirtRgns) (other : Slot) :
    other = slot index ↔ other.val = index := by
  rw [Fin.ext_iff, slot_val small]

section OfList

variable (rgns : List MemVirtRgn) (index : Nat) (room : rgns.length < memMaxVirtRgns)

include room

theorem ofList_slot (listed : index < rgns.length) :
    ofList rgns (slot index) = rgns[index] := by
  unfold ofList
  rw [slot_val (Nat.lt_trans listed room), List.getD_eq_getElem _ _ listed]

/-- Writing to a slot in use. -/
theorem modify_ofList (listed : index < rgns.length)
    (change : MemVirtRgn → MemVirtRgn) :
    (ofList rgns).modify (slot index) change = ofList (rgns.modify index change) := by
  have inPool : index < memMaxVirtRgns := Nat.lt_trans listed room
  funext other
  by_cases here : other = slot index
  · rw [here, modify_self, ofList_slot rgns index room listed, ofList, slot_val inPool,
      List.getD_eq_getElem?_getD, List.getElem?_modify_eq, List.getElem?_eq_getElem listed]
    rfl
  · have different : index ≠ other.val := fun same => here ((slot_eq_iff inPool other).mpr same.symm)
    rw [modify_of_ne _ _ here, ofList, ofList, List.getD_eq_getElem?_getD,
      List.getD_eq_getElem?_getD, List.getElem?_modify_ne _ _ different]

/-- Writing to the first unused slot. -/
theorem append_ofList (rgn : MemVirtRgn) :
    (ofList rgns).modify (slot rgns.length) (fun _ => rgn) = ofList (rgns ++ [rgn]) := by
  funext other
  by_cases here : other = slot rgns.length
  · rw [here, modify_self, ofList, slot_val room, List.getD_eq_getElem?_getD,
      List.getElem?_concat_length]
    rfl
  · have different : other.val ≠ rgns.length := fun same => here ((slot_eq_iff room other).mpr same)
    rw [modify_of_ne _ _ here, ofList, ofList, List.getD_eq_getElem?_getD,
      List.getD_eq_getElem?_getD]
    rcases Nat.lt_or_gt_of_ne different with before | behind
    · rw [List.getElem?_append_left before]
    · rw [List.getElem?_eq_none (Nat.le_of_lt behind), List.getElem?_eq_none (by
        rw [List.length_append, List.length_singleton]
        exact behind)]

/-- The scan finds the first slot behind the list. -/
theorem getUnused_ofList (inUse : ∀ rgn ∈ rgns, rgn.type ≠ .none) :
    (ofList rgns).getUnused = some (slot rgns.length) := by
  have stops : Search.first (fun index => decide ((ofList rgns (slot index)).type = .none))
      memMaxVirtRgns = some rgns.length := by
    refine Search.first_eq_some_iff.mpr ⟨room, ?_, fun index before => ?_⟩
    · rw [ofList, slot_val room, List.getD_eq_default _ _ (Nat.le_refl _)]
      exact decide_eq_true rfl
    · rw [ofList_slot rgns _ room before]
      exact decide_eq_false (inUse _ (List.getElem_mem before))
  rw [getUnused, stops]
  rfl

end OfList

end Regions

namespace Memory

/-! ## One step of the traversal -/

section DisableLoop

variable {addr pages endaddr fuel : Nat} {slot : Slot} {rgns : Regions}

/-- A region that is reserved already or does not meet the range is passed by. -/
theorem disableLoop_skip (skips : (rgns slot).type = .disabled ∨
      (addr ≤ (rgns slot).base ∧ endaddr ≤ (rgns slot).base) ∨
      ((rgns slot).base < addr ∧ u32Sub (u32 ((rgns slot).base + (rgns slot).length)) 1 < addr)) :
    disableLoop addr pages endaddr (fuel + 1) (some slot) rgns =
      disableLoop addr pages endaddr fuel (rgns slot).next rgns := by
  rw [disableLoop]
  by_cases reserved : (rgns slot).type = .disabled ∨ (rgns slot).type = .none
  · simp only [if_pos reserved]
  · have active : (rgns slot).type ≠ .disabled := fun same => reserved (Or.inl same)
    simp only [if_neg reserved]
    rcases skips with disabled | ⟨above, behind⟩ | ⟨before, ends⟩
    · exact absurd disabled active
    · simp only [if_pos above, if_pos behind]
    · simp only [if_neg (Nat.not_le.mpr before), if_pos ends]

/-- A free region that begins in the range and reaches to its end is cut. -/
theorem disableLoop_front (isFree : (rgns slot).type = .free) (above : addr ≤ (rgns slot).base)
    (begins : (rgns slot).base < endaddr)
    (reaches : endaddr ≤ u32 ((rgns slot).base + (rgns slot).length)) :
    disableLoop addr pages endaddr (fuel + 1) (some slot) rgns =
      (reserveFront rgns slot endaddr).bind fun rgns =>
        disableLoop addr pages endaddr fuel (rgns slot).next rgns := by
  have active : ¬ ((rgns slot).type = .disabled ∨ (rgns slot).type = .none) := by
    rw [isFree]
    decide
  rw [disableLoop]
  simp only [if_neg active, if_pos above, if_neg (Nat.not_le.mpr begins),
    if_neg (Nat.not_lt.mpr reaches)]

/-- A free region that begins in front of the range and reaches to its end is
cut, and the traversal stops. -/
theorem disableLoop_middle (isFree : (rgns slot).type = .free) (before : (rgns slot).base < addr)
    (meets : addr ≤ u32Sub (u32 ((rgns slot).base + (rgns slot).length)) 1)
    (reaches : endaddr ≤ u32 ((rgns slot).base + (rgns slot).length)) :
    disableLoop addr pages endaddr (fuel + 1) (some slot) rgns =
      reserveMiddle rgns slot addr pages endaddr := by
  have active : ¬ ((rgns slot).type = .disabled ∨ (rgns slot).type = .none) := by
    rw [isFree]
    decide
  rw [disableLoop]
  simp only [if_neg active, if_neg (Nat.not_le.mpr before), if_neg (Nat.not_lt.mpr meets),
    if_pos reaches]

end DisableLoop

end Memory

namespace Boot

open Regions (slot ofList)

/-! ## The three reservations -/

def emptyTable : List MemVirtRgn := [⟨none, .free, 0, 0x100000, none⟩]

/-- The table after the first GiB has been reserved. -/
def firstTable : List MemVirtRgn :=
  [⟨none, .disabled, 0, 0x3ffff, some (slot 1)⟩,
    ⟨some (slot 0), .free, 0x40000, 0xc0000, none⟩]

/-- The table after the third GiB has been reserved. -/
def secondTable : List MemVirtRgn :=
  [⟨none, .disabled, 0, 0x3ffff, some (slot 2)⟩,
    ⟨some (slot 2), .disabled, 0x80000, 0x40000, some (slot 3)⟩,
    ⟨some (slot 0), .free, 0x40000, 0x3ffff, some (slot 1)⟩,
    ⟨some (slot 1), .free, 0xc0000, 0x40001, none⟩]

/-- The table after the last GiB has been reserved. -/
def bootTable : List MemVirtRgn :=
  [⟨none, .disabled, 0, 0x3ffff, some (slot 2)⟩,
    ⟨some (slot 2), .disabled, 0x80000, 0x40000, some (slot 3)⟩,
    ⟨some (slot 0), .free, 0x40000, 0x3ffff, some (slot 1)⟩,
    ⟨some (slot 1), .disabled, 0xc0000, 0x3ffff, some (slot 4)⟩,
    ⟨some (slot 3), .free, 0x100000, 1, none⟩]

theorem initialRgns_eq : Memory.initialRgns = ofList emptyTable := by
  funext other
  by_cases first : other = 0
  · rw [first, Memory.initialRgns_zero]
    rfl
  · have behind : emptyTable.length ≤ other.val :=
      Nat.pos_of_ne_zero (fun zero => first ((Regions.slot_eq_iff (by decide) other).mpr zero))
    rw [Memory.initialRgns_of_ne first, ofList, List.getD_eq_default _ _ behind]

/-- The cut of the first reservation. -/
theorem reserveFront_first :
    Memory.reserveFront (ofList emptyTable) (slot 0) 0x40000 = some (ofList firstTable) := by
  let shortened : List MemVirtRgn := [⟨none, .free, 0, 0x3ffff, none⟩]
  have cut : (ofList emptyTable).modify (slot 0)
      (fun r => { r with length := u32Sub (u32Sub 0x40000 1) r.base }) = ofList shortened :=
    Regions.modify_ofList emptyTable 0 (by decide) (by decide) _
  have scan : (ofList shortened).getUnused = some (slot 1) :=
    Regions.getUnused_ofList shortened (by decide) (by decide)
  have taken : ∀ rgn, (ofList shortened).modify (slot 1) (fun _ => rgn) = ofList (shortened ++ [rgn]) :=
    Regions.append_ofList shortened (by decide)
  have before : ofList emptyTable (slot 0) = ⟨none, .free, 0, 0x100000, none⟩ := rfl
  have after : ofList shortened (slot 0) = ⟨none, .free, 0, 0x3ffff, none⟩ := rfl
  simp only [Memory.reserveFront, cut, scan, taken, before, after, Regions.modifyAt]
  exact congrArg some (Regions.modify_ofList (shortened ++ [_]) 0 (by decide) (by decide) _)

theorem reserve_first {fuel : Nat} (enough : 3 ≤ fuel) :
    Memory.disableLoop 0 0x40000 0x40000 fuel (some (slot 0)) (ofList emptyTable) =
      some (ofList firstTable) := by
  obtain ⟨rest, rfl⟩ := Nat.exists_eq_add_of_le' enough
  rw [Memory.disableLoop_front rfl (Nat.zero_le _) (by decide) (by decide), reserveFront_first,
    Option.bind_some]
  have next : (ofList firstTable (slot 0)).next = some (slot 1) := rfl
  have last : (ofList firstTable (slot 1)).next = none := rfl
  rw [next, Memory.disableLoop_skip (Or.inr (Or.inl ⟨Nat.zero_le _, by decide⟩)), last]
  rfl

/-- The two cuts of the second reservation. -/
theorem reserveMiddle_second :
    Memory.reserveMiddle (ofList firstTable) (slot 1) 0x80000 0x40000 0xc0000 =
      some (ofList secondTable) := by
  let behind : MemVirtRgn := ⟨some (slot 0), .free, 0x40000, 0xc0000, none⟩
  let infront : MemVirtRgn := ⟨some (slot 0), .free, 0x40000, 0x3ffff, some (slot 1)⟩
  let cut : List MemVirtRgn := [⟨none, .disabled, 0, 0x3ffff, some (slot 2)⟩, behind, infront]
  have old : ofList firstTable (slot 1) = behind := rfl
  have put : Memory.putBefore (ofList firstTable) (slot 1) 0x3ffff = some (slot 2, ofList cut) := by
    have scan : (ofList firstTable).getUnused = some (slot 2) :=
      Regions.getUnused_ofList firstTable (by decide) (by decide)
    have taken : ∀ rgn, (ofList firstTable).modify (slot 2) (fun _ => rgn) =
        ofList (firstTable ++ [rgn]) :=
      Regions.append_ofList firstTable (by decide)
    simp only [Memory.putBefore, scan, taken, old, behind, Regions.modifyAt]
    exact congrArg (fun rgns => some (slot 2, rgns))
      (Regions.modify_ofList (firstTable ++ [infront]) 0 (by decide) (by decide) _)
  let last : MemVirtRgn := ⟨some (slot 1), .free, 0xc0000, 0x40001, none⟩
  let cutTwice : List MemVirtRgn :=
    [⟨none, .disabled, 0, 0x3ffff, some (slot 2)⟩, { behind with next := some (slot 3) }, infront, last]
  have putNext : Memory.putAfter (ofList cut) (slot 1) 0xc0000 0x40001 = some (ofList cutTwice) := by
    have scan : (ofList cut).getUnused = some (slot 3) :=
      Regions.getUnused_ofList cut (by decide) (by decide)
    have taken : ∀ rgn, (ofList cut).modify (slot 3) (fun _ => rgn) = ofList (cut ++ [rgn]) :=
      Regions.append_ofList cut (by decide)
    have kept : ofList cut (slot 1) = behind := rfl
    simp only [Memory.putAfter, scan, taken, kept, behind, Regions.modifyAt]
    exact congrArg some (Regions.modify_ofList (cut ++ [last]) 1 (by decide) (by decide) _)
  have kept : ofList cut (slot 1) = behind := rfl
  have length : u32Sub (u32Sub 0x80000 behind.base) 1 = 0x3ffff := by decide
  have reaches : 0xc0000 < u32 (behind.base + behind.length) := by decide
  have rest : u32Sub (u32Sub behind.length 0x40000) 0x3ffff = 0x40001 := by decide
  simp only [Memory.reserveMiddle, old, length, put, kept, if_pos reaches, rest, putNext,
    Option.map_some]
  have base : u32 (0x40000 + (0x3ffff + 1)) = 0x80000 := by decide
  rw [Regions.modify_ofList cutTwice 1 (by decide) (by decide)]
  simp only [cutTwice, behind, List.modify_succ_cons, List.modify_zero_cons, base]
  rfl

theorem reserve_second {fuel : Nat} (enough : 3 ≤ fuel) :
    Memory.disableLoop 0x80000 0x40000 0xc0000 fuel (some (slot 0)) (ofList firstTable) =
      some (ofList secondTable) := by
  obtain ⟨rest, rfl⟩ := Nat.exists_eq_add_of_le' enough
  have next : (ofList firstTable (slot 0)).next = some (slot 1) := rfl
  rw [Memory.disableLoop_skip (Or.inl rfl), next,
    Memory.disableLoop_middle rfl (by decide) (by decide) (by decide), reserveMiddle_second]

/-- The cut of the third reservation. -/
theorem reserveFront_third :
    Memory.reserveFront (ofList secondTable) (slot 3) 0x100000 = some (ofList bootTable) := by
  let shortened : List MemVirtRgn :=
    [⟨none, .disabled, 0, 0x3ffff, some (slot 2)⟩,
      ⟨some (slot 2), .disabled, 0x80000, 0x40000, some (slot 3)⟩,
      ⟨some (slot 0), .free, 0x40000, 0x3ffff, some (slot 1)⟩,
      ⟨some (slot 1), .free, 0xc0000, 0x3ffff, none⟩]
  have cut : (ofList secondTable).modify (slot 3)
      (fun r => { r with length := u32Sub (u32Sub 0x100000 1) r.base }) = ofList shortened :=
    Regions.modify_ofList secondTable 3 (by decide) (by decide) _
  have scan : (ofList shortened).getUnused = some (slot 4) :=
    Regions.getUnused_ofList shortened (by decide) (by decide)
  have taken : ∀ rgn, (ofList shortened).modify (slot 4) (fun _ => rgn) = ofList (shortened ++ [rgn]) :=
    Regions.append_ofList shortened (by decide)
  have before : ofList secondTable (slot 3) = ⟨some (slot 1), .free, 0xc0000, 0x40001, none⟩ := rfl
  have after : ofList shortened (slot 3) = ⟨some (slot 1), .free, 0xc0000, 0x3ffff, none⟩ := rfl
  simp only [Memory.reserveFront, cut, scan, taken, before, after, Regions.modifyAt]
  exact congrArg some (Regions.modify_ofList (shortened ++ [_]) 3 (by decide) (by decide) _)

theorem reserve_third {fuel : Nat} (enough : 6 ≤ fuel) :
    Memory.disableLoop 0xc0000 0x40000 0x100000 fuel (some (slot 0)) (ofList secondTable) =
      some (ofList bootTable) := by
  obtain ⟨rest, rfl⟩ := Nat.exists_eq_add_of_le' enough
  have second : (ofList secondTable (slot 0)).next = some (slot 2) := rfl
  have third : (ofList secondTable (slot 2)).next = some (slot 1) := rfl
  have fourth : (ofList secondTable (slot 1)).next = some (slot 3) := rfl
  rw [Memory.disableLoop_skip (Or.inl rfl), second,
    Memory.disableLoop_skip (Or.inr (Or.inr (by decide))), third,
    Memory.disableLoop_skip (Or.inl rfl), fourth,
    Memory.disableLoop_front rfl (by decide) (by decide) (by decide), reserveFront_third,
    Option.bind_some]
  have fifth : (ofList bootTable (slot 3)).next = some (slot 4) := rfl
  have last : (ofList bootTable (slot 4)).next = none := rfl
  rw [fifth, Memory.disableLoop_skip (Or.inr (Or.inl (by decide))), last]
  rfl

/-! ## The table after boot -/

/-- The slots in the order of the list. -/
def bootSlots : List Slot := [slot 0, slot 2, slot 1, slot 3, slot 4]

/-- The region table is the one that `sysinit` leaves. -/
structure Booted (memory : Memory) : Prop where
  rgns : memory.mRgns = ofList bootTable
  first : memory.mFirstRgn = some (slot 0)

/-- One of the three calls, which all reserve 1 GiB. -/
theorem disableVirtual_eq {memory : Memory} {addr page endaddr : Nat} {rgns : Regions}
    (location : addr = page * 0x1000) (ends : u32 (page + 0x40000) = endaddr)
    (loop : Memory.disableLoop page 0x40000 endaddr (memMaxVirtRgns + 1) memory.mFirstRgn
      memory.mRgns = some rgns) :
    memory.disableVirtual addr 0x40000000 = some { memory with mRgns := rgns } := by
  have count : alignUp 0x40000000 0x1000 / 0x1000 = 0x40000 := by decide
  have first : addr / 0x1000 = page := by omega
  have aligned : ¬ addr % 0x1000 ≠ 0 := by omega
  unfold Memory.disableVirtual
  simp only [count, first, ends, loop, if_neg aligned, Option.map_some]

/-- The three reservations on the table of `preinit`. -/
theorem reserve_all {memory : Memory} (first : memory.mFirstRgn = some (slot 0))
    (table : memory.mRgns = ofList emptyTable) :
    ((memory.disableVirtual 0 0x40000000).bind fun memory =>
      (memory.disableVirtual 0x80000000 0x40000000).bind fun memory =>
        memory.disableVirtual 0xc0000000 0x40000000) =
      some { memory with mRgns := ofList bootTable } := by
  have one : memory.disableVirtual 0 0x40000000 = some { memory with mRgns := ofList firstTable } :=
    disableVirtual_eq (by decide) (show u32 (0 + 0x40000) = 0x40000 by decide)
      (by rw [first, table]; exact reserve_first (by decide))
  have two : Memory.disableVirtual { memory with mRgns := ofList firstTable } 0x80000000 0x40000000 =
      some { memory with mRgns := ofList secondTable } :=
    disableVirtual_eq (by decide) (show u32 (0x80000 + 0x40000) = 0xc0000 by decide)
      (by rw [first]; exact reserve_second (by decide))
  have three : Memory.disableVirtual { memory with mRgns := ofList secondTable } 0xc0000000 0x40000000 =
      some { memory with mRgns := ofList bootTable } :=
    disableVirtual_eq (by decide) (show u32 (0xc0000 + 0x40000) = 0x100000 by decide)
      (by rw [first]; exact reserve_third (by decide))
  rw [one, Option.bind_some, two, Option.bind_some, three]

/-- The state after the frames have been reserved, before the ranges are. -/
def framesReserved (memory : Memory) (rgns : List MemBiosRgn) : Memory :=
  (({ memory with mPaging := Paging.init pagingAddr memory.mPaging }).preinit rgns).disablePhysical
    0 sizeofKernelData

theorem framesReserved_mFirstRgn (memory : Memory) (rgns : List MemBiosRgn) :
    (framesReserved memory rgns).mFirstRgn = some (slot 0) := by
  rw [framesReserved, Memory.disablePhysical_mFirstRgn, Memory.preinit_mFirstRgn]
  rfl

theorem framesReserved_mRgns (memory : Memory) (rgns : List MemBiosRgn) :
    (framesReserved memory rgns).mRgns = ofList emptyTable := by
  rw [framesReserved, Memory.disablePhysical_mRgns, Memory.preinit_mRgns, initialRgns_eq]

theorem sysinit_eq (memory : Memory) (rgns : List MemBiosRgn) :
    sysinit memory rgns = some { framesReserved memory rgns with mRgns := ofList bootTable } :=
  reserve_all (framesReserved_mFirstRgn memory rgns) (framesReserved_mRgns memory rgns)

section Sysinit

variable {memory booted : Memory} {rgns : List MemBiosRgn} (boots : sysinit memory rgns = some booted)

include boots

theorem booted_eq : booted = { framesReserved memory rgns with mRgns := ofList bootTable } :=
  (Option.some.inj ((sysinit_eq memory rgns).symm.trans boots)).symm

theorem sysinit_mPages : booted.mPages = (framesReserved memory rgns).mPages := by
  rw [booted_eq boots]

theorem Booted.of_sysinit : Booted booted :=
  ⟨congrArg Memory.mRgns (booted_eq boots),
    (congrArg Memory.mFirstRgn (booted_eq boots)).trans (framesReserved_mFirstRgn memory rgns)⟩

/-- Booting maps no pages. -/
theorem sysinit_mapCalls : booted.mapCalls = memory.mapCalls := by
  rw [booted_eq boots, framesReserved, Memory.disablePhysical_mapCalls, Memory.preinit_mapCalls]

theorem sysinit_tlb : booted.tlb = memory.tlb := by
  rw [booted_eq boots, framesReserved, Memory.disablePhysical_tlb, Memory.preinit_tlb]

theorem sysinit_mPaging : booted.mPaging = Paging.init pagingAddr memory.mPaging := by
  rw [booted_eq boots, framesReserved, Memory.disablePhysical_mPaging, Memory.preinit_mPaging]

/-- The frames available after boot are those that the firmware's table marks,
without the frames below the size of `kernel_data`. -/
theorem mem_freeFrames_sysinit (short : rgns.length ≤ memMaxBiosRgns) (frame : Nat) :
    frame ∈ booted.freeFrames ↔
      0x1e23 ≤ frame ∧ ∃ rgn ∈ rgns, rgn.Rounds (frame * 0x1000) := by
  have last : Memory.maxPage 0 sizeofKernelData = 0x1e23 := by
    rw [sizeofKernelData_eq]
    decide
  have marked : frame ∈ ({ memory with mPaging := Paging.init pagingAddr memory.mPaging }.preinit
      rgns).freeFrames ↔ _ := Memory.mem_freeFrames_preinit short frame
  rw [Memory.mem_freeFrames] at marked
  rw [Memory.mem_freeFrames, sysinit_mPages boots, framesReserved, Memory.test_disablePhysical, last,
    ← marked]
  constructor
  · rintro ⟨inRange, outside, isMarked⟩
    exact ⟨by omega, inRange, isMarked⟩
  · rintro ⟨above, inRange, isMarked⟩
    exact ⟨inRange, by omega, isMarked⟩

end Sysinit

/-- A slot in use after boot is one of the five. -/
theorem bootTable_cases {other : Slot} (inUse : (ofList bootTable other).type ≠ .none) :
    other = slot 0 ∨ other = slot 1 ∨ other = slot 2 ∨ other = slot 3 ∨ other = slot 4 := by
  have listed : other.val < bootTable.length := by
    by_contra behind
    rw [ofList, List.getD_eq_default _ _ (Nat.not_lt.mp behind)] at inUse
    exact inUse rfl
  have five : bootTable.length = 5 := rfl
  simp only [Regions.slot_eq_iff (show 0 < memMaxVirtRgns by decide),
    Regions.slot_eq_iff (show 1 < memMaxVirtRgns by decide),
    Regions.slot_eq_iff (show 2 < memMaxVirtRgns by decide),
    Regions.slot_eq_iff (show 3 < memMaxVirtRgns by decide),
    Regions.slot_eq_iff (show 4 < memMaxVirtRgns by decide)]
  omega

/-- The regions are in order, with gaps, and reach one page past the tables. -/
theorem Booted.arranged {memory : Memory} (booted : Booted memory) :
    memory.Arranged (· ≤ ·) 0x100001 bootSlots := by
  refine ⟨⟨?_, ?_⟩, ?_, ?_⟩
  · rw [booted.rgns, booted.first]
    exact ⟨rfl, rfl, rfl, rfl, rfl, rfl⟩
  · rw [booted.rgns]
    intro other
    constructor
    · intro inUse
      rcases bootTable_cases inUse with rfl | rfl | rfl | rfl | rfl <;> decide
    · intro listed
      simp only [bootSlots, List.mem_cons, List.not_mem_nil, or_false] at listed
      rcases listed with rfl | rfl | rfl | rfl | rfl <;> exact MemVirtRgnType.noConfusion
  · rw [booted.rgns]
    exact ⟨by decide, by decide, by decide, by decide, by decide, by decide, by decide, by decide,
      by decide, by decide, Nat.le_refl 0x100001⟩
  · rw [booted.rgns]
    decide

/-- The first request after boot is served from the window. -/
theorem Booted.findRgn_fits {memory : Memory} (booted : Booted memory) {pages : Nat}
    (enough : pages ≤ 0x3ffff) : memory.findRgn (Memory.fits pages) = some (some (slot 2)) := by
  have reserved : Memory.fits pages (memory.mRgns (slot 0)) = false := by
    rw [booted.rgns]
    rfl
  have fitting : Memory.fits pages (memory.mRgns (slot 2)) = true := by
    rw [booted.rgns]
    exact Memory.fits_iff.mpr ⟨rfl, enough⟩
  rw [booted.arranged.findRgn_eq]
  simp only [bootSlots, List.find?_cons, reserved, fitting]

/-- The frames available after boot when the firmware reports one range. -/
theorem mem_freeFrames_single {memory booted : Memory} {rgn : MemBiosRgn}
    (boots : sysinit memory [rgn] = some booted) (counts : rgn.Counts) (frame : Nat) :
    frame ∈ booted.freeFrames ↔ 0x1e23 ≤ frame ∧
      rgn.base.toNat / 0x1000 ≤ frame ∧ frame < (rgn.limit + 0xfff) / 0x1000 := by
  have short : [rgn].length ≤ memMaxBiosRgns := by
    rw [List.length_singleton]
    decide
  rw [mem_freeFrames_sysinit boots short, List.exists_mem_cons_iff, MemBiosRgn.Rounds,
    and_iff_right counts]
  simp only [List.not_mem_nil, false_and, exists_false, or_false]
  omega

/-- A machine with 64 MiB of memory. -/
def sixtyFourMiB : List MemBiosRgn := [⟨0x100000, 0x3f00000, .usable⟩]

theorem mem_freeFrames_sixtyFourMiB {memory booted : Memory}
    (boots : sysinit memory sixtyFourMiB = some booted) (frame : Nat) :
    frame ∈ booted.freeFrames ↔ 0x1e23 ≤ frame ∧ frame < 0x4000 := by
  rw [mem_freeFrames_single boots ⟨rfl, by decide, by decide, by decide⟩,
    show (0x100000 : BitVec 64).toNat = 0x100000 by decide,
    show MemBiosRgn.limit ⟨0x100000, 0x3f00000, .usable⟩ = 0x4000000 by decide]
  omega

/-- A machine with 2 GiB of memory. -/
def twoGiB : List MemBiosRgn := [⟨0x100000, 0x7ff00000, .usable⟩]

theorem mem_freeFrames_twoGiB {memory booted : Memory}
    (boots : sysinit memory twoGiB = some booted) (frame : Nat) :
    frame ∈ booted.freeFrames ↔ 0x1e23 ≤ frame ∧ frame < 0x80000 := by
  rw [mem_freeFrames_single boots ⟨rfl, by decide, by decide, by decide⟩,
    show (0x100000 : BitVec 64).toNat = 0x100000 by decide,
    show MemBiosRgn.limit ⟨0x100000, 0x7ff00000, .usable⟩ = 0x80000000 by decide]
  omega

end Boot

end WeakOS
