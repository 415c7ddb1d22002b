import Mathlib
import WeakOS.Memory.RegionTable

namespace WeakOS

open Foundation

/-!
# The state after `preinit`

The firmware's table decides which frames are marked as available.  The code
rounds the bounds of a usable entry outward to whole frames, in arithmetic of
32 bits: an entry whose end lies above the last frame boundary of the 4 GiB
marks nothing at all.

The region table does not depend on the firmware: it is one free region.
-/

/-- The bytes that the entry reports. -/
def MemBiosRgn.Covers (rgn : MemBiosRgn) (byte : Nat) : Prop :=
  rgn.base.toNat ≤ byte ∧ byte < rgn.base.toNat + rgn.length.toNat

/-- The end of the entry, a sum of two `uint64_t`. -/
def MemBiosRgn.limit (rgn : MemBiosRgn) : Nat := (rgn.base + rgn.length).toNat

/-- The entry is usable, and its bounds are ones that the code rounds to a
range of frames. -/
structure MemBiosRgn.Counts (rgn : MemBiosRgn) : Prop where
  usable : rgn.type = .usable
  nonempty : rgn.length ≠ 0
  low : rgn.base.toNat < 2 ^ 32
  reach : rgn.limit ≤ 0xfffff000

/-- The byte lies in the range of frames that the entry is rounded to. -/
def MemBiosRgn.Rounds (rgn : MemBiosRgn) (byte : Nat) : Prop :=
  rgn.Counts ∧ rgn.base.toNat / 0x1000 * 0x1000 ≤ byte ∧
    byte < (rgn.limit + 0xfff) / 0x1000 * 0x1000

namespace Memory

/-- The frames that the loops over a byte range visit. -/
theorem maxPage_eq {base length : Nat} (bound : u32 (base + length) ≤ 0xfffff000) :
    maxPage base length = (u32 (base + length) + 0xfff) / 0x1000 :=
  Word.alignUp_div (by decide) (by omega)

/-- Past the last frame boundary the rounded end is zero. -/
theorem maxPage_wraps {base length : Nat} (bound : 0xfffff000 < u32 (base + length)) :
    maxPage base length = 0 := by
  have small : u32 (base + length) < 2 ^ 32 := Word.wrap_lt 32 _
  have rounded : alignUp (u32 (base + length)) 0x1000 = 0 := by
    unfold alignUp Word.alignUp
    rw [if_pos (by omega), show u32 (base + length) - u32 (base + length) % 0x1000 + 0x1000 = 2 ^ 32
      by omega]
    rfl
  rw [maxPage, rounded]

theorem test_enablePhysical (memory : Memory) (base length frame : Nat) :
    Bitmap.test (memory.enablePhysical base length).mPages frame = true ↔
      (base / 0x1000 ≤ frame ∧ frame < maxPage base length) ∨
        Bitmap.test memory.mPages frame = true := by
  simp only [enablePhysical, forFrames, Bitmap.test_forRange_set, Bool.or_eq_true, decide_eq_true_eq]
  refine or_congr_left ?_
  omega

theorem test_disablePhysical (memory : Memory) (base length frame : Nat) :
    Bitmap.test (memory.disablePhysical base length).mPages frame = true ↔
      ¬ (base / 0x1000 ≤ frame ∧ frame < maxPage base length) ∧
        Bitmap.test memory.mPages frame = true := by
  simp only [disablePhysical, forFrames, Bitmap.test_forRange_clear, Bool.and_eq_true,
    decide_eq_true_eq]
  refine and_congr_left (fun _ => not_congr ?_)
  omega

@[simp] theorem disablePhysical_mRgns (memory : Memory) (base length : Nat) :
    (memory.disablePhysical base length).mRgns = memory.mRgns := rfl

@[simp] theorem disablePhysical_mFirstRgn (memory : Memory) (base length : Nat) :
    (memory.disablePhysical base length).mFirstRgn = memory.mFirstRgn := rfl

@[simp] theorem disablePhysical_mPaging (memory : Memory) (base length : Nat) :
    (memory.disablePhysical base length).mPaging = memory.mPaging := rfl

@[simp] theorem disablePhysical_tlb (memory : Memory) (base length : Nat) :
    (memory.disablePhysical base length).tlb = memory.tlb := rfl

@[simp] theorem disablePhysical_mapCalls (memory : Memory) (base length : Nat) :
    (memory.disablePhysical base length).mapCalls = memory.mapCalls := rfl

theorem above_iff (value : BitVec 64) : 0xffffffff < value ↔ 2 ^ 32 ≤ value.toNat := by
  rw [BitVec.lt_def, show (0xffffffff : BitVec 64).toNat = 2 ^ 32 - 1 from rfl]
  omega

/-- The end that `preinit` passes on for an entry that begins below 4 GiB: the
entry's own end, or zero when that was cut off. -/
theorem clipRgn_end {rgn : MemBiosRgn} (low : rgn.base.toNat < 2 ^ 32) :
    u32 ((clipRgn rgn).base.toNat % 2 ^ 32 + (clipRgn rgn).length.toNat % 2 ^ 32) =
      if rgn.limit < 2 ^ 32 then rgn.limit else 0 := by
  have sum : rgn.limit = (rgn.base.toNat + rgn.length.toNat) % 2 ^ 64 := BitVec.toNat_add _ _
  unfold clipRgn
  by_cases clipped : 0xffffffff < rgn.base + rgn.length
  · have above : 2 ^ 32 ≤ rgn.limit := (above_iff _).mp clipped
    have rest : (0xffffffff - rgn.base + 1).toNat = 2 ^ 32 - rgn.base.toNat := by
      rw [BitVec.toNat_add, BitVec.toNat_sub, show (0xffffffff : BitVec 64).toNat = 2 ^ 32 - 1 from rfl,
        show (1 : BitVec 64).toNat = 1 from rfl]
      omega
    simp only [if_pos clipped, if_neg (Nat.not_lt.mpr above), rest, u32, Word.wrap]
    omega
  · have below : ¬ 2 ^ 32 ≤ rgn.limit := fun above => clipped ((above_iff _).mpr above)
    rw [if_neg clipped, if_pos (by omega), u32, Word.wrap]
    omega

theorem clipRgn_base (rgn : MemBiosRgn) : (clipRgn rgn).base = rgn.base := by
  unfold clipRgn
  split <;> rfl

/-- The frames that `enable_physical` visits for an entry. -/
theorem visits_iff {rgn : MemBiosRgn} (usable : rgn.type = .usable) (nonempty : rgn.length ≠ 0)
    (low : rgn.base.toNat < 2 ^ 32) (frame : Nat) :
    ((clipRgn rgn).base.toNat % 2 ^ 32 / 0x1000 ≤ frame ∧
        frame < maxPage ((clipRgn rgn).base.toNat % 2 ^ 32) ((clipRgn rgn).length.toNat % 2 ^ 32)) ↔
      rgn.Rounds (frame * 0x1000) := by
  have sum := clipRgn_end low
  have first : (clipRgn rgn).base.toNat % 2 ^ 32 = rgn.base.toNat := by
    rw [clipRgn_base, Nat.mod_eq_of_lt low]
  by_cases reach : rgn.limit ≤ 0xfffff000
  · have counts : rgn.Counts := ⟨usable, nonempty, low, reach⟩
    rw [if_pos (by omega)] at sum
    rw [maxPage_eq (by rw [sum]; exact reach), sum, first, MemBiosRgn.Rounds, and_iff_right counts]
    omega
  · have nothing : maxPage ((clipRgn rgn).base.toNat % 2 ^ 32)
        ((clipRgn rgn).length.toNat % 2 ^ 32) = 0 := by
      by_cases clipped : rgn.limit < 2 ^ 32
      · rw [if_pos clipped] at sum
        exact maxPage_wraps (by rw [sum]; omega)
      · rw [if_neg clipped] at sum
        rw [maxPage_eq (by rw [sum]; decide), sum]
    rw [nothing]
    exact iff_of_false (fun visited => Nat.not_lt_zero _ visited.2) (fun rounds => reach rounds.1.reach)

/-- One entry of the firmware's table marks the frames it is rounded to. -/
theorem test_enableRgn (memory : Memory) (rgn : MemBiosRgn) (frame : Nat) :
    Bitmap.test (memory.enableRgn rgn).mPages frame = true ↔
      rgn.Rounds (frame * 0x1000) ∨ Bitmap.test memory.mPages frame = true := by
  have skipped : ¬ rgn.Counts → (Bitmap.test memory.mPages frame = true ↔
      rgn.Rounds (frame * 0x1000) ∨ Bitmap.test memory.mPages frame = true) :=
    fun ignored => (or_iff_right (fun rounds => ignored rounds.1)).symm
  unfold enableRgn
  by_cases usable : rgn.type = .usable
  · rw [if_neg (not_not.mpr usable)]
    by_cases empty : rgn.length = 0
    · rw [if_pos empty]
      exact skipped (fun counts => counts.nonempty empty)
    · rw [if_neg empty]
      by_cases high : 0xffffffff < rgn.base
      · rw [if_pos high]
        have above := (above_iff _).mp high
        exact skipped (fun counts => Nat.not_lt.mpr above counts.low)
      · have low : rgn.base.toNat < 2 ^ 32 :=
          Nat.not_le.mp (fun above => high ((above_iff _).mpr above))
        rw [if_neg high, test_enablePhysical]
        exact or_congr_left (visits_iff usable empty low frame)
  · rw [if_pos usable]
    exact skipped (fun counts => usable counts.usable)

/-- Marking frames changes nothing else. -/
theorem enableRgn_keeps (memory : Memory) (rgn : MemBiosRgn) :
    memory.enableRgn rgn = { memory with mPages := (memory.enableRgn rgn).mPages } := by
  unfold enableRgn
  split_ifs <;> rfl

theorem foldl_enableRgn_keeps (memory : Memory) (rgns : List MemBiosRgn) :
    rgns.foldl enableRgn memory = { memory with mPages := (rgns.foldl enableRgn memory).mPages } := by
  induction rgns generalizing memory with
  | nil => rfl
  | cons rgn rest inductionHypothesis =>
      rw [List.foldl_cons, inductionHypothesis (memory.enableRgn rgn), enableRgn_keeps memory rgn]

theorem test_foldl_enableRgn (memory : Memory) (rgns : List MemBiosRgn) (frame : Nat) :
    Bitmap.test (rgns.foldl enableRgn memory).mPages frame = true ↔
      (∃ rgn ∈ rgns, rgn.Rounds (frame * 0x1000)) ∨ Bitmap.test memory.mPages frame = true := by
  induction rgns generalizing memory with
  | nil => simp
  | cons rgn rest inductionHypothesis =>
      rw [List.foldl_cons, inductionHypothesis, test_enableRgn, List.exists_mem_cons_iff, or_assoc,
        or_left_comm]

/-- The entries that count are those of the firmware: the padding is of type
`bad`. -/
theorem exists_loadBiosRgns {rgns : List MemBiosRgn} (short : rgns.length ≤ memMaxBiosRgns)
    (byte : Nat) :
    (∃ rgn ∈ loadBiosRgns rgns, rgn.Rounds byte) ↔ ∃ rgn ∈ rgns, rgn.Rounds byte := by
  have whole : loadBiosRgns rgns =
      rgns ++ List.replicate (memMaxBiosRgns - rgns.length) ⟨0, 0, .bad⟩ := by
    refine List.take_of_length_le ?_
    rw [List.length_append, List.length_replicate]
    omega
  rw [whole]
  constructor
  · rintro ⟨rgn, member, rounds⟩
    rcases List.mem_append.mp member with listed | padded
    · exact ⟨rgn, listed, rounds⟩
    · have bad := List.eq_of_mem_replicate padded
      have usable := rounds.1.usable
      rw [bad] at usable
      cases usable
  · rintro ⟨rgn, listed, rounds⟩
    exact ⟨rgn, List.mem_append_left _ listed, rounds⟩

/-- The region table that `preinit` sets up. -/
def initialRgns : Regions :=
  Regions.modify (fun _ => MemVirtRgn.zero) 0
    (fun rgn => { rgn with type := .free, length := memPageCount })

/-- The state on which `preinit` runs its loop. -/
def cleared (memory : Memory) : Memory :=
  { memory with
    mPages := fun byte => if byte < memPageCount / 8 then 0 else memory.mPages byte
    mRgns := fun _ => MemVirtRgn.zero }

theorem preinit_eq (memory : Memory) (rgns : List MemBiosRgn) :
    memory.preinit rgns =
      { memory with
        mPages := ((loadBiosRgns rgns).foldl enableRgn memory.cleared).mPages
        mRgns := initialRgns
        mFirstRgn := some 0 } := by
  have keeps := foldl_enableRgn_keeps memory.cleared (loadBiosRgns rgns)
  show { (loadBiosRgns rgns).foldl enableRgn memory.cleared with
    mFirstRgn := some 0
    mRgns := ((loadBiosRgns rgns).foldl enableRgn memory.cleared).mRgns.modify 0
      (fun rgn => { rgn with type := .free, length := memPageCount }) } = _
  rw [keeps]
  rfl

@[simp] theorem preinit_mRgns (memory : Memory) (rgns : List MemBiosRgn) :
    (memory.preinit rgns).mRgns = initialRgns := by
  rw [preinit_eq]

@[simp] theorem preinit_mFirstRgn (memory : Memory) (rgns : List MemBiosRgn) :
    (memory.preinit rgns).mFirstRgn = some 0 := by
  rw [preinit_eq]

@[simp] theorem preinit_mPaging (memory : Memory) (rgns : List MemBiosRgn) :
    (memory.preinit rgns).mPaging = memory.mPaging := by
  rw [preinit_eq]

@[simp] theorem preinit_tlb (memory : Memory) (rgns : List MemBiosRgn) :
    (memory.preinit rgns).tlb = memory.tlb := by
  rw [preinit_eq]

@[simp] theorem preinit_mapCalls (memory : Memory) (rgns : List MemBiosRgn) :
    (memory.preinit rgns).mapCalls = memory.mapCalls := by
  rw [preinit_eq]

/-- The bitmap starts out with no frame available. -/
theorem test_cleared (memory : Memory) {frame : Nat} (inRange : frame < memPageCount) :
    Bitmap.test memory.cleared.mPages frame = false := by
  have pageCount := memPageCount_eq
  have byte : memory.cleared.mPages (frame / 8) = 0 := if_pos (by omega)
  unfold Bitmap.test
  rw [byte]
  exact bne_eq_false_iff_eq.mpr (BitVec.zero_and)

/-- A frame is available after `preinit` when an entry is rounded over it. -/
theorem mem_freeFrames_preinit {memory : Memory} {rgns : List MemBiosRgn}
    (short : rgns.length ≤ memMaxBiosRgns) (frame : Nat) :
    frame ∈ (memory.preinit rgns).freeFrames ↔ ∃ rgn ∈ rgns, rgn.Rounds (frame * 0x1000) := by
  rw [mem_freeFrames, preinit_eq, test_foldl_enableRgn, exists_loadBiosRgns short]
  constructor
  · rintro ⟨inRange, marked | before⟩
    · exact marked
    · rw [test_cleared memory inRange] at before
      cases before
  · rintro ⟨rgn, listed, rounds⟩
    have reach := rounds.1.reach
    have below := rounds.2.2
    have pageCount := memPageCount_eq
    exact ⟨by omega, Or.inl ⟨rgn, listed, rounds⟩⟩

@[simp] theorem initialRgns_zero : initialRgns 0 = ⟨none, .free, 0, memPageCount, none⟩ :=
  Regions.modify_self _ _ _

theorem initialRgns_of_ne {slot : Slot} (different : slot ≠ 0) : initialRgns slot = MemVirtRgn.zero :=
  Regions.modify_of_ne _ _ different

theorem preinit_noneUsed (memory : Memory) (rgns : List MemBiosRgn) (slot : Slot) :
    ((memory.preinit rgns).mRgns slot).type ≠ .used := by
  rw [preinit_mRgns]
  by_cases first : slot = 0
  · simp [first]
  · simp [initialRgns_of_ne first, MemVirtRgn.zero]

/-- The region table after `preinit` is one free region. -/
theorem preinit_arranged (memory : Memory) (rgns : List MemBiosRgn) :
    (memory.preinit rgns).Arranged (· = ·) memPageCount [0] := by
  have chained : Layout.Chained (· = ·) initialRgns.baseOf initialRgns.lengthOf 0 [0] memPageCount := by
    have base : initialRgns.baseOf 0 = 0 := congrArg MemVirtRgn.base initialRgns_zero
    have length : initialRgns.lengthOf 0 = memPageCount :=
      congrArg MemVirtRgn.length initialRgns_zero
    exact Layout.Chained.single base length (by rw [memPageCount_eq]; decide)
  have total := chained.span_eq
  rw [Nat.zero_add] at total
  rw [preinit_eq]
  refine ⟨⟨⟨rfl, ?_⟩, ?_⟩, chained, Nat.le_of_eq total⟩
  · simp only [initialRgns_zero]
    trivial
  · intro slot
    by_cases first : slot = 0
    · simp [first]
    · simp [initialRgns_of_ne first, first, MemVirtRgn.zero]

/-- `preinit` sets up a well-formed table. -/
theorem preinit_wellFormed (memory : Memory) (rgns : List MemBiosRgn) :
    (memory.preinit rgns).WellFormed :=
  (preinit_arranged memory rgns).wellFormed

/-- Any request that fits the address space selects the one region. -/
theorem findRgn_preinit (memory : Memory) (rgns : List MemBiosRgn) {pages : Nat}
    (enough : pages ≤ memPageCount) :
    (memory.preinit rgns).findRgn (fits pages) = some (some 0) := by
  have fitting : fits pages ((memory.preinit rgns).mRgns 0) = true := by
    rw [preinit_mRgns, fits_iff, initialRgns_zero]
    exact ⟨rfl, enough⟩
  rw [(preinit_arranged memory rgns).findRgn_eq]
  exact congrArg some (List.find?_cons_of_pos fitting)

/-- The frames that a table with one entry marks. -/
theorem freeFrames_preinit_single (memory : Memory) {rgn : MemBiosRgn} (counts : rgn.Counts) :
    (memory.preinit [rgn]).freeFrames =
      Finset.Ico (rgn.base.toNat / 0x1000) ((rgn.limit + 0xfff) / 0x1000) := by
  ext frame
  have short : [rgn].length ≤ memMaxBiosRgns := by
    rw [List.length_singleton]
    decide
  rw [mem_freeFrames_preinit short, List.exists_mem_cons_iff, MemBiosRgn.Rounds,
    and_iff_right counts, Finset.mem_Ico]
  simp only [List.not_mem_nil, false_and, exists_false, or_false]
  omega

end Memory

end WeakOS
