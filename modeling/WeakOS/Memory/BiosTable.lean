import Mathlib
import WeakOS.Memory.Preinit

namespace WeakOS

open Foundation

namespace Memory

/-!
# What the firmware's table makes available

A frame is safe to hand out when all of its bytes are reported usable and none
of them is reported otherwise.  `enable_physical` rounds a usable entry outward,
so whether `preinit` marks safe frames only depends on the bytes that the
rounding adds and on entries of other types that overlap the rounded range.

The rounding itself is exact for ranges that end at or below the last frame
boundary of the 4 GiB.  A range that ends above it has its end rounded to zero,
and neither of the two loops touches any frame.
-/

/-- Some usable entry reports the byte. -/
def ReportsUsable (rgns : List MemBiosRgn) (byte : Nat) : Prop :=
  ∃ rgn ∈ rgns, rgn.type = .usable ∧ rgn.Covers byte

/-- Some entry of another type reports the byte. -/
def ReportsOther (rgns : List MemBiosRgn) (byte : Nat) : Prop :=
  ∃ rgn ∈ rgns, rgn.type ≠ .usable ∧ rgn.Covers byte

/-- All bytes of the frame are usable memory, and nothing else. -/
def IsReal (rgns : List MemBiosRgn) (frame : Nat) : Prop :=
  ∀ byte, byte / 0x1000 = frame → ReportsUsable rgns byte ∧ ¬ ReportsOther rgns byte

/-- Rounding an entry outward is harmless: the bytes it adds are usable as
well, and no entry of another type meets the rounded entry. -/
def RoundsSafely (rgns : List MemBiosRgn) : Prop :=
  ∀ rgn ∈ rgns, ∀ byte, rgn.Rounds byte →
    (¬ rgn.Covers byte → ReportsUsable rgns byte) ∧ ¬ ReportsOther rgns byte

/-- Rounding is to whole frames. -/
theorem rounds_iff_frame (rgn : MemBiosRgn) (byte : Nat) :
    rgn.Rounds byte ↔ rgn.Rounds (byte / 0x1000 * 0x1000) := by
  unfold MemBiosRgn.Rounds
  refine and_congr_right (fun _ => ?_)
  omega

/-- Tables whose usable entries begin and end on frame boundaries and overlap
no other entry are rounded safely. -/
theorem roundsSafely_of_aligned {rgns : List MemBiosRgn}
    (aligned : ∀ rgn ∈ rgns, rgn.Counts → rgn.base.toNat % 0x1000 = 0 ∧ rgn.limit % 0x1000 = 0 ∧
      rgn.limit = rgn.base.toNat + rgn.length.toNat)
    (apart : ∀ rgn ∈ rgns, ∀ byte, rgn.type = .usable → rgn.Covers byte → ¬ ReportsOther rgns byte) :
    RoundsSafely rgns := by
  intro rgn listed byte rounds
  rcases aligned rgn listed rounds.1 with ⟨first, last, whole⟩
  have covers : rgn.Covers byte := by
    have above := rounds.2.1
    have below := rounds.2.2
    unfold MemBiosRgn.Covers
    omega
  exact ⟨fun outside => absurd covers outside, apart rgn listed byte rounds.1.usable covers⟩

/-- The frames that `preinit` marks are safe to hand out exactly when the
outward rounding is harmless. -/
theorem preinit_marks_real_frames_iff (memory : Memory) {rgns : List MemBiosRgn}
    (short : rgns.length ≤ memMaxBiosRgns) :
    (∀ frame ∈ (memory.preinit rgns).freeFrames, IsReal rgns frame) ↔ RoundsSafely rgns := by
  constructor
  · intro real rgn listed byte rounds
    have marked : byte / 0x1000 ∈ (memory.preinit rgns).freeFrames :=
      (mem_freeFrames_preinit short _).mpr ⟨rgn, listed, (rounds_iff_frame rgn byte).mp rounds⟩
    have safe := real (byte / 0x1000) marked byte rfl
    exact ⟨fun _ => safe.1, safe.2⟩
  · intro safe frame marked byte inFrame
    rcases (mem_freeFrames_preinit short _).mp marked with ⟨rgn, listed, rounds⟩
    rw [← inFrame, ← rounds_iff_frame] at rounds
    have harmless := safe rgn listed byte rounds
    refine ⟨?_, harmless.2⟩
    by_cases covers : rgn.Covers byte
    · exact ⟨rgn, listed, rounds.1.usable, covers⟩
    · exact harmless.1 covers

/-- The low memory of a machine whose firmware keeps the last kilobyte below
the video memory for itself. -/
def biosDataTable : List MemBiosRgn := [⟨0, 0x9fc00, .usable⟩, ⟨0x9fc00, 0x400, .reserved⟩]

theorem preinit_marks_real_frames_iff_biosDataTable :
    (∀ frame ∈ (Memory.zero.preinit biosDataTable).freeFrames, IsReal biosDataTable frame) ↔
      RoundsSafely biosDataTable :=
  preinit_marks_real_frames_iff Memory.zero (by decide)

/-- On that machine the frame that holds the kilobyte is marked. -/
theorem preinit_marks_reserved_frame :
    ¬ ∀ (memory : Memory) (rgns : List MemBiosRgn), rgns.length ≤ memMaxBiosRgns →
      ∀ frame ∈ (memory.preinit rgns).freeFrames, IsReal rgns frame := by
  intro real
  have short : biosDataTable.length ≤ memMaxBiosRgns := by decide
  have counts : MemBiosRgn.Counts ⟨0, 0x9fc00, .usable⟩ := ⟨rfl, by decide, by decide, by decide⟩
  have marked : 0x9f ∈ (Memory.zero.preinit biosDataTable).freeFrames :=
    (mem_freeFrames_preinit short _).mpr
      ⟨⟨0, 0x9fc00, .usable⟩, List.mem_cons_self, counts, by decide⟩
  have reserved : ReportsOther biosDataTable 0x9fc00 :=
    ⟨⟨0x9fc00, 0x400, .reserved⟩, List.mem_cons_of_mem _ List.mem_cons_self, by decide,
      by unfold MemBiosRgn.Covers; decide⟩
  exact (real Memory.zero biosDataTable short 0x9f marked 0x9fc00 (by decide)).2 reserved

/-! ## Marking a range of bytes -/

/-- The frame shares a byte with the range. -/
def Meets (base length frame : Nat) : Prop :=
  ∃ byte, byte / 0x1000 = frame ∧ base ≤ byte ∧ byte < base + length

theorem meets_iff {base length : Nat} (nonempty : 1 ≤ length) (frame : Nat) :
    Meets base length frame ↔
      base / 0x1000 ≤ frame ∧ frame < (base + length + 0xfff) / 0x1000 := by
  constructor
  · rintro ⟨byte, inFrame, above, below⟩
    omega
  · rintro ⟨above, below⟩
    -- The first byte that the frame and the range share.
    by_cases first : base / 0x1000 = frame
    · exact ⟨base, first, Nat.le_refl _, by omega⟩
    · exact ⟨frame * 0x1000, by omega, by omega, by omega⟩

/-- Exactly the frames that meet the range have been set. -/
def SetsFrames (before after : Memory) (base length : Nat) : Prop :=
  ∀ frame, Bitmap.test after.mPages frame = true ↔
    Meets base length frame ∨ Bitmap.test before.mPages frame = true

/-- Exactly the frames that meet the range have been cleared. -/
def ClearsFrames (before after : Memory) (base length : Nat) : Prop :=
  ∀ frame, Bitmap.test after.mPages frame = true ↔
    ¬ Meets base length frame ∧ Bitmap.test before.mPages frame = true

section Marking

variable {base length : Nat} (memory : Memory)

/-- Up to the last frame boundary the loops visit the frames that meet the
range. -/
theorem visits_iff_meets (nonempty : 1 ≤ length) (reach : base + length ≤ 0xfffff000) (frame : Nat) :
    (base / 0x1000 ≤ frame ∧ frame < maxPage base length) ↔ Meets base length frame := by
  have sum : u32 (base + length) = base + length := Word.wrap_of_lt (by omega)
  rw [maxPage_eq (by rw [sum]; exact reach), sum, meets_iff nonempty]

/-- Past it they visit nothing: the end is rounded to zero, whether the sum
itself wraps or only its rounding does. -/
theorem maxPage_high (reach : base + length ≤ 2 ^ 32) (high : 0xfffff000 < base + length) :
    maxPage base length = 0 := by
  by_cases whole : base + length = 2 ^ 32
  · rw [maxPage, whole]
    rfl
  · have sum : u32 (base + length) = base + length := Word.wrap_of_lt (by omega)
    exact maxPage_wraps (by rw [sum]; exact high)

theorem enablePhysical_sets (nonempty : 1 ≤ length) (reach : base + length ≤ 0xfffff000) :
    SetsFrames memory (memory.enablePhysical base length) base length := by
  intro frame
  rw [test_enablePhysical, visits_iff_meets nonempty reach]

theorem disablePhysical_clears (nonempty : 1 ≤ length) (reach : base + length ≤ 0xfffff000) :
    ClearsFrames memory (memory.disablePhysical base length) base length := by
  intro frame
  rw [test_disablePhysical, visits_iff_meets nonempty reach]

/-- A range that ends in the last frame is only marked right if it was so
before: the call changes nothing. -/
theorem test_of_sets_high (reach : base + length ≤ 2 ^ 32) (high : 0xfffff000 < base + length)
    (sets : SetsFrames memory (memory.enablePhysical base length) base length) {frame : Nat}
    (meets : Meets base length frame) : Bitmap.test memory.mPages frame = true := by
  have set : Bitmap.test (memory.enablePhysical base length).mPages frame = true :=
    (sets frame).mpr (Or.inl meets)
  rw [test_enablePhysical, maxPage_high reach high] at set
  exact set.resolve_left (fun visited => Nat.not_lt_zero _ visited.2)

theorem not_test_of_clears_high (reach : base + length ≤ 2 ^ 32) (high : 0xfffff000 < base + length)
    (clears : ClearsFrames memory (memory.disablePhysical base length) base length) {frame : Nat}
    (meets : Meets base length frame) : Bitmap.test memory.mPages frame ≠ true := by
  intro marked
  have kept : Bitmap.test (memory.disablePhysical base length).mPages frame = true := by
    rw [test_disablePhysical, maxPage_high reach high]
    exact ⟨fun visited => Nat.not_lt_zero _ visited.2, marked⟩
  exact ((clears frame).mp kept).1 meets

/-- Both loops treat exactly the frames that meet the range if and only if the
range ends at or below the last frame boundary. -/
theorem marking_exact_iff (_positive : 0 < base) (nonempty : 1 ≤ length)
    (reach : base + length ≤ 2 ^ 32) :
    (SetsFrames memory (memory.enablePhysical base length) base length ∧
        ClearsFrames memory (memory.disablePhysical base length) base length) ↔
      base + length ≤ 0xfffff000 := by
  constructor
  · rintro ⟨sets, clears⟩
    by_contra past
    have high : 0xfffff000 < base + length := Nat.not_le.mp past
    have meets : Meets base length (base / 0x1000) := ⟨base, rfl, Nat.le_refl _, by omega⟩
    exact not_test_of_clears_high memory reach high clears meets
      (test_of_sets_high memory reach high sets meets)
  · exact fun low =>
      ⟨enablePhysical_sets memory nonempty low, disablePhysical_clears memory nonempty low⟩

end Marking

theorem marking_exact_iff_lowMemory :
    (SetsFrames Memory.zero (Memory.zero.enablePhysical 0x500 0x2000) 0x500 0x2000 ∧
        ClearsFrames Memory.zero (Memory.zero.disablePhysical 0x500 0x2000) 0x500 0x2000) ↔
      0x500 + 0x2000 ≤ 0xfffff000 :=
  marking_exact_iff Memory.zero (by decide) (by decide) (by decide)

/-- A usable range that ends at 4 GiB is not marked. -/
theorem marking_not_exact : ¬ ∀ (memory : Memory) (base length : Nat), 0 < base → 1 ≤ length →
    base + length ≤ 2 ^ 32 →
      SetsFrames memory (memory.enablePhysical base length) base length ∧
        ClearsFrames memory (memory.disablePhysical base length) base length := by
  intro exact_
  have sets := (exact_ Memory.zero 0xfffff000 0x1000 (by decide) (by decide) (by decide)).1
  have unmarked := test_of_sets_high Memory.zero (by decide) (by decide) sets
    ⟨0xfffff000, rfl, Nat.le_refl _, by decide⟩
  exact absurd unmarked (by decide)

end Memory

end WeakOS
