import Mathlib
import WeakOS.X86.Memory

namespace X86

/-!
# Ranges of memory

What a range is overwritten with, byte by byte.  The string instructions with
the direction flag clear, and loops of programs that do the same, overwrite a
range; a copy does so when its source is not overwritten before it is read.
-/

/-- Put new bytes into a range. -/
def overwrite (base : BitVec 32) (count : Nat) (bytes : Nat → BitVec 8) (mem : Mem) : Mem :=
  fun addr => if (addr - base).toNat < count then bytes (addr - base).toNat else mem addr

/-- No address of the first range belongs to the second one.  Either may be empty. -/
def NoOverlap (first : BitVec 32) (count : Nat) (second : BitVec 32) (size : Nat) : Prop :=
  ∀ addr, (addr - first).toNat < count → size ≤ (addr - second).toNat

section Overwrite

variable {base addr other : BitVec 32} {count size : Nat} {bytes : Nat → BitVec 8} {mem : Mem}

theorem overwrite_inside (inside : (addr - base).toNat < count) :
    overwrite base count bytes mem addr = bytes (addr - base).toNat :=
  if_pos inside

theorem overwrite_outside (outside : count ≤ (addr - base).toNat) :
    overwrite base count bytes mem addr = mem addr :=
  if_neg (Nat.not_lt.mpr outside)

@[simp] theorem overwrite_zero : overwrite base 0 bytes mem = mem := by
  funext addr
  exact overwrite_outside (Nat.zero_le _)

/-- A range that does not overlap keeps its bytes. -/
theorem overwrite_noOverlap (apart : NoOverlap base count other size)
    (inside : (addr - other).toNat < size) : overwrite base count bytes mem addr = mem addr :=
  overwrite_outside (Nat.not_lt.mp (fun within => Nat.not_le.mpr inside (apart addr within)))

theorem NoOverlap.mono {fewer : Nat} (apart : NoOverlap base count other size)
    (less : fewer ≤ count) : NoOverlap base fewer other size :=
  fun addr within => apart addr (Nat.lt_of_lt_of_le within less)

/-- Without their first bytes, the ranges do not overlap either. -/
theorem NoOverlap.tail (apart : NoOverlap base (count + 1) other (size + 1)) :
    NoOverlap (base + 1) count (other + 1) size := by
  intro addr inside
  have beyond := apart addr (by bv_omega)
  bv_omega

theorem overwrite_congr {bytes' : Nat → BitVec 8} (same : ∀ i < count, bytes i = bytes' i) :
    overwrite base count bytes mem = overwrite base count bytes' mem := by
  funext addr
  by_cases inside : (addr - base).toNat < count
  · rw [overwrite_inside inside, overwrite_inside inside, same _ inside]
  · rw [overwrite_outside (Nat.not_lt.mp inside), overwrite_outside (Nat.not_lt.mp inside)]

/-- The first byte, and then the others. -/
theorem overwrite_succ (small : count < 2 ^ 32) : overwrite base (count + 1) bytes mem =
    overwrite (base + 1) count (fun i => bytes (i + 1)) (Function.update mem base (bytes 0)) := by
  funext addr
  by_cases first : addr = base
  · rw [first, overwrite_inside (by rw [sub_self]; exact Nat.succ_pos count), sub_self,
      overwrite_outside (by bv_omega), Function.update_self]
    rfl
  · have next : (addr - base).toNat = (addr - (base + 1)).toNat + 1 := by bv_omega
    by_cases inside : (addr - (base + 1)).toNat < count
    · rw [overwrite_inside (by omega), overwrite_inside inside, next]
    · rw [overwrite_outside (by omega), overwrite_outside (by omega),
        Function.update_of_ne first]

/-- Two parts of a range. -/
theorem overwrite_add {rest : Nat} (small : count + rest ≤ 2 ^ 32) :
    overwrite (base + BitVec.ofNat 32 count) rest (fun i => bytes (count + i))
      (overwrite base count bytes mem) = overwrite base (count + rest) bytes mem := by
  induction count generalizing base bytes mem with
  | zero => simp only [Nat.zero_add, overwrite_zero, BitVec.add_zero]
  | succ count inductionHypothesis =>
      have address : base + BitVec.ofNat 32 (count + 1) = base + 1 + BitVec.ofNat 32 count := by
        rw [Nat.add_comm, BitVec.ofNat_add, add_assoc]
        rfl
      have total : count + 1 + rest = count + rest + 1 := by omega
      rw [address, overwrite_succ (by omega), total, overwrite_succ (by omega),
        ← inductionHypothesis (by omega)]
      exact overwrite_congr (fun i _ => by rw [Nat.add_right_comm])

end Overwrite

/-! ## String instructions -/

/-- `rep stosb` with the direction flag clear. -/
def repStosb (al : BitVec 8) : (ecx : Nat) → (edi : BitVec 32) → Mem → Mem
  | 0, _, mem => mem
  | ecx + 1, edi, mem => repStosb al ecx (edi + 1) (Function.update mem edi al)

/-- `rep stosd` with the direction flag clear. -/
def repStosd (eax : BitVec 32) : (ecx : Nat) → (edi : BitVec 32) → Mem → Mem
  | 0, _, mem => mem
  | ecx + 1, edi, mem => repStosd eax ecx (edi + 4) (write32 mem edi eax)

/-- `rep movsb` with the direction flag clear. -/
def repMovsb : (ecx : Nat) → (esi edi : BitVec 32) → Mem → Mem
  | 0, _, _, mem => mem
  | ecx + 1, esi, edi, mem => repMovsb ecx (esi + 1) (edi + 1) (Function.update mem edi (mem esi))

section Strings

variable {count : Nat} {mem : Mem}

theorem repStosb_eq (al : BitVec 8) (edi : BitVec 32) (small : count ≤ 2 ^ 32) :
    repStosb al count edi mem = overwrite edi count (fun _ => al) mem := by
  induction count generalizing edi mem with
  | zero => exact overwrite_zero.symm
  | succ count inductionHypothesis =>
      rw [repStosb, inductionHypothesis _ (by omega), overwrite_succ (by omega)]

theorem repStosd_eq (eax edi : BitVec 32) (small : 4 * count ≤ 2 ^ 32) :
    repStosd eax count edi mem =
      overwrite edi (4 * count) (fun i => eax.extractLsb' (8 * (i % 4)) 8) mem := by
  induction count generalizing edi mem with
  | zero => exact overwrite_zero.symm
  | succ count inductionHypothesis =>
      have total : 4 * (count + 1) = 4 + 4 * count := by omega
      have stored : write32 mem edi eax =
          overwrite edi 4 (fun i => eax.extractLsb' (8 * i) 8) mem := rfl
      have word : write32 mem edi eax =
          overwrite edi 4 (fun i => eax.extractLsb' (8 * (i % 4)) 8) mem :=
        stored.trans (overwrite_congr (fun i inside => by rw [Nat.mod_eq_of_lt inside]))
      rw [repStosd, inductionHypothesis _ (by omega), word, total, ← overwrite_add (by omega)]
      exact overwrite_congr (fun i _ => by rw [Nat.add_mod_left])

/-- A copy from a range that is not overwritten. -/
theorem repMovsb_eq {esi edi : BitVec 32} (small : count ≤ 2 ^ 32)
    (apart : NoOverlap edi count esi count) :
    repMovsb count esi edi mem =
      overwrite edi count (fun i => mem (esi + BitVec.ofNat 32 i)) mem := by
  induction count generalizing esi edi mem with
  | zero => exact overwrite_zero.symm
  | succ count inductionHypothesis =>
      rw [repMovsb, inductionHypothesis (by omega) apart.tail, overwrite_succ (by omega), BitVec.add_zero]
      refine overwrite_congr (fun i inside => ?_)
      have address : esi + 1 + BitVec.ofNat 32 i = esi + BitVec.ofNat 32 (i + 1) := by
        rw [Nat.add_comm, BitVec.ofNat_add, add_assoc]
        rfl
      have differs : esi + BitVec.ofNat 32 (i + 1) ≠ edi := by
        intro same
        have beyond := apart edi (by rw [sub_self]; exact Nat.succ_pos count)
        rw [← same, add_sub_cancel_left, BitVec.toNat_ofNat, Nat.mod_eq_of_lt (by omega)] at beyond
        omega
      rw [address, Function.update_of_ne differs]

end Strings

end X86
