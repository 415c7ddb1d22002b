import Mathlib
import WeakOS.Foundation.Loop
import WeakOS.Boot.Elf

namespace WeakOS

open Foundation X86

namespace Libc

/-!
# `memset`

The function with its machine words: the pointer that moves, and the size that
is counted down.  Each time the size is decreased, the size and the amount are
recorded.
-/

/-- The memory, the pointer to the next byte, and the size that is left. -/
structure Filling where
  mem : Mem
  cptr : BitVec 32
  size : BitVec 32
  decrements : List (BitVec 32 × BitVec 32)

namespace Filling

variable (value : BitVec 8) (dvalue : BitVec 32) (filling : Filling)

/-- The body of the three loops over bytes. -/
def byte : Filling where
  mem := Function.update filling.mem filling.cptr value
  cptr := filling.cptr + 1
  size := filling.size - 1
  decrements := filling.decrements ++ [(filling.size, 1)]

/-- The body of the loop over words. -/
def word : Filling where
  mem := write32 filling.mem filling.cptr dvalue
  cptr := filling.cptr + 4
  size := filling.size - 4
  decrements := filling.decrements ++ [(filling.size, 4)]

end Filling

/-- `memset`, with the pointer that it returns.  There is no result when one of the
loops makes more than `fuel` tests. -/
def memset (fuel : Nat) (ptr v size : BitVec 32) (mem : Mem) : Option (BitVec 32 × Filling) :=
  let value := v.setWidth 8
  if size < 4 then do
    let filling ← loop (fun filling => 0 < filling.size) (Filling.byte value) fuel ⟨mem, ptr, size, []⟩
    some (ptr, filling)
  else do
    let dvalue := value.setWidth 32 ||| value.setWidth 32 <<< 8 ||| value.setWidth 32 <<< 16 |||
      value.setWidth 32 <<< 24
    let filling ← loop (fun filling => filling.cptr &&& 3 = 0) (Filling.byte value) fuel
      ⟨mem, ptr, size, []⟩
    let filling ← loop (fun filling => 4 < filling.size) (Filling.word dvalue) fuel filling
    let filling ← loop (fun filling => 0 < filling.size) (Filling.byte value) fuel filling
    some (ptr, filling)

/-! ## The invariant -/

/-- What has been counted down has been filled. -/
structure Filled (value : BitVec 8) (ptr size : BitVec 32) (mem : Mem) (filling : Filling) : Prop where
  le : filling.size ≤ size
  cptr : filling.cptr = ptr + (size - filling.size)
  mem_eq : filling.mem = overwrite ptr (size - filling.size).toNat (fun _ => value) mem
  decrements : ∀ step ∈ filling.decrements, step.2 ≤ step.1

section Invariant

variable {value : BitVec 8} {ptr size : BitVec 32} {mem : Mem} {filling : Filling}

theorem Filled.start : Filled value ptr size mem ⟨mem, ptr, size, []⟩ where
  le := BitVec.le_refl size
  cptr := by rw [sub_self, add_zero]
  mem_eq := by
    rw [sub_self]
    exact overwrite_zero.symm
  decrements := nofun

/-- The next bytes are filled, no more than are left. -/
theorem Filled.more (filled : Filled value ptr size mem filling) {amount : BitVec 32}
    (room : amount ≤ filling.size) {after : Filling} (cptr : after.cptr = filling.cptr + amount)
    (left : after.size = filling.size - amount)
    (mem_eq : after.mem = overwrite filling.cptr amount.toNat (fun _ => value) filling.mem)
    (decrements : after.decrements = filling.decrements ++ [(filling.size, amount)]) :
    Filled value ptr size mem after := by
  have le := filled.le
  have advanced : size - filling.size + amount = size - (filling.size - amount) := by
    rw [sub_sub_eq_add_sub, sub_add_eq_add_sub]
  have count : (size - filling.size).toNat + amount.toNat = (size - (filling.size - amount)).toNat := by
    rw [BitVec.le_def] at le room
    rw [← advanced]
    bv_omega
  refine ⟨?_, ?_, ?_, ?_⟩
  · rw [left]
    bv_omega
  · rw [cptr, filled.cptr, left, add_assoc, advanced]
  · have bound := (size - (filling.size - amount)).isLt
    have parts := @overwrite_add ptr (size - filling.size).toNat (fun _ => value) mem amount.toNat
      (by omega)
    rw [BitVec.ofNat_toNat, BitVec.setWidth_eq] at parts
    rw [mem_eq, left, filled.mem_eq, filled.cptr, parts, count]
  · rw [decrements]
    intro step member
    rcases List.mem_append.mp member with old | new
    · exact filled.decrements step old
    · rw [List.mem_singleton.mp new]
      exact room

theorem Filled.byte (filled : Filled value ptr size mem filling) (room : 0 < filling.size) :
    Filled value ptr size mem (filling.byte value) := by
  apply filled.more (by bv_omega) rfl rfl _ rfl
  rw [Filling.byte, show (1 : BitVec 32).toNat = 0 + 1 from rfl, overwrite_succ (by decide), overwrite_zero]

theorem Filled.word (filled : Filled value ptr size mem filling) (room : 4 < filling.size)
    {dvalue : BitVec 32} (bytes : ∀ k < 4, dvalue.extractLsb' (8 * k) 8 = value) :
    Filled value ptr size mem (filling.word dvalue) := by
  apply filled.more (BitVec.le_of_lt room) rfl rfl _ rfl
  exact Elf.write32_eq bytes

end Invariant

/-! ## The loops -/

section Loops

variable {value : BitVec 8} {ptr size : BitVec 32} {mem : Mem} {filling : Filling} {fuel : Nat}

theorem byteLoop_fills (filled : Filled value ptr size mem filling) (enough : filling.size.toNat < fuel) :
    ∃ last, loop (fun filling => 0 < filling.size) (Filling.byte value) fuel filling = some last ∧
      Filled value ptr size mem last ∧ last.size = 0 := by
  have step : ∀ filling, Filled value ptr size mem filling → decide (0 < filling.size) = true →
      Filled value ptr size mem (filling.byte value) ∧
        (filling.byte value).size.toNat < filling.size.toNat := by
    intro filling filled again
    have positive := of_decide_eq_true again
    refine ⟨filled.byte positive, ?_⟩
    rw [Filling.byte]
    bv_omega
  rcases loop_total (Filled value ptr size mem) (fun filling => filling.size.toNat) step filled enough
    with ⟨last, ended, filled, stopped⟩
  have empty := of_decide_eq_false stopped
  exact ⟨last, ended, filled, by bv_omega⟩

theorem wordLoop_fills {dvalue : BitVec 32} (bytes : ∀ k < 4, dvalue.extractLsb' (8 * k) 8 = value)
    (filled : Filled value ptr size mem filling) (enough : filling.size.toNat < fuel) :
    ∃ last, loop (fun filling => 4 < filling.size) (Filling.word dvalue) fuel filling = some last ∧
      Filled value ptr size mem last ∧ last.size ≤ filling.size := by
  have step : ∀ next, (Filled value ptr size mem next ∧ next.size ≤ filling.size) →
      decide (4 < next.size) = true → (Filled value ptr size mem (next.word dvalue) ∧
        (next.word dvalue).size ≤ filling.size) ∧ (next.word dvalue).size.toNat < next.size.toNat := by
    rintro next ⟨filled, le⟩ again
    have more := of_decide_eq_true again
    refine ⟨⟨filled.word more bytes, ?_⟩, ?_⟩
    · rw [Filling.word]
      bv_omega
    · rw [Filling.word]
      bv_omega
  rcases loop_total (fun next => Filled value ptr size mem next ∧ next.size ≤ filling.size)
    (fun next => next.size.toNat) step ⟨filled, BitVec.le_refl _⟩ enough with
      ⟨last, ended, ⟨filled, le⟩, -⟩
  exact ⟨last, ended, filled, le⟩

/-- The pointer is not aligned any more after one byte, and there are four. -/
theorem alignLoop_fills (large : 4 ≤ size) (enough : 2 ≤ fuel) :
    ∃ last, loop (fun filling => filling.cptr &&& 3 = 0) (Filling.byte value) fuel
      ⟨mem, ptr, size, []⟩ = some last ∧ Filled value ptr size mem last := by
  let inv (filling : Filling) : Prop :=
    Filled value ptr size mem filling ∧ (filling.cptr &&& 3 = 0 → 4 ≤ filling.size)
  let left (filling : Filling) : Nat := if filling.cptr &&& 3 = 0 then 1 else 0
  have step : ∀ filling, inv filling → decide (filling.cptr &&& 3 = 0) = true →
      inv (filling.byte value) ∧ left (filling.byte value) < left filling := by
    rintro filling ⟨filled, room⟩ again
    have aligned := of_decide_eq_true again
    have next : ¬ (filling.byte value).cptr &&& 3 = 0 := by
      rw [Filling.byte]
      rw [Elf.and_three_eq_zero_iff] at aligned ⊢
      bv_omega
    have positive : 0 < filling.size := by
      have four := room aligned
      bv_omega
    refine ⟨⟨filled.byte positive, fun impossible => absurd impossible next⟩, ?_⟩
    rw [show left filling = 1 from if_pos aligned, show left (filling.byte value) = 0 from if_neg next]
    exact Nat.one_pos
  have tests : left ⟨mem, ptr, size, []⟩ < fuel := by
    dsimp only [left]
    split <;> omega
  rcases loop_total inv left step ⟨Filled.start, fun _ => large⟩ tests with ⟨last, ended, ⟨filled, -⟩, -⟩
  exact ⟨last, ended, filled⟩

end Loops

/-! ## The function -/

section Function

variable {fuel : Nat} {ptr v size : BitVec 32} {mem : Mem}

/-- The range is filled, and each decrement takes no more than there is. -/
theorem memset_fills (enough : size.toNat + 2 ≤ fuel) :
    ∃ filling, memset fuel ptr v size mem = some (ptr, filling) ∧
      Filled (v.setWidth 8) ptr size mem filling ∧ filling.size = 0 := by
  rw [memset]
  split
  · rcases @byteLoop_fills (v.setWidth 8) ptr size mem ⟨mem, ptr, size, []⟩ fuel Filled.start
      (by dsimp only; omega) with ⟨last, ended, filled, empty⟩
    rw [ended]
    exact ⟨last, rfl, filled, empty⟩
  · rename_i large
    have four : 4 ≤ size := BitVec.not_lt.mp large
    rcases @alignLoop_fills (v.setWidth 8) ptr size mem fuel four (by omega) with
      ⟨unaligned, prologue, filled⟩
    have fewer := BitVec.le_def.mp filled.le
    rcases wordLoop_fills (Elf.extractLsb_dvalue (v.setWidth 8)) filled (show _ < fuel by omega) with
      ⟨words, middle, filled, le⟩
    rcases byteLoop_fills filled (show _ < fuel by bv_omega) with ⟨last, ended, filled, empty⟩
    refine ⟨last, ?_, filled, empty⟩
    simp only [prologue, middle, ended, Option.bind_eq_bind, Option.bind_some]

/-- The function of the loader is this one. -/
theorem memset_eq_elf (enough : size.toNat + 2 ≤ fuel) :
    (memset fuel ptr v size mem).map (fun result => result.2.mem) =
      Elf.memset (v.setWidth 8) ptr size.toNat mem := by
  rcases @memset_fills fuel ptr v size mem enough with ⟨filling, returned, filled, empty⟩
  have whole := filled.mem_eq
  rw [empty, sub_zero] at whole
  rw [returned, Option.map_some, whole, Elf.memset_eq (Nat.le_of_lt size.isLt)]

/-- `memset` returns its first argument; the bytes of the range, which does not wrap
around, are the low byte of the value and the other bytes are the old ones.  The
size is never decreased below zero. -/
theorem memset_fills_exactly (ptr v size : BitVec 32) (mem : Mem)
    (fits : ptr.toNat + size.toNat ≤ 2 ^ 32) (enough : size.toNat + 2 ≤ fuel) :
    ∃ filling, memset fuel ptr v size mem = some (ptr, filling) ∧
      (∀ addr, filling.mem addr =
        if ptr.toNat ≤ addr.toNat ∧ addr.toNat < ptr.toNat + size.toNat
          then BitVec.ofNat 8 (v.toNat % 256) else mem addr) ∧
      ∀ step ∈ filling.decrements, step.2.toNat ≤ step.1.toNat := by
  rcases @memset_fills fuel ptr v size mem enough with ⟨filling, returned, filled, empty⟩
  refine ⟨filling, returned, ?_, filled.decrements⟩
  have whole := filled.mem_eq
  have low : v.setWidth 8 = BitVec.ofNat 8 (v.toNat % 256) := by
    apply BitVec.eq_of_toNat_eq
    rw [BitVec.toNat_setWidth, BitVec.toNat_ofNat, Nat.mod_mod]
  rw [empty, sub_zero] at whole
  intro addr
  have inside : (addr - ptr).toNat < size.toNat ↔
      ptr.toNat ≤ addr.toNat ∧ addr.toNat < ptr.toNat + size.toNat := by
    bv_omega
  rw [whole, overwrite, low]
  exact if_congr inside rfl rfl

/-- The last seven bytes there are. -/
theorem memset_fills_exactly_top :
    ∃ filling, memset 9 0xfffffff9 0x1ff 7 (fun _ => 0) = some (0xfffffff9, filling) ∧
      (∀ addr, filling.mem addr =
        if (0xfffffff9 : BitVec 32).toNat ≤ addr.toNat ∧
            addr.toNat < (0xfffffff9 : BitVec 32).toNat + (7 : BitVec 32).toNat
          then BitVec.ofNat 8 ((0x1ff : BitVec 32).toNat % 256) else 0) ∧
      ∀ step ∈ filling.decrements, step.2.toNat ≤ step.1.toNat :=
  memset_fills_exactly 0xfffffff9 0x1ff 7 (fun _ => 0) (by decide) (by decide)

end Function

end Libc

end WeakOS
