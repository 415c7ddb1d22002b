import Mathlib

namespace WeakOS

/-!
# Copying bytes

The loop of `memcpy`, and the two facts its callers need: what is copied
arrives, and nothing else changes.  Contents are lists of bytes, cut out of
memory as slices.
-/

/-- Bytes by address, or by offset in an object. -/
abbrev Bytes := Nat → BitVec 8

/-- The loop of `memcpy` at iteration `i`, with `left` iterations to go. -/
def copyLoop (src : Bytes) (dest : Nat) : (left i : Nat) → Bytes → Bytes
  | 0, _, bytes => bytes
  | left + 1, i, bytes =>
      copyLoop src dest left (i + 1) (Function.update bytes (dest + i) (src i))

/-- `memcpy` from an object that the destination does not overlap. -/
def memcpy (dest : Nat) (src : Bytes) (num : Nat) (bytes : Bytes) : Bytes :=
  copyLoop src dest num 0 bytes

theorem copyLoop_apply (src : Bytes) (dest left i : Nat) (bytes : Bytes) (addr : Nat) :
    copyLoop src dest left i bytes addr =
      if dest + i ≤ addr ∧ addr < dest + i + left then src (addr - dest) else bytes addr := by
  induction left generalizing i bytes with
  | zero => rw [copyLoop, if_neg (by omega)]
  | succ left inductionHypothesis =>
      rw [copyLoop, inductionHypothesis, Function.update_apply]
      by_cases first : addr = dest + i
      · rw [if_neg (by omega), if_pos first, if_pos (by omega), first, Nat.add_sub_cancel_left]
      · rw [if_neg first]
        exact if_congr (by omega) rfl rfl

theorem memcpy_copied (dest : Nat) (src : Bytes) {num offset : Nat} (bytes : Bytes)
    (inside : offset < num) : memcpy dest src num bytes (dest + offset) = src offset := by
  rw [memcpy, copyLoop_apply, if_pos (by omega), Nat.add_sub_cancel_left]

theorem memcpy_of_outside (dest : Nat) (src : Bytes) {num addr : Nat} (bytes : Bytes)
    (outside : addr < dest ∨ dest + num ≤ addr) : memcpy dest src num bytes addr = bytes addr := by
  rw [memcpy, copyLoop_apply, if_neg (by omega)]

/-- Only the bytes that are copied matter. -/
theorem memcpy_congr (dest : Nat) {src other : Bytes} {num : Nat} (bytes : Bytes)
    (same : ∀ offset < num, src offset = other offset) :
    memcpy dest src num bytes = memcpy dest other num bytes := by
  funext addr
  rw [memcpy, memcpy, copyLoop_apply, copyLoop_apply]
  by_cases inside : dest + 0 ≤ addr ∧ addr < dest + 0 + num
  · rw [if_pos inside, if_pos inside, same (addr - dest) (by omega)]
  · rw [if_neg inside, if_neg inside]

/-- The bytes of a range of memory. -/
def slice (bytes : Bytes) (start count : Nat) : List (BitVec 8) :=
  (List.range count).map (fun offset => bytes (start + offset))

section Slice

variable {bytes other : Bytes} {start first count : Nat}

@[simp] theorem length_slice : (slice bytes start count).length = count := by
  rw [slice, List.length_map, List.length_range]

theorem slice_congr (same : ∀ offset < count, bytes (start + offset) = other (first + offset)) :
    slice bytes start count = slice other first count :=
  List.map_congr_left (fun offset member => same offset (List.mem_range.mp member))

theorem slice_add (bytes : Bytes) (start first rest : Nat) :
    slice bytes start (first + rest) = slice bytes start first ++ slice bytes (start + first) rest := by
  unfold slice
  rw [List.range_add, List.map_append, List.map_map]
  refine congrArg (_ ++ ·) (List.map_congr_left (fun offset _ => ?_))
  exact congrArg bytes (Nat.add_assoc start first offset).symm

theorem take_slice (shorter : first ≤ count) :
    (slice bytes start count).take first = slice bytes start first := by
  obtain ⟨rest, rfl⟩ := Nat.exists_eq_add_of_le shorter
  rw [slice_add]
  exact List.take_left' length_slice

theorem slice_memcpy (dest : Nat) (src : Bytes) (num : Nat) (bytes : Bytes) :
    slice (memcpy dest src num bytes) dest num = slice src 0 num :=
  slice_congr (fun offset inside => by
    rw [memcpy_copied dest src bytes inside, Nat.zero_add])

end Slice

end WeakOS
