import Mathlib

namespace X86

/-!
# Words in memory

Memory is bytes by 32-bit address, and addresses wrap around.  Two ranges of
addresses are apart when neither begins inside the other; what is written in
one is not read in the other.
-/

abbrev Mem := BitVec 32 → BitVec 8

/-- The little-endian word at an address. -/
def read32 (mem : Mem) (addr : BitVec 32) : BitVec 32 :=
  mem (addr + 3) ++ mem (addr + 2) ++ mem (addr + 1) ++ mem addr

def write32 (mem : Mem) (addr value : BitVec 32) : Mem := fun other =>
  let offset := (other - addr).toNat
  if offset < 4 then value.extractLsb' (8 * offset) 8 else mem other

/-- Two ranges have no address in common. -/
def Apart (first : BitVec 32) (count : Nat) (second : BitVec 32) (size : Nat) : Prop :=
  count ≤ (second - first).toNat ∧ size ≤ (first - second).toNat

instance (first : BitVec 32) (count : Nat) (second : BitVec 32) (size : Nat) :
    Decidable (Apart first count second size) := inferInstanceAs (Decidable (_ ∧ _))

section Word

variable (mem : Mem) {addr other : BitVec 32} (value : BitVec 32)

theorem write32_of_outside (outside : 4 ≤ (other - addr).toNat) :
    write32 mem addr value other = mem other :=
  if_neg (Nat.not_lt.mpr outside)

/-- The bytes of a written word. -/
theorem write32_byte (addr : BitVec 32) {k : BitVec 32} (small : k.toNat < 4) :
    write32 mem addr value (addr + k) = value.extractLsb' (8 * k.toNat) 8 := by
  simp only [write32, add_sub_cancel_left, if_pos small]

@[simp] theorem read32_write32 (addr : BitVec 32) : read32 (write32 mem addr value) addr = value := by
  have first : write32 mem addr value addr = value.extractLsb' 0 8 := by
    simpa using write32_byte mem value addr (show (0 : BitVec 32).toNat < 4 by decide)
  have second := write32_byte mem value addr (show (1 : BitVec 32).toNat < 4 by decide)
  have third := write32_byte mem value addr (show (2 : BitVec 32).toNat < 4 by decide)
  have fourth := write32_byte mem value addr (show (3 : BitVec 32).toNat < 4 by decide)
  rw [read32, first, second, third, fourth]
  ext i
  simp only [BitVec.getElem_append, BitVec.getElem_extractLsb']
  grind

theorem read32_congr {left right : Mem} {addr : BitVec 32}
    (same : ∀ other, (other - addr).toNat < 4 → left other = right other) :
    read32 left addr = read32 right addr := by
  have byte : ∀ k : BitVec 32, k.toNat < 4 → left (addr + k) = right (addr + k) := by
    intro k small
    exact same _ (by rwa [add_sub_cancel_left])
  have first : left addr = right addr := by
    simpa using byte 0 (by decide)
  rw [read32, read32, byte 3 (by decide), byte 2 (by decide), byte 1 (by decide), first]

/-- A word is not changed by a write elsewhere. -/
theorem read32_write32_of_apart (apart : Apart addr 4 other 4) :
    read32 (write32 mem addr value) other = read32 mem other := by
  refine read32_congr (fun byte inside => write32_of_outside mem value ?_)
  rcases apart with ⟨above, below⟩
  bv_omega

end Word

/-! ## Ranges -/

section Apart

variable {first second : BitVec 32} {count size : Nat}

theorem Apart.symm (apart : Apart first count second size) : Apart second size first count :=
  ⟨apart.2, apart.1⟩

/-- Ranges at increasing offsets from one address. -/
theorem apart_of_offsets (base : BitVec 32) {low high : Nat} (order : low + count ≤ high)
    (nonempty : 0 < count) (some : 0 < size) (room : high + size ≤ 2 ^ 32) :
    Apart (base + BitVec.ofNat 32 low) count (base + BitVec.ofNat 32 high) size := by
  have lowAt : (BitVec.ofNat 32 low).toNat = low := Nat.mod_eq_of_lt (by omega)
  have highAt : (BitVec.ofNat 32 high).toNat = high := Nat.mod_eq_of_lt (by omega)
  constructor
  · rw [add_sub_add_left_eq_sub, BitVec.toNat_sub, lowAt, highAt]
    omega
  · rw [add_sub_add_left_eq_sub, BitVec.toNat_sub, lowAt, highAt]
    omega

/-- Ranges without a common address are apart. -/
theorem apart_of_disjoint (nonempty : 0 < count) (some : 0 < size)
    (disjoint : ∀ addr, (addr - second).toNat < size → count ≤ (addr - first).toNat) :
    Apart first count second size := by
  refine ⟨disjoint second (by rwa [sub_self]), Nat.not_lt.mp (fun inside => ?_)⟩
  have here := disjoint first inside
  rw [sub_self] at here
  exact Nat.not_lt.mpr here nonempty

/-- An address of the one range is not in the other. -/
theorem Apart.outside (apart : Apart first count second size) {addr : BitVec 32}
    (inside : (addr - second).toNat < size) : count ≤ (addr - first).toNat := by
  rcases apart with ⟨behind, before⟩
  bv_omega

/-- Less of a range is apart as well. -/
theorem Apart.mono (apart : Apart first count second size) {fewer smaller : Nat}
    (less : fewer ≤ count) (part : smaller ≤ size) : Apart first fewer second smaller :=
  ⟨Nat.le_trans less apart.1, Nat.le_trans part apart.2⟩

/-- Two words of one range. -/
theorem read32_write32_offset (mem : Mem) (value base : BitVec 32) {i j : BitVec 32}
    (apart : 4 ≤ (j - i).toNat ∧ 4 ≤ (i - j).toNat) :
    read32 (write32 mem (base + i) value) (base + j) = read32 mem (base + j) := by
  apply read32_write32_of_apart
  rcases apart with ⟨above, below⟩
  constructor <;> rwa [add_sub_add_left_eq_sub]

/-- Words of two ranges that are apart. -/
theorem Apart.read32_write32 (apart : Apart first count second size) (mem : Mem)
    (value : BitVec 32) {i j : BitVec 32} (within : i.toNat + 4 ≤ count) (within' : j.toNat + 4 ≤ size) :
    read32 (write32 mem (first + i) value) (second + j) = read32 mem (second + j) := by
  apply read32_write32_of_apart
  rcases apart with ⟨above, below⟩
  constructor <;> bv_omega

end Apart

/-! ## Several words -/

/-- Write words one behind the other. -/
def storeWords (mem : Mem) : (base : BitVec 32) → List (BitVec 32) → Mem
  | _, [] => mem
  | base, word :: rest => storeWords (write32 mem base word) (base + 4) rest

section StoreWords

variable {mem : Mem} {base addr : BitVec 32} {words : List (BitVec 32)}

theorem storeWords_of_outside (outside : 4 * words.length ≤ (addr - base).toNat) :
    storeWords mem base words addr = mem addr := by
  induction words generalizing mem base with
  | nil => rfl
  | cons word rest inductionHypothesis =>
      rw [List.length_cons] at outside
      have later : 4 * rest.length ≤ (addr - (base + 4)).toNat := by bv_omega
      rw [storeWords, inductionHypothesis later, write32_of_outside mem word (by omega)]

theorem read32_storeWords_of_apart (apart : Apart base (4 * words.length) addr 4) :
    read32 (storeWords mem base words) addr = read32 mem addr := by
  refine read32_congr (fun byte inside => storeWords_of_outside ?_)
  rcases apart with ⟨above, below⟩
  bv_omega

theorem storeWords_append (first rest : List (BitVec 32)) :
    storeWords mem base (first ++ rest) =
      storeWords (storeWords mem base first) (base + BitVec.ofNat 32 (4 * first.length)) rest := by
  induction first generalizing mem base with
  | nil =>
      rw [List.length_nil, Nat.mul_zero, BitVec.add_zero]
      rfl
  | cons word first inductionHypothesis =>
      have next : base + BitVec.ofNat 32 (4 * (word :: first).length) =
          base + 4 + BitVec.ofNat 32 (4 * first.length) := by
        rw [List.length_cons]
        bv_omega
      rw [List.cons_append, storeWords, inductionHypothesis, next]
      rfl

/-- What was written is read again. -/
theorem read32_storeWords (room : 4 * words.length ≤ 2 ^ 32) {i : Nat} (inside : i < words.length) :
    read32 (storeWords mem base words) (base + BitVec.ofNat 32 (4 * i)) = words[i] := by
  induction words generalizing mem base i with
  | nil => exact absurd inside (Nat.not_lt_zero i)
  | cons word rest inductionHypothesis =>
      rw [List.length_cons] at room inside
      rw [storeWords]
      cases i with
      | zero =>
          have apart : 4 * rest.length ≤ (base - (base + 4)).toNat := by bv_omega
          have here : base + BitVec.ofNat 32 (4 * 0) = base := by bv_omega
          rw [here, read32_congr (fun byte near => storeWords_of_outside (by bv_omega)),
            read32_write32]
          rfl
      | succ i =>
          have next : base + BitVec.ofNat 32 (4 * (i + 1)) = base + 4 + BitVec.ofNat 32 (4 * i) := by
            bv_omega
          rw [next, inductionHypothesis (by omega) (by omega)]
          rfl

end StoreWords

/-! ## A stack -/

/-- Push words, the first one first. -/
def pushWords (mem : Mem) : (esp : BitVec 32) → List (BitVec 32) → Mem
  | _, [] => mem
  | esp, word :: rest => pushWords (write32 mem (esp - 4) word) (esp - 4) rest

section PushWords

variable {mem : Mem} {esp addr : BitVec 32} {words : List (BitVec 32)}

/-- The stack pointer, one word later. -/
theorem sub_words_succ (esp : BitVec 32) (count : Nat) :
    esp - BitVec.ofNat 32 (4 * (count + 1)) = esp - 4 - BitVec.ofNat 32 (4 * count) := by
  rw [Nat.mul_succ, BitVec.ofNat_add]
  exact sub_add_eq_sub_sub_swap esp _ _

theorem pushWords_of_outside
    (outside : 4 * words.length ≤ (addr - (esp - BitVec.ofNat 32 (4 * words.length))).toNat) :
    pushWords mem esp words addr = mem addr := by
  induction words generalizing mem esp with
  | nil => rfl
  | cons word rest inductionHypothesis =>
      rw [List.length_cons, sub_words_succ] at outside
      have distance := (addr - (esp - 4 - BitVec.ofNat 32 (4 * rest.length))).isLt
      have size : (BitVec.ofNat 32 (4 * rest.length)).toNat = 4 * rest.length :=
        Nat.mod_eq_of_lt (by omega)
      have beside : 4 ≤ (addr - (esp - 4)).toNat := by
        generalize BitVec.ofNat 32 (4 * rest.length) = depth at *
        bv_omega
      rw [pushWords, inductionHypothesis (by omega), write32_of_outside mem word beside]

/-- The words lie on the stack with the first one on the highest address. -/
theorem read32_pushWords (room : 4 * words.length < 2 ^ 32) {i : Nat} (inside : i < words.length) :
    read32 (pushWords mem esp words) (esp - BitVec.ofNat 32 (4 * (i + 1))) = words[i] := by
  induction words generalizing mem esp i with
  | nil => exact absurd inside (Nat.not_lt_zero i)
  | cons word rest inductionHypothesis =>
      rw [List.length_cons] at room inside
      rw [pushWords]
      cases i with
      | zero =>
          have here : esp - BitVec.ofNat 32 (4 * (0 + 1)) = esp - 4 := rfl
          have size : (BitVec.ofNat 32 (4 * rest.length)).toNat = 4 * rest.length :=
            Nat.mod_eq_of_lt (by omega)
          have kept : read32 (pushWords (write32 mem (esp - 4) word) (esp - 4) rest) (esp - 4) =
              read32 (write32 mem (esp - 4) word) (esp - 4) := by
            refine read32_congr (fun byte near => pushWords_of_outside ?_)
            generalize BitVec.ofNat 32 (4 * rest.length) = depth at *
            bv_omega
          rw [here, kept, read32_write32]
          rfl
      | succ i =>
          rw [sub_words_succ, inductionHypothesis (by omega) (by omega)]
          rfl

end PushWords

end X86
