import Mathlib
import WeakOS.X86.Memory

namespace X86

/-!
# Records of words

A record is a number of words one behind the other, and a field of it is the
index of a word.  Records that are apart are written and read like the entries
of a table: a field has the value that was written to it last, whatever is
written to the other fields and to the other records.
-/

/-- A field of the record at an address. -/
def field (mem : Mem) (record : BitVec 32) (i : Nat) : BitVec 32 :=
  read32 mem (record + BitVec.ofNat 32 (4 * i))

def setField (mem : Mem) (record : BitVec 32) (i : Nat) (value : BitVec 32) : Mem :=
  write32 mem (record + BitVec.ofNat 32 (4 * i)) value

section Record

variable {mem mem' : Mem} {record other addr value : BitVec 32} {words i j : Nat}

/-- Writing a field changes no byte outside of its record. -/
theorem setField_of_outside (inside : i < words) (short : 4 * words ≤ 2 ^ 32)
    (outside : 4 * words ≤ (addr - record).toNat) : setField mem record i value addr = mem addr := by
  refine write32_of_outside mem value ?_
  have offset : (BitVec.ofNat 32 (4 * i)).toNat = 4 * i := Nat.mod_eq_of_lt (by omega)
  generalize BitVec.ofNat 32 (4 * i) = shift at *
  bv_omega

/-- A field depends on the bytes of its record. -/
theorem field_congr (inside : i < words) (short : 4 * words ≤ 2 ^ 32)
    (same : ∀ addr, (addr - record).toNat < 4 * words → mem' addr = mem addr) :
    field mem' record i = field mem record i := by
  refine read32_congr (fun addr near => same addr ?_)
  have offset : (BitVec.ofNat 32 (4 * i)).toNat = 4 * i := Nat.mod_eq_of_lt (by omega)
  generalize BitVec.ofNat 32 (4 * i) = shift at *
  bv_omega

/-- The last value written to a field. -/
theorem field_setField (here : other = record ∨ Apart record (4 * words) other (4 * words))
    (short : 4 * words ≤ 2 ^ 32) (inside : i < words) (inside' : j < words) :
    field (setField mem record i value) other j =
      if other = record ∧ j = i then value else field mem other j := by
  rcases here with rfl | apart
  · by_cases same : j = i
    · subst same
      rw [if_pos ⟨rfl, rfl⟩]
      exact read32_write32 mem value _
    · rw [if_neg (fun both => same both.2)]
      refine read32_write32_offset mem value other ?_
      bv_omega
  · have different : ¬ (other = record ∧ j = i) := by
      rintro ⟨rfl, -⟩
      have zero := apart.1
      rw [sub_self] at zero
      exact absurd zero (by simp; omega)
    rw [if_neg different]
    refine apart.read32_write32 mem value ?_ ?_
    · rw [BitVec.toNat_ofNat, Nat.mod_eq_of_lt (by omega)]
      omega
    · rw [BitVec.toNat_ofNat, Nat.mod_eq_of_lt (by omega)]
      omega

/-- A byte that is written outside of a record does not change its fields. -/
theorem field_update {byte : BitVec 8} (inside : i < words) (short : 4 * words ≤ 2 ^ 32)
    (outside : 4 * words ≤ (addr - record).toNat) :
    field (Function.update mem addr byte) record i = field mem record i := by
  refine field_congr inside short (fun near within => Function.update_of_ne ?_ _ _)
  rintro rfl
  omega

end Record

/-! ## Records that are apart -/

/-- The records at these addresses do not overlap. -/
def Records (words : Nat) (records : List (BitVec 32)) : Prop :=
  records.Pairwise fun first second => Apart first (4 * words) second (4 * words)

theorem Records.eq_or_apart {words : Nat} {records : List (BitVec 32)} (apart : Records words records)
    {record other : BitVec 32} (member : record ∈ records) (member' : other ∈ records) :
    other = record ∨ Apart record (4 * words) other (4 * words) := by
  have symmetric : Std.Symm fun first second => Apart first (4 * words) second (4 * words) :=
    ⟨fun _ _ => Apart.symm⟩
  by_cases same : other = record
  · exact Or.inl same
  · exact Or.inr (List.Pairwise.forall apart member member' (Ne.symm same))

/-- Records that do not overlap are different. -/
theorem Records.nodup {words : Nat} {records : List (BitVec 32)} (apart : Records words records)
    (nonempty : 0 < words) : records.Nodup := by
  refine apart.imp ?_
  rintro record other separate rfl
  have zero := separate.1
  rw [sub_self] at zero
  exact absurd zero (by simp; omega)

/-- Ranges between the ends of the address space. -/
theorem apart_of_le {first second : BitVec 32} {count size : Nat} (nonempty : 0 < count)
    (before : first.toNat + count ≤ second.toNat) (room : second.toNat + size ≤ 2 ^ 32) :
    Apart first count second size := by
  constructor <;> bv_omega

/-- A value for a field of a record. -/
abbrev Write := BitVec 32 × Nat × BitVec 32

def setFields (mem : Mem) (writes : List Write) : Mem :=
  writes.foldl (fun mem write => setField mem write.1 write.2.1 write.2.2) mem

/-- The value of a field behind some writes. -/
def written : List Write → (record : BitVec 32) → (i : Nat) → (old : BitVec 32) → BitVec 32
  | [], _, _, old => old
  | write :: rest, record, i, old =>
      written rest record i (if record = write.1 ∧ i = write.2.1 then write.2.2 else old)

section Writes

variable {words : Nat} {records : List (BitVec 32)} {writes : List Write} {mem : Mem}

theorem setFields_append (mem : Mem) (first rest : List Write) :
    setFields mem (first ++ rest) = setFields (setFields mem first) rest := List.foldl_append

theorem written_append (first rest : List Write) (record : BitVec 32) (i : Nat) (old : BitVec 32) :
    written (first ++ rest) record i old = written rest record i (written first record i old) := by
  induction first generalizing old with
  | nil => rfl
  | cons write first inductionHypothesis => exact inductionHypothesis _

/-- A write that is made or not. -/
theorem written_if (condition : Prop) [Decidable condition] (write : Write) (record : BitVec 32) (i : Nat)
    (old : BitVec 32) : written (if condition then [write] else []) record i old =
      if condition ∧ record = write.1 ∧ i = write.2.1 then write.2.2 else old := by
  by_cases made : condition
  · rw [if_pos made, written, written]
    exact if_congr (and_iff_right made).symm rfl rfl
  · rw [if_neg made, if_neg (fun all => made all.1), written]

/-- Fields of records that are apart are the entries of a table. -/
theorem field_setFields (apart : Records words records) (short : 4 * words ≤ 2 ^ 32)
    (known : ∀ write ∈ writes, write.1 ∈ records ∧ write.2.1 < words) {record : BitVec 32} {i : Nat}
    (member : record ∈ records) (inside : i < words) :
    field (setFields mem writes) record i = written writes record i (field mem record i) := by
  induction writes generalizing mem with
  | nil => rfl
  | cons write rest inductionHypothesis =>
      have here := known write List.mem_cons_self
      have later := @inductionHypothesis (setField mem write.1 write.2.1 write.2.2)
        (fun other member => known other (List.mem_cons_of_mem _ member))
      rw [field_setField (apart.eq_or_apart here.1 member) short here.2 inside] at later
      exact later

/-- A byte outside of the records is not written. -/
theorem setFields_of_outside (short : 4 * words ≤ 2 ^ 32) {addr : BitVec 32}
    (outside : ∀ write ∈ writes, 4 * words ≤ (addr - write.1).toNat ∧ write.2.1 < words) :
    setFields mem writes addr = mem addr := by
  induction writes generalizing mem with
  | nil => rfl
  | cons write rest inductionHypothesis =>
      have here := outside write List.mem_cons_self
      have later := @inductionHypothesis (setField mem write.1 write.2.1 write.2.2)
        (fun other member => outside other (List.mem_cons_of_mem _ member))
      rw [setField_of_outside here.2 short here.1] at later
      exact later

end Writes

end X86
