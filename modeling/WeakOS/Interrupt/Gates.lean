import Mathlib

/-!
# Gates of the interrupt table

The entries that `interrupt` writes, and what the processor reads from them.
`set_int` computes the attribute byte by an expression in which the shift binds
closer than the mask, so that the requested privilege level is lost.
-/

namespace X86

/-! ## What the processor reads -/

/-- A gate of the interrupt descriptor table.  The type is that of a system
descriptor if the segment bit is clear; 14 is a 32-bit interrupt gate. -/
structure GateDescriptor where
  offset : BitVec 32
  selector : BitVec 16
  reserved : BitVec 8
  type : BitVec 4
  segment : Bool
  dpl : BitVec 2
  present : Bool
  deriving DecidableEq, Repr

/-- The eight bytes of a gate, the lowest first. -/
def GateDescriptor.decode (bits : BitVec 64) : GateDescriptor where
  offset := bits.extractLsb' 48 16 ++ bits.extractLsb' 0 16
  selector := bits.extractLsb' 16 16
  reserved := bits.extractLsb' 32 8
  type := bits.extractLsb' 40 4
  segment := bits.getLsbD 44
  dpl := bits.extractLsb' 45 2
  present := bits.getLsbD 47

/-- Software in a ring may enter the gate by an `int` instruction. -/
def GateDescriptor.ReachableFrom (gate : GateDescriptor) (ring : Nat) : Prop :=
  gate.present = true ∧ ring ≤ gate.dpl.toNat

end X86

namespace WeakOS
namespace Interrupt

open X86

/-! ## What the kernel writes -/

/-- `idt_entry`. -/
structure IdtEntry where
  offsetLo : BitVec 16
  selector : BitVec 16
  zero : BitVec 8
  typeAttr : BitVec 8
  offsetHi : BitVec 16
  deriving DecidableEq, Repr

/-- The fields lie one behind the other in memory. -/
def IdtEntry.bits (entry : IdtEntry) : BitVec 64 :=
  entry.offsetHi ++ entry.typeAttr ++ entry.zero ++ entry.selector ++ entry.offsetLo

/-- The entry as the processor reads it. -/
def IdtEntry.gate (entry : IdtEntry) : GateDescriptor := GateDescriptor.decode entry.bits

def idtEntryCount : Nat := 0x100

instance : NeZero idtEntryCount := ⟨by decide⟩

/-- The entries of `idt_info`. -/
abbrev Idt := Fin idtEntryCount → IdtEntry

/-- The five stores that every function of the kernel makes into an entry. -/
def entryFor (handler : BitVec 32) (typeAttr : BitVec 8) : IdtEntry where
  offsetLo := (handler &&& 0xffff).setWidth 16
  offsetHi := (handler >>> 16 &&& 0xffff).setWidth 16
  selector := 8
  zero := 0
  typeAttr := typeAttr

section Writes

/-- `int_filler`, for the interrupts from `int` on. -/
def intFiller (handler : Nat → BitVec 32) (entries : Idt) : (count int : Nat) → Fin idtEntryCount → Idt
  | 0, _, _ => entries
  | count + 1, int, entry =>
      let filled := Function.update entries entry
        (entryFor (handler int) (if int = 0xc8 then 0xee else 0x8e))
      intFiller handler filled count (int + 1) (entry + 1)

/-- What `interrupt::init` writes: the entries of the interrupt lines, and one
for the system calls. -/
def init (irq : Nat → BitVec 32) (handler : BitVec 32) (entries : Idt) : Idt :=
  Function.update (intFiller irq entries 16 0 0x20) 0xc9 (entryFor handler 0xee)

def setC8 (entries : Idt) (c8h : BitVec 32) : Idt :=
  Function.update entries 0xc8 (entryFor c8h 0xee)

def setInt (entries : Idt) (intr : Fin idtEntryCount) (handler rpl : BitVec 32) : Idt :=
  Function.update entries intr (entryFor handler ((0x8e#32 ||| (rpl &&& 3#32 <<< 5)).setWidth 8))

def syscallInterrupt : Fin idtEntryCount := 0xc9

/-- The gate that `syscall::init` installs. -/
def syscallInit (entries : Idt) (handler : BitVec 32) : Idt :=
  setInt entries syscallInterrupt handler 3

end Writes

/-! ## Decoding -/

section Decode

theorem gate_eq (entry : IdtEntry) :
    entry.gate = ⟨entry.offsetHi ++ entry.offsetLo, entry.selector, entry.zero,
      entry.typeAttr.extractLsb' 0 4, entry.typeAttr.getLsbD 4, entry.typeAttr.extractLsb' 5 2,
      entry.typeAttr.getLsbD 7⟩ := by
  have attr : ∀ start len, start + len ≤ 8 →
      entry.bits.extractLsb' (40 + start) len = entry.typeAttr.extractLsb' start len := by
    intro start len inside
    have index : 40 + start - 16 - 16 - 8 = start := by omega
    simp (disch := omega) only [IdtEntry.bits, BitVec.extractLsb'_append_eq_of_le,
      BitVec.extractLsb'_append_eq_of_add_le, index]
  have bit : ∀ i < 8, entry.bits.getLsbD (40 + i) = entry.typeAttr.getLsbD i := by
    intro i inside
    have same := congrArg (BitVec.getLsbD · 0) (attr i 1 inside)
    simpa using same
  rw [IdtEntry.gate, GateDescriptor.decode, attr 0 4 (by decide), attr 5 2 (by decide),
    bit 4 (by decide), bit 7 (by decide)]
  simp (disch := decide) only [IdtEntry.bits, BitVec.extractLsb'_append_eq_of_le,
    BitVec.extractLsb'_append_eq_of_add_le, Nat.reduceSub, BitVec.extractLsb'_eq_self]

/-- The halves of the handler's address are put together again. -/
theorem gate_entryFor (handler : BitVec 32) (typeAttr : BitVec 8) :
    (entryFor handler typeAttr).gate =
      ⟨handler, 8, 0, typeAttr.extractLsb' 0 4, typeAttr.getLsbD 4, typeAttr.extractLsb' 5 2,
        typeAttr.getLsbD 7⟩ := by
  have masked : ∀ word : BitVec 32, (word &&& 0xffff).setWidth 16 = word.setWidth 16 := by
    intro word
    apply BitVec.eq_of_toNat_eq
    simp [Nat.and_two_pow_sub_one_eq_mod _ 16]
  have high : (handler >>> 16 &&& 0xffff).setWidth 16 = handler.extractLsb' 16 16 := by
    rw [masked]
    exact BitVec.setWidth_ushiftRight_eq_extractLsb
  have low : (handler &&& 0xffff).setWidth 16 = handler.extractLsb' 0 16 := by
    rw [masked]
    exact BitVec.setWidth_eq_extractLsb' (by decide)
  rw [gate_eq, entryFor, high, low]
  congr
  exact BitVec.extractLsb'_append_extractLsb'

variable (entries : Idt) (intr : Fin idtEntryCount) (handler rpl : BitVec 32)

/-- The privilege level is taken from the bits 5 and 6 of the argument. -/
theorem gate_setInt :
    (setInt entries intr handler rpl intr).gate =
      ⟨handler, 8, 0, 14, false, rpl.extractLsb' 5 2, true⟩ := by
  have slice : ∀ start len, start + len ≤ 8 →
      ((0x8e#32 ||| (rpl &&& 3#32 <<< 5)).setWidth 8).extractLsb' start len =
        (0x8e#32).extractLsb' start len |||
          (rpl.extractLsb' start len &&& (3#32 <<< 5).extractLsb' start len) := by
    intro start len inside
    rw [BitVec.extractLsb'_setWidth_of_le (by omega), BitVec.extractLsb'_or, BitVec.extractLsb'_and]
  have bit : ∀ i < 8, ((0x8e#32 ||| (rpl &&& 3#32 <<< 5)).setWidth 8).getLsbD i =
      ((0x8e#32).getLsbD i || (rpl.getLsbD i && (3#32 <<< 5).getLsbD i)) := by
    intro i inside
    simp only [BitVec.getLsbD_setWidth, BitVec.getLsbD_or, BitVec.getLsbD_and, inside, decide_true,
      Bool.true_and]
  have whole : ∀ level : BitVec 2, level &&& 3#2 = level := by decide
  rw [setInt, Function.update_self, gate_entryFor, slice 0 4 (by decide), slice 5 2 (by decide),
    bit 4 (by decide), bit 7 (by decide)]
  simp [whole]

theorem gate_setC8 (c8h : BitVec 32) :
    (setC8 entries c8h 0xc8).gate = ⟨c8h, 8, 0, 14, false, 3, true⟩ := by
  rw [setC8, Function.update_self, gate_entryFor]
  rfl

end Decode

/-! ## The installed gate -/

section Installed

/-- The entry of a vector is a present 32-bit interrupt gate to the handler with
the given privilege level, and the other entries are those of an earlier table. -/
structure Installed (before after : Idt) (intr : Fin idtEntryCount) (handler rpl : BitVec 32) : Prop where
  offset : (after intr).gate.offset = handler
  selector : (after intr).gate.selector = 8
  zero : (after intr).gate.reserved = 0
  type : (after intr).gate.type = 14 ∧ (after intr).gate.segment = false
  present : (after intr).gate.present = true
  dpl : (after intr).gate.dpl.toNat = rpl.toNat
  others : ∀ other, other ≠ intr → after other = before other

variable (entries : Idt) (intr : Fin idtEntryCount) (handler : BitVec 32)

/-- A level below 32 leaves the bits 5 and 6 clear. -/
theorem dpl_setInt {rpl : BitVec 32} (level : rpl.toNat < 32) :
    (setInt entries intr handler rpl intr).gate.dpl = 0 := by
  rw [gate_setInt]
  apply BitVec.eq_of_toNat_eq
  rw [BitVec.extractLsb'_toNat, Nat.shiftRight_eq_div_pow, Nat.div_eq_of_lt level]
  rfl

theorem installed_iff {rpl : BitVec 32} (level : rpl.toNat < 32) :
    Installed entries (setInt entries intr handler rpl) intr handler rpl ↔ rpl = 0 := by
  constructor
  · intro installed
    have none := installed.dpl
    rw [dpl_setInt entries intr handler level] at none
    exact BitVec.eq_of_toNat_eq none.symm
  · rintro rfl
    have gate := gate_setInt entries intr handler 0
    refine ⟨?_, ?_, ?_, ?_, ?_, ?_, ?_⟩
    · rw [gate]
    · rw [gate]
    · rw [gate]
    · rw [gate]
      exact ⟨rfl, rfl⟩
    · rw [gate]
    · rw [gate]
      rfl
    · intro other different
      exact Function.update_of_ne different _ _

/-- Only the kernel reaches a gate of `set_int`. -/
theorem reachable_setInt_iff {rpl : BitVec 32} (level : rpl.toNat < 32) (ring : Nat) :
    (setInt entries intr handler rpl intr).gate.ReachableFrom ring ↔ ring = 0 := by
  have present : (setInt entries intr handler rpl intr).gate.present = true := by
    rw [gate_setInt]
  rw [GateDescriptor.ReachableFrom, dpl_setInt entries intr handler level]
  simp [present]

/-- For the levels of the four rings: the gate is the requested one for the
level 0 only, and the gate for the system calls, installed with the level 3,
cannot be used by the programs in ring 3. -/
theorem setInt_installs_iff (rpl : BitVec 32) (ring : rpl.toNat ≤ 3) :
    (Installed entries (setInt entries intr handler rpl) intr handler rpl ↔ rpl = 0) ∧
      ¬ (syscallInit entries handler syscallInterrupt).gate.ReachableFrom 3 := by
  constructor
  · exact installed_iff entries intr handler (by omega)
  · have level : (3 : BitVec 32).toNat < 32 := by decide
    have closed := reachable_setInt_iff entries syscallInterrupt handler level 3
    exact fun reachable => absurd (closed.mp reachable) (by decide)

/-- A gate for the kernel, in an empty table. -/
theorem setInt_installs_iff_kernel :
    (0 : BitVec 32).toNat ≤ 3 ∧ Installed (fun _ => entryFor 0 0)
      (setInt (fun _ => entryFor 0 0) 0x21 0x101234 0) 0x21 0x101234 0 :=
  ⟨by decide, (setInt_installs_iff (fun _ => entryFor 0 0) 0x21 0x101234 0 (by decide)).1.mpr rfl⟩

/-- The call in `syscall::init`. -/
theorem setInt_syscall_closed :
    ¬ Installed (fun _ => entryFor 0 0) (setInt (fun _ => entryFor 0 0) 0xc9 0x101234 3) 0xc9 0x101234 3 ∧
      ¬ (syscallInit (fun _ => entryFor 0 0) 0x101234 0xc9).gate.ReachableFrom 3 := by
  constructor
  · intro installed
    exact absurd installed.dpl (by decide)
  · intro reachable
    exact absurd reachable.2 (by decide)

/-- The table of `interrupt::init` admits the system calls of ring 3, until
`syscall::init` replaces the gate. -/
theorem syscall_gate_closed_by_init (irq : Nat → BitVec 32) (stub : BitVec 32) :
    (init irq stub entries syscallInterrupt).gate.ReachableFrom 3 ∧
      ∀ ring, (syscallInit (init irq stub entries) handler syscallInterrupt).gate.ReachableFrom ring ↔
        ring = 0 := by
  constructor
  · have gate : (init irq stub entries syscallInterrupt).gate = ⟨stub, 8, 0, 14, false, 3, true⟩ := by
      rw [init, syscallInterrupt, Function.update_self, gate_entryFor]
      rfl
    rw [gate]
    exact ⟨rfl, Nat.le_refl 3⟩
  · intro ring
    exact reachable_setInt_iff _ syscallInterrupt handler (by decide) ring

end Installed

end Interrupt
end WeakOS
