import Mathlib
import WeakOS.Boot.Elf
import WeakOS.Boot.Handover

namespace WeakOS

open Foundation X86

/-!
# The loader of the second stage

The part of `stage2.asm` from `mov esi, 10000h` to the jump into the payload,
instruction by instruction.  Paging is on, so that only five ranges can be loaded
into, and both the directory and the instructions that are left lie in these.  The
loop saves its counter and its pointer on the stack while it loads a segment, so
that a segment may load new values for both.
-/

/-- What the loop depends on: the directory, and the instructions from `load_elf` to
the jump, which are at 8153h to 8188h. -/
def Stage2.Guarded (place : BitVec 32) : Prop :=
  (0x1000 ≤ place.toNat ∧ place.toNat < 0x2000) ∨ (0x8153 ≤ place.toNat ∧ place.toNat < 0x8189)

instance (place : BitVec 32) : Decidable (Stage2.Guarded place) := inferInstanceAs (Decidable (_ ∨ _))

namespace Boot.Cpu

variable (cpu : Cpu)

def load16 (addr : BitVec 32) : Option (BitVec 16) := do
  let low ← cpu.load addr
  let high ← cpu.load (addr + 1)
  some (high ++ low)

def load32 (addr : BitVec 32) : Option (BitVec 32) := do
  let first ← cpu.load addr
  let second ← cpu.load (addr + 1)
  let third ← cpu.load (addr + 2)
  let fourth ← cpu.load (addr + 3)
  some (fourth ++ third ++ second ++ first)

/-- Store a byte.  There is no result when the address is not mapped, since nothing
handles the fault, nor when the directory or the instructions would change: what the
processor does then is not followed. -/
def storeByte (item : BitVec 32 × BitVec 8) : Option Cpu := do
  let place ← cpu.physical item.1
  if Stage2.Guarded place then none else cpu.store item

def store32 (addr value : BitVec 32) : Option Cpu :=
  Run.run storeByte cpu ((List.range 4).map fun k =>
    (addr + BitVec.ofNat 32 k, value.extractLsb' (8 * k) 8))

/-- `rep stosb` with the direction flag clear. -/
def repStosb (al : BitVec 8) : (ecx : Nat) → (edi : BitVec 32) → Cpu → Option Cpu
  | 0, _, cpu => some cpu
  | ecx + 1, edi, cpu => do
      let cpu ← cpu.storeByte (edi, al)
      repStosb al ecx (edi + 1) cpu

/-- `rep movsb` with the direction flag clear. -/
def repMovsb : (ecx : Nat) → (esi edi : BitVec 32) → Cpu → Option Cpu
  | 0, _, _, cpu => some cpu
  | ecx + 1, esi, edi, cpu => do
      let byte ← cpu.load esi
      let cpu ← cpu.storeByte (edi, byte)
      repMovsb ecx (esi + 1) (edi + 1) cpu

end Boot.Cpu

namespace Stage2

open Boot

/-- The registers of the loop, with the direction flag clear. -/
structure Loader where
  eax : BitVec 32
  ecx : BitVec 32
  esi : BitVec 32
  edi : BitVec 32
  esp : BitVec 32
  cpu : Cpu

namespace Loader

def push (value : BitVec 32) (loader : Loader) : Option Loader := do
  let cpu ← loader.cpu.store32 (loader.esp - 4) value
  some { loader with esp := loader.esp - 4, cpu }

def popEsi (loader : Loader) : Option Loader := do
  let esi ← loader.cpu.load32 loader.esp
  some { loader with esi, esp := loader.esp + 4 }

def popEcx (loader : Loader) : Option Loader := do
  let ecx ← loader.cpu.load32 loader.esp
  some { loader with ecx, esp := loader.esp + 4 }

/-- `rep stosb`. -/
def stosb (loader : Loader) : Option Loader := do
  let cpu ← loader.cpu.repStosb (loader.eax.setWidth 8) loader.ecx.toNat loader.edi
  some { loader with ecx := 0, edi := loader.edi + loader.ecx, cpu }

/-- `rep movsb`. -/
def movsb (loader : Loader) : Option Loader := do
  let cpu ← loader.cpu.repMovsb loader.ecx.toNat loader.esi loader.edi
  some { loader with ecx := 0, esi := loader.esi + loader.ecx, edi := loader.edi + loader.ecx, cpu }

/-- From `jne` to `skip_section`. -/
def loadSection (loader : Loader) : Option Loader := do
  let loader ← loader.push loader.ecx
  let loader ← loader.push loader.esi
  let loader := { loader with ecx := ← loader.cpu.load32 (loader.esi + 20) }
  let loader := { loader with edi := ← loader.cpu.load32 (loader.esi + 8) }
  let loader := { loader with eax := loader.eax ^^^ loader.eax }
  let loader ← loader.stosb
  let loader := { loader with ecx := ← loader.cpu.load32 (loader.esi + 16) }
  let loader := { loader with edi := ← loader.cpu.load32 (loader.esi + 8) }
  let loader := { loader with esi := ← loader.cpu.load32 (loader.esi + 4) }
  let loader := { loader with esi := loader.esi + 0x10000 }
  let loader ← loader.movsb
  let loader ← loader.popEsi
  loader.popEcx

/-- From `load_elf` to `loop`. -/
def round (loader : Loader) : Option Loader := do
  let loader := { loader with eax := ← loader.cpu.load32 loader.esi }
  let loader ← if loader.eax ≠ 1 then some loader else loader.loadSection
  some { loader with esi := loader.esi + 32 }

/-- The loop; there is no result when it needs more than `fuel` rounds. -/
def loadElf : (fuel : Nat) → Loader → Option Loader
  | 0, _ => none
  | fuel + 1, loader => do
      let loader ← loader.round
      let loader := { loader with ecx := loader.ecx - 1 }
      if loader.ecx ≠ 0 then loadElf fuel loader else some loader

/-- Where the loop begins, with the stack pointer that stage 2 has set. -/
def start (eax edi : BitVec 32) (cpu : Cpu) : Option Loader := do
  let count ← cpu.load16 (0x10000 + 44)
  let table ← cpu.load32 (0x10000 + 28)
  some ⟨eax, count.setWidth 32, table + 0x10000, edi, 0x8000, cpu⟩

end Loader

/-- The target of the jump into the payload, and the processor there. -/
def stage2 (eax edi : BitVec 32) (fuel : Nat) (cpu : Cpu) : Option (BitVec 32 × Cpu) := do
  let loader ← Loader.start eax edi cpu
  let loader ← loader.loadElf fuel
  let entry ← loader.cpu.load32 (0x10000 + 24)
  some (entry, loader.cpu)

/-! ## Flat memory under the second stage's directory -/

def Mapped (addr : BitVec 32) : Prop := firstFrame (addr.toNat / 0x1000) ≠ none

/-- The loop may store a byte here. -/
def Writable (addr : BitVec 32) : Prop := Mapped addr ∧ ¬ Guarded addr

/-- The processor has the second stage's directory, and what is mapped is this memory. -/
structure Seen (cpu : Cpu) (mem : Mem) : Prop extends Handed cpu where
  shows : Shows cpu mem

section Seen

variable {cpu : Cpu} {mem : Mem} {addr esi edi : BitVec 32} {count : Nat}

theorem Seen.physical (seen : Seen cpu mem) (mapped : Mapped addr) :
    ∃ place, cpu.physical addr = some place ∧ (Guarded place → Guarded addr) := by
  rcases Option.ne_none_iff_exists'.mp mapped with ⟨frame, found⟩
  have target : cpu.physical addr = some _ :=
    congrArg (Option.map _) ((seen.toHanded.walk (page_lt addr)).trans found)
  have cases := seen.toHanded.physical_cases target
  refine ⟨_, target, fun guarded => ?_⟩
  -- Only the first range leads below 4 MiB, and it leaves addresses as they are.
  unfold Guarded at guarded ⊢
  omega

theorem Seen.load (seen : Seen cpu mem) (mapped : Mapped addr) : cpu.load addr = some (mem addr) := by
  rcases seen.physical mapped with ⟨place, target, _⟩
  rw [Cpu.load, target, Option.map_some, seen.shows addr place target]

theorem Seen.load16 (seen : Seen cpu mem) (mapped : ∀ byte, (byte - addr).toNat < 2 → Mapped byte) :
    cpu.load16 addr = some (Elf.read16 mem addr) := by
  have first := seen.load (mapped addr (by bv_omega))
  have second := seen.load (mapped (addr + 1) (by bv_omega))
  rw [Cpu.load16, first, second]
  rfl

theorem Seen.load32 (seen : Seen cpu mem) (mapped : ∀ byte, (byte - addr).toNat < 4 → Mapped byte) :
    cpu.load32 addr = some (read32 mem addr) := by
  have first := seen.load (mapped addr (by bv_omega))
  have second := seen.load (mapped (addr + 1) (by bv_omega))
  have third := seen.load (mapped (addr + 2) (by bv_omega))
  have fourth := seen.load (mapped (addr + 3) (by bv_omega))
  rw [Cpu.load32, first, second, third, fourth]
  rfl

theorem Seen.storeByte (seen : Seen cpu mem) (value : BitVec 8) (writable : Writable addr) :
    ∃ next, cpu.storeByte (addr, value) = some next ∧ Seen next (Function.update mem addr value) := by
  rcases seen.physical writable.1 with ⟨place, target, guarded⟩
  have outside : addr.toNat < 0x1000 ∨ 0x2000 ≤ addr.toNat := by
    have free := writable.2
    unfold Guarded at free
    omega
  have stored : cpu.store (addr, value) = some _ := congrArg (Option.map _) target
  refine ⟨_, ?_, seen.toHanded.store outside stored, seen.shows.store seen.toHanded outside stored⟩
  rw [Cpu.storeByte, target, Option.bind_eq_bind, Option.bind_some,
    if_neg (fun inside => writable.2 (guarded inside)), stored]

/-- Without its first byte, a range is inside itself. -/
theorem inside_succ {base byte : BitVec 32} (small : count + 1 < 2 ^ 32)
    (inside : (byte - (base + 1)).toNat < count) : (byte - base).toNat < count + 1 := by
  bv_omega

/-- Bytes that are stored one behind the other. -/
theorem Seen.repStosb (seen : Seen cpu mem) (al : BitVec 8) (small : count < 2 ^ 32)
    (writable : ∀ byte, (byte - edi).toNat < count → Writable byte) :
    ∃ next, cpu.repStosb al count edi = some next ∧ Seen next (X86.repStosb al count edi mem) := by
  induction count generalizing cpu mem edi with
  | zero => exact ⟨cpu, rfl, seen⟩
  | succ count inductionHypothesis =>
      rcases seen.storeByte al (writable edi (by bv_omega)) with ⟨between, stored, later⟩
      rcases inductionHypothesis later (by omega)
        (fun byte inside => writable byte (inside_succ small inside)) with ⟨last, filled, done⟩
      refine ⟨last, ?_, done⟩
      rw [Cpu.repStosb, stored]
      exact filled

/-- Bytes that are copied one after the other. -/
theorem Seen.repMovsb (seen : Seen cpu mem) (small : count < 2 ^ 32)
    (mapped : ∀ byte, (byte - esi).toNat < count → Mapped byte)
    (writable : ∀ byte, (byte - edi).toNat < count → Writable byte) :
    ∃ next, cpu.repMovsb count esi edi = some next ∧ Seen next (X86.repMovsb count esi edi mem) := by
  induction count generalizing cpu mem esi edi with
  | zero => exact ⟨cpu, rfl, seen⟩
  | succ count inductionHypothesis =>
      have read := seen.load (mapped esi (by bv_omega))
      rcases seen.storeByte (mem esi) (writable edi (by bv_omega)) with ⟨between, stored, later⟩
      rcases inductionHypothesis later (by omega)
        (fun byte inside => mapped byte (inside_succ small inside))
        (fun byte inside => writable byte (inside_succ small inside)) with ⟨last, copied, done⟩
      refine ⟨last, ?_, done⟩
      rw [Cpu.repMovsb, read, Option.bind_eq_bind, Option.bind_some, stored]
      exact copied

theorem Seen.store32 (seen : Seen cpu mem) (value : BitVec 32)
    (writable : ∀ byte, (byte - addr).toNat < 4 → Writable byte) :
    ∃ next, cpu.store32 addr value = some next ∧ Seen next (write32 mem addr value) := by
  have byte : ∀ k < 4, Writable (addr + BitVec.ofNat 32 k) := fun k small => writable _ (by bv_omega)
  rcases seen.storeByte (value.extractLsb' 0 8) (byte 0 (by decide)) with ⟨first, one, seen⟩
  rcases seen.storeByte (value.extractLsb' 8 8) (byte 1 (by decide)) with ⟨second, two, seen⟩
  rcases seen.storeByte (value.extractLsb' 16 8) (byte 2 (by decide)) with ⟨third, three, seen⟩
  rcases seen.storeByte (value.extractLsb' 24 8) (byte 3 (by decide)) with ⟨fourth, four, seen⟩
  refine ⟨fourth, ?_, ?_⟩
  · exact Run.run_cons_eq_some.mpr ⟨first, one, Run.run_cons_eq_some.mpr ⟨second, two,
      Run.run_cons_eq_some.mpr ⟨third, three, Run.run_cons_eq_some.mpr ⟨fourth, four, rfl⟩⟩⟩⟩
  · have word : write32 mem addr value = overwrite addr 4 (fun k => value.extractLsb' (8 * k) 8) mem := rfl
    have bytes : write32 mem addr value = Function.update (Function.update (Function.update
        (Function.update mem (addr + BitVec.ofNat 32 0) (value.extractLsb' 0 8))
          (addr + BitVec.ofNat 32 1) (value.extractLsb' 8 8))
          (addr + BitVec.ofNat 32 2) (value.extractLsb' 16 8))
          (addr + BitVec.ofNat 32 3) (value.extractLsb' 24 8) := by
      have place : ∀ base : BitVec 32, base + BitVec.ofNat 32 0 = base ∧
          base + BitVec.ofNat 32 1 = base + 1 ∧ base + BitVec.ofNat 32 2 = base + 1 + 1 ∧
          base + BitVec.ofNat 32 3 = base + 1 + 1 + 1 := by
        intro base
        refine ⟨add_zero base, rfl, ?_, ?_⟩ <;> bv_omega
      rcases place addr with ⟨zeroth, next, after, final⟩
      rw [word, overwrite_succ (by decide), overwrite_succ (by decide), overwrite_succ (by decide),
        overwrite_succ (by decide), overwrite_zero, zeroth, next, after, final]
    rw [bytes]
    exact seen

end Seen

/-! ## A round -/

/-- What lies below 12 MiB is mapped. -/
theorem mapped_of_lt {addr : BitVec 32} (below : addr.toNat < 0xc00000) : Mapped addr := by
  unfold Mapped firstFrame
  split_ifs
  all_goals first | exact Option.some_ne_none _ | omega

/-- The stack is behind the directory and in front of the instructions. -/
theorem writable_of_stack {addr : BitVec 32} (above : 0x7ff8 ≤ addr.toNat) (below : addr.toNat < 0x8000) :
    Writable addr := by
  refine ⟨mapped_of_lt (by omega), fun guarded => ?_⟩
  unfold Guarded at guarded
  omega

/-- The memory when the counter and the pointer have been saved. -/
def saved (ecx esi : BitVec 32) (mem : Mem) : Mem := write32 (write32 mem 0x7ffc ecx) 0x7ff8 esi

/-- Two memories are the same outside the two words below the stack pointer. -/
def AgreeOutside (mem other : Mem) : Prop :=
  ∀ addr, 8 ≤ (addr - 0x7ff8).toNat → mem addr = other addr

/-- A segment can be loaded: its range is mapped, and misses the directory, the
instructions and the two words below the stack pointer. -/
structure Loadable (header : Elf.ProgHeader) : Prop where
  writable : ∀ byte, (byte - header.pVaddr).toNat < header.extent → Writable byte
  clear : NoOverlap header.pVaddr header.extent 0x7ff8 8

section Round

variable {loader : Loader} {mem source : Mem} {size : Nat} {offset ecx esi : BitVec 32}
  {header : Elf.ProgHeader}

theorem saved_agree : AgreeOutside (saved ecx esi mem) mem := by
  intro addr outside
  rw [saved, write32_of_outside _ _ (by bv_omega), write32_of_outside _ _ (by bv_omega)]

theorem read32_saved_ecx : read32 (saved ecx esi mem) 0x7ffc = ecx := by
  rw [saved, read32_write32_of_apart _ _ (by decide), read32_write32]

theorem read32_saved_esi : read32 (saved ecx esi mem) 0x7ff8 = esi := by
  rw [saved, read32_write32]

theorem Seen.saved {cpu : Cpu} (seen : Seen cpu mem) : ∃ between next,
    cpu.store32 0x7ffc ecx = some between ∧ between.store32 0x7ff8 esi = some next ∧
      Seen next (Stage2.saved ecx esi mem) := by
  have stack : ∀ word : BitVec 32, 0x7ff8 ≤ word.toNat → word.toNat + 4 ≤ 0x8000 →
      ∀ byte, (byte - word).toNat < 4 → Writable byte :=
    fun word above below byte near => writable_of_stack (by bv_omega) (by bv_omega)
  rcases seen.store32 ecx (stack 0x7ffc (by decide) (by decide)) with ⟨between, first, seen⟩
  rcases seen.store32 esi (stack 0x7ff8 (by decide) (by decide)) with ⟨next, second, seen⟩
  exact ⟨between, next, first, second, seen⟩

/-- The words that the pops read. -/
theorem Seen.load32_stack {cpu : Cpu} (seen : Seen cpu mem) {word : BitVec 32}
    (onStack : (word - 0x7ff8).toNat + 4 ≤ 8) : cpu.load32 word = some (read32 mem word) :=
  seen.load32 fun byte near => mapped_of_lt (by bv_omega)

/-- The image can be read when it lies below 12 MiB. -/
theorem mapped_of_image (below : 0x10000 + size ≤ 0xc00000) {addr : BitVec 32}
    (inside : (addr - 0x10000).toNat < size) : Mapped addr :=
  mapped_of_lt (by bv_omega)

/-- The fields of an entry, by their offsets. -/
structure Fields (cpu : Cpu) (esi : BitVec 32) (header : Elf.ProgHeader) : Prop where
  type : cpu.load32 esi = some header.type
  pOffset : cpu.load32 (esi + 4) = some header.pOffset
  pVaddr : cpu.load32 (esi + 8) = some header.pVaddr
  pFilesz : cpu.load32 (esi + 16) = some header.pFilesz
  pMemsz : cpu.load32 (esi + 20) = some header.pMemsz

theorem Seen.fields {cpu : Cpu} (seen : Seen cpu mem) (same : Elf.SameImage mem source 0x10000 size)
    (below : 0x10000 + size ≤ 0xc00000) (pointer : esi = 0x10000 + offset)
    (inside : offset.toNat + 32 ≤ size) (here : Elf.ProgHeader.read source esi = header) :
    Fields cpu esi header := by
  have read := same.progHeader inside
  rw [← pointer, here] at read
  have word : ∀ k : BitVec 32, k.toNat + 4 ≤ 32 →
      cpu.load32 (esi + k) = some (read32 mem (esi + k)) := by
    intro k small
    refine seen.load32 fun byte near => mapped_of_image below ?_
    rw [pointer] at near
    bv_omega
  have type := word 0 (by decide)
  rw [← read, Elf.ProgHeader.read]
  refine ⟨?_, word 4 (by decide), word 8 (by decide), word 16 (by decide), word 20 (by decide)⟩
  rw [add_zero] at type
  exact type.trans (congrArg (fun addr => some (read32 mem addr)) (add_zero esi).symm)

/-- When its entry can be read, the segment is loaded, and then the counter and the
pointer are read from the stack. -/
theorem loadSection_eq (seen : Seen loader.cpu mem) (stack : loader.esp = 0x8000)
    (same : Elf.SameImage (saved loader.ecx loader.esi mem) source 0x10000 size)
    (below : 0x10000 + size ≤ 0xc00000) (pointer : loader.esi = 0x10000 + offset)
    (inside : offset.toNat + 32 ≤ size) (here : Elf.ProgHeader.read source loader.esi = header)
    (loads : header.type = 1) (file : header.pOffset.toNat + header.pFilesz.toNat ≤ size)
    (elsewhere : NoOverlap header.pVaddr header.extent 0x10000 size)
    (writable : ∀ byte, (byte - header.pVaddr).toNat < header.extent → Writable byte) :
    let after := Elf.loadSegment source 0x10000 header (saved loader.ecx loader.esi mem)
    ∃ eax edi next, loader.loadSection =
        some ⟨eax, read32 after 0x7ffc, read32 after 0x7ff8, edi, 0x8000, next⟩ ∧ Seen next after := by
  intro after
  rcases loader with ⟨eax, ecx, esi, edi, esp, cpu⟩
  dsimp only at seen stack same pointer here after
  subst stack
  rcases @Seen.saved mem ecx esi cpu seen with ⟨between, stacked, counter, top, seen⟩
  have first := seen.fields same below pointer inside here
  -- The range is zeroed.
  rcases seen.repStosb 0 (BitVec.isLt header.pMemsz) (fun byte near =>
    writable byte (Nat.lt_of_lt_of_le near (Nat.le_max_left _ _))) with ⟨zeroed, filled, seen⟩
  rw [repStosb_eq _ _ (Nat.le_of_lt (BitVec.isLt _))] at seen
  have kept := same.overwrite (elsewhere.mono (Nat.le_max_left _ _)) (fun _ => 0)
  have again := seen.fields kept below pointer inside here
  -- The bytes of the file are copied.
  have position : header.pOffset + 0x10000 = 0x10000 + header.pOffset := add_comm _ _
  have sources : ∀ byte, (byte - (0x10000 + header.pOffset)).toNat < header.pFilesz.toNat →
      Mapped byte := fun byte near => mapped_of_image below (by bv_omega)
  rcases seen.repMovsb (BitVec.isLt header.pFilesz) sources (fun byte near =>
    writable byte (Nat.lt_of_lt_of_le near (Nat.le_max_right _ _))) with ⟨last, copied, seen⟩
  have loaded : Elf.loadSegment source 0x10000 header (Stage2.saved ecx esi mem) = _ := if_pos loads
  rw [kept.copied elsewhere file, ← loaded] at seen
  refine ⟨eax ^^^ eax, header.pVaddr + header.pFilesz, last, ?_, seen⟩
  have popTop := @Seen.load32_stack _ last seen 0x7ff8 (by decide)
  have popCounter := @Seen.load32_stack _ last seen 0x7ffc (by decide)
  have clear : (eax ^^^ eax).setWidth 8 = (0 : BitVec 8) := by rw [BitVec.xor_self]; rfl
  have pushes : (0x8000 : BitVec 32) - 4 = 0x7ffc ∧ (0x7ffc : BitVec 32) - 4 = 0x7ff8 := by decide
  have pops : (0x7ff8 : BitVec 32) + 4 = 0x7ffc ∧ (0x7ffc : BitVec 32) + 4 = 0x8000 := by decide
  simp only [Loader.loadSection, Loader.push, Loader.stosb, Loader.movsb, Loader.popEsi, Loader.popEcx,
    Option.bind_eq_bind, Option.bind_some, pushes.1, pushes.2, pops.1, pops.2, counter, top,
    first.pMemsz, first.pVaddr, clear, filled, again.pFilesz, again.pVaddr, again.pOffset, position,
    copied, popTop, popCounter]
  rfl

/-- A round with a segment goes on with the counter and the pointer that are on the stack then. -/
theorem round_eq (seen : Seen loader.cpu mem) (stack : loader.esp = 0x8000)
    (same : Elf.SameImage mem source 0x10000 size) (below : 0x10000 + size ≤ 0xc00000)
    (pointer : loader.esi = 0x10000 + offset) (inside : offset.toNat + 32 ≤ size)
    (here : Elf.ProgHeader.read source loader.esi = header) (loads : header.type = 1)
    (file : header.pOffset.toNat + header.pFilesz.toNat ≤ size)
    (elsewhere : NoOverlap header.pVaddr header.extent 0x10000 size)
    (writable : ∀ byte, (byte - header.pVaddr).toNat < header.extent → Writable byte) :
    let after := Elf.loadSegment source 0x10000 header (saved loader.ecx loader.esi mem)
    ∃ eax edi next, loader.round =
        some ⟨eax, read32 after 0x7ffc, read32 after 0x7ff8 + 32, edi, 0x8000, next⟩ ∧ Seen next after := by
  intro after
  have fields := seen.fields same below pointer inside here
  have image : Elf.SameImage (saved loader.ecx loader.esi mem) source 0x10000 size :=
    fun addr within => (saved_agree addr (by bv_omega)).trans (same addr within)
  rcases @loadSection_eq { loader with eax := header.type } mem source size offset header seen stack
    image below pointer inside here loads file elsewhere writable with ⟨eax, edi, next, loaded, later⟩
  refine ⟨eax, edi, next, ?_, later⟩
  dsimp only at loaded
  simp only [Loader.round, fields.type, Option.bind_eq_bind, Option.bind_some,
    if_neg (not_not.mpr loads), loaded]
  rfl

theorem AgreeOutside.trans {first second third : Mem} (before : AgreeOutside first second)
    (after : AgreeOutside second third) : AgreeOutside first third :=
  fun addr outside => (before addr outside).trans (after addr outside)

theorem AgreeOutside.loadSegment {other : Mem} (agree : AgreeOutside mem other) :
    AgreeOutside (Elf.loadSegment source 0x10000 header mem)
      (Elf.loadSegment source 0x10000 header other) := by
  intro addr outside
  have here := agree addr outside
  rw [Elf.loadSegment, Elf.loadSegment]
  split
  · simp only [overwrite, here]
  · exact here

/-- The image lies behind the stack. -/
theorem AgreeOutside.sameImage (agree : AgreeOutside mem source) (below : 0x10000 + size ≤ 0xc00000) :
    Elf.SameImage mem source 0x10000 size :=
  fun addr inside => agree addr (by bv_omega)

/-- A segment that is loaded elsewhere keeps a word of the stack. -/
theorem read32_loadSegment {word : BitVec 32} (clear : NoOverlap header.pVaddr header.extent 0x7ff8 8)
    (onStack : (word - 0x7ff8).toNat + 4 ≤ 8) :
    read32 (Elf.loadSegment source 0x10000 header mem) word = read32 mem word := by
  refine read32_congr (fun byte near => ?_)
  have within : (byte - 0x7ff8).toNat < 8 := by bv_omega
  rw [Elf.loadSegment]
  split
  · rw [overwrite_noOverlap (clear.mono (Nat.le_max_right _ _)) within,
      overwrite_noOverlap (clear.mono (Nat.le_max_left _ _)) within]
  · rfl

/-- A round loads the segment of its entry, and goes on to the next entry. -/
theorem round_spec {other : Mem} (seen : Seen loader.cpu mem) (stack : loader.esp = 0x8000)
    (below : 0x10000 + size ≤ 0xc00000) (same : Elf.SameImage mem source 0x10000 size)
    (agree : AgreeOutside mem other) (pointer : loader.esi = 0x10000 + offset)
    (inside : offset.toNat + 32 ≤ size) (here : Elf.ProgHeader.read source loader.esi = header)
    (file : header.type = 1 → header.pOffset.toNat + header.pFilesz.toNat ≤ size)
    (elsewhere : header.type = 1 → NoOverlap header.pVaddr header.extent 0x10000 size)
    (fits : header.type = 1 → Loadable header) :
    ∃ eax edi next after,
      loader.round = some ⟨eax, loader.ecx, loader.esi + 32, edi, 0x8000, next⟩ ∧ Seen next after ∧
        AgreeOutside after (Elf.loadSegment source 0x10000 header other) ∧
        Elf.SameImage after source 0x10000 size := by
  by_cases loads : header.type = 1
  · have kept : AgreeOutside (saved loader.ecx loader.esi mem) mem := saved_agree
    have image : Elf.SameImage (saved loader.ecx loader.esi mem) source 0x10000 size :=
      fun addr within => (kept.sameImage below addr within).trans (same addr within)
    rcases round_eq seen stack same below pointer inside here loads (file loads) (elsewhere loads)
      (fits loads).writable with ⟨eax, edi, next, stepped, later⟩
    rw [read32_loadSegment (fits loads).clear (by decide), read32_saved_ecx,
      read32_loadSegment (fits loads).clear (by decide), read32_saved_esi] at stepped
    exact ⟨eax, edi, next, _, stepped, later, (kept.trans agree).loadSegment, image.loadSegment elsewhere⟩
  · have fields := seen.fields same below pointer inside here
    refine ⟨header.type, loader.edi, loader.cpu, mem, ?_, seen, ?_, same⟩
    · simp only [Loader.round, fields.type, Option.bind_eq_bind, Option.bind_some, if_pos loads, stack]
    · rw [Elf.loadSegment, if_neg loads]
      exact agree

end Round

/-! ## The loop -/

/-- All segments of an image can be loaded. -/
def Fits (source : Mem) : Prop :=
  ∀ header ∈ Elf.progHeaders source 0x10000, header.type = 1 → Loadable header

section Loop

variable {loader : Loader} {mem source other : Mem} {size : Nat}

theorem pheader_succ (source : Mem) (data : BitVec 32) (entry : Nat) :
    Elf.pheader source data (entry + 1) = Elf.pheader source data entry + 32 := by
  rw [Elf.pheader, Nat.mul_succ, BitVec.ofNat_add, ← add_assoc]
  rfl

/-- From an entry on, the loop loads the segments that are left. -/
theorem loadElf_spec (image : Elf.Image source 0x10000 size) (below : 0x10000 + size ≤ 0xc00000)
    (fits : Fits source) {entry fuel : Nat}
    (before : entry < (Elf.headerEntryCount source 0x10000).toNat)
    (counter : loader.ecx = BitVec.ofNat 32 ((Elf.headerEntryCount source 0x10000).toNat - entry))
    (pointer : loader.esi = Elf.pheader source 0x10000 entry) (stack : loader.esp = 0x8000)
    (seen : Seen loader.cpu mem) (same : Elf.SameImage mem source 0x10000 size)
    (agree : AgreeOutside mem other)
    (enough : (Elf.headerEntryCount source 0x10000).toNat - entry ≤ fuel) :
    ∃ last after, loader.loadElf fuel = some last ∧ Seen last.cpu after ∧
      Elf.SameImage after source 0x10000 size ∧
      AgreeOutside after (Elf.loadSegments source 0x10000
        ((Elf.progHeaders source 0x10000).drop entry) other) := by
  have bound := (Elf.headerEntryCount source 0x10000).isLt
  have length : (Elf.progHeaders source 0x10000).length =
      (Elf.headerEntryCount source 0x10000).toNat := by
    rw [Elf.progHeaders, List.length_map, List.length_range]
  induction fuel generalizing loader entry mem other with
  | zero => omega
  | succ fuel inductionHypothesis =>
      rcases image.entry before with ⟨offset, address, inside⟩
      have member := Elf.progHeaders_mem before
      rw [← pointer] at member
      rcases round_spec seen stack below same agree (pointer.trans address) inside rfl
        (image.files _ member) (image.elsewhere _ member) (fits _ member) with
        ⟨eax, edi, next, after, stepped, seen, agrees, sames⟩
      rw [pointer] at agrees
      rw [Loader.loadElf, stepped, Elf.progHeaders_drop before, Option.bind_eq_bind, Option.bind_some]
      dsimp only
      have counted : loader.ecx - 1 =
          BitVec.ofNat 32 ((Elf.headerEntryCount source 0x10000).toNat - (entry + 1)) := by
        rw [counter]
        apply BitVec.eq_of_toNat_eq
        bv_omega
      have following : loader.esi + 32 = Elf.pheader source 0x10000 (entry + 1) := by
        rw [pointer, pheader_succ]
      by_cases last : entry + 1 < (Elf.headerEntryCount source 0x10000).toNat
      · have goes : loader.ecx - 1 ≠ 0 := by
          rw [counted]
          bv_omega
        rw [if_pos goes]
        exact @inductionHypothesis ⟨eax, loader.ecx - 1, loader.esi + 32, edi, 0x8000, next⟩ _ _
          (entry + 1) last counted following rfl seen sames agrees (by omega)
      · have stops : ¬ loader.ecx - 1 ≠ 0 := by
          rw [counted, show (Elf.headerEntryCount source 0x10000).toNat - (entry + 1) = 0 by omega]
          exact not_not.mpr rfl
        rw [if_neg stops]
        refine ⟨_, after, rfl, seen, sames, ?_⟩
        rw [List.drop_eq_nil_of_le (by omega)]
        exact agrees

/-- Where the loop begins on an image. -/
theorem start_eq {cpu : Cpu} (seen : Seen cpu mem) (eax edi : BitVec 32) :
    Loader.start eax edi cpu = some ⟨eax, (Elf.headerEntryCount mem 0x10000).setWidth 32,
      Elf.pheader mem 0x10000 0, edi, 0x8000, cpu⟩ := by
  have low : ∀ byte : BitVec 32, (byte - 0x10000).toNat < 0x1000 → Mapped byte :=
    fun byte near => mapped_of_lt (by bv_omega)
  have count := @Seen.load16 cpu mem (0x10000 + 44) seen (fun byte near => low byte (by bv_omega))
  have table := @Seen.load32 cpu mem (0x10000 + 28) seen (fun byte near => low byte (by bv_omega))
  have countAt : Elf.headerEntryCount mem 0x10000 = Elf.read16 mem (0x10000 + 44) := rfl
  have tableAt : Elf.pheader mem 0x10000 0 = read32 mem (0x10000 + 28) + 0x10000 := by
    rw [Elf.pheader, Nat.mul_zero, BitVec.add_zero, add_comm]
    rfl
  simp only [Loader.start, count, table, countAt, tableAt, Option.bind_eq_bind, Option.bind_some]

/-- What is not mapped is not loaded into. -/
theorem loadSegments_of_not_mapped {headers : List Elf.ProgHeader} {data addr : BitVec 32}
    (fits : ∀ header ∈ headers, header.type = 1 → Loadable header) (outside : ¬ Mapped addr) :
    Elf.loadSegments source data headers mem addr = mem addr := by
  induction headers generalizing mem with
  | nil => rfl
  | cons header headers inductionHypothesis =>
      have later := @inductionHypothesis (Elf.loadSegment source data header mem)
        (fun other member => fits other (List.mem_cons_of_mem _ member))
      rw [Elf.loadSegments, List.foldl_cons]
      refine later.trans ?_
      rw [Elf.loadSegment]
      split
      · rename_i loads
        have beyond : header.extent ≤ (addr - header.pVaddr).toNat := Nat.not_lt.mp fun within =>
          outside ((fits header List.mem_cons_self loads).writable addr within).1
        rw [overwrite_outside (Nat.le_trans (Nat.le_max_right _ _) beyond),
          overwrite_outside (Nat.le_trans (Nat.le_max_left _ _) beyond)]
      · rfl

end Loop

/-! ## The two loaders -/

/-- The same bytes at two places. -/
def Copied (mem : Mem) (data other : BitVec 32) (size : Nat) : Prop :=
  ∀ k : BitVec 32, k.toNat < size → mem (data + k) = mem (other + k)

section Copied

variable {mem : Mem} {data other : BitVec 32} {size : Nat} (copied : Copied mem data other size)

include copied

theorem Copied.read32 {offset : BitVec 32} (inside : offset.toNat + 4 ≤ size) :
    X86.read32 mem (data + offset) = X86.read32 mem (other + offset) := by
  have byte : ∀ k : BitVec 32, k.toNat < 4 → mem (data + offset + k) = mem (other + offset + k) := by
    intro k few
    rw [add_assoc, add_assoc]
    exact copied (offset + k) (by bv_omega)
  have first := byte 0 (by decide)
  rw [add_zero, add_zero] at first
  rw [X86.read32, X86.read32, byte 3 (by decide), byte 2 (by decide), byte 1 (by decide), first]

theorem Copied.headerPos (header : 52 ≤ size) : Elf.headerPos mem data = Elf.headerPos mem other := by
  have offset : Elf.packedOffset Elf.elfHeader .headerPos = 28 := rfl
  rw [Elf.headerPos, Elf.headerPos, offset, copied.read32]
  exact Nat.le_trans (by decide) header

theorem Copied.entryPoint (header : 52 ≤ size) : Elf.entryPoint mem data = Elf.entryPoint mem other := by
  have offset : Elf.packedOffset Elf.elfHeader .entryPoint = 24 := rfl
  rw [Elf.entryPoint, Elf.entryPoint, offset, copied.read32]
  exact Nat.le_trans (by decide) header

theorem Copied.headerEntryCount (header : 52 ≤ size) :
    Elf.headerEntryCount mem data = Elf.headerEntryCount mem other := by
  have offset : Elf.packedOffset Elf.elfHeader .headerEntryCount = 44 := rfl
  rw [Elf.headerEntryCount, Elf.headerEntryCount, offset, Elf.read16, Elf.read16, add_assoc, add_assoc,
    copied, copied]
  · exact Nat.lt_of_lt_of_le (by decide) header
  · exact Nat.lt_of_lt_of_le (by decide) header

theorem Copied.progHeader {offset : BitVec 32} (inside : offset.toNat + 32 ≤ size) :
    Elf.ProgHeader.read mem (data + offset) = Elf.ProgHeader.read mem (other + offset) := by
  have field : ∀ within : BitVec 32, within.toNat + 4 ≤ 32 →
      X86.read32 mem (data + offset + within) = X86.read32 mem (other + offset + within) := by
    intro within small
    rw [add_assoc, add_assoc]
    have inside' : (offset + within).toNat + 4 ≤ size := by bv_omega
    exact copied.read32 inside'
  simp only [Elf.ProgHeader.read]
  rw [field _ (by decide), field _ (by decide), field _ (by decide), field _ (by decide),
    field _ (by decide)]

theorem Copied.progHeaders (image : Elf.Image mem other size) :
    Elf.progHeaders mem data = Elf.progHeaders mem other := by
  rw [Elf.progHeaders, Elf.progHeaders, copied.headerEntryCount image.header]
  refine List.map_congr_left (fun entry member => ?_)
  rcases image.entry (List.mem_range.mp member) with ⟨offset, address, inside⟩
  have same : Elf.pheader mem data entry = data + offset := by
    rw [Elf.pheader, copied.headerPos image.header, add_assoc]
    rw [Elf.pheader, add_assoc] at address
    rw [add_left_cancel address]
  rw [same, address, copied.progHeader inside]

/-- A segment does not depend on where its image is. -/
theorem Copied.loadSegment {header : Elf.ProgHeader} (start : Mem)
    (file : header.type = 1 → header.pOffset.toNat + header.pFilesz.toNat ≤ size) :
    Elf.loadSegment mem data header start = Elf.loadSegment mem other header start := by
  rw [Elf.loadSegment, Elf.loadSegment]
  split
  · rename_i loads
    refine overwrite_congr (fun k inside => ?_)
    have bound := file loads
    have small : (BitVec.ofNat 32 k).toNat = k := Nat.mod_eq_of_lt (by omega)
    have within : (header.pOffset + BitVec.ofNat 32 k).toNat < size := by bv_omega
    rw [add_assoc, add_assoc]
    exact copied _ within
  · rfl

theorem Copied.loadSegments {headers : List Elf.ProgHeader} (start : Mem)
    (files : ∀ header ∈ headers, header.type = 1 →
      header.pOffset.toNat + header.pFilesz.toNat ≤ size) :
    Elf.loadSegments mem data headers start = Elf.loadSegments mem other headers start := by
  induction headers generalizing start with
  | nil => rfl
  | cons header headers inductionHypothesis =>
      have first := copied.loadSegment start (files header List.mem_cons_self)
      have later := inductionHypothesis (Elf.loadSegment mem data header start)
        (fun header member => files header (List.mem_cons_of_mem _ member))
      rw [first] at later
      rw [Elf.loadSegments, Elf.loadSegments, List.foldl_cons, List.foldl_cons, first]
      exact later

end Copied

/-- On an image at `data`, of which there is a copy at 10000h: when the copy is mapped and its
segments are loaded into what is mapped, behind or in front of what stage 2 needs, the constructor
and the second stage find the same entry point, and produce the same memory, except for two words
of the stack.  Where nothing is mapped neither loads anything. -/
theorem loaders_agree {cpu : Cpu} {mem : Mem} {data : BitVec 32} {size fuel : Nat}
    (eax edi : BitVec 32) (seen : Seen cpu mem) (image : Elf.Image mem data size)
    (copy : Elf.Image mem 0x10000 size) (copied : Copied mem data 0x10000 size)
    (below : 0x10000 + size ≤ 0xc00000) (fits : Fits mem)
    (enough : (Elf.headerEntryCount mem 0x10000).toNat ≤ fuel) :
    ∃ loaded entry last, Elf.elf data mem = some loaded ∧
      stage2 eax edi fuel cpu = some (entry, last) ∧ entry = loaded.entry ∧
      (∀ addr, Mapped addr → 8 ≤ (addr - 0x7ff8).toNat → last.load addr = some (loaded.mem addr)) ∧
      ∀ addr, ¬ Mapped addr → loaded.mem addr = mem addr := by
  have counter : (Elf.headerEntryCount mem 0x10000).setWidth 32 =
      BitVec.ofNat 32 ((Elf.headerEntryCount mem 0x10000).toNat - 0) := (BitVec.ofNat_toNat _ _).symm
  rcases @loadElf_spec ⟨eax, (Elf.headerEntryCount mem 0x10000).setWidth 32, Elf.pheader mem 0x10000 0,
    edi, 0x8000, cpu⟩ mem mem mem size copy below fits 0 fuel copy.nonempty
    counter rfl rfl seen (Elf.SameImage.refl _ _ _) (fun _ _ => rfl) enough with
    ⟨last, after, ended, seen', same, agree⟩
  have loads : last.cpu.load32 (0x10000 + 24) = some (read32 after (0x10000 + 24)) :=
    seen'.load32 fun byte near => mapped_of_lt (by bv_omega)
  have entry : read32 after (0x10000 + 24) = Elf.entryPoint mem data := by
    rw [copied.entryPoint image.header, same.read32 (Nat.le_trans (by decide) copy.header)]
    rfl
  refine ⟨_, read32 after (0x10000 + 24), last.cpu, Elf.elf_eq image, ?_, entry, ?_, ?_⟩
  · simp only [stage2, start_eq seen, Option.bind_eq_bind, Option.bind_some, ended, loads]
  · intro addr mapped outside
    dsimp only
    rw [copied.progHeaders copy, copied.loadSegments mem copy.files, seen'.load mapped]
    exact congrArg some (agree addr outside)
  · intro addr outside
    dsimp only
    rw [copied.progHeaders copy]
    exact loadSegments_of_not_mapped fits outside

/-! ## Images of two segments -/

section Start32

variable {ram : Mem}

/-- The second stage has cleared 16 KiB for its directory. -/
theorem start32_outside {addr : BitVec 32} (outside : 0x5000 ≤ addr.toNat) :
    (start32 ram).ram addr = ram addr := by
  simp only [start32]
  rw [write32_of_outside _ _ (by bv_omega), write32_of_outside _ _ (by bv_omega),
    write32_of_outside _ _ (by bv_omega), write32_of_outside _ _ (by bv_omega),
    write32_of_outside _ _ (by bv_omega), repStosd_eq _ _ (by decide), overwrite_outside (by bv_omega)]

/-- When there is nothing behind the first 4 MiB, all five ranges show the physical memory. -/
theorem seen_start32 (empty : ∀ addr : BitVec 32, 0x400000 ≤ addr.toNat → ram addr = 0) :
    Seen (start32 ram) (start32 ram).ram := by
  refine ⟨handed_start32 ram, fun addr place mapped => ?_⟩
  by_cases low : addr.toNat < 0x400000
  · have same : place = addr := by
      apply BitVec.eq_of_toNat_eq
      have cases := (handed_start32 ram).physical_cases mapped
      omega
    rw [same]
  · have cases := (handed_start32 ram).physical_cases mapped
    rw [start32_outside (by omega), start32_outside (by omega), empty _ (by omega), empty _ (by omega)]

end Start32

section Image

variable {mem source : Mem} {data : BitVec 32} {size : Nat}

theorem sameImage_progHeaders (same : Elf.SameImage mem source data size)
    (image : Elf.Image source data size) :
    Elf.progHeaders mem data = Elf.progHeaders source data := by
  rw [Elf.progHeaders, Elf.progHeaders, same.headerEntryCount image.header]
  refine List.map_congr_left (fun entry member => ?_)
  rcases image.entry (List.mem_range.mp member) with ⟨offset, address, inside⟩
  have pos : Elf.headerPos mem data = Elf.headerPos source data :=
    same.read32 (Nat.le_trans (by decide) image.header)
  have place : Elf.pheader mem data entry = Elf.pheader source data entry := by
    rw [Elf.pheader, Elf.pheader, pos]
  rw [place, address, same.progHeader inside]

/-- An image is one wherever its bytes are. -/
theorem sameImage_image (same : Elf.SameImage mem source data size) (image : Elf.Image source data size) :
    Elf.Image mem data size := by
  have headers := sameImage_progHeaders same image
  have count := same.headerEntryCount image.header
  have pos : Elf.headerPos mem data = Elf.headerPos source data :=
    same.read32 (Nat.le_trans (by decide) image.header)
  refine ⟨image.fits, image.header, ?_, ?_, ?_, ?_⟩
  · rw [pos, count]
    exact image.table
  · rw [count]
    exact image.nonempty
  · rw [headers]
    exact image.files
  · rw [headers]
    exact image.elsewhere

end Image

theorem noOverlap_of_le {first second : BitVec 32} {count size : Nat}
    (order : first.toNat + count ≤ second.toNat) (fits : second.toNat + size ≤ 2 ^ 32) :
    NoOverlap first count second size := by
  intro addr inside
  bv_omega

theorem noOverlap_of_ge {first second : BitVec 32} {count size : Nat}
    (order : second.toNat + size ≤ first.toNat) (fits : first.toNat + count ≤ 2 ^ 32) :
    NoOverlap first count second size := by
  intro addr inside
  bv_omega

def word (value : BitVec 32) : List (BitVec 8) :=
  (List.range 4).map (fun k => value.extractLsb' (8 * k) 8)

/-- The first segment has the words 5 and 1, and is loaded at `vaddr`; the second one
has a byte. -/
def twoSegments (vaddr : BitVec 32) : List (BitVec 8) :=
  List.replicate 28 0 ++ word 52 ++ List.replicate 12 0 ++ [2, 0] ++ List.replicate 6 0 ++
    (word 1 ++ word 116 ++ word vaddr ++ word 0 ++ word 8 ++ word 8 ++ word 0 ++ word 0) ++
    (word 1 ++ word 116 ++ word 0x100004 ++ word 0 ++ word 1 ++ word 1 ++ word 0 ++ word 0) ++
    (word 5 ++ word 1)

/-- An image at 20000h and a copy at 10000h. -/
def placed (image : List (BitVec 8)) : Mem :=
  fun addr => if addr.toNat < 0x30000 then image.getD (addr.toNat % 0x10000) 0 else 0

theorem placed_copied (image : List (BitVec 8)) : Copied (placed image) 0x20000 0x10000 124 := by
  intro k small
  have high : (0x20000 + k).toNat = 0x20000 + k.toNat := by bv_omega
  have low : (0x10000 + k).toNat = 0x10000 + k.toNat := by bv_omega
  have position : (0x20000 + k.toNat) % 0x10000 = (0x10000 + k.toNat) % 0x10000 := by omega
  simp only [placed]
  rw [high, low, if_pos (by omega), if_pos (by omega), position]

/-- The memory in which stage 2 begins to load. -/
def staged (image : List (BitVec 8)) : Mem := (start32 (placed image)).ram

theorem seen_staged (image : List (BitVec 8)) : Seen (start32 (placed image)) (staged image) :=
  seen_start32 fun addr high => if_neg (by omega)

section TwoSegments

variable {vaddr : BitVec 32} {data : BitVec 32}

theorem staged_sameImage (image : List (BitVec 8)) (place : data = 0x10000 ∨ data = 0x20000) :
    Elf.SameImage (staged image) (placed image) data 124 := by
  intro addr inside
  refine start32_outside ?_
  rcases place with rfl | rfl <;> bv_omega

theorem staged_copied (image : List (BitVec 8)) : Copied (staged image) 0x20000 0x10000 124 := by
  intro k small
  have high := staged_sameImage image (.inr rfl) (0x20000 + k) (by rwa [add_sub_cancel_left])
  have low := staged_sameImage image (.inl rfl) (0x10000 + k) (by rwa [add_sub_cancel_left])
  rw [high, low]
  exact placed_copied image k small

theorem twoSegments_image (place : data = 0x10000 ∨ data = 0x20000)
    (headers : Elf.progHeaders (placed (twoSegments vaddr)) data =
      [⟨1, 116, vaddr, 8, 8⟩, ⟨1, 116, 0x100004, 1, 1⟩])
    (pos : Elf.headerPos (placed (twoSegments vaddr)) data = 52)
    (count : Elf.headerEntryCount (placed (twoSegments vaddr)) data = 2)
    (elsewhere : NoOverlap vaddr 8 data 124) :
    Elf.Image (placed (twoSegments vaddr)) data 124 := by
  have low : data.toNat + 124 ≤ 0x100004 := by
    rcases place with here | here <;> rw [here] <;> decide
  refine ⟨by omega, by decide, by rw [pos, count]; decide, by rw [count]; decide, ?_, ?_⟩
  · rw [headers]
    intro header member _
    rcases List.mem_cons.mp member with first | other
    · rw [first]
      exact Nat.le_refl 124
    · rw [List.mem_singleton.mp other]
      decide
  · rw [headers]
    intro header member _
    rcases List.mem_cons.mp member with first | other
    · rw [first]
      exact elsewhere
    · rw [List.mem_singleton.mp other]
      exact noOverlap_of_ge low (by decide)

end TwoSegments

/-- The second segment is loaded last. -/
theorem loadSegments_two (mem : Mem) (vaddr : BitVec 32) :
    Elf.loadSegments mem 0x20000 [⟨1, 116, vaddr, 8, 8⟩, ⟨1, 116, 0x100004, 1, 1⟩] mem 0x100004 =
      mem 0x20074 := rfl

/-- The byte that the constructor leaves where the second segment is. -/
theorem elf_twoSegments {vaddr : BitVec 32} {loaded : Elf.Loaded}
    (headers : Elf.progHeaders (placed (twoSegments vaddr)) 0x20000 =
      [⟨1, 116, vaddr, 8, 8⟩, ⟨1, 116, 0x100004, 1, 1⟩])
    (image : Elf.Image (placed (twoSegments vaddr)) 0x20000 124)
    (constructed : Elf.elf 0x20000 (staged (twoSegments vaddr)) = some loaded) :
    loaded.mem 0x100004 = placed (twoSegments vaddr) 0x20074 := by
  have same := staged_sameImage (twoSegments vaddr) (.inr rfl)
  have headersHere := sameImage_progHeaders same image
  rw [Elf.elf_eq (sameImage_image same image), headersHere, headers] at constructed
  rw [← Option.some.inj constructed]
  dsimp only
  rw [loadSegments_two, same 0x20074 (by decide)]

/-- Of two segments that overlap, the second one is on top. -/
theorem loaders_agree_twoSegments : ∃ loaded entry last,
    Elf.elf 0x20000 (staged (twoSegments 0x100000)) = some loaded ∧
      stage2 0 0 2 (start32 (placed (twoSegments 0x100000))) = some (entry, last) ∧
      entry = loaded.entry ∧ last.load 0x100004 = some 5 ∧
      last.load 0x100000 = some (loaded.mem 0x100000) := by
  have image : Elf.Image (placed (twoSegments 0x100000)) 0x20000 124 :=
    twoSegments_image (.inr rfl) (by decide +kernel) (by decide +kernel) (by decide +kernel)
      (noOverlap_of_ge (by decide) (by decide))
  have headers : Elf.progHeaders (placed (twoSegments 0x100000)) 0x10000 =
      [⟨1, 116, 0x100000, 8, 8⟩, ⟨1, 116, 0x100004, 1, 1⟩] := by decide +kernel
  have copy : Elf.Image (placed (twoSegments 0x100000)) 0x10000 124 :=
    twoSegments_image (.inl rfl) headers (by decide +kernel) (by decide +kernel)
      (noOverlap_of_ge (by decide) (by decide))
  have same := staged_sameImage (twoSegments 0x100000) (.inl rfl)
  have sameHigh := staged_sameImage (twoSegments 0x100000) (.inr rfl)
  have headersHere := sameImage_progHeaders same copy
  have few : (Elf.headerEntryCount (staged (twoSegments 0x100000)) 0x10000).toNat ≤ 2 := by
    rw [same.headerEntryCount copy.header]
    decide +kernel
  have room : ∀ byte : BitVec 32, 0x100000 ≤ byte.toNat → byte.toNat < 0x100008 → Writable byte := by
    intro byte above below
    refine ⟨mapped_of_lt (by omega), fun guarded => ?_⟩
    unfold Guarded at guarded
    omega
  have fits : Fits (staged (twoSegments 0x100000)) := by
    rw [Fits, headersHere, headers]
    intro header member _
    rcases List.mem_cons.mp member with first | other
    · rw [first]
      refine ⟨fun byte near => ?_, noOverlap_of_ge (by decide) (by decide)⟩
      have small : (byte - 0x100000).toNat < 8 := near
      exact room byte (by bv_omega) (by bv_omega)
    · rw [List.mem_singleton.mp other]
      refine ⟨fun byte near => ?_, noOverlap_of_ge (by decide) (by decide)⟩
      have small : (byte - 0x100004).toNat < 1 := near
      exact room byte (by bv_omega) (by bv_omega)
  rcases loaders_agree 0 0 (seen_staged _) (sameImage_image sameHigh image) (sameImage_image same copy)
    (staged_copied _) (by decide) fits few with
    ⟨loaded, entry, last, constructed, ended, sameEntry, agree, _⟩
  have byte : loaded.mem 0x100004 = 5 :=
    (elf_twoSegments (by decide +kernel) image constructed).trans (by decide +kernel)
  refine ⟨loaded, entry, last, constructed, ended, sameEntry, ?_,
    agree 0x100000 (room _ (by decide) (by decide)).1 (by decide)⟩
  rw [agree 0x100004 (room _ (by decide) (by decide)).1 (by decide), byte]

/-- The word that a segment over the stack puts where the counter is saved. -/
theorem read32_overStack (source mem : Mem) :
    read32 (Elf.loadSegment source 0x10000 ⟨1, 116, 0x7ff8, 8, 8⟩ mem) 0x7ffc = read32 source 0x10078 := by
  have byte : ∀ k : BitVec 32, k.toNat < 4 →
      Elf.loadSegment source 0x10000 ⟨1, 116, 0x7ff8, 8, 8⟩ mem (0x7ffc + k) = source (0x10078 + k) := by
    intro k small
    have inside : (0x7ffc + k - 0x7ff8).toNat = 4 + k.toNat := by bv_omega
    have place : (0x10000 : BitVec 32) + 116 + BitVec.ofNat 32 (4 + k.toNat) = 0x10078 + k := by bv_omega
    rw [Elf.loadSegment, if_pos rfl, overwrite_inside (by rw [inside]; show _ < 8; omega), inside, place]
  have first := byte 0 (by decide)
  rw [add_zero, add_zero] at first
  rw [read32, read32, byte 3 (by decide), byte 2 (by decide), byte 1 (by decide), first]

/-- A segment over the stack puts 1 where the counter is saved. -/
theorem round_overStack (count : BitVec 32) : ∃ eax esi edi next after,
    (Loader.mk 0 count (0x10000 + 52) 0 0x8000 (start32 (placed (twoSegments 0x7ff8)))).round =
        some ⟨eax, 1, esi, edi, 0x8000, next⟩ ∧ Seen next after ∧ after 0x100004 = 0 := by
  have same := staged_sameImage (twoSegments 0x7ff8) (.inl rfl)
  have here : Elf.ProgHeader.read (placed (twoSegments 0x7ff8)) (0x10000 + 52) =
      ⟨1, 116, 0x7ff8, 8, 8⟩ := by decide +kernel
  have stack : ∀ byte : BitVec 32, (byte - 0x7ff8).toNat < 8 → Writable byte :=
    fun byte near => writable_of_stack (by bv_omega) (by bv_omega)
  rcases @round_eq ⟨0, count, 0x10000 + 52, 0, 0x8000, start32 (placed (twoSegments 0x7ff8))⟩ _ _ 124 52 _
    (seen_staged _) rfl same (by decide) rfl (by decide) here rfl (by decide)
    (noOverlap_of_le (by decide) (by decide)) stack with ⟨eax, edi, next, stepped, seen⟩
  have untouched : saved count (0x10000 + 52) (staged (twoSegments 0x7ff8)) 0x100004 = 0 :=
    (saved_agree _ (by decide)).trans ((start32_outside (by decide)).trans (by decide +kernel))
  generalize saved count (0x10000 + 52) (staged (twoSegments 0x7ff8)) = mem at stepped seen untouched
  have counter : read32 (placed (twoSegments 0x7ff8)) 0x10078 = 1 := by decide +kernel
  have kept : Elf.loadSegment (placed (twoSegments 0x7ff8)) 0x10000 ⟨1, 116, 0x7ff8, 8, 8⟩ mem 0x100004 =
      mem 0x100004 := by
    rw [Elf.loadSegment, if_pos rfl, overwrite_outside (by decide), overwrite_outside (by decide)]
  rw [read32_overStack, counter] at stepped
  exact ⟨eax, _, edi, next, _, stepped, seen, kept.trans untouched⟩

/-- So the second segment is not loaded, however long the loop is waited for. -/
theorem stage2_overStack {fuel : Nat} {entry : BitVec 32} {last : Cpu}
    (ended : stage2 0 0 fuel (start32 (placed (twoSegments 0x7ff8))) = some (entry, last)) :
    last.load 0x100004 = some 0 := by
  have same := staged_sameImage (twoSegments 0x7ff8) (.inl rfl)
  have table : Elf.pheader (staged (twoSegments 0x7ff8)) 0x10000 0 = 0x10000 + 52 := by
    have pos : Elf.headerPos (staged (twoSegments 0x7ff8)) 0x10000 = _ := same.read32 (by decide)
    rw [Elf.pheader, pos]
    decide +kernel
  have begins := start_eq (seen_staged (twoSegments 0x7ff8)) 0 0
  have stops : ¬ (1 : BitVec 32) - 1 ≠ 0 := by decide
  rw [table] at begins
  generalize (Elf.headerEntryCount (staged (twoSegments 0x7ff8)) 0x10000).setWidth 32 = count at begins
  rcases round_overStack count with ⟨eax, esi, edi, next, after, stepped, seen, untouched⟩
  have loads := seen.load (mapped_of_lt (by decide : (0x100004 : BitVec 32).toNat < 0xc00000))
  rw [untouched] at loads
  generalize start32 (placed (twoSegments 0x7ff8)) = cpu at begins stepped ended
  simp only [stage2, begins, Option.bind_eq_bind, Option.bind_some] at ended
  cases fuel with
  | zero => cases ended
  | succ fuel =>
      simp only [Loader.loadElf, stepped, Option.bind_eq_bind, Option.bind_some, if_neg stops] at ended
      rcases Option.bind_eq_some_iff.mp ended with ⟨target, _, reached⟩
      cases reached
      exact loads

/-- The first segment puts 1 where the counter is saved, and the second one is not loaded. -/
theorem loaders_differ : ¬ ∀ (cpu : Cpu) (mem : Mem) (data : BitVec 32) (size : Nat),
    Seen cpu mem → Elf.Image mem data size → Elf.Image mem 0x10000 size →
    Copied mem data 0x10000 size →
    (∀ header ∈ Elf.progHeaders mem data, header.pVaddr.toNat + header.extent ≤ 2 ^ 32) →
    ∃ fuel loaded entry last, Elf.elf data mem = some loaded ∧
      stage2 0 0 fuel cpu = some (entry, last) ∧ entry = loaded.entry ∧
      ∀ addr, Mapped addr → size ≤ (addr - data).toNat → size ≤ (addr - 0x10000).toNat →
        last.load addr = some (loaded.mem addr) := by
  intro agree
  have image : Elf.Image (placed (twoSegments 0x7ff8)) 0x20000 124 :=
    twoSegments_image (.inr rfl) (by decide +kernel) (by decide +kernel) (by decide +kernel)
      (noOverlap_of_le (by decide) (by decide))
  have copy : Elf.Image (placed (twoSegments 0x7ff8)) 0x10000 124 :=
    twoSegments_image (.inl rfl) (by decide +kernel) (by decide +kernel) (by decide +kernel)
      (noOverlap_of_le (by decide) (by decide))
  have headers : Elf.progHeaders (placed (twoSegments 0x7ff8)) 0x20000 =
      [⟨1, 116, 0x7ff8, 8, 8⟩, ⟨1, 116, 0x100004, 1, 1⟩] := by decide +kernel
  have same := staged_sameImage (twoSegments 0x7ff8) (.inl rfl)
  have sameHigh := staged_sameImage (twoSegments 0x7ff8) (.inr rfl)
  have wraps : ∀ header ∈ Elf.progHeaders (staged (twoSegments 0x7ff8)) 0x20000,
      header.pVaddr.toNat + header.extent ≤ 2 ^ 32 := by
    rw [sameImage_progHeaders sameHigh image, headers]
    decide
  rcases agree _ _ _ _ (seen_staged _) (sameImage_image sameHigh image) (sameImage_image same copy)
    (staged_copied _) wraps with ⟨fuel, loaded, entry, last, constructed, ended, _, agree⟩
  have byte := agree 0x100004 (mapped_of_lt (by decide)) (by decide) (by decide)
  rw [elf_twoSegments headers image constructed] at byte
  rw [stage2_overStack ended] at byte
  exact absurd (Option.some.inj byte) (by decide +kernel)

end Stage2

end WeakOS
