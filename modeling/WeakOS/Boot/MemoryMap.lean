import Mathlib
import WeakOS.Memory.Model
import WeakOS.X86.Strings

namespace WeakOS

open X86

/-!
# The firmware's memory map

The second stage asks the firmware for one region after the other and leaves them
below the image, with their number in front.  The kernel finds them there when it
sets up its memory, and gets what the firmware reported, as long as the regions do
not reach the image.
-/

/-- `mem_bios_rgn_type`, from its number. -/
def MemBiosRgnType.ofCode (code : BitVec 32) : MemBiosRgnType :=
  if code = 1 then .usable
  else if code = 2 then .reserved
  else if code = 3 then .acpiReclaimable
  else if code = 4 then .acpiNvs
  else if code = 5 then .bad
  else .other code

namespace MemBiosRgn

/-- `mem_bios_rgn` at an address: two quadwords and a doubleword. -/
def read (mem : Mem) (addr : BitVec 32) : MemBiosRgn where
  base := read32 mem (addr + 4) ++ read32 mem addr
  length := read32 mem (addr + 12) ++ read32 mem (addr + 8)
  type := .ofCode (read32 mem (addr + 16))

theorem read_congr {mem other : Mem} {addr addr' : BitVec 32}
    (same : ∀ offset : BitVec 32, offset.toNat < 20 → mem (addr + offset) = other (addr' + offset)) :
    read mem addr = read other addr' := by
  have word : ∀ offset : BitVec 32, offset.toNat ≤ 16 →
      read32 mem (addr + offset) = read32 other (addr' + offset) := by
    intro offset inside
    have byte : ∀ k : BitVec 32, k.toNat < 4 →
        mem (addr + offset + k) = other (addr' + offset + k) := by
      intro k small
      rw [BitVec.add_assoc, BitVec.add_assoc]
      exact same (offset + k) (by bv_omega)
    have first := byte 0 (by decide)
    rw [add_zero, add_zero] at first
    rw [read32, read32, byte 3 (by decide), byte 2 (by decide), byte 1 (by decide), first]
  have first := word 0 (by decide)
  rw [add_zero, add_zero] at first
  rw [read, read, first, word 4 (by decide), word 8 (by decide), word 12 (by decide),
    word 16 (by decide)]

end MemBiosRgn

namespace Memory

/-- The table that `load_bios_rgns` reads, with the number of its entries at `0xa000`. -/
def biosTable (mem : Mem) : List MemBiosRgn :=
  (List.range (read32 mem 0xa000).toInt.toNat).map fun i =>
    MemBiosRgn.read mem (0xa020 + BitVec.ofNat 32 (i * 0x20))

end Memory

namespace Stage2

/-- What the firmware answers to function e820h, for each continuation value: the bytes of an
entry and the next value, or an error. -/
abbrev Firmware := BitVec 32 → Option (List (BitVec 8) × BitVec 32)

/-- The registers of the loop, and the carry flag. -/
structure Scan where
  eax : BitVec 32
  ebx : BitVec 32
  ecx : BitVec 32
  edx : BitVec 32
  edi : BitVec 32
  carry : Bool
  mem : Mem

namespace Scan

/-- `int 15h`, with function e820h only.  The buffer is at `es:di`, and `es` is zero. -/
def int15h (firmware : Firmware) (scan : Scan) : Scan :=
  if scan.eax = 0xe820 ∧ scan.edx = 0x534d4150 ∧ 20 ≤ scan.ecx.toNat then
    match firmware scan.ebx with
    | none => { scan with carry := true }
    | some (bytes, next) =>
        let count := min bytes.length scan.ecx.toNat
        { scan with
          eax := 0x534d4150
          ebx := next
          ecx := BitVec.ofNat 32 count
          carry := false
          mem := overwrite ((scan.edi.setWidth 16).setWidth 32) count (bytes.getD · 0) scan.mem }
  else { scan with carry := true }

/-- The loop at `mem_map`; there is no result when it needs more than `fuel` rounds. -/
def memMap (firmware : Firmware) : (fuel : Nat) → Scan → Option Scan
  | 0, _ => none
  | fuel + 1, scan =>
      let scan := { scan with eax := 0xe820 }
      let scan := { scan with ecx := 24 }
      let scan := scan.int15h firmware
      if scan.carry then some scan
      else
        let scan := { scan with mem := write32 scan.mem 0xa000 (read32 scan.mem 0xa000 + 1) }
        if scan.ebx = 0 then some scan
        else memMap firmware fuel { scan with edi := scan.edi + 0x20 }

/-- Where the loop begins. -/
def start (eax ebx ecx : BitVec 32) (carry : Bool) (mem : Mem) : Scan where
  eax := eax
  ebx := ebx ^^^ ebx
  ecx := ecx
  edx := 0x534d4150
  edi := 0xa020
  carry := carry
  mem := write32 mem 0xa000 0

end Scan

/-- The bytes of an entry, of which there can be four more than the kernel reads. -/
structure Spells (bytes : List (BitVec 8)) (rgn : MemBiosRgn) : Prop where
  least : 20 ≤ bytes.length
  most : bytes.length ≤ 24
  read : MemBiosRgn.read (fun addr => bytes.getD addr.toNat 0) 0 = rgn

/-- The regions that the firmware reports from a continuation value on.  The last one comes with
the value zero, or the call behind it fails. -/
inductive Reports (firmware : Firmware) : BitVec 32 → List MemBiosRgn → Prop
  | failed {ebx : BitVec 32} (answer : firmware ebx = none) : Reports firmware ebx []
  | last {ebx : BitVec 32} {bytes : List (BitVec 8)} {rgn : MemBiosRgn}
      (answer : firmware ebx = some (bytes, 0)) (spells : Spells bytes rgn) : Reports firmware ebx [rgn]
  | more {ebx next : BitVec 32} {bytes : List (BitVec 8)} {rgn : MemBiosRgn} {rest : List MemBiosRgn}
      (answer : firmware ebx = some (bytes, next)) (spells : Spells bytes rgn) (goesOn : next ≠ 0)
      (reports : Reports firmware next rest) : Reports firmware ebx (rgn :: rest)

/-! ## The table -/

/-- The address of an entry. -/
def slot (i : Nat) : BitVec 32 := 0xa020 + BitVec.ofNat 32 (i * 0x20)

/-- The regions are in the table. -/
structure Holds (mem : Mem) (rgns : List MemBiosRgn) : Prop where
  count : read32 mem 0xa000 = BitVec.ofNat 32 rgns.length
  entries : ∀ i (inside : i < rgns.length), MemBiosRgn.read mem (slot i) = rgns[i]

section Table

variable {mem other : Mem} {rgns : List MemBiosRgn} {bytes : List (BitVec 8)} {rgn : MemBiosRgn}
  {count i : Nat} {addr : BitVec 32}

theorem slot_toNat (small : i ≤ 767) : (slot i).toNat = 0xa020 + 0x20 * i := by
  unfold slot
  bv_omega

theorem Spells.read_overwrite (spells : Spells bytes rgn) (addr : BitVec 32) :
    MemBiosRgn.read (overwrite addr bytes.length (bytes.getD · 0) mem) addr = rgn := by
  have least := spells.least
  rw [← spells.read]
  refine MemBiosRgn.read_congr (fun offset inside => ?_)
  have within : (addr + offset - addr).toNat < bytes.length := by
    rw [add_sub_cancel_left]
    omega
  rw [overwrite_inside within, add_sub_cancel_left, zero_add]

/-- What a round does to the memory. -/
def added (mem : Mem) (addr : BitVec 32) (bytes : List (BitVec 8)) : Mem :=
  let stored := overwrite addr bytes.length (bytes.getD · 0) mem
  write32 stored 0xa000 (read32 stored 0xa000 + 1)

/-- A round puts one region more into the table. -/
theorem Holds.added (holds : Holds mem rgns) (spells : Spells bytes rgn) (room : rgns.length < 767) :
    Holds (added mem (slot rgns.length) bytes) (rgns ++ [rgn]) := by
  have most := spells.most
  have place := slot_toNat (Nat.le_of_lt room)
  have counter : read32 (overwrite (slot rgns.length) bytes.length (bytes.getD · 0) mem) 0xa000 =
      BitVec.ofNat 32 rgns.length := by
    rw [← holds.count]
    exact read32_congr (fun byte near => overwrite_outside (by bv_omega))
  constructor
  · rw [Stage2.added, read32_write32, counter, List.length_append, List.length_singleton,
      BitVec.ofNat_add]
    rfl
  · intro i inside
    rw [List.length_append, List.length_singleton] at inside
    have here := slot_toNat (show i ≤ 767 by omega)
    have uncounted : MemBiosRgn.read (Stage2.added mem (slot rgns.length) bytes) (slot i) =
        MemBiosRgn.read (overwrite (slot rgns.length) bytes.length (bytes.getD · 0) mem) (slot i) :=
      MemBiosRgn.read_congr (fun offset small => write32_of_outside _ _ (by bv_omega))
    rw [uncounted]
    by_cases last : i = rgns.length
    · subst last
      rw [spells.read_overwrite, List.getElem_concat_length rfl]
    · have earlier : i < rgns.length := by omega
      rw [List.getElem_append_left earlier, ← holds.entries i earlier]
      exact MemBiosRgn.read_congr (fun offset small => overwrite_outside (by bv_omega))

/-- Outside of the table the memory stays. -/
theorem added_outside (most : bytes.length ≤ 24) (small : i < 767)
    (outside : addr.toNat < 0xa000 ∨ 0x10000 ≤ addr.toNat) :
    added mem (slot i) bytes addr = mem addr := by
  have place := slot_toNat (Nat.le_of_lt small)
  rw [added, write32_of_outside _ _ (by bv_omega), overwrite_outside (by bv_omega)]

/-- The kernel reads the regions that are in the table. -/
theorem Holds.biosTable (holds : Holds mem rgns) (few : rgns.length ≤ 767) :
    Memory.biosTable mem = rgns := by
  have number : (BitVec.ofNat 32 rgns.length).toNat = rgns.length := Nat.mod_eq_of_lt (by omega)
  have count : (read32 mem 0xa000).toInt.toNat = rgns.length := by
    rw [holds.count, BitVec.toInt_eq_toNat_of_lt (by omega), number]
    rfl
  have entries : ∀ i, MemBiosRgn.read mem (0xa020 + BitVec.ofNat 32 (i * 0x20)) =
      MemBiosRgn.read mem (slot i) := fun _ => rfl
  rw [Memory.biosTable, count]
  refine List.ext_getElem (by rw [List.length_map, List.length_range]) (fun i _ inside => ?_)
  rw [List.getElem_map, List.getElem_range, entries]
  exact holds.entries i inside

end Table

/-! ## The loop -/

section Loop

variable {firmware : Firmware} {scan : Scan} {rgns rest : List MemBiosRgn} {ebx value : BitVec 32}
  {bytes : List (BitVec 8)} {rgn : MemBiosRgn}

/-- The loop asks for the next region, with the buffer at the next entry. -/
structure Scan.At (scan : Scan) (ebx : BitVec 32) (rgns : List MemBiosRgn) : Prop where
  ebx : scan.ebx = ebx
  edx : scan.edx = 0x534d4150
  edi : scan.edi = slot rgns.length
  holds : Holds scan.mem rgns

/-- A round in which the firmware answers. -/
theorem Scan.At.int15h (at_ : scan.At ebx rgns) (room : rgns.length < 767)
    (answer : firmware ebx = some (bytes, value)) (spells : Spells bytes rgn) :
    ({ scan with eax := 0xe820, ecx := 24 } : Scan).int15h firmware =
      { scan with
        eax := 0x534d4150
        ebx := value
        ecx := BitVec.ofNat 32 bytes.length
        carry := false
        mem := overwrite (slot rgns.length) bytes.length (bytes.getD · 0) scan.mem } := by
  have size : 20 ≤ (24 : BitVec 32).toNat := by decide
  have whole : min bytes.length (24 : BitVec 32).toNat = bytes.length := Nat.min_eq_left spells.most
  have place := slot_toNat (Nat.le_of_lt room)
  have buffer : ((slot rgns.length).setWidth 16).setWidth 32 = slot rgns.length := by
    apply BitVec.eq_of_toNat_eq
    rw [BitVec.toNat_setWidth, BitVec.toNat_setWidth, place]
    omega
  rw [Scan.int15h, if_pos ⟨rfl, at_.edx, size⟩]
  simp only [at_.ebx, answer, whole, at_.edi, buffer]

/-- The end of a round. -/
def Scan.answered (scan : Scan) (i : Nat) (bytes : List (BitVec 8)) (value : BitVec 32) : Scan :=
  { scan with
    eax := 0x534d4150
    ebx := value
    ecx := BitVec.ofNat 32 bytes.length
    carry := false
    mem := added scan.mem (slot i) bytes }

/-- The next round begins with one region more. -/
theorem Scan.At.next (at_ : scan.At ebx rgns) (room : rgns.length < 767)
    (spells : Spells bytes rgn) :
    Scan.At { scan.answered rgns.length bytes value with edi := scan.edi + 0x20 } value
      (rgns ++ [rgn]) := by
  refine ⟨rfl, at_.edx, ?_, at_.holds.added spells room⟩
  rw [at_.edi, List.length_append, List.length_singleton]
  unfold slot
  bv_omega

/-- From any round on, the loop adds what the firmware reports. -/
theorem memMap_spec (reports : Reports firmware ebx rest) (at_ : scan.At ebx rgns)
    (room : rgns.length + rest.length ≤ 767) : ∃ last,
      (∀ fuel, rest.length < fuel → scan.memMap firmware fuel = some last) ∧
      Holds last.mem (rgns ++ rest) ∧
      ∀ addr : BitVec 32, addr.toNat < 0xa000 ∨ 0x10000 ≤ addr.toNat →
        last.mem addr = scan.mem addr := by
  induction reports generalizing scan rgns with
  | failed answer =>
      have size : 20 ≤ (24 : BitVec 32).toNat := by decide
      have stops : ({ scan with eax := 0xe820, ecx := 24 } : Scan).int15h firmware =
          { scan with eax := 0xe820, ecx := 24, carry := true } := by
        rw [Scan.int15h, if_pos ⟨rfl, at_.edx, size⟩]
        simp only [at_.ebx, answer]
      refine ⟨{ scan with eax := 0xe820, ecx := 24, carry := true }, fun fuel enough => ?_, ?_,
        fun addr _ => rfl⟩
      · cases fuel with
        | zero => exact absurd enough (Nat.not_lt_zero _)
        | succ fuel =>
            rw [Scan.memMap]
            dsimp only
            rw [stops]
            rfl
      · rw [List.append_nil]
        exact at_.holds
  | @last ebx bytes rgn answer spells =>
      rw [List.length_singleton] at room
      have round := at_.int15h room answer spells
      refine ⟨scan.answered rgns.length bytes 0, fun fuel enough => ?_, at_.holds.added spells room,
        fun addr outside => ?_⟩
      · cases fuel with
        | zero => exact absurd enough (Nat.not_lt_zero _)
        | succ fuel =>
            rw [Scan.memMap]
            dsimp only
            rw [round]
            rfl
      · exact added_outside spells.most room outside
  | @more ebx value bytes rgn rest answer spells goesOn reports inductionHypothesis =>
      rw [List.length_cons] at room
      have here : rgns.length < 767 := by omega
      have round := at_.int15h here answer spells
      have later := @inductionHypothesis _ (rgns ++ [rgn]) (at_.next here spells)
        (by rw [List.length_append, List.length_singleton]; omega)
      rcases later with ⟨last, loops, holds, frame⟩
      rw [List.append_assoc] at holds
      refine ⟨last, fun fuel enough => ?_, holds, fun addr outside => ?_⟩
      · cases fuel with
        | zero => exact absurd enough (Nat.not_lt_zero _)
        | succ fuel =>
            have fewer : rest.length < fuel := by
              rw [List.length_cons] at enough
              omega
            rw [Scan.memMap]
            dsimp only
            rw [round]
            exact (if_neg goesOn).trans (loops fuel fewer)
      · rw [frame addr outside]
        exact added_outside spells.most here outside

/-- Whatever the firmware reports, up to 767 regions, the kernel finds it in its table, in the
same order; the loop leaves the image behind the table and everything in front of it as they
were.  What `int 15h` pushes below its stack pointer 1000h is not in the model. -/
theorem memMap_biosTable (reports : Reports firmware 0 rgns) (room : rgns.length ≤ 767)
    (eax ebx ecx : BitVec 32) (carry : Bool) (mem : Mem) : ∃ last,
      (∀ fuel, rgns.length < fuel →
        (Scan.start eax ebx ecx carry mem).memMap firmware fuel = some last) ∧
      Memory.biosTable last.mem = rgns ∧
      ∀ addr : BitVec 32, addr.toNat < 0xa000 ∨ 0x10000 ≤ addr.toNat →
        last.mem addr = mem addr := by
  have empty : Holds (write32 mem 0xa000 0) [] :=
    ⟨read32_write32 mem 0 0xa000, fun i inside => absurd inside (Nat.not_lt_zero i)⟩
  have begins : (Scan.start eax ebx ecx carry mem).At 0 [] := ⟨BitVec.xor_self, rfl, rfl, empty⟩
  rcases memMap_spec reports begins (by rw [List.length_nil, Nat.zero_add]; exact room) with
    ⟨last, loops, holds, frame⟩
  refine ⟨last, loops, holds.biosTable room, fun addr outside => ?_⟩
  rw [frame addr outside]
  exact write32_of_outside mem 0 (by bv_omega)

/-- The bytes of an entry without the four that the kernel does not read. -/
def spelled (base length code : BitVec 32) : List (BitVec 8) :=
  [base, 0, length, 0, code].flatMap fun word =>
    (List.range 4).map fun k => word.extractLsb' (8 * k) 8

/-- A firmware that reports 640 KiB of usable memory and a reserved range behind them. -/
def twoRegions : Firmware := fun ebx =>
  if ebx = 0 then some (spelled 0 0xa0000 1, 1) else some (spelled 0xa0000 0x60000 2, 0)

theorem twoRegions_reports :
    Reports twoRegions 0 [⟨0, 0xa0000, .usable⟩, ⟨0xa0000, 0x60000, .reserved⟩] :=
  .more rfl ⟨by decide, by decide, by decide⟩ (by decide)
    (.last rfl ⟨by decide, by decide, by decide⟩)

theorem memMap_biosTable_twoRegions : ∃ last,
    (Scan.start 0 7 0 false fun _ => 0xff).memMap twoRegions 3 = some last ∧
      Memory.biosTable last.mem = [⟨0, 0xa0000, .usable⟩, ⟨0xa0000, 0x60000, .reserved⟩] := by
  rcases memMap_biosTable twoRegions_reports (by decide) 0 7 0 false (fun _ => 0xff) with
    ⟨last, loops, table, _⟩
  exact ⟨last, loops 3 (by decide), table⟩

end Loop

end Stage2

end WeakOS
