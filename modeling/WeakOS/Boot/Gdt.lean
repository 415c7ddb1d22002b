import Mathlib
import WeakOS.Foundation.Word

/-!
# Segments and the task state

The descriptors that `gdt::init` writes, and what the processor reads from them.
The four segments are flat, so that addresses in the other parts of the kernel
are linear ones.  In the task state the base of the I/O map stays zero: the map
that decides about the ports of a program is the task state itself.
-/

namespace X86

/-! ## What the processor reads -/

/-- A segment descriptor.  It is that of a code or data segment if the segment bit is set. -/
structure SegmentDescriptor where
  base : BitVec 32
  limit : BitVec 20
  type : BitVec 4
  segment : Bool
  dpl : BitVec 2
  present : Bool
  reserved : BitVec 2
  size : Bool
  granularity : Bool
  deriving DecidableEq, Repr

namespace SegmentDescriptor

/-- The eight bytes of a descriptor, the lowest first. -/
def decode (bits : BitVec 64) : SegmentDescriptor where
  base := bits.extractLsb' 56 8 ++ bits.extractLsb' 16 24
  limit := bits.extractLsb' 48 4 ++ bits.extractLsb' 0 16
  type := bits.extractLsb' 40 4
  segment := bits.getLsbD 44
  dpl := bits.extractLsb' 45 2
  present := bits.getLsbD 47
  reserved := bits.extractLsb' 52 2
  size := bits.getLsbD 54
  granularity := bits.getLsbD 55

/-- The last offset; with page granularity the limit counts pages. -/
def last (descriptor : SegmentDescriptor) : BitVec 32 :=
  if descriptor.granularity then descriptor.limit ++ (0xfff : BitVec 12) else descriptor.limit.setWidth 32

/-- The linear address of an offset in a segment that does not grow down. -/
def linear (descriptor : SegmentDescriptor) (offset : BitVec 32) : Option (BitVec 32) :=
  if descriptor.present && descriptor.segment && decide (offset.toNat ≤ descriptor.last.toNat) then
    some (descriptor.base + offset)
  else none

end SegmentDescriptor

end X86

namespace WeakOS
namespace Gdt

open X86

/-! ## What the kernel writes -/

def present : BitVec 8 := 0x80
def executable : BitVec 8 := 8
def rw : BitVec 8 := 2
def accessed : BitVec 8 := 1
def ring (level : BitVec 8) : BitVec 8 := level <<< 5
def pageGranularity : BitVec 8 := 8
def is32bit : BitVec 8 := 4

/-- `gdt_entry`. -/
structure Entry where
  limitLo : BitVec 16
  baseLo : BitVec 24
  accessByte : BitVec 8
  limitHi : BitVec 4
  zeroes : BitVec 2
  size : BitVec 1
  granularity : BitVec 1
  baseHi : BitVec 8
  deriving DecidableEq, Repr

namespace Entry

/-- The fields lie one behind the other in memory. -/
def bits (entry : Entry) : BitVec 64 :=
  entry.baseHi ++ entry.granularity ++ entry.size ++ entry.zeroes ++ entry.limitHi ++ entry.accessByte ++
    entry.baseLo ++ entry.limitLo

def setLimit (lim : BitVec 32) (entry : Entry) : Entry :=
  { entry with limitLo := lim.setWidth 16, limitHi := (lim >>> 16).setWidth 4 }

def setBase (base : BitVec 32) (entry : Entry) : Entry :=
  { entry with baseLo := base.setWidth 24, baseHi := (base >>> 24).setWidth 8 }

/-- `set_no1`. -/
def setNo1 (base lim : BitVec 32) (accessByte flags : BitVec 8) (entry : Entry) : Entry :=
  { (entry.setBase base).setLimit lim with
    accessByte := accessByte
    zeroes := 0
    size := if flags &&& is32bit ≠ 0 then 1 else 0
    granularity := if flags &&& pageGranularity ≠ 0 then 1 else 0 }

def set (base lim : BitVec 32) (accessByte flags : BitVec 8) (entry : Entry) : Entry :=
  let entry := entry.setNo1 base lim accessByte flags
  { entry with accessByte := entry.accessByte ||| 0x10 }

def erase (entry : Entry) : Entry :=
  { (entry.setBase 0).setLimit 0 with accessByte := 0, zeroes := 0, size := 0, granularity := 0 }

/-- The entry as the processor reads it. -/
def descriptor (entry : Entry) : SegmentDescriptor := SegmentDescriptor.decode entry.bits

end Entry

section Entry

variable (entry : Entry) (base lim : BitVec 32) (accessByte flags : BitVec 8)

/-- What the processor reads of an entry, field by field. -/
theorem descriptor_eq : entry.descriptor =
    { base := entry.baseHi ++ entry.baseLo
      limit := entry.limitHi ++ entry.limitLo
      type := entry.accessByte.extractLsb' 0 4
      segment := entry.accessByte.getLsbD 4
      dpl := entry.accessByte.extractLsb' 5 2
      present := entry.accessByte.getLsbD 7
      reserved := entry.zeroes
      size := entry.size.getLsbD 0
      granularity := entry.granularity.getLsbD 0 } := by
  have bit : ∀ i, entry.bits.getLsbD i =
      if i < 16 then entry.limitLo.getLsbD i
      else if i < 40 then entry.baseLo.getLsbD (i - 16)
      else if i < 48 then entry.accessByte.getLsbD (i - 40)
      else if i < 52 then entry.limitHi.getLsbD (i - 48)
      else if i < 54 then entry.zeroes.getLsbD (i - 52)
      else if i < 55 then entry.size.getLsbD (i - 54)
      else if i < 56 then entry.granularity.getLsbD (i - 55)
      else entry.baseHi.getLsbD (i - 56) := by
    intro i
    simp only [Entry.bits, BitVec.getLsbD_append]
    grind
  unfold Entry.descriptor SegmentDescriptor.decode
  rw [SegmentDescriptor.mk.injEq]
  refine ⟨?_, ?_, ?_, bit 44, ?_, bit 47, ?_, bit 54, bit 55⟩
  · ext i inside
    simp only [BitVec.getElem_append, BitVec.getElem_extractLsb', bit]
    grind
  · ext i inside
    simp only [BitVec.getElem_append, BitVec.getElem_extractLsb', bit]
    grind
  · ext i inside
    simp only [BitVec.getElem_extractLsb', bit]
    grind
  · ext i inside
    simp only [BitVec.getElem_extractLsb', bit]
    grind
  · ext i inside
    simp only [BitVec.getElem_extractLsb', bit]
    grind

/-- The processor finds what was set. -/
theorem descriptor_setNo1 : (entry.setNo1 base lim accessByte flags).descriptor =
    { base := base
      limit := lim.setWidth 20
      type := accessByte.extractLsb' 0 4
      segment := accessByte.getLsbD 4
      dpl := accessByte.extractLsb' 5 2
      present := accessByte.getLsbD 7
      reserved := 0
      size := decide (flags &&& is32bit ≠ 0)
      granularity := decide (flags &&& pageGranularity ≠ 0) } := by
  have whole : (base >>> 24).setWidth 8 ++ base.setWidth 24 = base := by
    ext i inside
    simp only [BitVec.getElem_append, BitVec.getElem_setWidth, BitVec.getLsbD_ushiftRight]
    grind
  have low : (lim >>> 16).setWidth 4 ++ lim.setWidth 16 = lim.setWidth 20 := by
    ext i inside
    simp only [BitVec.getElem_append, BitVec.getElem_setWidth, BitVec.getLsbD_ushiftRight]
    grind
  have flag : ∀ condition : Prop, ∀ _ : Decidable condition,
      (if condition then 1 else 0 : BitVec 1).getLsbD 0 = decide condition := by
    intro condition decidable
    by_cases holds : condition
    · rw [if_pos holds, decide_eq_true holds]
      rfl
    · rw [if_neg holds, decide_eq_false holds]
      rfl
  rw [descriptor_eq, SegmentDescriptor.mk.injEq]
  exact ⟨whole, low, rfl, rfl, rfl, rfl, rfl, flag _ _, flag _ _⟩

/-- `set` marks the segment as one of code or data. -/
theorem descriptor_set : (entry.set base lim accessByte flags).descriptor =
    { (entry.setNo1 base lim accessByte flags).descriptor with segment := true } := by
  have type : (accessByte ||| 0x10).extractLsb' 0 4 = accessByte.extractLsb' 0 4 := by
    ext i inside
    simp only [BitVec.getElem_extractLsb', BitVec.getLsbD_or]
    interval_cases i <;> simp
  have dpl : (accessByte ||| 0x10).extractLsb' 5 2 = accessByte.extractLsb' 5 2 := by
    ext i inside
    simp only [BitVec.getElem_extractLsb', BitVec.getLsbD_or]
    interval_cases i <;> simp
  have segment : (accessByte ||| 0x10).getLsbD 4 = true := by
    rw [BitVec.getLsbD_or]
    exact Bool.or_true _
  have present : (accessByte ||| 0x10).getLsbD 7 = accessByte.getLsbD 7 := by
    rw [BitVec.getLsbD_or]
    exact Bool.or_false _
  rw [descriptor_eq, descriptor_eq, SegmentDescriptor.mk.injEq]
  exact ⟨rfl, rfl, type, segment, dpl, present, rfl, rfl, rfl⟩

theorem linear_erase (offset : BitVec 32) : entry.erase.descriptor.linear offset = none := by
  have absent : entry.erase.descriptor.present = false := by
    simp [descriptor_eq, Entry.erase]
  rw [SegmentDescriptor.linear, absent, Bool.false_and, Bool.false_and]
  exact if_neg Bool.false_ne_true

/-! ## Limits -/

/-- A segment of this limit ends where it says exactly if the limit fits its field, or is all
ones when it counts pages: the field takes the low bits, not those above a page. -/
theorem set_last_iff : (entry.set base lim accessByte flags).descriptor.last = lim ↔
    if flags &&& pageGranularity ≠ 0 then lim = 0xffffffff else lim.toNat < 2 ^ 20 := by
  rw [descriptor_set, descriptor_setNo1]
  by_cases pages : flags &&& pageGranularity ≠ 0
  · rw [if_pos pages, SegmentDescriptor.last, if_pos (decide_eq_true pages)]
    constructor
    · intro same
      -- The low twelve bits are ones; then the next twelve are, and so on.
      have value := congrArg BitVec.toNat same
      dsimp only at value
      rw [Foundation.Word.toNat_append, BitVec.toNat_setWidth] at value
      have ones : (0xfff : BitVec 12).toNat = 0xfff := rfl
      have bound := lim.isLt
      apply BitVec.eq_of_toNat_eq
      show lim.toNat = 0xffffffff
      omega
    · rintro rfl
      dsimp only
      decide
  · rw [if_neg pages, SegmentDescriptor.last, if_neg (by simpa using pages)]
    dsimp only
    constructor
    · intro same
      rw [← same, BitVec.toNat_setWidth]
      have bound := (lim.setWidth 20).isLt
      omega
    · intro small
      apply BitVec.eq_of_toNat_eq
      rw [BitVec.toNat_setWidth, BitVec.toNat_setWidth]
      omega

end Entry

/-! ## The table -/

/-- `tss_entry`. -/
structure TssEntry where
  prevTss : BitVec 32
  esp0 : BitVec 32
  ss0 : BitVec 32
  esp1 : BitVec 32
  ss1 : BitVec 32
  esp2 : BitVec 32
  ss2 : BitVec 32
  cr3 : BitVec 32
  eip : BitVec 32
  eflags : BitVec 32
  eax : BitVec 32
  ecx : BitVec 32
  edx : BitVec 32
  ebx : BitVec 32
  esp : BitVec 32
  ebp : BitVec 32
  esi : BitVec 32
  edi : BitVec 32
  es : BitVec 32
  cs : BitVec 32
  ss : BitVec 32
  ds : BitVec 32
  fs : BitVec 32
  gs : BitVec 32
  ldt : BitVec 32
  trap : BitVec 16
  iomapBase : BitVec 16

namespace TssEntry

def zero : TssEntry :=
  ⟨0, 0, 0, 0, 0, 0, 0, 0, 0, 0, 0, 0, 0, 0, 0, 0, 0, 0, 0, 0, 0, 0, 0, 0, 0, 0, 0⟩

/-- The fields as they lie in memory. -/
def words (tss : TssEntry) : List (BitVec 32) :=
  [tss.prevTss, tss.esp0, tss.ss0, tss.esp1, tss.ss1, tss.esp2, tss.ss2, tss.cr3, tss.eip, tss.eflags,
    tss.eax, tss.ecx, tss.edx, tss.ebx, tss.esp, tss.ebp, tss.esi, tss.edi, tss.es, tss.cs, tss.ss, tss.ds,
    tss.fs, tss.gs, tss.ldt, tss.iomapBase ++ tss.trap]

def byte (tss : TssEntry) (i : Nat) : BitVec 8 :=
  (tss.words.getD (i / 4) 0).extractLsb' (8 * (i % 4)) 8

/-- What the processor decides about a port of one byte when the program has no privilege for
input and output.  It reads two bytes of the map, which are inside the limit of the task state;
the bit of a port that is allowed is clear. -/
def portAllowed (tss : TssEntry) (limit : Nat) (port : BitVec 16) : Bool :=
  decide (tss.iomapBase.toNat + port.toNat / 8 + 1 ≤ limit) &&
    !(tss.byte (tss.iomapBase.toNat + port.toNat / 8)).getLsbD (port.toNat % 8)

end TssEntry

def entryCount : Nat := 16

/-- `sizeof(tss_entry)`. -/
def sizeofTss : Nat := 104

/-- `gdt_info`, with the register that `lgdt` loads. -/
structure Info where
  limit : BitVec 16
  base : BitVec 32
  entries : Nat → Entry
  tss : TssEntry

/-- `gdt::init`, with the addresses of `info->entries` and `info->tss_entries`.  The busy bit that
`ltr` sets in the descriptor of the task state is left out. -/
def init (entriesAddr tssAddr tssStack : BitVec 32) (info : Info) : Info :=
  let entries := info.entries
  let entries := Function.update entries 0 (entries 0).erase
  let entries := Function.update entries 1 ((entries 1).set 0 0xffffffff
    (present ||| executable ||| rw ||| ring 0) (is32bit ||| pageGranularity))
  let entries := Function.update entries 2 ((entries 2).set 0 0xffffffff
    (present ||| rw ||| ring 0) (is32bit ||| pageGranularity))
  let entries := Function.update entries 3 ((entries 3).set 0 0xffffffff
    (present ||| executable ||| rw ||| ring 3) (is32bit ||| pageGranularity))
  let entries := Function.update entries 4 ((entries 4).set 0 0xffffffff
    (present ||| rw ||| ring 3) (is32bit ||| pageGranularity))
  let entries := Function.update entries 5 ((entries 5).setNo1 tssAddr (BitVec.ofNat 32 (sizeofTss - 1))
    (present ||| accessed ||| executable ||| ring 3) 0)
  let entries := (List.range' 6 (entryCount - 6)).foldl
    (fun entries i => Function.update entries i (entries i).erase) entries
  { limit := BitVec.ofNat 16 (entryCount * 8 - 1)
    base := entriesAddr
    entries := entries
    tss := { TssEntry.zero with ss0 := 0x10, esp0 := tssStack } }

namespace Info

variable (info : Info)

/-- The descriptor that a selector names; the bit for a local table is not supported. -/
def descriptor (selector : BitVec 16) : Option SegmentDescriptor :=
  if selector.getLsbD 2 = false ∧ 8 * (selector.toNat / 8) + 7 ≤ info.limit.toNat then
    some (info.entries (selector.toNat / 8)).descriptor
  else none

/-- The linear address of an offset in the segment that a selector names. -/
def linear (selector : BitVec 16) (offset : BitVec 32) : Option (BitVec 32) :=
  (info.descriptor selector).bind (·.linear offset)

/-- A port of one byte is open to programs; `ltr` has loaded the selector 28h. -/
def portAllowed (port : BitVec 16) : Bool :=
  (info.descriptor 0x28).any fun task => info.tss.portAllowed task.last.toNat port

end Info

section Init

variable (entriesAddr tssAddr tssStack : BitVec 32) (info : Info)

/-- A flat segment of a ring. -/
def flat (type : BitVec 4) (dpl : BitVec 2) : SegmentDescriptor where
  base := 0
  limit := 0xfffff
  type := type
  segment := true
  dpl := dpl
  present := true
  reserved := 0
  size := true
  granularity := true

theorem linear_flat (type : BitVec 4) (dpl : BitVec 2) (offset : BitVec 32) :
    (flat type dpl).linear offset = some offset := by
  have last : (flat type dpl).last = 0xffffffff :=
    (if_pos rfl).trans (by decide : (0xfffff : BitVec 20) ++ (0xfff : BitVec 12) = 0xffffffff)
  have below : offset.toNat ≤ (0xffffffff : BitVec 32).toNat := Nat.le_of_lt_succ offset.isLt
  rw [SegmentDescriptor.linear, last, decide_eq_true below]
  exact congrArg some (BitVec.zero_add offset)

/-- The task state, as it is before `ltr` marks it as busy. -/
def taskState : SegmentDescriptor where
  base := tssAddr
  limit := 103
  type := 9
  segment := false
  dpl := 3
  present := true
  reserved := 0
  size := false
  granularity := false

/-- A segment that `set` makes with the arguments that `gdt::init` passes. -/
theorem descriptor_set_flat (entry : Entry) (accessByte : BitVec 8) (isPresent : accessByte.getLsbD 7 = true) :
    (entry.set 0 0xffffffff accessByte (is32bit ||| pageGranularity)).descriptor =
      flat (accessByte.extractLsb' 0 4) (accessByte.extractLsb' 5 2) := by
  have limit : BitVec.setWidth 20 (0xffffffff : BitVec 32) = 0xfffff := by decide
  have size : decide ((is32bit ||| pageGranularity) &&& is32bit ≠ 0) = true := by decide
  have granularity : decide ((is32bit ||| pageGranularity) &&& pageGranularity ≠ 0) = true := by decide
  rw [descriptor_set, descriptor_setNo1, flat, SegmentDescriptor.mk.injEq]
  exact ⟨rfl, limit, rfl, rfl, rfl, isPresent, rfl, size, granularity⟩

theorem descriptor_taskState (entry : Entry) :
    (entry.setNo1 tssAddr (BitVec.ofNat 32 (sizeofTss - 1))
      (present ||| accessed ||| executable ||| ring 3) 0).descriptor = taskState tssAddr := by
  rw [descriptor_setNo1, taskState, SegmentDescriptor.mk.injEq]
  exact ⟨rfl, by decide, by decide, by decide, by decide, by decide, rfl, by decide, by decide⟩

/-- The first six descriptors of the table. -/
theorem init_descriptors :
    ((init entriesAddr tssAddr tssStack info).entries 1).descriptor = flat 10 0 ∧
      ((init entriesAddr tssAddr tssStack info).entries 2).descriptor = flat 2 0 ∧
      ((init entriesAddr tssAddr tssStack info).entries 3).descriptor = flat 10 3 ∧
      ((init entriesAddr tssAddr tssStack info).entries 4).descriptor = flat 2 3 ∧
      ((init entriesAddr tssAddr tssStack info).entries 5).descriptor = taskState tssAddr :=
  ⟨descriptor_set_flat (info.entries 1) _ (by decide), descriptor_set_flat (info.entries 2) _ (by decide),
    descriptor_set_flat (info.entries 3) _ (by decide), descriptor_set_flat (info.entries 4) _ (by decide),
    descriptor_taskState tssAddr (info.entries 5)⟩

theorem init_task : (init entriesAddr tssAddr tssStack info).descriptor 0x28 = some (taskState tssAddr) :=
  congrArg some (init_descriptors entriesAddr tssAddr tssStack info).2.2.2.2

/-- The others are erased. -/
theorem init_erased {i : Nat} (inside : i < entryCount) (other : i = 0 ∨ 6 ≤ i) :
    (init entriesAddr tssAddr tssStack info).entries i = (info.entries i).erase := by
  rcases other with rfl | above
  · rfl
  · unfold entryCount at inside
    interval_cases i <;> rfl

/-- Segmentation is the identity: whatever was in the table, after `gdt::init` the segments of the
kernel and of programs, for code and for data, begin at zero and have every offset; no other
selector leads to memory, and the task state is where the kernel keeps it. -/
theorem init_flat :
    (∀ selector offset, (init entriesAddr tssAddr tssStack info).linear selector offset =
      if selector.getLsbD 2 = false ∧ 1 ≤ selector.toNat / 8 ∧ selector.toNat / 8 ≤ 4 then some offset
      else none) ∧
    (init entriesAddr tssAddr tssStack info).descriptor 0x08 = some (flat 10 0) ∧
    (init entriesAddr tssAddr tssStack info).descriptor 0x10 = some (flat 2 0) ∧
    (init entriesAddr tssAddr tssStack info).descriptor 0x1b = some (flat 10 3) ∧
    (init entriesAddr tssAddr tssStack info).descriptor 0x23 = some (flat 2 3) ∧
    (init entriesAddr tssAddr tssStack info).descriptor 0x28 = some (taskState tssAddr) := by
  have limit : (init entriesAddr tssAddr tssStack info).limit.toNat = 127 := rfl
  rcases init_descriptors entriesAddr tssAddr tssStack info with ⟨first, second, third, fourth, fifth⟩
  refine ⟨fun selector offset => ?_, congrArg some first, congrArg some second, congrArg some third,
    congrArg some fourth, init_task entriesAddr tssAddr tssStack info⟩
  rw [Info.linear, Info.descriptor, limit]
  by_cases named : selector.getLsbD 2 = false ∧ 8 * (selector.toNat / 8) + 7 ≤ 127
  · rw [if_pos named, Option.bind_some]
    rcases named with ⟨globalTable, inside⟩
    generalize selector.toNat / 8 = i at inside ⊢
    by_cases segment : 1 ≤ i ∧ i ≤ 4
    · rw [if_pos ⟨globalTable, segment⟩]
      obtain rfl | rfl | rfl | rfl : i = 1 ∨ i = 2 ∨ i = 3 ∨ i = 4 := by omega
      · rw [first, linear_flat]
      · rw [second, linear_flat]
      · rw [third, linear_flat]
      · rw [fourth, linear_flat]
    · rw [if_neg (fun both => segment both.2)]
      by_cases task : i = 5
      · rw [task, fifth]
        rfl
      · rw [init_erased entriesAddr tssAddr tssStack info (show i < 16 by omega) (by omega), linear_erase]
  · rw [if_neg named, Option.bind_none, if_neg (fun both => named ⟨both.1, by omega⟩)]

/-- The task state that `gdt::init` leaves. -/
theorem init_word (k : Nat) : (init entriesAddr tssAddr tssStack info).tss.words.getD k 0 =
    if k = 1 then tssStack else if k = 2 then 0x10 else 0 := by
  by_cases last : k = 25
  · subst last
    exact (by decide : (0 : BitVec 16) ++ (0 : BitVec 16) = (0 : BitVec 32))
  by_cases inside : k < 25
  · interval_cases k <;> rfl
  · rw [List.getD_eq_default _ _ (by show 26 ≤ k; omega), if_neg (by omega), if_neg (by omega)]

/-- The base of the I/O map stays zero, so that the map is the task state itself: a program may
use every port below 824 but port 68, and from 32 to 63 those whose bit is clear in the address
of the kernel's stack.  Above, no port is open. -/
theorem init_portAllowed_iff (port : BitVec 16) :
    (init entriesAddr tssAddr tssStack info).portAllowed port = true ↔
      port.toNat < 824 ∧ port.toNat ≠ 68 ∧ ∀ i < 32, port.toNat = 32 + i → tssStack.getLsbD i = false := by
  have task := init_task entriesAddr tssAddr tssStack info
  have limit : (taskState tssAddr).last.toNat = 103 := rfl
  have base : (init entriesAddr tssAddr tssStack info).tss.iomapBase.toNat = 0 := rfl
  rw [Info.portAllowed, task, Option.any_some, limit, TssEntry.portAllowed, base, TssEntry.byte, init_word]
  have position : 8 * ((0 + port.toNat / 8) % 4) + port.toNat % 8 = port.toNat % 32 := by omega
  have narrow : port.toNat % 8 < 8 := by omega
  have word : (0 + port.toNat / 8) / 4 = port.toNat / 32 := by omega
  rw [word, BitVec.getLsbD_extractLsb', position, decide_eq_true narrow, Bool.true_and, Bool.and_eq_true,
    decide_eq_true_eq, Bool.not_eq_true']
  generalize port.toNat = n
  by_cases stack : n / 32 = 1
  · rw [if_pos stack]
    constructor
    · rintro ⟨_, clear⟩
      refine ⟨by omega, by omega, fun i _ same => ?_⟩
      rwa [same, show (32 + i) % 32 = i by omega] at clear
    · rintro ⟨_, _, clear⟩
      exact ⟨by omega, clear (n % 32) (by omega) (by omega)⟩
  rw [if_neg stack]
  by_cases segment : n / 32 = 2
  · have bit : ∀ i < 32, (0x10 : BitVec 32).getLsbD i = decide (i = 4) := by decide
    rw [if_pos segment, bit _ (by omega), decide_eq_false_iff_not]
    constructor
    · rintro ⟨_, clear⟩
      exact ⟨by omega, by omega, fun i _ same => by omega⟩
    · rintro ⟨_, other, _⟩
      exact ⟨by omega, by omega⟩
  · have zero : ∀ i, (0 : BitVec 32).getLsbD i = false := fun _ => BitVec.getLsbD_zero
    rw [if_neg segment, zero]
    constructor
    · rintro ⟨inside, _⟩
      exact ⟨by omega, by omega, fun i _ same => by omega⟩
    · rintro ⟨below, _, _⟩
      exact ⟨by omega, rfl⟩

end Init

end Gdt
end WeakOS
