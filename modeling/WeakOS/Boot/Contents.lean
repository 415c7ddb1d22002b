import Mathlib
import WeakOS.Boot.Programs
import WeakOS.Memory.Steps

namespace WeakOS

open Foundation

namespace Boot

/-!
# What programs find in their memory

For each address on a page that was handed out the machine is watched for what was
stored there last.  Programs that keep to these pages are never stopped by a
fault, and they read what was stored last.  It does not matter which pages are
handed out and taken back meanwhile, nor which translations are cached.

The requests are served in front of the fixed entry, with a frame for each page.
-/

/-- The address is on a page that was handed out. -/
def Owned (session : Session) (addr : BitVec 32) : Prop :=
  ∃ item ∈ session.live, item.Contains (pageOf addr)

instance (item : Allocation) (page : Nat) : Decidable (item.Contains page) :=
  inferInstanceAs (Decidable (_ ∧ _))

instance (session : Session) (addr : BitVec 32) : Decidable (Owned session addr) :=
  inferInstanceAs (Decidable (∃ item ∈ session.live, _))

/-- The machine, and what was stored last. -/
structure Watched where
  machine : Machine
  stored : BitVec 32 → Option (BitVec 8)

namespace Watched

/-- What was stored on a page is forgotten with the page. -/
def step (watched : Watched) (action : Action) : Option Watched :=
  (watched.machine.step action).map fun machine =>
    { machine := machine
      stored := match action with
        | .store addr byte => Function.update watched.stored addr (some byte)
        | _ => fun addr => if Owned machine.session addr then watched.stored addr else none }

section Step

variable {watched next : Watched} {addr : BitVec 32} {byte : BitVec 8}

end Step

/-- The request is served in front of the fixed entry, with a frame for each page. -/
def Fits (session : Session) (pages : Nat) : Prop := ∀ slot,
  session.memory.findRgn (Memory.fits pages) = some (some slot) →
    (session.memory.mRgns slot).base + pages ≤ 0x5fc00 ∧ pages ≤ session.memory.freeFrames.card

/-- A program keeps to what it has got. -/
def Permitted (watched : Watched) : Action → Prop
  | .allocVirtual pages => 1 ≤ pages ∧ Fits watched.machine.session pages
  | .freeVirtual _ => True
  | .load addr => Owned watched.machine.session addr
  | .store addr _ => Owned watched.machine.session addr

end Watched

/-- Pages that were handed out are visible to programs, and what is cached of them is what is
in the tables. -/
structure Lends (booted : Memory) (session : Session) : Prop extends Running booted session where
  visible : ∀ item ∈ session.live, ∀ page, item.Contains page → 0x40000 ≤ page ∧ page < 0x5fc00 ∧
    (session.memory.entry page).flagsByte = PteFlags.genericUser
  cached : ∀ item ∈ session.live, ∀ page, item.Contains page → ∀ frame,
    session.memory.tlb page = some frame → frame = session.memory.frameOf page

/-- What was stored last is what the frames hold. -/
structure Recalls (booted : Memory) (watched : Watched) : Prop
    extends Lends booted watched.machine.session where
  stored : ∀ addr byte, watched.stored addr = some byte → Owned watched.machine.session addr ∧
    watched.machine.ram (inFrame (watched.machine.session.memory.frameOf (pageOf addr)) addr) = byte

section Lends

variable {booted : Memory} {session next : Session} {event : Event} {addr other : BitVec 32}

/-- What is cached is no part of the tables. -/
theorem frameOf_tlb (memory : Memory) (tlb : Nat → Option Nat) (page : Nat) :
    Memory.frameOf { memory with tlb := tlb } page = memory.frameOf page := rfl

/-- What is cached plays no part, as long as it is what is in the tables. -/
theorem Lends.of_tlb (lends : Lends booted session) {tlb : Nat → Option Nat}
    (cached : ∀ item ∈ session.live, ∀ page, item.Contains page → ∀ frame,
      tlb page = some frame → frame = session.memory.frameOf page) :
    Lends booted { session with memory := { session.memory with tlb := tlb } } :=
  ⟨lends.toRunning.of_tlb tlb, lends.visible, cached⟩

/-- A program finds the frame in the table, cached or not. -/
theorem Lends.translate (lends : Lends booted session) (owned : Owned session addr) :
    ∃ tlb, translate session.memory (pageOf addr) =
        some (session.memory.frameOf (pageOf addr), { session.memory with tlb := tlb }) ∧
      Lends booted { session with memory := { session.memory with tlb := tlb } } := by
  rcases owned with ⟨item, member, contains⟩
  rcases lends.visible item member _ contains with ⟨above, below, flags⟩
  rw [Boot.translate]
  cases cached : session.memory.tlb (pageOf addr) with
  | some frame =>
      have same := lends.cached item member _ contains frame cached
      exact ⟨session.memory.tlb, by simp only [same], lends.of_tlb lends.cached⟩
  | none =>
      simp only [programWalk_entry lends.installed above below flags, Option.map_some]
      refine ⟨_, rfl, lends.of_tlb (fun other member' page contains' frame found => ?_)⟩
      rw [Function.update_apply] at found
      split at found
      · rename_i here
        rw [here]
        exact (Option.some.inj found).symm
      · exact lends.cached other member' page contains' frame found

/-- Different addresses that were handed out are at different places in the frames. -/
theorem Lends.inFrame_ne (lends : Lends booted session) (owned : Owned session addr)
    (owned' : Owned session other) (different : addr ≠ other) :
    inFrame (session.memory.frameOf (pageOf addr)) addr ≠
      inFrame (session.memory.frameOf (pageOf other)) other := by
  have used : ∀ addr, Owned session addr → pageOf addr ∈ session.memory.usedPages := by
    rintro addr ⟨item, member, contains⟩
    rcases lends.backed item member with ⟨slot, backed⟩
    exact ⟨slot, backed.1, (backed.contains_iff _).mp contains⟩
  intro same
  unfold inFrame at same
  have frames : session.memory.frameOf (pageOf addr) = session.memory.frameOf (pageOf other) := by omega
  have pages := lends.conserves.exclusive (used addr owned) (used other owned') frames
  refine different (BitVec.eq_of_toNat_eq ?_)
  unfold pageOf at pages
  omega

/-- A request that fits leaves the page behind the tables alone. -/
theorem Lends.asksWindow (lends : Lends booted session) {pages : Nat} (positive : 1 ≤ pages)
    (fits : Watched.Fits session pages) : AsksWindow session (.allocVirtual pages) := by
  intro one
  by_contra closed
  rcases lends.table with ⟨slots, arranged⟩
  have windowed : Windowed session := ⟨lends.toTracked, lends.confined⟩
  have fitting : Memory.fits pages (session.memory.mRgns (Regions.slot 4)) = true :=
    Memory.fits_iff.mpr ⟨lends.confined.isFree, by rw [lends.confined.length, one]⟩
  rcases arranged.exists_findRgn (ne_none_of_free lends.confined.isFree) fitting with ⟨found, stops⟩
  have last := (windowed.selects_last_iff positive stops).mpr ⟨one, closed⟩
  have low := (fits found stops).1
  rw [last, lends.confined.base] at low
  omega

/-- The pages of an allocation that stays keep their entries. -/
theorem Lends.entry_eq (lends : Lends booted session) (taken : session.step event = some next)
    {item : Allocation} (before : item ∈ session.live) (after : item ∈ next.live) {page : Nat}
    (contains : item.Contains page) : next.memory.entry page = session.memory.entry page := by
  have untouched := lends.untouched Memory.Ordering.le' (Nat.le_refl _) taken before after contains
  exact Session.step_entry lends.bounded taken untouched.1 untouched.2

/-- A call of the memory manager. -/
theorem Lends.call (lends : Lends booted session) (call : ∀ page, event ≠ .access page)
    (positive : event.Positive) (supplied : session.Supplied event) (asks : AsksWindow session event)
    (low : ∀ pages, event = .allocVirtual pages → Watched.Fits session pages)
    (taken : session.step event = some next) : Lends booted next := by
  have bounded := lends.bounded
  have effect := call_effect bounded call taken
  refine ⟨lends.toRunning.step positive supplied asks taken, fun item member page contains => ?_,
    fun item member page contains frame cached => ?_⟩
  · rcases Session.live_cases taken member with old | ⟨rfl, returned, result⟩
    · rw [lends.entry_eq taken old member contains]
      exact lends.visible item old page contains
    · rcases lends.table with ⟨slots, arranged⟩
      rcases bounded.allocVirtual_returned positive result returned with
        ⟨slot, found, isFree, enough, _, address, _⟩
      rcases arranged.allocVirtual_allocated Memory.Ordering.le' (Nat.le_refl _) positive result returned with
        ⟨region, allocated⟩
      have front := low item.pages rfl slot found
      have notLast : slot ≠ Regions.slot 4 := by
        rintro rfl
        rw [lends.confined.base] at front
        omega
      have window := lends.confined.window_of_free notLast isFree
      have region_eq := allocated.address
      unfold Allocation.Contains at contains
      obtain ⟨i, rfl⟩ : ∃ i, page = (session.memory.mRgns region).base + i :=
        ⟨page - (session.memory.mRgns region).base, by omega⟩
      exact ⟨by omega, by omega, allocated.mapped.flags i (by omega)⟩
  · have earlier := effect.cached page frame cached
    rcases Session.live_cases taken member with old | ⟨rfl, returned, result⟩
    · rw [Memory.frameOf, lends.entry_eq taken old member contains]
      exact lends.cached item old page contains frame earlier.1
    · have member := bounded.mem_maps_of_returned result returned contains
      have window := lends.bounded
      rcases bounded.allocVirtual_returned positive result returned with
        ⟨slot, found, _, enough, _, address, _⟩
      have front := low item.pages rfl slot found
      have pageCount := memPageCount_eq
      have behind := earlier.2.1 member
      unfold Allocation.Contains at contains
      omega

/-- An address that belonged to somebody before a call, and does afterwards, is at the same
place. -/
theorem Lends.frameOf_eq (lends : Lends booted session) (positive : event.Positive)
    (taken : session.step event = some next) (before : Owned session addr) (after : Owned next addr) :
    next.memory.frameOf (pageOf addr) = session.memory.frameOf (pageOf addr) := by
  rcases before with ⟨item, member, contains⟩
  rcases after with ⟨other, member', contains'⟩
  rcases Session.live_cases taken member' with old | ⟨rfl, returned, result⟩
  · rw [Memory.frameOf, lends.entry_eq taken old member' contains', Memory.frameOf]
  · rcases lends.returned Memory.Ordering.le' (Nat.le_refl _) positive result returned with ⟨_, _, _, apart⟩
    exact absurd contains (apart item member _ contains')

end Lends

section Recalls

variable {booted : Memory} {watched next : Watched} {action : Action} {addr : BitVec 32}

/-- A call of the memory manager. -/
theorem Recalls.call (recalls : Recalls booted watched) {event : Event} {session : Session}
    (call : ∀ page, event ≠ .access page) (positive : event.Positive)
    (supplied : watched.machine.session.Supplied event) (asks : AsksWindow watched.machine.session event)
    (low : ∀ pages, event = .allocVirtual pages → Watched.Fits watched.machine.session pages)
    (taken : watched.machine.session.step event = some session) :
    Recalls booted ⟨{ watched.machine with session := session },
      fun addr => if Owned session addr then watched.stored addr else none⟩ := by
  refine ⟨recalls.toLends.call call positive supplied asks low taken, fun addr byte found => ?_⟩
  rcases Option.ite_none_right_eq_some.mp found with ⟨owned, old⟩
  rcases recalls.stored addr byte old with ⟨before, holds⟩
  refine ⟨owned, ?_⟩
  rw [recalls.toLends.frameOf_eq positive taken before owned]
  exact holds

/-- An action that is permitted is never stopped, and what was stored is kept. -/
theorem Recalls.step (recalls : Recalls booted watched) (permitted : watched.Permitted action) :
    ∃ next, watched.step action = some next ∧ Recalls booted next := by
  cases action with
  | allocVirtual pages =>
      have positive : (Event.allocVirtual pages).Positive := permitted.1
      rcases recalls.progress positive with ⟨session, taken⟩
      refine ⟨_, ?_, recalls.call (fun _ => Event.noConfusion) positive
        (fun slot found => (permitted.2 slot found).2) (recalls.toLends.asksWindow positive permitted.2)
        (fun pages same => Event.allocVirtual.inj same ▸ permitted.2) taken⟩
      rw [Watched.step, Machine.step, taken]
      rfl
  | freeVirtual ptr =>
      have positive : (Event.freeVirtual ptr).Positive := trivial
      rcases recalls.progress positive with ⟨session, taken⟩
      refine ⟨_, ?_, recalls.call (fun _ => Event.noConfusion) positive trivial trivial
        (fun pages => Event.noConfusion) taken⟩
      rw [Watched.step, Machine.step, taken]
      rfl
  | load addr =>
      rcases recalls.toLends.translate permitted with ⟨tlb, found, lends⟩
      refine ⟨_, by rw [Watched.step, Machine.step, found]; rfl, lends, fun other byte stored => ?_⟩
      exact recalls.stored other byte (Option.ite_none_right_eq_some.mp stored).2
  | store addr byte =>
      rcases recalls.toLends.translate permitted with ⟨tlb, found, lends⟩
      have taken : watched.step (.store addr byte) = some
          { machine :=
              { session := { watched.machine.session with
                  memory := { watched.machine.session.memory with tlb := tlb } }
                ram := Function.update watched.machine.ram
                  (inFrame (watched.machine.session.memory.frameOf (pageOf addr)) addr) byte }
            stored := Function.update watched.stored addr (some byte) } := by
        rw [Watched.step, Machine.step, found]
        rfl
      refine ⟨_, taken, lends, fun other value stored => ?_⟩
      by_cases here : other = addr
      · subst here
        refine ⟨permitted, (Function.update_self _ _ _).trans ?_⟩
        exact Option.some.inj ((Function.update_self other _ _).symm.trans stored)
      · rcases recalls.stored other value ((Function.update_of_ne here _ _).symm.trans stored) with
          ⟨owned, holds⟩
        have elsewhere := recalls.toLends.inFrame_ne owned permitted here
        refine ⟨owned, ?_⟩
        dsimp only
        rw [frameOf_tlb watched.machine.session.memory tlb (pageOf other), Function.update_of_ne elsewhere]
        exact holds

/-- A program reads what was stored last. -/
theorem Recalls.read (recalls : Recalls booted watched) {byte : BitVec 8}
    (stored : watched.stored addr = some byte) : watched.machine.read addr = some byte := by
  rcases recalls.stored addr byte stored with ⟨owned, holds⟩
  rcases recalls.toLends.translate owned with ⟨tlb, found, _⟩
  rw [Machine.read, found]
  exact congrArg some holds

end Recalls

end Boot

end WeakOS
