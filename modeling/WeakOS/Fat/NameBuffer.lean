import Mathlib
import WeakOS.Fat.Enumeration

namespace WeakOS

namespace Fat

/-!
# Where the pieces of long names are written

Each long-name record makes three copies into the name buffer, at an index that
comes from its order byte.  An order whose lower six bits are zero puts them in
front of the buffer, and one from twenty on puts the last of them behind it;
twenty is the order of a legal record, the last one of a name of more than 247
units.

The listing is run once more with a record of the copies it makes.
-/

/-- A copy of units into the name buffer. -/
structure Copy where
  start : Int
  count : Nat
  deriving DecidableEq, Repr

/-- All units that are written are units of the buffer. -/
def Copy.Inside (copy : Copy) : Prop := 0 ≤ copy.start ∧ copy.start + copy.count ≤ 256

instance (copy : Copy) : Decidable copy.Inside := inferInstanceAs (Decidable (_ ∧ _))

/-- The copies that a long-name record makes. -/
def pieceCopies (entry : DirEntry) : List Copy :=
  let ofs := pieceOfs entry
  [⟨ofs * 13, entry.nameP1.length⟩, ⟨ofs * 13 + 5, entry.nameP2.length⟩,
    ⟨ofs * 13 + 11, entry.nameP3.length⟩]

theorem pieceCopies_inside_iff (entry : DirEntry) :
    (∀ copy ∈ pieceCopies entry, copy.Inside) ↔ 0 ≤ pieceOfs entry ∧ pieceOfs entry ≤ 18 := by
  have lengths : entry.nameP1.length = 5 ∧ entry.nameP2.length = 6 ∧ entry.nameP3.length = 2 :=
    ⟨rfl, rfl, rfl⟩
  simp only [pieceCopies, List.forall_mem_cons, Copy.Inside, lengths]
  constructor
  · rintro ⟨first, _, last, _⟩
    omega
  · intro fits
    exact ⟨by omega, by omega, by omega, fun _ none => absurd none List.not_mem_nil⟩

/-- The record is copied as far as the model goes exactly when its copies stay
inside. -/
theorem copyPiece_isSome_iff (nameBuf : Name) (entry : DirEntry) :
    (copyPiece nameBuf entry).isSome = true ↔ ∀ copy ∈ pieceCopies entry, copy.Inside := by
  rw [pieceCopies_inside_iff, copyPiece_eq]
  split
  · rename_i fits
    exact iff_of_true rfl fits
  · rename_i large
    exact iff_of_false Bool.false_ne_true large

section Recorded

variable {State : Type}

/-- The loop of `enumerate_directory`, with the copies into the name buffer that
it makes.  Nothing is recorded behind a copy that leaves the buffer. -/
def enumerateLoopRecorded (entries : Nat → DirEntry) (locals : Locals) (func : Callback State) :
    (left i : Nat) → (nameBuf : Name) → (hasLfn : Bool) → Driver × State →
      Option (Driver × State) × List Copy
  | 0, _, _, _, state => (some state, [])
  | left + 1, i, nameBuf, hasLfn, state =>
      let entry := entries i
      if entry.attributes = 0x0f then
        if entry.order = 0xe5 then
          enumerateLoopRecorded entries locals func left (i + 1) nameBuf hasLfn state
        else
          match copyPiece nameBuf entry with
          | none => (none, pieceCopies entry)
          | some nameBuf =>
              let later := enumerateLoopRecorded entries locals func left (i + 1) nameBuf true state
              (later.1, pieceCopies entry ++ later.2)
      else if entry.fileName 0 = 0 then (some state, [])
      else if entry.fileName 0 = 0xe5 ∨ entry.fileName 0 = 0x2e then
        enumerateLoopRecorded entries locals func left (i + 1) nameBuf false state
      else
        match func (parsedEntry locals entry i nameBuf hasLfn) state with
        | none => (none, [])
        | some (stop, state) =>
            if stop then (some state, [])
            else enumerateLoopRecorded entries locals func left (i + 1) nameBuf false state

variable {entries : Nat → DirEntry} {locals : Locals} {func : Callback State}

/-- Without the copies it is the loop. -/
theorem enumerateLoopRecorded_fst (left i : Nat) (nameBuf : Name) (hasLfn : Bool)
    (state : Driver × State) :
    (enumerateLoopRecorded entries locals func left i nameBuf hasLfn state).1 =
      enumerateLoop entries locals func left i nameBuf hasLfn state := by
  induction left generalizing i nameBuf hasLfn state with
  | zero => rfl
  | succ left inductionHypothesis =>
      simp only [enumerateLoopRecorded, enumerateLoop, ← inductionHypothesis, Option.bind_eq_bind]
      split
      · split
        · rfl
        · cases copyPiece nameBuf (entries i) with
          | none => rfl
          | some nameBuf => rfl
      · split
        · rfl
        · split
          · rfl
          · cases func (parsedEntry locals (entries i) i nameBuf hasLfn) state with
            | none => rfl
            | some result =>
                rcases result with ⟨stop, state⟩
                cases stop <;> rfl

/-- The copies that a call of `enumerate_directory` makes into its name buffer. -/
def nameCopies (disk : Disk) (from_ : Option DirEntry) (func : Callback State)
    (state : Driver × State) : List Copy :=
  let fat := loadCluster disk (directoryCluster state.1.fat.mBpb from_) state.1.fat
  let locals := state.1.locals 0
  let driver : Driver := { fat, locals := fun call => state.1.locals (call + 1) }
  (enumerateLoopRecorded (entryAt fat.mClusterBuffer) locals func (entryCount fat.mBpb) 0
    locals.nameBuf false (driver, state.2)).2

/-- Records that fit are copied into the buffer, whatever the callback does. -/
theorem inside_of_orderFits (left i : Nat) (nameBuf : Name) (hasLfn : Bool) (state : Driver × State)
    (fits : ∀ entry ∈ ((List.range' i left).map entries).takeWhile fun entry => ¬ entry.IsEnd,
      entry.OrderFits) :
    ∀ copy ∈ (enumerateLoopRecorded entries locals func left i nameBuf hasLfn state).2,
      copy.Inside := by
  induction left generalizing i nameBuf hasLfn state with
  | zero => exact fun _ none => absurd none List.not_mem_nil
  | succ left inductionHypothesis =>
      have nothing : ∀ copy ∈ ([] : List Copy), copy.Inside := fun _ none => absurd none List.not_mem_nil
      rw [List.range'_succ, List.map_cons] at fits
      rw [enumerateLoopRecorded]
      by_cases ends : (entries i).IsEnd
      · simp only [if_neg ends.1, if_pos ends.2]
        exact nothing
      rw [List.takeWhile_cons_of_pos (by simpa using ends), List.forall_mem_cons] at fits
      have later := fun nameBuf hasLfn state =>
        inductionHypothesis (i + 1) nameBuf hasLfn state fits.2
      by_cases record : (entries i).attributes = 0x0f
      · simp only [if_pos record]
        by_cases deleted : (entries i).order = 0xe5
        · simp only [if_pos deleted]
          exact later _ _ _
        · have pieces := (pieceCopies_inside_iff (entries i)).mpr (fits.1 record deleted)
          simp only [if_neg deleted]
          cases copyPiece nameBuf (entries i) with
          | none => exact pieces
          | some nameBuf =>
              exact fun copy member => (List.mem_append.mp member).elim (pieces copy) (later _ _ _ copy)
      have notZero : ¬ (entries i).fileName 0 = 0 := fun zero => ends ⟨record, zero⟩
      simp only [if_neg record, if_neg notZero]
      split
      · exact later _ _ _
      · cases func (parsedEntry locals (entries i) i nameBuf hasLfn) state with
        | none => exact nothing
        | some result =>
            rcases result with ⟨stop, state⟩
            cases stop with
            | true => exact nothing
            | false => exact later _ _ _

/-- A callback that never stops the listing sees to it that every record is
reached. -/
theorem orderFits_of_inside (always : AlwaysFalse func) (left i : Nat) (nameBuf : Name) (hasLfn : Bool)
    (state : Driver × State)
    (inside : ∀ copy ∈ (enumerateLoopRecorded entries locals func left i nameBuf hasLfn state).2,
      copy.Inside) :
    ∀ entry ∈ ((List.range' i left).map entries).takeWhile fun entry => ¬ entry.IsEnd,
      entry.OrderFits := by
  induction left generalizing i nameBuf hasLfn state with
  | zero => exact fun _ none => absurd none List.not_mem_nil
  | succ left inductionHypothesis =>
      rw [List.range'_succ, List.map_cons]
      rw [enumerateLoopRecorded] at inside
      by_cases ends : (entries i).IsEnd
      · rw [List.takeWhile_cons_of_neg (by simpa using ends)]
        exact fun _ none => absurd none List.not_mem_nil
      rw [List.takeWhile_cons_of_pos (by simpa using ends), List.forall_mem_cons]
      by_cases record : (entries i).attributes = 0x0f
      · simp only [if_pos record] at inside
        by_cases deleted : (entries i).order = 0xe5
        · simp only [if_pos deleted] at inside
          exact ⟨fun _ kept => absurd deleted kept, inductionHypothesis _ _ _ _ inside⟩
        · simp only [if_neg deleted] at inside
          have copied : (copyPiece nameBuf (entries i)).isSome = true := by
            rw [copyPiece_isSome_iff]
            cases copy : copyPiece nameBuf (entries i) with
            | none =>
                rw [copy] at inside
                exact inside
            | some nameBuf =>
                rw [copy] at inside
                exact fun copy member => inside copy (List.mem_append_left _ member)
          have fits := (pieceCopies_inside_iff _).mp ((copyPiece_isSome_iff _ _).mp copied)
          rcases Option.isSome_iff_exists.mp copied with ⟨after, copy⟩
          rw [copy] at inside
          exact ⟨fun _ _ => fits, inductionHypothesis _ _ _ _
            (fun copy member => inside copy (List.mem_append_right _ member))⟩
      have notZero : ¬ (entries i).fileName 0 = 0 := fun zero => ends ⟨record, zero⟩
      refine ⟨fun isRecord => absurd isRecord record, ?_⟩
      simp only [if_neg record, if_neg notZero] at inside
      split at inside
      · exact inductionHypothesis _ _ _ _ inside
      · rcases always (parsedEntry locals (entries i) i nameBuf hasLfn) state with ⟨next, called⟩
        rw [called] at inside
        exact inductionHypothesis _ _ _ _ inside

end Recorded

section Directory

variable {disk : Disk} {from_ : Option DirEntry} {driver : Driver}

/-- The entries that the loop goes through are those of the cluster. -/
theorem entries_loadCluster (disk : Disk) (cluster : BitVec 32) (fat : Fat) :
    (List.range' 0 (entryCount fat.mBpb)).map (entryAt (loadCluster disk cluster fat).mClusterBuffer) =
      clusterEntries disk fat.mBpb cluster :=
  List.map_congr_left (fun i member => entryAt_loadCluster disk cluster fat
    (by rw [List.mem_range'_1] at member; omega))

/-- With every callback the pieces are written into the name buffer only,
exactly when each long-name record in front of the end marker is deleted or has
an order from 1 to 19. -/
theorem nameCopies_inside_iff :
    (∀ (State : Type) (func : Callback State) (state : State),
      ∀ copy ∈ nameCopies disk from_ func (driver, state), copy.Inside) ↔
      ∀ entry ∈ (clusterEntries disk driver.fat.mBpb
        (directoryCluster driver.fat.mBpb from_)).takeWhile fun entry => ¬ entry.IsEnd,
        entry.OrderFits := by
  have entries := entries_loadCluster disk (directoryCluster driver.fat.mBpb from_) driver.fat
  constructor
  · intro inside
    have fits := orderFits_of_inside alwaysFalse_ignore _ _ _ _ _ (inside Unit ignore ())
    rwa [show (loadCluster disk (directoryCluster driver.fat.mBpb from_) driver.fat).mBpb =
      driver.fat.mBpb from rfl, entries] at fits
  · intro fits State func state
    rw [← entries] at fits
    exact inside_of_orderFits _ _ _ _ _ fits

end Directory

/-- A volume whose root directory begins with a long-name record. -/
def recordOf (order : BitVec 8) : Disk := fun sector offset =>
  if sector = 4096 then
    if offset = 44 then 2
    else if offset = 13 ∨ offset = 14 ∨ offset = 16 ∨ offset = 36 then 1 else 0
  else if sector = 4098 then
    if offset = 0 then order else if offset = 11 then 0x0f else 0
  else 0

/-- A record of order 20, which every name of 248 units or more has, is copied
behind the name buffer. -/
theorem nameCopies_outside :
    ¬ ∀ (disk : Disk) (from_ : Option DirEntry) (driver : Driver) (State : Type)
      (func : Callback State) (state : State),
      ∀ copy ∈ nameCopies disk from_ func (driver, state), copy.Inside := by
  intro inside
  have fits := nameCopies_inside_iff.mp (inside (recordOf 0x54) none
    ⟨new (recordOf 0x54) fun _ => 0, fun _ => ⟨fun _ => 0, fun _ _ => 0⟩⟩)
  have large : ((clusterEntries (recordOf 0x54) (new (recordOf 0x54) fun _ => 0).mBpb
      (directoryCluster (new (recordOf 0x54) fun _ => 0).mBpb none)).takeWhile fun entry =>
        ¬ entry.IsEnd).all (fun entry => entry.OrderFits) = false := by
    decide +kernel
  rw [List.all_eq_false] at large
  rcases large with ⟨entry, member, tooLarge⟩
  exact tooLarge (decide_eq_true (fits entry member))

end Fat

end WeakOS
