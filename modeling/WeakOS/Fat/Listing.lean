import Mathlib
import WeakOS.Foundation.Visit
import WeakOS.Fat.Directory

namespace WeakOS

open Foundation

namespace Fat

/-!
# What a listing passes to its callback

The loop of `enumerate_directory` parses the entries of one cluster and visits
the parsed entries with the callback.  Parsing depends on the cluster and on
the uninitialised locals, and never on what the callback does: the entries are
a copy.  A long-name record that does not fit into the name buffer ends the
listing with a fault.
-/

/-- The parsed entries that are passed on, up to the end of the listing or to a
fault. -/
structure Listing where
  passed : List ParsedDirEntry
  completes : Bool

/-- The end-of-directory marker.  A long-name record is told by its attributes,
whatever its first byte is. -/
def DirEntry.IsEnd (entry : DirEntry) : Prop := entry.attributes ≠ 0x0f ∧ entry.fileName 0 = 0

/-- An entry that is neither deleted nor a long-name record nor a dot entry. -/
def DirEntry.IsLive (entry : DirEntry) : Prop :=
  entry.attributes ≠ 0x0f ∧ entry.fileName 0 ≠ 0xe5 ∧ entry.fileName 0 ≠ 0x2e

instance (entry : DirEntry) : Decidable entry.IsEnd := inferInstanceAs (Decidable (_ ∧ _))

instance (entry : DirEntry) : Decidable entry.IsLive := inferInstanceAs (Decidable (_ ∧ _))

/-- Parse entries, the first of which has index `i`. -/
def parse (locals : Locals) : (i : Nat) → (nameBuf : Name) → (hasLfn : Bool) → List DirEntry → Listing
  | _, _, _, [] => ⟨[], true⟩
  | i, nameBuf, hasLfn, entry :: rest =>
      if entry.attributes = 0x0f then
        if entry.order = 0xe5 then parse locals (i + 1) nameBuf hasLfn rest
        else
          match copyPiece nameBuf entry with
          | none => ⟨[], false⟩
          | some nameBuf => parse locals (i + 1) nameBuf true rest
      else if entry.IsEnd then ⟨[], true⟩
      else if entry.IsLive then
        let later := parse locals (i + 1) nameBuf false rest
        ⟨parsedEntry locals entry i nameBuf hasLfn :: later.passed, later.completes⟩
      else parse locals (i + 1) nameBuf false rest

/-- What happens behind the last parsed entry. -/
def Listing.finish {State : Type} (listing : Listing) (state : State) : Option State :=
  if listing.completes then some state else none

section Loop

variable {State : Type} (entries : Nat → DirEntry) (locals : Locals) (func : Callback State)

/-- The loop visits what is parsed. -/
theorem enumerateLoop_eq (left i : Nat) (nameBuf : Name) (hasLfn : Bool) (state : Driver × State) :
    enumerateLoop entries locals func left i nameBuf hasLfn state =
      let listing := parse locals i nameBuf hasLfn ((List.range' i left).map entries)
      Visit.visit func listing.finish listing.passed state := by
  induction left generalizing i nameBuf hasLfn state with
  | zero => rfl
  | succ left inductionHypothesis =>
      rw [List.range'_succ, List.map_cons, enumerateLoop, parse]
      by_cases record : (entries i).attributes = 0x0f
      · simp only [if_pos record]
        by_cases deleted : (entries i).order = 0xe5
        · simp only [if_pos deleted, inductionHypothesis]
        · simp only [if_neg deleted]
          cases copyPiece nameBuf (entries i) with
          | none => rfl
          | some nameBuf => exact inductionHypothesis (i + 1) nameBuf true state
      simp only [if_neg record]
      by_cases ends : (entries i).fileName 0 = 0
      · have isEnd : (entries i).IsEnd := ⟨record, ends⟩
        simp only [if_pos ends, if_pos isEnd]
        rfl
      have notEnd : ¬ (entries i).IsEnd := fun isEnd => ends isEnd.2
      simp only [if_neg ends, if_neg notEnd]
      by_cases skipped : (entries i).fileName 0 = 0xe5 ∨ (entries i).fileName 0 = 0x2e
      · have notLive : ¬ (entries i).IsLive := fun live =>
          skipped.elim live.2.1 live.2.2
        simp only [if_pos skipped, if_neg notLive, inductionHypothesis]
      · have live : (entries i).IsLive :=
          ⟨record, fun deleted => skipped (Or.inl deleted), fun dot => skipped (Or.inr dot)⟩
        simp only [if_neg skipped, if_pos live, Visit.visit, Option.bind_eq_bind, inductionHypothesis]
        rfl

end Loop

/-! ## The entries of a cluster -/

/-- The entry `i` in the sectors of a cluster. -/
def diskEntry (disk : Disk) (bpb : Bpb) (cluster : BitVec 32) (i : Nat) : DirEntry :=
  entryAt (fun offset => disk ((clusterSector bpb cluster).toNat + offset / 512) (offset % 512)) i

/-- The entries that a cluster has room for. -/
def clusterEntries (disk : Disk) (bpb : Bpb) (cluster : BitVec 32) : List DirEntry :=
  (List.range' 0 (entryCount bpb)).map (diskEntry disk bpb cluster)

/-- The listing of the directory in a cluster. -/
def listing (disk : Disk) (bpb : Bpb) (cluster : BitVec 32) (locals : Locals) : Listing :=
  parse locals 0 locals.nameBuf false (clusterEntries disk bpb cluster)

/-- A cluster fits into `m_cluster_buffer`. -/
def ClusterFits (bpb : Bpb) : Prop := bpb.sectorsPerCluster.toNat * 512 ≤ clusterBufferSize

instance (bpb : Bpb) : Decidable (ClusterFits bpb) := inferInstanceAs (Decidable (_ ≤ _))

/-- The driver once the cluster of a directory has been read. -/
def Driver.enter (disk : Disk) (cluster : BitVec 32) (driver : Driver) : Driver where
  fat := loadCluster disk cluster driver.fat
  locals := fun call => driver.locals (call + 1)

section Enumerate

variable {State : Type} {disk : Disk} {from_ : Option DirEntry} {func : Callback State}
  {driver : Driver} {state : State}

/-- The bytes of a cluster arrive in the buffer. -/
theorem entryAt_loadCluster (disk : Disk) (cluster : BitVec 32) (fat : Fat) {i : Nat}
    (inside : i < entryCount fat.mBpb) :
    entryAt (loadCluster disk cluster fat).mClusterBuffer i = diskEntry disk fat.mBpb cluster i := by
  funext offset
  have small := offset.isLt
  unfold entryCount at inside
  exact if_pos (by omega)

/-- A listing is a visit of what is parsed of the directory's first cluster. -/
theorem enumerateDirectory_eq (fits : ClusterFits driver.fat.mBpb) :
    enumerateDirectory disk from_ func (driver, state) =
      let cluster := directoryCluster driver.fat.mBpb from_
      let listing := listing disk driver.fat.mBpb cluster (driver.locals 0)
      Visit.visit func listing.finish listing.passed (driver.enter disk cluster, state) := by
  have same : (List.range' 0 (entryCount driver.fat.mBpb)).map (entryAt (loadCluster disk
        (directoryCluster driver.fat.mBpb from_) driver.fat).mClusterBuffer) =
      clusterEntries disk driver.fat.mBpb (directoryCluster driver.fat.mBpb from_) :=
    List.map_congr_left (fun i member => entryAt_loadCluster disk _ driver.fat
      (by simpa using member))
  unfold enumerateDirectory
  rw [if_neg (Nat.not_lt.mpr fits)]
  simp only [enumerateLoop_eq, listing, ← same]
  rfl

theorem enumerateDirectory_of_not_fits (large : ¬ ClusterFits driver.fat.mBpb) :
    enumerateDirectory disk from_ func (driver, state) = none :=
  if_pos (Nat.not_le.mp large)

end Enumerate

end Fat

end WeakOS
