import Mathlib
import WeakOS.Foundation.Run
import WeakOS.Fat.ReadFile
import WeakOS.Fat.Lookup

namespace WeakOS

open Foundation

namespace Fat

/-!
# What a lookup depends on

The static `found_entry` outlives a call.  A component that is not found leaves
it as it is, so that behind a component that is found the lookup goes on from
the directory it was in, and in front of one it goes on from what an earlier
call has found.
-/

/-! ## Histories of calls -/

/-- The calls that the rest of the kernel makes. -/
inductive Call where
  | traverse (path : List (BitVec 8)) (traverseFrom : Option DirEntry)
  | fileSize (fileName : List (BitVec 8))
  | file (fileName : List (BitVec 8)) (buffer : Nat)

abbrev System := (Driver × Lookup) × Bytes

def call (disk : Disk) (system : System) : Call → Option System
  | .traverse path traverseFrom =>
      (traverseDirectory disk path traverseFrom system.1).map fun result => (result.2, system.2)
  | .fileSize fileName =>
      (getFileSize disk fileName system.1).map fun result => (result.2, system.2)
  | .file fileName buffer => getFile disk fileName buffer system

/-- The geometry of a volume. -/
def geometry (disk : Disk) : Bpb := (new disk fun _ => 0).mBpb

/-- The system before the first call; static members are zeroed. -/
def boot (disk : Disk) (clusterBuffer : Bytes) (locals : Nat → Locals) (bytes : Bytes) : System :=
  ((⟨new disk clusterBuffer, locals⟩, ⟨[], ⟨fun _ => 0, fun _ => 0⟩⟩), bytes)

/-- A sequence of calls, and the system after it.  What memory and the stack
hold at first is part of a history. -/
structure History (disk : Disk) where
  clusterBuffer : Bytes
  locals : Nat → Locals
  bytes : Bytes
  calls : List Call
  system : System
  reached : Run.run (call disk) (boot disk clusterBuffer locals bytes) calls = some system

/-- The directory entry that the last call has left behind. -/
def History.held {disk : Disk} (history : History disk) : DirEntry :=
  history.system.1.2.foundEntry.dirent

/-! ## What a lookup does to the driver -/

section Driver

variable {disk : Disk}

/-- A listing for a lookup enters the directory, and may find an entry. -/
theorem enumerateDirectory_traverse_cases {from_ : Option DirEntry} {driver : Driver}
    {lookup : Lookup} {after : Driver × Lookup}
    (result : enumerateDirectory disk from_ traverseFunc (driver, lookup) = some after) :
    after.1 = driver.enter disk (directoryCluster driver.fat.mBpb from_) := by
  by_cases fits : ClusterFits driver.fat.mBpb
  · rw [enumerateDirectory_traverse fits] at result
    rcases Option.map_eq_some_iff.mp result with ⟨found, _, rfl⟩
    rfl
  · rw [enumerateDirectory_of_not_fits fits] at result
    cases result

/-- A lookup changes the object's cluster buffer only. -/
theorem traverseDirectory_fat {path : List (BitVec 8)} {from_ : Option DirEntry}
    {state : Driver × Lookup} {result : ParsedDirEntry × (Driver × Lookup)}
    (returned : traverseDirectory disk path from_ state = some result) :
    ∃ clusterBuffer, result.2.1.fat = { state.1.fat with mClusterBuffer := clusterBuffer } := by
  induction size : path.length using Nat.strong_induction_on generalizing path from_ state with
  | _ size inductionHypothesis =>
      subst size
      rw [traverseDirectory] at returned
      cases listed : enumerateDirectory disk from_ traverseFunc
          (state.1, { state.2 with mPath := path }) with
      | none =>
          rw [listed] at returned
          cases returned
      | some next =>
          have entered := enumerateDirectory_traverse_cases listed
          rw [listed] at returned
          simp only at returned
          split at returned
          · rename_i goesOn
            rcases inductionHypothesis _ (length_tail_skipComponent goesOn) returned rfl with
              ⟨clusterBuffer, later⟩
            refine ⟨clusterBuffer, later.trans ?_⟩
            rw [entered]
            rfl
          · rw [← Option.some.inj returned]
            exact ⟨next.1.fat.mClusterBuffer, by rw [entered]; rfl⟩

/-- Reading a file keeps the geometry. -/
theorem readFile_mBpb {fuel : Nat} {cluster size : BitVec 32} {buffer : Nat} {fat : Fat}
    {bytes : Bytes} {after : Fat × Bytes}
    (result : readFile disk fuel cluster size buffer (fat, bytes) = some after) :
    after.1.mBpb = fat.mBpb := by
  induction fuel generalizing cluster size buffer fat bytes with
  | zero => cases result
  | succ fuel inductionHypothesis =>
      simp only [readFile] at result
      split at result
      · rw [← Option.some.inj result]
      · split at result
        · cases result
        · split at result
          · rw [inductionHypothesis result, getNextCluster_mBpb]
            rfl
          · rw [← Option.some.inj result]
            rfl

/-- The bytes that `read_file` writes depend on the disk and on the geometry,
not on what is cached. -/
theorem readFile_congr {fuel : Nat} {cluster size : BitVec 32} {buffer : Nat} {fat other : Fat}
    {bytes : Bytes} (faithful : Faithful disk fat) (faithfulOther : Faithful disk other)
    (same : fat.mBpb = other.mBpb) :
    (readFile disk fuel cluster size buffer (fat, bytes)).map Prod.snd =
      (readFile disk fuel cluster size buffer (other, bytes)).map Prod.snd := by
  induction fuel generalizing cluster size buffer fat other bytes with
  | zero => rfl
  | succ fuel inductionHypothesis =>
      have loaded : Faithful disk (loadCluster disk cluster fat) := ⟨faithful.distinct, faithful.holds⟩
      have loadedOther : Faithful disk (loadCluster disk cluster other) :=
        ⟨faithfulOther.distinct, faithfulOther.holds⟩
      have copied : ∀ num ≤ clusterBytes fat.mBpb,
          memcpy buffer (loadCluster disk cluster fat).mClusterBuffer num bytes =
            memcpy buffer (loadCluster disk cluster other).mClusterBuffer num bytes := by
        intro num within
        refine memcpy_congr buffer bytes (fun offset inside => ?_)
        have here : offset < fat.mBpb.sectorsPerCluster.toNat * 512 := Nat.lt_of_lt_of_le inside within
        simp only [loadCluster, Ata.readSectors, ← same, if_pos here]
      simp only [readFile, ← same]
      split
      · rfl
      · split
        · rfl
        · split
          · have next : (getNextCluster disk cluster (loadCluster disk cluster fat)).1 =
                (getNextCluster disk cluster (loadCluster disk cluster other)).1 := by
              rw [loaded.getNextCluster_fst, loadedOther.getNextCluster_fst]
              exact congrArg (fatEntry disk · cluster) same
            rw [← next, copied _ (Nat.le_of_eq (clusterSize_toNat _))]
            refine inductionHypothesis (loaded.getNextCluster cluster)
              (loadedOther.getNextCluster cluster) ?_
            rw [getNextCluster_mBpb, getNextCluster_mBpb]
            exact same
          · rename_i noMore
            rw [BitVec.lt_def, clusterSize_toNat, Nat.not_lt] at noMore
            exact congrArg some (copied _ noMore)

end Driver

/-! ## Reachable systems -/

section Reachable

variable {disk : Disk}

/-- The cache is reachable and the geometry is that of the volume. -/
structure Sound (disk : Disk) (fat : Fat) : Prop where
  reachable : Reachable disk fat
  bpb : fat.mBpb = geometry disk

theorem Sound.traverseDirectory {path : List (BitVec 8)} {from_ : Option DirEntry}
    {state : Driver × Lookup} {result : ParsedDirEntry × (Driver × Lookup)}
    (sound : Sound disk state.1.fat)
    (returned : traverseDirectory disk path from_ state = some result) :
    Sound disk result.2.1.fat := by
  rcases traverseDirectory_fat returned with ⟨clusterBuffer, same⟩
  rw [same]
  exact ⟨Reachable.buffered _ clusterBuffer sound.reachable, sound.bpb⟩

/-- Every call keeps the driver sound. -/
theorem Sound.call {system next : System} {event : Call} (sound : Sound disk system.1.1.fat)
    (taken : call disk system event = some next) : Sound disk next.1.1.fat := by
  cases event with
  | traverse path traverseFrom =>
      rcases Option.map_eq_some_iff.mp taken with ⟨result, returned, rfl⟩
      exact sound.traverseDirectory returned
  | fileSize fileName =>
      simp only [Fat.call, getFileSize, Option.bind_eq_bind, Option.map_eq_some_iff,
        Option.bind_eq_some_iff] at taken
      rcases taken with ⟨_, ⟨result, returned, same⟩, rfl⟩
      rw [← Option.some.inj same]
      exact sound.traverseDirectory returned
  | file fileName buffer =>
      simp only [Fat.call, getFile, Option.bind_eq_bind, Option.bind_eq_some_iff] at taken
      rcases taken with ⟨result, returned, ⟨fat, bytes⟩, read, same⟩
      rw [← Option.some.inj same]
      have found := sound.traverseDirectory returned
      exact ⟨found.reachable.readFile read, (readFile_mBpb read).trans found.bpb⟩

theorem History.sound (history : History disk) : Sound disk history.system.1.1.fat := by
  refine @Run.run_invariant _ _ (call disk) (fun system => Sound disk system.1.1.fat)
    (fun _ _ => True) (fun _ _ _ sound _ taken => sound.call taken) _ _ _ ?_
    (Run.eachStep_of_forall_mem fun _ _ => trivial) history.reached
  exact ⟨Reachable.zeroed _ (fun _ => rfl), rfl⟩

end Reachable

/-! ## Determinate lookups -/

/-- What a search of a directory finds, if anything, does not depend on what the
uninitialised name buffers hold. -/
def Determinate (disk : Disk) (bpb : Bpb) (from_ : Option DirEntry) (path : List (BitVec 8))
    (found : Option DirEntry) : Prop :=
  ∀ locals : Locals, ((listing disk bpb (directoryCluster bpb from_) locals).lookup path).map
    (Option.map ParsedDirEntry.dirent) = some found

/-- A walk along a path whose searches are determinate, from the entry that is
held before it to the one that is held after it. -/
inductive Leads (disk : Disk) (bpb : Bpb) :
    (path : List (BitVec 8)) → Option DirEntry → (held result : DirEntry) → Prop where
  | last {path from_ held found} (determinate : Determinate disk bpb from_ path found)
      (ends : (skipComponent path).headD 0 = 0) : Leads disk bpb path from_ held (found.getD held)
  | more {path from_ held found result} (determinate : Determinate disk bpb from_ path found)
      (goesOn : (skipComponent path).headD 0 ≠ 0)
      (later : Leads disk bpb (skipComponent path).tail (some (found.getD held)) (found.getD held)
        result) : Leads disk bpb path from_ held result

section Leads

variable {disk : Disk} {path : List (BitVec 8)} {from_ : Option DirEntry} {held result : DirEntry}

/-- When the first component is found, it does not matter what was held. -/
theorem Leads.of_found {bpb : Bpb} {entry : DirEntry} (leads : Leads disk bpb path from_ held result)
    (first : Determinate disk bpb from_ path (some entry)) (other : DirEntry) :
    Leads disk bpb path from_ other result := by
  have unique : ∀ {found : Option DirEntry}, Determinate disk bpb from_ path found →
      found = some entry := by
    intro found determinate
    have locals : Locals := ⟨fun _ => 0, fun _ _ => 0⟩
    exact Option.some.inj ((determinate locals).symm.trans (first locals))
  cases leads with
  | last determinate ends =>
      cases unique determinate
      exact Leads.last determinate ends
  | more determinate goesOn later =>
      cases unique determinate
      exact Leads.more determinate goesOn later

theorem enumerateDirectory_determinate {driver : Driver} (lookup : Lookup) {found : Option DirEntry}
    (fits : ClusterFits driver.fat.mBpb)
    (determinate : Determinate disk driver.fat.mBpb from_ lookup.mPath found) :
    ∃ after, enumerateDirectory disk from_ traverseFunc (driver, lookup) =
        some (driver.enter disk (directoryCluster driver.fat.mBpb from_), after) ∧
      after.foundEntry.dirent = found.getD lookup.foundEntry.dirent := by
  rcases Option.map_eq_some_iff.mp (determinate (driver.locals 0)) with ⟨parsed, searched, rfl⟩
  refine ⟨lookup.take parsed, ?_, ?_⟩
  · rw [enumerateDirectory_traverse fits]
    simp only [searched, Option.map_some]
  · cases parsed <;> rfl

/-- `traverse_directory` walks along the path. -/
theorem traverseDirectory_leads {driver : Driver} {lookup : Lookup}
    (fits : ClusterFits driver.fat.mBpb)
    (leads : Leads disk driver.fat.mBpb path from_ lookup.foundEntry.dirent result) :
    ∃ pde after, traverseDirectory disk path from_ (driver, lookup) = some (pde, after) ∧
      pde.dirent = result ∧ after.2.foundEntry.dirent = result := by
  generalize bpbEq : driver.fat.mBpb = bpb at fits leads
  generalize heldEq : lookup.foundEntry.dirent = held at leads
  induction leads generalizing driver lookup with
  | @last path from_ held found determinate ends =>
      subst bpbEq heldEq
      rcases enumerateDirectory_determinate { lookup with mPath := path } fits determinate with
        ⟨after, listed, entry⟩
      refine ⟨after.foundEntry,
        (driver.enter disk (directoryCluster driver.fat.mBpb from_), after), ?_, entry, entry⟩
      rw [traverseDirectory, listed]
      simp only [ends]
      exact if_neg (not_not.mpr rfl)
  | @more path from_ held found result determinate goesOn later inductionHypothesis =>
      subst bpbEq heldEq
      rcases enumerateDirectory_determinate { lookup with mPath := path } fits determinate with
        ⟨after, listed, entry⟩
      let entered := driver.enter disk (directoryCluster driver.fat.mBpb from_)
      have bpbEq : entered.fat.mBpb = driver.fat.mBpb := rfl
      rcases inductionHypothesis bpbEq entry with ⟨pde, final, returned, same⟩
      refine ⟨pde, final, ?_, same⟩
      rw [traverseDirectory, listed]
      simp only [if_pos goesOn, entry]
      exact returned

/-- The size comes from the entry at the end of the walk, which is held afterwards. -/
theorem getFileSize_leads {state : Driver × Lookup} (sound : Sound disk state.1.fat)
    (fits : ClusterFits (geometry disk))
    (leads : Leads disk (geometry disk) path none state.2.foundEntry.dirent result) :
    ∃ after, getFileSize disk path state = some (result.fileSize, after) ∧
      Sound disk after.1.fat ∧ after.2.foundEntry.dirent = result := by
  rw [← sound.bpb] at leads fits
  rcases traverseDirectory_leads fits leads with ⟨pde, after, returned, rfl, held⟩
  refine ⟨after, ?_, sound.traverseDirectory returned, held⟩
  rw [getFileSize, returned]
  rfl

/-- `get_file` writes what `read_file` does for the entry at the end of the walk. -/
theorem getFile_leads {state : Driver × Lookup} (sound : Sound disk state.1.fat)
    (fits : ClusterFits (geometry disk))
    (leads : Leads disk (geometry disk) path none state.2.foundEntry.dirent result) :
    ∃ fat, Sound disk fat ∧ ∀ (buffer : Nat) (bytes : Bytes),
      (getFile disk path buffer (state, bytes)).map Prod.snd =
        (readFile disk (result.fileSize.toNat + 1) result.cluster result.fileSize buffer
          (fat, bytes)).map Prod.snd := by
  rw [← sound.bpb] at leads fits
  rcases traverseDirectory_leads fits leads with ⟨pde, after, returned, rfl, _⟩
  refine ⟨after.1.fat, sound.traverseDirectory returned, fun buffer bytes => ?_⟩
  simp only [getFile, returned, Option.bind_eq_bind, Option.bind_some]
  cases readFile disk _ _ _ _ _ with
  | none => rfl
  | some read => rfl

end Leads

/-! ## Two histories -/

/-- The outcome of a lookup is the same after two histories, if its searches are
determinate, and the first component is found or both histories hold the same
entry. -/
theorem lookup_of_histories {disk : Disk} (fits : ClusterFits (geometry disk))
    (one other : History disk) {path : List (BitVec 8)} {result : DirEntry}
    (leads : Leads disk (geometry disk) path none one.held result)
    (start : (∃ entry, Determinate disk (geometry disk) none path (some entry)) ∨
      one.held = other.held) :
    (∃ size, (getFileSize disk path one.system.1).map Prod.fst = some size ∧
      (getFileSize disk path other.system.1).map Prod.fst = some size) ∧
    ∀ (buffer : Nat) (bytes : Bytes),
      (getFile disk path buffer (one.system.1, bytes)).map Prod.snd =
        (getFile disk path buffer (other.system.1, bytes)).map Prod.snd := by
  have leadsOther : Leads disk (geometry disk) path none other.held result :=
    start.elim (fun ⟨_, first⟩ => leads.of_found first other.held) (fun same => same ▸ leads)
  constructor
  · rcases getFileSize_leads one.sound fits leads with ⟨after, size, _⟩
    rcases getFileSize_leads other.sound fits leadsOther with ⟨afterOther, sizeOther, _⟩
    exact ⟨result.fileSize, congrArg _ size, congrArg _ sizeOther⟩
  · rcases getFile_leads one.sound fits leads with ⟨fat, sound, written⟩
    rcases getFile_leads other.sound fits leadsOther with ⟨fatOther, soundOther, writtenOther⟩
    intro buffer bytes
    rw [written, writtenOther]
    exact readFile_congr sound.reachable.faithful soundOther.reachable.faithful
      (sound.bpb.trans soundOther.bpb.symm)

/-- A volume whose root has a file `F` of seven bytes, with a long name. -/
def oneFile : Disk := fun sector offset =>
  if sector = 4096 then
    if offset = 44 then 2
    else if offset = 13 ∨ offset = 14 ∨ offset = 16 ∨ offset = 36 then 1 else 0
  else if sector = 4098 then
    if offset = 0 then 0x41 else if offset = 11 then 0x0f
    else if offset = 1 ∨ offset = 32 then chr 'F' else if offset = 60 then 7 else 0
  else 0

section OneFile

/-- The entry of the file. -/
def fileEntry : DirEntry := diskEntry oneFile (geometry oneFile) 2 1

theorem leads_oneFile (held : DirEntry) :
    Leads oneFile (geometry oneFile) (textOf "F") none held fileEntry :=
  @Leads.last _ _ _ _ held (some fileEntry) (fun _ => rfl) (by decide)

/-- A history that has looked the file up. -/
theorem exists_history_oneFile : ∃ history : History oneFile,
    history.calls = [.fileSize (textOf "F")] ∧ history.held = fileEntry := by
  let start := boot oneFile (fun _ => 0) (fun _ => ⟨fun _ => 0, fun _ _ => 0⟩) (fun _ => 0)
  have sound : Sound oneFile start.1.1.fat := ⟨Reachable.zeroed _ (fun _ => rfl), rfl⟩
  rcases getFileSize_leads sound (by decide) (leads_oneFile _) with ⟨after, size, _, held⟩
  have reached : Run.run (call oneFile) start [.fileSize (textOf "F")] = some (after, start.2) :=
    Run.run_cons_eq_some.mpr ⟨_, by rw [call, size]; rfl, rfl⟩
  exact ⟨⟨_, _, _, _, _, reached⟩, rfl, held⟩

theorem lookup_of_histories_oneFile : ∃ one other : History oneFile,
    one.calls = [] ∧ other.calls = [.fileSize (textOf "F")] ∧
    (∃ size, (getFileSize oneFile (textOf "F") one.system.1).map Prod.fst = some size ∧
      (getFileSize oneFile (textOf "F") other.system.1).map Prod.fst = some size) ∧
    ∀ (buffer : Nat) (bytes : Bytes),
      (getFile oneFile (textOf "F") buffer (one.system.1, bytes)).map Prod.snd =
        (getFile oneFile (textOf "F") buffer (other.system.1, bytes)).map Prod.snd := by
  rcases exists_history_oneFile with ⟨other, calls, _⟩
  let one : History oneFile :=
    ⟨fun _ => 0, fun _ => ⟨fun _ => 0, fun _ _ => 0⟩, fun _ => 0, [], _, rfl⟩
  exact ⟨one, other, rfl, calls, lookup_of_histories (by decide) one other (leads_oneFile one.held)
    (Or.inl ⟨fileEntry, fun _ => rfl⟩)⟩

/-- A name that is not there gets the size of the file that was looked up before. -/
theorem getFileSize_missing : ∃ one other : History oneFile,
    one.calls = [] ∧ other.calls = [.fileSize (textOf "F")] ∧
    (getFileSize oneFile (textOf "X") one.system.1).map Prod.fst = some 0 ∧
    (getFileSize oneFile (textOf "X") other.system.1).map Prod.fst = some 7 := by
  have missing : ∀ held, Leads oneFile (geometry oneFile) (textOf "X") none held held :=
    fun held => @Leads.last _ _ _ _ held none (fun _ => rfl) (by decide)
  rcases exists_history_oneFile with ⟨other, calls, held⟩
  let one : History oneFile :=
    ⟨fun _ => 0, fun _ => ⟨fun _ => 0, fun _ _ => 0⟩, fun _ => 0, [], _, rfl⟩
  rcases getFileSize_leads one.sound (by decide) (missing one.held) with ⟨_, size, _⟩
  rcases getFileSize_leads other.sound (by decide) (missing other.held) with ⟨_, sizeOther, _⟩
  have zeros : one.held = fun _ => 0 := rfl
  refine ⟨one, other, rfl, calls, ?_, ?_⟩
  · rw [size, zeros]
    rfl
  · rw [sizeOther, held]
    rfl

end OneFile

end Fat

end WeakOS
