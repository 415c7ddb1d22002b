import Mathlib
import WeakOS.Fat.ReadFile
import WeakOS.Fat.History
import WeakOS.Fat.Pieces

namespace WeakOS

open Foundation

namespace Fat

/-!
# What is listed of a directory

A directory is the entries of all clusters in its chain, up to the end marker.
`enumerate_directory` lists those of the first cluster; unlike `read_file` it
never asks for the next one.
-/

/-- The live entries in front of the end marker. -/
def liveEntries (entries : List DirEntry) : List DirEntry :=
  (entries.takeWhile fun entry => ¬ entry.IsEnd).filter fun entry => entry.IsLive

/-- A long-name record is deleted, or its piece has a place in the name buffer. -/
def DirEntry.OrderFits (entry : DirEntry) : Prop :=
  entry.attributes = 0x0f → entry.order ≠ 0xe5 → 0 ≤ pieceOfs entry ∧ pieceOfs entry ≤ 18

instance (entry : DirEntry) : Decidable entry.OrderFits :=
  inferInstanceAs (Decidable (_ → _ → _))

section Parse

variable {locals : Locals} {i : Nat} {nameBuf : Name} {hasLfn : Bool} {entries : List DirEntry}

theorem liveEntries_cons_of_end {entry : DirEntry} (ends : entry.IsEnd) (rest : List DirEntry) :
    liveEntries (entry :: rest) = [] := by
  rw [liveEntries, List.takeWhile_cons_of_neg (by simpa using ends), List.filter_nil]

theorem liveEntries_cons {entry : DirEntry} (notEnd : ¬ entry.IsEnd) (rest : List DirEntry) :
    liveEntries (entry :: rest) =
      if entry.IsLive then entry :: liveEntries rest else liveEntries rest := by
  rw [liveEntries, List.takeWhile_cons_of_pos (by simpa using notEnd), List.filter_cons]
  simp only [decide_eq_true_eq]
  rfl

/-- Behind entries without an end marker the listing goes on. -/
theorem liveEntries_append (entries rest : List DirEntry) : liveEntries (entries ++ rest) =
    liveEntries entries ++ if ∃ entry ∈ entries, entry.IsEnd then [] else liveEntries rest := by
  induction entries with
  | nil =>
      rw [if_neg (fun ⟨_, nowhere, _⟩ => List.not_mem_nil nowhere)]
      rfl
  | cons entry entries inductionHypothesis =>
      rw [List.cons_append]
      by_cases ends : entry.IsEnd
      · rw [liveEntries_cons_of_end ends, liveEntries_cons_of_end ends,
          if_pos ⟨entry, List.mem_cons_self, ends⟩, List.append_nil]
      · have later : (∃ other ∈ entry :: entries, other.IsEnd) ↔ ∃ other ∈ entries, other.IsEnd := by
          simp only [List.mem_cons, exists_eq_or_imp, ends, false_or]
        rw [liveEntries_cons ends, liveEntries_cons ends, inductionHypothesis, if_congr later rfl rfl]
        split
        · rw [List.cons_append]
        · rfl

/-- Parsing is complete when every record in front of the end marker fits. -/
theorem parse_completes_iff : (parse locals i nameBuf hasLfn entries).completes = true ↔
    ∀ entry ∈ entries.takeWhile fun entry => ¬ entry.IsEnd, entry.OrderFits := by
  induction entries generalizing i nameBuf hasLfn with
  | nil => exact iff_of_true rfl (fun _ none => absurd none List.not_mem_nil)
  | cons entry rest inductionHypothesis =>
      rw [parse]
      by_cases ends : entry.IsEnd
      · rw [if_neg ends.1, if_pos ends, List.takeWhile_cons_of_neg (by simpa using ends)]
        exact iff_of_true rfl (fun _ none => absurd none List.not_mem_nil)
      rw [List.takeWhile_cons_of_pos (by simpa using ends), List.forall_mem_cons]
      by_cases record : entry.attributes = 0x0f
      · rw [if_pos record]
        by_cases deleted : entry.order = 0xe5
        · rw [if_pos deleted, inductionHypothesis]
          exact (and_iff_right (fun _ kept => absurd deleted kept)).symm
        · rw [if_neg deleted, copyPiece_eq]
          by_cases fits : 0 ≤ pieceOfs entry ∧ pieceOfs entry ≤ 18
          · rw [if_pos fits]
            simp only [inductionHypothesis]
            exact (and_iff_right (fun _ _ => fits)).symm
          · rw [if_neg fits]
            exact iff_of_false Bool.false_ne_true (fun both => fits (both.1 record deleted))
      · have fits : entry.OrderFits := fun isRecord => absurd isRecord record
        rw [if_neg record, if_neg ends]
        split
        · exact inductionHypothesis.trans (and_iff_right fits).symm
        · exact inductionHypothesis.trans (and_iff_right fits).symm

/-- What is passed on are the live entries. -/
theorem parse_dirents (completes : (parse locals i nameBuf hasLfn entries).completes = true) :
    (parse locals i nameBuf hasLfn entries).passed.map ParsedDirEntry.dirent =
      liveEntries entries := by
  induction entries generalizing i nameBuf hasLfn with
  | nil => rfl
  | cons entry rest inductionHypothesis =>
      rw [parse] at completes ⊢
      by_cases record : entry.attributes = 0x0f
      · have skipped : liveEntries (entry :: rest) = liveEntries rest := by
          rw [liveEntries_cons (fun ends => ends.1 record), if_neg (fun live => live.1 record)]
        rw [if_pos record] at completes ⊢
        rw [skipped]
        split
        · rename_i deleted
          rw [if_pos deleted] at completes
          exact inductionHypothesis completes
        · rename_i kept
          rw [if_neg kept] at completes
          cases copied : copyPiece nameBuf entry with
          | none =>
              rw [copied] at completes
              cases completes
          | some nameBuf =>
              rw [copied] at completes
              exact inductionHypothesis completes
      rw [if_neg record] at completes ⊢
      by_cases ends : entry.IsEnd
      · rw [if_pos ends, liveEntries_cons_of_end ends]
        rfl
      rw [if_neg ends] at completes ⊢
      rw [liveEntries_cons ends]
      by_cases live : entry.IsLive
      · rw [if_pos live] at completes ⊢
        rw [if_pos live]
        exact congrArg (entry :: ·) (inductionHypothesis completes)
      · rw [if_neg live] at completes ⊢
        rw [if_neg live]
        exact inductionHypothesis completes

end Parse

/-! ## Calls of the callback -/

section Calls

variable {State : Type} {disk : Disk} {from_ : Option DirEntry} {driver : Driver}

/-- When all records fit, the listing visits what is passed on and returns. -/
theorem enumerateDirectory_of_fits (fits : ClusterFits driver.fat.mBpb)
    (orders : ∀ entry ∈ (clusterEntries disk driver.fat.mBpb
      (directoryCluster driver.fat.mBpb from_)).takeWhile fun entry => ¬ entry.IsEnd, entry.OrderFits)
    (func : Callback State) (state : State) : enumerateDirectory disk from_ func (driver, state) =
      let cluster := directoryCluster driver.fat.mBpb from_
      Visit.visit func some (listing disk driver.fat.mBpb cluster (driver.locals 0)).passed
        (driver.enter disk cluster, state) := by
  have completes : (listing disk driver.fat.mBpb (directoryCluster driver.fat.mBpb from_)
    (driver.locals 0)).completes = true := parse_completes_iff.mpr orders
  have finishes : ((listing disk driver.fat.mBpb (directoryCluster driver.fat.mBpb from_)
      (driver.locals 0)).finish : Driver × State → Option (Driver × State)) = some :=
    funext fun _ => if_pos completes
  rw [enumerateDirectory_eq fits]
  simp only [finishes]

/-- A callback together with the log of its calls. -/
def logging (func : Callback State) : Callback (State × List ParsedDirEntry) :=
  fun pde (driver, (state, calls)) =>
    (func pde (driver, state)).map fun (stop, (driver, state)) =>
      (stop, (driver, (state, calls ++ [pde])))

/-- A callback that always returns, and returns false. -/
def AlwaysFalse (func : Callback State) : Prop :=
  ∀ pde state, ∃ next, func pde state = some (false, next)

/-- A visit by such a callback calls it for every item. -/
theorem visit_logging {func : Callback State} (always : AlwaysFalse func) (passed : Listing)
    (driver : Driver) (state : State) (calls : List ParsedDirEntry) :
    ∃ driver' state', Visit.visit (logging func) passed.finish passed.passed
        (driver, (state, calls)) = passed.finish (driver', (state', calls ++ passed.passed)) := by
  rcases passed with ⟨items, completes⟩
  induction items generalizing driver state calls with
  | nil => exact ⟨driver, state, by rw [List.append_nil]; rfl⟩
  | cons pde items inductionHypothesis =>
      rcases always pde (driver, state) with ⟨⟨driver', state'⟩, called⟩
      rcases inductionHypothesis driver' state' (calls ++ [pde]) with ⟨last, lastState, later⟩
      refine ⟨last, lastState, ?_⟩
      rw [List.append_assoc, List.singleton_append] at later
      simp only [Visit.visit, logging, called, Option.map_some, Option.bind_some,
        Bool.false_eq_true, if_false]
      exact later

/-- Each of the entries is passed to the callback, in order, and nothing else is. -/
def Lists (entries : List DirEntry)
    (outcome : Option (Driver × (State × List ParsedDirEntry))) : Prop :=
  ∃ driver state calls, outcome = some (driver, (state, calls)) ∧
    calls.map ParsedDirEntry.dirent = entries

theorem not_lists_none (entries : List DirEntry) :
    ¬ Lists entries (none : Option (Driver × (State × List ParsedDirEntry))) := by
  rintro ⟨_, _, _, nothing, _⟩
  cases nothing

/-- What is listed is the first cluster. -/
theorem lists_iff {func : Callback State} (always : AlwaysFalse func) (state : State)
    (entries : List DirEntry) :
    Lists entries (enumerateDirectory disk from_ (logging func) (driver, (state, []))) ↔
      ClusterFits driver.fat.mBpb ∧
        let found := clusterEntries disk driver.fat.mBpb (directoryCluster driver.fat.mBpb from_)
        (∀ entry ∈ found.takeWhile fun entry => ¬ entry.IsEnd, entry.OrderFits) ∧
          liveEntries found = entries := by
  by_cases fits : ClusterFits driver.fat.mBpb
  · rw [enumerateDirectory_eq fits, and_iff_right fits]
    simp only
    generalize passed : listing disk driver.fat.mBpb (directoryCluster driver.fat.mBpb from_)
      (driver.locals 0) = parsed
    rcases visit_logging always parsed (driver.enter disk _) state [] with ⟨last, lastState, visited⟩
    rw [visited, List.nil_append, ← @parse_completes_iff (driver.locals 0) 0
      (driver.locals 0).nameBuf false, ← listing, passed]
    cases completes : parsed.completes with
    | false =>
        simp only [Listing.finish, completes, Bool.false_eq_true, if_false, false_and, iff_false]
        exact not_lists_none entries
    | true =>
        have dirents : parsed.passed.map ParsedDirEntry.dirent = liveEntries (clusterEntries disk
            driver.fat.mBpb (directoryCluster driver.fat.mBpb from_)) := by
          rw [← passed] at completes ⊢
          exact parse_dirents completes
        simp only [Lists, Listing.finish, completes, if_true, true_and, ← dirents]
        constructor
        · rintro ⟨_, _, calls, same, rfl⟩
          cases same
          rfl
        · intro same
          exact ⟨_, _, _, rfl, same⟩
  · rw [enumerateDirectory_of_not_fits fits]
    exact iff_of_false (not_lists_none entries) (fun both => fits both.1)

end Calls

/-! ## Directories of several clusters -/

/-- A chain of clusters, from its first one to the end-of-chain mark. -/
structure ClusterChain (disk : Disk) (bpb : Bpb) where
  first : BitVec 32
  rest : List (BitVec 32)
  linked : Linked disk bpb (first :: rest)
  ended : 0x0FFFFFF8 ≤ fatEntry disk bpb ((first :: rest).getLast (List.cons_ne_nil first rest))

/-- The entries of all clusters. -/
def ClusterChain.entries {disk : Disk} {bpb : Bpb} (chain : ClusterChain disk bpb) :
    List DirEntry :=
  (chain.first :: chain.rest).flatMap (clusterEntries disk bpb)

/-- A directory is listed in full exactly when the long-name records of its
first cluster fit the name buffer, and nothing live lies behind that cluster. -/
theorem enumerateDirectory_lists_iff {State : Type} {disk : Disk} {from_ : Option DirEntry}
    {driver : Driver} (chain : ClusterChain disk driver.fat.mBpb)
    (stored : directoryCluster driver.fat.mBpb from_ = chain.first) {func : Callback State}
    (always : AlwaysFalse func) (state : State) :
    Lists (liveEntries chain.entries)
        (enumerateDirectory disk from_ (logging func) (driver, (state, []))) ↔
      ClusterFits driver.fat.mBpb ∧
        let found := clusterEntries disk driver.fat.mBpb chain.first
        (∀ entry ∈ found.takeWhile fun entry => ¬ entry.IsEnd, entry.OrderFits) ∧
          ((∃ entry ∈ found, entry.IsEnd) ∨
            liveEntries (chain.rest.flatMap (clusterEntries disk driver.fat.mBpb)) = []) := by
  rw [lists_iff always, stored]
  refine and_congr_right (fun _ => and_congr_right (fun _ => ?_))
  rw [ClusterChain.entries, List.flatMap_cons, liveEntries_append]
  by_cases ends : ∃ entry ∈ clusterEntries disk driver.fat.mBpb chain.first, entry.IsEnd
  · rw [if_pos ends, List.append_nil]
    exact iff_of_true rfl (Or.inl ends)
  · rw [if_neg ends, List.self_eq_append_right, or_iff_right ends]

/-- A volume whose root has the clusters 2 and 3.  The first has room for
sixteen entries, of which some are used, and there is one in the second. -/
def directoryOf (used : Nat) : Disk := fun sector offset =>
  if sector = 4096 then
    if offset = 44 then 2
    else if offset = 13 ∨ offset = 14 ∨ offset = 16 ∨ offset = 36 then 1 else 0
  else if sector = 4097 then
    if offset = 8 then 3 else if 12 ≤ offset ∧ offset < 15 then 0xff
    else if offset = 15 then 0x0f else 0
  else if sector = 4098 then
    if offset % 32 = 0 ∧ offset < 32 * used then chr 'F' else 0
  else if sector = 4099 then
    if offset = 0 then chr 'G' else 0
  else 0

theorem geometry_directoryOf (used : Nat) : geometry (directoryOf used) = ⟨1, 1, 1, 1, 2⟩ := by
  simp [geometry, new, Bpb.parse, Ata.readSectors, wordAt, directoryOf]

theorem fatEntry_directoryOf (used : Nat) :
    fatEntry (directoryOf used) ⟨1, 1, 1, 1, 2⟩ 2 = 3 ∧
      fatEntry (directoryOf used) ⟨1, 1, 1, 1, 2⟩ 3 = 0x0FFFFFFF := by
  constructor <;> simp [fatEntry, wordAt, directoryOf]

def rootChain (used : Nat) : ClusterChain (directoryOf used) (geometry (directoryOf used)) where
  first := 2
  rest := [3]
  linked := by
    rw [geometry_directoryOf]
    exact List.isChain_pair.mpr (fatEntry_directoryOf used).1
  ended := by
    rw [geometry_directoryOf]
    show _ ≤ fatEntry (directoryOf used) ⟨1, 1, 1, 1, 2⟩ 3
    rw [(fatEntry_directoryOf used).2]
    decide

def rootDriver (used : Nat) : Driver :=
  ⟨new (directoryOf used) fun _ => 0, fun _ => ⟨fun _ => 0, fun _ _ => 0⟩⟩

/-- The callback that does nothing. -/
def ignore : Callback Unit := fun _ state => some (false, state)

theorem alwaysFalse_ignore : AlwaysFalse ignore := fun _ state => ⟨state, rfl⟩

theorem rootChain_entries (used : Nat) : (rootChain used).entries =
    [2, 3].flatMap (clusterEntries (directoryOf used) ⟨1, 1, 1, 1, 2⟩) :=
  congrArg (fun bpb => [2, 3].flatMap (clusterEntries (directoryOf used) bpb))
    (geometry_directoryOf used)

theorem enumerateDirectory_lists_fifteen : Lists (liveEntries (rootChain 15).entries)
    (enumerateDirectory (directoryOf 15) none (logging ignore) (rootDriver 15, ((), []))) := by
  have root : directoryCluster (geometry (directoryOf 15)) none = 2 := by
    rw [geometry_directoryOf]
    rfl
  refine (@enumerateDirectory_lists_iff Unit (directoryOf 15) none (rootDriver 15) (rootChain 15)
    root ignore alwaysFalse_ignore ()).mpr ?_
  show ClusterFits (geometry (directoryOf 15)) ∧
    let found := clusterEntries (directoryOf 15) (geometry (directoryOf 15)) 2
    (∀ entry ∈ found.takeWhile fun entry => ¬ entry.IsEnd, entry.OrderFits) ∧
      ((∃ entry ∈ found, entry.IsEnd) ∨ _)
  rw [geometry_directoryOf]
  have fits : ((clusterEntries (directoryOf 15) ⟨1, 1, 1, 1, 2⟩ 2).takeWhile fun entry =>
      ¬ entry.IsEnd).all (fun entry => entry.OrderFits) = true := by
    decide +kernel
  have ends : (clusterEntries (directoryOf 15) ⟨1, 1, 1, 1, 2⟩ 2).any (fun entry => entry.IsEnd) =
      true := by
    decide +kernel
  simp only [List.all_eq_true, List.any_eq_true, decide_eq_true_eq] at fits ends
  exact ⟨by decide, fits, Or.inl ends⟩

/-- A full first cluster hides the second. -/
theorem enumerateDirectory_sixteen : ¬ Lists (liveEntries (rootChain 16).entries)
    (enumerateDirectory (directoryOf 16) none (logging ignore) (rootDriver 16, ((), []))) := by
  intro lists
  rw [rootChain_entries] at lists
  have all := (@lists_iff Unit (directoryOf 16) none (rootDriver 16) ignore alwaysFalse_ignore ()
    (liveEntries ([2, 3].flatMap (clusterEntries (directoryOf 16) ⟨1, 1, 1, 1, 2⟩)))).mp lists
  have listed := all.2.2
  have first : (liveEntries (clusterEntries (directoryOf 16) ⟨1, 1, 1, 1, 2⟩ 2)).length = 16 := by
    decide +kernel
  have both : (liveEntries ([2, 3].flatMap (clusterEntries (directoryOf 16)
      ⟨1, 1, 1, 1, 2⟩))).length = 17 := by
    decide +kernel
  have bpb : (rootDriver 16).fat.mBpb = ⟨1, 1, 1, 1, 2⟩ := geometry_directoryOf 16
  have root : directoryCluster ⟨1, 1, 1, 1, 2⟩ none = 2 := rfl
  rw [bpb, root] at listed
  rw [listed, both] at first
  exact absurd first (by decide)

end Fat

end WeakOS
