import Mathlib
import WeakOS.Fat.Listing
import WeakOS.Fat.Names

namespace WeakOS

open Foundation

namespace Fat

/-!
# Looking up an existing path

Each step of `traverse_directory` is a search in a listing, with the static
`found_entry` as its result.  When every component of the path is found, the
entry that is returned is the one at which a walk from the root, name by name,
arrives.
-/

/-- A callback that records what it is passed and never stops. -/
def record : Callback (List ParsedDirEntry) := fun pde (driver, calls) =>
  some (false, (driver, calls ++ [pde]))

/-- Search a directory for the component at the front of a path.  There is no
result when the listing or a comparison has none. -/
def Listing.lookup (listing : Listing) (path : List (BitVec 8)) : Option (Option ParsedDirEntry) :=
  (Visit.search (fun pde => namecmp path pde.actualFileName (component path).length)
    listing.passed).bind fun found =>
      if found.isSome ∨ listing.completes then some found else none

/-- Take over what a search has found. -/
def Lookup.take (lookup : Lookup) : Option ParsedDirEntry → Lookup
  | some pde => { lookup with foundEntry := pde }
  | none => lookup

section Enumerate

variable {disk : Disk} {from_ : Option DirEntry} {driver : Driver}

/-- A listing with the callback of lookups is a search. -/
theorem enumerateDirectory_traverse (fits : ClusterFits driver.fat.mBpb) (lookup : Lookup) :
    enumerateDirectory disk from_ traverseFunc (driver, lookup) =
      let cluster := directoryCluster driver.fat.mBpb from_
      ((listing disk driver.fat.mBpb cluster (driver.locals 0)).lookup lookup.mPath).map fun found =>
        (driver.enter disk cluster, lookup.take found) := by
  have selects : ∀ (entered : Driver) (pde : ParsedDirEntry),
      traverseFunc pde (entered, lookup) =
        (namecmp lookup.mPath pde.actualFileName (component lookup.mPath).length).map fun accepted =>
          (accepted, if accepted then (entered, lookup.take (some pde)) else (entered, lookup)) := by
    intro entered pde
    simp only [traverseFunc, Option.bind_eq_bind]
    cases namecmp lookup.mPath pde.actualFileName (component lookup.mPath).length with
    | none => rfl
    | some accepted => cases accepted <;> rfl
  rw [enumerateDirectory_eq fits]
  simp only
  rw [Visit.visit_of_search (fun pde state => (state.1, state.2.take (some pde)))
    (selects (driver.enter disk (directoryCluster driver.fat.mBpb from_)))]
  unfold Listing.lookup
  cases Visit.search _ _ with
  | none => rfl
  | some found =>
      cases found with
      | some pde => rfl
      | none =>
          simp only [Option.bind_some, Listing.finish, Option.isSome_none, Bool.false_eq_true,
            false_or]
          split <;> rfl

/-- Recording appends what is passed. -/
theorem foldl_record (entered : Driver) (calls passed : List ParsedDirEntry) :
    passed.foldl (fun state pde => (state.1, state.2 ++ [pde])) (entered, calls) =
      (entered, calls ++ passed) := by
  induction passed generalizing calls with
  | nil => rw [List.foldl_nil, List.append_nil]
  | cons pde rest inductionHypothesis =>
      rw [List.foldl_cons, inductionHypothesis, List.append_assoc, List.singleton_append]

/-- A listing is recorded when it is complete. -/
theorem enumerateDirectory_record (fits : ClusterFits driver.fat.mBpb)
    (calls : List ParsedDirEntry) : enumerateDirectory disk from_ record (driver, calls) =
      let cluster := directoryCluster driver.fat.mBpb from_
      let listing := listing disk driver.fat.mBpb cluster (driver.locals 0)
      listing.finish (driver.enter disk cluster, calls ++ listing.passed) := by
  have never : ∀ (pde : ParsedDirEntry) (state : Driver × List ParsedDirEntry),
      record pde state = some (false, (state.1, state.2 ++ [pde])) := fun _ _ => rfl
  rw [enumerateDirectory_eq fits]
  simp only
  rw [Visit.visit_of_never (fun state pde => (state.1, state.2 ++ [pde]))
    (fun pde _ state => never pde state), foldl_record]

theorem enumerateDirectory_record_eq_some {after : Driver} {pairs : List ParsedDirEntry} :
    enumerateDirectory disk from_ record (driver, []) = some (after, pairs) ↔
      ClusterFits driver.fat.mBpb ∧
        let cluster := directoryCluster driver.fat.mBpb from_
        let listing := listing disk driver.fat.mBpb cluster (driver.locals 0)
        listing.completes = true ∧ listing.passed = pairs ∧ driver.enter disk cluster = after := by
  by_cases fits : ClusterFits driver.fat.mBpb
  · rw [enumerateDirectory_record fits]
    simp only [Listing.finish, List.nil_append, Option.ite_none_right_eq_some, Option.some.injEq,
      Prod.mk.injEq, fits, true_and]
    exact and_congr_right (fun _ => And.comm)
  · rw [enumerateDirectory_of_not_fits fits]
    exact iff_of_false (Option.some_ne_none _).symm (fun both => fits both.1)

end Enumerate

/-! ## Existing paths -/

/-- The path of components, with slashes between them. -/
def pathOf (components : List (List (BitVec 8))) : List (BitVec 8) :=
  [chr '/'].intercalate components

/-- Walk from a directory, component by component: each is looked up in the
pairs that are passed to a callback which records them, by its name's text. -/
def resolve (disk : Disk) : (components : List (List (BitVec 8))) → (from_ : Option DirEntry) →
    Driver → Option ParsedDirEntry
  | [], _, _ => none
  | component :: rest, from_, driver =>
      (enumerateDirectory disk from_ record (driver, [])).bind fun recorded =>
        (recorded.2.find? fun pde => pde.actualFileName.text = widen component).bind fun pde =>
          if rest.isEmpty then some pde else resolve disk rest (some pde.dirent) recorded.1

section Resolve

variable {disk : Disk}

/-- One step of a walk that succeeds is one listing of `traverse_directory`. -/
theorem enumerateDirectory_found {chars rest : List (BitVec 8)} {from_ : Option DirEntry}
    {driver after : Driver} {pairs : List ParsedDirEntry} {pde : ParsedDirEntry} (lookup : Lookup)
    (valid : IsComponent chars) (ends : rest.headD 0 = 0 ∨ rest.headD 0 = chr '/')
    (path : lookup.mPath = chars ++ rest)
    (recorded : enumerateDirectory disk from_ record (driver, []) = some (after, pairs))
    (found : pairs.find? (fun pde => pde.actualFileName.text = widen chars) = some pde) :
    enumerateDirectory disk from_ traverseFunc (driver, lookup) =
      some (after, { lookup with foundEntry := pde }) := by
  rcases enumerateDirectory_record_eq_some.mp recorded with ⟨fits, _, rfl, rfl⟩
  have compares : ∀ pde : ParsedDirEntry,
      namecmp lookup.mPath pde.actualFileName (component lookup.mPath).length =
        some (decide (pde.actualFileName.text = widen chars)) := by
    intro pde
    rw [path, (component_append valid ends).1]
    exact namecmp_component valid rest
  rw [enumerateDirectory_traverse fits]
  simp only [Listing.lookup, Visit.search_of_total (fun pde _ => compares pde), found]
  rfl

/-- The entry that a walk arrives at is the one that `traverse_directory`
returns, whatever the static members held before. -/
theorem traverseDirectory_resolve {components : List (List (BitVec 8))}
    (valid : ∀ chars ∈ components, IsComponent chars) {from_ : Option DirEntry} {driver : Driver}
    {pde : ParsedDirEntry} (resolved : resolve disk components from_ driver = some pde)
    (lookup : Lookup) :
    ∃ after, traverseDirectory disk (pathOf components) from_ (driver, lookup) = some (pde, after) := by
  induction components generalizing from_ driver lookup with
  | nil => cases resolved
  | cons chars rest inductionHypothesis =>
      have validHead := valid chars List.mem_cons_self
      simp only [resolve, Option.bind_eq_some_iff] at resolved
      rcases resolved with ⟨⟨after, pairs⟩, recorded, found, first, last⟩
      cases rest with
      | nil =>
          have path : pathOf [chars] = chars ++ [] := by
            rw [pathOf, List.intercalate_singleton, List.append_nil]
          rw [traverseDirectory, enumerateDirectory_found { lookup with mPath := pathOf [chars] }
            validHead (Or.inl rfl) path recorded first]
          simp only
          rw [path, (component_append validHead (Or.inl rfl)).2, if_neg (by simp)]
          exact ⟨_, congrArg some (congrArg (·, _) (Option.some.inj last))⟩
      | cons next rest =>
          have path : pathOf (chars :: next :: rest) = chars ++ chr '/' :: pathOf (next :: rest) := by
            rw [pathOf, List.intercalate_cons_cons, List.append_assoc, List.singleton_append]
            rfl
          have slash : (chr '/' :: pathOf (next :: rest)).headD 0 = 0 ∨
              (chr '/' :: pathOf (next :: rest)).headD 0 = chr '/' := Or.inr rfl
          rcases inductionHypothesis (fun chars member => valid chars (List.mem_cons_of_mem _ member))
            last { mPath := pathOf (chars :: next :: rest), foundEntry := found } with ⟨final, result⟩
          refine ⟨final, ?_⟩
          rw [traverseDirectory, enumerateDirectory_found
            { lookup with mPath := pathOf (chars :: next :: rest) } validHead slash path recorded first]
          simp only
          rw [path, (component_append validHead slash).2, List.headD_cons, List.tail_cons,
            if_pos (by decide : chr '/' ≠ 0), ← path]
          exact result

/-- A volume with clusters of one sector, whose root has a directory `D` in
cluster 3, in which there is a file `F` of seven bytes. -/
def nestedFile : Disk := fun sector offset =>
  if sector = 4096 then
    if offset = 44 then 2
    else if offset = 13 ∨ offset = 14 ∨ offset = 16 ∨ offset = 36 then 1 else 0
  else if sector = 4098 then
    if offset = 0 then chr 'D' else if offset < 11 then chr ' '
    else if offset = 11 then 0x10 else if offset = 26 then 3 else 0
  else if sector = 4099 then
    if offset = 0 then chr 'F' else if offset < 11 then chr ' '
    else if offset = 26 then 5 else if offset = 28 then 7 else 0
  else 0

theorem traverseDirectory_resolve_nestedFile :
    let driver : Driver := ⟨new nestedFile (fun _ => 0), fun _ => ⟨fun _ => 0, fun _ _ => 0⟩⟩
    let lookup : Lookup := ⟨textOf "G", ⟨fun _ => 1, fun _ => 1⟩⟩
    ∃ pde after, pde.dirent.fileSize = 7 ∧
      traverseDirectory nestedFile (textOf "D./F.") none (driver, lookup) = some (pde, after) := by
  intro driver lookup
  let components := [textOf "D.", textOf "F."]
  have valid : ∀ chars ∈ components, IsComponent chars := by
    intro chars member
    rcases List.mem_pair.mp member with rfl | rfl
    · exact ⟨by decide, by decide, by decide, by decide⟩
    · exact ⟨by decide, by decide, by decide, by decide⟩
  have size : (resolve nestedFile components none driver).map (fun pde => pde.dirent.fileSize) =
      some 7 := by
    decide +kernel
  rcases Option.map_eq_some_iff.mp size with ⟨pde, resolved, seven⟩
  rcases traverseDirectory_resolve valid resolved lookup with ⟨after, result⟩
  exact ⟨pde, after, seven, result⟩

end Resolve

end Fat

end WeakOS
