import Mathlib
import WeakOS.Foundation.Forest
import WeakOS.Stdio.Format
import WeakOS.Fat.Enumeration

namespace WeakOS

open Foundation Fat Stdio

namespace Syscall

/-!
# The directory listing

`syscall_dirent` lists the root directory, and its callback lists each directory
that it meets, in the middle of the outer listing.
-/

/-! ## The call -/

/-- The static `offs` and the characters that have been handed to `putchar`. -/
structure Terminal where
  offs : Int
  output : List (BitVec 8)

/-- A name as a string; there is none when the buffer has no terminator. -/
def string (name : Name) : Option (CString 16) :=
  if 0 ∈ name.units then some ⟨name.text, fun zero => by simpa using List.mem_takeWhile_imp zero⟩
  else none

def entryFormat : CString 8 := ⟨textOf "entry %s\n", by decide⟩

def headerFormat : CString 8 := ⟨textOf "directory tree: \n", by decide⟩

/-- `dirent_func`.  There is no result when more than `fuel` calls are nested. -/
def direntFunc (disk : Disk) : (fuel : Nat) → Callback Terminal
  | 0 => fun _ _ => none
  | fuel + 1 => fun ent (driver, terminal) => do
      let indented := terminal.output ++ List.replicate (terminal.offs * 2).toNat (chr ' ')
      let name ← string ent.actualFileName
      let printed ← printf entryFormat [.uint16Ptr name]
      let terminal := { terminal with output := indented ++ printed.emitted }
      if ent.dirent.attributes &&& 0x10 ≠ 0 then
        let terminal := { terminal with offs := terminal.offs + 1 }
        let (driver, terminal) ←
          enumerateDirectory disk (some ent.dirent) (direntFunc disk fuel) (driver, terminal)
        some (false, (driver, { terminal with offs := terminal.offs - 1 }))
      else some (false, (driver, terminal))

def syscallDirent (disk : Disk) (fuel : Nat) (state : Driver × Terminal) :
    Option (BitVec 32 × (Driver × Terminal)) := do
  let (driver, terminal) := state
  let printed ← printf headerFormat []
  let terminal := { terminal with output := terminal.output ++ printed.emitted }
  let state ← enumerateDirectory disk none (direntFunc disk fuel) (driver, terminal)
  some (0, state)

/-! ## Trees of directories -/

/-- A directory is one cluster, its live entries are the roots of a forest, and
its long-name records fit the name buffer. -/
structure Holds (disk : Disk) (bpb : Bpb) (cluster : BitVec 32) (forest : Forest DirEntry) : Prop where
  alone : 0x0FFFFFF8 ≤ fatEntry disk bpb cluster
  live : liveEntries (clusterEntries disk bpb cluster) = forest.roots
  fits : ∀ entry ∈ (clusterEntries disk bpb cluster).takeWhile fun entry => ¬ entry.IsEnd,
    entry.OrderFits

/-- Directories are nodes, and their clusters hold what is below them. -/
def Stored (disk : Disk) (bpb : Bpb) : Forest DirEntry → Prop
  | .nil => True
  | .leaf entry rest => entry.attributes &&& 0x10 = 0 ∧ Stored disk bpb rest
  | .node entry children rest =>
      entry.attributes &&& 0x10 ≠ 0 ∧ Holds disk bpb entry.cluster children ∧
        Stored disk bpb children ∧ Stored disk bpb rest

/-- The supply of locals behind some calls. -/
def behind (locals : Nat → Locals) (count : Nat) : Nat → Locals := fun call => locals (call + count)

/-- The parsed entries of a forest, whose roots are parsed already.  The listing
of a directory takes its locals from the supply. -/
def parsedForest (disk : Disk) (bpb : Bpb) : Forest DirEntry → List ParsedDirEntry →
    (locals : Nat → Locals) → Forest ParsedDirEntry
  | .leaf _ rest, pde :: pdes, locals => .leaf pde (parsedForest disk bpb rest pdes locals)
  | .node entry children rest, pde :: pdes, locals =>
      let passed := (listing disk bpb entry.cluster (locals 0)).passed
      .node pde (parsedForest disk bpb children passed (behind locals 1))
        (parsedForest disk bpb rest pdes (behind locals (1 + children.nodes)))
  | _, _, _ => .nil

/-- The parsed entries of the tree below the root directory. -/
def parsedTree (disk : Disk) (driver : Driver) (tree : Forest DirEntry) : Forest ParsedDirEntry :=
  parsedForest disk driver.fat.mBpb tree
    (listing disk driver.fat.mBpb driver.fat.mBpb.rootCluster (driver.locals 0)).passed
    (behind driver.locals 1)

/-- The line for an entry. -/
def line (offs : Int) (pde : ParsedDirEntry) : List (BitVec 8) :=
  List.replicate (offs * 2).toNat (chr ' ') ++ textOf "entry " ++
    pde.actualFileName.text.map (fun unit => unit.setWidth 8) ++ [newline]

/-! ## One call -/

section Call

variable {disk : Disk} {driver : Driver} {terminal : Terminal} {pde : ParsedDirEntry} {fuel : Nat}

theorem printf_entryFormat (name : CString 16) : printf entryFormat [.uint16Ptr name] =
    some ⟨textOf "entry " ++ name.units.map (fun unit => unit.setWidth 8) ++ [newline],
      [.uint16Ptr name]⟩ := by
  have built : entryFormat.units =
      ((textOf "entry ").map Piece.literal ++ [Piece.conversion (chr 's'), Piece.literal newline]).flatMap
        Piece.text := by
    decide
  exact printf_of_expand built rfl

theorem printf_headerFormat : printf headerFormat [] = some ⟨textOf "directory tree: \n", []⟩ := by
  have built : headerFormat.units =
      ((textOf "directory tree: \n").map Piece.literal).flatMap Piece.text := by
    decide
  exact printf_of_expand built rfl

/-- What a call does when the name has a terminator. -/
theorem direntFunc_succ (terminated : 0 ∈ pde.actualFileName.units) :
    direntFunc disk (fuel + 1) pde (driver, terminal) =
      let printed := { terminal with output := terminal.output ++ line terminal.offs pde }
      if pde.dirent.attributes &&& 0x10 ≠ 0 then
        (enumerateDirectory disk (some pde.dirent) (direntFunc disk fuel)
          (driver, { printed with offs := terminal.offs + 1 })).map fun (driver, terminal) =>
            (false, (driver, { terminal with offs := terminal.offs - 1 }))
      else some (false, (driver, printed)) := by
  simp only [direntFunc, string, if_pos terminated, printf_entryFormat, Option.bind_eq_bind,
    Option.bind_some, line, List.append_assoc]
  split
  · cases enumerateDirectory disk _ _ _ with
    | none => rfl
    | some state => rfl
  · rfl

theorem direntFunc_file (terminated : 0 ∈ pde.actualFileName.units)
    (isFile : pde.dirent.attributes &&& 0x10 = 0) : direntFunc disk (fuel + 1) pde (driver, terminal) =
      some (false, (driver, ⟨terminal.offs, terminal.output ++ line terminal.offs pde⟩)) := by
  rw [direntFunc_succ terminated]
  exact if_neg (not_not.mpr isFile)

/-- Behind a nested listing, `offs` is what it was. -/
theorem direntFunc_directory {children : Forest DirEntry} {entered : Driver}
    {output text : List (BitVec 8)} {offs : Int} (fits : ClusterFits driver.fat.mBpb)
    (holds : Holds disk driver.fat.mBpb pde.dirent.cluster children)
    (terminated : 0 ∈ pde.actualFileName.units) (isDirectory : pde.dirent.attributes &&& 0x10 ≠ 0)
    (visited : Visit.visit (direntFunc disk fuel) some
      (listing disk driver.fat.mBpb pde.dirent.cluster (driver.locals 0)).passed
      (driver.enter disk pde.dirent.cluster, ⟨offs + 1, output ++ line offs pde⟩) =
        some (entered, ⟨offs + 1, text⟩)) :
    direntFunc disk (fuel + 1) pde (driver, ⟨offs, output⟩) =
      some (false, (entered, ⟨offs, text⟩)) := by
  have listed : enumerateDirectory disk (some pde.dirent) (direntFunc disk fuel)
      (driver, ⟨offs + 1, output ++ line offs pde⟩) = some (entered, ⟨offs + 1, text⟩) :=
    (@enumerateDirectory_of_fits Terminal disk (some pde.dirent) driver fits holds.fits
      (direntFunc disk fuel) _).trans visited
  rw [direntFunc_succ terminated]
  simp only [if_pos isDirectory, listed, Option.map_some, add_sub_cancel_right]

end Call

/-! ## The whole walk -/

section Walk

variable {disk : Disk} {bpb : Bpb} {forest : Forest DirEntry} {pdes : List ParsedDirEntry}

theorem behind_behind (locals : Nat → Locals) (first count : Nat) :
    behind (behind locals first) count = behind locals (first + count) := by
  funext call
  exact congrArg locals (by omega)

/-- Parsing names the entries, and does not change the forest. -/
theorem map_parsedForest (stored : Stored disk bpb forest) (locals : Nat → Locals)
    (roots : pdes.map ParsedDirEntry.dirent = forest.roots) :
    (parsedForest disk bpb forest pdes locals).map ParsedDirEntry.dirent = forest := by
  induction forest generalizing pdes locals with
  | nil =>
      cases pdes with
      | nil => rfl
      | cons pde pdes => cases roots
  | leaf entry rest restHypothesis =>
      cases pdes with
      | nil => cases roots
      | cons pde pdes =>
          rcases List.cons.inj roots with ⟨rfl, others⟩
          exact congrArg (Forest.leaf pde.dirent) (restHypothesis stored.2 locals others)
  | node entry children rest childrenHypothesis restHypothesis =>
      cases pdes with
      | nil => cases roots
      | cons pde pdes =>
          rcases List.cons.inj roots with ⟨rfl, others⟩
          rcases stored with ⟨_, holds, below, beside⟩
          have completes : (listing disk bpb pde.dirent.cluster (locals 0)).completes = true :=
            parse_completes_iff.mpr holds.fits
          have inner := childrenHypothesis below (behind locals 1)
            ((parse_dirents completes).trans holds.live)
          have outer := restHypothesis beside (behind locals (1 + children.nodes)) others
          simp only [parsedForest, Forest.map]
          rw [outer]
          exact congrArg (Forest.node pde.dirent · rest) inner

/-- The lines for a forest, from a base of the indentation. -/
def lines (offs : Int) (reports : List (Nat × ParsedDirEntry)) : List (BitVec 8) :=
  reports.flatMap fun report => line (offs + report.1) report.2

/-- The walk is an induction on the forest: the entries of a listing are a copy,
so that it goes on where it was when a listing below it has returned. -/
theorem visit_direntFunc (fits : ClusterFits bpb) (stored : Stored disk bpb forest)
    (roots : pdes.map ParsedDirEntry.dirent = forest.roots) {fuel depth : Nat}
    (fueled : forest.height ≤ fuel) (driver : Driver) (geometry : driver.fat.mBpb = bpb)
    (terminated : ∀ report ∈ (parsedForest disk bpb forest pdes driver.locals).preorder depth,
      0 ∈ report.2.actualFileName.units) (offs : Int) (output : List (BitVec 8)) :
    ∃ after : Driver, Visit.visit (direntFunc disk fuel) some pdes (driver, ⟨offs + depth, output⟩) =
        some (after, ⟨offs + depth, output ++
          lines offs ((parsedForest disk bpb forest pdes driver.locals).preorder depth)⟩) ∧
      after.fat.mBpb = bpb ∧ after.locals = behind driver.locals forest.nodes := by
  induction forest generalizing pdes fuel depth driver output with
  | nil =>
      cases pdes with
      | nil =>
          refine ⟨driver, ?_, geometry, rfl⟩
          show some _ = some (driver, Terminal.mk _ (output ++ []))
          rw [List.append_nil]
      | cons pde pdes => cases roots
  | leaf entry rest restHypothesis =>
      cases pdes with
      | nil => cases roots
      | cons pde pdes =>
          rcases List.cons.inj roots with ⟨rfl, others⟩
          obtain ⟨fuel, rfl⟩ := Nat.exists_eq_add_of_le' (Nat.le_trans (Nat.le_max_left 1 _) fueled)
          have named := List.forall_mem_cons.mp terminated
          rcases restHypothesis stored.2 others (Nat.le_trans (Nat.le_max_right 1 _) fueled) driver
            geometry named.2 (output ++ line (offs + depth) pde) with ⟨after, visited, later⟩
          refine ⟨after, ?_, later⟩
          rw [Visit.visit, direntFunc_file named.1 stored.1, Option.bind_some,
            if_neg Bool.false_ne_true, visited]
          simp only [parsedForest, Forest.preorder, lines, List.flatMap_cons, List.append_assoc]
  | node entry children rest childrenHypothesis restHypothesis =>
      cases pdes with
      | nil => cases roots
      | cons pde pdes =>
          rcases List.cons.inj roots with ⟨rfl, others⟩
          rcases stored with ⟨isDirectory, holds, below, beside⟩
          subst geometry
          have inner : children.height + 1 ≤ fuel := Nat.le_trans (Nat.le_max_left _ _) fueled
          obtain ⟨fuel, rfl⟩ := Nat.exists_eq_add_of_le' (Nat.le_trans (Nat.le_add_left 1 _) inner)
          have named := List.forall_mem_cons.mp terminated
          have namedBelow := (List.forall_mem_append.mp named.2).1
          have namedBeside := (List.forall_mem_append.mp named.2).2
          let passed := (listing disk driver.fat.mBpb pde.dirent.cluster (driver.locals 0)).passed
          have dirents : passed.map ParsedDirEntry.dirent = children.roots :=
            (parse_dirents (parse_completes_iff.mpr holds.fits)).trans holds.live
          let inside := lines offs ((parsedForest disk driver.fat.mBpb children passed
            (behind driver.locals 1)).preorder (depth + 1))
          have deeper : offs + (depth : Int) + 1 = offs + ((depth + 1 : Nat) : Int) := by omega
          rcases childrenHypothesis below dirents (Nat.le_of_succ_le_succ inner)
            (driver.enter disk pde.dirent.cluster) rfl namedBelow
            (output ++ line (offs + depth) pde) with ⟨entered, visited, bpb, locals⟩
          rw [← deeper] at visited
          have supply : entered.locals = behind driver.locals (1 + children.nodes) :=
            locals.trans (behind_behind driver.locals 1 children.nodes)
          rw [← supply] at namedBeside
          rcases restHypothesis beside others (Nat.le_trans (Nat.le_max_right _ _) fueled) entered bpb
            namedBeside (output ++ line (offs + depth) pde ++ inside) with ⟨after, later, bpb, locals⟩
          refine ⟨after, ?_, bpb, ?_⟩
          · rw [Visit.visit, direntFunc_directory fits holds named.1 isDirectory visited,
              Option.bind_some, if_neg Bool.false_ne_true]
            refine later.trans ?_
            rw [supply]
            simp only [parsedForest, Forest.preorder, lines, List.flatMap_cons, List.flatMap_append,
              List.append_assoc, inside, passed]
          · rw [locals, supply, behind_behind]
            rfl

end Walk

/-- From every state, and for every tree of directories that the volume holds,
the call returns, and has printed a line for each entry of the tree in
pre-order, indented by its depth; `offs` is what it was. -/
theorem syscallDirent_preorder {disk : Disk} {driver : Driver} {tree : Forest DirEntry}
    (fits : driver.fat.mBpb.sectorsPerCluster.toNat ≤ 64)
    (root : Holds disk driver.fat.mBpb driver.fat.mBpb.rootCluster tree)
    (stored : Stored disk driver.fat.mBpb tree)
    (terminated : ∀ report ∈ (parsedTree disk driver tree).preorder 0,
      0 ∈ report.2.actualFileName.units)
    (terminal : Terminal) {fuel : Nat} (fueled : tree.height ≤ fuel) :
    let reports := (parsedTree disk driver tree).preorder 0
    (∃ after, syscallDirent disk fuel (driver, terminal) = some (0, (after, ⟨terminal.offs,
      terminal.output ++ textOf "directory tree: \n" ++ lines terminal.offs reports⟩))) ∧
    reports.map (Prod.map id ParsedDirEntry.dirent) = tree.preorder 0 := by
  have clusterFits : ClusterFits driver.fat.mBpb := Nat.mul_le_mul_right 512 fits
  have dirents : (listing disk driver.fat.mBpb driver.fat.mBpb.rootCluster
      (driver.locals 0)).passed.map ParsedDirEntry.dirent = tree.roots :=
    (parse_dirents (parse_completes_iff.mpr root.fits)).trans root.live
  constructor
  · rcases visit_direntFunc clusterFits stored dirents fueled
      (driver.enter disk driver.fat.mBpb.rootCluster) rfl terminated terminal.offs
      (terminal.output ++ textOf "directory tree: \n") with ⟨after, visited, _⟩
    refine ⟨after, ?_⟩
    have listed := @enumerateDirectory_of_fits Terminal disk none driver clusterFits root.fits
      (direntFunc disk fuel)
    simp only [syscallDirent, printf_headerFormat, Option.bind_eq_bind, Option.bind_some, listed]
    rw [Nat.cast_zero, Int.add_zero] at visited
    exact (congrArg (Option.bind · _) visited).trans rfl
  · rw [← Forest.preorder_map, parsedTree, map_parsedForest stored _ dirents]

/-- A volume whose root has a directory `D` in cluster 3, in which there is a
file `F`, both with long names. -/
def nestedDirectory : Disk := fun sector offset =>
  if sector = 4096 then
    if offset = 44 then 2
    else if offset = 13 ∨ offset = 14 ∨ offset = 16 ∨ offset = 36 then 1 else 0
  else if sector = 4097 then 0xff
  else if sector = 4098 then
    if offset = 0 then 0x41 else if offset = 11 then 0x0f
    else if offset = 1 ∨ offset = 32 then chr 'D' else if offset = 43 then 0x10
    else if offset = 58 then 3 else 0
  else if sector = 4099 then
    if offset = 0 then 0x41 else if offset = 11 then 0x0f
    else if offset = 1 ∨ offset = 32 then chr 'F' else 0
  else 0

def nestedTree : Forest DirEntry :=
  .node (diskEntry nestedDirectory (geometry nestedDirectory) 2 1)
    (.leaf (diskEntry nestedDirectory (geometry nestedDirectory) 3 1) .nil) .nil

theorem fits_nestedDirectory {cluster : BitVec 32}
    (all : ((clusterEntries nestedDirectory (geometry nestedDirectory) cluster).takeWhile fun entry =>
      ¬ entry.IsEnd).all (fun entry => entry.OrderFits) = true) :
    ∀ entry ∈ (clusterEntries nestedDirectory (geometry nestedDirectory) cluster).takeWhile
      fun entry => ¬ entry.IsEnd, entry.OrderFits := by
  simpa only [List.all_eq_true, decide_eq_true_eq] using all

theorem holds_nestedDirectory : Holds nestedDirectory (geometry nestedDirectory) 2 nestedTree ∧
    Holds nestedDirectory (geometry nestedDirectory) 3
      (.leaf (diskEntry nestedDirectory (geometry nestedDirectory) 3 1) .nil) :=
  ⟨⟨by decide +kernel, rfl, fits_nestedDirectory (by decide +kernel)⟩,
    ⟨by decide +kernel, rfl, fits_nestedDirectory (by decide +kernel)⟩⟩

theorem syscallDirent_nestedDirectory :
    let driver : Driver := ⟨new nestedDirectory fun _ => 0, fun _ => ⟨fun _ => 0, fun _ _ => 0⟩⟩
    let reports := (parsedTree nestedDirectory driver nestedTree).preorder 0
    (∃ after, syscallDirent nestedDirectory 2 (driver, ⟨0, []⟩) =
      some (0, (after, ⟨0, textOf "directory tree: \n" ++ lines 0 reports⟩))) ∧
    reports.map (Prod.map id ParsedDirEntry.dirent) = nestedTree.preorder 0 := by
  intro driver
  have terminated : ((parsedTree nestedDirectory driver nestedTree).preorder 0).all
      (fun report => 0 ∈ report.2.actualFileName.units) = true := by
    decide +kernel
  simp only [List.all_eq_true, decide_eq_true_eq] at terminated
  have stored : Stored nestedDirectory (geometry nestedDirectory) nestedTree :=
    ⟨by decide, holds_nestedDirectory.2, ⟨by decide, trivial⟩, trivial⟩
  exact syscallDirent_preorder (by decide) holds_nestedDirectory.1 stored terminated ⟨0, []⟩
    (by decide)

end Syscall

end WeakOS
