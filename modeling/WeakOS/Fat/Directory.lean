import Mathlib
import WeakOS.Libc.CString
import WeakOS.Fat.Model

namespace WeakOS

namespace Fat

/-!
# Directories

Listing a directory and looking up paths.  What the uninitialised locals of
`enumerate_directory` hold is part of the model: each call takes the contents
of its own from a supply.  The entries are copied to the heap before the first
callback; allocation succeeds.

There is no result when an access leaves its array.
-/

/-! ## Directory entries -/

/-- The 32 bytes of an entry; both variants of the union are read from them. -/
abbrev DirEntry := Fin 32 → BitVec 8

namespace DirEntry

variable (entry : DirEntry)

/-- The 16-bit field at an offset. -/
def field (offset : Nat) : BitVec 16 :=
  entry (Fin.ofNat _ (offset + 1)) ++ entry (Fin.ofNat _ offset)

def fileName (j : Nat) : BitVec 8 := entry (Fin.ofNat _ j)

def attributes : BitVec 8 := entry 11

def clusterHi : BitVec 16 := entry.field 20

def clusterLo : BitVec 16 := entry.field 26

def fileSize : BitVec 32 := entry.field 30 ++ entry.field 28

/-- The first cluster of what the entry names. -/
def cluster : BitVec 32 := entry.clusterHi.setWidth 32 <<< 16 ||| entry.clusterLo.setWidth 32

def order : BitVec 8 := entry 0

def nameP1 : List (BitVec 16) := [1, 3, 5, 7, 9].map entry.field

def nameP2 : List (BitVec 16) := [14, 16, 18, 20, 22, 24].map entry.field

def nameP3 : List (BitVec 16) := [28, 30].map entry.field

end DirEntry

/-- A buffer for the units of a name. -/
abbrev Name := Fin 256 → BitVec 16

structure ParsedDirEntry where
  actualFileName : Name
  dirent : DirEntry

/-- Put units into a buffer from an index on. -/
def overwrite (name : Name) (start : Int) (units : List (BitVec 16)) : Name :=
  fun i => if start ≤ i ∧ i < start + units.length then units.getD (i - start).toNat 0 else name i

/-- `memcpy` into `name_buf`. -/
def copyUnits (nameBuf : Name) (start : Int) (units : List (BitVec 16)) : Option Name :=
  if 0 ≤ start ∧ start + units.length ≤ 256 then some (overwrite nameBuf start units) else none

/-- The index of the piece of a long name, counted from 0. -/
def pieceOfs (entry : DirEntry) : Int := (entry.order &&& 0x3f).toNat - 1

/-- Copy the three parts of a long-name record. -/
def copyPiece (nameBuf : Name) (entry : DirEntry) : Option Name := do
  let ofs := pieceOfs entry
  let nameBuf ← copyUnits nameBuf (ofs * 13) entry.nameP1
  let nameBuf ← copyUnits nameBuf (ofs * 13 + 5) entry.nameP2
  copyUnits nameBuf (ofs * 13 + 11) entry.nameP3

/-- The units that are written for a short name; no terminator follows them. -/
def shortUnits (entry : DirEntry) : List (BitVec 16) :=
  let base := ((List.range 8).map entry.fileName).takeWhile (fun ch => ch ≠ chr ' ')
  let extension := ((List.range 3).map (fun j => entry.fileName (8 + j))).takeWhile
    (fun ch => ch ≠ chr ' ')
  (base ++ [chr '.'] ++ extension).map (fun ch => ch.setWidth 16)

/-! ## Listing a directory -/

/-- What the uninitialised locals of a call hold: the name buffer, and the name
of the parsed entry in each iteration. -/
structure Locals where
  nameBuf : Name
  fileName : Nat → Name

/-- The object, and the locals of the calls to come. -/
structure Driver where
  fat : Fat
  locals : Nat → Locals

/-- A callback gets the parsed entry; it may use the driver and has a state of
its own.  The listing stops when it returns true. -/
abbrev Callback (State : Type) :=
  ParsedDirEntry → Driver × State → Option (Bool × (Driver × State))

section Enumerate

variable {State : Type}

/-- The parsed entry that is passed to the callback in iteration `i`. -/
def parsedEntry (locals : Locals) (entry : DirEntry) (i : Nat) (nameBuf : Name) (hasLfn : Bool) :
    ParsedDirEntry where
  actualFileName :=
    if hasLfn then nameBuf else overwrite (locals.fileName i) 0 (shortUnits entry)
  dirent := entry

/-- The loop of `enumerate_directory` at iteration `i`, with `left` iterations
to go. -/
def enumerateLoop (entries : Nat → DirEntry) (locals : Locals) (func : Callback State) :
    (left i : Nat) → (nameBuf : Name) → (hasLfn : Bool) → Driver × State → Option (Driver × State)
  | 0, _, _, _, state => some state
  | left + 1, i, nameBuf, hasLfn, state =>
      let entry := entries i
      if entry.attributes = 0x0f then
        if entry.order = 0xe5 then enumerateLoop entries locals func left (i + 1) nameBuf hasLfn state
        else do
          let nameBuf ← copyPiece nameBuf entry
          enumerateLoop entries locals func left (i + 1) nameBuf true state
      else if entry.fileName 0 = 0 then some state
      else if entry.fileName 0 = 0xe5 ∨ entry.fileName 0 = 0x2e then
        enumerateLoop entries locals func left (i + 1) nameBuf false state
      else do
        let (stop, state) ← func (parsedEntry locals entry i nameBuf hasLfn) state
        if stop then some state
        else enumerateLoop entries locals func left (i + 1) nameBuf false state

/-- The entries in the bytes of a cluster. -/
def entryAt (bytes : Bytes) (i : Nat) : DirEntry := fun offset => bytes (32 * i + offset)

/-- The number of entries in a cluster. -/
def entryCount (bpb : Bpb) : Nat := bpb.sectorsPerCluster.toNat * 0x10

/-- The cluster of the directory that an entry names, or of the root. -/
def directoryCluster (bpb : Bpb) (from_ : Option DirEntry) : BitVec 32 :=
  match from_ with
  | some entry => entry.cluster
  | none => bpb.rootCluster

/-- `enumerate_directory`, which reads the first cluster of the directory. -/
def enumerateDirectory (disk : Disk) (from_ : Option DirEntry) (func : Callback State)
    (state : Driver × State) : Option (Driver × State) :=
  let fat := state.1.fat
  if clusterBufferSize < fat.mBpb.sectorsPerCluster.toNat * 512 then none
  else
    let fat := loadCluster disk (directoryCluster fat.mBpb from_) fat
    let locals := state.1.locals 0
    let driver : Driver := { fat, locals := fun call => state.1.locals (call + 1) }
    enumerateLoop (entryAt fat.mClusterBuffer) locals func (entryCount fat.mBpb) 0 locals.nameBuf
      false (driver, state.2)

end Enumerate

/-! ## Looking up a path -/

/-- The static members that lookups use.  A path is the list of its characters;
at its end the terminator is read. -/
structure Lookup where
  mPath : List (BitVec 8)
  foundEntry : ParsedDirEntry

/-- The characters before the next slash. -/
def component (path : List (BitVec 8)) : List (BitVec 8) :=
  path.takeWhile (fun ch => ch ≠ 0 ∧ ch ≠ chr '/')

/-- Skip the characters before the next slash. -/
def skipComponent (path : List (BitVec 8)) : List (BitVec 8) :=
  path.dropWhile (fun ch => ch ≠ 0 ∧ ch ≠ chr '/')

/-- The loop of `namecmp` at index `i`, with the characters to go.  The units
are compared as `int`, and `char` is signed. -/
def namecmpLoop (realName : Name) : (i : Nat) → List (BitVec 8) → Option Bool
  | i, [] => if bound : i < 256 then some (realName ⟨i, bound⟩ = 0) else none
  | i, ch :: rest =>
      if bound : i < 256 then
        if ch.signExtend 32 ≠ (realName ⟨i, bound⟩).setWidth 32 then some false
        else namecmpLoop realName (i + 1) rest
      else none

/-- `namecmp` of the first `nameLen` characters of a path with a name. -/
def namecmp (pathName : List (BitVec 8)) (realName : Name) (nameLen : Nat) : Option Bool :=
  namecmpLoop realName 0 (pathName.take nameLen)

def traverseFunc : Callback Lookup := fun ent (driver, lookup) => do
  let len := (component lookup.mPath).length
  let same ← namecmp lookup.mPath ent.actualFileName len
  if same then some (true, (driver, { lookup with foundEntry := ent }))
  else some (false, (driver, lookup))

/-- There is less of the path behind a slash. -/
theorem length_tail_skipComponent {path : List (BitVec 8)}
    (goesOn : (skipComponent path).headD 0 ≠ 0) : (skipComponent path).tail.length < path.length := by
  have shorter : (skipComponent path).length ≤ path.length := (List.dropWhile_suffix _).length_le
  cases rest : skipComponent path with
  | nil =>
      rw [rest] at goesOn
      exact absurd rfl goesOn
  | cons ch path' =>
      rw [rest] at shorter
      exact shorter

/-- `traverse_directory`.  The pointer to the entry to start from is read once
the listing begins, before the callback overwrites what it points to. -/
def traverseDirectory (disk : Disk) (path : List (BitVec 8)) (traverseFrom : Option DirEntry)
    (state : Driver × Lookup) : Option (ParsedDirEntry × (Driver × Lookup)) :=
  match enumerateDirectory disk traverseFrom traverseFunc
      (state.1, { state.2 with mPath := path }) with
  | none => none
  | some state =>
      if (skipComponent path).headD 0 ≠ 0 then
        traverseDirectory disk (skipComponent path).tail (some state.2.foundEntry.dirent) state
      else some (state.2.foundEntry, state)
termination_by path.length
decreasing_by exact length_tail_skipComponent (by assumption)

def getFileSize (disk : Disk) (fileName : List (BitVec 8)) (state : Driver × Lookup) :
    Option (BitVec 32 × (Driver × Lookup)) := do
  let (entry, state) ← traverseDirectory disk fileName none state
  some (entry.dirent.fileSize, state)

/-- `get_file` into the memory at `buffer`.  Every call of `read_file` but the
last reads a byte at least. -/
def getFile (disk : Disk) (fileName : List (BitVec 8)) (buffer : Nat)
    (state : (Driver × Lookup) × Bytes) : Option ((Driver × Lookup) × Bytes) := do
  let (entry, (driver, lookup)) ← traverseDirectory disk fileName none state.1
  let size := entry.dirent.fileSize
  let (fat, bytes) ← readFile disk (size.toNat + 1) entry.dirent.cluster size buffer
    (driver.fat, state.2)
  some (({ driver with fat }, lookup), bytes)

end Fat

end WeakOS
