import Mathlib
import WeakOS.Fat.Names
import WeakOS.Fat.History
import WeakOS.Fat.Pieces

namespace WeakOS

namespace Fat

/-!
# Reading long names back

A long name is stored in front of the short entry of its file, the last piece
first.  What `enumerate_directory` reads back is the name buffer, which nothing
clears: a name that fills its pieces has no terminator of its own, and gets
whatever unit is in the buffer behind it.
-/

/-! ## Encoding -/

/-- The number of pieces of a name. -/
def pieceCount (name : List (BitVec 16)) : Nat := (name.length + 12) / 13

/-- The units of a name, its terminator and the padding. -/
def padded (name : List (BitVec 16)) (j : Nat) : BitVec 16 :=
  if j = name.length then 0 else name.getD j 0xffff

/-- The record of piece `index`.  The last piece, which is stored first, is
marked. -/
structure IsRecord (name : List (BitVec 16)) (index : Nat) (entry : DirEntry) : Prop where
  attributes : entry.attributes = 0x0f
  order : entry.order =
    BitVec.ofNat 8 (index + 1) ||| if index + 1 = pieceCount name then 0x40 else 0
  units : entry.units = (List.range 13).map fun k => padded name (13 * index + k)

/-- A file with a long name, as it is stored. -/
structure LongFile where
  name : List (BitVec 16)
  records : List DirEntry
  short : DirEntry
  nonempty : 1 ≤ name.length
  limited : name.length ≤ 255
  nonzero : ∀ unit ∈ name, unit ≠ 0
  recorded : List.Forall₂ (IsRecord name) (List.range (pieceCount name)).reverse records
  notEnd : ¬ short.IsEnd
  live : short.IsLive

def LongFile.entries (file : LongFile) : List DirEntry := file.records ++ [file.short]

/-- The entries of files, and behind them nothing, or an end marker. -/
def Encodes (files : List LongFile) (entries : List DirEntry) : Prop :=
  ∃ rest, entries = files.flatMap LongFile.entries ++ rest ∧ ∀ entry ∈ rest.head?, entry.IsEnd

/-- Each file is passed on, in order and with its name in front of a zero. -/
def Decodes (files : List LongFile) (passed : List ParsedDirEntry) : Prop :=
  List.Forall₂ (fun file pde =>
    file.name ++ [0] <+: pde.actualFileName.units ∧ pde.dirent = file.short) files passed

/-! ## One name -/

section Record

variable {name : List (BitVec 16)} {index : Nat} {entry : DirEntry}

/-- The order of a record leads back to the piece. -/
theorem pieceOfs_record (record : IsRecord name index entry) (small : index < 20) :
    pieceOfs entry = index ∧ entry.order ≠ 0xe5 := by
  have orders : ∀ index < 20, ∀ mark ∈ [(0x40 : BitVec 8), 0],
      ((BitVec.ofNat 8 (index + 1) ||| mark) &&& 0x3f).toNat = index + 1 ∧
        BitVec.ofNat 8 (index + 1) ||| mark ≠ 0xe5 := by
    decide
  have here := orders index small (if index + 1 = pieceCount name then 0x40 else 0) (by
    split <;> decide)
  rw [← record.order] at here
  exact ⟨by rw [pieceOfs, here.1]; omega, here.2⟩

/-- The buffer with the first `count` pieces of a name. -/
def written (name : List (BitVec 16)) (count : Nat) (nameBuf : Name) : Name :=
  fun i => if i < 13 * count then padded name i else nameBuf i

theorem overwrite_record (record : IsRecord name index entry) (nameBuf : Name) :
    written name index (overwrite nameBuf ((index : Int) * 13) entry.units) =
      written name (index + 1) nameBuf := by
  funext i
  unfold written overwrite
  rw [record.units, List.length_map, List.length_range]
  by_cases before : i < 13 * index
  · rw [if_pos before, if_pos (by omega)]
  rw [if_neg before]
  by_cases inside : i < 13 * (index + 1)
  · have position : ((i : Int) - (index : Int) * 13).toNat = i - 13 * index := by omega
    have short : (i : Nat) - 13 * index < 13 := by omega
    rw [if_pos (by omega), if_pos inside, position, List.getD_eq_getElem?_getD, List.getElem?_map,
      List.getElem?_range short, Option.map_some, Option.getD_some]
    exact congrArg (padded name) (by omega)
  · rw [if_neg (by omega), if_neg inside]

variable {locals : Locals} {i : Nat} {nameBuf : Name} {hasLfn : Bool} {rest : List DirEntry}

theorem parse_record (record : IsRecord name index entry) (small : index < 19) :
    parse locals i nameBuf hasLfn (entry :: rest) =
      parse locals (i + 1) (overwrite nameBuf ((index : Int) * 13) entry.units) true rest := by
  have ofs := pieceOfs_record record (by omega)
  rw [parse, if_pos record.attributes, if_neg ofs.2, copyPiece_eq, ofs.1, if_pos (by omega)]

/-- The twentieth piece does not fit. -/
theorem parse_record_large (record : IsRecord name 19 entry) :
    parse locals i nameBuf hasLfn (entry :: rest) = ⟨[], false⟩ := by
  have ofs := pieceOfs_record record (by omega)
  rw [parse, if_pos record.attributes, if_neg ofs.2, copyPiece_eq, ofs.1, if_neg (by omega)]

/-- The pieces of a name, the last one first, are collected. -/
theorem parse_records {records : List DirEntry} {count : Nat} (fit : count ≤ 19)
    (recorded : List.Forall₂ (IsRecord name) (List.range count).reverse records) :
    parse locals i nameBuf hasLfn (records ++ rest) =
      parse locals (i + count) (written name count nameBuf) (hasLfn || decide (0 < count)) rest := by
  induction count generalizing i nameBuf hasLfn records with
  | zero =>
      cases recorded
      rw [decide_eq_false (Nat.lt_irrefl 0), Bool.or_false]
      rfl
  | succ count inductionHypothesis =>
      rw [List.range_succ, List.reverse_append, List.reverse_singleton,
        List.singleton_append] at recorded
      cases recorded with
      | cons first later =>
          rw [List.cons_append, parse_record first (by omega), inductionHypothesis (by omega) later,
            overwrite_record first, Bool.true_or, decide_eq_true (Nat.succ_pos count), Bool.or_true,
            Nat.add_assoc, Nat.add_comm 1]

end Record

/-! ## All names of a directory -/

section Files

/-- The parsed entries of files; the name buffer is handed on. -/
def decoded : (nameBuf : Name) → List LongFile → List ParsedDirEntry
  | _, [] => []
  | nameBuf, file :: rest =>
      let nameBuf := written file.name (pieceCount file.name) nameBuf
      ⟨nameBuf, file.short⟩ :: decoded nameBuf rest

variable {locals : Locals} {i : Nat} {nameBuf : Name} {hasLfn : Bool} {files : List LongFile}
  {rest : List DirEntry}

theorem parse_end (ends : ∀ entry ∈ rest.head?, entry.IsEnd) :
    parse locals i nameBuf hasLfn rest = ⟨[], true⟩ := by
  cases rest with
  | nil => rfl
  | cons entry rest =>
      have isEnd := ends entry rfl
      rw [parse, if_neg isEnd.1, if_pos isEnd]

/-- The short entry of a file is passed on with the name buffer. -/
theorem parse_short (file : LongFile) : parse locals i nameBuf true (file.short :: rest) =
    let later := parse locals (i + 1) nameBuf false rest
    ⟨⟨nameBuf, file.short⟩ :: later.passed, later.completes⟩ := by
  rw [parse, if_neg file.live.1, if_neg file.notEnd, if_pos file.live]
  rfl

theorem parse_file (file : LongFile) (fit : file.name.length ≤ 247) :
    ∃ j, parse locals i nameBuf hasLfn (file.entries ++ rest) =
      let nameBuf := written file.name (pieceCount file.name) nameBuf
      let later := parse locals j nameBuf false rest
      ⟨⟨nameBuf, file.short⟩ :: later.passed, later.completes⟩ := by
  have nonempty := file.nonempty
  have few : pieceCount file.name ≤ 19 ∧ 0 < pieceCount file.name := by
    unfold pieceCount
    omega
  refine ⟨i + pieceCount file.name + 1, ?_⟩
  rw [LongFile.entries, List.append_assoc, parse_records few.1 file.recorded,
    decide_eq_true few.2, Bool.or_true, List.singleton_append, parse_short]

/-- Names of up to nineteen pieces are all read. -/
theorem parse_files (fit : ∀ file ∈ files, file.name.length ≤ 247)
    (ends : ∀ entry ∈ rest.head?, entry.IsEnd) :
    parse locals i nameBuf hasLfn (files.flatMap LongFile.entries ++ rest) =
      ⟨decoded nameBuf files, true⟩ := by
  induction files generalizing i nameBuf hasLfn with
  | nil => exact parse_end ends
  | cons file files inductionHypothesis =>
      rw [List.flatMap_cons, List.append_assoc]
      rcases @parse_file locals i nameBuf hasLfn (files.flatMap LongFile.entries ++ rest) file
        (fit file List.mem_cons_self) with ⟨j, parsed⟩
      have later : ∀ other ∈ files, other.name.length ≤ 247 := fun other member =>
        fit other (List.mem_cons_of_mem _ member)
      rw [parsed]
      simp only [inductionHypothesis later]
      rfl

/-- A name of twenty pieces ends the listing with a fault. -/
theorem parse_files_large (large : ∃ file ∈ files, 247 < file.name.length) :
    (parse locals i nameBuf hasLfn (files.flatMap LongFile.entries ++ rest)).completes = false := by
  induction files generalizing i nameBuf hasLfn with
  | nil =>
      rcases large with ⟨_, none, _⟩
      cases none
  | cons file files inductionHypothesis =>
      rw [List.flatMap_cons, List.append_assoc]
      by_cases here : file.name.length ≤ 247
      · have later : ∃ other ∈ files, 247 < other.name.length := by
          rcases large with ⟨other, member, long⟩
          rcases List.mem_cons.mp member with rfl | behind
          · omega
          · exact ⟨other, behind, long⟩
        rcases @parse_file locals i nameBuf hasLfn (files.flatMap LongFile.entries ++ rest) file here
          with ⟨j, parsed⟩
        rw [parsed]
        exact inductionHypothesis later
      · have limited := file.limited
        have count : pieceCount file.name = 20 := by
          unfold pieceCount
          omega
        have recorded := file.recorded
        rw [count, List.range_succ, List.reverse_append, List.reverse_singleton,
          List.singleton_append] at recorded
        rw [LongFile.entries]
        cases recorded' : file.records with
        | nil =>
            rw [recorded'] at recorded
            cases recorded
        | cons entry records =>
            rw [recorded'] at recorded
            cases recorded with
            | cons first _ => exact congrArg Listing.completes (parse_record_large first)

/-- A name is read back with its terminator, unless it fills its pieces and the
buffer holds something else behind them. -/
theorem written_begins (file : LongFile) :
    file.name ++ [0] <+: (written file.name (pieceCount file.name) nameBuf).units ↔
      (13 ∣ file.name.length → nameBuf (Fin.ofNat _ file.name.length) = 0) := by
  have limited := file.limited
  have unit : ∀ j, ∀ bound : j < 256,
      (written file.name (pieceCount file.name) nameBuf).units[j]? =
        some (if j < 13 * pieceCount file.name then padded file.name j else nameBuf ⟨j, bound⟩) :=
    fun j bound => (List.getElem?_ofFn).trans (dif_pos bound)
  have inName : ∀ j, ∀ inside : j < file.name.length,
      (written file.name (pieceCount file.name) nameBuf).units[j]? = some file.name[j] := by
    intro j inside
    rw [unit j (by omega), if_pos (by unfold pieceCount; omega), padded, if_neg (by omega),
      List.getD_eq_getElem _ _ inside]
  have behind : (written file.name (pieceCount file.name) nameBuf).units[file.name.length]? =
      some (if 13 ∣ file.name.length then nameBuf (Fin.ofNat _ file.name.length) else 0) := by
    rw [unit file.name.length (by omega)]
    by_cases fills : 13 ∣ file.name.length
    · have here : (⟨file.name.length, by omega⟩ : Fin 256) = Fin.ofNat _ file.name.length :=
        Fin.ext (Nat.mod_eq_of_lt (by omega)).symm
      rw [if_pos fills, if_neg (by unfold pieceCount; omega), here]
    · rw [if_neg fills, if_pos (by unfold pieceCount; omega), padded, if_pos rfl]
  rw [List.prefix_iff_getElem?]
  constructor
  · intro all fills
    have last := all file.name.length (by rw [List.length_append, List.length_singleton]; omega)
    rw [behind, if_pos fills, List.getElem_concat_length rfl] at last
    exact Option.some.inj last
  · intro zero j inside
    rw [List.length_append, List.length_singleton] at inside
    rcases Nat.lt_succ_iff_lt_or_eq.mp inside with earlier | rfl
    · rw [inName j earlier, List.getElem_append_left earlier]
    · rw [behind, List.getElem_concat_length rfl]
      split
      · rename_i fills
        exact congrArg some (zero fills)
      · rfl

/-- Behind a name that fills its pieces the buffer holds what it held at first,
or a unit of a longer name. -/
theorem written_zero (file : LongFile) {len : Nat} (fills : 13 ∣ len) (small : len < 256) :
    written file.name (pieceCount file.name) nameBuf (Fin.ofNat _ len) = 0 ↔
      file.name.length ≤ len ∧ nameBuf (Fin.ofNat _ len) = 0 := by
  have value : (Fin.ofNat 256 len).val = len := Nat.mod_eq_of_lt small
  unfold written
  rw [value]
  by_cases longer : len < file.name.length
  · have inside : len < 13 * pieceCount file.name := by
      unfold pieceCount
      omega
    have unit : padded file.name len ≠ 0 := by
      rw [padded, if_neg (by omega), List.getD_eq_getElem _ _ longer]
      exact file.nonzero _ (List.getElem_mem longer)
    rw [if_pos inside]
    exact iff_of_false unit (fun both => absurd both.1 (by omega))
  · have outside : ¬ len < 13 * pieceCount file.name := by
      unfold pieceCount
      omega
    rw [if_neg outside]
    exact (and_iff_right (Nat.le_of_not_lt longer)).symm

/-- When the names of files are read back. -/
def Terminates (nameBuf : Name) (files : List LongFile) : Prop :=
  files.Pairwise (fun earlier later =>
    13 ∣ later.name.length → earlier.name.length ≤ later.name.length) ∧
  ∀ file ∈ files, 13 ∣ file.name.length → nameBuf (Fin.ofNat _ file.name.length) = 0

theorem decodes_decoded : Decodes files (decoded nameBuf files) ↔ Terminates nameBuf files := by
  induction files generalizing nameBuf with
  | nil =>
      exact iff_of_true List.Forall₂.nil
        ⟨List.Pairwise.nil, fun file none => absurd none List.not_mem_nil⟩
  | cons file files inductionHypothesis =>
      rw [Decodes, decoded, List.forall₂_cons, ← Decodes, inductionHypothesis, Terminates,
        Terminates, List.pairwise_cons, List.forall_mem_cons, written_begins]
      have later : (∀ other ∈ files, 13 ∣ other.name.length →
          written file.name (pieceCount file.name) nameBuf (Fin.ofNat _ other.name.length) = 0) ↔
        (∀ other ∈ files, 13 ∣ other.name.length → file.name.length ≤ other.name.length) ∧
          ∀ other ∈ files, 13 ∣ other.name.length →
            nameBuf (Fin.ofNat _ other.name.length) = 0 := by
        have each : ∀ other : LongFile, 13 ∣ other.name.length →
            (written file.name (pieceCount file.name) nameBuf (Fin.ofNat _ other.name.length) = 0 ↔
              file.name.length ≤ other.name.length ∧
                nameBuf (Fin.ofNat _ other.name.length) = 0) :=
          fun other fills => written_zero file fills (Nat.lt_succ_of_le other.limited)
        constructor
        · intro all
          exact ⟨fun other member fills => ((each other fills).mp (all other member fills)).1,
            fun other member fills => ((each other fills).mp (all other member fills)).2⟩
        · intro both other member fills
          exact (each other fills).mpr ⟨both.1 other member fills, both.2 other member fills⟩
      rw [later]
      tauto

end Files

/-! ## Directories -/

section Directory

variable {disk : Disk} {from_ : Option DirEntry} {driver : Driver} {files : List LongFile}

/-- The listing passes on what was encoded, to a callback that records it. -/
def ReadsBack (files : List LongFile) (outcome : Option (Driver × List ParsedDirEntry)) : Prop :=
  ∃ after passed, outcome = some (after, passed) ∧ Decodes files passed

/-- Names are read back exactly when none has twenty pieces, and behind those
that fill their pieces the buffer holds a zero which no earlier name covers. -/
theorem enumerateDirectory_readsBack_iff (encoded : Encodes files (clusterEntries disk
      driver.fat.mBpb (directoryCluster driver.fat.mBpb from_))) :
    ReadsBack files (enumerateDirectory disk from_ record (driver, [])) ↔
      ClusterFits driver.fat.mBpb ∧ (∀ file ∈ files, file.name.length ≤ 247) ∧
        Terminates (driver.locals 0).nameBuf files := by
  rcases encoded with ⟨rest, entries, ends⟩
  constructor
  · rintro ⟨after, passed, recorded, decodes⟩
    rcases enumerateDirectory_record_eq_some.mp recorded with ⟨fits, completes, rfl, rfl⟩
    rw [listing, entries] at completes decodes
    have fit : ∀ file ∈ files, file.name.length ≤ 247 := by
      intro file member
      by_contra large
      have faults := @parse_files_large (driver.locals 0) 0 (driver.locals 0).nameBuf false files
        rest ⟨file, member, Nat.not_le.mp large⟩
      exact Bool.false_ne_true (faults.symm.trans completes)
    rw [parse_files fit ends] at decodes
    exact ⟨fits, fit, decodes_decoded.mp decodes⟩
  · rintro ⟨fits, fit, terminates⟩
    have parsed := @parse_files (driver.locals 0) 0 (driver.locals 0).nameBuf false files rest fit ends
    rw [← entries] at parsed
    refine ⟨_, _, enumerateDirectory_record_eq_some.mpr
      ⟨fits, congrArg Listing.completes parsed, congrArg Listing.passed parsed, rfl⟩, ?_⟩
    exact decodes_decoded.mpr terminates

/-- A volume whose root has one file, with a name of thirteen units. -/
def fullPiece : Disk := fun sector offset =>
  if sector = 4096 then
    if offset = 44 then 2
    else if offset = 13 ∨ offset = 14 ∨ offset = 16 ∨ offset = 36 then 1 else 0
  else if sector = 4098 then
    if offset = 11 then 0x0f
    else if offset = 12 ∨ offset = 13 ∨ offset = 26 ∨ offset = 27 then 0
    else if offset < 33 then 0x41 else 0
  else 0

theorem isRecord_fullPiece : IsRecord (List.replicate 13 0x4141) 0
    (diskEntry fullPiece (geometry fullPiece) 2 0) :=
  ⟨by decide +kernel, by decide +kernel, by decide +kernel⟩

def fullName : LongFile where
  name := List.replicate 13 0x4141
  records := [diskEntry fullPiece (geometry fullPiece) 2 0]
  short := diskEntry fullPiece (geometry fullPiece) 2 1
  nonempty := by decide
  limited := by decide
  nonzero := fun unit member => by
    rw [List.eq_of_mem_replicate member]
    decide
  recorded := by
    rw [show (List.range (pieceCount (List.replicate 13 0x4141))).reverse = [0] by decide]
    exact List.Forall₂.cons isRecord_fullPiece List.Forall₂.nil
  notEnd := by decide +kernel
  live := by decide +kernel

theorem encodes_fullName : Encodes [fullName] (clusterEntries fullPiece (geometry fullPiece)
    (directoryCluster (geometry fullPiece) none)) := by
  have root : directoryCluster (geometry fullPiece) none = 2 := by decide +kernel
  rw [root]
  refine ⟨(clusterEntries fullPiece (geometry fullPiece) 2).drop 2, rfl, ?_⟩
  intro entry third
  have same : entry = diskEntry fullPiece (geometry fullPiece) 2 2 := (Option.some.inj third).symm
  rw [same]
  decide

/-- The driver for this volume, with one unit all over the name buffer. -/
def driverOf (unit : BitVec 16) : Driver :=
  ⟨new fullPiece fun _ => 0, fun _ => ⟨fun _ => unit, fun _ _ => 0⟩⟩

theorem enumerateDirectory_readsBack_fullName :
    ReadsBack [fullName] (enumerateDirectory fullPiece none record (driverOf 0, [])) := by
  have fits : ClusterFits (geometry fullPiece) := by decide
  exact (@enumerateDirectory_readsBack_iff fullPiece none (driverOf 0) [fullName]
    encodes_fullName).mpr ⟨fits, by decide, List.pairwise_singleton _ _, fun _ _ _ => rfl⟩

/-- What an earlier call has left on the stack is taken for a part of the name. -/
theorem enumerateDirectory_unterminated :
    ¬ ReadsBack [fullName] (enumerateDirectory fullPiece none record (driverOf 1, [])) := by
  rintro ⟨after, passed, recorded, decodes⟩
  rcases enumerateDirectory_record_eq_some.mp recorded with ⟨_, _, rfl, _⟩
  rcases encodes_fullName with ⟨rest, entries, ends⟩
  have limited : ∀ file ∈ [fullName], file.name.length ≤ 247 := by decide
  have parsed := @parse_files ((driverOf 1).locals 0) 0 ((driverOf 1).locals 0).nameBuf false
    [fullName] rest limited ends
  rw [← entries] at parsed
  have terminates := decodes_decoded.mp (congrArg Listing.passed parsed ▸ decodes)
  have one : (1 : BitVec 16) = 0 := terminates.2 fullName List.mem_cons_self (by decide)
  exact absurd one (by decide)

end Directory

end Fat

end WeakOS
