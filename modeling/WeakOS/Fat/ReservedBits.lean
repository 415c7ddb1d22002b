import Mathlib
import WeakOS.Foundation.Word
import WeakOS.Fat.History
import WeakOS.Fat.Containment

namespace WeakOS

open Foundation

namespace Fat

/-!
# The reserved bits of FAT entries

The top four bits of a FAT entry are not part of the cluster number, and
`get_next_cluster` returns them with it.  In a signed comparison they make the
entry look like the end of the chain, or like no cluster at all.  Two images
that differ in these bits only are compared by what `get_file` leaves in
memory: directories are read from their first cluster and never follow the FAT,
so the images come apart where the first entry is followed.
-/

/-- The sectors of the file allocation tables. -/
def InFat (bpb : Bpb) (sector : Nat) : Prop :=
  4096 + bpb.reservedSectors.toNat ≤ sector ∧
    sector < 4096 + bpb.reservedSectors.toNat + bpb.fatCount.toNat * bpb.sectorsPerFat.toNat

/-- Images that are the same but for the top four bits of FAT entries, which are
the upper half of every fourth byte. -/
structure SameButReserved (bpb : Bpb) (disk other : Disk) : Prop where
  lower : ∀ sector, ∀ offset < 512,
    (other sector offset).extractLsb' 0 4 = (disk sector offset).extractLsb' 0 4
  elsewhere : ∀ sector, ∀ offset < 512, ¬ (InFat bpb sector ∧ offset % 4 = 3) →
    other sector offset = disk sector offset

/-- A geometry that the driver can handle. -/
structure IsVolume (bpb : Bpb) : Prop where
  positive : 1 ≤ bpb.sectorsPerCluster.toNat
  fits : bpb.sectorsPerCluster.toNat ≤ 64
  reserved : 1 ≤ bpb.reservedSectors.toNat
  fats : 1 ≤ bpb.fatCount.toNat

/-- A data cluster that has an entry in the FAT. -/
structure OnVolume (bpb : Bpb) (cluster : BitVec 32) : Prop extends Addressable bpb cluster where
  entry : cluster.toNat / 128 < bpb.sectorsPerFat.toNat

/-- A path resolves when each of its components is found, and the directories on
the way are data clusters.  What the stack holds decides on names that are not
terminated, so it is part of the question. -/
inductive Resolves (disk : Disk) (bpb : Bpb) : (locals : Nat → Locals) →
    (path : List (BitVec 8)) → Option DirEntry → (entry : DirEntry) → Prop where
  | last {locals path from_ pde} (inData : Addressable bpb (directoryCluster bpb from_))
      (found : (listing disk bpb (directoryCluster bpb from_) (locals 0)).lookup path = some (some pde))
      (ends : (skipComponent path).headD 0 = 0) : Resolves disk bpb locals path from_ pde.dirent
  | more {locals path from_ pde entry} (inData : Addressable bpb (directoryCluster bpb from_))
      (found : (listing disk bpb (directoryCluster bpb from_) (locals 0)).lookup path = some (some pde))
      (goesOn : (skipComponent path).headD 0 ≠ 0)
      (later : Resolves disk bpb (fun call => locals (call + 1)) (skipComponent path).tail
        (some pde.dirent) entry) : Resolves disk bpb locals path from_ entry

/-- A driver on an image whose cache is consistent with the image, and what the
stack holds. -/
structure Prepared (disk : Disk) (locals : Nat → Locals) (driver : Driver) : Prop where
  faithful : Faithful disk driver.fat
  bpb : driver.fat.mBpb = geometry disk
  locals : driver.locals = locals

/-- Images that differ from the given one in the reserved bits only let
`get_file` write the same bytes. -/
def Immaterial (disk : Disk) (locals : Nat → Locals) (path : List (BitVec 8)) : Prop :=
  ∀ other, SameButReserved (geometry disk) disk other →
    ∀ one two, Prepared disk locals one → Prepared other locals two →
      ∀ (lookup lookupOther : Lookup) (buffer : Nat) (bytes : Bytes),
        (getFile disk path buffer ((one, lookup), bytes)).map Prod.snd =
          (getFile other path buffer ((two, lookupOther), bytes)).map Prod.snd

/-! ## What the images have in common -/

section Same

variable {disk other : Disk} {bpb : Bpb} {cluster : BitVec 32}

theorem SameButReserved.refl (bpb : Bpb) (disk : Disk) : SameButReserved bpb disk disk :=
  ⟨fun _ _ _ => rfl, fun _ _ _ _ => rfl⟩

/-- Nothing changes behind the tables. -/
theorem SameButReserved.behind (same : SameButReserved bpb disk other) {sector offset : Nat}
    (behind : 4096 + bpb.reservedSectors.toNat + bpb.fatCount.toNat * bpb.sectorsPerFat.toNat ≤ sector)
    (small : offset < 512) : other sector offset = disk sector offset :=
  same.elsewhere sector offset small (fun inside => Nat.not_lt.mpr behind inside.1.2)

/-- Nothing changes in the sectors of a data cluster. -/
theorem SameButReserved.data (same : SameButReserved bpb disk other)
    (inData : Addressable bpb cluster) (positive : 1 ≤ bpb.sectorsPerCluster.toNat) (offset : Nat) :
    other ((clusterSector bpb cluster).toNat + offset / 512) (offset % 512) =
      disk ((clusterSector bpb cluster).toNat + offset / 512) (offset % 512) := by
  apply same.behind _ (Nat.mod_lt offset (by decide))
  rw [clusterSector_toNat inData positive]
  unfold firstSector
  omega

/-- The boot sector is in front of the tables. -/
theorem SameButReserved.geometry_eq (same : SameButReserved bpb disk other)
    (reserved : 1 ≤ bpb.reservedSectors.toNat) : geometry other = geometry disk := by
  have sector : Ata.readSectors other (fun _ => 0) 1 4096 = Ata.readSectors disk (fun _ => 0) 1 4096 := by
    funext offset
    unfold Ata.readSectors
    split
    · refine same.elsewhere _ _ (Nat.mod_lt offset (by decide)) (fun inside => ?_)
      have first := inside.1.1
      omega
    · rfl
  exact congrArg Bpb.parse sector

/-- A directory lists the same. -/
theorem SameButReserved.listing_eq (same : SameButReserved bpb disk other)
    (inData : Addressable bpb cluster) (positive : 1 ≤ bpb.sectorsPerCluster.toNat) (locals : Locals) :
    listing other bpb cluster locals = listing disk bpb cluster locals := by
  have entries : diskEntry other bpb cluster = diskEntry disk bpb cluster := by
    funext i offset
    exact same.data inData positive (32 * i + offset)
  rw [listing, listing, clusterEntries, clusterEntries, entries]

/-- A path that resolves on one image resolves on the other, to the same entry. -/
theorem Resolves.onOther (same : SameButReserved bpb disk other)
    (positive : 1 ≤ bpb.sectorsPerCluster.toNat) {locals : Nat → Locals} {path : List (BitVec 8)}
    {from_ : Option DirEntry} {entry : DirEntry}
    (resolves : Resolves disk bpb locals path from_ entry) :
    Resolves other bpb locals path from_ entry := by
  induction resolves with
  | last inData found ends =>
      rw [← same.listing_eq inData positive] at found
      exact Resolves.last inData found ends
  | more inData found goesOn _ inductionHypothesis =>
      rw [← same.listing_eq inData positive] at found
      exact Resolves.more inData found goesOn inductionHypothesis

end Same

/-! ## Looking the path up -/

section Lookup

variable {disk : Disk} {path : List (BitVec 8)} {from_ : Option DirEntry} {entry : DirEntry}

/-- `traverse_directory` arrives where the path resolves to. -/
theorem traverseDirectory_resolves {driver : Driver} {lookup : Lookup} {bpb : Bpb}
    {locals : Nat → Locals} (resolves : Resolves disk bpb locals path from_ entry)
    (fits : ClusterFits bpb) (geometry : driver.fat.mBpb = bpb) (stack : driver.locals = locals) :
    ∃ pde after, traverseDirectory disk path from_ (driver, lookup) = some (pde, after) ∧
      pde.dirent = entry := by
  induction resolves generalizing driver lookup with
  | @last locals path from_ pde inData found ends =>
      subst geometry stack
      refine ⟨pde, (driver.enter disk (directoryCluster driver.fat.mBpb from_),
        Lookup.take { lookup with mPath := path } (some pde)), ?_, rfl⟩
      rw [traverseDirectory, enumerateDirectory_traverse fits]
      simp only [found, Option.map_some, ends]
      exact if_neg (not_not.mpr rfl)
  | @more locals path from_ pde entry inData found goesOn later inductionHypothesis =>
      subst geometry stack
      have bpbEq : (driver.enter disk (directoryCluster driver.fat.mBpb from_)).fat.mBpb =
          driver.fat.mBpb := rfl
      rcases @inductionHypothesis _ (Lookup.take { lookup with mPath := path } (some pde)) bpbEq rfl with
        ⟨last, after, returned, same⟩
      refine ⟨last, after, ?_, same⟩
      rw [traverseDirectory, enumerateDirectory_traverse fits]
      simp only [found, Option.map_some, if_pos goesOn]
      exact returned

/-- `get_file` writes what `read_file` does for the entry that is found. -/
theorem getFile_resolves {locals : Nat → Locals} {driver : Driver} {lookup : Lookup}
    (prepared : Prepared disk locals driver) (fits : ClusterFits (geometry disk))
    (resolves : Resolves disk (geometry disk) locals path none entry) :
    ∃ fat, Faithful disk fat ∧ fat.mBpb = geometry disk ∧ ∀ (buffer : Nat) (bytes : Bytes),
      (getFile disk path buffer ((driver, lookup), bytes)).map Prod.snd =
        (readFile disk (entry.fileSize.toNat + 1) entry.cluster entry.fileSize buffer
          (fat, bytes)).map Prod.snd := by
  rcases @traverseDirectory_resolves disk path none entry driver lookup _ _ resolves fits prepared.bpb
    prepared.locals with ⟨pde, after, returned, rfl⟩
  rcases traverseDirectory_fat returned with ⟨clusterBuffer, same⟩
  refine ⟨after.1.fat, ?_, ?_, fun buffer bytes => ?_⟩
  · rw [same]
    exact ⟨prepared.faithful.distinct, prepared.faithful.holds⟩
  · rw [same]
    exact prepared.bpb
  · simp only [getFile, returned, Option.bind_eq_bind, Option.bind_some]
    cases readFile disk _ _ _ _ _ with
    | none => rfl
    | some read => rfl

end Lookup

/-! ## The test for the end of a chain -/

/-- The comparison is signed, so that the words from `2 ^ 31` on do not end a
chain. -/
theorem endOfChain_iff (word : BitVec 32) :
    (0x0FFFFFF8 : BitVec 32).sle word = true ↔ 0x0FFFFFF8 ≤ word.toNat ∧ word.toNat < 2 ^ 31 := by
  have small := word.isLt
  rw [BitVec.sle_iff_toInt_le, show (0x0FFFFFF8 : BitVec 32).toInt = 0x0FFFFFF8 by decide,
    BitVec.toInt_eq_toNat_cond]
  split <;> omega

/-- The image with other reserved bits in the entry of a cluster. -/
def setReserved (disk : Disk) (bpb : Bpb) (cluster : BitVec 32) (bits : BitVec 4) : Disk :=
  fun sector offset =>
    if sector = bpb.reservedSectors.toNat + 4096 + cluster.toNat / 128 ∧
        offset = 4 * (cluster.toNat % 128) + 3 then
      bits ++ (disk sector offset).extractLsb' 0 4
    else disk sector offset

section SetReserved

variable (disk : Disk) (bpb : Bpb) (cluster : BitVec 32) (bits : BitVec 4)

theorem sameButReserved_setReserved (fats : 1 ≤ bpb.fatCount.toNat) (onVolume : OnVolume bpb cluster) :
    SameButReserved bpb disk (setReserved disk bpb cluster bits) := by
  refine ⟨fun sector offset _ => ?_, fun sector offset _ outside => if_neg (fun here => outside ?_)⟩
  · unfold setReserved
    split
    · exact BitVec.extractLsb'_append_eq_right
    · rfl
  · rcases here with ⟨rfl, rfl⟩
    have inFirst := Nat.le_mul_of_pos_left bpb.sectorsPerFat.toNat fats
    have entry := onVolume.entry
    exact ⟨⟨by omega, by omega⟩, by omega⟩

/-- The bits are those of the entry. -/
theorem fatEntry_setReserved :
    (fatEntry (setReserved disk bpb cluster bits) bpb cluster).toNat / 2 ^ 28 = bits.toNat := by
  have top : setReserved disk bpb cluster bits (bpb.reservedSectors.toNat + 4096 + cluster.toNat / 128)
      (4 * (cluster.toNat % 128) + 3) = bits ++ (disk
        (bpb.reservedSectors.toNat + 4096 + cluster.toNat / 128)
        (4 * (cluster.toNat % 128) + 3)).extractLsb' 0 4 := if_pos ⟨rfl, rfl⟩
  unfold fatEntry wordAt
  rw [top]
  simp only [Word.toNat_append]
  omega

/-- Reserved bits end the chain, unless the highest one is among them. -/
theorem endOfChain_setReserved (some : 1 ≤ bits.toNat) :
    (0x0FFFFFF8 : BitVec 32).sle (fatEntry (setReserved disk bpb cluster bits) bpb cluster) = true ↔
      bits.toNat < 8 := by
  have top := fatEntry_setReserved disk bpb cluster bits
  rw [endOfChain_iff]
  omega

end SetReserved

/-! ## The first byte of a call -/

section FirstByte

variable {disk : Disk} {fat : Fat} {cluster size : BitVec 32} {buffer fuel : Nat} {bytes : Bytes}
  {after : Fat × Bytes}

/-- Nothing in front of the buffer is written. -/
theorem readFile_below {addr : Nat}
    (result : readFile disk fuel cluster size buffer (fat, bytes) = some after) (below : addr < buffer) :
    after.2 addr = bytes addr := by
  induction fuel generalizing cluster size buffer fat bytes with
  | zero => cases result
  | succ fuel inductionHypothesis =>
      simp only [readFile] at result
      split at result
      · rw [← Option.some.inj result]
      · split at result
        · cases result
        · split at result
          · rw [inductionHypothesis result (by omega)]
            exact memcpy_of_outside buffer _ bytes (Or.inl below)
          · rw [← Option.some.inj result]
            exact memcpy_of_outside buffer _ bytes (Or.inl below)

/-- The first byte of what is asked for comes from the cluster, unless the
cluster ends the chain. -/
theorem readFile_firstByte (positive : 1 ≤ fat.mBpb.sectorsPerCluster.toNat)
    (nonempty : 0 < size.toNat)
    (result : readFile disk fuel cluster size buffer (fat, bytes) = some after) :
    after.2 buffer = if (0x0FFFFFF8 : BitVec 32).sle cluster then bytes buffer
      else disk (clusterSector fat.mBpb cluster).toNat 0 := by
  have inCluster : 0 < fat.mBpb.sectorsPerCluster.toNat * 512 := by omega
  have firstByte : (loadCluster disk cluster fat).mClusterBuffer 0 =
      disk (clusterSector fat.mBpb cluster).toNat 0 := by
    simp only [loadCluster, Ata.readSectors, if_pos inCluster, Nat.zero_div, Nat.zero_mod,
      Nat.add_zero]
  have copied : ∀ count, 0 < count →
      memcpy buffer (loadCluster disk cluster fat).mClusterBuffer count bytes buffer =
        disk (clusterSector fat.mBpb cluster).toNat 0 := by
    intro count some
    rw [← firstByte]
    exact memcpy_copied buffer _ bytes some
  have cluster_pos : 0 < (clusterSize fat.mBpb).toNat := by
    rw [clusterSize_toNat]
    unfold clusterBytes
    omega
  cases fuel with
  | zero => cases result
  | succ fuel =>
      simp only [readFile] at result
      split at result
      · rename_i ended
        rw [if_pos ended, ← Option.some.inj result]
      · rename_i goesOn
        rw [if_neg goesOn]
        split at result
        · cases result
        · split at result
          · rw [readFile_below result (by omega)]
            exact copied _ cluster_pos
          · rw [← Option.some.inj result]
            exact copied _ nonempty

/-- What becomes of the first byte behind the first cluster of a larger file.  It
stays when the entry that is followed ends the chain. -/
def secondCluster (disk : Disk) (bpb : Bpb) (cluster : BitVec 32) (held : BitVec 8) : BitVec 8 :=
  if (0x0FFFFFF8 : BitVec 32).sle (fatEntry disk bpb cluster) then held
  else disk (clusterSector bpb (fatEntry disk bpb cluster)).toNat 0

/-- When one image ends the chain there and the other one does not, some byte
tells them apart. -/
theorem secondCluster_ne {other : Disk} {bpb : Bpb}
    (ended : (0x0FFFFFF8 : BitVec 32).sle (fatEntry disk bpb cluster) = true)
    (goesOn : ¬ (0x0FFFFFF8 : BitVec 32).sle (fatEntry other bpb cluster) = true) :
    ∃ held, secondCluster disk bpb cluster held ≠ secondCluster other bpb cluster held := by
  refine ⟨other (clusterSector bpb (fatEntry other bpb cluster)).toNat 0 + 1, fun same => ?_⟩
  rw [secondCluster, secondCluster, if_pos ended, if_neg goesOn] at same
  bv_omega

theorem readFile_secondCluster (faithful : Faithful disk fat)
    (positive : 1 ≤ fat.mBpb.sectorsPerCluster.toNat) (fits : fat.mBpb.sectorsPerCluster.toNat ≤ 64)
    (addressable : Addressable fat.mBpb cluster) (larger : clusterBytes fat.mBpb < size.toNat)
    (result : readFile disk (fuel + 1) cluster size buffer (fat, bytes) = some after) :
    after.2 (buffer + clusterBytes fat.mBpb) =
      secondCluster disk fat.mBpb cluster (bytes (buffer + clusterBytes fat.mBpb)) := by
  have loaded : Faithful disk (loadCluster disk cluster fat) := ⟨faithful.distinct, faithful.holds⟩
  have next : (getNextCluster disk cluster (loadCluster disk cluster fat)).1 =
      fatEntry disk fat.mBpb cluster := loaded.getNextCluster_fst cluster
  have same : (getNextCluster disk cluster (loadCluster disk cluster fat)).2.mBpb = fat.mBpb :=
    getNextCluster_mBpb disk cluster _
  have left : 0 < (size - clusterSize fat.mBpb).toNat := by
    rw [BitVec.toNat_sub_of_le (BitVec.le_def.mpr (by rw [clusterSize_toNat]; omega)),
      clusterSize_toNat]
    omega
  have untouched : memcpy buffer (loadCluster disk cluster fat).mClusterBuffer
      (clusterBytes fat.mBpb) bytes (buffer + clusterBytes fat.mBpb) =
        bytes (buffer + clusterBytes fat.mBpb) :=
    memcpy_of_outside buffer _ bytes (Or.inr (Nat.le_refl _))
  rw [readFile_more addressable fits larger] at result
  have first := readFile_firstByte (by rw [same]; exact positive) left result
  rw [next, same, untouched] at first
  exact first

end FirstByte

/-! ## Exactly the small files -/

section Exactly

variable {disk other : Disk} {locals : Nat → Locals} {path : List (BitVec 8)} {entry : DirEntry}

/-- A driver with an empty cache. -/
theorem prepared_new (disk : Disk) (locals : Nat → Locals) :
    Prepared disk locals ⟨new disk fun _ => 0, locals⟩ :=
  ⟨Faithful.of_zeroed fun _ => rfl, rfl, rfl⟩

/-- When the file ends in its first cluster, `read_file` depends on no entry. -/
theorem readFile_firstCluster {fat : Fat} {cluster size : BitVec 32} {buffer fuel : Nat} {bytes : Bytes}
    (fits : fat.mBpb.sectorsPerCluster.toNat ≤ 64) (small : size.toNat ≤ clusterBytes fat.mBpb) :
    (readFile disk (fuel + 1) cluster size buffer (fat, bytes)).map Prod.snd =
      some (if (0x0FFFFFF8 : BitVec 32).sle cluster then bytes
        else memcpy buffer (loadCluster disk cluster fat).mClusterBuffer size.toNat bytes) := by
  have room : ¬ clusterBufferSize < fat.mBpb.sectorsPerCluster.toNat * 512 := by
    unfold clusterBufferSize
    omega
  have noMore : ¬ clusterSize fat.mBpb < size := by
    rw [BitVec.lt_def, clusterSize_toNat]
    exact Nat.not_lt.mpr small
  by_cases ended : (0x0FFFFFF8 : BitVec 32).sle cluster = true
  · simp only [readFile, if_pos ended, Option.map_some]
  · simp only [readFile, if_neg ended, if_neg room, if_neg noMore, Option.map_some]

theorem clusterFits_of_isVolume {bpb : Bpb} (volume : IsVolume bpb) : ClusterFits bpb := by
  have fits := volume.fits
  unfold ClusterFits clusterBufferSize
  omega

/-- On an image that differs in reserved bits `get_file` writes what `read_file`
does for the same entry. -/
theorem getFile_onOther (volume : IsVolume (geometry disk))
    (resolves : Resolves disk (geometry disk) locals path none entry)
    (same : SameButReserved (geometry disk) disk other) {driver : Driver}
    (prepared : Prepared other locals driver) (lookup : Lookup) :
    ∃ fat, Faithful other fat ∧ fat.mBpb = geometry disk ∧ ∀ (buffer : Nat) (bytes : Bytes),
      (getFile other path buffer ((driver, lookup), bytes)).map Prod.snd =
        (readFile other (entry.fileSize.toNat + 1) entry.cluster entry.fileSize buffer
          (fat, bytes)).map Prod.snd := by
  have bpbs := same.geometry_eq volume.reserved
  have onOther := resolves.onOther same volume.positive
  rw [← bpbs] at volume onOther ⊢
  exact getFile_resolves prepared (clusterFits_of_isVolume volume) onOther

theorem immaterial_of_small (volume : IsVolume (geometry disk))
    (resolves : Resolves disk (geometry disk) locals path none entry)
    (first : 0 < entry.fileSize.toNat → OnVolume (geometry disk) entry.cluster)
    (small : entry.fileSize.toNat ≤ clusterBytes (geometry disk)) : Immaterial disk locals path := by
  intro other same one two prepared preparedOther lookup lookupOther buffer bytes
  rcases getFile_onOther volume resolves (SameButReserved.refl _ disk) prepared lookup with
    ⟨fat, _, bpb, written⟩
  rcases getFile_onOther volume resolves same preparedOther lookupOther with
    ⟨fatOther, _, bpbOther, writtenOther⟩
  rw [written, writtenOther, readFile_firstCluster (bpb ▸ volume.fits) (bpb ▸ small),
    readFile_firstCluster (bpbOther ▸ volume.fits) (bpbOther ▸ small)]
  -- What is copied of the first cluster is data, and the same on both images.
  have copied := memcpy_congr buffer bytes (fun offset (inside : offset < entry.fileSize.toNat) =>
    show (loadCluster disk entry.cluster fat).mClusterBuffer offset =
        (loadCluster other entry.cluster fatOther).mClusterBuffer offset by
      have inCluster : offset < (geometry disk).sectorsPerCluster.toNat * 512 :=
        Nat.lt_of_lt_of_le inside small
      simp only [loadCluster, Ata.readSectors, bpb, bpbOther, if_pos inCluster]
      exact (same.data (first (by omega)).toAddressable volume.positive offset).symm)
  rw [copied]

/-- The size bounds the calls of `read_file`. -/
theorem needed_le {bpb : Bpb} (positive : 1 ≤ bpb.sectorsPerCluster.toNat) (size : Nat) :
    needed bpb size ≤ size + 1 := by
  have nonempty : 1 ≤ clusterBytes bpb := by
    unfold clusterBytes
    omega
  have product : size ≤ clusterBytes bpb * size := Nat.le_mul_of_pos_left size nonempty
  refine Nat.max_le.mpr ⟨by omega, Nat.div_le_of_le_mul ?_⟩
  rw [Nat.mul_add, Nat.mul_one]
  omega

/-- A file that is larger than a cluster is read up to the second one. -/
theorem getFile_secondCluster (volume : IsVolume (geometry disk))
    (resolves : Resolves disk (geometry disk) locals path none entry)
    (inData : Addressable (geometry disk) entry.cluster)
    (larger : clusterBytes (geometry disk) < entry.fileSize.toNat)
    (same : SameButReserved (geometry disk) disk other) {driver : Driver}
    (prepared : Prepared other locals driver) (lookup : Lookup) (buffer : Nat) (bytes : Bytes) :
    ∃ after : Bytes, (getFile other path buffer ((driver, lookup), bytes)).map Prod.snd = some after ∧
      after (buffer + clusterBytes (geometry disk)) = secondCluster other (geometry disk) entry.cluster
        (bytes (buffer + clusterBytes (geometry disk))) := by
  rcases getFile_onOther volume resolves same prepared lookup with ⟨fat, faithful, bpb, written⟩
  rw [← bpb] at volume inData larger ⊢
  rcases readFile_contained other volume.positive volume.fits entry.cluster entry.fileSize buffer bytes
    (needed_le volume.positive _) with ⟨after, _, _, result, _⟩
  refine ⟨after.2, ?_, ?_⟩
  · rw [written, result, Option.map_some]
  · exact readFile_secondCluster faithful volume.positive volume.fits inData larger result

/-- A larger file comes out differently when the entry of its first cluster has
other reserved bits. -/
theorem small_of_immaterial (volume : IsVolume (geometry disk))
    (resolves : Resolves disk (geometry disk) locals path none entry)
    (first : 0 < entry.fileSize.toNat → OnVolume (geometry disk) entry.cluster)
    (immaterial : Immaterial disk locals path) :
    entry.fileSize.toNat ≤ clusterBytes (geometry disk) := by
  apply Nat.not_lt.mp
  intro larger
  have onVolume := first (by omega)
  -- The byte behind the first cluster comes out the same, whatever was there.
  have agree : ∀ bits held, secondCluster disk (geometry disk) entry.cluster held =
      secondCluster (setReserved disk (geometry disk) entry.cluster bits) (geometry disk) entry.cluster
        held := by
    intro bits held
    have same := sameButReserved_setReserved disk _ _ bits volume.fats onVolume
    generalize setReserved disk (geometry disk) entry.cluster bits = other at same ⊢
    have lookup : Lookup := ⟨[], ⟨fun _ => 0, fun _ => 0⟩⟩
    rcases getFile_secondCluster volume resolves onVolume.toAddressable larger
      (SameButReserved.refl _ disk) (prepared_new disk locals) lookup 0 (fun _ => held) with
      ⟨one, result, value⟩
    rcases getFile_secondCluster volume resolves onVolume.toAddressable larger same
      (prepared_new other locals) lookup 0 (fun _ => held) with ⟨two, resultOther, valueOther⟩
    have both := immaterial other same _ _ (prepared_new disk locals) (prepared_new other locals)
      lookup lookup 0 (fun _ => held)
    rw [result, resultOther] at both
    rw [← Option.some.inj both, value] at valueOther
    exact valueOther
  by_cases ended : (0x0FFFFFF8 : BitVec 32).sle (fatEntry disk (geometry disk) entry.cluster) = true
  · have goesOn := mt (endOfChain_setReserved disk (geometry disk) entry.cluster 8 (by decide)).mp
      (by decide)
    rcases secondCluster_ne ended goesOn with ⟨held, different⟩
    exact different (agree 8 held)
  · have endsOther := (endOfChain_setReserved disk (geometry disk) entry.cluster 1 (by decide)).mpr
      (by decide)
    rcases secondCluster_ne endsOther ended with ⟨held, different⟩
    exact different (agree 1 held).symm

/-- The reserved bits do not matter exactly for the files that end in their
first cluster. -/
theorem immaterial_iff (volume : IsVolume (geometry disk))
    (resolves : Resolves disk (geometry disk) locals path none entry)
    (first : 0 < entry.fileSize.toNat → OnVolume (geometry disk) entry.cluster) :
    Immaterial disk locals path ↔ entry.fileSize.toNat ≤ clusterBytes (geometry disk) :=
  ⟨small_of_immaterial volume resolves first, immaterial_of_small volume resolves first⟩

/-- A volume whose root has a file `F` of 600 bytes, with a long name, in the
clusters 3 and 4. -/
def secondClusterFile : Disk := fun sector offset =>
  if sector = 4096 then
    if offset = 44 then 2
    else if offset = 13 ∨ offset = 14 ∨ offset = 16 ∨ offset = 36 then 1 else 0
  else if sector = 4097 then if offset = 12 then 4 else 0
  else if sector = 4098 then
    if offset = 0 then 0x41 else if offset = 11 then 0x0f
    else if offset = 1 ∨ offset = 32 then chr 'F' else if offset = 58 then 3
    else if offset = 60 then 0x58 else if offset = 61 then 2 else 0
  else BitVec.ofNat 8 (sector + offset)

/-- The entry of the file. -/
def secondClusterEntry : DirEntry := diskEntry secondClusterFile (geometry secondClusterFile) 2 1

theorem isVolume_secondClusterFile : IsVolume (geometry secondClusterFile) :=
  ⟨by decide, by decide, by decide, by decide⟩

theorem resolves_secondClusterFile (locals : Nat → Locals) :
    Resolves secondClusterFile (geometry secondClusterFile) locals (textOf "F") none
      secondClusterEntry := by
  have determinate : Determinate secondClusterFile (geometry secondClusterFile) none (textOf "F")
      (some secondClusterEntry) := fun _ => rfl
  rcases Option.map_eq_some_iff.mp (determinate (locals 0)) with ⟨parsed, found, dirent⟩
  rcases Option.map_eq_some_iff.mp dirent with ⟨pde, rfl, same⟩
  rw [← same]
  exact Resolves.last ⟨by decide, by decide, by decide⟩ found (by decide)

theorem onVolume_secondClusterFile :
    OnVolume (geometry secondClusterFile) secondClusterEntry.cluster :=
  ⟨⟨by decide, by decide, by decide⟩, by decide⟩

theorem immaterial_iff_secondClusterFile :
    ¬ Immaterial secondClusterFile (fun _ => ⟨fun _ => 0, fun _ _ => 0⟩) (textOf "F") :=
  (immaterial_iff isVolume_secondClusterFile (resolves_secondClusterFile _)
    (fun _ => onVolume_secondClusterFile)).not.mpr (by decide)

/-- The system before the first call, with nothing but zeros in memory. -/
def zeroBoot (disk : Disk) : System :=
  boot disk (fun _ => 0) (fun _ => ⟨fun _ => 0, fun _ _ => 0⟩) (fun _ => 0)

/-- With a reserved bit in the entry of cluster 3 the second cluster of the file
does not arrive. -/
theorem getFile_reservedBit :
    let other := setReserved secondClusterFile (geometry secondClusterFile) 3 1
    SameButReserved (geometry secondClusterFile) secondClusterFile other ∧
      (∃ after : Bytes, (getFile secondClusterFile (textOf "F") 0 (zeroBoot secondClusterFile)).map
        Prod.snd = some after ∧ after 512 = 4) ∧
      ∃ after : Bytes, (getFile other (textOf "F") 0 (zeroBoot other)).map Prod.snd = some after ∧
        after 512 = 0 := by
  intro other
  have volume := isVolume_secondClusterFile
  have onVolume := onVolume_secondClusterFile
  have same : SameButReserved (geometry secondClusterFile) secondClusterFile other :=
    sameButReserved_setReserved secondClusterFile _ _ 1 volume.fats onVolume
  have resolves := resolves_secondClusterFile fun _ => ⟨fun _ => 0, fun _ _ => 0⟩
  refine ⟨same, ?_, ?_⟩
  · rcases getFile_secondCluster volume resolves onVolume.toAddressable (by decide)
      (SameButReserved.refl _ _) (prepared_new secondClusterFile _) ⟨[], ⟨fun _ => 0, fun _ => 0⟩⟩ 0
      (fun _ => 0) with ⟨after, result, value⟩
    exact ⟨after, result, value.trans (by decide +kernel)⟩
  · rcases getFile_secondCluster volume resolves onVolume.toAddressable (by decide) same
      (prepared_new other _) ⟨[], ⟨fun _ => 0, fun _ => 0⟩⟩ 0 (fun _ => 0) with ⟨after, result, value⟩
    exact ⟨after, result, value.trans (by decide +kernel)⟩

end Exactly

/-! ## Chains without reserved bits -/

section Chains

variable {disk other : Disk} {bpb : Bpb}

/-- The contents of a chain are data. -/
theorem SameButReserved.contents_eq (same : SameButReserved bpb disk other)
    {clusters : List (BitVec 32)} : contents other bpb clusters = contents disk bpb clusters := by
  unfold contents
  congr 1
  funext cluster
  refine slice_congr (fun offset _ => same.behind ?_ (Nat.mod_lt _ (by decide)))
  unfold firstSector
  omega

theorem le_needed_mul (positive : 1 ≤ bpb.sectorsPerCluster.toNat) (size : Nat) :
    size ≤ needed bpb size * clusterBytes bpb := by
  have nonempty : 0 < clusterBytes bpb := by
    unfold clusterBytes
    omega
  have ceiling := Nat.lt_mul_of_div_lt
    (Nat.lt_succ_of_le (Nat.le_max_right 1 ((size + (clusterBytes bpb - 1)) / clusterBytes bpb))) nonempty
  rw [Nat.succ_mul] at ceiling
  unfold needed
  omega

/-- What two runs deliver from the same contents is the same. -/
theorem Delivers.unique {clusters : List (BitVec 32)} {buffer size : Nat} {before one two : Bytes}
    (same : SameButReserved bpb disk other)
    (delivers : Delivers disk bpb clusters buffer size before one)
    (deliversOther : Delivers other bpb clusters buffer size before two) : one = two := by
  have arrived : slice one buffer size = slice two buffer size := by
    rw [delivers.arrived, deliversOther.arrived, same.contents_eq]
  funext addr
  by_cases inside : buffer ≤ addr ∧ addr < buffer + size
  · have here := List.map_inj_left.mp arrived (addr - buffer) (List.mem_range.mpr (by omega))
    rwa [Nat.add_sub_cancel' inside.1] at here
  · rw [delivers.others addr (by omega), deliversOther.others addr (by omega)]

/-- On a pair of images whose FATs link the clusters of the file alike, without
reserved bits, the reserved bits of the other entries do not matter. -/
theorem getFile_of_linked {locals : Nat → Locals} {path : List (BitVec 8)} {entry : DirEntry}
    (volume : IsVolume (geometry disk))
    (resolves : Resolves disk (geometry disk) locals path none entry)
    (same : SameButReserved (geometry disk) disk other) {rest : List (BitVec 32)}
    (linked : Linked disk (geometry disk) (entry.cluster :: rest))
    (linkedOther : Linked other (geometry disk) (entry.cluster :: rest))
    (addressable : ∀ cluster ∈ entry.cluster :: rest, Addressable (geometry disk) cluster)
    (length : (entry.cluster :: rest).length = needed (geometry disk) entry.fileSize.toNat)
    {one two : Driver} (prepared : Prepared disk locals one) (preparedOther : Prepared other locals two)
    (lookup lookupOther : Lookup) (buffer : Nat) (bytes : Bytes) :
    (getFile disk path buffer ((one, lookup), bytes)).map Prod.snd =
      (getFile other path buffer ((two, lookupOther), bytes)).map Prod.snd := by
  rcases getFile_onOther volume resolves (SameButReserved.refl _ disk) prepared lookup with
    ⟨fat, faithful, bpb, written⟩
  rcases getFile_onOther volume resolves same preparedOther lookupOther with
    ⟨fatOther, faithfulOther, bpbOther, writtenOther⟩
  have enough := le_needed_mul volume.positive entry.fileSize.toNat
  have fueled := needed_le volume.positive entry.fileSize.toNat
  rw [← length, List.length_cons] at enough fueled
  have delivered : ∃ after, readFile disk (entry.fileSize.toNat + 1) entry.cluster entry.fileSize buffer
      (fat, bytes) = some after ∧ Delivers disk (geometry disk) (entry.cluster :: rest) buffer
        entry.fileSize.toNat bytes after.2 :=
    readFile_delivers volume.positive volume.fits linked addressable bpb faithful enough fueled
  have deliveredOther : ∃ after, readFile other (entry.fileSize.toNat + 1) entry.cluster entry.fileSize
      buffer (fatOther, bytes) = some after ∧ Delivers other (geometry disk) (entry.cluster :: rest)
        buffer entry.fileSize.toNat bytes after.2 :=
    readFile_delivers volume.positive volume.fits linkedOther addressable bpbOther faithfulOther enough
      fueled
  rcases delivered with ⟨after, result, delivers⟩
  rcases deliveredOther with ⟨afterOther, resultOther, deliversOther⟩
  rw [written, writtenOther, result, resultOther, Option.map_some, Option.map_some,
    delivers.unique same deliversOther]

end Chains

end Fat

end WeakOS
