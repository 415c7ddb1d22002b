import Mathlib
import WeakOS.Fat.Transparency

namespace WeakOS

namespace Fat

/-!
# Reading a file

`read_file` copies one cluster after the other through a buffer of the object
and looks up the next cluster in between.  The induction is on the chain: one
call copies the first cluster, or what is wanted of it, and leaves the rest of
the chain with the rest of the size to the next call.
-/

/-- The first sector of a cluster, without overflow. -/
def firstSector (bpb : Bpb) (cluster : BitVec 32) : Nat :=
  4096 + bpb.reservedSectors.toNat + bpb.fatCount.toNat * bpb.sectorsPerFat.toNat +
    (cluster.toNat - 2) * bpb.sectorsPerCluster.toNat

/-- The bytes of a cluster on the disk. -/
def clusterData (disk : Disk) (bpb : Bpb) (cluster : BitVec 32) : Bytes :=
  fun offset => disk (firstSector bpb cluster + offset / 512) (offset % 512)

/-- The number of bytes of a cluster. -/
def clusterBytes (bpb : Bpb) : Nat := bpb.sectorsPerCluster.toNat * 512

/-- The contents of a chain of clusters. -/
def contents (disk : Disk) (bpb : Bpb) (clusters : List (BitVec 32)) : List (BitVec 8) :=
  clusters.flatMap (fun cluster => slice (clusterData disk bpb cluster) 0 (clusterBytes bpb))

/-- A data cluster whose sectors have numbers of 32 bits. -/
structure Addressable (bpb : Bpb) (cluster : BitVec 32) : Prop where
  first : 2 ≤ cluster.toNat
  last : cluster.toNat < 0x0FFFFFF7
  sectors : firstSector bpb cluster + bpb.sectorsPerCluster.toNat ≤ 2 ^ 32

/-- The FAT entry of each cluster is the next one.  Nothing is said about the
entry of the last. -/
def Linked (disk : Disk) (bpb : Bpb) (clusters : List (BitVec 32)) : Prop :=
  clusters.IsChain (fun cluster next => fatEntry disk bpb cluster = next)

/-- The states of the object: the cache starts zeroed, `get_next_cluster` is
called, and any code may have left anything in the cluster buffer. -/
inductive Reachable (disk : Disk) : Fat → Prop where
  | zeroed (fat : Fat) (zeroed : ∀ slot, fat.mFat slot = FatBlock.zero) : Reachable disk fat
  | called (fat : Fat) (cluster : BitVec 32) (reachable : Reachable disk fat) :
      Reachable disk (getNextCluster disk cluster fat).2
  | buffered (fat : Fat) (clusterBuffer : Bytes) (reachable : Reachable disk fat) :
      Reachable disk { fat with mClusterBuffer := clusterBuffer }

section Arithmetic

variable {bpb : Bpb} {cluster : BitVec 32}

theorem clusterSize_toNat (bpb : Bpb) : (clusterSize bpb).toNat = clusterBytes bpb := by
  have small := bpb.sectorsPerCluster.isLt
  unfold clusterSize clusterBytes
  rw [BitVec.toNat_mul, BitVec.toNat_setWidth, show (0x200 : BitVec 32).toNat = 512 by decide,
    Nat.mod_eq_of_lt (by omega : bpb.sectorsPerCluster.toNat < 2 ^ 32), Nat.mod_eq_of_lt (by omega)]

/-- The sector number is computed modulo `2 ^ 32`. -/
theorem clusterSector_eq (above : 2 ≤ cluster.toNat) :
    clusterSector bpb cluster = BitVec.ofNat 32 (firstSector bpb cluster) := by
  have behind : cluster - 2 = BitVec.ofNat 32 (cluster.toNat - 2) := by
    bv_omega
  unfold clusterSector firstSector
  rw [behind]
  simp only [BitVec.ofNat_add, BitVec.ofNat_mul, BitVec.ofNat_toNat, BitVec.setWidth_eq,
    BitVec.ofNat_eq_ofNat]
  ac_rfl

/-- Without overflow the computed sector is the first one of the cluster. -/
theorem clusterSector_toNat (addressable : Addressable bpb cluster)
    (positive : 1 ≤ bpb.sectorsPerCluster.toNat) :
    (clusterSector bpb cluster).toNat = firstSector bpb cluster := by
  have sectors := addressable.sectors
  rw [clusterSector_eq addressable.first, BitVec.toNat_ofNat, Nat.mod_eq_of_lt (by omega)]

/-- The signed comparison lets a data cluster pass. -/
theorem not_endOfChain (addressable : Addressable bpb cluster) :
    ¬ (0x0FFFFFF8 : BitVec 32).sle cluster = true := by
  have last := addressable.last
  have value : cluster.toInt = cluster.toNat := BitVec.toInt_eq_toNat_of_lt (by omega)
  rw [BitVec.sle_iff_toInt_le, value, show (0x0FFFFFF8 : BitVec 32).toInt = 0x0FFFFFF8 by decide]
  omega

end Arithmetic

/-! ## One call -/

section Call

variable {disk : Disk} {fat : Fat} {cluster size : BitVec 32} {buffer fuel : Nat} {bytes : Bytes}

/-- What is loaded is the cluster. -/
theorem slice_loadCluster (disk : Disk) (addressable : Addressable fat.mBpb cluster)
    (positive : 1 ≤ fat.mBpb.sectorsPerCluster.toNat) {count : Nat}
    (within : count ≤ clusterBytes fat.mBpb) :
    slice (loadCluster disk cluster fat).mClusterBuffer 0 count =
      slice (clusterData disk fat.mBpb cluster) 0 count := by
  refine slice_congr (fun offset inside => ?_)
  have inCluster : offset < fat.mBpb.sectorsPerCluster.toNat * 512 := Nat.lt_of_lt_of_le inside within
  rw [Nat.zero_add, clusterData, ← clusterSector_toNat addressable positive]
  exact if_pos inCluster

/-- The last call copies what is left. -/
theorem readFile_last (addressable : Addressable fat.mBpb cluster)
    (fits : fat.mBpb.sectorsPerCluster.toNat ≤ 64) (last : size.toNat ≤ clusterBytes fat.mBpb) :
    readFile disk (fuel + 1) cluster size buffer (fat, bytes) =
      some (loadCluster disk cluster fat,
        memcpy buffer (loadCluster disk cluster fat).mClusterBuffer size.toNat bytes) := by
  have room : ¬ clusterBufferSize < fat.mBpb.sectorsPerCluster.toNat * 512 := by
    unfold clusterBufferSize
    omega
  have noMore : ¬ clusterSize fat.mBpb < size := by
    rw [BitVec.lt_def, clusterSize_toNat]
    exact Nat.not_lt.mpr last
  simp only [readFile, if_neg (not_endOfChain addressable), if_neg room, if_neg noMore]

/-- The other calls copy a cluster and continue with the next one. -/
theorem readFile_more (addressable : Addressable fat.mBpb cluster)
    (fits : fat.mBpb.sectorsPerCluster.toNat ≤ 64) (more : clusterBytes fat.mBpb < size.toNat) :
    readFile disk (fuel + 1) cluster size buffer (fat, bytes) =
      readFile disk fuel (getNextCluster disk cluster (loadCluster disk cluster fat)).1
        (size - clusterSize fat.mBpb) (buffer + clusterBytes fat.mBpb)
        ((getNextCluster disk cluster (loadCluster disk cluster fat)).2,
          memcpy buffer (loadCluster disk cluster fat).mClusterBuffer (clusterBytes fat.mBpb) bytes) := by
  have room : ¬ clusterBufferSize < fat.mBpb.sectorsPerCluster.toNat * 512 := by
    unfold clusterBufferSize
    omega
  have goesOn : clusterSize fat.mBpb < size := by
    rw [BitVec.lt_def, clusterSize_toNat]
    exact more
  simp only [readFile, if_neg (not_endOfChain addressable), if_neg room, if_pos goesOn,
    clusterSize_toNat]

end Call

/-! ## Reachable states -/

section Reachable

variable {disk : Disk} {fat : Fat}

theorem Reachable.faithful (reachable : Reachable disk fat) : Faithful disk fat := by
  induction reachable with
  | zeroed fat zeroed => exact Faithful.of_zeroed zeroed
  | called fat cluster _ inductionHypothesis => exact inductionHypothesis.getNextCluster cluster
  | buffered fat clusterBuffer _ inductionHypothesis =>
      exact ⟨inductionHypothesis.distinct, inductionHypothesis.holds⟩

/-- Reading a file stays within the reachable states. -/
theorem Reachable.readFile {fuel : Nat} {cluster size : BitVec 32} {buffer : Nat} {bytes : Bytes}
    {after : Fat × Bytes} (reachable : Reachable disk fat)
    (result : readFile disk fuel cluster size buffer (fat, bytes) = some after) :
    Reachable disk after.1 := by
  induction fuel generalizing cluster size buffer fat bytes with
  | zero => cases result
  | succ fuel inductionHypothesis =>
      have loaded : Reachable disk (loadCluster disk cluster fat) := Reachable.buffered fat _ reachable
      simp only [Fat.readFile] at result
      split at result
      · exact Option.some.inj result ▸ reachable
      · split at result
        · cases result
        · split at result
          · exact inductionHypothesis (Reachable.called _ cluster loaded) result
          · exact Option.some.inj result ▸ loaded

end Reachable

/-! ## The whole file -/

section Chain

variable {disk : Disk} {bpb : Bpb}

theorem contents_cons (cluster : BitVec 32) (rest : List (BitVec 32)) :
    contents disk bpb (cluster :: rest) =
      slice (clusterData disk bpb cluster) 0 (clusterBytes bpb) ++ contents disk bpb rest :=
  List.flatMap_cons

/-- What a call has to achieve: the contents arrive, and nothing else changes. -/
structure Delivers (disk : Disk) (bpb : Bpb) (clusters : List (BitVec 32)) (buffer size : Nat)
    (before after : Bytes) : Prop where
  arrived : slice after buffer size = (contents disk bpb clusters).take size
  others : ∀ addr, addr < buffer ∨ buffer + size ≤ addr → after addr = before addr

variable {fat : Fat} {first : BitVec 32} {rest : List (BitVec 32)} {buffer size : Nat}
  {bytes after : Bytes}

/-- The contents end in the first cluster. -/
theorem Delivers.last (positive : 1 ≤ fat.mBpb.sectorsPerCluster.toNat)
    (addressable : Addressable fat.mBpb first) (last : size ≤ clusterBytes fat.mBpb) :
    Delivers disk fat.mBpb (first :: rest) buffer size bytes
      (memcpy buffer (loadCluster disk first fat).mClusterBuffer size bytes) := by
  refine ⟨?_, fun addr outside => memcpy_of_outside buffer _ bytes outside⟩
  rw [slice_memcpy, slice_loadCluster disk addressable positive last, contents_cons,
    List.take_append_of_le_length (by rwa [length_slice]), take_slice last]

/-- The contents go on behind the first cluster. -/
theorem Delivers.more (positive : 1 ≤ fat.mBpb.sectorsPerCluster.toNat)
    (addressable : Addressable fat.mBpb first)
    (later : Delivers disk fat.mBpb rest (buffer + clusterBytes fat.mBpb) size
      (memcpy buffer (loadCluster disk first fat).mClusterBuffer (clusterBytes fat.mBpb) bytes) after) :
    Delivers disk fat.mBpb (first :: rest) buffer (clusterBytes fat.mBpb + size) bytes after := by
  constructor
  · have copied : slice after buffer (clusterBytes fat.mBpb) =
        slice (clusterData disk fat.mBpb first) 0 (clusterBytes fat.mBpb) := by
      rw [← slice_loadCluster disk addressable positive (Nat.le_refl _), ← slice_memcpy buffer]
      exact slice_congr (fun offset inside => later.others _ (Or.inl (by omega)))
    have cut : ∀ whole : List (BitVec 8), whole.length = clusterBytes fat.mBpb →
        (whole ++ contents disk fat.mBpb rest).take (clusterBytes fat.mBpb + size) =
          whole ++ (contents disk fat.mBpb rest).take size :=
      fun whole length => length ▸ List.take_length_add_append size
    rw [slice_add, copied, later.arrived, contents_cons, cut _ length_slice]
  · intro addr outside
    rw [later.others addr (by omega)]
    exact memcpy_of_outside buffer _ bytes (by omega)

/-- Reading along a chain delivers the contents, and one call for each cluster
is enough. -/
theorem readFile_delivers (positive : 1 ≤ bpb.sectorsPerCluster.toNat)
    (fits : bpb.sectorsPerCluster.toNat ≤ 64) (linked : Linked disk bpb (first :: rest))
    (addressable : ∀ cluster ∈ first :: rest, Addressable bpb cluster) (geometry : fat.mBpb = bpb)
    (faithful : Faithful disk fat) {size : BitVec 32}
    (enough : size.toNat ≤ (rest.length + 1) * clusterBytes bpb) {fuel : Nat}
    (fueled : rest.length < fuel) :
    ∃ after, readFile disk fuel first size buffer (fat, bytes) = some after ∧
      Delivers disk bpb (first :: rest) buffer size.toNat bytes after.2 := by
  obtain ⟨fuel, rfl⟩ := Nat.exists_eq_add_of_le' (Nat.one_le_of_lt fueled)
  have inReach := addressable first List.mem_cons_self
  induction rest generalizing first fat size buffer bytes fuel with
  | nil =>
      subst geometry
      have last : size.toNat ≤ clusterBytes fat.mBpb := by
        rwa [List.length_nil, Nat.zero_add, Nat.one_mul] at enough
      exact ⟨_, readFile_last inReach fits last, Delivers.last positive inReach last⟩
  | cons next rest inductionHypothesis =>
      subst geometry
      by_cases last : size.toNat ≤ clusterBytes fat.mBpb
      · exact ⟨_, readFile_last inReach fits last, Delivers.last positive inReach last⟩
      · have more := Nat.not_le.mp last
        have left : (size - clusterSize fat.mBpb).toNat = size.toNat - clusterBytes fat.mBpb := by
          rw [BitVec.toNat_sub_of_le (BitVec.le_def.mpr (by rw [clusterSize_toNat]; omega)),
            clusterSize_toNat]
        have loaded : Faithful disk (loadCluster disk first fat) := ⟨faithful.distinct, faithful.holds⟩
        have found : (getNextCluster disk first (loadCluster disk first fat)).1 = next := by
          rw [loaded.getNextCluster_fst]
          exact (List.isChain_cons_cons.mp linked).1
        obtain ⟨less, rfl⟩ := Nat.exists_eq_add_of_le' (show 1 ≤ fuel by
          rw [List.length_cons] at fueled
          omega)
        have shorter : (size - clusterSize fat.mBpb).toNat ≤ (rest.length + 1) * clusterBytes fat.mBpb := by
          rw [List.length_cons, Nat.add_mul (rest.length + 1), Nat.one_mul] at enough
          omega
        rcases inductionHypothesis (List.isChain_cons_cons.mp linked).2
          (fun cluster member => addressable cluster (List.mem_cons_of_mem _ member))
          (getNextCluster_mBpb disk first (loadCluster disk first fat))
          (loaded.getNextCluster first) shorter less
          (by rw [List.length_cons] at fueled; omega)
          (addressable next (List.mem_cons_of_mem _ List.mem_cons_self)) with ⟨after, result, later⟩
        refine ⟨after, ?_, ?_⟩
        · rw [readFile_more inReach fits more, found]
          exact result
        · rw [left] at later
          have whole := Delivers.more positive inReach later
          rwa [Nat.add_sub_cancel' (Nat.le_of_lt more)] at whole

end Chain

/-- From every reachable state, a chain that is long enough is read into the
buffer: the contents arrive, nothing else changes, and one call for each
cluster of the chain is enough. -/
theorem readFile_contents {disk : Disk} {fat : Fat} (reachable : Reachable disk fat)
    (positive : 1 ≤ fat.mBpb.sectorsPerCluster.toNat) (fits : fat.mBpb.sectorsPerCluster.toNat ≤ 64)
    {first : BitVec 32} {rest : List (BitVec 32)} (linked : Linked disk fat.mBpb (first :: rest))
    (addressable : ∀ cluster ∈ first :: rest, Addressable fat.mBpb cluster) {size : BitVec 32}
    (enough : max 1 ((size.toNat + (clusterBytes fat.mBpb - 1)) / clusterBytes fat.mBpb) ≤
      (first :: rest).length) (buffer : Nat) (bytes : Bytes) {fuel : Nat}
    (fueled : (first :: rest).length ≤ fuel) :
    ∃ after, readFile disk fuel first size buffer (fat, bytes) = some after ∧
      slice after.2 buffer size.toNat =
        (contents disk fat.mBpb (first :: rest)).take size.toNat ∧
      ∀ addr, addr < buffer ∨ buffer + size.toNat ≤ addr → after.2 addr = bytes addr := by
  have nonempty : 0 < clusterBytes fat.mBpb := by
    unfold clusterBytes
    omega
  have covered : size.toNat ≤ (rest.length + 1) * clusterBytes fat.mBpb := by
    have ceiling := Nat.lt_mul_of_div_lt (Nat.lt_succ_of_le ((Nat.max_le.mp enough).2)) nonempty
    rw [List.length_cons, Nat.succ_mul] at ceiling
    omega
  rcases readFile_delivers positive fits linked addressable rfl reachable.faithful covered fueled with
    ⟨after, result, delivers⟩
  exact ⟨after, result, delivers.arrived, delivers.others⟩

/-- A volume with one FAT sector and clusters of one sector, on which cluster 3
follows cluster 2. -/
def twoClusters : Disk := fun sector offset =>
  if sector = 4096 then (if offset = 13 ∨ offset = 14 ∨ offset = 16 ∨ offset = 36 then 1 else 0)
  else if sector = 4097 then (if offset = 8 then 3 else 0)
  else BitVec.ofNat 8 (sector + offset)

theorem readFile_contents_twoClusters :
    let fat := new twoClusters (fun _ => 0)
    ∃ after, readFile twoClusters 2 2 600 0x40000000 (fat, fun _ => 0) = some after ∧
      slice after.2 0x40000000 600 = (contents twoClusters fat.mBpb [2, 3]).take 600 ∧
      ∀ addr, addr < 0x40000000 ∨ 0x40000000 + 600 ≤ addr → after.2 addr = 0 := by
  refine readFile_contents (Reachable.zeroed _ (fun _ => rfl)) (by decide) (by decide) ?_ ?_ ?_ _ _
    (Nat.le_refl _)
  · exact List.isChain_pair.mpr (by decide)
  · intro cluster member
    rcases List.mem_pair.mp member with rfl | rfl
    · exact ⟨by decide, by decide, by decide⟩
    · exact ⟨by decide, by decide, by decide⟩
  · decide

end Fat

end WeakOS
