import Mathlib
import WeakOS.Fat.ReadFile

namespace WeakOS

namespace Fat

/-!
# Reading from a corrupted volume

Nothing is assumed of the FAT here: its entries may be anything, and the chain
may be cyclic or leave the volume.  `read_file` is run once more with a record
of the clusters that it reads and of the bytes that it stores.  What bounds the
recursion is the size that is left, which every call but the last reduces by a
whole cluster while the destination moves on by as much.
-/

/-- The addresses that the loop of `memcpy` stores to, in order. -/
def copyStores (dest : Nat) : (left i : Nat) → List Nat
  | 0, _ => []
  | left + 1, i => (dest + i) :: copyStores dest left (i + 1)

/-- The loop of `memcpy` is the stores to these addresses. -/
theorem copyLoop_eq_foldl (src : Bytes) (dest left i : Nat) (bytes : Bytes) :
    copyLoop src dest left i bytes =
      (copyStores dest left i).foldl
        (fun bytes addr => Function.update bytes addr (src (addr - dest))) bytes := by
  induction left generalizing i bytes with
  | zero => rfl
  | succ left inductionHypothesis =>
      rw [copyLoop, inductionHypothesis, copyStores, List.foldl_cons, Nat.add_sub_cancel_left]

theorem mem_copyStores {dest left i addr : Nat} :
    addr ∈ copyStores dest left i ↔ dest + i ≤ addr ∧ addr < dest + i + left := by
  induction left generalizing i with
  | zero =>
      rw [copyStores]
      exact iff_of_false List.not_mem_nil (by omega)
  | succ left inductionHypothesis =>
      rw [copyStores, List.mem_cons, inductionHypothesis]
      omega

theorem copyStores_nodup (dest left i : Nat) : (copyStores dest left i).Nodup := by
  induction left generalizing i with
  | zero => exact List.nodup_nil
  | succ left inductionHypothesis =>
      refine List.nodup_cons.mpr ⟨fun again => ?_, inductionHypothesis (i + 1)⟩
      rw [mem_copyStores] at again
      omega

/-- What a run of `read_file` has done: the clusters whose sectors it has read,
and the addresses outside the object that it has stored to. -/
structure Record where
  clusters : List (BitVec 32)
  stores : List Nat

/-- One call, in front of the later ones. -/
def Record.add (cluster : BitVec 32) (buffer count : Nat) (later : Record) : Record where
  clusters := cluster :: later.clusters
  stores := copyStores buffer count 0 ++ later.stores

/-- `read_file`, with a record of what it does. -/
def readFileRecorded (disk : Disk) : (fuel : Nat) → (cluster size : BitVec 32) → (buffer : Nat) →
    Fat × Bytes → Option ((Fat × Bytes) × Record)
  | 0, _, _, _, _ => none
  | fuel + 1, cluster, size, buffer, (fat, bytes) =>
      let clusterSize := clusterSize fat.mBpb
      if (0x0FFFFFF8 : BitVec 32).sle cluster then some ((fat, bytes), ⟨[], []⟩)
      else if clusterBufferSize < fat.mBpb.sectorsPerCluster.toNat * 512 then none
      else
        let fat := loadCluster disk cluster fat
        let cpSize := if clusterSize < size then clusterSize else size
        let bytes := memcpy buffer fat.mClusterBuffer cpSize.toNat bytes
        if clusterSize < size then
          let (next, fat) := getNextCluster disk cluster fat
          (readFileRecorded disk fuel next (size - clusterSize) (buffer + clusterSize.toNat)
            (fat, bytes)).map (Prod.map id (Record.add cluster buffer cpSize.toNat))
        else some ((fat, bytes), Record.add cluster buffer cpSize.toNat ⟨[], []⟩)

/-- Without the record it is `read_file`. -/
theorem readFileRecorded_fst (disk : Disk) (fuel : Nat) (cluster size : BitVec 32) (buffer : Nat)
    (state : Fat × Bytes) :
    (readFileRecorded disk fuel cluster size buffer state).map Prod.fst =
      readFile disk fuel cluster size buffer state := by
  induction fuel generalizing cluster size buffer state with
  | zero => rfl
  | succ fuel inductionHypothesis =>
      simp only [readFileRecorded, readFile, ← inductionHypothesis]
      split
      · rfl
      · split
        · rfl
        · split
          · rw [Option.map_map]
            rfl
          · rfl

/-- The clusters that are needed for a size: at least one is read. -/
def needed (bpb : Bpb) (size : Nat) : Nat :=
  max 1 ((size + (clusterBytes bpb - 1)) / clusterBytes bpb)

/-- What a run may do to the memory behind `buffer`. -/
structure Contained (bpb : Bpb) (size buffer : Nat) (record : Record) : Prop where
  reads : record.clusters.length ≤ needed bpb size
  inside : ∀ addr ∈ record.stores, buffer ≤ addr ∧ addr < buffer + size
  once : record.stores.Nodup

section Contained

variable {bpb : Bpb} {size buffer count : Nat} {cluster : BitVec 32} {record : Record}

/-- A call that ends at once does nothing. -/
theorem Contained.empty (bpb : Bpb) (size buffer : Nat) : Contained bpb size buffer ⟨[], []⟩ :=
  ⟨Nat.zero_le _, fun _ none => absurd none List.not_mem_nil, List.nodup_nil⟩

/-- The last call copies what is left. -/
theorem Contained.last (bpb : Bpb) (size buffer : Nat) (cluster : BitVec 32) :
    Contained bpb size buffer (Record.add cluster buffer size ⟨[], []⟩) := by
  refine ⟨Nat.le_max_left _ _, fun addr stored => ?_, ?_⟩
  · rw [Record.add, List.append_nil, mem_copyStores] at stored
    exact stored
  · rw [Record.add, List.append_nil]
    exact copyStores_nodup buffer size 0

/-- A cluster less is needed for the rest. -/
theorem needed_more (positive : 0 < clusterBytes bpb) (more : clusterBytes bpb < size) :
    needed bpb size = needed bpb (size - clusterBytes bpb) + 1 := by
  have split : size + (clusterBytes bpb - 1) =
      size - clusterBytes bpb + (clusterBytes bpb - 1) + clusterBytes bpb := by omega
  have rest : 1 ≤ (size - clusterBytes bpb + (clusterBytes bpb - 1)) / clusterBytes bpb :=
    (Nat.one_le_div_iff positive).mpr (by omega)
  unfold needed
  rw [split, Nat.add_div_right _ positive, max_eq_right rest, max_eq_right (by omega)]

/-- Another call copies a cluster in front of what the later ones copy. -/
theorem Contained.more (positive : 0 < clusterBytes bpb) (more : clusterBytes bpb < size)
    (later : Contained bpb (size - clusterBytes bpb) (buffer + clusterBytes bpb) record) :
    Contained bpb size buffer (Record.add cluster buffer (clusterBytes bpb) record) := by
  refine ⟨?_, fun addr stored => ?_, ?_⟩
  · rw [needed_more positive more]
    exact Nat.succ_le_succ later.reads
  · rcases List.mem_append.mp stored with here | behind
    · rw [mem_copyStores] at here
      omega
    · have inside := later.inside addr behind
      omega
  · refine List.nodup_append'.mpr ⟨copyStores_nodup _ _ _, later.once, fun addr here behind => ?_⟩
    rw [mem_copyStores] at here
    have inside := later.inside addr behind
    omega

end Contained

section Run

variable {disk : Disk} {bpb : Bpb}

/-- The induction is on the clusters that the size still calls for; the chain
itself bounds nothing. -/
theorem readFileRecorded_contained (positive : 1 ≤ bpb.sectorsPerCluster.toNat)
    (fits : bpb.sectorsPerCluster.toNat ≤ 64) {fat : Fat} (geometry : fat.mBpb = bpb)
    (cluster size : BitVec 32) (buffer : Nat) (bytes : Bytes) {fuel : Nat}
    (enough : needed bpb size.toNat ≤ fuel) :
    ∃ after record, readFileRecorded disk fuel cluster size buffer (fat, bytes) = some (after, record) ∧
      Contained bpb size.toNat buffer record := by
  have nonempty : 0 < clusterBytes bpb := by
    unfold clusterBytes
    omega
  have one : 1 ≤ fuel := Nat.le_trans (Nat.le_max_left _ _) enough
  induction fuel generalizing fat cluster size buffer bytes with
  | zero => cases one
  | succ fuel inductionHypothesis =>
      subst geometry
      have room : ¬ clusterBufferSize < fat.mBpb.sectorsPerCluster.toNat * 512 := by
        unfold clusterBufferSize
        omega
      have more_iff : clusterSize fat.mBpb < size ↔ clusterBytes fat.mBpb < size.toNat := by
        rw [BitVec.lt_def, clusterSize_toNat]
      by_cases ended : (0x0FFFFFF8 : BitVec 32).sle cluster = true
      · refine ⟨(fat, bytes), ⟨[], []⟩, ?_, Contained.empty _ _ _⟩
        simp only [readFileRecorded, if_pos ended]
      · by_cases more : clusterSize fat.mBpb < size
        · have larger := more_iff.mp more
          have left : (size - clusterSize fat.mBpb).toNat = size.toNat - clusterBytes fat.mBpb := by
            rw [BitVec.toNat_sub_of_le (BitVec.le_of_lt more), clusterSize_toNat]
          have rest := needed_more nonempty larger
          have atLeast : 1 ≤ needed fat.mBpb (size.toNat - clusterBytes fat.mBpb) := Nat.le_max_left _ _
          rcases inductionHypothesis
            (getNextCluster_mBpb disk cluster (loadCluster disk cluster fat))
            (getNextCluster disk cluster (loadCluster disk cluster fat)).1
            (size - clusterSize fat.mBpb) (buffer + clusterBytes fat.mBpb)
            (memcpy buffer (loadCluster disk cluster fat).mClusterBuffer (clusterBytes fat.mBpb) bytes)
            (by rw [left]; omega) (by omega) with ⟨after, record, run, contained⟩
          rw [left] at contained
          refine ⟨after, Record.add cluster buffer (clusterBytes fat.mBpb) record, ?_,
            Contained.more nonempty larger contained⟩
          simp only [readFileRecorded, if_neg ended, if_neg room, if_pos more, clusterSize_toNat, run,
            Option.map_some, Prod.map_apply, id_eq]
        · refine ⟨(loadCluster disk cluster fat,
              memcpy buffer (loadCluster disk cluster fat).mClusterBuffer size.toNat bytes), _, ?_,
            Contained.last fat.mBpb size.toNat buffer cluster⟩
          simp only [readFileRecorded, if_neg ended, if_neg room, if_neg more]

end Run

/-- Whatever the disk holds and whatever is cached, `read_file` ends after
reading at most the clusters that the size calls for, stores only into the
buffer, and stores each byte at most once. -/
theorem readFile_contained (disk : Disk) {fat : Fat}
    (positive : 1 ≤ fat.mBpb.sectorsPerCluster.toNat) (fits : fat.mBpb.sectorsPerCluster.toNat ≤ 64)
    (cluster size : BitVec 32) (buffer : Nat) (bytes : Bytes) {fuel : Nat}
    (enough : needed fat.mBpb size.toNat ≤ fuel) :
    ∃ after record, readFileRecorded disk fuel cluster size buffer (fat, bytes) = some (after, record) ∧
      readFile disk fuel cluster size buffer (fat, bytes) = some after ∧
      Contained fat.mBpb size.toNat buffer record := by
  rcases readFileRecorded_contained positive fits rfl cluster size buffer bytes enough with
    ⟨after, record, run, contained⟩
  refine ⟨after, record, run, ?_, contained⟩
  rw [← readFileRecorded_fst, run, Option.map_some]

/-- A FAT sector in which every entry leads to cluster 2. -/
def cyclicVolume : Disk := fun sector offset =>
  if sector = 4096 then (if offset = 13 ∨ offset = 14 ∨ offset = 16 ∨ offset = 36 then 1 else 0)
  else if sector = 4097 then (if offset % 4 = 0 then 2 else 0)
  else BitVec.ofNat 8 offset

theorem readFile_contained_cyclicVolume :
    ∃ after record, readFileRecorded cyclicVolume 4 2 2000 0x40000000
        (new cyclicVolume (fun _ => 0), fun _ => 0) = some (after, record) ∧
      readFile cyclicVolume 4 2 2000 0x40000000 (new cyclicVolume (fun _ => 0), fun _ => 0) =
        some after ∧
      Contained (new cyclicVolume (fun _ => 0)).mBpb 2000 0x40000000 record :=
  readFile_contained cyclicVolume (by decide) (by decide) 2 2000 0x40000000 (fun _ => 0) (by decide)

end Fat

end WeakOS
