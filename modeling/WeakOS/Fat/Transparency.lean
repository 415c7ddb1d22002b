import Mathlib
import WeakOS.Fat.SectorCache

namespace WeakOS

open Foundation

namespace Fat

/-!
# The cache cannot be noticed

Along every sequence of calls from the zeroed cache, `get_next_cluster` returns
what a lookup on the disk would.  Reading files and listing directories reaches
the cache through these calls only.
-/

/-- The uncached lookup: the word of a cluster in the FAT on the disk. -/
def fatEntry (disk : Disk) (bpb : Bpb) (cluster : BitVec 32) : BitVec 32 :=
  wordAt (disk (bpb.reservedSectors.toNat + 4096 + cluster.toNat / 128)) (cluster.toNat % 128)

/-- Blocks in use have different indices, and each holds the sector that is
cached under its index. -/
structure Faithful (disk : Disk) (fat : Fat) : Prop where
  distinct : ∀ left right, (fat.mFat left).index ≠ 0 →
    (fat.mFat left).index = (fat.mFat right).index → left = right
  holds : ∀ slot, (fat.mFat slot).index ≠ 0 → ∀ offset < 512,
    (fat.mFat slot).data offset = disk (fatSector fat.mBpb (fat.mFat slot).index).toNat offset

/-- A block in use that is given to another sector. -/
def Evicted (before after : Fat) (slot : FatSlot) : Prop :=
  (before.mFat slot).index ≠ 0 ∧ (after.mFat slot).index ≠ (before.mFat slot).index

section Step

variable {disk : Disk} {fat : Fat} {cluster : BitVec 32}

theorem faithful_iff_consistent :
    Faithful disk fat ↔ Cache.Consistent (sectorOf disk fat.mBpb) (lines fat) := by
  constructor
  · intro faithful
    have nonzero : ∀ {slot index}, (lines fat slot).key = some index → (fat.mFat slot).index ≠ 0 := by
      intro slot index found zero
      exact Option.some_ne_none index (found.symm.trans (key_eq_none_iff.mpr zero))
    have index_eq : ∀ {slot index}, (lines fat slot).key = some index →
        (fat.mFat slot).index = index := by
      intro slot index found
      exact Option.some.inj (((key_eq_some_iff (nonzero found)).mpr rfl).symm.trans found)
    refine ⟨fun left right index onLeft onRight => ?_, fun slot index found => ?_⟩
    · exact faithful.distinct left right (nonzero onLeft)
        ((index_eq onLeft).trans (index_eq onRight).symm)
    · rw [← index_eq found]
      exact funext fun offset => faithful.holds slot (nonzero found) offset offset.isLt
  · intro consistent
    refine ⟨fun left right nonzero same => ?_, fun slot nonzero offset small => ?_⟩
    · exact consistent.distinct left right _ ((key_eq_some_iff nonzero).mpr rfl)
        ((key_eq_some_iff nonzero).mpr same.symm)
    · exact congrFun (consistent.faithful slot _ ((key_eq_some_iff nonzero).mpr rfl)) ⟨offset, small⟩

theorem Faithful.of_zeroed (zeroed : ∀ slot, fat.mFat slot = FatBlock.zero) : Faithful disk fat := by
  refine faithful_iff_consistent.mpr (Cache.Consistent.of_empty (fun slot => ?_))
  refine key_eq_none_iff.mpr ?_
  rw [zeroed slot]
  rfl

/-- A call changes blocks only. -/
theorem getNextCluster_mBpb (disk : Disk) (cluster : BitVec 32) (fat : Fat) :
    (getNextCluster disk cluster fat).2.mBpb = fat.mBpb := by
  rcases getNextCluster_cases disk cluster fat with ⟨slot, _, result⟩ | ⟨slot, _, _, result⟩
  · rw [result]
    rfl
  · rw [result]
    rfl

theorem Faithful.getNextCluster (faithful : Faithful disk fat) (cluster : BitVec 32) :
    Faithful disk (getNextCluster disk cluster fat).2 := by
  rcases getNextCluster_access disk cluster fat with ⟨slot, access, _⟩
  rw [faithful_iff_consistent, getNextCluster_mBpb]
  exact access.consistent (faithful_iff_consistent.mp faithful)

/-- A call returns what the disk has. -/
theorem Faithful.getNextCluster_fst (faithful : Faithful disk fat) (cluster : BitVec 32) :
    (Fat.getNextCluster disk cluster fat).1 = fatEntry disk fat.mBpb cluster := by
  rcases getNextCluster_access disk cluster fat with ⟨slot, access, returned⟩
  have value := access.value_eq (faithful_iff_consistent.mp faithful)
  have inSector : cluster.toNat % 128 < 128 := Nat.mod_lt _ (by decide)
  rw [returned, entryOf, entry_toNat, fatEntry, ← fatSector_toNat]
  exact wordAt_congr inSector (fun offset small => congrFun value ⟨offset, small⟩)

/-- A block is evicted only when all are in use and none is less popular. -/
theorem evicted_least {slot : FatSlot}
    (evicted : Evicted fat (Fat.getNextCluster disk cluster fat).2 slot) :
    (∀ other, (fat.mFat other).index ≠ 0) ∧
      ∀ other, (fat.mFat slot).popularity ≤ (fat.mFat other).popularity := by
  rcases getNextCluster_access disk cluster fat with ⟨_, access, _⟩
  rcases evicted with ⟨nonzero, changed⟩
  have inUse : (lines fat slot).key ≠ none := fun none => nonzero (key_eq_none_iff.mp none)
  have lost : (lines (Fat.getNextCluster disk cluster fat).2 slot).key ≠ (lines fat slot).key := by
    intro same
    exact changed ((key_eq_some_iff nonzero).mp (same.trans ((key_eq_some_iff nonzero).mpr rfl)))
  have victim := access.evicted lost
  exact ⟨fun other zero => victim.full inUse other (key_eq_none_iff.mpr zero), victim.least inUse⟩

end Step

/-! ## Sequences of calls -/

/-- The object after a sequence of calls. -/
def afterCalls (disk : Disk) (start : Fat) (clusters : List (BitVec 32)) : Fat :=
  clusters.foldl (fun fat cluster => (getNextCluster disk cluster fat).2) start

theorem afterCalls_keeps {disk : Disk} {start : Fat} (clusters : List (BitVec 32))
    (faithful : Faithful disk start) : Faithful disk (afterCalls disk start clusters) ∧
      (afterCalls disk start clusters).mBpb = start.mBpb := by
  induction clusters generalizing start with
  | nil => exact ⟨faithful, rfl⟩
  | cons cluster rest inductionHypothesis =>
      have later := inductionHypothesis (faithful.getNextCluster cluster)
      exact ⟨later.1, later.2.trans (getNextCluster_mBpb disk cluster start)⟩

/-- Whatever calls came before, a call returns the word on the disk, the blocks
are faithful, and only a least popular block of a full cache is evicted. -/
theorem getNextCluster_transparent (disk : Disk) {start : Fat}
    (zeroed : ∀ slot, start.mFat slot = FatBlock.zero) (earlier : List (BitVec 32))
    (cluster : BitVec 32) :
    let fat := afterCalls disk start earlier
    let result := getNextCluster disk cluster fat
    result.1 = fatEntry disk start.mBpb cluster ∧ Faithful disk fat ∧
      ∀ slot, Evicted fat result.2 slot → (∀ other, (fat.mFat other).index ≠ 0) ∧
        ∀ other, (fat.mFat slot).popularity ≤ (fat.mFat other).popularity := by
  rcases afterCalls_keeps earlier (Faithful.of_zeroed zeroed) with ⟨faithful, bpb⟩
  refine ⟨?_, faithful, fun slot evicted => evicted_least evicted⟩
  rw [faithful.getNextCluster_fst, bpb]

theorem getNextCluster_transparent_blank :
    let start := new (fun _ _ => 0) (fun _ => 0)
    let fat := afterCalls (fun _ _ => 0) start [5, 700, 5]
    let result := getNextCluster (fun _ _ => 0) 9 fat
    result.1 = fatEntry (fun _ _ => 0) start.mBpb 9 ∧ Faithful (fun _ _ => 0) fat ∧
      ∀ slot, Evicted fat result.2 slot → (∀ other, (fat.mFat other).index ≠ 0) ∧
        ∀ other, (fat.mFat slot).popularity ≤ (fat.mFat other).popularity :=
  getNextCluster_transparent _ (fun _ => rfl) _ _

end Fat

end WeakOS
