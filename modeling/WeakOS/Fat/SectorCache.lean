import Mathlib
import WeakOS.Fat.Model
import WeakOS.Foundation.Cache

namespace WeakOS

open Foundation

namespace Fat

/-!
# The cache of FAT sectors

The blocks of the driver are the lines of a cache whose source is the disk.
One call of `get_next_cluster` is one access of that cache.  What remains to be
shown is that the loop, which looks for the sector, for an empty block and for
the least popular block at once, finds the sector if it is cached, and settles
on an admissible block if it is not.
-/

/-! ## Numbers of 32 bits -/

section Words

variable (cluster : BitVec 32)

theorem fatIndex_toNat : (fatIndex cluster).toNat = cluster.toNat / 128 + 1 := by
  have small := cluster.isLt
  have quotient : (cluster / BitVec.ofNat 32 fatEntriesInBlock).toNat = cluster.toNat / 128 := rfl
  rw [fatIndex, BitVec.toNat_add, quotient, show (1 : BitVec 32).toNat = 1 by decide,
    Nat.mod_eq_of_lt (by omega)]

/-- No sector is cached under the index that marks an empty block. -/
theorem fatIndex_ne_zero : fatIndex cluster ≠ 0 := by
  intro zero
  have value := fatIndex_toNat cluster
  rw [zero, show (0 : BitVec 32).toNat = 0 by decide] at value
  omega

/-- The position of a cluster's word in its sector. -/
theorem entry_toNat :
    (cluster % BitVec.ofNat 32 fatEntriesInBlock).toNat = cluster.toNat % 128 := rfl

/-- The sector number does not overflow. -/
theorem fatSector_toNat (bpb : Bpb) : (fatSector bpb (fatIndex cluster)).toNat =
    bpb.reservedSectors.toNat + 4096 + cluster.toNat / 128 := by
  have reserved := bpb.reservedSectors.isLt
  have small := cluster.isLt
  have index := fatIndex_toNat cluster
  unfold fatSector
  bv_omega

end Words

/-! ## The blocks as lines of a cache -/

/-- The bytes of a sector. -/
abbrev SectorBytes := Fin 512 → BitVec 8

/-- The sector that is cached under an index. -/
def sectorOf (disk : Disk) (bpb : Bpb) (index : BitVec 32) : SectorBytes :=
  fun offset => disk (fatSector bpb index).toNat offset

def FatBlock.line (block : FatBlock) : Cache.Line (BitVec 32) SectorBytes where
  key := if block.index = 0 then none else some block.index
  value := fun offset => block.data offset

def lines (fat : Fat) : FatSlot → Cache.Line (BitVec 32) SectorBytes :=
  fun slot => FatBlock.line (fat.mFat slot)

def popularity (fat : Fat) (slot : FatSlot) : BitVec 32 := (fat.mFat slot).popularity

section Lines

variable {block : FatBlock} {index : BitVec 32}

theorem key_eq_none_iff : (FatBlock.line block).key = none ↔ block.index = 0 := by
  unfold FatBlock.line
  split
  · rename_i zero
    exact iff_of_true rfl zero
  · rename_i nonzero
    exact iff_of_false (fun none => Option.some_ne_none _ none) nonzero

theorem key_eq_some_iff (nonzero : index ≠ 0) :
    (FatBlock.line block).key = some index ↔ block.index = index := by
  unfold FatBlock.line
  split
  · rename_i zero
    exact iff_of_false (fun none => Option.some_ne_none _ none.symm) (fun same =>
      nonzero (same ▸ zero))
  · exact Option.some_inj

/-- Writing a block is writing a line. -/
theorem lines_setBlock (fat : Fat) (slot : FatSlot) (block : FatBlock) :
    lines (fat.setBlock slot block) = Function.update (lines fat) slot (FatBlock.line block) := by
  funext other
  by_cases here : other = slot
  · subst here
    simp only [lines, setBlock, Function.update_self]
  · simp only [lines, setBlock, Function.update_of_ne here]

/-- Words are made of four bytes of the sector. -/
theorem wordAt_congr {left right : Bytes} {k : Nat} (small : k < 128)
    (same : ∀ offset < 512, left offset = right offset) : wordAt left k = wordAt right k := by
  unfold wordAt
  rw [same (4 * k + 3) (by omega), same (4 * k + 2) (by omega), same (4 * k + 1) (by omega),
    same (4 * k) (by omega)]

end Lines

/-! ## The loop -/

section Scan

variable {blocks : FatSlot → FatBlock} {minPop : BitVec 32} {minPopBlk : Int} {i : Nat}

/-- The block with a number. -/
abbrev slot (i : Nat) : FatSlot := Fin.ofNat _ i

/-- What the loop knows after `i` blocks: either it has met an empty block, or
all of them are in use and none is less popular than the one it remembers.  At
first it remembers block 0 without having met it. -/
structure Settled (blocks : FatSlot → FatBlock) (i : Nat) (minPop : BitVec 32) (minPopBlk : Int) :
    Prop where
  empty : minPopBlk < 0 →
    ∃ j < i, minPopBlk = -(j : Int) - 1 ∧ (blocks (slot j)).index = 0
  inUse : 0 ≤ minPopBlk → ∀ j < i, (blocks (slot j)).index ≠ 0
  least : 0 ≤ minPopBlk → ∀ j < i, minPop ≤ (blocks (slot j)).popularity
  remembered : 0 ≤ minPopBlk → (∃ j < i, minPopBlk = j ∧ (blocks (slot j)).popularity = minPop) ∨
    (minPopBlk = 0 ∧ minPop = 0xffffffff)

theorem Settled.start : Settled blocks 0 0xffffffff 0 where
  empty := fun negative => absurd negative (Int.lt_irrefl 0)
  inUse := fun _ j none => absurd none (Nat.not_lt_zero j)
  least := fun _ j none => absurd none (Nat.not_lt_zero j)
  remembered := fun _ => Or.inr ⟨rfl, rfl⟩

/-- After an empty block has been met, the others do not matter. -/
theorem Settled.keep (settled : Settled blocks i minPop minPopBlk) (negative : minPopBlk < 0) :
    Settled blocks (i + 1) minPop minPopBlk := by
  refine ⟨fun _ => ?_, fun positive => ?_, fun positive => ?_, fun positive => ?_⟩
  · rcases settled.empty negative with ⟨j, before, rest⟩
    exact ⟨j, by omega, rest⟩
  all_goals exact absurd negative (Int.not_lt.mpr positive)

/-- An empty block is remembered. -/
theorem Settled.meet (zero : (blocks (slot i)).index = 0) :
    Settled blocks (i + 1) minPop (-(i : Int) - 1) := by
  refine ⟨fun _ => ⟨i, by omega, rfl, zero⟩, fun positive => ?_, fun positive => ?_,
    fun positive => ?_⟩
  all_goals omega

/-- A less popular block is remembered. -/
theorem Settled.lower (settled : Settled blocks i minPop minPopBlk) (positive : 0 ≤ minPopBlk)
    (nonzero : (blocks (slot i)).index ≠ 0) (lower : (blocks (slot i)).popularity < minPop) :
    Settled blocks (i + 1) (blocks (slot i)).popularity i := by
  refine ⟨fun negative => absurd negative (by omega), fun _ j before => ?_, fun _ j before => ?_,
    fun _ => Or.inl ⟨i, by omega, rfl, rfl⟩⟩
  · rcases Nat.lt_succ_iff_lt_or_eq.mp before with earlier | rfl
    · exact settled.inUse positive j earlier
    · exact nonzero
  · rcases Nat.lt_succ_iff_lt_or_eq.mp before with earlier | rfl
    · exact BitVec.le_trans (BitVec.le_of_lt lower) (settled.least positive j earlier)
    · exact BitVec.le_refl _

/-- A block that is at least as popular is passed by. -/
theorem Settled.pass (settled : Settled blocks i minPop minPopBlk) (positive : 0 ≤ minPopBlk)
    (nonzero : (blocks (slot i)).index ≠ 0) (notLower : ¬ (blocks (slot i)).popularity < minPop) :
    Settled blocks (i + 1) minPop minPopBlk := by
  refine ⟨fun negative => absurd negative (Int.not_lt.mpr positive), fun _ j before => ?_,
    fun _ j before => ?_, fun _ => ?_⟩
  · rcases Nat.lt_succ_iff_lt_or_eq.mp before with earlier | rfl
    · exact settled.inUse positive j earlier
    · exact nonzero
  · rcases Nat.lt_succ_iff_lt_or_eq.mp before with earlier | rfl
    · exact settled.least positive j earlier
    · exact BitVec.not_lt.mp notLower
  · rcases settled.remembered positive with ⟨j, before, rest⟩ | first
    · exact Or.inl ⟨j, by omega, rest⟩
    · exact Or.inr first

/-- The loop ends at the first block with the index, or passes all of them. -/
theorem scan_cases (index : BitVec 32) (left : Nat) (settled : Settled blocks i minPop minPopBlk) :
    (∃ j, scan blocks index left i minPop minPopBlk = .found j ∧ (blocks (slot j)).index = index) ∨
      ∃ lastPop lastBlk, scan blocks index left i minPop minPopBlk = .ended lastBlk ∧
        (∀ j, i ≤ j → j < i + left → (blocks (slot j)).index ≠ index) ∧
        Settled blocks (i + left) lastPop lastBlk := by
  induction left generalizing i minPop minPopBlk with
  | zero => exact Or.inr ⟨minPop, minPopBlk, rfl, fun j above below => by omega, settled⟩
  | succ left inductionHypothesis =>
      by_cases here : (blocks (slot i)).index = index
      · exact Or.inl ⟨i, by simp only [scan, if_pos here], here⟩
      · -- One of four branches is taken; each of them settles one block more.
        have later : ∀ {nextPop nextBlk}, Settled blocks (i + 1) nextPop nextBlk →
            scan blocks index (left + 1) i minPop minPopBlk =
              scan blocks index left (i + 1) nextPop nextBlk →
            (∃ j, scan blocks index (left + 1) i minPop minPopBlk = .found j ∧
              (blocks (slot j)).index = index) ∨
            ∃ lastPop lastBlk, scan blocks index (left + 1) i minPop minPopBlk = .ended lastBlk ∧
              (∀ j, i ≤ j → j < i + (left + 1) → (blocks (slot j)).index ≠ index) ∧
              Settled blocks (i + (left + 1)) lastPop lastBlk := by
          intro nextPop nextBlk next branch
          rw [branch]
          rcases inductionHypothesis next with found | ⟨lastPop, lastBlk, ended, absent, last⟩
          · exact Or.inl found
          · refine Or.inr ⟨lastPop, lastBlk, ended, fun j above below => ?_, ?_⟩
            · rcases Nat.eq_or_lt_of_le above with rfl | behind
              · exact here
              · exact absent j behind (by omega)
            · rwa [show i + (left + 1) = i + 1 + left by omega]
        by_cases negative : minPopBlk < 0
        · exact later (settled.keep negative) (by simp only [scan, if_neg here, if_pos negative])
        · by_cases zero : (blocks (slot i)).index = 0
          · exact later (Settled.meet zero : Settled blocks (i + 1) minPop _)
              (by simp only [scan, if_neg here, if_neg negative, if_neg (not_not.mpr zero)])
          · by_cases lower : (blocks (slot i)).popularity < minPop
            · exact later (settled.lower (Int.not_lt.mp negative) zero lower)
                (by simp only [scan, if_neg here, if_neg negative, if_pos zero, if_pos lower])
            · exact later (settled.pass (Int.not_lt.mp negative) zero lower)
                (by simp only [scan, if_neg here, if_neg negative, if_pos zero, if_neg lower])

end Scan

/-! ## One call is one access -/

section Access

variable (disk : Disk) (cluster : BitVec 32) (fat : Fat)

theorem slot_val (other : FatSlot) : slot other.val = other :=
  Fin.ofNat_val_eq_self other

/-- The block that the loop settles on is empty, or one of the least popular
when all are in use. -/
theorem Settled.victim {minPop : BitVec 32} {minPopBlk : Int}
    (settled : Settled fat.mFat fatBlockCount minPop minPopBlk) :
    Cache.Victim (lines fat) (popularity fat) (chosen minPopBlk) := by
  by_cases negative : minPopBlk < 0
  · rcases settled.empty negative with ⟨j, _, rfl, zero⟩
    have same : chosen (-(j : Int) - 1) = slot j := by
      rw [chosen, if_pos negative, show -(-(j : Int) - 1) - 1 = j by omega, Int.toNat_natCast]
    have empty : (lines fat (slot j)).key = none := key_eq_none_iff.mpr zero
    rw [same]
    exact ⟨fun inUse => absurd empty inUse, fun inUse => absurd empty inUse⟩
  · have positive := Int.not_lt.mp negative
    have inUse : ∀ other, (fat.mFat other).index ≠ 0 := fun other =>
      slot_val other ▸ settled.inUse positive other.val other.isLt
    have least : ∀ other, minPop ≤ popularity fat other := fun other => by
      have bound := settled.least positive other.val other.isLt
      rwa [slot_val] at bound
    refine ⟨fun _ other none => inUse other (key_eq_none_iff.mp none), fun _ other => ?_⟩
    rcases settled.remembered positive with ⟨j, _, rfl, same⟩ | ⟨_, rfl⟩
    · have remembered : chosen (j : Int) = slot j := by
        rw [chosen, if_neg negative, Int.toNat_natCast]
      rw [remembered, popularity, same]
      exact least other
    · -- No block was below the initial bound, so all are equally popular.
      exact BitVec.le_trans (BitVec.le_def.mpr (Nat.le_of_lt_succ (BitVec.isLt _))) (least other)

/-- The block that a miss loads. -/
def loaded (block : FatBlock) : FatBlock where
  popularity := 0
  index := fatIndex cluster
  data := Ata.readSectors disk block.data 1 (fatSector fat.mBpb (fatIndex cluster)).toNat

/-- What one call does: the sector is found in a block, or it is in none and is
loaded into an admissible one. -/
theorem getNextCluster_cases :
    (∃ slot, (fat.mFat slot).index = fatIndex cluster ∧
      getNextCluster disk cluster fat = (entryOf (fat.mFat slot) cluster,
        fat.setBlock slot { fat.mFat slot with popularity := (fat.mFat slot).popularity + 1 })) ∨
    ∃ slot, (∀ other, (fat.mFat other).index ≠ fatIndex cluster) ∧
      Cache.Victim (lines fat) (popularity fat) slot ∧
      getNextCluster disk cluster fat = (entryOf (loaded disk cluster fat (fat.mFat slot)) cluster,
        fat.setBlock slot (loaded disk cluster fat (fat.mFat slot))) := by
  have start : Settled fat.mFat 0 0xffffffff 0 := Settled.start
  rcases scan_cases (fatIndex cluster) fatBlockCount start with ⟨j, found, same⟩ | ⟨lastPop, lastBlk, ended, absent, settled⟩
  · exact Or.inl ⟨slot j, same, by simp only [getNextCluster, found]⟩
  · refine Or.inr ⟨chosen lastBlk, fun other => ?_, Settled.victim fat settled, ?_⟩
    · have notHere := absent other.val (Nat.zero_le _) other.isLt
      rwa [slot_val] at notHere
    · simp only [getNextCluster, ended, loaded]

/-- A loaded block holds the sector. -/
theorem loaded_data (block : FatBlock) {offset : Nat} (small : offset < 512) :
    (loaded disk cluster fat block).data offset =
      disk (fatSector fat.mBpb (fatIndex cluster)).toNat offset := by
  show Ata.readSectors disk block.data 1 _ offset = _
  rw [Ata.readSectors, if_pos (by omega), Nat.div_eq_of_lt small, Nat.mod_eq_of_lt small,
    Nat.add_zero]

theorem loaded_line (block : FatBlock) : FatBlock.line (loaded disk cluster fat block) =
    ⟨some (fatIndex cluster), sectorOf disk fat.mBpb (fatIndex cluster)⟩ := by
  have nonzero : (loaded disk cluster fat block).index ≠ 0 := fatIndex_ne_zero cluster
  rw [FatBlock.line, if_neg nonzero]
  exact congrArg (Cache.Line.mk _) (funext fun offset => loaded_data disk cluster fat block offset.isLt)

/-- One call of `get_next_cluster` is one access. -/
theorem getNextCluster_access : ∃ slot : FatSlot, Cache.Access (sectorOf disk fat.mBpb)
    (Cache.Victim (lines fat) (popularity fat)) (lines fat) (fatIndex cluster)
    (lines (getNextCluster disk cluster fat).2)
    (lines (getNextCluster disk cluster fat).2 slot).value ∧
    (getNextCluster disk cluster fat).1 =
      entryOf ((getNextCluster disk cluster fat).2.mFat slot) cluster := by
  rcases getNextCluster_cases disk cluster fat with ⟨slot, same, result⟩ | ⟨slot, absent, victim, result⟩
  · have hit := (key_eq_some_iff (fatIndex_ne_zero cluster)).mpr same
    have unchanged : lines (getNextCluster disk cluster fat).2 = lines fat := by
      rw [result, lines_setBlock]
      exact Function.update_eq_self slot (lines fat)
    refine ⟨slot, ?_, ?_⟩
    · rw [unchanged]
      exact Cache.Access.hit slot hit
    · rw [result]
      show _ = entryOf (Function.update fat.mFat slot _ slot) cluster
      rw [Function.update_self]
      rfl
  · have written : lines (getNextCluster disk cluster fat).2 = Function.update (lines fat) slot
        ⟨some (fatIndex cluster), sectorOf disk fat.mBpb (fatIndex cluster)⟩ := by
      rw [result, lines_setBlock, loaded_line]
    refine ⟨slot, ?_, ?_⟩
    · rw [written, Function.update_self]
      refine Cache.Access.miss slot (fun other cached => ?_) victim
      exact absent other ((key_eq_some_iff (fatIndex_ne_zero cluster)).mp cached)
    · rw [result]
      show _ = entryOf (Function.update fat.mFat slot _ slot) cluster
      rw [Function.update_self]

end Access

end Fat

end WeakOS
