import Mathlib
import WeakOS.Libc.Copy

namespace WeakOS

/-!
# The FAT32 driver

The parts of the class `fat` that follow cluster chains: the boot sector's
geometry, the cache of FAT sectors, and reading a file.  Machine integers are
bit vectors of their width; `int` and `uint32_t` share one, and only the test
for the end of a chain compares as signed.

`ata::read_sectors` is taken at its word: it returns the sectors it is asked
for.  What it writes to the ports of the drive is a module of its own.
-/

/-- Sectors by number, and the bytes of a sector by offset. -/
abbrev Disk := Nat → Bytes

/-- The little-endian words of a byte sequence. -/
def wordAt (bytes : Bytes) (index : Nat) : BitVec 32 :=
  bytes (4 * index + 3) ++ bytes (4 * index + 2) ++ bytes (4 * index + 1) ++ bytes (4 * index)

namespace Ata

/-- `ata::read_sectors` into the object `block`. -/
def readSectors (disk : Disk) (block : Bytes) (sectorCount sectorAddr : Nat) : Bytes :=
  fun offset =>
    if offset < sectorCount * 512 then disk (sectorAddr + offset / 512) (offset % 512)
    else block offset

end Ata

/-- The fields of the boot sector that are used to follow chains and to find the
root directory. -/
structure Bpb where
  sectorsPerCluster : BitVec 8
  reservedSectors : BitVec 16
  fatCount : BitVec 8
  sectorsPerFat : BitVec 32
  rootCluster : BitVec 32
  deriving DecidableEq, Repr

/-- The packed layout of the boot sector. -/
def Bpb.parse (sector : Bytes) : Bpb where
  sectorsPerCluster := sector 13
  reservedSectors := sector 15 ++ sector 14
  fatCount := sector 16
  sectorsPerFat := wordAt sector 9
  rootCluster := wordAt sector 11

def clusterBufferSize : Nat := 32768

def fatUseMemory : Nat := 0x10000

def fatBlockCount : Nat := fatUseMemory / 0x200

def fatEntriesInBlock : Nat := 0x200 / 4

instance : NeZero fatBlockCount := ⟨by decide⟩

/-- A cached FAT sector.  Index 0 marks an empty block; the words of `data` are
read from its bytes. -/
structure FatBlock where
  popularity : BitVec 32
  index : BitVec 32
  data : Bytes

def FatBlock.zero : FatBlock := ⟨0, 0, fun _ => 0⟩

abbrev FatSlot := Fin fatBlockCount

structure Fat where
  mClusterBuffer : Bytes
  mFat : FatSlot → FatBlock
  mBpb : Bpb

namespace Fat

/-- The constructor; `m_cluster_buffer` is left as it is found. -/
def new (disk : Disk) (clusterBuffer : Bytes) : Fat where
  mClusterBuffer := clusterBuffer
  mFat := fun _ => FatBlock.zero
  mBpb := Bpb.parse (Ata.readSectors disk (fun _ => 0) 1 4096)

/-! ## The cache -/

/-- The number under which the FAT sector of a cluster is cached. -/
def fatIndex (cluster : BitVec 32) : BitVec 32 := cluster / BitVec.ofNat 32 fatEntriesInBlock + 1

/-- How the loop of `get_next_cluster` ends. -/
inductive Scan where
  | found (i : Nat)
  | ended (minPopBlk : Int)
  deriving DecidableEq, Repr

/-- The loop of `get_next_cluster` at iteration `i`, with `left` iterations to
go.  A negative `minPopBlk` is the number of an empty block, negated and less
one. -/
def scan (blocks : FatSlot → FatBlock) (index : BitVec 32) :
    (left i : Nat) → (minPop : BitVec 32) → (minPopBlk : Int) → Scan
  | 0, _, _, minPopBlk => .ended minPopBlk
  | left + 1, i, minPop, minPopBlk =>
      let block := blocks (Fin.ofNat _ i)
      if block.index = index then .found i
      else if minPopBlk < 0 then scan blocks index left (i + 1) minPop minPopBlk
      else if block.index ≠ 0 then
        if block.popularity < minPop then scan blocks index left (i + 1) block.popularity i
        else scan blocks index left (i + 1) minPop minPopBlk
      else scan blocks index left (i + 1) minPop (-(i : Int) - 1)

/-- The block that the loop has settled on. -/
def chosen (minPopBlk : Int) : FatSlot :=
  Fin.ofNat _ (if minPopBlk < 0 then -minPopBlk - 1 else minPopBlk).toNat

/-- The sector asked for when a block is loaded. -/
def fatSector (bpb : Bpb) (index : BitVec 32) : BitVec 32 :=
  bpb.reservedSectors.setWidth 32 + 4096 + index - 1

/-- The word of a block that belongs to a cluster. -/
def entryOf (block : FatBlock) (cluster : BitVec 32) : BitVec 32 :=
  wordAt block.data (cluster % BitVec.ofNat 32 fatEntriesInBlock).toNat

/-- Write a block of `m_fat`. -/
def setBlock (fat : Fat) (slot : FatSlot) (block : FatBlock) : Fat :=
  { fat with mFat := Function.update fat.mFat slot block }

/-- `get_next_cluster`: the returned word and the object afterwards. -/
def getNextCluster (disk : Disk) (cluster : BitVec 32) (fat : Fat) : BitVec 32 × Fat :=
  match scan fat.mFat (fatIndex cluster) fatBlockCount 0 0xffffffff 0 with
  | .found i =>
      let block := fat.mFat (Fin.ofNat _ i)
      (entryOf block cluster,
        fat.setBlock (Fin.ofNat _ i) { block with popularity := block.popularity + 1 })
  | .ended minPopBlk =>
      let block := fat.mFat (chosen minPopBlk)
      let sector := fatSector fat.mBpb (fatIndex cluster)
      let loaded : FatBlock :=
        { popularity := 0
          index := fatIndex cluster
          data := Ata.readSectors disk block.data 1 sector.toNat }
      (entryOf loaded cluster, fat.setBlock (chosen minPopBlk) loaded)

/-! ## Reading a file -/

/-- The sector number that `read_file` computes for a cluster. -/
def clusterSector (bpb : Bpb) (cluster : BitVec 32) : BitVec 32 :=
  let dataOffs := bpb.reservedSectors.setWidth 32 + bpb.fatCount.setWidth 32 * bpb.sectorsPerFat
  dataOffs + (cluster - 2) * bpb.sectorsPerCluster.setWidth 32 + 4096

/-- The size of a cluster in bytes. -/
def clusterSize (bpb : Bpb) : BitVec 32 := bpb.sectorsPerCluster.setWidth 32 * 0x200

/-- Read the sectors of a cluster into `m_cluster_buffer`. -/
def loadCluster (disk : Disk) (cluster : BitVec 32) (fat : Fat) : Fat :=
  { fat with
    mClusterBuffer := Ata.readSectors disk fat.mClusterBuffer fat.mBpb.sectorsPerCluster.toNat
      (clusterSector fat.mBpb cluster).toNat }

/-- `read_file`: the object and the memory afterwards.  There is no result when
the recursion needs more than `fuel` calls, or when the sectors of a cluster do
not fit into the buffer. -/
def readFile (disk : Disk) : (fuel : Nat) → (cluster size : BitVec 32) → (buffer : Nat) →
    Fat × Bytes → Option (Fat × Bytes)
  | 0, _, _, _, _ => none
  | fuel + 1, cluster, size, buffer, (fat, bytes) =>
      let clusterSize := clusterSize fat.mBpb
      if (0x0FFFFFF8 : BitVec 32).sle cluster then some (fat, bytes)
      else if clusterBufferSize < fat.mBpb.sectorsPerCluster.toNat * 512 then none
      else
        let fat := loadCluster disk cluster fat
        let cpSize := if clusterSize < size then clusterSize else size
        let bytes := memcpy buffer fat.mClusterBuffer cpSize.toNat bytes
        if clusterSize < size then
          let (next, fat) := getNextCluster disk cluster fat
          readFile disk fuel next (size - clusterSize) (buffer + clusterSize.toNat) (fat, bytes)
        else some (fat, bytes)

end Fat

end WeakOS
