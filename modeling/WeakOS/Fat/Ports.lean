import Mathlib
import WeakOS.Foundation.Word
import WeakOS.Fat.ReadFile

namespace WeakOS

open Foundation

/-!
# The sector that the drive is asked for

`ata::read_sectors` does not hand a sector number to the drive; it writes bytes
to the ports of the bus, and the drive puts the number together from what the
ports hold.  The four address bits that share a port with the choice of the
drive are always written as zero, so that 24 of the 28 bits arrive.
-/

inductive AtaBus where
  | primary
  | secondary
  deriving DecidableEq, Repr

inductive AtaDrive where
  | master
  | slave
  deriving DecidableEq, Repr

def AtaBus.port : AtaBus → BitVec 16
  | .primary => 0x1f0
  | .secondary => 0x170

/-- A byte that `io::outb` writes. -/
structure PortWrite where
  port : BitVec 16
  val : BitVec 8
  deriving DecidableEq, Repr

namespace Io

/-- `io::outb` with an argument of type `int`, of which a byte is kept. -/
def outb (port : BitVec 16) (val : BitVec 32) : PortWrite := ⟨port, val.setWidth 8⟩

end Io

namespace Ata

/-- The bytes that `ata::read_sectors` writes to the ports of the bus, in
order.  What it waits for and what it reads comes behind them. -/
def command (bus : AtaBus) (drive : AtaDrive) (sectorCount sectorAddr : BitVec 32) :
    List PortWrite :=
  if sectorCount = 0 then []
  else
    [Io.outb (bus.port + 6) (if drive = .master then 0xe0 else 0xf0),
      Io.outb (bus.port + 1) 0,
      Io.outb (bus.port + 2) sectorCount,
      Io.outb (bus.port + 3) (sectorAddr &&& 0xff),
      Io.outb (bus.port + 4) (sectorAddr.sshiftRight 8),
      Io.outb (bus.port + 5) (sectorAddr.sshiftRight 16),
      Io.outb (bus.port + 7) 0x20]

/-! ## The drive's side -/

/-- What a port holds: the last byte that was written to it. -/
def held (writes : List PortWrite) (port : BitVec 16) : Option (BitVec 8) :=
  (writes.reverse.find? fun write => write.port = port).map PortWrite.val

/-- The 28-bit sector number that the address ports hold: the low, the middle
and the high byte, and the low four bits of the port that selects the drive. -/
def lba (bus : AtaBus) (writes : List PortWrite) : Option (BitVec 28) := do
  let head ← held writes (bus.port + 6)
  let high ← held writes (bus.port + 5)
  let mid ← held writes (bus.port + 4)
  let low ← held writes (bus.port + 3)
  return head.extractLsb' 0 4 ++ high ++ mid ++ low

/-- The sectors that a drive transfers into `block`, if it is asked. -/
def transfer (disk : Disk) (bus : AtaBus) (writes : List PortWrite) (block : Bytes) (sectorCount : Nat) :
    Bytes :=
  match lba bus writes with
  | some sector => readSectors disk block sectorCount sector.toNat
  | none => block

/-- Whatever number the address ports hold is the given one. -/
def AsksFor (bus : AtaBus) (writes : List PortWrite) (sector : Nat) : Prop :=
  ∀ asked, lba bus writes = some asked → asked.toNat = sector

section Command

variable (bus : AtaBus) (drive : AtaDrive) {sectorCount : BitVec 32} (sectorAddr : BitVec 32)

/-- `outb` keeps the low byte of what is shifted to it. -/
theorem byte_sshiftRight (word : BitVec 32) {shift : Nat} (fits : shift + 8 ≤ 32) :
    (word.sshiftRight shift).setWidth 8 = word.extractLsb' shift 8 := by
  apply BitVec.eq_of_getLsbD_eq
  intro bit small
  have inside : shift + bit < 32 := by omega
  have inWord : ¬ 32 ≤ bit := by omega
  simp only [BitVec.getLsbD_setWidth, BitVec.getLsbD_extractLsb', BitVec.getLsbD_sshiftRight,
    if_pos inside, inWord, decide_false, Bool.not_false, Bool.true_and]

theorem byte_and (word : BitVec 32) : (word &&& 0xff).setWidth 8 = word.extractLsb' 0 8 := by
  rw [BitVec.setWidth_and, show (0xff : BitVec 32).setWidth 8 = BitVec.allOnes 8 by decide,
    BitVec.and_allOnes]
  exact BitVec.setWidth_eq_extractLsb' (by decide)

/-- Without sectors to read there is no command. -/
theorem lba_command_zero : lba bus (command bus drive 0 sectorAddr) = none := rfl

/-- The port that selects the drive contributes no address bits; the others
have three bytes of the address. -/
theorem lba_command (nonzero : sectorCount ≠ 0) :
    lba bus (command bus drive sectorCount sectorAddr) =
      some (0#4 ++ sectorAddr.extractLsb' 16 8 ++ sectorAddr.extractLsb' 8 8 ++
        sectorAddr.extractLsb' 0 8) := by
  rw [command, if_neg nonzero]
  simp only [Io.outb, byte_and, byte_sshiftRight sectorAddr (by decide : 8 + 8 ≤ 32),
    byte_sshiftRight sectorAddr (by decide : 16 + 8 ≤ 32)]
  cases bus <;> cases drive <;> rfl

/-- The drive is asked for the address modulo `2 ^ 24`. -/
theorem lba_command_toNat (nonzero : sectorCount ≠ 0) : ∃ asked,
    lba bus (command bus drive sectorCount sectorAddr) = some asked ∧
      asked.toNat = sectorAddr.toNat % 2 ^ 24 := by
  refine ⟨_, lba_command bus drive sectorAddr nonzero, ?_⟩
  simp only [Word.toNat_append, BitVec.extractLsb'_toNat, Nat.shiftRight_eq_div_pow,
    BitVec.toNat_ofNat]
  omega

theorem asksFor_command_iff : AsksFor bus (command bus drive sectorCount sectorAddr) sectorAddr.toNat ↔
    sectorAddr.toNat < 2 ^ 24 ∨ sectorCount = 0 := by
  by_cases zero : sectorCount = 0
  · subst zero
    refine iff_of_true (fun asked some => ?_) (Or.inr rfl)
    rw [lba_command_zero] at some
    cases some
  · rcases lba_command_toNat bus drive sectorAddr zero with ⟨asked, holds, value⟩
    rw [or_iff_left zero]
    constructor
    · intro asksFor
      have same := asksFor asked holds
      omega
    · intro small other some
      rw [holds] at some
      rw [← Option.some.inj some, value, Nat.mod_eq_of_lt small]

/-- What comes from the drive is what starts at the address modulo `2 ^ 24`. -/
theorem transfer_command (disk : Disk) (block : Bytes) :
    transfer disk bus (command bus drive sectorCount sectorAddr) block sectorCount.toNat =
      readSectors disk block sectorCount.toNat (sectorAddr.toNat % 2 ^ 24) := by
  by_cases zero : sectorCount = 0
  · subst zero
    funext offset
    rw [transfer, lba_command_zero, readSectors, if_neg (Nat.not_lt.mpr (by simp))]
  · rcases lba_command_toNat bus drive sectorAddr zero with ⟨asked, holds, value⟩
    rw [transfer, holds]
    simp only [value]

end Command

end Ata

namespace Fat

/-! ## The driver's reads -/

/-- The number of the first sector of a cluster.  `read_file` takes clusters as
`int`, and `enumerate_directory` as `uint32_t`. -/
def absoluteSector (bpb : Bpb) (cluster : Int) : Int :=
  4096 + bpb.reservedSectors.toNat + bpb.fatCount.toNat * bpb.sectorsPerFat.toNat +
    (cluster - 2) * bpb.sectorsPerCluster.toNat

/-- The places from which `read_sectors` is called: the constructor, `read_file`
and `enumerate_directory`, and `get_next_cluster`. -/
inductive Load where
  | bootSector
  | cluster (cluster : Int)
  | fatSector (cluster : BitVec 32)

namespace Load

/-- The sector that is meant. -/
def sector (bpb : Bpb) : Load → Int
  | bootSector => 4096
  | cluster number => absoluteSector bpb number
  | fatSector number => 4096 + bpb.reservedSectors.toNat + number.toNat / 128

def sectorCount (bpb : Bpb) : Load → BitVec 32
  | cluster _ => bpb.sectorsPerCluster.setWidth 32
  | bootSector | fatSector _ => 1

/-- The argument that is passed for it. -/
def sectorAddr (bpb : Bpb) : Load → BitVec 32
  | bootSector => 4096
  | cluster number => clusterSector bpb (BitVec.ofInt 32 number)
  | fatSector number => Fat.fatSector bpb (fatIndex number)

def command (bpb : Bpb) (load : Load) : List PortWrite :=
  Ata.command .primary .master (load.sectorCount bpb) (load.sectorAddr bpb)

end Load

section Loads

variable {bpb : Bpb}

/-- The sector number is computed modulo `2 ^ 32`, whatever the cluster. -/
theorem clusterSector_ofInt (bpb : Bpb) (cluster : Int) :
    clusterSector bpb (BitVec.ofInt 32 cluster) = BitVec.ofInt 32 (absoluteSector bpb cluster) := by
  unfold clusterSector absoluteSector
  rw [Int.sub_eq_add_neg]
  simp only [BitVec.ofInt_add, BitVec.ofInt_mul, BitVec.ofInt_natCast, BitVec.ofNat_toNat,
    BitVec.setWidth_eq]
  rw [show BitVec.ofInt 32 (-2) = -2 by decide, show BitVec.ofInt 32 4096 = 4096 by decide,
    ← BitVec.sub_eq_add_neg]
  ac_rfl

/-- A number of 28 bits is passed as it is. -/
theorem Load.sectorAddr_toNat {load : Load} {sector : Nat} (number : load.sector bpb = sector)
    (small : sector < 2 ^ 28) : (load.sectorAddr bpb).toNat = sector := by
  cases load with
  | bootSector => exact Int.ofNat.inj number
  | cluster cluster =>
      have exact : absoluteSector bpb cluster = sector := number
      show (clusterSector bpb (BitVec.ofInt 32 cluster)).toNat = sector
      rw [clusterSector_ofInt, exact, BitVec.ofInt_natCast, BitVec.toNat_ofNat,
        Nat.mod_eq_of_lt (by omega)]
  | fatSector cluster =>
      have exact : (4096 + bpb.reservedSectors.toNat + cluster.toNat / 128 : Int) = sector := number
      show (Fat.fatSector bpb (fatIndex cluster)).toNat = sector
      rw [fatSector_toNat]
      omega

/-- The drive is asked for the sector that is meant exactly when its number has
24 bits, or when a cluster has no sectors and nothing is asked for. -/
theorem load_asksFor_iff (bpb : Bpb) (load : Load) {sector : Nat}
    (number : load.sector bpb = sector) (small : sector < 2 ^ 28) :
    Ata.AsksFor .primary (load.command bpb) sector ↔
      sector < 2 ^ 24 ∨ load.sectorCount bpb = 0 := by
  have passed := Load.sectorAddr_toNat number small
  rw [← passed]
  exact Ata.asksFor_command_iff .primary .master (load.sectorAddr bpb)

/-- A volume with clusters of eight sectors that reaches beyond 8 GiB. -/
def largeVolume : Bpb where
  sectorsPerCluster := 8
  reservedSectors := 32
  fatCount := 2
  sectorsPerFat := 16384
  rootCluster := 2

theorem load_asksFor_iff_rootCluster :
    Ata.AsksFor .primary (Load.command largeVolume (.cluster 2)) 36896 :=
  (load_asksFor_iff largeVolume (.cluster 2) (by decide) (by decide)).mpr (Or.inl (by decide))

/-- The drive is asked for sector 0 in place of sector `2 ^ 24`. -/
theorem load_asksFor_other : Load.sector largeVolume (.cluster 2092542) = 2 ^ 24 ∧
    ¬ Ata.AsksFor .primary (Load.command largeVolume (.cluster 2092542)) (2 ^ 24) := by
  refine ⟨by decide, fun asksFor => ?_⟩
  exact absurd (asksFor 0 (by decide)) (by decide)

/-! ## The ports behind the driver's reads -/

/-- Below sector `2 ^ 24` the cluster that is loaded is the one that the ports
ask for. -/
theorem loadCluster_transfer (disk : Disk) (cluster : Int) (fat : Fat)
    (small : (Load.sectorAddr fat.mBpb (.cluster cluster)).toNat < 2 ^ 24) :
    loadCluster disk (BitVec.ofInt 32 cluster) fat =
      { fat with
        mClusterBuffer := Ata.transfer disk .primary (Load.command fat.mBpb (.cluster cluster))
          fat.mClusterBuffer (Load.sectorCount fat.mBpb (.cluster cluster)).toNat } := by
  rw [Load.command, Ata.transfer_command, Nat.mod_eq_of_lt small]
  have count : (Load.sectorCount fat.mBpb (.cluster cluster)).toNat =
      fat.mBpb.sectorsPerCluster.toNat :=
    BitVec.toNat_setWidth_of_le (by decide)
  rw [count]
  rfl

/-- Below sector `2 ^ 24` the block that is loaded is the one that the ports ask
for. -/
theorem loaded_transfer (disk : Disk) (cluster : BitVec 32) (fat : Fat) (block : FatBlock)
    (small : (Load.sectorAddr fat.mBpb (.fatSector cluster)).toNat < 2 ^ 24) :
    (loaded disk cluster fat block).data =
      Ata.transfer disk .primary (Load.command fat.mBpb (.fatSector cluster)) block.data
        (Load.sectorCount fat.mBpb (.fatSector cluster)).toNat := by
  rw [Load.command, Ata.transfer_command, Nat.mod_eq_of_lt small]
  rfl

end Loads

end Fat

end WeakOS
