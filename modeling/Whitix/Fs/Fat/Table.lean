import Whitix.Support.Sectors
import Whitix.Support.Word

/-!
# The file allocation table

`FatReadSuper` computes the layout of a volume from its boot sector, and
`FatAccess` reads and writes the entries of the table.  There are entries of
12, 16 and 32 bits; those of 12 bits may lie across two sectors.  After every
write the sectors concerned are copied to the backup tables.

The disk is the array of sectors that the block cache presents; reads do not
fail.
-/

namespace Whitix.Fat

open Support Function UInt8

/-! ## The layout of a volume -/

inductive FatType where
  | fat12
  | fat16
  | fat32
  deriving DecidableEq, Repr

structure FatBootSector where
  bytesPerSec : ℕ
  sectorsPerClus : ℕ
  reservedSectorCnt : ℕ
  numFats : ℕ
  numRootDirEnts : ℕ
  totalSecSmall : ℕ
  secsPerFat : ℕ
  totalSectorsLarge : ℕ
  secsPerFat32 : ℕ
  rootClus : ℕ

/-- `struct FatSbInfo` with the sector size of the mounted volume. -/
structure FatSbInfo where
  fatStart : ℕ
  fatLength : ℕ
  fatType : FatType
  invalidCluster : ℕ
  numFats : ℕ
  rootDirStart : ℕ
  rootDirLength : ℕ
  firstDataSector : ℕ
  totalDataSectors : ℕ
  clusterLength : ℕ
  secsPerClus : ℕ
  bytesPerSector : ℕ

variable (boot : FatBootSector)

def FatBootSector.fatLength : ℕ :=
  if boot.secsPerFat = 0 ∧ 0 < boot.secsPerFat32 then boot.secsPerFat32
  else boot.secsPerFat

def FatBootSector.totalSectors : ℕ :=
  if boot.totalSecSmall ≠ 0 then boot.totalSecSmall else boot.totalSectorsLarge

def sizeofDirEntry : ℕ := 32

/-- `FAT_ROOT_ID` -/
def fatRootId : ℕ := 0

def FatBootSector.rootDirLength : ℕ :=
  boot.numRootDirEnts * sizeofDirEntry / boot.bytesPerSec

def FatBootSector.firstDataSector : ℕ :=
  dword (boot.reservedSectorCnt + boot.numFats * boot.fatLength + boot.rootDirLength)

def FatBootSector.totalDataSectors : ℕ :=
  dwordSub boot.totalSectors boot.firstDataSector

def fatTypeOf (clusterCount : ℕ) : FatType :=
  if clusterCount < 4085 then .fat12
  else if clusterCount < 65525 then .fat16
  else .fat32

def FatType.invalidCluster : FatType → ℕ
  | .fat12 => 0xFF8
  | .fat16 => 0xFFF8
  | .fat32 => 0x0FFFFFF8

/-- The part of `FatReadSuper` that fills in the superblock. -/
def fatReadSuper : FatSbInfo :=
  let fatType := fatTypeOf (boot.totalDataSectors / boot.sectorsPerClus)
  { fatStart := boot.reservedSectorCnt
    fatLength := boot.fatLength
    fatType := fatType
    invalidCluster := fatType.invalidCluster
    numFats := boot.numFats
    rootDirStart :=
      if boot.secsPerFat = 0 ∧ 0 < boot.secsPerFat32 then boot.rootClus
      else boot.reservedSectorCnt + boot.numFats * boot.secsPerFat
    rootDirLength := boot.rootDirLength
    firstDataSector := boot.firstDataSector
    totalDataSectors := boot.totalDataSectors
    clusterLength := boot.bytesPerSec * boot.sectorsPerClus
    secsPerClus := boot.sectorsPerClus
    bytesPerSector := boot.bytesPerSec }

/-! ## Access to the table -/

section Access

variable (info : FatSbInfo)

section

variable (disk : Disk) (clusterNum : ℕ)

def fatFirst : ℕ :=
  match info.fatType with
  | .fat12 => dword (clusterNum * 3) / 2
  | .fat16 => dword (clusterNum * 2)
  | .fat32 => dword (clusterNum * 4)

/-- The offset `last`, which decides about a second sector. -/
def fatLast : ℕ :=
  match info.fatType with
  | .fat12 => fatFirst info clusterNum + 1
  | _ => fatFirst info clusterNum

def fatSector : ℕ :=
  info.fatStart + fatFirst info clusterNum / info.bytesPerSector

def fatSector2 : ℕ :=
  if fatFirst info clusterNum / info.bytesPerSector =
      fatLast info clusterNum / info.bytesPerSector then
    fatSector info clusterNum
  else fatSector info clusterNum + 1

def fatRead : ℕ :=
  let buff := disk (fatSector info clusterNum)
  let buff2 := disk (fatSector2 info clusterNum)
  let first := fatFirst info clusterNum
  match info.fatType with
  | .fat12 =>
    let pFirst := (buff (first % info.bytesPerSector)).toNat
    let pLast := (buff2 ((first + 1) % info.bytesPerSector)).toNat
    if clusterNum % 2 = 1 then ((pFirst >>> 4) ||| (pLast <<< 4)) &&& 0xFFF
    else (pFirst + (pLast <<< 8)) &&& 0xFFF
  | .fat16 => wordAt buff (first % info.bytesPerSector)
  | .fat32 => dwordAt buff (first % info.bytesPerSector) &&& 0xFFFFFFF

def fatStore (clusterNum newVal : ℕ) : Disk :=
  let sector := fatSector info clusterNum
  let sector2 := fatSector2 info clusterNum
  let offset := fatFirst info clusterNum % info.bytesPerSector
  let offset2 := (fatFirst info clusterNum + 1) % info.bytesPerSector
  match info.fatType with
  | .fat12 =>
    let pFirst := (disk sector offset).toNat
    let pLast := (disk sector2 offset2).toNat
    if clusterNum % 2 = 1 then
      setByte (setByte disk sector offset (UInt8.ofNat ((pFirst &&& 0xF) ||| (newVal <<< 4))))
        sector2 offset2 (UInt8.ofNat (newVal >>> 4))
    else
      setByte (setByte disk sector offset (UInt8.ofNat (newVal &&& 0xFF)))
        sector2 offset2 (UInt8.ofNat ((pLast &&& 0xF0) ||| (newVal >>> 8)))
  | .fat16 =>
    update disk sector (setWordAt (disk sector) offset newVal)
  | .fat32 =>
    update disk sector (setDwordAt (disk sector) offset newVal)

def copySector (source target : ℕ) : Disk :=
  update disk target (disk source)

def fatCopy : Disk :=
  (List.range' 1 (info.numFats - 1)).foldl (fun disk i =>
      let block := fatSector info clusterNum + info.fatLength * i
      let disk :=
        if fatSector info clusterNum = fatSector2 info clusterNum then disk
        else copySector disk (fatSector2 info clusterNum) (block + 1)
      copySector disk (fatSector info clusterNum) block)
    disk

def fatWrite (clusterNum newVal : ℕ) : Disk :=
  fatCopy info (fatStore info disk clusterNum newVal) clusterNum

/-- No new value stands for `-1`.  Cluster numbers that are too large make the kernel
panic. -/
def fatAccess (newVal : Option ℕ) : Option (ℕ × Disk) :=
  if info.totalDataSectors < clusterNum then none
  else
    match newVal with
    | none => some (fatRead info disk clusterNum, disk)
    | some v =>
      some (fatRead info disk clusterNum, fatWrite info disk clusterNum v)

end

end Access

end Whitix.Fat
