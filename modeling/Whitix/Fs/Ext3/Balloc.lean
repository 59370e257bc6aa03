import Mathlib.Algebra.BigOperators.Group.Finset.Basic
import Whitix.Include.Error
import Whitix.Lib.Bitmap
import Whitix.Support.Run
import Whitix.Support.Sectors
import Whitix.Support.Word

/-!
# Block allocation in ext3

A volume is divided into groups of `blocksPerGrp` blocks.  Every group has
a bitmap, in a block of its own, and a descriptor with the number of its free
blocks; the superblock has the number of free blocks of the volume.  All of them
are bytes in blocks of the volume, and a block that is allocated is zeroed.

Blocks are read and changed in the buffer cache, so the model has one copy of
each.  Reading a block does not fail.  The calls to the journal do not change a
block and are left out.
-/

namespace Whitix.Ext3

open Support Bitmap

/-- `struct Ext3SbInfo` with the size of a block and the place of the
superblock. -/
structure SbInfo where
  blockSize : ℕ
  groupCount : ℕ
  firstDataBlock : ℕ
  blocksPerGrp : ℕ
  sbSector : ℕ
  sbOffset : ℕ
  deriving DecidableEq, Repr

def sizeofGroupDesc : ℕ := 32

/-- Offset of `freeBlocks` in `struct Ext3GroupDesc` and in
`struct Ext3SuperBlock`. -/
def freeBlocksOffset : ℕ := 12

variable (sb : SbInfo) (disk : Disk)

/-! ## Descriptors and the superblock -/

def SbInfo.descsPerBlock : ℕ := sb.blockSize / sizeofGroupDesc

section

variable (groupNo : ℕ)

/-- The block of a group descriptor; the descriptors follow the superblock. -/
def SbInfo.descBlock : ℕ :=
  sb.sbSector + groupNo / sb.descsPerBlock + 1

def SbInfo.descOffset : ℕ :=
  groupNo % sb.descsPerBlock * sizeofGroupDesc

def blockBitmap : ℕ :=
  dwordAt (disk (sb.descBlock groupNo)) (sb.descOffset groupNo)

def descFreeBlocks : ℕ :=
  wordAt (disk (sb.descBlock groupNo)) (sb.descOffset groupNo + freeBlocksOffset)

def superFreeBlocks : ℕ :=
  dwordAt (disk sb.sbSector) (sb.sbOffset + freeBlocksOffset)

def modifyBlock (disk : Disk) (block : ℕ) (f : (ℕ → UInt8) → ℕ → UInt8) : Disk :=
  Function.update disk block (f (disk block))

def setDescFreeBlocks (groupNo value : ℕ) : Disk :=
  modifyBlock disk (sb.descBlock groupNo) fun data =>
    setWordAt data (sb.descOffset groupNo + freeBlocksOffset) value

def setSuperFreeBlocks (value : ℕ) : Disk :=
  modifyBlock disk sb.sbSector fun data =>
    setDwordAt data (sb.sbOffset + freeBlocksOffset) value

def zeroBlock (block : ℕ) : Disk :=
  modifyBlock disk block fun data i => if i < sb.blockSize then 0 else data i

def ext3BlockLoadBitmap : ℕ → UInt8 :=
  disk (blockBitmap sb disk groupNo)

def setBitmapBit (groupNo index : ℕ) (value : Bool) : Disk :=
  modifyBlock disk (blockBitmap sb disk groupNo) fun data =>
    bmapSetBit data index value

/-! ## Allocating and freeing -/

/-- What the loop of `Ext3BlockNew` finds in a group. -/
def groupFindFree : Option ℕ :=
  let j := bitFindFirstZero (ext3BlockLoadBitmap sb disk groupNo) sb.blocksPerGrp
  if descFreeBlocks sb disk groupNo ≠ 0 ∧ j < sb.blocksPerGrp then some j
  else none

end

/-- The loop of `Ext3BlockNew`: a group and an index in it. -/
def findFree : Option (ℕ × ℕ) :=
  (List.range sb.groupCount).findSome? fun i =>
    (groupFindFree sb disk i).map (i, ·)

def takeBlock (i j : ℕ) : Disk :=
  let disk := setBitmapBit sb disk i j true
  let disk := setDescFreeBlocks sb disk i ((descFreeBlocks sb disk i + 2 ^ 16 - 1) % 2 ^ 16)
  setSuperFreeBlocks sb disk (dwordSub (superFreeBlocks sb disk) 1)

def ext3BlockNew : ℕ × Disk :=
  match findFree sb disk with
  | none => (0, disk)
  | some (i, j) =>
    let block := dword (j + i * sb.blocksPerGrp + sb.firstDataBlock)
    (block, zeroBlock sb (takeBlock sb disk i j) block)

def putBlock (i j : ℕ) : Disk :=
  let disk := setBitmapBit sb disk i j false
  let disk := setDescFreeBlocks sb disk i ((descFreeBlocks sb disk i + 1) % 2 ^ 16)
  setSuperFreeBlocks sb disk (dword (superFreeBlocks sb disk + 1))

def ext3BlockFree (blockNo : ℕ) : ℤ × Disk :=
  let blockNo := dwordSub blockNo sb.firstDataBlock
  if sb.groupCount ≤ blockNo / sb.blocksPerGrp then (- EIO, disk)
  else
    (0, putBlock sb disk (blockNo / sb.blocksPerGrp) (blockNo % sb.blocksPerGrp))

/-! ## Volumes -/

/-- A volume as it is mounted.  A bitmap fits into one block, the last group may
be short, and the superblock, the descriptors and the bitmaps are in different
blocks. -/
structure Volume extends SbInfo where
  blocksCount : ℕ
  bitmapBlock : ℕ → ℕ
  blockSize_dvd : 1024 ∣ blockSize := by decide
  blockSize_pos : 0 < blockSize := by decide
  sbSector_eq : sbSector = 1024 / blockSize := by decide
  sbOffset_eq : sbOffset = 1024 % blockSize := by decide
  blocksPerGrp_pos : 0 < blocksPerGrp := by decide
  blocksPerGrp_le : blocksPerGrp ≤ 8 * blockSize := by decide
  blocksCount_lt : blocksCount < 2 ^ 32 := by decide
  firstDataBlock_le : firstDataBlock ≤ blocksCount := by decide
  blocksCount_le : blocksCount ≤ firstDataBlock + groupCount * blocksPerGrp := by decide
  bitmapBlock_injective : ∀ i < groupCount, ∀ j < groupCount,
    bitmapBlock i = bitmapBlock j → i = j := by decide
  bitmapBlock_ne : ∀ i < groupCount, bitmapBlock i ≠ sbSector ∧
    ∀ j < groupCount, bitmapBlock i ≠ toSbInfo.descBlock j := by decide

variable (vol : Volume) (s : System)

def Volume.blockNumber (i j : ℕ) : ℕ :=
  vol.firstDataBlock + i * vol.blocksPerGrp + j

def Volume.bit (disk : Disk) (i j : ℕ) : Bool :=
  bmapGetBit (disk (vol.bitmapBlock i)) j

def Volume.zeroBits (disk : Disk) (i : ℕ) : ℕ :=
  ((Finset.range vol.blocksPerGrp).filter fun j =>
    vol.bit disk i j = false).card

/-- The descriptors point to the bitmaps, every group counts its zero bits, the
superblock has their sum, and the bits past the end of the volume are set. -/
structure Accounted (disk : Disk) : Prop where
  bitmaps : ∀ i < vol.groupCount, blockBitmap vol.toSbInfo disk i = vol.bitmapBlock i
  groups : ∀ i < vol.groupCount, descFreeBlocks vol.toSbInfo disk i = vol.zeroBits disk i
  super : superFreeBlocks vol.toSbInfo disk = ∑ i ∈ Finset.range vol.groupCount, vol.zeroBits disk i
  past : ∀ i < vol.groupCount, ∀ j < vol.blocksPerGrp,
    vol.blocksCount ≤ vol.blockNumber i j → vol.bit disk i j = true

/-- Block zero, which stands for no block, the superblock, and the blocks of the
descriptors and of the bitmaps. -/
def Volume.Reserved (block : ℕ) : Prop :=
  block = 0 ∨ block = vol.sbSector ∨ ∃ i < vol.groupCount,
      block = vol.descBlock i ∨ block = vol.bitmapBlock i

instance (block : ℕ) : Decidable (vol.Reserved block) :=
  inferInstanceAs (Decidable (_ ∨ _ ∨ _))

def Volume.Allocated (disk : Disk) (block : ℕ) : Prop :=
  ∃ i < vol.groupCount, ∃ j < vol.blocksPerGrp,
    block = vol.blockNumber i j ∧ block < vol.blocksCount ∧ vol.bit disk i j = true

instance (disk : Disk) (block : ℕ) : Decidable (vol.Allocated disk block) :=
  inferInstanceAs (Decidable (∃ i < vol.groupCount, _))

/-! ## Runs -/

/-- The volume and the blocks that have been allocated and not been freed. -/
structure System where
  disk : Disk
  live : Finset ℕ

inductive Op
  | new
  | free (blockNo : ℕ)
  deriving DecidableEq, Repr

def step : Op → Option System
  | .new =>
    let r := ext3BlockNew vol.toSbInfo s.disk
    some ⟨r.2, if r.1 = 0 then s.live else insert r.1 s.live⟩
  | .free blockNo =>
    if vol.Allocated s.disk blockNo then
      some ⟨(ext3BlockFree vol.toSbInfo s.disk blockNo).2, s.live.erase blockNo⟩
    else none

def Volume.BitChanged (disk disk' : Disk) (i j : ℕ) (value : Bool) : Prop :=
  ∀ i' < vol.groupCount, ∀ j', vol.bit disk' i' j' =
      if i' = i ∧ j' = j then value else vol.bit disk i' j'

/-- `Ext3BlockNew` returns zero if and only if no bit is zero.  Otherwise it
sets one bit that was zero, and the block it returns is not in use. -/
def NewAllocates : Prop :=
  ((ext3BlockNew vol.toSbInfo s.disk).1 = 0 ↔
    ∀ i < vol.groupCount, ∀ j < vol.blocksPerGrp, vol.bit s.disk i j = true) ∧
  ((ext3BlockNew vol.toSbInfo s.disk).1 ≠ 0 → (ext3BlockNew vol.toSbInfo s.disk).1 ∉ s.live ∧
    ∃ i < vol.groupCount, ∃ j < vol.blocksPerGrp,
      (ext3BlockNew vol.toSbInfo s.disk).1 = vol.blockNumber i j ∧
      vol.bit s.disk i j = false ∧
      vol.BitChanged s.disk (ext3BlockNew vol.toSbInfo s.disk).2 i j true)

/-- `Ext3BlockFree` clears the bit of the block and no other one. -/
def FreeClears : Prop :=
  ∀ i < vol.groupCount, ∀ j < vol.blocksPerGrp,
    vol.blockNumber i j < vol.blocksCount → vol.bit s.disk i j = true →
      (ext3BlockFree vol.toSbInfo s.disk (vol.blockNumber i j)).1 = 0 ∧
      vol.BitChanged s.disk (ext3BlockFree vol.toSbInfo s.disk (vol.blockNumber i j)).2 i j false

def ReservedInUse (disk : Disk) : Prop :=
  ∀ i < vol.groupCount, ∀ j < vol.blocksPerGrp,
    vol.Reserved (vol.blockNumber i j) → vol.bit disk i j = true

/-- The block that is freed does not belong to the file system itself, and its
group can count one more free block. -/
def FreesData : Op → Prop
  | .new => True
  | .free blockNo => ¬ vol.Reserved blockNo ∧
      descFreeBlocks vol.toSbInfo s.disk
        ((blockNo - vol.firstDataBlock) / vol.blocksPerGrp) + 1 < 2 ^ 16

instance : (op : Op) → Decidable (FreesData vol s op)
  | .new => isTrue trivial
  | .free _ => inferInstanceAs (Decidable (_ ∧ _))

end Whitix.Ext3
