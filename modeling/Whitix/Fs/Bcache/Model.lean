import Whitix.Include.Error
import Whitix.Support.Sectors
import Whitix.Support.Word

/-!
# The block cache

`fs/vfs/bcache.c` keeps the blocks of a storage device in buffers.  The buffers
are in a hash table by block number.  A modified buffer is only marked dirty,
and `BlockSyncDevice` writes it to the device later.  `BlockSetSize` changes
the size of the blocks after it has written and released all buffers.

Locks, reference counts and wait queues are left out: calls run one at a time.
The driver performs every request on the sectors it names, without errors.
-/

namespace Whitix.Bcache

open Support

/-! ## Data -/

/-- `struct Buffer` with the dirty bit of its flags. -/
structure Buffer where
  blockNum : ℕ
  dirty : Bool
  data : ℕ → UInt8

/-- `struct StorageDevice` and the contents of the device by sector. -/
structure StorageDevice where
  blockSize : ℕ
  softBlockSize : ℕ
  numDirty : ℕ
  syncing : Bool
  hashLists : ℕ → List Buffer
  disk : Disk

structure Request where
  sector : ℕ
  numSectors : ℕ

def hashNumEntries : ℕ := 2 ^ 16 / 8

def hashMask : ℕ := hashNumEntries - 1

def bufferHash (blockNum : ℕ) : ℕ := blockNum &&& hashMask

def memAllocMax : ℕ := 131072

/-! ## Requests -/

variable (dev : StorageDevice) (blockNum : ℕ)

/-- `StorageBuildRequest`, which multiplies in 32 bits. -/
def storageBuildRequest : Option Request :=
  if dev.blockSize = 0 then none
  else some
    { sector := dword (blockNum * dev.softBlockSize) / dev.blockSize
      numSectors := dev.softBlockSize / dev.blockSize }

def driverRead (request : Request) : ℕ → UInt8 :=
  fun j =>
    if j < request.numSectors * dev.blockSize then
      dev.disk (request.sector + j / dev.blockSize) (j % dev.blockSize)
    else 0

def driverWrite (request : Request) (data : ℕ → UInt8) : Disk :=
  fun sector offset =>
    if request.sector ≤ sector ∧ sector < request.sector + request.numSectors then
      data ((sector - request.sector) * dev.blockSize + offset)
    else dev.disk sector offset

/-! ## Reading and writing blocks -/

def blockFindBuffer : Option Buffer :=
  (dev.hashLists (bufferHash blockNum)).find? fun x => x.blockNum = blockNum

def blockAddToHashTable (buff : Buffer) : StorageDevice :=
  { dev with
    hashLists := Function.update dev.hashLists (bufferHash buff.blockNum)
      (dev.hashLists (bufferHash buff.blockNum) ++ [buff]) }

/-- `memory` tells whether the buffer itself can be allocated. -/
def blockRead (memory : Bool) : Option Buffer × StorageDevice :=
  match blockFindBuffer dev blockNum with
  | some buff => (some buff, dev)
  | none =>
    if memory = false ∨ memAllocMax < dev.softBlockSize then (none, dev)
    else
      match storageBuildRequest dev blockNum with
      | none => (none, dev)
      | some request =>
        let buff :=
          { blockNum := blockNum
            dirty := false
            data := driverRead dev request }
        (some buff, blockAddToHashTable dev buff)

def updateBuffer (change : Buffer → Buffer) : StorageDevice :=
  { dev with
    hashLists := Function.update dev.hashLists (bufferHash blockNum)
      ((dev.hashLists (bufferHash blockNum)).map fun x =>
        if x.blockNum = blockNum then change x else x) }

def storeBuffer (data : ℕ → UInt8) : StorageDevice :=
  updateBuffer dev blockNum fun x => { x with data := data }

def blockWrite : StorageDevice :=
  match blockFindBuffer dev blockNum with
  | none => dev
  | some buff =>
    if buff.dirty then dev
    else
      { updateBuffer dev blockNum fun x => { x with dirty := true } with
        numDirty := dev.numDirty + 1 }

/-! ## Synchronisation -/

def doBlockWrite (buff : Buffer) : Disk :=
  match storageBuildRequest dev buff.blockNum with
  | none => dev.disk
  | some request => driverWrite dev request buff.data

/-- The body of the inner loop of `BlockSyncDevice`, for buffer `j` of
bucket `i`. -/
def flushBuffer (i j : ℕ) : StorageDevice :=
  match (dev.hashLists i)[j]? with
  | none => dev
  | some buff =>
    if buff.dirty then
      { dev with
        numDirty := dev.numDirty - 1
        hashLists := Function.update dev.hashLists i
          ((dev.hashLists i).set j { buff with dirty := false })
        disk := doBlockWrite dev buff }
    else dev

def syncBucket (i : ℕ) : ℕ → ℕ → StorageDevice → StorageDevice
  | 0, _, dev => dev
  | n + 1, j, dev =>
    let dev := flushBuffer dev i j
    if dev.numDirty = 0 then dev else syncBucket i n (j + 1) dev

def syncBuckets : ℕ → ℕ → StorageDevice → StorageDevice
  | 0, _, dev => dev
  | n + 1, i, dev =>
    let dev := syncBucket i (dev.hashLists i).length 0 dev
    if dev.numDirty = 0 then dev else syncBuckets n (i + 1) dev

/-- After one round no buffer is dirty.  If the counter is not zero then, no further
round will change it, and the function does not return. -/
def blockSyncDevice : Option StorageDevice :=
  if dev.syncing ∨ dev.numDirty = 0 then some dev
  else
    let dev := syncBuckets hashNumEntries 0 { dev with syncing := true }
    if dev.numDirty = 0 then some { dev with syncing := false } else none

/-- `BlockDeviceFreeAll`, which waits until no buffer is dirty. -/
def blockDeviceFreeAll : Option StorageDevice :=
  (if dev.numDirty = 0 then some dev
    else (blockSyncDevice dev).bind fun dev =>
      if dev.numDirty = 0 then some dev else none).map fun dev =>
    { dev with
      hashLists := fun i => if i < hashNumEntries then [] else dev.hashLists i }

def blockSetSize (blockSize : ℕ) : Option (ℤ × StorageDevice) :=
  if blockSize = 0 then some (-EINVAL, dev)
  else if blockSize &&& (blockSize - 1) ≠ 0 then some (-EINVAL, dev)
  else if blockSize < dev.blockSize then some (-EINVAL, dev)
  else if dev.softBlockSize = blockSize then some (0, dev)
  else (blockDeviceFreeAll dev).map fun dev =>
    (0, { dev with softBlockSize := blockSize })

end Whitix.Bcache
