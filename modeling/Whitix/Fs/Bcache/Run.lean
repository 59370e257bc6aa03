import Whitix.Fs.Bcache.Calls
import Whitix.Support.Run

/-!
# Runs of the block cache

The block cache refines a plain array of bytes: along every run of its
functions, what is read through the cache is what the modifications have left
in the array, and after `BlockSyncDevice` the device holds the array.
-/

namespace Whitix.Bcache

open Support List Option

/-- The calls of a run.  A modification changes a buffer in place and passes
it to `BlockWrite`. -/
inductive BlockOp where
  | read (b : ℕ) (memory : Bool)
  | modify (b : ℕ) (data : ℕ → UInt8)
  | sync
  | setSize (blockSize : ℕ)

/-- A device, and the array of bytes to which the modifications are applied
directly. -/
structure BlockRun where
  dev : StorageDevice
  bytes : ℕ → UInt8

def blockStep (r : BlockRun) : BlockOp → Option BlockRun
  | .read b memory => some { r with dev := (blockRead r.dev b memory).2 }
  | .modify b data => some
      { dev := blockWrite (storeBuffer r.dev b data) b
        bytes := storeBytes r.bytes r.dev.softBlockSize b data }
  | .sync => (blockSyncDevice r.dev).map fun dev => { r with dev := dev }
  | .setSize blockSize =>
    (blockSetSize r.dev blockSize).map fun result =>
      { r with dev := result.2 }

/-- Blocks are read inside the device, and only buffers of blocks that were
read since the block size was set are modified. -/
def BlockOp.Legal (size : ℕ) (r : BlockRun) : BlockOp → Prop
  | .read b _ => Inside size r.dev b
  | .modify b _ => (blockFindBuffer r.dev b).isSome = true
  | .sync => True
  | .setSize _ => True

instance (size : ℕ) (r : BlockRun) : (op : BlockOp) → Decidable (op.Legal size r)
  | .read _ _ => inferInstanceAs (Decidable (_ ≤ _))
  | .modify _ _ => inferInstanceAs (Decidable (_ = _))
  | .sync | .setSize _ => isTrue trivial

/-- A device as `StorageDeviceInit` and `StorageDeviceAdd` leave it.  The
drivers have sectors of 512 or 2048 bytes. -/
structure StorageDevice.Fresh (dev : StorageDevice) : Prop where
  power : dev.blockSize.isPowerOfTwo
  soft : dev.softBlockSize = dev.blockSize
  empty : ∀ i, dev.hashLists i = []
  count : dev.numDirty = 0
  idle : dev.syncing = false

/-- The run has the invariant, and no synchronisation is under way between two
calls. -/
def BlockRun.Inv (size : ℕ) (r : BlockRun) : Prop :=
  CacheInv size r.dev r.bytes ∧ r.dev.syncing = false

variable {dev : StorageDevice} {size : ℕ}

theorem StorageDevice.Fresh.inv (h : dev.Fresh) (size : ℕ) : BlockRun.Inv size ⟨dev, dev.byte⟩ := by
  have hpos : 0 < dev.blockSize := Nat.pos_of_isPowerOfTwo h.power
  refine ⟨CacheInv.of_empty ⟨hpos, ?_, ?_⟩ h.power h.empty h.count fun _ _ => rfl, h.idle⟩
  · exact h.soft.symm ▸ hpos
  · exact dvd_of_eq h.soft.symm

theorem blockRead_syncing (dev : StorageDevice) (b : ℕ) (memory : Bool) :
    (blockRead dev b memory).2.syncing = dev.syncing := by
  unfold blockRead
  split
  · rfl
  · split
    · rfl
    · split <;> rfl

theorem blockWrite_syncing (dev : StorageDevice) (b : ℕ) :
    (blockWrite dev b).syncing = dev.syncing := by
  unfold blockWrite
  split
  · rfl
  · split <;> rfl

theorem BlockRun.Inv.step (hsize : size < 2 ^ 32) {r r' : BlockRun} {op : BlockOp} (h : r.Inv size)
    (hlegal : op.Legal size r) (hstep : blockStep r op = some r') : r'.Inv size := by
  obtain ⟨hinv, hidle⟩ := h
  cases op with
  | read b memory =>
    cases hstep
    exact ⟨blockRead_inv hsize hinv hlegal memory, (blockRead_syncing r.dev b memory).trans hidle⟩
  | modify b data =>
    cases hstep
    exact ⟨modify_inv hinv hlegal data, (blockWrite_syncing _ b).trans hidle⟩
  | sync =>
    obtain ⟨dev', hsync, hinv', -, hidle', -⟩ :=
      blockSyncDevice_spec hsize hinv hidle
    rw [blockStep, hsync] at hstep
    cases hstep
    exact ⟨hinv', hidle'⟩
  | setSize blockSize =>
    obtain ⟨result, hset, hinv', hidle'⟩ :=
      blockSetSize_spec hsize hinv hidle blockSize
    rw [blockStep, hset] at hstep
    cases hstep
    exact ⟨hinv', hidle'⟩

theorem CacheInv.table_nodup {bytes : ℕ → UInt8} (h : CacheInv size dev bytes) :
    ((range hashNumEntries).flatMap fun i =>
      (dev.hashLists i).map Buffer.blockNum).Nodup := by
  refine nodup_flatMap.mpr ⟨fun i _ => h.unique i, ?_⟩
  refine nodup_range.imp ?_
  intro i i' hne b hb hb'
  obtain ⟨x, hx, rfl⟩ := mem_map.mp hb
  obtain ⟨y, hy, hnum⟩ := mem_map.mp hb'
  exact hne (h.eq_of_blockNum hx hy hnum.symm).1

/-- In every run on a device of less than 4 GB, `BlockRead` returns the bytes of
the array to which the modifications were applied, the table has one buffer for
a block at most, `numDirty` is exact, and `BlockSyncDevice` writes the whole
array. -/
theorem block_cache_refines_disk (size : ℕ) (hsize : size < 2 ^ 32)
    (dev : StorageDevice) (hfresh : dev.Fresh) (r : BlockRun)
    (h : Reach blockStep (fun r op => BlockOp.Legal size r op) ⟨dev, dev.byte⟩ r) :
    (∀ b, Inside size r.dev b → (∀ memory buff, (blockRead r.dev b memory).1 = some buff →
        ∀ j < r.dev.softBlockSize, buff.data j = r.bytes (b * r.dev.softBlockSize + j)) ∧
      (r.dev.softBlockSize ≤ memAllocMax → ∃ buff, (blockRead r.dev b true).1 = some buff)) ∧
    ((range hashNumEntries).flatMap fun i =>
      (r.dev.hashLists i).map Buffer.blockNum).Nodup ∧
    r.dev.numDirty = dirtyCount r.dev.hashLists ∧
    r.dev.syncing = false ∧
    ∃ dev', blockSyncDevice r.dev = some dev' ∧ ∀ k < size, dev'.byte k = r.bytes k := by
  have hinv : r.Inv size := h.invariant (hfresh.inv size)
    fun _ _ _ hs hlegal hstep => hs.step hsize hlegal hstep
  obtain ⟨hcache, hidle⟩ := hinv
  refine ⟨?_, hcache.table_nodup, hcache.count, hidle, ?_⟩
  · intro b hb
    exact ⟨fun memory buff hread => blockRead_data hsize hcache hb hread,
      blockRead_returns hsize hcache hb⟩
  · obtain ⟨dev', hsync, hcache', -, -, hzero⟩ :=
      blockSyncDevice_spec hsize hcache hidle
    exact ⟨dev', hsync, hcache'.disk_eq hzero⟩

def zeroDevice : StorageDevice where
  blockSize := 512
  softBlockSize := 512
  numDirty := 0
  syncing := false
  hashLists := fun _ => []
  disk := fun _ _ => 0

/-- Two blocks are modified, the block size is doubled, and a byte of the
second block is read back through a block of the new size. -/
theorem block_cache_refines_disk_resize :
    ∃ r buff dev', (blockRead r.dev 1 true).1 = some buff ∧
      buff.data 513 = 9 ∧ r.dev.softBlockSize = 1024 ∧
      blockSyncDevice r.dev = some dev' ∧
      dev'.byte (3 * 512 + 1) = 9 ∧
      Reach blockStep (fun r op => BlockOp.Legal 8192 r op) ⟨zeroDevice, zeroDevice.byte⟩ r := by
  have hfresh : zeroDevice.Fresh :=
    ⟨⟨9, rfl⟩, rfl, fun _ => rfl, rfl, rfl⟩
  obtain ⟨r, hreach, hsoft, hbytes⟩ := exists_reach blockStep (fun r op => BlockOp.Legal 8192 r op)
    ⟨zeroDevice, zeroDevice.byte⟩ [.read 2 true, .read 3 true, .modify 3 (fun _ => 9),
      .modify 2 (fun _ => 5), .setSize 1024]
    (fun r => r.dev.softBlockSize = 1024 ∧ r.bytes (1 * 1024 + 513) = 9) rfl
  obtain ⟨hread, -, -, -, dev', hsync, hdisk⟩ :=
    block_cache_refines_disk 8192 (by decide) zeroDevice hfresh r hreach
  have hinside : Inside 8192 r.dev 1 := by
    rw [Inside, hsoft]
    decide
  obtain ⟨hdata, hreturns⟩ := hread 1 hinside
  obtain ⟨buff, hbuff⟩ := hreturns (by rw [hsoft]; decide)
  refine ⟨r, buff, dev', hbuff, ?_, hsoft, hsync, ?_, hreach⟩
  · rw [hdata true buff hbuff 513 (by rw [hsoft]; decide), hsoft, hbytes]
  · rw [hdisk _ (by decide)]
    exact hbytes

end Whitix.Bcache
