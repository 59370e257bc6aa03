import Whitix.Fs.Ext3.Accounting

/-!
# Truncating files in ext3

`Ext3BlockTruncate` hands the places of the blocks in the file to `Ext3BlockFree`, and
not the numbers that the inode has for them, and leaves the inode as it is.
-/

namespace Whitix.Ext3

open Support Bitmap Finset

/-- The size of a file and its direct blocks; zero stands for no block. -/
structure INode where
  size : ℕ
  blocks : Fin 12 → ℕ

variable (sb : SbInfo) (vol : Volume)

/-- The loop of `Ext3BlockTruncate` with `n` blocks to go.  It does not return from
`hlt`. -/
def truncateLoop (startBlock : ℤ) : ℕ → Disk → Option Disk
  | 0, disk => some disk
  | n + 1, disk =>
    let i := startBlock + n
    if i < 12 then truncateLoop startBlock n (ext3BlockFree sb disk (i % 2 ^ 32).toNat).2
    else none

def SbInfo.startBlock (size : ℕ) : ℤ := (int32 size).tdiv sb.blockSize

def SbInfo.endBlock (size : ℕ) : ℤ :=
  (int32 (int32 size + sb.blockSize + 1)).tdiv sb.blockSize

def ext3BlockTruncate (size : ℕ) : Disk → Option Disk :=
  truncateLoop sb (sb.startBlock size) (sb.endBlock size - sb.startBlock size).toNat

def ext3Truncate (node : INode) (disk : Disk) (size : ℕ) : Option (INode × Disk) :=
  if size < node.size then (ext3BlockTruncate sb size disk).map (node, ·) else some (node, disk)

/-- The mapped blocks past the new size. -/
def INode.tail (node : INode) (blockSize size : ℕ) : Finset (Fin 12) :=
  univ.filter fun i => size ≤ i * blockSize ∧ node.blocks i ≠ 0

/-- Exactly the blocks of the tail are freed, counted and no longer mapped. -/
def TruncatesTail (node : INode) (disk : Disk) (size : ℕ) : Prop :=
  let tail := node.tail vol.blockSize size
  ∃ node' disk', ext3Truncate vol.toSbInfo node disk size = some (node', disk') ∧
    (∀ i, node'.blocks i = if i ∈ tail then 0 else node.blocks i) ∧
    superFreeBlocks vol.toSbInfo disk' = superFreeBlocks vol.toSbInfo disk + tail.card ∧
    ∀ i < vol.groupCount,
      descFreeBlocks vol.toSbInfo disk' i = descFreeBlocks vol.toSbInfo disk i + (tail.filter
        fun t => ∃ j < vol.blocksPerGrp, node.blocks t = vol.blockNumber i j).card ∧
      ∀ j < vol.blocksPerGrp, vol.bit disk' i j =
        if ∃ t ∈ tail, node.blocks t = vol.blockNumber i j then false else vol.bit disk i j

def SbInfo.Refuses (i : ℤ) : Prop :=
  sb.groupCount ≤ dwordSub (i % 2 ^ 32).toNat sb.firstDataBlock / sb.blocksPerGrp
  deriving Decidable

variable {sb vol} {node : INode} {disk disk' : Disk} {n size : ℕ} {start : ℤ}

theorem truncateLoop_of_refuses (h : ∀ i, start ≤ i → i < start + n → i < 12 ∧ sb.Refuses i) :
    truncateLoop sb start n disk = some disk := by
  induction n with
  | zero => rfl
  | succ n ih =>
    obtain ⟨hlt, hrefuses⟩ := h (start + n) (by omega) (by omega)
    unfold SbInfo.Refuses at hrefuses
    rw [truncateLoop, if_pos hlt, ext3BlockFree, if_pos hrefuses]
    exact ih fun i hi hn => h i hi (by omega)

theorem truncateLoop_counts
    (h : ∀ i < vol.groupCount, blockBitmap vol.toSbInfo disk i = vol.bitmapBlock i)
    (hloop : truncateLoop vol.toSbInfo start n disk = some disk') :
    ∃ k ≤ n, superFreeBlocks vol.toSbInfo disk' = (superFreeBlocks vol.toSbInfo disk + k) % 2 ^ 32 ∧
      (k = 0 → ∀ i, start ≤ i → i < start + n → i < 12 ∧ vol.Refuses i) := by
  induction n generalizing disk with
  | zero =>
    cases hloop
    exact ⟨0, Nat.le_refl 0, (Nat.mod_eq_of_lt (dwordAt_lt _ _)).symm, fun _ i hi hn => by omega⟩
  | succ n ih =>
    rw [truncateLoop] at hloop
    split_ifs at hloop with hlt
    rw [ext3BlockFree] at hloop
    split_ifs at hloop with hrefuses
    · obtain ⟨k, hk, hcount, hzero⟩ := ih h hloop
      refine ⟨k, Nat.le_succ_of_le hk, hcount, fun hk i hi hn => ?_⟩
      rcases (show i < start + n ∨ i = start + n by omega) with hn | rfl
      · exact hzero hk i hi hn
      · exact ⟨hlt, hrefuses⟩
    · have hgroup := not_le.mp hrefuses
      have hput := changed_putBlock (h _ hgroup) hgroup
        (dwordSub ((start + n) % 2 ^ 32).toNat vol.firstDataBlock % vol.blocksPerGrp)
      obtain ⟨k, hk, hcount, -⟩ := ih (fun i hi => (hput.bitmaps i hi).trans (h i hi)) hloop
      refine ⟨k + 1, Nat.succ_le_succ hk, ?_, fun hk => absurd hk (Nat.succ_ne_zero k)⟩
      rw [hcount, hput.super, dword, Nat.mod_add_mod, add_assoc, add_comm 1]

theorem truncateLoop_le (h : truncateLoop sb start n disk = some disk') :
    n = 0 ∨ start + n ≤ 12 := by
  cases n with
  | zero => exact .inl rfl
  | succ n =>
    rw [truncateLoop] at h
    split_ifs at h with hlt
    right
    omega

theorem startBlock_ge (sb : SbInfo) (size : ℕ) : -2 ^ 31 ≤ sb.startBlock size := by
  have hle : (sb.startBlock size).natAbs ≤ _ := Int.natAbs_tdiv_le_natAbs _ _
  have hlow : -((2 ^ 32 : ℕ) / 2 : ℤ) ≤ int32 size := Int.le_bmod (by decide)
  have hhigh : int32 size < ((2 ^ 32 : ℕ) + 1) / 2 := Int.bmod_lt (by decide)
  omega

/-- Truncation is right if and only if there is no tail and nothing is freed. -/
theorem ext3_truncate_iff (haccounted : Accounted vol disk) (hsize : size < node.size) :
    TruncatesTail vol node disk size ↔ node.tail vol.blockSize size = ∅ ∧
      ∀ i, vol.startBlock size ≤ i → i < vol.endBlock size → i < 12 ∧ vol.Refuses i := by
  rw [TruncatesTail, ext3Truncate, if_pos hsize]
  constructor
  · rintro ⟨node', disk', hrun, hblocks, hsuper, -⟩
    obtain ⟨_, hloop, heq⟩ := Option.map_eq_some_iff.mp hrun
    cases heq
    have htail : node.tail vol.blockSize size = ∅ := by
      refine eq_empty_of_forall_notMem fun i hi => ?_
      have hzero := hblocks i
      rw [if_pos hi] at hzero
      exact (mem_filter.mp hi).2.2 hzero
    rw [htail, card_empty, add_zero] at hsuper
    obtain ⟨k, hk, hcount, hzero⟩ := truncateLoop_counts haccounted.bitmaps hloop
    have hle := truncateLoop_le hloop
    have hstart := startBlock_ge vol.toSbInfo size
    exact ⟨htail, fun i hi hend => hzero (by omega) i hi (by omega)⟩
  · rintro ⟨htail, hrefuses⟩
    have hloop : ext3BlockTruncate vol.toSbInfo size disk = some disk :=
      truncateLoop_of_refuses fun i hi hn => hrefuses i hi (by omega)
    refine ⟨node, disk, by rw [hloop]; rfl, fun i => ?_, ?_, fun i hi => ⟨?_, fun j hj => ?_⟩⟩
    all_goals simp [htail]

def twoAllocated : Disk
  | 1, 12 => 8
  | 2, 0 => 3
  | 2, 12 => 2
  | 2, 32 => 4
  | 2, 44 => 6
  | 3, 0 => 0x3F
  | 4, 0 => 0xC0
  | _, _ => 0

def fileOf (size second : ℕ) : INode :=
  ⟨size, fun i => if i = 0 then 5 else if i = 1 then second else 0⟩

theorem twoAllocated_accounted : Accounted twoGroups twoAllocated :=
  ⟨by decide, by decide, by decide, by decide⟩

theorem ext3_truncate_iff_first_block :
    Accounted twoGroups twoAllocated ∧ TruncatesTail twoGroups (fileOf 600 0) twoAllocated 500 := by
  refine ⟨twoAllocated_accounted, (ext3_truncate_iff twoAllocated_accounted (by decide)).mpr ?_⟩
  have hend : twoGroups.endBlock 500 = 1 := by decide +kernel
  refine ⟨by decide, fun i hi hlt => ?_⟩
  obtain rfl : i = 0 := by
    have hstart : twoGroups.startBlock 500 = 0 := by decide +kernel
    omega
  exact ⟨by decide, by decide⟩

/-- The block of the superblock is freed, and the last block of the file stays mapped. -/
theorem ext3_truncate_frees_superblock :
    (ext3Truncate twoGroups.toSbInfo (fileOf 2048 6) twoAllocated 1024).map
      (fun r => twoGroups.bit r.2 0 0) = some false ∧
    ¬ TruncatesTail twoGroups (fileOf 2048 6) twoAllocated 1024 := by
  refine ⟨by decide +kernel, ?_⟩
  rintro ⟨node', disk', hrun, hblocks, -⟩
  rw [ext3Truncate, if_pos (by decide)] at hrun
  obtain ⟨_, -, heq⟩ := Option.map_eq_some_iff.mp hrun
  cases heq
  have hzero := hblocks 1
  cases hzero

end Whitix.Ext3
