import Whitix.Fs.Bcache.Model
import Mathlib.Algebra.BigOperators.Group.Finset.Basic

/-!
# The invariant of the block cache

The cache together with its device represents an array of bytes: a byte of a
cached block is in the buffer, any other byte is on the disk, and buffers that
are not dirty agree with the disk.
-/

namespace Whitix.Bcache

open Support Function List Nat

def StorageDevice.byte (dev : StorageDevice) (k : ℕ) : UInt8 :=
  flat dev.disk 0 dev.blockSize k

def dirtyCount (hashLists : ℕ → List Buffer) : ℕ :=
  ∑ i ∈ Finset.range hashNumEntries, (hashLists i).countP Buffer.dirty

theorem bufferHash_lt (blockNum : ℕ) : bufferHash blockNum < hashNumEntries := by
  change blockNum &&& (2 ^ 13 - 1) < 2 ^ 13
  rw [and_two_pow_sub_one_eq_mod]
  exact mod_lt _ (by decide)

theorem dirtyCount_update (hashLists : ℕ → List Buffer) {i : ℕ}
    (hi : i < hashNumEntries) (bucket : List Buffer) :
    dirtyCount (update hashLists i bucket) + (hashLists i).countP Buffer.dirty =
      dirtyCount hashLists + bucket.countP Buffer.dirty := by
  have hmem : i ∈ Finset.range hashNumEntries := Finset.mem_range.mpr hi
  have hrest : ∑ x ∈ (Finset.range hashNumEntries).erase i,
      (update hashLists i bucket x).countP Buffer.dirty =
        ∑ x ∈ (Finset.range hashNumEntries).erase i, (hashLists x).countP Buffer.dirty :=
    Finset.sum_congr rfl fun x hx => by rw [update_of_ne (Finset.ne_of_mem_erase hx)]
  unfold dirtyCount
  rw [← Finset.add_sum_erase _ _ hmem, ← Finset.add_sum_erase _ _ hmem, hrest, update_self]
  omega

theorem dirtyCount_eq_zero {hashLists : ℕ → List Buffer} :
    dirtyCount hashLists = 0 ↔ ∀ i < hashNumEntries, ∀ x ∈ hashLists i, x.dirty = false := by
  simp [dirtyCount, Finset.sum_eq_zero_iff, countP_eq_zero]

/-! ## Blocks and sectors -/

section Sectors

variable {dev : StorageDevice} {size b j : ℕ}

structure StorageDevice.Sized (dev : StorageDevice) : Prop where
  sector : 0 < dev.blockSize
  block : 0 < dev.softBlockSize
  whole : dev.blockSize ∣ dev.softBlockSize

/-- Block `b` lies in the first `size` bytes. -/
def Inside (size : ℕ) (dev : StorageDevice) (b : ℕ) : Prop :=
  (b + 1) * dev.softBlockSize ≤ size

theorem storageBuildRequest_eq (hdev : dev.Sized) (hsize : size < 2 ^ 32) (hb : Inside size dev b) :
    storageBuildRequest dev b = some
      { sector := b * (dev.softBlockSize / dev.blockSize)
        numSectors := dev.softBlockSize / dev.blockSize } := by
  have hlt : b * dev.softBlockSize < 2 ^ 32 := by
    unfold Inside at hb
    rw [add_mul] at hb
    omega
  rw [storageBuildRequest, if_neg (ne_of_gt hdev.sector), dword_of_lt hlt,
    Nat.mul_div_assoc b hdev.whole]

theorem driverRead_eq (hdev : dev.Sized) (hj : j < dev.softBlockSize) :
    driverRead dev
        { sector := b * (dev.softBlockSize / dev.blockSize)
          numSectors := dev.softBlockSize / dev.blockSize } j =
      dev.byte (b * dev.softBlockSize + j) := by
  obtain ⟨m, hm⟩ := hdev.whole
  have hdiv : dev.softBlockSize / dev.blockSize = m := by
    rw [hm, Nat.mul_div_cancel_left m hdev.sector]
  have hpos : b * dev.softBlockSize + j = dev.blockSize * (b * m) + j := by
    rw [hm]
    ring
  rw [driverRead, hdiv, if_pos (by rw [hm, mul_comm] at hj; exact hj), StorageDevice.byte, flat,
    hpos, mul_add_div hdev.sector, mul_add_mod, zero_add]

theorem flat_driverWrite (hdev : dev.Sized) (data : ℕ → UInt8) (k : ℕ) :
    flat (driverWrite dev
          { sector := b * (dev.softBlockSize / dev.blockSize)
            numSectors := dev.softBlockSize / dev.blockSize } data)
        0 dev.blockSize k =
      if k / dev.softBlockSize = b then data (k % dev.softBlockSize)
      else dev.byte k := by
  obtain ⟨m, hm⟩ := hdev.whole
  have hdiv : dev.softBlockSize / dev.blockSize = m := by
    rw [hm, Nat.mul_div_cancel_left m hdev.sector]
  have hmpos : 0 < m := pos_of_ne_zero fun hzero => by
    have hblock := hdev.block
    rw [hm, hzero] at hblock
    exact lt_irrefl 0 hblock
  have hiff : k / dev.softBlockSize = b ↔
      b * m ≤ k / dev.blockSize ∧ k / dev.blockSize < b * m + m := by
    rw [hm, ← Nat.div_div_eq_div_mul, Nat.div_eq_iff hmpos]
    omega
  rw [flat, zero_add, driverWrite, hdiv]
  by_cases hk : k / dev.softBlockSize = b
  · rw [if_pos (hiff.mp hk), if_pos hk, hm, mod_mul]
    have hmod : k / dev.blockSize % m = k / dev.blockSize - b * m := by
      rw [hm, ← Nat.div_div_eq_div_mul] at hk
      rw [← hk, Nat.mod_eq_sub_div_mul]
    rw [hmod, mul_comm, add_comm]
  · rw [if_neg (mt hiff.mpr hk), if_neg hk, StorageDevice.byte, flat, zero_add]

end Sectors

/-! ## The invariant -/

/-- The cache and the device represent `bytes`. -/
structure CacheInv (size : ℕ) (dev : StorageDevice) (bytes : ℕ → UInt8) :
    Prop extends dev.Sized where
  power : dev.blockSize.isPowerOfTwo
  hashed : ∀ i, ∀ x ∈ dev.hashLists i, i = bufferHash x.blockNum
  inside : ∀ i, ∀ x ∈ dev.hashLists i, Inside size dev x.blockNum
  unique : ∀ i, ((dev.hashLists i).map Buffer.blockNum).Nodup
  count : dev.numDirty = dirtyCount dev.hashLists
  clean : ∀ i, ∀ x ∈ dev.hashLists i, x.dirty = false → ∀ j < dev.softBlockSize,
      dev.byte (x.blockNum * dev.softBlockSize + j) = x.data j
  cached : ∀ i, ∀ x ∈ dev.hashLists i, ∀ j < dev.softBlockSize,
    bytes (x.blockNum * dev.softBlockSize + j) = x.data j
  uncached : ∀ k < size, (∀ i, ∀ x ∈ dev.hashLists i, x.blockNum ≠ k / dev.softBlockSize) →
      bytes k = dev.byte k

theorem CacheInv.of_empty {size : ℕ} {dev : StorageDevice} {bytes : ℕ → UInt8} (hsized : dev.Sized)
    (hpower : dev.blockSize.isPowerOfTwo)
    (hempty : ∀ i, dev.hashLists i = []) (hzero : dev.numDirty = 0)
    (hbytes : ∀ k < size, bytes k = dev.byte k) : CacheInv size dev bytes := by
  have hno : ∀ i, ∀ x ∈ dev.hashLists i, False := by
    intro i x hx
    rw [hempty i] at hx
    cases hx
  refine
    { toSized := hsized
      power := hpower
      hashed := fun i x hx => (hno i x hx).elim
      inside := fun i x hx => (hno i x hx).elim
      unique := ?_
      count := ?_
      clean := fun i x hx => (hno i x hx).elim
      cached := fun i x hx => (hno i x hx).elim
      uncached := fun k hk _ => hbytes k hk }
  · intro i
    rw [hempty i]
    exact nodup_nil
  · rw [hzero, eq_comm, dirtyCount_eq_zero]
    intro i _ x hx
    exact (hno i x hx).elim

section Changes

variable {size : ℕ} {dev : StorageDevice} {bytes : ℕ → UInt8} (h : CacheInv size dev bytes)

include h

theorem CacheInv.eq_of_blockNum {i i' : ℕ} {x y : Buffer} (hx : x ∈ dev.hashLists i)
    (hy : y ∈ dev.hashLists i') (hnum : x.blockNum = y.blockNum) : i = i' ∧ x = y := by
  obtain rfl : i = i' := by rw [h.hashed i x hx, h.hashed i' y hy, hnum]
  exact ⟨rfl, inj_on_of_nodup_map (h.unique i) hx hy hnum⟩

theorem CacheInv.div_mod (b : ℕ) {j : ℕ} (hj : j < dev.softBlockSize) :
    (b * dev.softBlockSize + j) / dev.softBlockSize = b ∧
      (b * dev.softBlockSize + j) % dev.softBlockSize = j := by
  rw [mul_comm, mul_add_div h.block, mul_add_mod, div_eq_of_lt hj, mod_eq_of_lt hj]
  exact ⟨add_zero b, rfl⟩

/-- One buffer is replaced by another one for the same block.  The disk and
the represented bytes change in this block only. -/
theorem CacheInv.replace {i : ℕ} {front back : List Buffer} {x : Buffer}
    (x' : Buffer) (hbucket : dev.hashLists i = front ++ x :: back)
    (hnum : x'.blockNum = x.blockNum) {numDirty : ℕ} {disk : Disk}
    {bytes' : ℕ → UInt8}
    (hcount : numDirty + x.dirty.toNat = dev.numDirty + x'.dirty.toNat)
    (hclean : x'.dirty = false → ∀ j < dev.softBlockSize,
      flat disk 0 dev.blockSize (x.blockNum * dev.softBlockSize + j) = x'.data j)
    (hcached : ∀ j < dev.softBlockSize, bytes' (x.blockNum * dev.softBlockSize + j) = x'.data j)
    (hother : ∀ k, k / dev.softBlockSize ≠ x.blockNum →
      flat disk 0 dev.blockSize k = dev.byte k ∧ bytes' k = bytes k) :
    CacheInv size
      { dev with
        numDirty := numDirty
        hashLists := update dev.hashLists i (front ++ x' :: back)
        disk := disk } bytes' := by
  have hx : x ∈ dev.hashLists i := by simp [hbucket]
  have hmem : ∀ {i' y}, y ∈ update dev.hashLists i (front ++ x' :: back) i' ↔
      (y = x' ∧ i' = i) ∨ (y ∈ dev.hashLists i' ∧ y.blockNum ≠ x.blockNum) := by
    intro i' y
    rw [update_apply]
    split_ifs with hi
    · have hnodup := h.unique i
      rw [hbucket, map_append, map_cons, nodup_append] at hnodup
      obtain ⟨-, ⟨hback, -⟩, hfront⟩ := hnodup
      rw [hi]
      simp only [mem_append, mem_cons, mem_map] at *
      grind
    · refine ⟨fun hy => .inr ⟨hy, fun heq => hi (h.eq_of_blockNum hy hx heq).1⟩, ?_⟩
      exact fun hy => hy.elim (fun hy => absurd hy.2 hi) And.left
  exact { h with
    hashed i' y hy := by
      rcases hmem.mp hy with ⟨rfl, rfl⟩ | ⟨hy, -⟩
      · rw [hnum]
        exact h.hashed i' x hx
      · exact h.hashed i' y hy
    inside i' y hy := by
      rcases hmem.mp hy with ⟨rfl, rfl⟩ | ⟨hy, -⟩
      · rw [hnum]
        exact h.inside i' x hx
      · exact h.inside i' y hy
    unique i' := by
      have hnodup := h.unique i'
      dsimp only
      rw [update_apply]
      split_ifs with hi
      · rw [hi, hbucket] at hnodup
        simpa [hnum] using hnodup
      · exact hnodup
    count := by
      have hupdate := dirtyCount_update dev.hashLists
        (h.hashed i x hx ▸ bufferHash_lt x.blockNum) (front ++ x' :: back)
      have hdirty : ∀ d : Bool, (if d = true then 1 else 0) = d.toNat := by decide
      rw [hbucket, countP_append, countP_append, countP_cons, countP_cons, hdirty, hdirty,
        ← h.count] at hupdate
      dsimp only
      omega
    clean i' y hy hdirty j hj := by
      rcases hmem.mp hy with ⟨rfl, rfl⟩ | ⟨hy, hne⟩
      · rw [hnum]
        exact hclean hdirty j hj
      · rw [← h.clean i' y hy hdirty j hj]
        exact (hother _ ((h.div_mod y.blockNum hj).1.symm ▸ hne)).1
    cached i' y hy j hj := by
      rcases hmem.mp hy with ⟨rfl, rfl⟩ | ⟨hy, hne⟩
      · rw [hnum]
        exact hcached j hj
      · rw [← h.cached i' y hy j hj]
        exact (hother _ ((h.div_mod y.blockNum hj).1.symm ▸ hne)).2
    uncached k hk hnone := by
      have hkx : x.blockNum ≠ k / dev.softBlockSize :=
        hnum ▸ hnone i x' (hmem.mpr (.inl ⟨rfl, rfl⟩))
      obtain ⟨hdisk, hbytes⟩ := hother k hkx.symm
      rw [hbytes, StorageDevice.byte, hdisk]
      refine h.uncached k hk fun i' y hy => ?_
      by_cases hyx : y.blockNum = x.blockNum
      · rwa [hyx]
      · exact hnone i' y (hmem.mpr (.inr ⟨hy, hyx⟩)) }

theorem CacheInv.no_buffer {b : ℕ} (hnone : blockFindBuffer dev b = none) :
    ∀ i, ∀ y ∈ dev.hashLists i, y.blockNum ≠ b := by
  intro i y hy hnum
  have hy' := h.hashed i y hy
  rw [hnum] at hy'
  rw [hy'] at hy
  have hfind := find?_eq_none.mp hnone y hy
  simp [hnum] at hfind

theorem CacheInv.append {x : Buffer} (hnone : blockFindBuffer dev x.blockNum = none)
    (hinside : Inside size dev x.blockNum) (hdirty : x.dirty = false)
    (hdata : ∀ j < dev.softBlockSize, dev.byte (x.blockNum * dev.softBlockSize + j) = x.data j) :
    CacheInv size (blockAddToHashTable dev x) bytes := by
  have hno := h.no_buffer hnone
  have hmem : ∀ {i y}, y ∈ (blockAddToHashTable dev x).hashLists i ↔
      (y = x ∧ i = bufferHash x.blockNum) ∨ y ∈ dev.hashLists i := by
    intro i y
    simp only [blockAddToHashTable, update_apply]
    split_ifs with hi
    · simp [hi, or_comm]
    · simp [hi]
  exact { h with
    hashed i y hy := by
      rcases hmem.mp hy with ⟨rfl, rfl⟩ | hy
      · rfl
      · exact h.hashed i y hy
    inside i y hy := by
      rcases hmem.mp hy with ⟨rfl, -⟩ | hy
      · exact hinside
      · exact h.inside i y hy
    unique i := by
      simp only [blockAddToHashTable, update_apply]
      split_ifs with hi
      · rw [map_append]
        refine nodup_append.mpr ⟨h.unique _, nodup_singleton _, ?_⟩
        intro a ha b hb
        obtain ⟨y, hy, rfl⟩ := mem_map.mp ha
        obtain rfl := mem_singleton.mp hb
        exact hno _ y hy
      · exact h.unique i
    count := by
      have hupdate := dirtyCount_update dev.hashLists (bufferHash_lt x.blockNum)
        (dev.hashLists (bufferHash x.blockNum) ++ [x])
      rw [countP_append, countP_singleton, hdirty, if_neg Bool.false_ne_true] at hupdate
      have hcount := h.count
      simp only [blockAddToHashTable]
      omega
    clean i y hy hclean j hj := by
      rcases hmem.mp hy with ⟨rfl, -⟩ | hy
      · exact hdata j hj
      · exact h.clean i y hy hclean j hj
    cached i y hy j hj := by
      rcases hmem.mp hy with ⟨rfl, -⟩ | hy
      · refine Eq.trans (h.uncached _ ?_ ?_) (hdata j hj)
        · unfold Inside at hinside
          rw [add_mul] at hinside
          change j < dev.softBlockSize at hj
          change y.blockNum * dev.softBlockSize + j < size
          omega
        · exact (h.div_mod y.blockNum hj).1.symm ▸ hno
      · exact h.cached i y hy j hj
    uncached k hk hnone' := h.uncached k hk fun i y hy => hnone' i y (hmem.mpr (.inr hy)) }

theorem CacheInv.disk_eq (hzero : dev.numDirty = 0) : ∀ k < size, dev.byte k = bytes k := by
  intro k hk
  have hclean := dirtyCount_eq_zero.mp (h.count.symm.trans hzero)
  by_cases hbuffer : ∃ i, ∃ x ∈ dev.hashLists i, x.blockNum = k / dev.softBlockSize
  · obtain ⟨i, x, hx, hnum⟩ := hbuffer
    have hi : i < hashNumEntries := h.hashed i x hx ▸ bufferHash_lt x.blockNum
    have hmod : k % dev.softBlockSize < dev.softBlockSize :=
      mod_lt _ h.block
    have hk' : x.blockNum * dev.softBlockSize + k % dev.softBlockSize = k := by
      rw [hnum, mul_comm]
      exact div_add_mod k _
    have hdata := h.clean i x hx (hclean i hi x hx) _ hmod
    rw [hk'] at hdata
    have hbytes := h.cached i x hx _ hmod
    rw [hk'] at hbytes
    exact hdata.trans hbytes.symm
  · push Not at hbuffer
    exact (h.uncached k hk hbuffer).symm

end Changes

end Whitix.Bcache
