import Mathlib.Algebra.Order.BigOperators.Group.Finset
import Whitix.Fs.Ext3.Balloc

/-!
# Block accounting in ext3

Allocating and freeing a block change one bit, one group counter and the counter
of the superblock, each in a block of its own.  The accounts stay right as long
as the blocks of the file system itself are not freed: otherwise `Ext3BlockNew`
may zero a block with accounts in it, or return block zero, which its callers
take for a failure.
-/

namespace Whitix.Ext3

open Support Bitmap Option Nat List Finset Function

variable {vol : Volume} {disk disk' : Disk} {i j : ℕ}

/-! ## Places on the volume -/

theorem modifyBlock_self (block : ℕ) (f : (ℕ → UInt8) → ℕ → UInt8) :
    modifyBlock disk block f block = f (disk block) :=
  update_self _ _ _

variable {block i' group super : ℕ}

theorem modifyBlock_of_ne {other : ℕ} (h : other ≠ block) (f : (ℕ → UInt8) → ℕ → UInt8) :
    modifyBlock disk block f other = disk other :=
  update_of_ne h _ _

theorem descBlock_ne_sbSector (vol : Volume) (i : ℕ) : vol.descBlock i ≠ vol.sbSector :=
  ne_of_gt (lt_succ_of_le (le_add_right _ _))

theorem descOffset_apart (hne : i' ≠ i) (hblock : vol.descBlock i' = vol.descBlock i) :
    vol.descOffset i' + 32 ≤ vol.descOffset i ∨ vol.descOffset i + 32 ≤ vol.descOffset i' := by
  have hdiv : i' / vol.descsPerBlock = i / vol.descsPerBlock := by
    unfold SbInfo.descBlock at hblock
    omega
  have hi := div_add_mod i vol.descsPerBlock
  have hi' := div_add_mod i' vol.descsPerBlock
  rw [hdiv] at hi'
  unfold SbInfo.descOffset sizeofGroupDesc
  omega

/-! ## Changes of the accounts -/

/-- The bit of one block, the counter of its group and the counter of the
superblock have changed. -/
structure Changed (vol : Volume) (disk disk' : Disk) (i j : ℕ) (value : Bool)
    (group super : ℕ) : Prop where
  bitmaps : ∀ i' < vol.groupCount,
    blockBitmap vol.toSbInfo disk' i' = blockBitmap vol.toSbInfo disk i'
  groups : ∀ i' < vol.groupCount, descFreeBlocks vol.toSbInfo disk' i' =
    if i' = i then group else descFreeBlocks vol.toSbInfo disk i'
  super : superFreeBlocks vol.toSbInfo disk' = super
  bits : vol.BitChanged disk disk' i j value

theorem changed_setBitmapBit (h : blockBitmap vol.toSbInfo disk i = vol.bitmapBlock i)
    (hi : i < vol.groupCount) (value : Bool) :
    Changed vol disk (setBitmapBit vol.toSbInfo disk i j value) i j value
      (descFreeBlocks vol.toSbInfo disk i)
      (superFreeBlocks vol.toSbInfo disk) := by
  obtain ⟨hsuper, hdescs⟩ := vol.bitmapBlock_ne i hi
  unfold setBitmapBit
  rw [h]
  constructor
  · intro i' hi'
    unfold blockBitmap
    rw [modifyBlock_of_ne (hdescs i' hi').symm]
  · intro i' hi'
    unfold descFreeBlocks
    rw [modifyBlock_of_ne (hdescs i' hi').symm]
    split
    · next heq => rw [heq]
    · rfl
  · unfold superFreeBlocks
    rw [modifyBlock_of_ne hsuper.symm]
  · intro i' hi' j'
    unfold Volume.bit
    by_cases heq : i' = i
    · subst heq
      rw [modifyBlock_self, bmapGetBit_bmapSetBit]
      simp
    · have hne : vol.bitmapBlock i' ≠ vol.bitmapBlock i := fun hsame =>
        heq (vol.bitmapBlock_injective i' hi' i hi hsame)
      rw [modifyBlock_of_ne hne]
      simp [heq]

variable {value : Bool}

section

variable (h : Changed vol disk disk' i j value group super)
include h

theorem Changed.setDescFreeBlocks (hi : i < vol.groupCount) (count : ℕ) :
    Changed vol disk (setDescFreeBlocks vol.toSbInfo disk' i count) i j value
      (count % 2 ^ 16) super := by
  unfold Ext3.setDescFreeBlocks
  constructor
  · intro i' hi'
    rw [← h.bitmaps i' hi']
    unfold blockBitmap
    by_cases hblock : vol.descBlock i' = vol.descBlock i
    · rw [hblock, modifyBlock_self]
      refine dwordAt_congr fun q hq => setWordAt_of_ne ?_
      unfold freeBlocksOffset
      by_cases heq : i' = i
      · subst heq
        omega
      · have hapart := descOffset_apart heq hblock
        omega
    · rw [modifyBlock_of_ne hblock]
  · intro i' hi'
    by_cases heq : i' = i
    · subst heq
      unfold descFreeBlocks
      rw [modifyBlock_self, wordAt_setWordAt, if_pos rfl]
    · have hsame := h.groups i' hi'
      rw [if_neg heq] at hsame ⊢
      rw [← hsame]
      unfold descFreeBlocks
      by_cases hblock : vol.descBlock i' = vol.descBlock i
      · have hapart := descOffset_apart heq hblock
        rw [hblock, modifyBlock_self]
        apply wordAt_setWordAt_of_apart
        omega
      · rw [modifyBlock_of_ne hblock]
  · rw [← h.super]
    unfold superFreeBlocks
    rw [modifyBlock_of_ne (descBlock_ne_sbSector vol i).symm]
  · intro i' hi' j'
    rw [← h.bits i' hi' j']
    unfold Volume.bit
    rw [modifyBlock_of_ne ((vol.bitmapBlock_ne i' hi').2 i hi)]

theorem Changed.congr {super' : ℕ} {disk₂ : Disk}
    (hsuper : superFreeBlocks vol.toSbInfo disk₂ = super')
    (hdesc : ∀ i' < vol.groupCount, disk₂ (vol.descBlock i') = disk' (vol.descBlock i'))
    (hbitmap : ∀ i' < vol.groupCount, disk₂ (vol.bitmapBlock i') = disk' (vol.bitmapBlock i')) :
    Changed vol disk disk₂ i j value group super' := by
  constructor
  · intro i' hi'
    rw [← h.bitmaps i' hi', blockBitmap, blockBitmap, hdesc i' hi']
  · intro i' hi'
    rw [← h.groups i' hi', descFreeBlocks, descFreeBlocks, hdesc i' hi']
  · exact hsuper
  · intro i' hi' j'
    rw [← h.bits i' hi' j', Volume.bit, Volume.bit, hbitmap i' hi']

theorem Changed.setSuperFreeBlocks (count : ℕ) (hcount : count < 2 ^ 32) :
    Changed vol disk (setSuperFreeBlocks vol.toSbInfo disk' count) i j value group count := by
  apply h.congr
  · rw [superFreeBlocks, Ext3.setSuperFreeBlocks, modifyBlock_self, dwordAt_setDwordAt hcount]
  · intro i' hi'
    exact modifyBlock_of_ne (descBlock_ne_sbSector vol i') _
  · intro i' hi'
    exact modifyBlock_of_ne (vol.bitmapBlock_ne i' hi').1 _

theorem Changed.zeroBlock (hblock : ¬ vol.Reserved block) :
    Changed vol disk (zeroBlock vol.toSbInfo disk' block) i j value group
      super := by
  apply h.congr
  · rw [superFreeBlocks, Ext3.zeroBlock, modifyBlock_of_ne]
    · exact h.super
    · exact fun heq => hblock (.inr (.inl heq.symm))
  · intro i' hi'
    apply modifyBlock_of_ne
    exact fun heq => hblock (.inr (.inr ⟨i', hi', .inl heq.symm⟩))
  · intro i' hi'
    apply modifyBlock_of_ne
    exact fun heq => hblock (.inr (.inr ⟨i', hi', .inr heq.symm⟩))

end

theorem changed_takeBlock (h : Accounted vol disk) (hi : i < vol.groupCount)
    (hgroup : 0 < descFreeBlocks vol.toSbInfo disk i)
    (hsuper : 0 < superFreeBlocks vol.toSbInfo disk) (j : ℕ) :
    Changed vol disk (takeBlock vol.toSbInfo disk i j) i j true
      (descFreeBlocks vol.toSbInfo disk i - 1)
      (superFreeBlocks vol.toSbInfo disk - 1) := by
  have hword : descFreeBlocks vol.toSbInfo disk i < 2 ^ 16 := wordAt_lt _ _
  have hdword : superFreeBlocks vol.toSbInfo disk < 2 ^ 32 := dwordAt_lt _ _
  have hbit := changed_setBitmapBit (j := j) (h.bitmaps i hi) hi true
  have hsame := hbit.groups i hi
  rw [if_pos rfl] at hsame
  have hdesc := hbit.setDescFreeBlocks hi
    ((descFreeBlocks vol.toSbInfo disk i + 2 ^ 16 - 1) % 2 ^ 16)
  have hcount : (descFreeBlocks vol.toSbInfo disk i + 2 ^ 16 - 1) % 2 ^ 16 %
      2 ^ 16 = descFreeBlocks vol.toSbInfo disk i - 1 := by omega
  rw [hcount] at hdesc
  unfold takeBlock
  dsimp only
  rw [hsame, hdesc.super, dwordSub_of_le hsuper]
  exact hdesc.setSuperFreeBlocks _ (by omega)

theorem changed_putBlock (h : blockBitmap vol.toSbInfo disk i = vol.bitmapBlock i)
    (hi : i < vol.groupCount) (j : ℕ) :
    Changed vol disk (putBlock vol.toSbInfo disk i j) i j false
      ((descFreeBlocks vol.toSbInfo disk i + 1) % 2 ^ 16)
      (dword (superFreeBlocks vol.toSbInfo disk + 1)) := by
  have hbit := changed_setBitmapBit (j := j) h hi false
  have hsame := hbit.groups i hi
  rw [if_pos rfl] at hsame
  have hdesc := hbit.setDescFreeBlocks hi ((descFreeBlocks vol.toSbInfo disk i + 1) % 2 ^ 16)
  rw [mod_mod] at hdesc
  unfold putBlock
  dsimp only
  rw [hsame, hdesc.super]
  exact hdesc.setSuperFreeBlocks _ (dword_lt _)

/-! ## Counting zero bits -/

theorem zeroBits_of_ne (h : vol.BitChanged disk disk' i j value) (hi' : i' < vol.groupCount)
    (hne : i' ≠ i) : vol.zeroBits disk' i' = vol.zeroBits disk i' := by
  unfold Volume.zeroBits
  congr 1
  apply Finset.filter_congr
  intro j' _
  rw [h i' hi' j']
  simp [hne]

theorem zeroBits_set (h : vol.BitChanged disk disk' i j true) (hi : i < vol.groupCount)
    (hj : j < vol.blocksPerGrp) (hzero : vol.bit disk i j = false) :
    vol.zeroBits disk' i + 1 = vol.zeroBits disk i := by
  have herase : (Finset.range vol.blocksPerGrp).filter
      (fun k => vol.bit disk' i k = false) = ((Finset.range vol.blocksPerGrp).filter
          (fun k => vol.bit disk i k = false)).erase j := by
    ext k
    rw [mem_erase, Finset.mem_filter, h i hi k]
    by_cases hk : k = j
    · simp [hk]
    · simp [hk]
  unfold Volume.zeroBits
  rw [herase]
  apply card_erase_add_one
  rw [Finset.mem_filter, Finset.mem_range]
  exact ⟨hj, hzero⟩

theorem zeroBits_clear (h : vol.BitChanged disk disk' i j false) (hi : i < vol.groupCount)
    (hj : j < vol.blocksPerGrp) (hset : vol.bit disk i j = true) :
    vol.zeroBits disk' i = vol.zeroBits disk i + 1 := by
  have hback : vol.BitChanged disk' disk i j true := by
    intro i' hi' j'
    rw [h i' hi' j']
    by_cases heq : i' = i ∧ j' = j
    · rw [if_pos heq, heq.1, heq.2]
      exact hset
    · rw [if_neg heq, if_neg heq]
  symm
  apply zeroBits_set hback hi hj
  rw [h i hi j]
  simp

theorem sum_zeroBits_of_ne (h : vol.BitChanged disk disk' i j value) (hi : i < vol.groupCount) :
    (∑ k ∈ range vol.groupCount, vol.zeroBits disk' k) + vol.zeroBits disk i =
      (∑ k ∈ range vol.groupCount, vol.zeroBits disk k) + vol.zeroBits disk' i := by
  have hin := Finset.mem_range.mpr hi
  have hrest : ∑ k ∈ (Finset.range vol.groupCount).erase i, vol.zeroBits disk' k =
        ∑ k ∈ (Finset.range vol.groupCount).erase i, vol.zeroBits disk k := by
    apply sum_congr rfl
    intro k hk
    obtain ⟨hne, hrange⟩ := mem_erase.mp hk
    exact zeroBits_of_ne h (Finset.mem_range.mp hrange) hne
  rw [← add_sum_erase _ _ hin, ← add_sum_erase _ _ hin, hrest]
  omega

theorem blockNumber_injective {j' : ℕ} (hj : j < vol.blocksPerGrp) (hj' : j' < vol.blocksPerGrp)
    (h : vol.blockNumber i j = vol.blockNumber i' j') : i = i' ∧ j = j' := by
  have hsum : j + i * vol.blocksPerGrp = j' + i' * vol.blocksPerGrp := by
    unfold Volume.blockNumber at h
    omega
  have hpos := vol.blocksPerGrp_pos
  have hdiv := congrArg (· / vol.blocksPerGrp) hsum
  have hmod := congrArg (· % vol.blocksPerGrp) hsum
  simp only [add_mul_div_right _ _ hpos, add_mul_mod_self_right, div_eq_of_lt hj, div_eq_of_lt hj',
    mod_eq_of_lt hj, mod_eq_of_lt hj', zero_add] at hdiv hmod
  exact ⟨hdiv, hmod⟩

theorem sum_zeroBits_le (hpast : ∀ i < vol.groupCount, ∀ j < vol.blocksPerGrp,
      vol.blocksCount ≤ vol.blockNumber i j → vol.bit disk i j = true) :
    ∑ k ∈ range vol.groupCount, vol.zeroBits disk k ≤ vol.blocksCount := by
  unfold Volume.zeroBits
  rw [← card_sigma]
  refine (card_le_card_of_injOn (fun x => vol.blockNumber x.1 x.2) ?_ ?_).trans_eq
      (card_range vol.blocksCount)
  · rintro ⟨i, j⟩ hx
    simp only [coe_sigma, Set.mem_sigma_iff, mem_coe, Finset.mem_range, Finset.mem_filter] at hx
    obtain ⟨hi, hj, hzero⟩ := hx
    apply mem_coe.mpr
    apply Finset.mem_range.mpr
    by_contra hge
    cases hzero.symm.trans (hpast i hi j hj (not_lt.mp hge))
  · rintro ⟨i, j⟩ hx ⟨i', j'⟩ hx' heq
    simp only [coe_sigma, Set.mem_sigma_iff, mem_coe, Finset.mem_range, Finset.mem_filter] at hx hx'
    obtain ⟨rfl, rfl⟩ := blockNumber_injective hx.2.1 hx'.2.1 heq
    rfl

/-! ## The accounts after an operation -/

section

variable (h : Accounted vol disk)
include h

section

variable (hi : i < vol.groupCount)
include hi

theorem Accounted.take (hj : j < vol.blocksPerGrp) (hzero : vol.bit disk i j = false)
    (hchanged : Changed vol disk disk' i j true (descFreeBlocks vol.toSbInfo disk i - 1)
      (superFreeBlocks vol.toSbInfo disk - 1)) : Accounted vol disk' := by
  have hone := zeroBits_set hchanged.bits hi hj hzero
  constructor
  · intro i' hi'
    rw [hchanged.bitmaps i' hi', h.bitmaps i' hi']
  · intro i' hi'
    rw [hchanged.groups i' hi']
    split
    · next heq =>
      rw [heq, h.groups i hi]
      omega
    · next hne => rw [zeroBits_of_ne hchanged.bits hi' hne, h.groups i' hi']
  · have hsum := sum_zeroBits_of_ne hchanged.bits hi
    rw [hchanged.super, h.super]
    omega
  · intro i' hi' j' hj' hpast
    rw [hchanged.bits i' hi' j']
    split
    · rfl
    · exact h.past i' hi' j' hj' hpast

theorem Accounted.put (hj : j < vol.blocksPerGrp) (hset : vol.bit disk i j = true)
    (hin : vol.blockNumber i j < vol.blocksCount)
    (hroom : descFreeBlocks vol.toSbInfo disk i + 1 < 2 ^ 16)
    (hchanged : Changed vol disk disk' i j false ((descFreeBlocks vol.toSbInfo disk i + 1) % 2 ^ 16)
      (dword (superFreeBlocks vol.toSbInfo disk + 1))) :
    Accounted vol disk' := by
  have hone := zeroBits_clear hchanged.bits hi hj hset
  have hpast : ∀ i' < vol.groupCount, ∀ j' < vol.blocksPerGrp,
      vol.blocksCount ≤ vol.blockNumber i' j' → vol.bit disk' i' j' = true := by
    intro i' hi' j' hj' hle
    rw [hchanged.bits i' hi' j', if_neg]
    · exact h.past i' hi' j' hj' hle
    · rintro ⟨rfl, rfl⟩
      omega
  refine ⟨?_, ?_, ?_, hpast⟩
  · intro i' hi'
    rw [hchanged.bitmaps i' hi', h.bitmaps i' hi']
  · intro i' hi'
    rw [hchanged.groups i' hi']
    split
    · next heq => rw [heq, mod_eq_of_lt hroom, h.groups i hi, hone]
    · next hne => rw [zeroBits_of_ne hchanged.bits hi' hne, h.groups i' hi']
  · have hsum := sum_zeroBits_of_ne hchanged.bits hi
    have hle := sum_zeroBits_le hpast
    have hlt := vol.blocksCount_lt
    have hnext : superFreeBlocks vol.toSbInfo disk + 1 =
        ∑ k ∈ range vol.groupCount, vol.zeroBits disk' k := by
      rw [h.super]
      omega
    rw [hchanged.super, hnext, dword_of_lt (hle.trans_lt hlt)]

/-! ## Allocation -/

theorem ext3BlockLoadBitmap_eq :
    ext3BlockLoadBitmap vol.toSbInfo disk i = disk (vol.bitmapBlock i) := by
  rw [ext3BlockLoadBitmap, h.bitmaps i hi]

theorem groupFindFree_eq_some (hs : groupFindFree vol.toSbInfo disk i = some j) :
    j < vol.blocksPerGrp ∧ vol.bit disk i j = false := by
  unfold groupFindFree at hs
  rw [ext3BlockLoadBitmap_eq h hi] at hs
  dsimp only at hs
  split at hs
  · next hfound =>
    cases hs
    exact ⟨hfound.2, (bitFindFirstZero_spec _ _).2 hfound.2⟩
  · cases hs

/-- If a group has a zero bit, its counter is not zero and the scan ends in the
bitmap. -/
theorem groupFindFree_eq_none (hs : groupFindFree vol.toSbInfo disk i = none)
    (hj : j < vol.blocksPerGrp) : vol.bit disk i j = true := by
  by_contra hbit
  have hzero := Bool.eq_false_iff.mpr hbit
  unfold groupFindFree at hs
  rw [ext3BlockLoadBitmap_eq h hi] at hs
  dsimp only at hs
  split at hs
  · cases hs
  · next hno =>
    apply hno
    constructor
    · rw [h.groups i hi]
      apply card_ne_zero_of_mem
      exact mem_filter.mpr ⟨Finset.mem_range.mpr hj, hzero⟩
    · by_contra hge
      exact hbit ((bitFindFirstZero_spec _ _).1 j (hj.trans_le (not_lt.mp hge)))

end

theorem findFree_eq_some (hs : findFree vol.toSbInfo disk = some (i, j)) :
    i < vol.groupCount ∧ j < vol.blocksPerGrp ∧ vol.bit disk i j = false := by
  obtain ⟨k, hk, hfound⟩ := exists_of_findSome?_eq_some hs
  have hlt := List.mem_range.mp hk
  obtain ⟨j', hj', heq⟩ := map_eq_some_iff.mp hfound
  cases heq
  exact ⟨hlt, groupFindFree_eq_some h hlt hj'⟩

theorem findFree_eq_none (hs : findFree vol.toSbInfo disk = none) (hi : i < vol.groupCount)
    (hj : j < vol.blocksPerGrp) : vol.bit disk i j = true := by
  have hnone := findSome?_eq_none_iff.mp hs i (List.mem_range.mpr hi)
  exact groupFindFree_eq_none h hi (map_eq_none_iff.mp hnone) hj

theorem ext3BlockNew_eq (hreserved : ReservedInUse vol disk)
    (hs : findFree vol.toSbInfo disk = some (i, j)) :
    (ext3BlockNew vol.toSbInfo disk).1 = vol.blockNumber i j ∧
      ¬ vol.Reserved (vol.blockNumber i j) ∧
      vol.blockNumber i j < vol.blocksCount ∧
      Changed vol disk (ext3BlockNew vol.toSbInfo disk).2 i j true
        (descFreeBlocks vol.toSbInfo disk i - 1)
        (superFreeBlocks vol.toSbInfo disk - 1) := by
  obtain ⟨hi, hj, hzero⟩ := findFree_eq_some h hs
  have hin : vol.blockNumber i j < vol.blocksCount := by
    by_contra hge
    cases hzero.symm.trans (h.past i hi j hj (not_lt.mp hge))
  have hdata : ¬ vol.Reserved (vol.blockNumber i j) := by
    intro hres
    cases hzero.symm.trans (hreserved i hi j hj hres)
  have hgroup : 0 < descFreeBlocks vol.toSbInfo disk i := by
    rw [h.groups i hi]
    apply card_pos.mpr
    exact ⟨j, mem_filter.mpr ⟨Finset.mem_range.mpr hj, hzero⟩⟩
  have hsuper : 0 < superFreeBlocks vol.toSbInfo disk := by
    rw [h.groups i hi] at hgroup
    rw [h.super]
    exact sum_pos' (fun _ _ => Nat.zero_le _) ⟨i, Finset.mem_range.mpr hi, hgroup⟩
  have hblock : dword (j + i * vol.blocksPerGrp + vol.firstDataBlock) = vol.blockNumber i j := by
    have hlt := vol.blocksCount_lt
    have hsum : j + i * vol.blocksPerGrp + vol.firstDataBlock = vol.blockNumber i j := by
      unfold Volume.blockNumber
      omega
    rw [hsum, dword_of_lt (lt_trans hin hlt)]
  have htake := changed_takeBlock h hi hgroup hsuper j
  unfold ext3BlockNew
  rw [hs]
  dsimp only
  rw [hblock]
  exact ⟨rfl, hdata, hin, htake.zeroBlock hdata⟩

end

theorem ext3BlockNew_none (hs : findFree vol.toSbInfo disk = none) :
    ext3BlockNew vol.toSbInfo disk = (0, disk) := by
  unfold ext3BlockNew
  rw [hs]

/-! ## Freeing -/

theorem ext3BlockFree_eq (hi : i < vol.groupCount) (hj : j < vol.blocksPerGrp) :
    ext3BlockFree vol.toSbInfo disk (vol.blockNumber i j) =
      (0, putBlock vol.toSbInfo disk i j) := by
  have hpos := vol.blocksPerGrp_pos
  have hsub : dwordSub (vol.blockNumber i j) vol.firstDataBlock = j + i * vol.blocksPerGrp := by
    unfold Volume.blockNumber
    rw [dwordSub_of_le (by omega)]
    omega
  have hdiv : (j + i * vol.blocksPerGrp) / vol.blocksPerGrp = i := by
    rw [add_mul_div_right _ _ hpos, div_eq_of_lt hj, zero_add]
  have hmod : (j + i * vol.blocksPerGrp) % vol.blocksPerGrp = j := by
    rw [add_mul_mod_self_right, mod_eq_of_lt hj]
  unfold ext3BlockFree
  dsimp only
  rw [hsub, hdiv, hmod, if_neg hi.not_ge]

theorem Accounted.freeClears {s : System} (h : Accounted vol s.disk) : FreeClears vol s := by
  intro i hi j hj _ _
  rw [ext3BlockFree_eq hi hj]
  exact ⟨rfl, (changed_putBlock (h.bitmaps i hi) hi j).bits⟩

/-! ## Runs -/

/-- The counters agree with the bitmaps, and the bits of the file system's own
blocks and of all live blocks are set. -/
structure Inv (vol : Volume) (s : System) : Prop where
  accounted : Accounted vol s.disk
  reserved : ReservedInUse vol s.disk
  live : ∀ block ∈ s.live, vol.Allocated s.disk block

variable {s s' : System}

theorem Inv.newAllocates (h : Inv vol s) : NewAllocates vol s := by
  cases hfind : findFree vol.toSbInfo s.disk with
  | none =>
    have hnew := congrArg Prod.fst (ext3BlockNew_none hfind)
    constructor
    · exact iff_of_true hnew fun i hi j hj =>
        findFree_eq_none h.accounted hfind hi hj
    · exact fun hne => absurd hnew hne
  | some found =>
    obtain ⟨i, j⟩ := found
    obtain ⟨hi, hj, hzero⟩ := findFree_eq_some h.accounted hfind
    obtain ⟨hnew, hdata, -, hchanged⟩ :=
      ext3BlockNew_eq h.accounted h.reserved hfind
    have hne : (ext3BlockNew vol.toSbInfo s.disk).1 ≠ 0 := by
      rw [hnew]
      exact fun heq => hdata (.inl heq)
    have hfresh : vol.blockNumber i j ∉ s.live := by
      intro hlive
      obtain ⟨i', -, j', hj', heq, -, hset⟩ := h.live _ hlive
      obtain ⟨rfl, rfl⟩ := blockNumber_injective hj hj' heq
      rw [hzero] at hset
      cases hset
    constructor
    · refine iff_of_false hne fun hall => ?_
      cases hzero.symm.trans (hall i hi j hj)
    · intro _
      constructor
      · rw [hnew]
        exact hfresh
      · exact ⟨i, hi, j, hj, hnew, hzero, hchanged.bits⟩

theorem allocated_of_changed (h : vol.Allocated disk block)
    (hbits : vol.BitChanged disk disk' i j value)
    (hkeep : value = true ∨ block ≠ vol.blockNumber i j) : vol.Allocated disk' block := by
  obtain ⟨i', hi', j', hj', heq, hin, hset⟩ := h
  refine ⟨i', hi', j', hj', heq, hin, ?_⟩
  rw [hbits i' hi' j']
  split
  · next hsame =>
    rcases hkeep with hvalue | hne
    · exact hvalue
    · rw [heq, hsame.1, hsame.2] at hne
      exact absurd rfl hne
  · exact hset

theorem ReservedInUse.of_changed (h : ReservedInUse vol disk)
    (hbits : vol.BitChanged disk disk' i j value) (hdata : ¬ vol.Reserved (vol.blockNumber i j)) :
    ReservedInUse vol disk' := by
  intro i' hi' j' hj' hres
  rw [hbits i' hi' j', if_neg]
  · exact h i' hi' j' hj' hres
  · rintro ⟨rfl, rfl⟩
    exact hdata hres

theorem Inv.new (h : Inv vol s) (hs : step vol s .new = some s') : Inv vol s' := by
  cases hs
  cases hfind : findFree vol.toSbInfo s.disk with
  | none =>
    rw [ext3BlockNew_none hfind]
    exact h
  | some found =>
    obtain ⟨i, j⟩ := found
    obtain ⟨hi, hj, hzero⟩ := findFree_eq_some h.accounted hfind
    obtain ⟨hnew, hdata, hin, hchanged⟩ :=
      ext3BlockNew_eq h.accounted h.reserved hfind
    rw [hnew, if_neg fun heq => hdata (.inl heq)]
    constructor
    · exact h.accounted.take hi hj hzero hchanged
    · exact h.reserved.of_changed hchanged.bits hdata
    · intro block hblock
      rcases mem_insert.mp hblock with rfl | hold
      · refine ⟨i, hi, j, hj, rfl, hin, ?_⟩
        rw [hchanged.bits i hi j, if_pos ⟨rfl, rfl⟩]
      · exact allocated_of_changed (h.live block hold) hchanged.bits (.inl rfl)

theorem Inv.free {blockNo : ℕ} (h : Inv vol s) (hguard : FreesData vol s (.free blockNo))
    (hs : step vol s (.free blockNo) = some s') : Inv vol s' := by
  obtain ⟨hdata, hroom⟩ := hguard
  unfold step at hs
  obtain ⟨halloc, hs⟩ := ite_none_right_eq_some.mp hs
  cases hs
  obtain ⟨i, hi, j, hj, rfl, hin, hset⟩ := halloc
  have hgroup : (vol.blockNumber i j - vol.firstDataBlock) / vol.blocksPerGrp = i := by
    have hsub : vol.blockNumber i j - vol.firstDataBlock = j + i * vol.blocksPerGrp := by
      unfold Volume.blockNumber
      omega
    rw [hsub, add_mul_div_right _ _ vol.blocksPerGrp_pos, div_eq_of_lt hj, zero_add]
  rw [hgroup] at hroom
  rw [ext3BlockFree_eq hi hj]
  have hchanged := changed_putBlock (h.accounted.bitmaps i hi) hi j
  constructor
  · exact h.accounted.put hi hj hset hin hroom hchanged
  · exact h.reserved.of_changed hchanged.bits hdata
  · intro block hblock
    obtain ⟨hne, hold⟩ := mem_erase.mp hblock
    exact allocated_of_changed (h.live block hold) hchanged.bits (.inr hne)

theorem Inv.step {op : Op} (h : Inv vol s) (hguard : FreesData vol s op)
    (hs : Ext3.step vol s op = some s') : Inv vol s' := by
  cases op with
  | new => exact h.new hs
  | free blockNo => exact h.free hguard hs

/-- In every run in which the blocks of the file system itself are in use and
not freed, the counters agree with the bitmaps, `Ext3BlockNew` takes a free
block and `Ext3BlockFree` gives its block back. -/
theorem ext3_blocks_accounted (h : Accounted vol disk) (hreserved : ReservedInUse vol disk)
    (hreach : Reach (step vol) (FreesData vol) ⟨disk, ∅⟩ s) :
    Accounted vol s.disk ∧ NewAllocates vol s ∧ FreeClears vol s := by
  have hinit : Inv vol ⟨disk, ∅⟩ :=
    ⟨h, hreserved, nofun⟩
  have hinv : Inv vol s := hreach.invariant hinit fun _ _ _ h => h.step
  exact ⟨hinv.accounted, hinv.newAllocates, hinv.accounted.freeClears⟩

/-! ## What a run has in use -/

/-- The block that is freed was allocated in the run. -/
def FreesOwn (vol : Volume) (s : System) : Op → Prop
  | .new => True
  | .free blockNo => FreesData vol s (.free blockNo) ∧ blockNo ∈ s.live

instance : (op : Op) → Decidable (FreesOwn vol s op)
  | .new => isTrue trivial
  | .free _ => inferInstanceAs (Decidable (_ ∧ _))

theorem FreesOwn.freesData {op : Op} (h : FreesOwn vol s op) : FreesData vol s op := by
  cases op with
  | new => trivial
  | free blockNo => exact h.1

theorem Inv.conserves {op : Op} (h : Inv vol s) (hguard : FreesOwn vol s op)
    (hs : Ext3.step vol s op = some s') : superFreeBlocks vol.toSbInfo s'.disk + s'.live.card =
      superFreeBlocks vol.toSbInfo s.disk + s.live.card := by
  rw [(h.step hguard.freesData hs).accounted.super, h.accounted.super]
  cases op with
  | new =>
    cases hs
    cases hfind : findFree vol.toSbInfo s.disk with
    | none =>
      rw [ext3BlockNew_none hfind]
      rfl
    | some found =>
      obtain ⟨hi, hj, hzero⟩ := findFree_eq_some h.accounted hfind
      obtain ⟨hnew, hdata, -, hchanged⟩ := ext3BlockNew_eq h.accounted h.reserved hfind
      have hne : (ext3BlockNew vol.toSbInfo s.disk).1 ≠ 0 := by
        rw [hnew]
        exact fun heq => hdata (.inl heq)
      have hone := zeroBits_set hchanged.bits hi hj hzero
      have hsum := sum_zeroBits_of_ne hchanged.bits hi
      dsimp only
      rw [if_neg hne, card_insert_of_notMem (h.newAllocates.2 hne).1]
      omega
  | free blockNo =>
    have hlive := hguard.2
    obtain ⟨i, hi, j, hj, rfl, hin, hset⟩ := h.live blockNo hlive
    obtain ⟨-, hs⟩ := ite_none_right_eq_some.mp hs
    cases hs
    have hbits := (h.accounted.freeClears i hi j hj hin hset).2
    have hone := zeroBits_clear hbits hi hj hset
    have hsum := sum_zeroBits_of_ne hbits hi
    have hcard := card_erase_add_one hlive
    dsimp only
    omega

/-- No block is leaked or counted twice: in every run that frees its own blocks,
the free blocks and the blocks in use by the run are as many as there were free
blocks before. -/
theorem free_blocks_conserved (h : Accounted vol disk) (hreserved : ReservedInUse vol disk)
    (hreach : Reach (step vol) (FreesOwn vol) ⟨disk, ∅⟩ s) :
    superFreeBlocks vol.toSbInfo s.disk + s.live.card = superFreeBlocks vol.toSbInfo disk := by
  suffices hinv : Inv vol s ∧ superFreeBlocks vol.toSbInfo s.disk + s.live.card =
      superFreeBlocks vol.toSbInfo disk from hinv.2
  induction hreach with
  | refl => exact ⟨⟨h, hreserved, nofun⟩, rfl⟩
  | tail op _ hguard hs ih =>
    exact ⟨ih.1.step hguard.freesData hs, (ih.1.conserves hguard hs).trans ih.2⟩

/-! ## Three volumes -/

/-- Two groups of eight blocks, the second one with six blocks. -/
def twoGroups : Volume where
  blockSize := 1024
  groupCount := 2
  firstDataBlock := 1
  blocksPerGrp := 8
  sbSector := 1
  sbOffset := 0
  blocksCount := 15
  bitmapBlock i := i + 3

/-- The superblock, two descriptors and two bitmaps.  The first four blocks are
in use. -/
def twoGroupsDisk : Disk
  | 1, 12 => 10
  | 2, 0 => 3
  | 2, 12 => 4
  | 2, 32 => 4
  | 2, 44 => 6
  | 3, 0 => 0x0F
  | 4, 0 => 0xC0
  | _, _ => 0

theorem ext3_blocks_accounted_twoGroups :
    ∃ s, Reach (step twoGroups) (FreesData twoGroups) ⟨twoGroupsDisk, ∅⟩ s ∧
      s.live = {6} ∧ Accounted twoGroups s.disk ∧
      NewAllocates twoGroups s ∧ FreeClears twoGroups s := by
  obtain ⟨s, hreach, hlive⟩ := exists_reach (step twoGroups) (FreesData twoGroups)
    ⟨twoGroupsDisk, ∅⟩ [.new, .new, .free 5] (fun s => s.live = {6}) (by decide)
  have haccounted : Accounted twoGroups twoGroupsDisk :=
    ⟨by decide, by decide, by decide, by decide⟩
  have hreserved : ReservedInUse twoGroups twoGroupsDisk := by
    unfold ReservedInUse
    decide
  exact ⟨s, hreach, hlive, ext3_blocks_accounted haccounted hreserved hreach⟩

theorem free_blocks_conserved_twoGroups :
    ∃ s, Reach (step twoGroups) (FreesOwn twoGroups) ⟨twoGroupsDisk, ∅⟩ s ∧ s.live = {6} ∧
      superFreeBlocks twoGroups.toSbInfo s.disk + s.live.card = 10 := by
  obtain ⟨s, hreach, hlive⟩ := exists_reach (step twoGroups) (FreesOwn twoGroups)
    ⟨twoGroupsDisk, ∅⟩ [.new, .new, .free 5] (fun s => s.live = {6}) (by decide)
  refine ⟨s, hreach, hlive, free_blocks_conserved ⟨by decide, by decide, by decide, by decide⟩ ?_
    hreach⟩
  unfold ReservedInUse
  decide

def oneGroup : Volume where
  blockSize := 1024
  groupCount := 1
  firstDataBlock := 0
  blocksPerGrp := 8
  sbSector := 1
  sbOffset := 0
  blocksCount := 8
  bitmapBlock _ := 3

/-- The bitmap of the only group is given; it has one zero bit. -/
def oneFree (bitmap : UInt8) : Disk
  | 1, 12 => 1
  | 2, 0 => 3
  | 2, 12 => 1
  | 3, 0 => bitmap
  | _, _ => 0

theorem not_newAllocates_block_zero :
    Accounted oneGroup (oneFree 0xFE) ∧ ¬ NewAllocates oneGroup ⟨oneFree 0xFE, ∅⟩ := by
  have hzero : oneGroup.bit (oneFree 0xFE) 0 0 = false := by decide
  refine ⟨⟨by decide, by decide, by decide, by decide⟩, fun hallocates => ?_⟩
  cases hzero.symm.trans (hallocates.1.mp (by decide) 0 (by decide) 0 (by decide))

theorem not_accounted_bitmap_block :
    Accounted oneGroup (oneFree 0xF7) ∧ ¬ Accounted oneGroup
      (ext3BlockNew oneGroup.toSbInfo (oneFree 0xF7)).2 := by
  refine ⟨⟨by decide, by decide, by decide, by decide⟩, fun haccounted => ?_⟩
  exact absurd (haccounted.groups 0 (by decide)) (by decide)

/-- Two groups of as many blocks as a bitmap of 8192 bytes has bits. -/
def wideGroups : Volume where
  blockSize := 8192
  groupCount := 2
  firstDataBlock := 0
  blocksPerGrp := 65536
  sbSector := 0
  sbOffset := 1024
  blocksCount := 131072
  bitmapBlock i := i + 2

/-- All blocks of the first group and the first block of the second group are in
use. -/
def wideDisk : Disk
  | 0, 1036 => 0xFF
  | 0, 1037 => 0xFF
  | 1, 0 => 2
  | 1, 32 => 3
  | 1, 44 => 0xFF
  | 1, 45 => 0xFF
  | 2, _ => 0xFF
  | 3, 0 => 1
  | _, _ => 0

theorem wideDisk_bit_zero (j : ℕ) : wideGroups.bit wideDisk 0 j = true := by
  have hall : ∀ k < 8, (0xFF : UInt8).toNat.testBit k = true := by decide
  exact hall _ (mod_lt j (by decide))

theorem wideDisk_bit_one (j : ℕ) : wideGroups.bit wideDisk 1 j = decide (j = 0) := by
  have hone : ∀ k < 8, (1 : UInt8).toNat.testBit k = decide (k = 0) := by decide
  have hmod := mod_lt j (by decide : 8 > 0)
  unfold Volume.bit bmapGetBit
  cases hdiv : j / 8 with
  | zero =>
    refine (hone _ hmod).trans (decide_eq_decide.mpr ?_)
    omega
  | succ k =>
    refine (zero_testBit _).trans (decide_eq_false ?_).symm
    omega

theorem wideDisk_zeroBits_zero : wideGroups.zeroBits wideDisk 0 = 0 := by
  simp [Volume.zeroBits, wideDisk_bit_zero]

theorem wideDisk_zeroBits_one : wideGroups.zeroBits wideDisk 1 = 65535 := by
  have hfree : (Finset.range wideGroups.blocksPerGrp).filter
      (fun j => wideGroups.bit wideDisk 1 j = false) = (Finset.range 65536).erase 0 := by
    ext j
    rw [Finset.mem_filter, wideDisk_bit_one, decide_eq_false_iff_not, mem_erase, and_comm]
    rfl
  unfold Volume.zeroBits
  rw [hfree, card_erase_of_mem (mem_range.mpr (by decide)), card_range]

theorem wideDisk_accounted : Accounted wideGroups wideDisk := by
  constructor
  · decide
  · intro i hi
    match i, hi with
    | 0, _ => exact wideDisk_zeroBits_zero.symm
    | 1, _ => exact wideDisk_zeroBits_one.symm
  · have hsum : ∑ i ∈ range 2, wideGroups.zeroBits wideDisk i = 65535 := by
      rw [Finset.sum_range_succ, sum_range_one, wideDisk_zeroBits_zero, wideDisk_zeroBits_one]
    exact hsum.symm
  · intro i hi j hj hle
    have hi' : i < 2 := hi
    have hj' : j < 65536 := hj
    have hle' : 131072 ≤ 0 + i * 65536 + j := hle
    omega

theorem wideGroups_reserved_lt (h : wideGroups.Reserved block) : block < 65536 := by
  rcases h with rfl | rfl | ⟨i, hi, rfl | rfl⟩
  · decide
  · decide
  · exact (by decide : ∀ i < 2, wideGroups.descBlock i < 65536) i hi
  · exact (by decide : ∀ i < 2, wideGroups.bitmapBlock i < 65536) i hi

theorem wideDisk_reservedInUse : ReservedInUse wideGroups wideDisk := by
  intro i hi j _ hres
  cases i with
  | zero => exact wideDisk_bit_zero j
  | succ i =>
    have hlt : 0 + (i + 1) * 65536 + j < 65536 := wideGroups_reserved_lt hres
    omega

/-- When the last block of the second group is freed, the counter of the group
becomes zero. -/
theorem not_accounted_wideGroups :
    ¬ Accounted wideGroups (ext3BlockFree wideGroups.toSbInfo wideDisk 65536).2 := by
  have hone : 1 < wideGroups.groupCount := by decide
  have hpos := wideGroups.blocksPerGrp_pos
  have hset : wideGroups.bit wideDisk 1 0 = true := wideDisk_bit_one 0
  have hchanged := changed_putBlock (wideDisk_accounted.bitmaps 1 hone) hone 0
  have hfree : ext3BlockFree wideGroups.toSbInfo wideDisk 65536 =
      (0, putBlock wideGroups.toSbInfo wideDisk 1 0) :=
    ext3BlockFree_eq hone hpos
  intro haccounted
  rw [hfree] at haccounted
  have hgroup := haccounted.groups 1 hone
  rw [hchanged.groups 1 hone, if_pos rfl, wideDisk_accounted.groups 1 hone,
    zeroBits_clear hchanged.bits hone hpos hset, wideDisk_zeroBits_one] at hgroup
  cases hgroup

/-- An accounted volume is not enough: block zero may be free, or the block of a
bitmap, or a group may have more blocks than its counter can count. -/
theorem ext3_blocks_not_accounted :
    (∃ vol disk, Accounted vol disk ∧ ¬ NewAllocates vol ⟨disk, ∅⟩) ∧
    (∃ vol disk, Accounted vol disk ∧ ¬ Accounted vol (ext3BlockNew vol.toSbInfo disk).2) ∧
    ∃ vol disk block, Accounted vol disk ∧ ReservedInUse vol disk ∧
      vol.Allocated disk block ∧ ¬ vol.Reserved block ∧
      ¬ Accounted vol (ext3BlockFree vol.toSbInfo disk block).2 := by
  refine ⟨⟨_, _, not_newAllocates_block_zero⟩, ⟨_, _, not_accounted_bitmap_block⟩,
    wideGroups, wideDisk, 65536, wideDisk_accounted, wideDisk_reservedInUse,
    ?_, ?_, not_accounted_wideGroups⟩
  · exact ⟨1, by decide, 0, by decide, rfl, by decide, wideDisk_bit_one 0⟩
  · decide

end Whitix.Ext3
