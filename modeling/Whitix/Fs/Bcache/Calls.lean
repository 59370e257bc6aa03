import Whitix.Fs.Bcache.Invariant

/-!
# The calls of the block cache

`BlockRead`, a modification followed by `BlockWrite`, `BlockSyncDevice` and
`BlockSetSize` keep the invariant, and all of them return.
-/

namespace Whitix.Bcache

open Support Function List Option Nat

/-! ## Reading -/

variable {buff : Buffer} {back front : List Buffer}

section Read

variable {size : ℕ} {dev : StorageDevice} {bytes : ℕ → UInt8} {b : ℕ}
  (hsize : size < 2 ^ 32) (h : CacheInv size dev bytes)

theorem blockFindBuffer_some (hfind : blockFindBuffer dev b = some buff) :
    buff ∈ dev.hashLists (bufferHash b) ∧ buff.blockNum = b :=
  ⟨mem_of_find?_eq_some hfind, by simpa using find?_some hfind⟩

include h hsize

section

variable (hb : Inside size dev b)
include hb

theorem blockRead_inv (memory : Bool) : CacheInv size (blockRead dev b memory).2 bytes := by
  unfold blockRead
  split
  · exact h
  · next hnone =>
    split
    · exact h
    · rw [storageBuildRequest_eq h.toSized hsize hb]
      refine h.append hnone hb rfl ?_
      intro j hj
      exact (driverRead_eq h.toSized hj).symm

theorem blockRead_data {memory : Bool} (hread : (blockRead dev b memory).1 = some buff) :
    ∀ j < dev.softBlockSize, buff.data j = bytes (b * dev.softBlockSize + j) := by
  intro j hj
  unfold blockRead at hread
  split at hread
  · next buff' hfind =>
    obtain rfl := some.inj hread
    obtain ⟨hmem, rfl⟩ := blockFindBuffer_some hfind
    exact (h.cached _ buff' hmem j hj).symm
  · next hnone =>
    split at hread
    · cases hread
    · rw [storageBuildRequest_eq h.toSized hsize hb] at hread
      cases hread
      refine (driverRead_eq h.toSized hj).trans ?_
      refine (h.uncached _ ?_ ?_).symm
      · unfold Inside at hb
        rw [add_mul] at hb
        omega
      · rw [(h.div_mod b hj).1]
        exact h.no_buffer hnone

theorem blockRead_returns (hmemory : dev.softBlockSize ≤ memAllocMax) :
    ∃ buff, (blockRead dev b true).1 = some buff := by
  unfold blockRead
  split
  · exact ⟨_, rfl⟩
  · rw [if_neg (by simpa using hmemory), storageBuildRequest_eq h.toSized hsize hb]
    exact ⟨_, rfl⟩

end

end Read

/-! ## Modifying -/

variable {b j i n : ℕ} {dev : StorageDevice}

theorem map_change_split {x : Buffer} (change : Buffer → Buffer)
    (hnodup : ((front ++ x :: back).map Buffer.blockNum).Nodup) (hx : x.blockNum = b) :
    ((front ++ x :: back).map fun y =>
      if y.blockNum = b then change y else y) = front ++ change x :: back := by
  rw [map_append, map_cons, nodup_append, nodup_cons] at hnodup
  obtain ⟨-, ⟨hback, -⟩, hfront⟩ := hnodup
  have hsame : ∀ ys : List Buffer, (∀ y ∈ ys, y.blockNum ≠ b) →
      ys.map (fun y => if y.blockNum = b then change y else y) = ys := by
    intro ys hys
    exact (map_congr_left fun y hy => if_neg (hys y hy)).trans (map_id ys)
  rw [map_append, map_cons, if_pos hx, hsame front, hsame back]
  · intro y hy heq
    exact hback (by rw [hx, ← heq]; exact mem_map_of_mem hy)
  · intro y hy heq
    exact hfront _ (mem_map_of_mem hy) _ mem_cons_self (heq.trans hx.symm)

theorem updateBuffer_split (dev : StorageDevice) (x : Buffer) (change : Buffer → Buffer)
    (hbucket : dev.hashLists (bufferHash x.blockNum) = front ++ x :: back)
    (hnodup : ((front ++ x :: back).map Buffer.blockNum).Nodup) :
    updateBuffer dev x.blockNum change =
      { dev with
        hashLists := update dev.hashLists (bufferHash x.blockNum)
          (front ++ change x :: back) } := by
  rw [updateBuffer, hbucket, map_change_split change hnodup rfl]

theorem blockFindBuffer_updateBuffer (dev : StorageDevice) (b : ℕ) (change : Buffer → Buffer)
    (hchange : ∀ y, (change y).blockNum = y.blockNum) :
    blockFindBuffer (updateBuffer dev b change) b = (blockFindBuffer dev b).map fun y =>
      if y.blockNum = b then change y else y := by
  have hnum : ∀ y : Buffer, (if y.blockNum = b then change y else y).blockNum = y.blockNum := by
    intro y
    split
    · exact hchange y
    · rfl
  rw [blockFindBuffer, updateBuffer]
  dsimp only
  rw [update_self, find?_map]
  simp only [comp_def, hnum]
  rfl

def storeBytes (bytes : ℕ → UInt8) (softBlockSize b : ℕ) (data : ℕ → UInt8) : ℕ → UInt8 :=
  fun k => if k / softBlockSize = b then data (k % softBlockSize) else bytes k

theorem modify_inv {size : ℕ} {bytes : ℕ → UInt8} (h : CacheInv size dev bytes)
    (hfound : (blockFindBuffer dev b).isSome = true) (data : ℕ → UInt8) :
    CacheInv size (blockWrite (storeBuffer dev b data) b)
      (storeBytes bytes dev.softBlockSize b data) := by
  obtain ⟨x, hfind⟩ := isSome_iff_exists.mp hfound
  obtain ⟨hx, rfl⟩ := blockFindBuffer_some hfind
  obtain ⟨front, back, hbucket⟩ := append_of_mem hx
  have hnodup := h.unique (bufferHash x.blockNum)
  rw [hbucket] at hnodup
  have hstore : storeBuffer dev x.blockNum data = _ :=
    updateBuffer_split dev x (fun y => { y with data := data }) hbucket hnodup
  have hfind' : blockFindBuffer (storeBuffer dev x.blockNum data) x.blockNum =
      some { x with data := data } := by
    rw [storeBuffer, blockFindBuffer_updateBuffer, hfind, map_some, if_pos rfl]
    exact fun _ => rfl
  have hnew : ∀ j < dev.softBlockSize, storeBytes bytes dev.softBlockSize x.blockNum data
        (x.blockNum * dev.softBlockSize + j) = data j := by
    intro j hj
    obtain ⟨hdiv, hmod⟩ := h.div_mod x.blockNum hj
    rw [storeBytes, if_pos hdiv, hmod]
  have hother : ∀ k, k / dev.softBlockSize ≠ x.blockNum →
      flat dev.disk 0 dev.blockSize k = dev.byte k ∧
        storeBytes bytes dev.softBlockSize x.blockNum data k = bytes k :=
    fun k hk => ⟨rfl, if_neg hk⟩
  rw [blockWrite, hfind']
  dsimp only
  cases hdirty : x.dirty with
  | true =>
    rw [hstore]
    refine h.replace { x with data := data } hbucket rfl rfl ?_ hnew hother
    intro hclean
    rw [hdirty] at hclean
    cases hclean
  | false =>
    have hwrite : updateBuffer (storeBuffer dev x.blockNum data) x.blockNum
        (fun y => { y with dirty := true }) =
          { dev with
            hashLists := update dev.hashLists (bufferHash x.blockNum)
              (front ++ { x with data := data, dirty := true } :: back) } := by
      have hsplit := updateBuffer_split (storeBuffer dev x.blockNum data)
        { x with data := data } (fun y => { y with dirty := true })
        (by rw [hstore]; exact update_self ..)
        (by simpa using hnodup)
      rw [hsplit, hstore]
      simp only [update_idem]
    rw [hwrite]
    refine h.replace { x with data := data, dirty := true } hbucket rfl ?_ ?_ hnew hother
    · rw [hdirty]
      rfl
    · exact nofun

/-! ## Synchronisation -/

theorem take_append_cons_drop {α : Type*} {xs : List α} {x : α}
    (hx : xs[j]? = some x) : xs = xs.take j ++ x :: xs.drop (j + 1) := by
  obtain ⟨hj, rfl⟩ := List.getElem?_eq_some_iff.mp hx
  rw [getElem_cons_drop, take_append_drop]

section Flush

theorem flushBuffer_other {i' : ℕ} (hi' : i' ≠ i) :
    (flushBuffer dev i j).hashLists i' = dev.hashLists i' := by
  unfold flushBuffer
  split
  · rfl
  · split
    · exact update_of_ne hi' _ _
    · rfl

theorem flushBuffer_length :
    ((flushBuffer dev i j).hashLists i).length = (dev.hashLists i).length := by
  unfold flushBuffer
  split
  · rfl
  · split
    · dsimp only
      rw [update_self, length_set]
    · rfl

theorem flushBuffer_blockSize : (flushBuffer dev i j).blockSize = dev.blockSize := by
  unfold flushBuffer
  split
  · rfl
  · split <;> rfl

theorem syncBucket_blockSize (n : ℕ) : (syncBucket i n j dev).blockSize = dev.blockSize := by
  induction n generalizing j dev with
  | zero => rfl
  | succ n ih =>
    rw [syncBucket]
    split
    · exact flushBuffer_blockSize
    · exact ih.trans flushBuffer_blockSize

theorem syncBuckets_blockSize (n : ℕ) : (syncBuckets n i dev).blockSize = dev.blockSize := by
  induction n generalizing i dev with
  | zero => rfl
  | succ n ih =>
    rw [syncBuckets]
    split
    · exact syncBucket_blockSize _
    · exact ih.trans (syncBucket_blockSize _)

theorem flushBuffer_getElem? (m : ℕ) :
    (m ≠ j → ((flushBuffer dev i j).hashLists i)[m]? = (dev.hashLists i)[m]?) ∧
      ∀ x, ((flushBuffer dev i j).hashLists i)[j]? = some x → x.dirty = false := by
  unfold flushBuffer
  split
  · next hnone =>
    refine ⟨fun _ => rfl, fun x hx => ?_⟩
    rw [hnone] at hx
    cases hx
  · next y hy =>
    split
    · dsimp only
      rw [update_self]
      refine ⟨fun hm => getElem?_set_ne hm.symm, fun x hx => ?_⟩
      rw [getElem?_set_self (List.getElem?_eq_some_iff.mp hy).1] at hx
      rw [← some.inj hx]
    · next hclean =>
      refine ⟨fun _ => rfl, fun x hx => ?_⟩
      rw [hy] at hx
      cases hx
      simpa using hclean

end Flush

section Sync

variable {size : ℕ} (hsize : size < 2 ^ 32) {bytes : ℕ → UInt8}

include hsize

section

variable (h : CacheInv size dev bytes)
include h

theorem flushBuffer_inv (i j : ℕ) : CacheInv size (flushBuffer dev i j) bytes := by
  unfold flushBuffer
  split
  · exact h
  · next x hx =>
    split
    · next hdirty =>
      have hmem : x ∈ dev.hashLists i := mem_of_getElem? hx
      have hi : i < hashNumEntries :=
        h.hashed i x hmem ▸ bufferHash_lt x.blockNum
      have hpos : dev.numDirty ≠ 0 := by
        rw [h.count, ne_eq, dirtyCount_eq_zero]
        intro hclean
        rw [hclean i hi x hmem] at hdirty
        cases hdirty
      obtain ⟨hj, -⟩ := List.getElem?_eq_some_iff.mp hx
      rw [set_eq_take_append_cons_drop, if_pos hj, doBlockWrite,
        storageBuildRequest_eq h.toSized hsize (h.inside i x hmem)]
      refine h.replace { x with dirty := false } (take_append_cons_drop hx) rfl ?_ ?_ ?_ ?_
      · rw [hdirty]
        change dev.numDirty - 1 + 1 = dev.numDirty + 0
        omega
      · intro _ k hk
        obtain ⟨hdiv, hmod⟩ := h.div_mod x.blockNum hk
        rw [flat_driverWrite h.toSized, if_pos hdiv, hmod]
      · exact h.cached i x hmem
      · intro k hk
        rw [flat_driverWrite h.toSized, if_neg hk]
        exact ⟨rfl, rfl⟩
    · exact h

/-- The inner loop keeps the invariant.  It stops when no buffer is dirty any
more, and otherwise it has cleaned its bucket. -/
theorem syncBucket_spec (hclean : ∀ m < j, ∀ x, (dev.hashLists i)[m]? = some x → x.dirty = false)
    (hlen : (dev.hashLists i).length ≤ j + n) :
    CacheInv size (syncBucket i n j dev) bytes ∧
      (∀ i' ≠ i, (syncBucket i n j dev).hashLists i' = dev.hashLists i') ∧
      ((syncBucket i n j dev).numDirty = 0 ∨
        ∀ x ∈ (syncBucket i n j dev).hashLists i, x.dirty = false) := by
  induction n generalizing j dev with
  | zero =>
    refine ⟨h, fun _ _ => rfl, .inr ?_⟩
    intro x hx
    obtain ⟨m, hm⟩ := mem_iff_getElem?.mp hx
    obtain ⟨hlt, -⟩ := List.getElem?_eq_some_iff.mp hm
    exact hclean m (hlt.trans_le hlen) x hm
  | succ n ih =>
    have hflush := flushBuffer_inv hsize h i j
    rw [syncBucket]
    split
    · next hzero =>
      exact ⟨hflush, fun _ hi' => flushBuffer_other hi', .inl hzero⟩
    · obtain ⟨hinv, hother, hdone⟩ := ih hflush (j := j + 1) (by
          intro m hm x hx
          rcases Nat.lt_succ_iff_lt_or_eq.mp hm with hlt | rfl
          · rw [(flushBuffer_getElem? m).1 hlt.ne] at hx
            exact hclean m hlt x hx
          · exact (flushBuffer_getElem? m).2 x hx)
        (by rw [flushBuffer_length]; omega)
      refine ⟨hinv, ?_, hdone⟩
      intro i' hi'
      rw [hother i' hi', flushBuffer_other hi']

theorem syncBuckets_spec
    (hclean : ∀ i' < i, ∀ x ∈ dev.hashLists i', x.dirty = false) (hlen : i + n = hashNumEntries) :
    CacheInv size (syncBuckets n i dev) bytes ∧ (syncBuckets n i dev).numDirty = 0 := by
  induction n generalizing i dev with
  | zero =>
    refine ⟨h, ?_⟩
    rw [syncBuckets, h.count, dirtyCount_eq_zero]
    exact hlen ▸ hclean
  | succ n ih =>
    obtain ⟨hinv, hother, hdone⟩ := syncBucket_spec hsize h (i := i)
      (n := (dev.hashLists i).length) (j := 0)
      (fun m hm => absurd hm (not_lt_zero m)) (le_add_left _ _)
    rw [syncBuckets]
    split
    · next hzero => exact ⟨hinv, hzero⟩
    · next hzero =>
      apply ih hinv
      · intro i' hi' x hx
        rcases Nat.lt_succ_iff_lt_or_eq.mp hi' with hlt | rfl
        · rw [hother i' hlt.ne] at hx
          exact hclean i' hlt x hx
        · exact (hdone.resolve_left hzero) x hx
      · omega

theorem blockSyncDevice_spec (hidle : dev.syncing = false) :
    ∃ dev', blockSyncDevice dev = some dev' ∧ CacheInv size dev' bytes ∧
      dev'.blockSize = dev.blockSize ∧ dev'.syncing = false ∧
      dev'.numDirty = 0 := by
  by_cases hzero : dev.numDirty = 0
  · exact ⟨dev, if_pos (.inr hzero), h, rfl, hidle, hzero⟩
  · have hbusy : CacheInv size { dev with syncing := true } bytes :=
      { h with }
    obtain ⟨hinv, hdone⟩ := syncBuckets_spec hsize hbusy (fun i' hi' => absurd hi' (not_lt_zero i'))
      (zero_add hashNumEntries)
    refine ⟨{ syncBuckets hashNumEntries 0 { dev with syncing := true } with
      syncing := false }, ?_, ?_, syncBuckets_blockSize _, rfl, hdone⟩
    · rw [blockSyncDevice, if_neg (by simp [hidle, hzero])]
      exact if_pos hdone
    · exact { hinv with }

theorem blockDeviceFreeAll_spec (hidle : dev.syncing = false) :
    ∃ dev', blockDeviceFreeAll dev = some dev' ∧
      dev'.blockSize = dev.blockSize ∧ dev'.syncing = false ∧
      dev'.numDirty = 0 ∧ (∀ i, dev'.hashLists i = []) ∧
      ∀ k < size, bytes k = dev'.byte k := by
  have hsync : ∃ dev₁, (if dev.numDirty = 0 then some dev
      else (blockSyncDevice dev).bind fun dev =>
        if dev.numDirty = 0 then some dev else none) = some dev₁ ∧
      CacheInv size dev₁ bytes ∧ dev₁.blockSize = dev.blockSize ∧
      dev₁.syncing = false ∧ dev₁.numDirty = 0 := by
    by_cases hzero : dev.numDirty = 0
    · exact ⟨dev, if_pos hzero, h, rfl, hidle, hzero⟩
    · obtain ⟨dev₁, hsync, hinv, hblock, hidle₁, hzero₁⟩ :=
        blockSyncDevice_spec hsize h hidle
      refine ⟨dev₁, ?_, hinv, hblock, hidle₁, hzero₁⟩
      rw [if_neg hzero, hsync, bind_some, if_pos hzero₁]
  obtain ⟨dev₁, hsync, hinv, hblock, hidle₁, hzero₁⟩ := hsync
  refine ⟨{ dev₁ with
    hashLists := fun i => if i < hashNumEntries then []
      else dev₁.hashLists i }, ?_, hblock, hidle₁, hzero₁, ?_, ?_⟩
  · rw [blockDeviceFreeAll, hsync]
    rfl
  · intro i
    dsimp only
    split
    · rfl
    · next hi =>
      refine eq_nil_iff_forall_not_mem.mpr fun x hx => hi ?_
      exact hinv.hashed i x hx ▸ bufferHash_lt x.blockNum
  · intro k hk
    exact (hinv.disk_eq hzero₁ k hk).symm

theorem blockSetSize_spec (hidle : dev.syncing = false) (blockSize : ℕ) :
    ∃ r, blockSetSize dev blockSize = some r ∧ CacheInv size r.2 bytes ∧ r.2.syncing = false := by
  unfold blockSetSize
  split
  · exact ⟨_, rfl, h, hidle⟩
  · next hzero =>
    split
    · exact ⟨_, rfl, h, hidle⟩
    · next hpower =>
      split
      · exact ⟨_, rfl, h, hidle⟩
      · next hle =>
        split
        · exact ⟨_, rfl, h, hidle⟩
        · obtain ⟨dev', hfree, hblock, hidle', hzero', hempty, hbytes⟩ :=
            blockDeviceFreeAll_spec hsize h hidle
          rw [hfree]
          refine ⟨_, rfl, ?_, hidle'⟩
          have hpow := (and_sub_one_eq_zero_iff_isPowerOfTwo hzero).mp (not_not.mp hpower)
          have hdvd : dev.blockSize ∣ blockSize := by
            obtain ⟨n, hn⟩ := h.power
            obtain ⟨m, rfl⟩ := hpow
            rw [hn] at hle ⊢
            exact pow_dvd_pow 2 ((Nat.pow_le_pow_iff_right (by decide)).mp (not_lt.mp hle))
          refine CacheInv.of_empty ⟨?_, pos_of_ne_zero hzero, ?_⟩ ?_ hempty hzero' hbytes
          · exact hblock ▸ h.sector
          · exact hblock ▸ hdvd
          · exact hblock ▸ h.power

end

end Sync

end Whitix.Bcache
