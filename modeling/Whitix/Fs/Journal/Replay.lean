import Whitix.Fs.Journal.Recovery

/-!
# What recovery leaves in the cache

A block that is replayed gets a buffer behind the others of its hash list.  So
reading the block afterwards gives the contents of the buffer that was there
before recovery, if there was one, and otherwise those replayed first.
-/

namespace Whitix.Jfs

open Support Bcache List Option Prod

/-! ## Reading through the cache -/

section Cache

variable {dev dev' : StorageDevice} {b : ℕ}

def blockData (dev : StorageDevice) (b : ℕ) : Block :=
  ((blockRead dev b true).1.map Buffer.data).getD fun _ => 0

def diskData (dev : StorageDevice) (b : ℕ) : Block :=
  ((storageBuildRequest dev b).map (driverRead dev)).getD fun _ => 0

structure Usable (dev : StorageDevice) : Prop where
  blockSize_ne : dev.blockSize ≠ 0
  softBlockSize_le : dev.softBlockSize ≤ memAllocMax

structure SameDisk (dev dev' : StorageDevice) : Prop where
  blockSize : dev'.blockSize = dev.blockSize
  softBlockSize : dev'.softBlockSize = dev.softBlockSize
  disk : dev'.disk = dev.disk

theorem SameDisk.usable (h : SameDisk dev dev') (hdev : Usable dev) : Usable dev' where
  blockSize_ne := h.blockSize ▸ hdev.blockSize_ne
  softBlockSize_le := h.softBlockSize ▸ hdev.softBlockSize_le

theorem SameDisk.diskData (h : SameDisk dev dev') (b : ℕ) : diskData dev' b = diskData dev b := by
  have hrequest : storageBuildRequest dev' b = storageBuildRequest dev b := by
    rw [storageBuildRequest, storageBuildRequest, h.blockSize, h.softBlockSize]
  have hread : driverRead dev' = driverRead dev := by
    funext request k
    rw [driverRead, driverRead, h.blockSize, h.disk]
  rw [Jfs.diskData, Jfs.diskData, hrequest, hread]

theorem blockRead_cases (hdev : Usable dev) (b : ℕ) :
    (∃ x, blockFindBuffer dev b = some x ∧ blockRead dev b true = (some x, dev)) ∨
    (blockFindBuffer dev b = none ∧ ∃ x : Buffer, x.blockNum = b ∧ x.data = diskData dev b ∧
      blockRead dev b true = (some x, blockAddToHashTable dev x)) := by
  cases hfind : blockFindBuffer dev b with
  | some x =>
    refine .inl ⟨x, rfl, ?_⟩
    rw [blockRead, hfind]
  | none =>
    have hmem : ¬ (true = false ∨ memAllocMax < dev.softBlockSize) := by
      have := hdev.softBlockSize_le
      simp only [Bool.true_eq_false, false_or]
      omega
    have hrequest : ∃ request, storageBuildRequest dev b = some request := by
      rw [storageBuildRequest, if_neg hdev.blockSize_ne]
      exact ⟨_, rfl⟩
    obtain ⟨request, hrequest⟩ := hrequest
    refine .inr ⟨rfl, ⟨b, false, driverRead dev request⟩, rfl, ?_, ?_⟩
    · simp only [diskData, hrequest, map_some, getD_some]
    · simp only [blockRead, hfind, if_neg hmem, hrequest]

theorem blockData_of_find {x : Buffer} (h : blockFindBuffer dev b = some x) :
    blockData dev b = x.data := by
  rw [blockData, blockRead, h]
  rfl

theorem blockData_of_not_cached (hdev : Usable dev) (h : blockFindBuffer dev b = none) :
    blockData dev b = diskData dev b := by
  rcases blockRead_cases hdev b with ⟨x, hx, -⟩ | ⟨-, x, -, hdata, hread⟩
  · rw [h] at hx
    cases hx
  · rw [blockData, hread]
    exact hdata

theorem blockFindBuffer_add (dev : StorageDevice) (x : Buffer) (b : ℕ) :
    blockFindBuffer (blockAddToHashTable dev x) b = (blockFindBuffer dev b).or
      (if x.blockNum = b then some x else none) := by
  simp only [blockFindBuffer, blockAddToHashTable, Function.update_apply]
  by_cases hb : x.blockNum = b
  · simp [hb]
  · rw [if_neg hb, or_none]
    split
    · next hhash =>
      rw [hhash]
      simp [hb]
    · rfl

end Cache

/-! ## The state of the cache during recovery -/

section

variable (ws : List (ℕ × Block))

def firstCopy (b : ℕ) : Option Block :=
  (ws.find? fun w => w.1 = b).map snd

def lastCopy (b : ℕ) : Option Block :=
  firstCopy ws.reverse b

/-- What reading a block gives after the blocks `ws` have been replayed. -/
def replayedData (dev : StorageDevice) (ws : List (ℕ × Block)) (b : ℕ) : Block :=
  match blockFindBuffer dev b with
  | some x => x.data
  | none => (firstCopy ws b).getD (diskData dev b)

theorem firstCopy_append (w : ℕ × Block) (b : ℕ) :
    firstCopy (ws ++ [w]) b = (firstCopy ws b).or (if w.1 = b then some w.2 else none) := by
  rw [firstCopy, firstCopy, find?_append]
  cases hfind : ws.find? (fun w => w.1 = b) with
  | some v => rfl
  | none =>
    by_cases hw : w.1 = b <;> simp [hw]

end

theorem firstCopy_eq_none {ws : List (ℕ × Block)} {b : ℕ} :
    firstCopy ws b = none ↔ b ∉ ws.map fst := by
  rw [firstCopy, map_eq_none_iff, find?_eq_none]
  constructor
  · intro h hb
    obtain ⟨w, hw, rfl⟩ := mem_map.mp hb
    simpa using h w hw
  · intro h w hw
    rw [decide_eq_true_eq]
    rintro rfl
    exact h (mem_map_of_mem hw)

def Home (j : RecoverParams) (b : ℕ) : Prop :=
  ∀ i < j.maxLength, j.blockMap i ≠ b

/-- The cache of a device that was `dev` before the blocks written so far were
replayed and blocks of the journal read. -/
structure Replayed (j : RecoverParams) (dev : StorageDevice) (r : Recovery) : Prop where
  sameDisk : SameDisk dev r.dev
  data : ∀ b, blockData r.dev b = replayedData dev r.written b
  cached : ∀ b, Home j b → (blockFindBuffer r.dev b = none ↔
    blockFindBuffer dev b = none ∧ b ∉ r.written.map fst)
  home : ∀ b ∈ r.written.map fst, Home j b

section Steps

variable {j : RecoverParams} {dev : StorageDevice} {r : Recovery}

theorem replayedData_nil (hdev : Usable dev) (b : ℕ) : replayedData dev [] b = blockData dev b := by
  rw [replayedData]
  cases hfind : blockFindBuffer dev b with
  | some x => exact (blockData_of_find hfind).symm
  | none => exact (blockData_of_not_cached hdev hfind).symm

theorem Replayed.refl (hdev : Usable dev) : Replayed j dev ⟨dev, []⟩ where
  sameDisk := ⟨rfl, rfl, rfl⟩
  data := fun b => (replayedData_nil hdev b).symm
  cached := fun b _ => by simp
  home := fun b hb => by simp at hb

section

variable (h : Replayed j dev r)
include h

theorem Replayed.journal_data (hdev : Usable dev) {i : ℕ} (hi : i < j.maxLength) :
    blockData r.dev (j.blockMap i) = blockData dev (j.blockMap i) := by
  have hnone : firstCopy r.written (j.blockMap i) = none := by
    rw [firstCopy_eq_none]
    intro hmem
    exact h.home _ hmem i hi rfl
  rw [h.data, ← replayedData_nil hdev, replayedData, hnone]
  rfl

theorem Replayed.journalBlockRead (hdev : Usable dev) {i : ℕ} (hi : i < j.maxLength) :
    ∃ r', journalBlockRead r (j.blockMap i) = some (blockData dev (j.blockMap i), r') ∧
      Replayed j dev r' ∧ r'.written = r.written := by
  have hr := h.sameDisk.usable hdev
  have hdata := h.journal_data hdev hi
  rcases blockRead_cases hr (j.blockMap i) with
    ⟨x, hx, hread⟩ | ⟨hnone, x, hnum, hxdata, hread⟩
  · refine ⟨r, ?_, h, rfl⟩
    rw [Jfs.journalBlockRead, hread, ← hdata, blockData_of_find hx]
    rfl
  · refine ⟨{ r with dev := blockAddToHashTable r.dev x }, ?_, ?_, rfl⟩
    · rw [Jfs.journalBlockRead, hread, ← hdata, blockData_of_not_cached hr hnone, ← hxdata]
      rfl
    · have hsame : SameDisk dev (blockAddToHashTable r.dev x) := { h.sameDisk with }
      refine ⟨hsame, ?_, ?_, h.home⟩
      · intro b
        rw [← h.data]
        have hfind := blockFindBuffer_add r.dev x b
        cases hold : blockFindBuffer r.dev b with
        | some y =>
          rw [hold, some_or] at hfind
          rw [blockData_of_find hfind, blockData_of_find hold]
        | none =>
          rw [hold, none_or] at hfind
          rw [blockData_of_not_cached hr hold]
          split at hfind
          · next hb =>
            rw [blockData_of_find hfind, hxdata, ← hnum, hb]
          · rw [blockData_of_not_cached (hsame.usable hdev) hfind,
              hsame.diskData, h.sameDisk.diskData]
      · intro b hb
        rw [← h.cached b hb, blockFindBuffer_add, hnum, if_neg (hb i hi), or_none]

theorem Replayed.replayBlock (hdev : Usable dev) {size b : ℕ} (hb : Home j b) (data : Block) :
    Replayed j dev (replayBlock size r b data) := by
  have hsame : SameDisk dev (Jfs.replayBlock size r b data).dev := { h.sameDisk with }
  have hfind : ∀ b', blockFindBuffer (Jfs.replayBlock size r b data).dev b' =
      (blockFindBuffer r.dev b').or (if b = b' then
        some ⟨b, true, memcpy (fun _ => 0) data size⟩ else none) :=
    fun b' => blockFindBuffer_add r.dev _ b'
  have hwritten : (Jfs.replayBlock size r b data).written =
      r.written ++ [(b, memcpy (fun _ => 0) data size)] := rfl
  have hr := h.sameDisk.usable hdev
  refine ⟨hsame, ?_, ?_, ?_⟩
  · intro b'
    have hold := h.data b'
    have hnew := hfind b'
    rw [replayedData] at hold ⊢
    rw [hwritten, firstCopy_append]
    cases hcached : blockFindBuffer r.dev b' with
    | some x =>
      rw [hcached, some_or] at hnew
      rw [blockData_of_find hnew, ← blockData_of_find hcached, hold]
      by_cases hb' : b = b'
      · subst hb'
        -- The buffer was there before, or the block is replayed again.
        have hnot : ¬ (blockFindBuffer dev b = none ∧ b ∉ r.written.map fst) := by
          rw [← h.cached b hb, hcached]
          exact some_ne_none x
        cases hdevFind : blockFindBuffer dev b with
        | some y => rfl
        | none =>
          have hmem : firstCopy r.written b ≠ none := by
            rw [ne_eq, firstCopy_eq_none]
            exact fun hmem => hnot ⟨hdevFind, hmem⟩
          obtain ⟨d, hd⟩ := ne_none_iff_exists'.mp hmem
          rw [hd, some_or]
      · rw [if_neg hb', or_none]
    | none =>
      rw [hcached, none_or] at hnew
      by_cases hb' : b = b'
      · subst hb'
        obtain ⟨hdevFind, hmem⟩ := (h.cached b hb).mp hcached
        rw [if_pos rfl] at hnew
        rw [blockData_of_find hnew, hdevFind, firstCopy_eq_none.mpr hmem, if_pos rfl]
        rfl
      · rw [if_neg hb'] at hnew ⊢
        rw [or_none, ← hold, blockData_of_not_cached hr hcached,
          blockData_of_not_cached (hsame.usable hdev) hnew, hsame.diskData, h.sameDisk.diskData]
  · intro b' hb'
    rw [hfind, or_eq_none_iff, h.cached b' hb']
    simp only [hwritten, map_append, mem_append, map_cons,
      map_nil, mem_singleton, not_or, and_assoc]
    by_cases hbb : b = b'
    · simp [hbb]
    · simp [hbb, Ne.symm hbb]
  · intro b' hb'
    simp only [hwritten, map_append, mem_append, map_cons, map_nil, mem_singleton] at hb'
    rcases hb' with hb' | rfl
    · exact h.home b' hb'
    · exact hb

end

end Steps

/-! ## Descriptor blocks -/

section Descriptors

variable {j : RecoverParams} {dev : StorageDevice}

section

variable {data : Block} {p size : ℕ} {bs : List ℕ}

theorem TagsAt.add_length_le (h : TagsAt data size p bs) : p + bs.length ≤ size := by
  induction h with
  | last hroom _ =>
    rw [sizeofTag] at hroom
    rw [length_singleton]
    omega
  | @cons p bs hroom _ _ ih =>
    have hnext : p + 1 ≤ nextTag data p := by
      rw [nextTag, sizeofTag]
      split <;> omega
    rw [length_cons]
    omega

theorem TagsAt.tagsFrom (h : TagsAt data size p bs) (fuel : ℕ) (hfuel : bs.length ≤ fuel) :
    tagsFrom data size fuel p = bs := by
  induction h generalizing fuel with
  | last hroom hlast =>
    obtain ⟨fuel, rfl⟩ : ∃ n, fuel = n + 1 :=
      ⟨fuel - 1, by rw [length_singleton] at hfuel; omega⟩
    rw [tagsFrom_succ hroom, if_pos hlast]
  | cons hroom hlast _ ih =>
    rw [length_cons] at hfuel
    obtain ⟨fuel, rfl⟩ : ∃ n, fuel = n + 1 := ⟨fuel - 1, by omega⟩
    rw [tagsFrom_succ hroom, if_neg (not_not.mpr hlast), ih fuel (by omega)]

theorem TagsAt.tags (h : TagsAt data size sizeofHeader bs) : tags data size = bs :=
  h.tagsFrom size (by have := h.add_length_le; omega)

end

/-- The blocks of the journal before recovery. -/
def logOf (j : RecoverParams) (dev : StorageDevice) (n : ℕ) : Block :=
  blockData dev (j.blockMap n)

theorem Replayed.foldl_replayEntry (hdev : Usable dev) (hmax : j.maxLength < 2 ^ 32)
    (bs : List ℕ) (n : ℕ) (r : Recovery) (h : Replayed j dev r) (hhome : ∀ b ∈ bs, Home j b)
    (hn : n + bs.length < j.maxLength) :
      ∃ r', bs.foldl (replayEntry j) (some (r, n)) = some (r', n + bs.length) ∧ Replayed j dev r' ∧
        r'.written = r.written ++ pairsFrom j.sectorSize (logOf j dev) n bs := by
  induction bs generalizing n r with
  | nil => exact ⟨r, rfl, h, (append_nil _).symm⟩
  | cons b bs ih =>
    rw [length_cons] at hn
    obtain ⟨r₁, hread, h₁, hwritten₁⟩ :=
      h.journalBlockRead hdev (show n < j.maxLength by omega)
    have hb := hhome b mem_cons_self
    have hmem : ¬ memAllocMax < r₁.dev.softBlockSize := by
      rw [h₁.sameDisk.softBlockSize]
      exact not_lt.mpr hdev.softBlockSize_le
    have hstep : replayEntry j (some (r, n)) b =
        some (Jfs.replayBlock j.sectorSize r₁ b (logOf j dev n), n + 1) := by
      simp only [replayEntry, bind_eq_bind, bind_some, hread,
        if_neg hmem, journalWrap_succ hmax (show n + 1 < _ by omega), logOf]
    obtain ⟨r', hfold, h', hwritten⟩ := ih (n + 1) _ (h₁.replayBlock hdev hb (logOf j dev n))
      (forall_mem_cons.mp hhome).2 (by omega)
    refine ⟨r', ?_, h', ?_⟩
    · rw [foldl_cons, hstep, hfold, length_cons]
      congr 2
      omega
    · rw [hwritten]
      change (r₁.written ++ [(b, _)]) ++ _ = _
      rw [hwritten₁, append_assoc]
      rfl

theorem Replayed.journalReplayBlocks (hdev : Usable dev) (hmax : j.maxLength < 2 ^ 32)
    {r : Recovery} (h : Replayed j dev r) {data : Block} {bs : List ℕ} {n : ℕ}
    (htags : TagsAt data j.sectorSize sizeofHeader bs) (hhome : ∀ b ∈ bs, Home j b)
    (hn : n + bs.length < j.maxLength) :
    ∃ r', journalReplayBlocks j r data n = some (r', n + bs.length) ∧
      Replayed j dev r' ∧ r'.written = r.written ++ pairsFrom j.sectorSize (logOf j dev) n bs := by
  rw [Jfs.journalReplayBlocks, forEachTag_eq_foldl]
  change ∃ r', (tags data j.sectorSize).foldl _ _ = _ ∧ _
  rw [htags.tags]
  exact Replayed.foldl_replayEntry hdev hmax bs n r h hhome hn

end Descriptors

end Whitix.Jfs
