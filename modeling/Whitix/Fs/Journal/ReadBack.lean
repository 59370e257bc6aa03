import Whitix.Fs.Journal.Commit

/-!
# Reading a transaction back

The replay pass of recovery goes over the log a commit has written.  It finds
the list of buffers again if there is only one of them.  With more buffers the
descriptor block describes fewer than there are, and the next block is taken
for a header.  Whatever it contains, the pass then cannot find the missing
buffers before the commit block: it would have to read each of them from a
later block than the one it was written to.
-/

namespace Whitix.Jfs

open Support List Option Nat Prod

/-! ## The replay pass on a log -/

section Replay

variable (size : ℕ) (wrap : ℕ → ℕ) (log : ℕ → Block)

/-- An iteration of `JournalReplayBlocks`, which takes the data for the block
of a tag from the next log block. -/
def replayTag (st : List (ℕ × Block) × ℕ) (b : ℕ) : List (ℕ × Block) × ℕ :=
  (st.1 ++ [(b, homeCopy size log st.2)], wrap (dword (st.2 + 1)))

/-- The replay pass over a log that holds `log`, with the blocks replayed so
far. -/
def logAccess : Access (List (ℕ × Block)) where
  read := fun replayed n => some (log n, replayed)
  descriptor := fun replayed data next =>
    some (forEachTag data size (replayTag size wrap log) size sizeofHeader (replayed, next))

/-- The iterations of a pass up to the first commit block. -/
def readTransaction {σ : Type*} (wrap : ℕ → ℕ) (access : Access σ) : ℕ → Pass σ → Option (Pass σ)
  | 0, _ => none
  | fuel + 1, p =>
    match passIteration wrap access p with
    | some (true, p') =>
      if p'.nextCommitId ≠ p.nextCommitId then some p'
      else readTransaction wrap access fuel p'
    | _ => none

def replayPairs : List ℕ → ℕ → List (ℕ × Block)
  | [], _ => []
  | b :: bs, n => (b, homeCopy size log n) ::
      replayPairs bs (wrap (dword (n + 1)))

def replayEnd : List ℕ → ℕ → ℕ
  | [], n => n
  | _ :: bs, n => replayEnd bs (wrap (dword (n + 1)))

theorem foldl_replayTag (bs : List ℕ) (acc : List (ℕ × Block)) (n : ℕ) :
    bs.foldl (replayTag size wrap log) (acc, n) =
      (acc ++ replayPairs size wrap log bs n, replayEnd wrap bs n) := by
  induction bs generalizing acc n with
  | nil => rw [foldl_nil, replayPairs, replayEnd, append_nil]
  | cons b bs ih =>
    rw [foldl_cons, replayTag, ih, replayEnd, append_assoc]
    rfl

theorem length_replayPairs (bs : List ℕ) (n : ℕ) :
    (replayPairs size wrap log bs n).length = bs.length := by
  induction bs generalizing n with
  | nil => rfl
  | cons b bs ih => rw [replayPairs, length_cons, length_cons, ih]

end Replay

section NoWrap

variable {size maxLength first : ℕ} {log : ℕ → Block}

theorem replayPairs_getElem? (hmax : maxLength < 2 ^ 32) (bs : List ℕ) (n i : ℕ)
    (hi : i < bs.length) (hn : n + i < maxLength) :
      ((replayPairs size (journalWrap maxLength first) log bs n)[i]?).map
        snd = some (homeCopy size log (n + i)) := by
  induction bs generalizing n i with
  | nil => exact absurd hi (not_lt_zero i)
  | cons b bs ih =>
    cases i with
    | zero => rfl
    | succ i =>
      rw [replayPairs, getElem?_cons_succ, journalWrap_succ hmax (by omega),
        ih (n + 1) i (lt_of_succ_lt_succ hi) (by omega)]
      congr 2
      omega

theorem replayEnd_eq (hmax : maxLength < 2 ^ 32) (bs : List ℕ) (n : ℕ)
    (hn : n + bs.length < maxLength) :
    replayEnd (journalWrap maxLength first) bs n = n + bs.length := by
  induction bs generalizing n with
  | nil => rfl
  | cons b bs ih =>
    rw [length_cons] at hn ⊢
    rw [replayEnd, journalWrap_succ hmax (by omega), ih (n + 1) (by omega)]
    omega

end NoWrap

/-! ## One iteration -/

section Iteration

variable {size : ℕ} {wrap : ℕ → ℕ} {log : ℕ → Block} {p p' : Pass (List (ℕ × Block))}

theorem logAccess_descriptor (acc : List (ℕ × Block)) (data : Block) (next : ℕ) :
    (logAccess size wrap log).descriptor acc data next =
      some (acc ++ replayPairs size wrap log (tags data size) next,
        replayEnd wrap (tags data size) next) := by
  change some (forEachTag data size (replayTag size wrap log) size sizeofHeader (acc, next)) = _
  rw [forEachTag_eq_foldl, ← tags, foldl_replayTag]

theorem logAccess_read (acc : List (ℕ × Block)) (n : ℕ) :
    (logAccess size wrap log).read acc n = some (log n, acc) := rfl

theorem passIteration_logAccess :
    passIteration wrap (logAccess size wrap log) p =
      passBlock (logAccess size wrap log) (log p.nextLogBlock)
        { p with nextLogBlock := wrap (dword (p.nextLogBlock + 1)) } := by
  rw [passIteration, logAccess_read, bind_some]

/-- What an iteration that goes on has found: a descriptor block, whose tags
it has replayed, a commit block or a block of unknown type. -/
theorem passIteration_true (h : passIteration wrap (logAccess size wrap log) p = some (true, p')) :
    ((headerAt (log p.nextLogBlock) 0).blockType = jfsDescBlock ∧
        p' = ⟨replayEnd wrap (tags (log p.nextLogBlock) size) (wrap (dword (p.nextLogBlock + 1))),
          p.nextCommitId,
          p.env ++ replayPairs size wrap log (tags (log p.nextLogBlock) size)
            (wrap (dword (p.nextLogBlock + 1)))⟩) ∨
      ((headerAt (log p.nextLogBlock) 0).blockType = jfsCommitBlock ∧
        p' = ⟨wrap (dword (p.nextLogBlock + 1)), dword (p.nextCommitId + 1), p.env⟩) ∨
      ((headerAt (log p.nextLogBlock) 0).blockType ≠ jfsCommitBlock ∧
        p' = ⟨wrap (dword (p.nextLogBlock + 1)), p.nextCommitId, p.env⟩) := by
  rw [passIteration_logAccess] at h
  rcases passBlock_true h with ⟨htype, r, hr, hp'⟩ | ⟨htype, hp'⟩ | ⟨htype, hp'⟩
  · rw [logAccess_descriptor] at hr
    rw [← some.inj hr] at hp'
    exact .inl ⟨htype, hp'⟩
  · exact .inr (.inl ⟨htype, hp'⟩)
  · exact .inr (.inr ⟨htype, hp'⟩)

theorem passIteration_descriptor
    (h : headerAt (log p.nextLogBlock) 0 = ⟨jfsMagic, jfsDescBlock, p.nextCommitId⟩) :
    passIteration wrap (logAccess size wrap log) p = some (true,
      ⟨replayEnd wrap (tags (log p.nextLogBlock) size) (wrap (dword (p.nextLogBlock + 1))),
        p.nextCommitId,
        p.env ++ replayPairs size wrap log (tags (log p.nextLogBlock) size)
          (wrap (dword (p.nextLogBlock + 1)))⟩) := by
  rw [passIteration_logAccess, passBlock_descriptor
    (p := { p with nextLogBlock := wrap (dword (p.nextLogBlock + 1)) }) h,
    logAccess_descriptor, map_some]

theorem passIteration_commit
    (h : headerAt (log p.nextLogBlock) 0 = ⟨jfsMagic, jfsCommitBlock, p.nextCommitId⟩) :
    passIteration wrap (logAccess size wrap log) p = some (true, ⟨wrap (dword (p.nextLogBlock + 1)),
      dword (p.nextCommitId + 1), p.env⟩) := by
  rw [passIteration_logAccess, passBlock_commit
    (p := { p with nextLogBlock := wrap (dword (p.nextLogBlock + 1)) }) h]

theorem readTransaction_prefix {fuel : ℕ} {p p' : Pass (List (ℕ × Block))}
    (h : readTransaction wrap (logAccess size wrap log) fuel p = some p') : p.env <+: p'.env := by
  induction fuel generalizing p with
  | zero => cases h
  | succ fuel ih =>
    rw [readTransaction] at h
    split at h
    · next p₁ hiter =>
      have hstep : p.env <+: p₁.env := by
        rcases passIteration_true hiter with
          ⟨-, rfl⟩ | ⟨-, rfl⟩ | ⟨-, rfl⟩
        · exact prefix_append _ _
        · exact prefix_refl _
        · exact prefix_refl _
      split at h
      · cases h
        exact hstep
      · exact hstep.trans (ih h)
    · cases h

end Iteration

/-! ## A pass that is out of step -/

section OutOfStep

variable {size maxLength first id c : ℕ} {log : ℕ → Block}

section

variable (hsize : sizeofHeader ≤ size)
include hsize

theorem headerAt_homeCopy (n : ℕ) : headerAt (homeCopy size log n) 0 = headerAt (log n) 0 :=
  headerAt_congr fun i hi => if_pos (by omega)

/-- If the blocks replayed from `pos` on are equal to earlier blocks, none of
which is a commit block, none of them is. -/
theorem no_commit_replayed {header : JournalHeader} {base pos t : ℕ} (hbase : base ≤ pos)
    (hbefore : ∀ q, base ≤ q → q ≤ pos → headerAt (log q) 0 ≠ header)
    (hsame : ∀ i < t, pos + 1 + i ≤ c →
      homeCopy size log (pos + 1 + i) = homeCopy size log (base + i)) :
    ∀ q, base ≤ q → q < pos + 1 + t → q ≤ c → headerAt (log q) 0 ≠ header := by
  intro q
  induction q using Nat.strong_induction_on with
  | _ q ih =>
    intro hq hlt hc
    by_cases hpos : q ≤ pos
    · exact hbefore q hq hpos
    · obtain ⟨i, rfl⟩ : ∃ i, q = pos + 1 + i := ⟨q - pos - 1, by omega⟩
      have hcopy := hsame i (by omega) hc
      have hheader := congrArg (fun d => headerAt d 0) hcopy
      simp only [headerAt_homeCopy hsize] at hheader
      rw [hheader]
      exact ih (base + i) (by omega) (by omega) (by omega) (by omega)

/-- A pass at `pos` which still has to replay the blocks `base` to `c - 1`,
where `c` is the commit block, cannot end at a commit block with them. -/
theorem readTransaction_out_of_step (hmax : maxLength < 2 ^ 32) (hc : c + 1 < maxLength)
    (hcommit : headerAt (log c) 0 = ⟨jfsMagic, jfsCommitBlock, id⟩) (fuel : ℕ) {base pos : ℕ}
    {acc ps : List (ℕ × Block)} {p' : Pass _}
    (h : readTransaction (journalWrap maxLength first)
      (logAccess size (journalWrap maxLength first) log) fuel ⟨pos, id, acc⟩ = some p')
    (henv : p'.env = acc ++ ps)
    (hps : ∀ i < ps.length, (ps[i]?).map snd = some (homeCopy size log (base + i)))
    (hbase : base ≤ pos) (hpos : pos ≤ c) (hlt : base < c) (hlen : base + ps.length = c)
    (hbefore : ∀ q, base ≤ q → q < pos →
      headerAt (log q) 0 ≠ ⟨jfsMagic, jfsCommitBlock, id⟩) : False := by
  induction fuel generalizing base pos acc ps with
  | zero => cases h
  | succ fuel ih =>
    rw [readTransaction] at h
    split at h
    case h_2 => cases h
    case h_1 p₁ hiter =>
      -- A block that is not a commit block is not the one at `c`.
      have hnext : (headerAt (log pos) 0).blockType ≠ jfsCommitBlock → pos + 1 ≤ c := by
        intro htype
        rcases lt_or_ge pos c with hlt | hge
        · exact hlt
        · have hpc : pos = c := by omega
          rw [hpc, hcommit] at htype
          exact absurd rfl htype
      have hbefore' : (headerAt (log pos) 0).blockType ≠ jfsCommitBlock → ∀ q, base ≤ q → q ≤ pos →
            headerAt (log q) 0 ≠ ⟨jfsMagic, jfsCommitBlock, id⟩ := by
        intro htype q hq hle
        rcases lt_or_eq_of_le hle with hq' | rfl
        · exact hbefore q hq hq'
        · intro heq
          rw [heq] at htype
          exact htype rfl
      rcases passIteration_true hiter with
        ⟨htype, rfl⟩ | ⟨-, rfl⟩ | ⟨htype, rfl⟩
      · -- a descriptor block, or what looks like one
        have hne : (headerAt (log pos) 0).blockType ≠ jfsCommitBlock := by
          rw [htype]
          decide
        simp only [ne_eq, not_true_eq_false, if_false] at h
        rw [journalWrap_succ hmax (by omega)] at h
        have hpre := readTransaction_prefix h
        rw [henv] at hpre
        obtain ⟨ps', hps'⟩ := (prefix_append_right_inj acc).mp hpre
        have hlenBs := length_replayPairs size (journalWrap maxLength first)
          log (tags (log pos) size) (pos + 1)
        have hlenPs := congrArg length hps'
        rw [length_append] at hlenPs
        have hreplayed : ∀ q, base ≤ q → q < pos + 1 + (tags (log pos) size).length → q ≤ c →
            headerAt (log q) 0 ≠ ⟨jfsMagic, jfsCommitBlock, id⟩ := by
          apply no_commit_replayed hsize hbase (hbefore' hne)
          intro i hi hic
          have hread : ((replayPairs size (journalWrap maxLength first) log
              (tags (log pos) size) (pos + 1))[i]?).map snd =
              some (homeCopy size log (pos + 1 + i)) :=
            replayPairs_getElem? hmax _ _ i hi (by omega)
          have hgoal := hps i (by omega)
          rw [← hps', getElem?_append_left (by omega), hread] at hgoal
          exact some.inj hgoal
        have hend : pos + 1 + (tags (log pos) size).length ≤ c := by
          by_contra hgt
          exact hreplayed c (by omega) (by omega) le_rfl hcommit
        rw [replayEnd_eq hmax _ _ (by omega)] at h
        apply @ih (base + (tags (log pos) size).length) _ _ ps' h
        · rw [henv, ← hps', append_assoc]
        · intro i hi
          have hgoal := hps ((tags (log pos) size).length + i) (by omega)
          rw [← hps', getElem?_append_right (by omega), hlenBs, Nat.add_sub_cancel_left] at hgoal
          rw [hgoal, add_assoc]
        · omega
        · exact hend
        · omega
        · omega
        · intro q hq hlt'
          exact hreplayed q (by omega) hlt' (by omega)
      · -- a commit block: nothing is left to replay
        rw [if_pos (dword_succ_ne _)] at h
        cases h
        have hnil : ps = [] := self_eq_append_right.mp henv
        rw [hnil, length_nil] at hlen
        omega
      · -- a block of unknown type, which is skipped
        have hposc := hnext htype
        simp only [ne_eq, not_true_eq_false, if_false] at h
        rw [journalWrap_succ hmax (by omega)] at h
        exact ih h henv hps (by omega) hposc hlt hlen fun q hq hq' =>
          hbefore' htype q hq (by omega)

end

end OutOfStep

/-! ## Commit and recovery -/

variable {first maxLength i : ℕ} {m : Metadata}

section Transactions

variable {j : CommitParams} {l : List Metadata} {head : ℕ} {log : ℕ → Block}

theorem Logged.nextTag (h : Logged j l head log) (hi : i < l.length) :
    nextTag (log head) (tagOffset i) = tagOffset (i + 1) := by
  have hsame := h.same i hi
  rw [Jfs.nextTag]
  by_cases hzero : i = 0
  · rw [if_pos (hsame.mpr hzero), hzero]
    rfl
  · rw [if_neg (mt hsame.mp hzero)]
    simp only [tagOffset, if_neg hzero, succ_ne_zero, if_false, sizeofTag]
    omega

theorem Logged.length_tagsFrom (h : Logged j l head log) (size fuel i : ℕ) (hi : i + 2 ≤ l.length) :
    (tagsFrom (log head) size fuel (tagOffset i)).length + i < l.length := by
  induction fuel generalizing i with
  | zero =>
    rw [tagsFrom, length_nil]
    omega
  | succ fuel ih =>
    by_cases hroom : tagOffset i + sizeofTag ≤ size
    · rw [tagsFrom_succ hroom, length_cons]
      split
      · rw [length_nil]
        omega
      · next hlast =>
        have hmore : ¬ l.length ≤ i + 2 := fun hle =>
          hlast (h.last i (by omega) hle)
        rw [h.nextTag (by omega)]
        have := ih (i + 1) (by omega)
        omega
    · rw [tagsFrom, if_neg hroom, length_nil]
      omega

/-- The buffers of a transaction as recovery should find them. -/
def loggedPairs (j : CommitParams) (l : List Metadata) : List (ℕ × Block) :=
  l.map fun m => (m.blockNum, memcpy (fun _ => 0) m.data j.sectorSize)

theorem memcpy_memcpy (data : Block) (size : ℕ) :
    memcpy (fun _ => 0) (memcpy (fun _ => 0) data size) size = memcpy (fun _ => 0) data size := by
  funext q
  simp only [memcpy]
  split <;> rfl

theorem Logged.homeCopy (h : Logged j l head log) (hi : l[i]? = some m) :
    homeCopy j.sectorSize log (head + 1 + i) = memcpy (fun _ => 0) m.data j.sectorSize := by
  rw [Jfs.homeCopy, h.copies i m hi, memcpy_memcpy]

def ReadsPairs (j : CommitParams) (maxLength first head : ℕ)
    (log : ℕ → Block) (l : List Metadata) : Prop :=
  ∃ fuel next, readTransaction (journalWrap maxLength first)
    (logAccess j.sectorSize (journalWrap maxLength first) log) fuel
    ⟨head, j.transId, []⟩ = some ⟨next, dword (j.transId + 1), loggedPairs j l⟩

theorem Logged.not_readsPairs (h : Logged j l head log) (htwo : 2 ≤ l.length)
    (hmax : maxLength < 2 ^ 32) (hspace : head + l.length + 2 < maxLength) :
    ¬ ReadsPairs j maxLength first head log l := by
  rintro ⟨fuel, next, hread⟩
  have hsize := j.sectorSize_ge
  cases fuel with
  | zero => cases hread
  | succ fuel =>
    rw [readTransaction, passIteration_descriptor
      (p := ⟨head, j.transId, []⟩) h.descriptor] at hread
    simp only [ne_eq, not_true_eq_false, if_false, nil_append] at hread
    rw [journalWrap_succ hmax (by omega)] at hread
    have hfew : (tags (log head) j.sectorSize).length < l.length :=
      h.length_tagsFrom j.sectorSize j.sectorSize 0 (by omega)
    have hpre := readTransaction_prefix hread
    obtain ⟨ps, hps⟩ := hpre
    dsimp only at hps
    rw [replayEnd_eq hmax _ _ (by omega)] at hread
    have hlen := congrArg length hps
    rw [length_append, length_replayPairs, loggedPairs, length_map] at hlen
    have hstep := @readTransaction_out_of_step j.sectorSize maxLength first
      j.transId (head + 1 + l.length) log (by rw [sizeofHeader]; omega) hmax
      (by omega) h.commit fuel
      (head + 1 + (tags (log head) j.sectorSize).length)
    apply hstep hread hps.symm
    · intro i hi
      have hget : ps[i]? = (loggedPairs j l)[(tags (log head) j.sectorSize).length + i]? := by
        rw [← hps, getElem?_append_right (by rw [length_replayPairs]; omega), length_replayPairs,
          Nat.add_sub_cancel_left]
      have hlt : (tags (log head) j.sectorSize).length + i < l.length := by omega
      rw [hget, loggedPairs, getElem?_map, getElem?_eq_getElem hlt, map_some, map_some,
        add_assoc, h.homeCopy (getElem?_eq_getElem hlt)]
    · exact le_rfl
    · omega
    · omega
    · omega
    · intro q hq hlt
      omega

theorem Logged.readsPairs_single (h : Logged j [m] head log) (hmax : maxLength < 2 ^ 32)
    (hspace : head + 3 < maxLength) : ReadsPairs j maxLength first head log [m] := by
  have hsize := j.sectorSize_ge
  have htags : tags (log head) j.sectorSize = [m.blockNum] := by
    obtain ⟨fuel, hfuel⟩ : ∃ fuel, j.sectorSize = fuel + 1 :=
      ⟨j.sectorSize - 1, by omega⟩
    have hroom : tagOffset 0 + sizeofTag ≤ fuel + 1 := by
      simp only [tagOffset, sizeofTag, sizeofHeader, if_true]
      omega
    rw [tags, hfuel, ← show tagOffset 0 = sizeofHeader from rfl, tagsFrom_succ hroom,
      if_pos (h.last 0 one_pos (by simp)), h.blockNum 0 m rfl]
  refine ⟨2, head + 3, ?_⟩
  rw [readTransaction, passIteration_descriptor (p := ⟨head, j.transId, []⟩) h.descriptor, htags]
  simp only [ne_eq, not_true_eq_false, if_false, nil_append]
  rw [journalWrap_succ hmax (by omega), replayEnd_eq hmax _ _ (by
    rw [length_singleton]; omega), length_singleton]
  rw [readTransaction, passIteration_commit (p := ⟨head + 1 + 1, j.transId, _⟩) h.commit]
  simp only [ne_eq, dword_succ_ne, not_false_eq_true, if_true]
  rw [journalWrap_succ hmax (by omega), replayPairs, h.homeCopy (i := 0) rfl]
  rfl

/-- Recovery reads the buffers of a commit back, and the commit stores within
the descriptor block and within `buffers[64]`. -/
def ReadsBack (j : CommitParams) (maxLength first head : ℕ)
    (log : ℕ → Block) (l : List Metadata) : Prop :=
  let c := journalCommit j head log l
  ReadsPairs j maxLength first head c.log l ∧
    (∀ st ∈ c.stores, st.1 + st.2 ≤ j.sectorSize) ∧ c.buffers.length ≤ 64

theorem not_readsBack_of_two_le (hblocks : ∀ m ∈ l, m.blockNum < 2 ^ 32) (htwo : 2 ≤ l.length)
    (hmax : maxLength < 2 ^ 32) (hspace : head + l.length + 2 < maxLength) :
    ¬ ReadsBack j maxLength first head log l := by
  rintro ⟨hpairs, -⟩
  have hne : l ≠ [] := ne_nil_of_length_pos (by omega)
  have hlogged := (journalCommit_logged j head log hne hblocks).1
  exact hlogged.not_readsPairs htwo hmax hspace hpairs

/-- A transaction is read back exactly if it has a single buffer. -/
theorem journalCommit_readsBack_iff {maxLength first : ℕ} (hne : l ≠ [])
    (hblocks : ∀ m ∈ l, m.blockNum < 2 ^ 32) (hmax : maxLength < 2 ^ 32)
    (hspace : head + l.length + 2 < maxLength) :
    ReadsBack j maxLength first head log l ↔ l.length = 1 := by
  have hpos : 0 < l.length := length_pos_iff.mpr hne
  constructor
  · intro hback
    by_contra hone
    exact not_readsBack_of_two_le hblocks (by omega) hmax hspace hback
  · intro hone
    obtain ⟨hlogged, hbuffers, hstores⟩ :=
      journalCommit_logged j head log hne hblocks
    obtain ⟨m, rfl⟩ := length_eq_one_iff.mp hone
    refine ⟨hlogged.readsPairs_single hmax hspace, ?_, ?_⟩
    · intro st hst
      have hsize := j.sectorSize_ge
      have hoffset : tagOffset [m].length = 36 := rfl
      have := hstores st hst
      omega
    · rw [hbuffers, length_singleton]
      decide

/-- A journal with blocks of 512 bytes whose next transaction is number 5. -/
def smallJournal : CommitParams where
  sectorSize := 512
  uuid := .replicate 16 0
  transId := 5
  sectorSize_ge := le_rfl
  transId_lt := by decide

theorem journalCommit_readsBack_one :
    ReadsBack smallJournal 1024 1 1 (fun _ _ => 0) [⟨7, fun _ => 1⟩] :=
  (journalCommit_readsBack_iff (cons_ne_nil _ _) (by simp) (by decide) (by decide)).mpr rfl

/-- The tag of the first of two buffers is marked as the last one. -/
theorem journalCommit_two_not_readsBack :
    ¬ ReadsBack smallJournal 1024 1 1 (fun _ _ => 0) [⟨7, fun _ => 1⟩, ⟨9, fun _ => 2⟩] :=
  not_readsBack_of_two_le (by simp) le_rfl (by decide) (by decide)

end Transactions

end Whitix.Jfs
