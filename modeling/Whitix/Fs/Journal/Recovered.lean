import Whitix.Fs.Journal.Replay

/-!
# What recovery recovers

The passes of recovery over a log of complete transactions with an unfinished
one behind them.  Recovery is right exactly if there is no unfinished
transaction and if for every block of the log the copy that the cache finds
afterwards equals the last one in the log.
-/

namespace Whitix.Jfs

open Support Bcache List Option Prod

/-! ## A pass over a log -/

variable {r : Recovery} {pos fuel b n k : ℕ} {ws : List (ℕ × Block)}

section Passes

variable {j : RecoverParams} {log : ℕ → Block} {access : Access Recovery}
  {P : List (ℕ × Block) → Recovery → Prop}

/-- A pass reads the log and moves over the data of descriptor blocks.  The
predicate says what it has done after the data of the blocks in the list. -/
structure Follows (j : RecoverParams) (log : ℕ → Block) (access : Access Recovery)
    (P : List (ℕ × Block) → Recovery → Prop) : Prop where
  read : ∀ ws r n, P ws r → n < j.maxLength → ∃ r', access.read r n = some (log n, r') ∧ P ws r'
  descriptor : ∀ ws r n bs, P ws r →
    TagsAt (log n) j.sectorSize sizeofHeader bs → (∀ b ∈ bs, Home j b) →
    n + 1 + bs.length < j.maxLength →
    ∃ r', access.descriptor r (log n) (n + 1) = some (r', n + 1 + bs.length) ∧
      P (ws ++ pairsFrom j.sectorSize log (n + 1) bs) r'

theorem passLoop_of_true {wrap : ℕ → ℕ} {p p' : Pass Recovery} (fuel : ℕ)
    (h : passIteration wrap access p = some (true, p')) :
    passLoop wrap access (fuel + 1) p = passLoop wrap access fuel p' := by rw [passLoop, h]

theorem Follows.passIteration (hf : Follows j log access P) (hmax : j.maxLength < 2 ^ 32)
    (h : P ws r) (hpos : pos + 1 < j.maxLength) (id : ℕ) :
    ∃ r', P ws r' ∧ passIteration (journalWrap j.maxLength j.head) access ⟨pos, id, r⟩ =
      passBlock access (log pos) ⟨pos + 1, id, r'⟩ := by
  obtain ⟨r', hread, h'⟩ := hf.read ws r pos h (by omega)
  refine ⟨r', h', ?_⟩
  rw [Jfs.passIteration, hread, bind_some, journalWrap_succ hmax hpos]

theorem le_groupsEnd (pos : ℕ) (groups : List (List ℕ)) : pos ≤ groupsEnd pos groups := by
  induction groups generalizing pos with
  | nil => exact le_rfl
  | cons bs groups ih =>
    exact le_trans (by omega) (ih _)

theorem le_transactionsEnd (pos : ℕ) (ts : List (List (List ℕ))) :
    pos ≤ transactionsEnd pos ts := by
  induction ts generalizing pos with
  | nil => exact le_rfl
  | cons groups ts ih =>
    have := le_groupsEnd pos groups
    exact le_trans (by omega) (ih _)

theorem Follows.groups (hf : Follows j log access P) (hmax : j.maxLength < 2 ^ 32) (id fuel : ℕ) :
    ∀ (groups : List (List ℕ)) (pos : ℕ) (ws : List (ℕ × Block))
      (r : Recovery), P ws r → GroupsAt j.sectorSize log id pos groups →
      (∀ b ∈ groups.flatten, Home j b) →
      groupsEnd pos groups < j.maxLength →
      ∃ r', P (ws ++ groupPairs j.sectorSize log pos groups) r' ∧
        passLoop (journalWrap j.maxLength j.head) access (fuel + groups.length) ⟨pos, id, r⟩ =
        passLoop (journalWrap j.maxLength j.head) access fuel ⟨groupsEnd pos groups, id, r'⟩ := by
  intro groups
  induction groups with
  | nil =>
    intro pos ws r h _ _ _
    refine ⟨r, ?_, rfl⟩
    rw [groupPairs, append_nil]
    exact h
  | cons bs groups ih =>
    rintro pos ws r h ⟨hheader, htags, hgroups⟩ hhome hend
    rw [groupsEnd] at hend ⊢
    rw [flatten_cons, forall_mem_append] at hhome
    have hle := le_groupsEnd (pos + 1 + bs.length) groups
    obtain ⟨r₁, h₁, hiter⟩ := hf.passIteration hmax h (show pos + 1 < j.maxLength by omega) id
    obtain ⟨r₂, hdesc, h₂⟩ := hf.descriptor ws r₁ pos bs h₁ htags hhome.1 (by omega)
    rw [passBlock_descriptor (p := ⟨pos + 1, id, r₁⟩) hheader, hdesc] at hiter
    obtain ⟨r₃, h₃, hloop⟩ := ih (pos + 1 + bs.length) _ r₂ h₂ hgroups hhome.2 hend
    refine ⟨r₃, ?_, ?_⟩
    · rw [groupPairs, ← append_assoc]
      exact h₃
    · rw [length_cons, ← add_assoc, passLoop_of_true _ hiter]
      exact hloop

def headerCount (ts : List (List (List ℕ))) : ℕ :=
  (ts.map fun groups => groups.length + 1).sum

theorem Follows.transactions (hf : Follows j log access P)
    (hmax : j.maxLength < 2 ^ 32) (fuel : ℕ) :
    ∀ (ts : List (List (List ℕ))) (id pos : ℕ) (ws : List (ℕ × Block))
      (r : Recovery), P ws r → TransactionsAt j.sectorSize log id pos ts →
      (∀ b ∈ ts.flatten.flatten, Home j b) →
      transactionsEnd pos ts < j.maxLength → id + ts.length < 2 ^ 32 →
      ∃ r', P (ws ++ transactionPairs j.sectorSize log pos ts) r' ∧
        passLoop (journalWrap j.maxLength j.head) access (fuel + headerCount ts) ⟨pos, id, r⟩ =
        passLoop (journalWrap j.maxLength j.head) access fuel
          ⟨transactionsEnd pos ts, id + ts.length, r'⟩ := by
  intro ts
  induction ts with
  | nil =>
    intro id pos ws r h _ _ _ _
    refine ⟨r, ?_, rfl⟩
    rw [transactionPairs, append_nil]
    exact h
  | cons groups ts ih =>
    rintro id pos ws r h ⟨hgroups, hheader, hts⟩ hhome hend hid
    rw [transactionsEnd] at hend ⊢
    rw [length_cons] at hid
    rw [flatten_cons, flatten_append, forall_mem_append] at hhome
    have hle := le_transactionsEnd (groupsEnd pos groups + 1) ts
    obtain ⟨r₁, h₁, hloop₁⟩ := hf.groups hmax id
      (fuel + headerCount ts + 1) groups pos ws r h hgroups hhome.1 (by omega)
    obtain ⟨r₂, h₂, hiter⟩ := hf.passIteration hmax h₁
      (show groupsEnd pos groups + 1 < j.maxLength by omega) id
    rw [passBlock_commit (p := ⟨groupsEnd pos groups + 1, id, r₂⟩) hheader,
      dword_of_lt (show id + 1 < 2 ^ 32 by omega)] at hiter
    obtain ⟨r₃, h₃, hloop₃⟩ := ih (id + 1) _ _ r₂ h₂ hts hhome.2 hend (by omega)
    refine ⟨r₃, ?_, ?_⟩
    · rw [transactionPairs, ← append_assoc]
      exact h₃
    · have hfuel : fuel + headerCount (groups :: ts) =
          fuel + headerCount ts + 1 + groups.length := by
        simp only [headerCount, map_cons, sum_cons]
        omega
      rw [hfuel, hloop₁, passLoop_of_true _ hiter, hloop₃, length_cons, add_assoc, add_comm 1]

end Passes

/-! ## The log of a journal -/

def logEnd (start : ℕ) (ts : List (List (List ℕ))) (tail : List (List ℕ)) : ℕ :=
  groupsEnd (transactionsEnd start ts) tail

/-- The log from block `start` on: complete transactions `ts`, an unfinished
one with the descriptor blocks of `tail`, and a block that is not a header of
it.  The log does not reach the end of the journal, and the blocks it has tags
for are not those of the journal. -/
structure LogHolds (j : RecoverParams) (log : ℕ → Block) (sequence start : ℕ)
    (ts : List (List (List ℕ))) (tail : List (List ℕ)) : Prop where
  start_ne : start ≠ 0
  transactions : TransactionsAt j.sectorSize log sequence start ts
  unfinished : GroupsAt j.sectorSize log (sequence + ts.length) (transactionsEnd start ts) tail
  ends : (headerAt (log (logEnd start ts tail)) 0).magic ≠ jfsMagic ∨
    (headerAt (log (logEnd start ts tail)) 0).sequence ≠ sequence + ts.length
  space : logEnd start ts tail + 1 < j.maxLength
  maxLength_lt : j.maxLength < 2 ^ 32
  sequence_lt : sequence + ts.length < 2 ^ 32
  home : ∀ b ∈ (ts.flatten ++ tail).flatten, Home j b

section Log

variable {j : RecoverParams} {log : ℕ → Block} {sequence start : ℕ}
  {ts : List (List (List ℕ))} {tail : List (List ℕ)}

theorem Follows.wholeLog {access : Access Recovery} {P : List (ℕ × Block) → Recovery → Prop}
    (hf : Follows j log access P) (hlog : LogHolds j log sequence start ts tail)
    (hfuel : headerCount ts + tail.length < fuel) (ws : List (ℕ × Block)) (h : P ws r) :
    ∃ p, journalDoOnePass j access fuel sequence start r = some p ∧
      p.nextCommitId = sequence + ts.length ∧
      P (ws ++ transactionPairs j.sectorSize log start ts ++
        groupPairs j.sectorSize log (transactionsEnd start ts) tail) p.env := by
  obtain ⟨rest, rfl⟩ : ∃ rest, fuel = rest + 1 + tail.length + headerCount ts :=
    ⟨fuel - (headerCount ts + tail.length) - 1, by omega⟩
  have hspace := hlog.space
  rw [logEnd] at hspace
  have hle := le_groupsEnd (transactionsEnd start ts) tail
  have hhome := hlog.home
  rw [flatten_append, forall_mem_append] at hhome
  obtain ⟨r₁, h₁, hloop₁⟩ := hf.transactions hlog.maxLength_lt
    (rest + 1 + tail.length) ts sequence start ws r h hlog.transactions hhome.1
    (by omega) hlog.sequence_lt
  obtain ⟨r₂, h₂, hloop₂⟩ := hf.groups hlog.maxLength_lt _ (rest + 1) tail _ _ r₁ h₁ hlog.unfinished
    hhome.2 (by omega)
  obtain ⟨r₃, h₃, hiter⟩ := hf.passIteration hlog.maxLength_lt h₂ hspace (sequence + ts.length)
  have hends := hlog.ends
  rw [logEnd] at hends
  rw [passBlock_stop (p := ⟨_, sequence + ts.length, r₃⟩) hends] at hiter
  refine ⟨⟨groupsEnd (transactionsEnd start ts) tail + 1, sequence + ts.length, r₃⟩, ?_, rfl, h₃⟩
  rw [journalDoOnePass, hloop₁, hloop₂, passLoop, hiter]

variable {dev : StorageDevice}

theorem scanPass_follows (hdev : Usable dev) (hmax : j.maxLength < 2 ^ 32) :
    Follows j (logOf j dev) (scanPass j) fun _ r => Replayed j dev r ∧ r.written = [] where
  read := by
    rintro ws r n ⟨h, hwritten⟩ hn
    obtain ⟨r', hread, h', hwritten'⟩ := h.journalBlockRead hdev hn
    exact ⟨r', hread, h', hwritten'.trans hwritten⟩
  descriptor ws r n bs h htags _ hn := by
    refine ⟨r, ?_, h⟩
    change some (r, dword (n + 1 + journalCountTags _ _)) = _
    rw [journalCountTags_eq, htags.tags, dword_of_lt (by omega)]

theorem replayPass_follows (hdev : Usable dev) (hmax : j.maxLength < 2 ^ 32) :
    Follows j (logOf j dev) (replayPass j) fun ws r => Replayed j dev r ∧ r.written = ws where
  read := by
    rintro ws r n ⟨h, hwritten⟩ hn
    obtain ⟨r', hread, h', hwritten'⟩ := h.journalBlockRead hdev hn
    exact ⟨r', hread, h', hwritten'.trans hwritten⟩
  descriptor := by
    rintro ws r n bs ⟨h, hwritten⟩ htags hhome hn
    obtain ⟨r', hreplay, h', hwritten'⟩ :=
      h.journalReplayBlocks hdev hmax htags hhome hn
    refine ⟨r', hreplay, h', ?_⟩
    rw [hwritten', hwritten]

/-- What recovery does to the device: it replays the blocks of all
transactions, finished or not. -/
theorem journalRecover_replays (hdev : Usable dev)
    (hlog : LogHolds j (logOf j dev) sequence start ts tail)
    (hfuel : headerCount ts + tail.length < fuel) :
    ∃ r, journalRecover j fuel sequence start ⟨dev, []⟩ =
        some (sequence + ts.length, r) ∧ Replayed j dev r ∧
      r.written = transactionPairs j.sectorSize (logOf j dev) start ts ++
        groupPairs j.sectorSize (logOf j dev) (transactionsEnd start ts)
          tail := by
  obtain ⟨scan, hscan, -, hempty⟩ :=
    (scanPass_follows hdev hlog.maxLength_lt).wholeLog hlog hfuel [] ⟨Replayed.refl hdev, rfl⟩
  obtain ⟨replay, hreplay, hid, hreplayed, hwritten⟩ :=
    (replayPass_follows hdev hlog.maxLength_lt).wholeLog hlog hfuel [] hempty
  refine ⟨replay.env, ?_, hreplayed, ?_⟩
  · rw [journalRecover, if_neg hlog.start_ne, hscan, bind_eq_bind,
      bind_some, hreplay, bind_some, hid]
  · rw [hwritten, nil_append]

end Log

/-! ## Recovery -/

def SameBlock (size : ℕ) (data data' : Block) : Prop :=
  ∀ k < size, data k = data' k

/-- Recovery of the transactions `ts` has done what it is for.  Reading a block
gives its last committed copy or what it was before, only committed blocks
have been written, and the next sequence number is a new one. -/
structure Recovers (j : RecoverParams) (dev : StorageDevice) (sequence start : ℕ)
    (ts : List (List (List ℕ))) (result : ℕ × Recovery) : Prop where
  content : ∀ b, SameBlock j.sectorSize (blockData result.2.dev b)
    ((lastCopy (transactionPairs j.sectorSize (logOf j dev) start ts) b).getD (blockData dev b))
  written : result.2.written = transactionPairs j.sectorSize (logOf j dev) start ts
  sequence : ∀ i < ts.length, sequence + i < result.1

/-- The copy of a committed block that the cache will find, which is the one
it has already or the first one in the log, is the last one in the log. -/
def FindsLast (j : RecoverParams) (dev : StorageDevice) (pairs : List (ℕ × Block)) : Prop :=
  ∀ b last, lastCopy pairs b = some last → match blockFindBuffer dev b with
    | some x => SameBlock j.sectorSize x.data last
    | none => ∀ first, firstCopy pairs b = some first →
        SameBlock j.sectorSize first last

section Recovery

variable {j : RecoverParams} {dev : StorageDevice} {sequence start : ℕ}
  {ts : List (List (List ℕ))} {tail : List (List ℕ)}

theorem lastCopy_eq_none : lastCopy ws b = none ↔ firstCopy ws b = none := by
  rw [lastCopy, firstCopy_eq_none, firstCopy_eq_none, map_reverse, mem_reverse]

theorem firstCopy_isSome_of_lastCopy {last : Block} (h : lastCopy ws b = some last) :
    ∃ first, firstCopy ws b = some first := by
  apply ne_none_iff_exists'.mp
  rw [ne_eq, ← lastCopy_eq_none, h]
  exact some_ne_none last

/-- Reading finds the last copies exactly under the condition on the cache. -/
theorem replayedData_last_iff (hdev : Usable dev) (pairs : List (ℕ × Block)) :
    (∀ b, SameBlock j.sectorSize (replayedData dev pairs b)
      ((lastCopy pairs b).getD (blockData dev b))) ↔
    FindsLast j dev pairs := by
  constructor
  · intro h b last hlast
    have hb := h b
    rw [hlast, replayedData] at hb
    cases hfind : blockFindBuffer dev b with
    | some x =>
      rw [hfind] at hb
      exact hb
    | none =>
      intro first hfirst
      rw [hfind] at hb
      simpa only [hfirst, getD_some] using hb
  · intro h b
    cases hlast : lastCopy pairs b with
    | none =>
      have hsame : replayedData dev pairs b = replayedData dev [] b := by
        rw [replayedData, lastCopy_eq_none.mp hlast]
        rfl
      rw [hsame, replayedData_nil hdev]
      exact fun k _ => rfl
    | some last =>
      have hb := h b last hlast
      rw [replayedData]
      cases hfind : blockFindBuffer dev b with
      | some x =>
        rw [hfind] at hb
        exact hb
      | none =>
        obtain ⟨first, hfirst⟩ := firstCopy_isSome_of_lastCopy hlast
        rw [hfind] at hb
        simpa only [hfirst, getD_some] using hb first hfirst

theorem groupPairs_eq_nil {log : ℕ → Block} {size id : ℕ} (h : GroupsAt size log id pos tail)
    (hnil : groupPairs size log pos tail = []) : tail = [] := by
  cases tail with
  | nil => rfl
  | cons bs groups =>
    obtain ⟨-, htags, -⟩ := h
    cases htags with
    | last _ _ | cons _ _ _ => cases hnil

theorem not_recovers_of_tail (hlog : LogHolds j (logOf j dev) sequence start ts tail)
    (hwritten : r.written = transactionPairs j.sectorSize (logOf j dev) start ts ++
      groupPairs j.sectorSize (logOf j dev) (transactionsEnd start ts) tail)
    (htail : tail ≠ []) (next : ℕ) :
    ¬ Recovers j dev sequence start ts (next, r) := by
  intro hrecovers
  apply htail
  apply groupPairs_eq_nil hlog.unfinished
  have := hrecovers.written
  rw [hwritten] at this
  exact self_eq_append_right.mp this.symm

/-- Recovery returns, and it is right exactly if no unfinished transaction
follows the committed ones and the cache finds the last copies. -/
theorem journalRecover_recovers_iff (hdev : Usable dev)
    (hlog : LogHolds j (logOf j dev) sequence start ts tail)
    {fuel : ℕ} (hfuel : headerCount ts + tail.length < fuel) :
    ∃ result, journalRecover j fuel sequence start ⟨dev, []⟩ = some result ∧
      (Recovers j dev sequence start ts result ↔ tail = [] ∧ FindsLast j dev
        (transactionPairs j.sectorSize (logOf j dev) start ts)) := by
  obtain ⟨r, hrecover, hreplayed, hwritten⟩ :=
    journalRecover_replays hdev hlog hfuel
  refine ⟨_, hrecover, ?_⟩
  constructor
  · intro hrecovers
    have htail : tail = [] := by
      by_contra htail
      exact not_recovers_of_tail hlog hwritten htail _ hrecovers
    refine ⟨htail, (replayedData_last_iff hdev _).mp ?_⟩
    intro b
    have := hrecovers.content b
    rw [hreplayed.data, hrecovers.written] at this
    exact this
  · rintro ⟨rfl, hfinds⟩
    rw [groupPairs, append_nil] at hwritten
    refine ⟨?_, hwritten, fun i hi => by simp only; omega⟩
    intro b
    rw [hreplayed.data, hwritten]
    exact (replayedData_last_iff hdev _).mpr hfinds b

end Recovery

/-! ## Recovery after a crash during recovery -/

section Restart

variable {j : RecoverParams} {log log' : ℕ → Block} {dev dev' : StorageDevice}
  {size sequence start : ℕ} {ts : List (List (List ℕ))} {tail : List (List ℕ)}

theorem pairsFrom_congr {m n : ℕ} {bs : List ℕ} (h : ∀ i < m, log i = log' i)
    (hn : n + bs.length ≤ m) : pairsFrom size log n bs = pairsFrom size log' n bs := by
  induction bs generalizing n with
  | nil => rfl
  | cons b bs ih =>
    rw [length_cons] at hn
    rw [pairsFrom, pairsFrom, homeCopy, homeCopy, h n (by omega), ih (by omega)]

theorem Follows.congr {access : Access Recovery} {P : List (ℕ × Block) → Recovery → Prop}
    (hf : Follows j log access P) (h : ∀ n < j.maxLength, log n = log' n) :
    Follows j log' access P where
  read ws r n hP hn := by
    rw [← h n hn]
    exact hf.read ws r n hP hn
  descriptor ws r n bs hP htags hhome hn := by
    rw [← h n (by omega)] at htags ⊢
    rw [← pairsFrom_congr h (by omega)]
    exact hf.descriptor ws r n bs hP htags hhome hn

theorem map_fst_groupPairs (pos : ℕ) (groups : List (List ℕ)) :
    (groupPairs size log pos groups).map fst = groups.flatten := by
  have hpairs : ∀ (bs : List ℕ) pos, (pairsFrom size log pos bs).map fst = bs := by
    intro bs
    induction bs with
    | nil => exact fun _ => rfl
    | cons b bs ih => exact fun pos => congrArg (b :: ·) (ih (pos + 1))
  induction groups generalizing pos with
  | nil => rfl
  | cons bs groups ih => rw [groupPairs, map_append, hpairs, ih, flatten_cons]

theorem map_fst_transactionPairs (pos : ℕ) (ts : List (List (List ℕ))) :
    (transactionPairs size log pos ts).map fst = ts.flatten.flatten := by
  induction ts generalizing pos with
  | nil => rfl
  | cons groups ts ih =>
    rw [transactionPairs, map_append, map_fst_groupPairs, ih, flatten_cons, flatten_append]

theorem journalRecover_of_log (hdev : Usable dev) (hlog : LogHolds j log sequence start ts tail)
    (hsame : ∀ n < j.maxLength, logOf j dev n = log n)
    (hfuel : headerCount ts + tail.length < fuel) :
    ∃ r, journalRecover j fuel sequence start ⟨dev, []⟩ = some (sequence + ts.length, r) ∧
      Replayed j dev r ∧ r.written = transactionPairs j.sectorSize log start ts ++
        groupPairs j.sectorSize log (transactionsEnd start ts) tail := by
  obtain ⟨scan, hscan, -, hempty⟩ :=
    ((scanPass_follows hdev hlog.maxLength_lt).congr hsame).wholeLog
    hlog hfuel [] ⟨Replayed.refl hdev, rfl⟩
  obtain ⟨replay, hreplay, hid, hreplayed, hwritten⟩ :=
    ((replayPass_follows hdev hlog.maxLength_lt).congr hsame).wholeLog hlog hfuel [] hempty
  refine ⟨replay.env, ?_, hreplayed, hwritten⟩
  rw [journalRecover, if_neg hlog.start_ne, hscan, bind_eq_bind, bind_some, hreplay, bind_some, hid]

/-- Recovery that is stopped and started again restores the same blocks.  When
it starts again, the blocks of the log may hold anything: what they held before,
what was replayed, or a part of it.  The other blocks are left alone. -/
theorem recovery_restarts (hdev : Usable dev) (hdev' : Usable dev')
    (hlog : LogHolds j (logOf j dev) sequence start ts tail)
    (hsame : ∀ n < j.maxLength, logOf j dev' n = logOf j dev n)
    (hcold : ∀ b ∈ (ts.flatten ++ tail).flatten,
      blockFindBuffer dev b = none ∧ blockFindBuffer dev' b = none)
    (hfuel : headerCount ts + tail.length < fuel) :
    ∃ next r r', journalRecover j fuel sequence start ⟨dev, []⟩ = some (next, r) ∧
      journalRecover j fuel sequence start ⟨dev', []⟩ = some (next, r') ∧
      ∀ b, blockData r'.dev b = if b ∈ (ts.flatten ++ tail).flatten then blockData r.dev b
        else blockData dev' b := by
  obtain ⟨r, hr, hreplayed, hwritten⟩ := journalRecover_of_log hdev hlog (fun _ _ => rfl) hfuel
  obtain ⟨r', hr', hreplayed', hwritten'⟩ := journalRecover_of_log hdev' hlog hsame hfuel
  refine ⟨_, r, r', hr, hr', fun b => ?_⟩
  have hblocks : r.written.map fst = (ts.flatten ++ tail).flatten := by
    rw [hwritten, map_append, map_fst_transactionPairs, map_fst_groupPairs, flatten_append]
  rw [hreplayed'.data, hreplayed.data, hwritten'.trans hwritten.symm]
  split_ifs with hb
  · obtain ⟨hfind, hfind'⟩ := hcold b hb
    have hcopy : firstCopy r.written b ≠ none := by
      rw [ne_eq, firstCopy_eq_none, hblocks, not_not]
      exact hb
    obtain ⟨copy, hcopy⟩ := ne_none_iff_exists'.mp hcopy
    rw [replayedData, replayedData, hfind, hfind', hcopy]
    rfl
  · rw [← replayedData_nil hdev', replayedData, firstCopy_eq_none.mpr (hblocks ▸ hb)]
    rfl

end Restart

/-! ## A small journal -/

def sampleJournal : RecoverParams where
  sectorSize := 512
  maxLength := 1024
  head := 1
  blockMap := fun n => n + 100

/-- A device with nothing in its cache and the given blocks in its journal. -/
def sampleDevice (log : ℕ → Block) : StorageDevice where
  blockSize := 512
  softBlockSize := 512
  numDirty := 0
  syncing := false
  hashLists := fun _ => []
  disk := fun sector offset => log (sector - 100) offset

theorem sampleDevice_usable (log : ℕ → Block) : Usable (sampleDevice log) :=
  ⟨show 512 ≠ 0 by decide, show 512 ≤ memAllocMax by decide⟩

/-- A descriptor block of transaction 5 with a single tag, for block 7. -/
def sampleDescriptor : Block :=
  setBeDwordAt (setBeDwordAt (setHeaderAt (fun _ => 0) 0
    ⟨jfsMagic, jfsDescBlock, 5⟩) 12 7) 16 journFlagLastTag

theorem tagsAt_sample {data : Block} (hnum : beDwordAt data 12 = 7)
    (hflags : tagFlags data 12 = journFlagLastTag) : TagsAt data 512 sizeofHeader [7] := by
  have hlast : TagsAt data 512 12 [beDwordAt data 12] :=
    TagsAt.last (by decide) (by rw [hflags]; decide)
  rwa [hnum] at hlast

theorem home_sample : Home sampleJournal 7 := fun i _ => show i + 100 ≠ 7 by omega

def unfinishedLog (n : ℕ) : Block :=
  if n = 1 then sampleDescriptor else fun _ => 0

def finishedLog (n : ℕ) : Block :=
  if n = 1 then sampleDescriptor
  else if n = 3 then
    setHeaderAt (fun _ => 0) 0 ⟨jfsMagic, jfsCommitBlock, 5⟩
  else fun _ => 0

theorem unfinishedLog_holds :
    LogHolds sampleJournal (logOf sampleJournal (sampleDevice unfinishedLog)) 5 1 [] [[7]] where
  start_ne := by decide
  transactions := trivial
  unfinished :=
    ⟨by decide +kernel, tagsAt_sample (by decide +kernel) (by decide +kernel), trivial⟩
  ends := .inl (by decide)
  space := by decide
  maxLength_lt := by decide
  sequence_lt := by decide
  home := forall_mem_singleton.mpr home_sample

theorem finishedLog_holds :
    LogHolds sampleJournal (logOf sampleJournal (sampleDevice finishedLog)) 5 1 [[[7]]] [] where
  start_ne := by decide
  transactions :=
    ⟨⟨by decide +kernel, tagsAt_sample (by decide +kernel) (by decide +kernel), trivial⟩,
      by decide +kernel, trivial⟩
  unfinished := trivial
  ends := .inl (by decide)
  space := by decide
  maxLength_lt := by decide
  sequence_lt := by decide
  home := forall_mem_singleton.mpr home_sample

/-- A finished transaction is recovered. -/
theorem journalRecover_recovers_finished :
    ∃ result, journalRecover sampleJournal 3 5 1 ⟨sampleDevice finishedLog, []⟩ = some result ∧
      Recovers sampleJournal (sampleDevice finishedLog) 5 1 [[[7]]]
        result := by
  obtain ⟨result, hresult, hiff⟩ := journalRecover_recovers_iff
    (sampleDevice_usable finishedLog) finishedLog_holds
    (show headerCount [[[7]]] + ([] : List (List ℕ)).length < 3 by decide)
  refine ⟨result, hresult, hiff.mpr ⟨rfl, ?_⟩⟩
  -- The only block of the log has one copy.
  intro b last hlast first hfirst
  have heq : some last = some first := Eq.trans (Eq.symm hlast) hfirst
  rw [some.inj heq]
  exact fun k _ => rfl

/-- The block of an unfinished transaction is written to its home location. -/
theorem journalRecover_replays_unfinished :
    LogHolds sampleJournal (logOf sampleJournal (sampleDevice unfinishedLog)) 5 1 [] [[7]] ∧
      ∃ result, journalRecover sampleJournal 3 5 1 ⟨sampleDevice unfinishedLog, []⟩ = some result ∧
        result.2.written ≠ [] ∧
        ¬ Recovers sampleJournal (sampleDevice unfinishedLog) 5 1 []
          result := by
  refine ⟨unfinishedLog_holds, ?_⟩
  obtain ⟨r, hrecover, -, hwritten⟩ := journalRecover_replays
    (sampleDevice_usable unfinishedLog) unfinishedLog_holds
    (show headerCount [] + [[7]].length < 3 by decide)
  refine ⟨_, hrecover, ?_, ?_⟩
  · rw [hwritten]
    exact cons_ne_nil _ _
  · exact not_recovers_of_tail unfinishedLog_holds hwritten (cons_ne_nil _ _) _

/-- The device with a finished transaction, block 7 of which was half replayed. -/
def tornDevice : StorageDevice :=
  { sampleDevice finishedLog with
    disk := fun sector offset => if sector = 7 ∧ 256 ≤ offset then 9
      else (sampleDevice finishedLog).disk sector offset }

theorem tornDevice_usable : Usable tornDevice := { sampleDevice_usable finishedLog with }

theorem recovery_restarts_torn :
    blockData tornDevice 7 300 = 9 ∧ ∃ next r r',
      journalRecover sampleJournal 3 5 1 ⟨sampleDevice finishedLog, []⟩ = some (next, r) ∧
      journalRecover sampleJournal 3 5 1 ⟨tornDevice, []⟩ = some (next, r') ∧
      blockData r'.dev 7 = blockData r.dev 7 := by
  refine ⟨rfl, ?_⟩
  have hsame : ∀ n < 1024, logOf sampleJournal tornDevice n =
      logOf sampleJournal (sampleDevice finishedLog) n := by
    intro n hn
    rw [logOf, logOf, blockData_of_not_cached tornDevice_usable rfl,
      blockData_of_not_cached (sampleDevice_usable _) rfl]
    funext k
    simp only [diskData, storageBuildRequest, tornDevice, sampleDevice, sampleJournal]
    rw [dword_of_lt (by omega)]
    simp only [OfNat.ofNat_ne_zero, if_false, map_some, getD_some, driverRead]
    split_ifs
    · omega
    · rfl
    · rfl
  obtain ⟨next, r, r', hr, hr', hdata⟩ := recovery_restarts (sampleDevice_usable finishedLog)
    tornDevice_usable finishedLog_holds hsame (fun b _ => ⟨rfl, rfl⟩)
    (show headerCount [[[7]]] + ([] : List (List ℕ)).length < 3 by decide)
  exact ⟨next, r, r', hr, hr', hdata 7⟩

end Whitix.Jfs
