import Whitix.Fs.Journal.Forced

/-!
# Durability of forced commits

In every undisturbed run, the transactions that a thread has waited for in
`JournalWaitCommit` are in the log.  Three invariants carry the argument.  The first
is about sequence numbers and handles: a handle belongs to the current
transaction, whose number is above `commitSequence`, so the first test of
`JournalWaitCommit` never lets a thread return at once.  The second is about woken
threads: what such a thread has waited for is settled, if it has been committed.  The
third follows each block of a committed transaction from the committer to the disk.
-/

namespace Whitix.Jfs.Forced

open Support Function List

variable {s s' : System} {first : ℕ}

/-! ## The blocks of a commit -/

variable {t id tid n : ℕ} {op : Op} {b : LogBlock}

section

variable {sectorSize : ℕ}

/-- The last submission has all the blocks but the commit block. -/
theorem write_mem_commitActions (hbound : n < 64)
    (hb : b ∈ logBlocks t n) : .write b ∈ commitActions sectorSize t n := by
  unfold commitActions
  rw [min_eq_left (by omega), if_pos hbound]
  rcases mem_append.mp hb with hb | hb
  · split at hb
    · cases hb
    · next hn =>
      apply mem_append_left
      have hlast : submits sectorSize n (n - 1) = true := by
        simp only [submits, decide_eq_true_eq]
        omega
      refine mem_flatMap.mpr ⟨n - 1, mem_range.mpr (by omega), ?_⟩
      rw [if_pos hlast]
      exact mem_map_of_mem hb
  · rw [mem_singleton.mp hb]
    simp

theorem transId_of_mem_submission {i : ℕ} (hb : b ∈ submission t i) : b.transId = t := by
  rcases mem_cons.mp hb with rfl | hb
  · rfl
  · obtain ⟨_, -, rfl⟩ := mem_map.mp hb
    rfl

theorem transId_of_write_mem (hb : .write b ∈ commitActions sectorSize t n) : b.transId = t := by
  rcases mem_append.mp hb with hb | hb
  · obtain ⟨i, -, hb⟩ := mem_flatMap.mp hb
    split at hb
    · obtain ⟨b', hb', heq⟩ := mem_map.mp hb
      cases heq
      exact transId_of_mem_submission hb'
    · cases hb
  · split at hb
    · simp only [mem_append, mem_map, mem_cons, not_mem_nil, or_false, reduceCtorEq, and_false,
        exists_false, false_or, Action.write.injEq] at hb
      rw [hb]
      rfl
    · simp at hb

end

theorem transId_of_mem_logBlocks {n : ℕ} (hb : b ∈ logBlocks t n) : b.transId = t := by
  rcases mem_append.mp hb with hb | hb
  · split at hb
    · cases hb
    · exact transId_of_mem_submission hb
  · rw [mem_singleton.mp hb]
    rfl

/-! ## Steps -/

/-- What one step comes to.  Outside of a commit the committer only changes its state,
the queue and the request. -/
inductive Stepped (s : System) : Op → System → Prop
  | start {tid : ℕ} : s.threads tid = .out →
      Stepped s (.start tid) (journalStart s tid)
  | dirtyMetadata {tid t : ℕ} : s.threads tid = .handle t →
      Stepped s (.dirtyMetadata tid) { s with size := update s.size t (s.size t + 1) }
  | stop {tid t : ℕ} {sync expired : Bool} : s.threads tid = .handle t →
      Stepped s (.stop tid sync expired) (journalStop s tid t sync expired)
  | run {tid id : ℕ} : s.threads tid = .woken id →
      Stepped s (.run tid) (journalWaitCommit s tid id)
  | idle {op : Op} {committer : CommitterState} {queue : List Waiter} {request : ℕ} :
      s.committing = none → (∀ t todo, committer ≠ .committing t todo) →
      (∀ t, committer = .waiting t → s.current = some t) →
      Stepped s op { s with
        committer := committer, commitWait := queue, commitRequest := request }
  | begin {expired : Bool} {t : ℕ} : s.committing = none →
      s.current = some t ∨ s.committer = .waiting t → s.updates = 0 → t ∈ s.commits →
      Stepped s (.committer expired) (commitBegin s t)
  | write {op : Op} {t : ℕ} {b : LogBlock} {todo : List Action} :
      s.committer = .committing t (.write b :: todo) →
      Stepped s op { blockWrite s b with committer := .committing t todo }
  | wait {op : Op} {t : ℕ} {b : LogBlock} {todo : List Action} :
      s.committer = .committing t (.wait b :: todo) →
      Stepped s op { s with committer := .committing t todo }
  | finish {op : Op} {t : ℕ} {queue : List Waiter} :
      s.committer = .committing t [] →
      Stepped s op { s with committer := .asleep, commitWait := queue }
  | flushBegin {b : LogBlock} : s.dirty b = true →
      Stepped s (.flushBegin b) { s with
        dirty := update s.dirty b false
        locked := update s.locked b true }
  | flushEnd {b : LogBlock} :
      Stepped s (.flushEnd b) { s with
        locked := update s.locked b false
        disk := if s.dirty b then s.disk else update s.disk b true }

theorem committing_eq_none (h : ∀ t todo, s.committer ≠ .committing t todo) :
    s.committing = none := by
  unfold System.committing
  split
  · next t todo heq => exact absurd heq (h t todo)
  · rfl

theorem committerStep_stepped {expired : Bool}
    (hs : committerStep s expired = some s') : Stepped s (.committer expired) s' := by
  unfold committerStep at hs
  split at hs
  · next hlooping =>
    have hcommitting : s.committing = none := committing_eq_none (by simp [hlooping])
    split at hs
    · cases hs
      exact .idle hcommitting nofun nofun
    · next hrequest =>
      split at hs
      · cases hs
      · next t ht =>
        split at hs
        · next hupdates =>
          cases hs
          refine .begin hcommitting (.inl ht) hupdates ?_
          simpa [System.commits, hlooping, hupdates, ht] using hrequest
        · cases hs
          exact .idle hcommitting nofun (fun _ heq => CommitterState.waiting.inj heq ▸ ht)
  · cases hs
  · next hwoken =>
    cases hs
    exact .idle (committing_eq_none (by simp [hwoken])) nofun nofun
  · next t hwaiting =>
    obtain ⟨hupdates, hs⟩ := Option.ite_none_right_eq_some.mp hs
    cases hs
    refine .begin (committing_eq_none (by simp [hwaiting])) (.inr hwaiting) hupdates ?_
    simp [System.commits, hwaiting, hupdates]
  · next hcommitter =>
    cases hs
    exact .write hcommitter
  · next hcommitter =>
    obtain ⟨-, hs⟩ := Option.ite_none_left_eq_some.mp hs
    cases hs
    exact .wait hcommitter
  · cases hs
  · next hcommitter =>
    cases hs
    exact .finish hcommitter

theorem step_stepped (hs : step s op = some s') : Stepped s op s' := by
  unfold step at hs
  split at hs
  · split at hs
    · next hout =>
      cases hs
      exact .start hout
    · cases hs
  · split at hs
    · next hhandle =>
      cases hs
      exact .dirtyMetadata hhandle
    · cases hs
  · split at hs
    · next hhandle =>
      cases hs
      exact .stop hhandle
    · cases hs
  · split at hs
    · next hwoken =>
      cases hs
      exact .run hwoken
    · cases hs
  · exact committerStep_stepped hs
  · split at hs
    · next hasleep =>
      cases hs
      exact .idle (by simp [System.committing, hasleep]) nofun nofun
    · cases hs
  · obtain ⟨hdirty, hs⟩ := Option.ite_none_right_eq_some.mp hs
    cases hs
    exact .flushBegin hdirty.1
  · obtain ⟨-, hs⟩ := Option.ite_none_right_eq_some.mp hs
    cases hs
    exact .flushEnd

/-! ## Sequence numbers and handles -/

/-- The current transaction follows the last one that was committed, and
`updates` counts the threads that have a handle on it. -/
structure Sequenced (s : System) : Prop where
  next : s.current = none → s.transSequence = dword (s.commitSequence + 1)
  running : ∀ t, s.current = some t → t = s.commitSequence + 1 ∧ s.transSequence = dword (t + 1)
  joined : ∀ tid t, s.threads tid = .handle t → s.current = some t
  counted : ∃ joined : Finset ℕ, (∀ tid, tid ∈ joined ↔ ∃ t, s.threads tid = .handle t) ∧
      joined.card = s.updates
  waiting : ∀ t, s.committer = .waiting t → s.current = some t

section

variable (h : Sequenced s)
include h

/-- Threads without a handle and a committer that waits for no updates may
change their states. -/
theorem Sequenced.frame (hsequence : s'.transSequence = s.transSequence)
    (hcommit : s'.commitSequence = s.commitSequence)
    (hcurrent : s'.current = s.current)
    (hupdates : s'.updates = s.updates)
    (hthreads : ∀ tid t, s'.threads tid = .handle t ↔ s.threads tid = .handle t)
    (hcommitter : ∀ t, s'.committer = .waiting t →
      s.committer = .waiting t ∨ s.current = some t) : Sequenced s' := by
  obtain ⟨joined, hmem, hcard⟩ := h.counted
  constructor
  · rw [hcurrent, hsequence, hcommit]
    exact h.next
  · rw [hcurrent, hsequence, hcommit]
    exact h.running
  · intro tid t htid
    rw [hcurrent]
    exact h.joined tid t ((hthreads tid t).mp htid)
  · refine ⟨joined, fun tid => ?_, hcard.trans hupdates.symm⟩
    rw [hmem tid]
    exact exists_congr fun t => (hthreads tid t).symm
  · intro t ht
    rw [hcurrent]
    exact (hcommitter t ht).elim (h.waiting t) id

theorem Sequenced.no_handle (hupdates : s.updates = 0) (tid t : ℕ) : s.threads tid ≠ .handle t := by
  obtain ⟨joined, hmem, hcard⟩ := h.counted
  rw [hupdates, Finset.card_eq_zero] at hcard
  intro htid
  have := (hmem tid).mpr ⟨t, htid⟩
  rw [hcard] at this
  exact absurd this (Finset.notMem_empty tid)

theorem Sequenced.commitBegin (hcurrent : s.current = some t) (hupdates : s.updates = 0) :
    Sequenced (commitBegin s t) := by
  obtain ⟨joined, hmem, hcard⟩ := h.counted
  constructor
  · intro _
    exact (h.running t hcurrent).2
  · intro t' ht'
    cases ht'
  · intro tid t' htid
    exact absurd htid (h.no_handle hupdates tid t')
  · exact ⟨joined, hmem, hcard⟩
  · intro t' ht'
    cases ht'

theorem Sequenced.setThread_joined (hout : s.threads tid = .out) :
    ∃ joined : Finset ℕ, (∀ tid', tid' ∈ joined ↔
      ∃ t', (s.setThread tid (.handle t)).threads tid' = .handle t') ∧
      joined.card = s.updates + 1 := by
  obtain ⟨joined, hmem, hcard⟩ := h.counted
  have hnot : tid ∉ joined := by
    rw [hmem tid, hout]
    rintro ⟨t', ht'⟩
    cases ht'
  refine ⟨insert tid joined, fun tid' => ?_, ?_⟩
  · simp only [System.setThread, update_apply, Finset.mem_insert, hmem tid']
    split_ifs with htid
    · simp [htid]
    · simp [htid]
  · rw [Finset.card_insert_of_notMem hnot, hcard]

theorem Sequenced.journalStart (hout : s.threads tid = .out)
    (hwrap : s.current = none → s.commitSequence < s.transSequence) :
    Sequenced (journalStart s tid) := by
  have hjoined : ∀ t t' tid', s.current = some t' →
      (s.setThread tid (.handle t')).threads tid' = .handle t → t' = t := by
    intro t t' tid' hcurrent htid'
    simp only [System.setThread, update_apply] at htid'
    split_ifs at htid'
    · exact ThreadState.handle.inj htid'
    · exact Option.some.inj (hcurrent.symm.trans (h.joined tid' t htid'))
  unfold Forced.journalStart
  split
  · next t ht =>
    refine ⟨h.next, h.running, fun tid' t' htid' => ?_, h.setThread_joined hout, h.waiting⟩
    exact ht.trans (congrArg some (hjoined t' t tid' ht htid'))
  · next hnone =>
    have hnext := h.next hnone
    have hlt := hwrap hnone
    have hle := Nat.mod_le (s.commitSequence + 1) (2 ^ 32)
    have hupdates : s.updates = 0 := by
      obtain ⟨joined, hmem, hcard⟩ := h.counted
      rw [← hcard, Finset.card_eq_zero, Finset.eq_empty_iff_forall_notMem]
      intro tid' htid'
      obtain ⟨t, ht⟩ := (hmem tid').mp htid'
      cases hnone.symm.trans (h.joined tid' t ht)
    constructor
    · exact nofun
    · intro t ht
      cases ht
      refine ⟨?_, rfl⟩
      rw [hnext] at hlt ⊢
      exact le_antisymm hle hlt
    · intro tid' t htid'
      simp only [System.setThread, update_apply] at htid'
      split_ifs at htid'
      · rw [ThreadState.handle.inj htid']
      · exact absurd htid' (h.no_handle hupdates tid' t)
    · have := h.setThread_joined (t := s.transSequence) hout
      rwa [hupdates] at this
    · intro t ht
      cases hnone.symm.trans (h.waiting t ht)

theorem Sequenced.leave (hhandle : s.threads tid = .handle t) :
    Sequenced { s.setThread tid .out with updates := s.updates - 1 } := by
  obtain ⟨joined, hmem, hcard⟩ := h.counted
  refine ⟨h.next, h.running, fun tid' t' htid' => ?_,
    ⟨joined.erase tid, fun tid' => ?_, ?_⟩, h.waiting⟩
  · simp only [System.setThread, update_apply] at htid'
    split_ifs at htid'
    exact h.joined tid' t' htid'
  · simp only [System.setThread, update_apply, Finset.mem_erase, hmem tid']
    split_ifs with htid
    · simp [htid]
    · simp [htid]
  · rw [Finset.card_erase_of_mem ((hmem tid).mpr ⟨t, hhandle⟩), hcard]

end

theorem wakeUp_eq (s : System) :
    ∃ queue threads committer,
      wakeUp s = { s with
        commitWait := queue, threads := threads, committer := committer } ∧
      (∀ tid t, threads tid = .handle t ↔ s.threads tid = .handle t) ∧
      (committer = s.committer ∨ s.committer = .asleep ∧ committer = .woken) := by
  unfold wakeUp
  split
  · exact ⟨_, _, _, rfl, fun _ _ => Iff.rfl, .inl rfl⟩
  · refine ⟨_, _, _, rfl, fun _ _ => Iff.rfl, ?_⟩
    split
    · next hasleep => exact .inr ⟨hasleep, rfl⟩
    · exact .inl rfl
  · next tid rest _ =>
    refine ⟨_, _, _, rfl, fun tid' t => ?_, .inl rfl⟩
    by_cases htid : tid' = tid
    · subst htid
      rw [update_self]
      split
      · next hasleep => simp [hasleep]
      · exact Iff.rfl
    · rw [update_of_ne htid]

theorem wakeUp_handle : (wakeUp s).threads tid = .handle t ↔ s.threads tid = .handle t := by
  obtain ⟨_, _, _, heq, hthreads, -⟩ := wakeUp_eq s
  rw [heq]
  exact hthreads tid t

section

variable (h : Sequenced s)
include h

theorem Sequenced.wakeUp : Sequenced (wakeUp s) := by
  obtain ⟨queue, threads, committer, heq, hthreads, hcommitter⟩ := wakeUp_eq s
  rw [heq]
  refine h.frame rfl rfl rfl rfl hthreads fun t ht => .inl ?_
  rcases hcommitter with rfl | ⟨-, rfl⟩
  · exact ht
  · cases ht

theorem Sequenced.setThread (state : ThreadState) (hold : ∀ t, s.threads tid ≠ .handle t)
    (hnew : ∀ t, state ≠ .handle t) : Sequenced (s.setThread tid state) := by
  refine h.frame rfl rfl rfl rfl (fun tid' t => ?_) fun t ht => .inl ht
  simp only [System.setThread, update_apply]
  split_ifs with htid
  · rw [htid]
    exact iff_of_false (hnew t) (hold t)
  · rfl

theorem Sequenced.journalWaitCommit (hold : ∀ t, s.threads tid ≠ .handle t) :
    Sequenced (journalWaitCommit s tid id) := by
  unfold Forced.journalWaitCommit
  split
  · have hset := h.wakeUp.setThread (.asleep id) (fun t => mt wakeUp_handle.mp (hold t)) (by simp)
    exact hset.frame rfl rfl rfl rfl (fun _ _ => Iff.rfl) fun _ => .inl
  · have hset := h.setThread .out hold (by simp)
    exact hset.frame rfl rfl rfl rfl (fun _ _ => Iff.rfl) fun _ => .inl

theorem Sequenced.journalStop (hhandle : s.threads tid = .handle t) (sync expired : Bool) :
    Sequenced (journalStop s tid t sync expired) := by
  have hleave := h.leave hhandle
  unfold Forced.journalStop
  split
  · have hrequest : Sequenced
        { s.setThread tid .out with
          updates := s.updates - 1, commitRequest := t } :=
      hleave.frame rfl rfl rfl rfl (fun _ _ => Iff.rfl) fun _ => .inl
    split
    · refine hrequest.wakeUp.journalWaitCommit fun t' ht' => ?_
      have hout := wakeUp_handle.mp ht'
      simp [System.setThread] at hout
    · exact hrequest.wakeUp
  · exact hleave

theorem Sequenced.step (hguard : Undisturbed n s op) (hs : Stepped s op s') : Sequenced s' := by
  cases hs with
  | start hout => exact h.journalStart hout hguard.2
  | stop hhandle => exact h.journalStop hhandle _ _
  | run hwoken => exact h.journalWaitCommit fun t => by simp [hwoken]
  | idle _ _ hwaiting =>
    exact h.frame rfl rfl rfl rfl (fun _ _ => Iff.rfl) fun t ht =>
      .inr (hwaiting t ht)
  | begin _ ht hupdates _ => exact h.commitBegin (ht.elim id (h.waiting _)) hupdates
  | write | wait | finish =>
    exact h.frame rfl rfl rfl rfl (fun _ _ => Iff.rfl) nofun
  | dirtyMetadata | flushBegin _ | flushEnd =>
    exact h.frame rfl rfl rfl rfl (fun _ _ => Iff.rfl) fun _ => .inl

end

/-! ## Woken threads -/

/-- Only the first `n` threads are in the journal, and the transaction that a woken thread
waits for is settled, if it has been committed. -/
structure WokenSettled (n : ℕ) (s : System) : Prop where
  bounded : ∀ tid, n ≤ tid → s.threads tid = .out
  settled : ∀ tid id, s.threads tid = .woken id → id ≤ s.commitSequence → Settled s id

theorem wokenSettled_created {sectorSize : ℕ} (n : ℕ) :
    WokenSettled n (created sectorSize first) :=
  ⟨fun _ _ => rfl, nofun⟩

theorem Settled.mono {id' : ℕ} (h : Settled s id) (hle : id' ≤ id) : Settled s id' :=
  ⟨fun t ht => lt_of_le_of_lt hle (h.1 t ht), fun t ht => h.2 t (ht.trans hle)⟩

theorem Settled.frame (h : Settled s id)
    (hcommitting : ∀ t ∈ s'.committing, t ∈ s.committing ∨ id < t)
    (hsize : ∀ t ≤ id, s'.size t = s.size t)
    (hclean : ∀ b, b.transId ≤ id → s.dirty b = false → s.locked b = false →
      s'.dirty b = false ∧ s'.locked b = false) : Settled s' id := by
  refine ⟨fun t ht => (hcommitting t ht).elim (h.1 t) fun hlt => hlt, fun t ht b hb => ?_⟩
  rw [hsize t ht] at hb
  obtain ⟨hdirty, hlocked⟩ := h.2 t ht b hb
  exact hclean b ((transId_of_mem_logBlocks hb).trans_le ht) hdirty hlocked

theorem wakeUp_commitSequence (s : System) : (wakeUp s).commitSequence = s.commitSequence := by
  obtain ⟨_, _, _, heq, -⟩ := wakeUp_eq s
  rw [heq]

theorem Settled.wakeUp (h : Settled s id) : Settled (wakeUp s) id := by
  obtain ⟨queue, threads, committer, heq, -, hcommitter⟩ := wakeUp_eq s
  rw [heq]
  refine h.frame (fun t ht => .inl ?_) (fun _ _ => rfl) fun _ _ => And.intro
  rcases hcommitter with rfl | ⟨-, rfl⟩
  · exact ht
  · cases ht

theorem WakesCalmly.wakeUp (h : WakesCalmly s) : WakesCalmly (wakeUp s) := by
  rcases h with hall | hsettled
  · refine .inl fun waiter hwaiter => hall waiter ?_
    unfold Forced.wakeUp at hwaiter
    split at hwaiter
    · exact hwaiter
    · next heq =>
      rw [heq]
      exact mem_cons_of_mem _ hwaiter
    · next heq =>
      rw [heq]
      exact mem_cons_of_mem _ hwaiter
  · right
    rw [wakeUp_commitSequence]
    exact hsettled.wakeUp

/-- `WakeUp` changes the state of a sleeping thread on the queue only. -/
theorem wakeUp_threads (s : System) (tid : ℕ) :
    (wakeUp s).threads tid = s.threads tid ∨
      .thread tid ∈ s.commitWait ∧ s.threads tid ≠ .out := by
  unfold wakeUp
  split
  · exact .inl rfl
  · exact .inl rfl
  · next tid' rest hqueue =>
    by_cases htid : tid = tid'
    · subst htid
      simp only [update_self, hqueue]
      split
      · next hasleep => exact .inr ⟨mem_cons_self, by simp [hasleep]⟩
      · exact .inl rfl
    · exact .inl (update_of_ne htid _ _)

section

variable (h : WokenSettled n s)
include h

/-- Threads that are not woken may change their states as long as settled transactions
stay settled. -/
theorem WokenSettled.frame (hthreads : ∀ tid, n ≤ tid → s'.threads tid = s.threads tid)
    (hwoken : ∀ tid id, s'.threads tid = .woken id → s.threads tid = .woken id)
    (hcommit : s'.commitSequence = s.commitSequence)
    (hsettled : ∀ id ≤ s.commitSequence, Settled s id → Settled s' id) : WokenSettled n s' := by
  refine ⟨fun tid htid => (hthreads tid htid).trans (h.bounded tid htid), fun tid id htid hid => ?_⟩
  rw [hcommit] at hid
  exact hsettled id hid (h.settled tid id (hwoken tid id htid) hid)

theorem WokenSettled.same (hthreads : s'.threads = s.threads)
    (hcommit : s'.commitSequence = s.commitSequence)
    (hsettled : ∀ id ≤ s.commitSequence, Settled s id → Settled s' id) : WokenSettled n s' :=
  h.frame (fun _ _ => congrFun hthreads _) (fun _ _ hw => hthreads ▸ hw) hcommit hsettled

theorem WokenSettled.setThread {state : ThreadState} (htid : tid < n)
    (hstate : ∀ id, state ≠ .woken id) : WokenSettled n (s.setThread tid state) := by
  refine h.frame (fun tid' htid' => update_of_ne (by omega) _ _) (fun tid' id hwoken => ?_) rfl
    fun _ _ hsettled => hsettled
  simp only [System.setThread, update_apply] at hwoken
  split_ifs at hwoken
  · exact absurd hwoken (hstate id)
  · exact hwoken

theorem WokenSettled.lt (htid : s.threads tid ≠ .out) : tid < n :=
  not_le.mp (mt (h.bounded tid) htid)

theorem WokenSettled.wakeUp (hcalm : WakesCalmly s) : WokenSettled n (wakeUp s) := by
  constructor
  · intro tid htid
    have hout := h.bounded tid htid
    exact (wakeUp_threads s tid).elim (·.trans hout) fun hchanged => absurd hout hchanged.2
  · intro tid id htid hid
    rw [wakeUp_commitSequence] at hid
    apply Settled.wakeUp
    rcases wakeUp_threads s tid with heq | ⟨hqueue, -⟩
    · exact h.settled tid id (heq.symm.trans htid) hid
    · refine (hcalm.resolve_left fun hall => ?_).mono hid
      cases hall _ hqueue

theorem WokenSettled.journalWaitCommit (htid : tid < n)
    (hcalm : s.commitSequence < id → WakesCalmly s) :
    WokenSettled n (journalWaitCommit s tid id) := by
  unfold Forced.journalWaitCommit
  split_ifs with hid
  · exact ((h.wakeUp (hcalm hid)).setThread htid (by simp)).same rfl rfl fun _ _ hs => hs
  · exact (h.setThread htid (by simp)).same rfl rfl fun _ _ hs => hs

theorem WokenSettled.journalStop (hhandle : s.threads tid = .handle t) {sync expired : Bool}
    (hcalm : sync ∨ expired → WakesCalmly s) :
    WokenSettled n (journalStop s tid t sync expired) := by
  have htid : tid < n := h.lt (by simp [hhandle])
  have hout : ∀ request, WokenSettled n
      { s.setThread tid .out with
        updates := s.updates - 1, commitRequest := request } := fun request =>
    (h.setThread htid (by simp)).same rfl rfl fun _ _ hs => hs
  unfold Forced.journalStop
  split_ifs with hwakes hsync
  · exact ((hout t).wakeUp (hcalm hwakes)).journalWaitCommit htid fun _ =>
      WakesCalmly.wakeUp (hcalm hwakes)
  · exact (hout t).wakeUp (hcalm hwakes)
  · exact hout s.commitRequest

theorem WokenSettled.journalStart (htid : tid < n)
    (hwrap : s.current = none → s.commitSequence < s.transSequence) :
    WokenSettled n (journalStart s tid) := by
  unfold Forced.journalStart
  split
  · exact (h.setThread htid (by simp)).same rfl rfl fun _ _ hs => hs
  · next hnone =>
    have hlt := hwrap hnone
    refine (h.setThread htid (by simp)).same rfl rfl
      fun id hid hsettled => ?_
    refine hsettled.frame (fun _ => .inl) (fun t ht => ?_) fun _ _ hdirty hlocked =>
      ⟨hdirty, hlocked⟩
    change id ≤ s.commitSequence at hid
    exact update_of_ne (by omega) _ _

end

/-! ## The way of a block to the disk -/

/-- What the committer has still to do for the transaction in hand. -/
def System.todo (s : System) : List Action :=
  match s.committer with
  | .committing _ todo => todo
  | _ => []

theorem todo_of_committing (h : s.committing = none) : s.todo = [] := by
  unfold System.committing at h
  unfold System.todo
  cases hcommitter : s.committer with
  | committing t todo =>
    rw [hcommitter] at h
    cases h
  | looping | asleep | woken | waiting => rfl

/-- A block that is still to be written, dirty, on its way or on the disk. -/
def Written (s : System) (b : LogBlock) : Prop :=
  .write b ∈ s.todo ∨ s.dirty b = true ∨ s.locked b = true ∨ s.disk b = true

/-- The blocks of committed transactions are not lost, and those of the
transactions that have been waited for are on the disk. -/
structure Kept (first : ℕ) (s : System) : Prop where
  begun : first ≤ s.commitSequence + 1
  committing : ∀ t ∈ s.committing, t = s.commitSequence
  pending : ∀ b, .write b ∈ s.todo → b.transId ∈ s.committing
  written : ∀ t, first ≤ t → t ≤ s.commitSequence → ∀ b ∈ logBlocks t (s.size t), Written s b
  returned : ∀ id ∈ s.returned, id ≤ s.commitSequence ∧ ∀ t ∈ s.committing, id < t
  durable : Durable first s

section

variable (h : Kept first s)
include h

section

variable (hcommit : s'.commitSequence = s.commitSequence)
  (hcommitting : s'.committing = s.committing)
include hcommit hcommitting

/-- A step that begins or ends no commit and lets no thread return keeps the
blocks if it moves each of them forward only.  It may take blocks of the
transaction in hand off the disk. -/
theorem Kept.frame (htodo : ∀ b, .write b ∈ s'.todo → .write b ∈ s.todo)
    (hsize : ∀ t ≤ s.commitSequence, s'.size t = s.size t)
    (hreturned : s'.returned = s.returned)
    (hwritten : ∀ b, Written s b → Written s' b)
    (hdisk : ∀ b, b.transId ∉ s.committing → s.disk b = true →
      s'.disk b = true) : Kept first s' := by
  constructor
  · rw [hcommit]
    exact h.begun
  · rw [hcommit, hcommitting]
    exact h.committing
  · intro b hb
    rw [hcommitting]
    exact h.pending b (htodo b hb)
  · intro t hfirst ht b hb
    rw [hcommit] at ht
    rw [hsize t ht] at hb
    exact hwritten b (h.written t hfirst ht b hb)
  · rw [hcommit, hcommitting, hreturned]
    exact h.returned
  · intro id hid t hfirst ht b hb
    rw [hreturned] at hid
    obtain ⟨hle, hlt⟩ := h.returned id hid
    rw [hsize t (ht.trans hle)] at hb
    have htrans := transId_of_mem_logBlocks hb
    apply hdisk b
    · intro hmem
      have := hlt _ hmem
      omega
    · exact h.durable id hid t hfirst ht b hb

theorem Kept.idle (htodo : s'.todo = s.todo) (hsize : ∀ t ≤ s.commitSequence, s'.size t = s.size t)
    (hreturned : s'.returned = s.returned) (hdirty : s'.dirty = s.dirty)
    (hlocked : s'.locked = s.locked) (hdisk : s'.disk = s.disk) : Kept first s' := by
  apply h.frame hcommit hcommitting _ hsize hreturned
  · intro b hb
    unfold Written
    rwa [htodo, hdirty, hlocked, hdisk]
  · intro b _ hb
    rwa [hdisk]
  · intro b hb
    rwa [htodo] at hb

end

theorem Kept.wakeUp : Kept first (wakeUp s) := by
  obtain ⟨queue, threads, committer, heq, -, hcommitter⟩ := wakeUp_eq s
  rw [heq]
  rcases hcommitter with rfl | ⟨hasleep, rfl⟩
  · exact h.idle rfl rfl rfl (fun _ _ => rfl) rfl rfl rfl rfl
  · refine h.idle rfl ?_ ?_ (fun _ _ => rfl) rfl rfl rfl rfl
    · simp [System.committing, hasleep]
    · simp [System.todo, hasleep]

theorem Kept.journalWaitCommit_sleep (hid : s.commitSequence < id) :
    Kept first (journalWaitCommit s tid id) := by
  unfold journalWaitCommit
  rw [if_pos hid]
  exact h.wakeUp.idle rfl rfl rfl (fun _ _ => rfl) rfl rfl rfl rfl

theorem Kept.disk_of_settled (hid : id ≤ s.commitSequence) (hsettled : Settled s id)
    (hfirst : first ≤ t) (ht : t ≤ id) (hb : b ∈ logBlocks t (s.size t)) : s.disk b = true := by
  obtain ⟨hdirty, hlocked⟩ := hsettled.2 t ht b hb
  rcases h.written t hfirst (ht.trans hid) b hb with hw | hd | hl | hdisk
  · have htrans := transId_of_mem_logBlocks hb
    have hlt := hsettled.1 _ (h.pending b hw)
    omega
  · rw [hdirty] at hd
    cases hd
  · rw [hlocked] at hl
    cases hl
  · exact hdisk

theorem Kept.journalWaitCommit (hsettled : id ≤ s.commitSequence → Settled s id) :
    Kept first (journalWaitCommit s tid id) := by
  by_cases hid : s.commitSequence < id
  · exact h.journalWaitCommit_sleep hid
  · have hid' := not_lt.mp hid
    have hsettled := hsettled hid'
    unfold Forced.journalWaitCommit
    rw [if_neg hid]
    refine ⟨h.begun, h.committing, h.pending, h.written, ?_, ?_⟩
    · exact forall_mem_cons.mpr ⟨⟨hid', hsettled.1⟩, h.returned⟩
    · refine forall_mem_cons.mpr ⟨fun t hfirst ht b hb => ?_, h.durable⟩
      exact h.disk_of_settled hid' hsettled hfirst ht hb

/-- The transaction of a handle is above `commitSequence`, so `JournalStop`
never returns from `JournalWaitCommit` at once. -/
theorem Kept.journalStop (hseq : Sequenced s) (hhandle : s.threads tid = .handle t)
    (sync expired : Bool) : Kept first (journalStop s tid t sync expired) := by
  have hlt : s.commitSequence < t := by
    have := (hseq.running t (hseq.joined tid t hhandle)).1
    omega
  have hrequest : ∀ request, Kept first
      { s.setThread tid .out with
        updates := s.updates - 1, commitRequest := request } := fun _ =>
    h.idle rfl rfl rfl (fun _ _ => rfl) rfl rfl rfl rfl
  unfold Forced.journalStop
  split
  · split
    · apply (hrequest t).wakeUp.journalWaitCommit_sleep
      rw [wakeUp_commitSequence]
      exact hlt
    · exact (hrequest t).wakeUp
  · exact hrequest s.commitRequest

theorem Kept.journalStart (tid : ℕ)
    (hwrap : s.current = none → s.commitSequence < s.transSequence) :
    Kept first (journalStart s tid) := by
  unfold Forced.journalStart
  split
  · exact h.idle rfl rfl rfl (fun _ _ => rfl) rfl rfl rfl rfl
  · next hnone =>
    have hlt := hwrap hnone
    refine h.idle rfl rfl rfl (fun t ht => ?_) rfl rfl rfl rfl
    exact update_of_ne (by omega) _ _

theorem Kept.dirtyMetadata (hseq : Sequenced s) (hhandle : s.threads tid = .handle t) :
    Kept first { s with size := update s.size t (s.size t + 1) } := by
  have hrunning := (hseq.running t (hseq.joined tid t hhandle)).1
  refine h.idle rfl rfl rfl (fun t' ht' => ?_) rfl rfl rfl rfl
  exact update_of_ne (by omega) _ _

/-! ## The committer and the write-back -/

theorem Kept.commitBegin (hseq : Sequenced s) (hcurrent : s.current = some t)
    (hcommitting : s.committing = none) (hbound : s.size t < 64) :
    Kept first (commitBegin s t) := by
  have hrunning := (hseq.running t hcurrent).1
  have hbegun := h.begun
  have htodo := todo_of_committing hcommitting
  constructor
  · change first ≤ t + 1
    omega
  · intro t' ht'
    exact (Option.some.inj ht').symm
  · intro b hb
    exact congrArg some (transId_of_write_mem hb).symm
  · intro t' hfirst ht' b hb
    rcases lt_or_eq_of_le ht' with hlt | rfl
    · have hold := h.written t' hfirst (by change t' < t at hlt; omega) b hb
      unfold Written at hold
      rw [htodo] at hold
      exact .inr (hold.resolve_left (by simp))
    · exact .inl (write_mem_commitActions hbound hb)
  · intro id hid
    have hle := (h.returned id hid).1
    refine ⟨?_, fun t' ht' => ?_⟩
    · change id ≤ t
      omega
    · cases ht'
      omega
  · exact h.durable

theorem Kept.blockWrite {todo : List Action}
    (hcommitter : s.committer = .committing t (.write b :: todo)) :
    Kept first { blockWrite s b with committer := .committing t todo } := by
  have hcommitting : s.committing = some t := by simp [System.committing, hcommitter]
  have htodo : s.todo = .write b :: todo := by simp [System.todo, hcommitter]
  have hb : b.transId ∈ s.committing := by
    apply h.pending
    rw [htodo]
    exact mem_cons_self
  have hdisk : ∀ b', b' ≠ b → (Forced.blockWrite s b).disk b' = s.disk b' := by
    intro b' hne
    cases b with
    | descriptor t => exact update_of_ne hne _ _
    | data t i | commit t => rfl
  refine h.frame rfl hcommitting.symm (fun b' hb' => ?_) (fun _ _ => rfl) rfl
    (fun b' hb' => ?_) fun b' hb' hdone => ?_
  · rw [htodo]
    exact mem_cons_of_mem _ hb'
  · by_cases hne : b' = b
    · subst hne
      exact .inr (.inl (update_self _ _ _))
    · rcases hb' with hw | hd | hl | hdone
      · rw [htodo] at hw
        refine .inl ?_
        rcases mem_cons.mp hw with heq | hmem
        · exact absurd (Action.write.inj heq) hne
        · exact hmem
      · exact .inr (.inl ((update_of_ne hne _ _).trans hd))
      · exact .inr (.inr (.inl hl))
      · exact .inr (.inr (.inr ((hdisk b' hne).trans hdone)))
  · refine (hdisk b' ?_).trans hdone
    rintro rfl
    exact hb' hb

theorem Kept.waitForBuffer {todo : List Action}
    (hcommitter : s.committer = .committing t (.wait b :: todo)) :
    Kept first { s with committer := .committing t todo } := by
  have hcommitting : s.committing = some t := by simp [System.committing, hcommitter]
  have htodo : s.todo = .wait b :: todo := by simp [System.todo, hcommitter]
  refine h.frame rfl hcommitting.symm (fun b' hb' => ?_) (fun _ _ => rfl) rfl
    (fun b' hb' => ?_) fun _ _ hdone => hdone
  · rw [htodo]
    exact mem_cons_of_mem _ hb'
  · refine hb'.imp_left fun hw => ?_
    rw [htodo] at hw
    exact (mem_cons.mp hw).resolve_left (by simp)

theorem Kept.commitEnd (hcommitter : s.committer = .committing t []) (queue : List Waiter) :
    Kept first { s with committer := .asleep, commitWait := queue } := by
  have htodo : s.todo = [] := by simp [System.todo, hcommitter]
  refine ⟨h.begun, ?_, ?_, fun t' hfirst ht' b hb => ?_,
    fun id hid => ⟨(h.returned id hid).1, ?_⟩, h.durable⟩
  · intro t' ht'
    cases ht'
  · exact nofun
  · have hold := h.written t' hfirst ht' b hb
    unfold Written at hold
    rw [htodo] at hold
    exact .inr (hold.resolve_left (by simp))
  · intro t' ht'
    cases ht'

theorem Kept.outside {committer : CommitterState} {queue : List Waiter} {request : ℕ}
    (hcommitting : s.committing = none) (hno : ∀ t todo, committer ≠ .committing t todo) :
    Kept first { s with
      committer := committer, commitWait := queue, commitRequest := request } := by
  have hnew : System.committing { s with
      committer := committer, commitWait := queue, commitRequest := request } =
        none := committing_eq_none hno
  exact h.idle rfl (hnew.trans hcommitting.symm)
    ((todo_of_committing hnew).trans (todo_of_committing hcommitting).symm)
    (fun _ _ => rfl) rfl rfl rfl rfl

theorem Kept.flushBegin (b : LogBlock) :
    Kept first { s with
      dirty := update s.dirty b false
      locked := update s.locked b true } := by
  refine h.frame rfl rfl (fun _ hb => hb) (fun _ _ => rfl) rfl
    (fun b' hb' => ?_) fun _ _ hdone => hdone
  by_cases hne : b' = b
  · subst hne
    exact .inr (.inr (.inl (update_self _ _ _)))
  · refine hb'.imp_right (Or.imp ?_ (Or.imp_left ?_))
    · exact (update_of_ne hne _ _).trans
    · exact (update_of_ne hne _ _).trans

theorem Kept.flushEnd (b : LogBlock) :
    Kept first { s with
      locked := update s.locked b false
      disk := if s.dirty b then s.disk
        else update s.disk b true } := by
  have hdisk : ∀ b', s.disk b' = true → (if s.dirty b then s.disk else update s.disk b true) b' =
        true := by
    intro b' hb'
    split
    · exact hb'
    · by_cases hne : b' = b
      · subst hne
        exact update_self _ _ _
      · rwa [update_of_ne hne]
  refine h.frame rfl rfl (fun _ hb => hb) (fun _ _ => rfl) rfl
    (fun b' hb' => ?_) fun b' _ => hdisk b'
  rcases hb' with hw | hd | hl | hdone
  · exact .inl hw
  · exact .inr (.inl hd)
  · by_cases hne : b' = b
    · subst hne
      by_cases hd : s.dirty b' = true
      · exact .inr (.inl hd)
      · refine .inr (.inr (.inr ?_))
        change (if s.dirty b' then s.disk else _) b' = true
        rw [if_neg hd, update_self]
    · exact .inr (.inr (.inl ((update_of_ne hne _ _).trans hl)))
  · exact .inr (.inr (.inr (hdisk b' hdone)))

/-- Blocks of a transaction become dirty only while it is being committed, and only dirty
ones are written back. -/
theorem Kept.woken_step (hseq : Sequenced s) (hwoken : WokenSettled n s)
    (hguard : Undisturbed n s op) (hs : Stepped s op s') : WokenSettled n s' := by
  cases hs with
  | start _ => exact hwoken.journalStart hguard.1 hguard.2
  | dirtyMetadata hhandle =>
    have hrunning := (hseq.running _ (hseq.joined _ _ hhandle)).1
    refine hwoken.same rfl rfl fun id hid hsettled => ?_
    exact hsettled.frame (fun _ => .inl) (fun t ht => update_of_ne (by omega) _ _)
      fun _ _ => And.intro
  | stop hhandle => exact hwoken.journalStop hhandle hguard
  | run htid =>
    exact hwoken.journalWaitCommit (hwoken.lt (by simp [htid])) (hguard _ (by rw [htid]; rfl))
  | idle _ hno _ =>
    refine hwoken.same rfl rfl fun id _ hsettled => ?_
    refine hsettled.frame (fun t ht => ?_) (fun _ _ => rfl) fun _ _ => And.intro
    rw [committing_eq_none hno] at ht
    cases ht
  | @begin _ t _ ht _ hcommits =>
    have hrunning := (hseq.running t (ht.elim id (hseq.waiting t))).1
    refine ⟨hwoken.bounded, fun tid id htid _ => ?_⟩
    change s.threads tid = .woken id at htid
    have hid := (hguard t hcommits).2 tid (hwoken.lt (by rw [htid]; simp)) id
      (by rw [htid]; rfl)
    refine (hwoken.settled tid id htid hid).frame (fun t' ht' => .inr ?_) (fun _ _ => rfl)
      fun _ _ => And.intro
    cases ht'
    omega
  | @write _ t b todo hcommitter =>
    have hcommitting : s.committing = some t := by simp [System.committing, hcommitter]
    have hb : b.transId ∈ s.committing := by
      apply h.pending
      simp [System.todo, hcommitter]
    refine hwoken.same rfl rfl fun id _ hsettled => ?_
    refine hsettled.frame (fun t' ht' => .inl (hcommitting.trans ht')) (fun _ _ => rfl)
      fun b' hb' hdirty hlocked => ⟨?_, hlocked⟩
    have hlt := hsettled.1 _ hb
    refine (update_of_ne ?_ _ _).trans hdirty
    rintro rfl
    omega
  | @wait _ t b todo hcommitter =>
    have hcommitting : s.committing = some t := by simp [System.committing, hcommitter]
    refine hwoken.same rfl rfl fun id _ hsettled => ?_
    exact hsettled.frame (fun t' ht' => .inl (hcommitting.trans ht')) (fun _ _ => rfl)
      fun _ _ => And.intro
  | finish =>
    refine hwoken.same rfl rfl fun id _ hsettled => ?_
    exact hsettled.frame nofun (fun _ _ => rfl) fun _ _ => And.intro
  | @flushBegin b hdirty =>
    refine hwoken.same rfl rfl fun id _ hsettled => ?_
    refine hsettled.frame (fun _ => .inl) (fun _ _ => rfl) fun b' _ hclean hlocked => ?_
    have hne : b' ≠ b := by
      rintro rfl
      cases hdirty.symm.trans hclean
    exact ⟨(update_of_ne hne _ _).trans hclean, (update_of_ne hne _ _).trans hlocked⟩
  | @flushEnd b =>
    refine hwoken.same rfl rfl fun id _ hsettled => ?_
    refine hsettled.frame (fun _ => .inl) (fun _ _ => rfl) fun b' _ hclean hlocked =>
      ⟨hclean, ?_⟩
    by_cases hne : b' = b
    · subst hne
      exact update_self _ _ _
    · exact (update_of_ne hne _ _).trans hlocked

theorem Kept.step (hseq : Sequenced s) (hwoken : WokenSettled n s)
    (hguard : Undisturbed n s op) (hs : Stepped s op s') : Kept first s' := by
  cases hs with
  | start _ => exact h.journalStart _ hguard.2
  | dirtyMetadata hhandle => exact h.dirtyMetadata hseq hhandle
  | stop hhandle => exact h.journalStop hseq hhandle _ _
  | run htid => exact h.journalWaitCommit (hwoken.settled _ _ htid)
  | idle hcommitting hno _ => exact h.outside hcommitting hno
  | begin hcommitting ht _ hcommits =>
    exact h.commitBegin hseq (ht.elim id (hseq.waiting _)) hcommitting (hguard _ hcommits).1
  | write hcommitter => exact h.blockWrite hcommitter
  | wait hcommitter => exact h.waitForBuffer hcommitter
  | finish hcommitter => exact h.commitEnd hcommitter _
  | flushBegin _ => exact h.flushBegin _
  | flushEnd => exact h.flushEnd _

end

/-! ## Runs -/

theorem sequenced_created {sectorSize : ℕ} (hpos : 0 < first)
    (hfirst : first < 2 ^ 32) : Sequenced (created sectorSize first) := by
  constructor
  · intro _
    change first = dword (dwordSub first 1 + 1)
    rw [dwordSub_of_le hpos, Nat.sub_add_cancel hpos, dword_of_lt hfirst]
  · exact nofun
  · exact nofun
  · exact ⟨∅, fun tid => by simp [created], rfl⟩
  · exact nofun

theorem kept_created {sectorSize : ℕ} (hpos : 0 < first) :
    Kept first (created sectorSize first) := by
  have hlast : (created sectorSize first).commitSequence = first - 1 :=
    dwordSub_of_le hpos
  constructor
  · omega
  · exact nofun
  · exact nofun
  · intro t hle ht
    omega
  · exact nofun
  · exact nofun

/-- A first thread forces a commit and is woken by a second one, after the
committer has run and its blocks have been written back. -/
def settledRun : List Op :=
  [.committer false, .start 0, .dirtyMetadata 0, .stop 0 true false,
    .committer false, .committer false, .committer false, .committer false,
    .committer false, .committer false, .committer false, .committer false,
    .flushBegin (.descriptor 1), .flushEnd (.descriptor 1),
    .flushBegin (.data 1 0), .flushEnd (.data 1 0),
    .flushBegin (.commit 1), .flushEnd (.commit 1),
    .start 1, .stop 1 true false, .run 0]

/-- The same two threads, with the second one forcing its commit as soon as the
committer has set `commitSequence`. -/
def earlyRun : List Op :=
  [.committer false, .start 0, .dirtyMetadata 0, .stop 0 true false,
    .committer false, .committer false, .start 1, .stop 1 true false, .run 0]

end Whitix.Jfs.Forced
