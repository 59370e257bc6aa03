import Mathlib.Data.Set.Card
import Whitix.Include.Error
import Whitix.Support.Run
import Whitix.Support.Word

/-!
# Journal handles

A filesystem brackets every atomic update with `JournalStart` and
`JournalStop` of `fs/journal/transaction.c`.  A nested `JournalStart` is meant
to return the handle of the outer one, which the thread keeps in
`currThread->currHandle`, and to count the nesting in `handle->refs`.

This module contains the structures of the journal and the calls that open and
close handles.  Handles and transactions live at addresses the slab allocator
chooses; a call takes the addresses it may need as arguments.  Counters are
integers, since none of them comes near `2 ^ 31`.
-/

namespace Whitix.Jfs

open Support Function Option Prod

/-! ## Structures -/

structure JournalHandle where
  refs : ℤ
  numBlocks : ℤ
  sync : ℤ
  transaction : Option ℕ
  deriving DecidableEq, Repr

/-- `struct JournalTrans` without its `state`, which nothing reads, and its
buffer lists. -/
structure JournalTrans where
  transId : ℕ
  outstandingBlocks : ℤ
  expires : ℕ
  logStart : ℕ
  updates : ℤ
  handleCount : ℤ
  deriving DecidableEq, Repr

/-- The fields of `struct Journal` that transactions and checkpoints use. -/
structure Journal where
  maxTransactionBuffers : ℕ
  transSequence : ℕ
  commitSequence : ℕ
  tailSequence : ℕ
  commitRequest : ℕ
  head : ℕ
  tail : ℕ
  free : ℕ
  checkpointTrans : List ℕ
  currTransaction : Option ℕ
  committingTrans : Option ℕ
  deriving DecidableEq, Repr

def journCommitInterval : ℕ := 2

/-- A journal with its transactions and handles, the handle of the running
thread and `currTime.seconds`. -/
structure System where
  journal : Journal
  transactions : ℕ → Option JournalTrans
  handles : ℕ → Option JournalHandle
  currHandle : Option ℕ
  seconds : ℕ

section

variable (s : System) (t h : ℕ)

def System.setTrans (trans : JournalTrans) : System :=
  { s with transactions := update s.transactions t (some trans) }

def System.setHandle (handle : JournalHandle) : System :=
  { s with handles := update s.handles h (some handle) }

def System.freeHandle : System :=
  { s with handles := update s.handles h none }

/-! ## Starting a handle -/

/-- `JournalTransCreate`, with the new transaction at address `t`. -/
def journalTransCreate : System :=
  { s with
    transactions := update s.transactions t (some
      { transId := s.journal.transSequence
        outstandingBlocks := 0
        expires := dword (s.seconds + journCommitInterval)
        logStart := 0
        updates := 0
        handleCount := 0 })
    journal := { s.journal with
      transSequence := dword (s.journal.transSequence + 1)
      currTransaction := some t } }

/-- The transaction a new handle joins: the current one, or a new one at
address `t`. -/
def journalCurrTrans : ℕ × System :=
  match s.journal.currTransaction with
  | some t => (t, s)
  | none => (t, journalTransCreate s t)

/-- Too large a transaction is only noticed. -/
def journalHandleStart (h t : ℕ) : Option (ℤ × System) := do
  let handle ← s.handles h
  if (s.journal.maxTransactionBuffers : ℤ) < handle.numBlocks % 2 ^ 32 then
    some (-ENOSPC, s)
  else
    let (t, s) := journalCurrTrans s t
    let trans ← s.transactions t
    some (0, (s.setHandle h { handle with transaction := some t }).setTrans t
      { trans with
        outstandingBlocks := trans.outstandingBlocks + handle.numBlocks
        updates := trans.updates + 1
        handleCount := trans.handleCount + 1 })

def journalHandleAllocate (numBlocks : ℤ) : System :=
  s.setHandle h { refs := 1, numBlocks, sync := 0, transaction := none }

/-- `JournalStart`, which returns a handle or, where there is no room for the
blocks it wants, none. -/
def journalStart (numBlocks : ℤ) (h t : ℕ) : Option (Option ℕ × System) :=
  match s.currHandle with
  | some curr => do
      let handle ← s.handles curr
      some (some curr, s.setHandle curr { handle with refs := handle.refs + 1 })
  | none => do
      let s := { journalHandleAllocate s h numBlocks with currHandle := some h }
      let (ret, s) ← journalHandleStart s h t
      if ret ≠ 0 then some (none, { s with currHandle := none })
      else some (some h, s)

/-! ## Stopping a handle -/

def journalStartCommit (trans : JournalTrans) : System :=
  { s with journal := { s.journal with commitRequest := trans.transId } }

/-- The beginning of `JournalCommitTransaction`, up to the assignment of
`logStart`.  With updates outstanding it waits for the threads that make
them. -/
def journalCommitBegin : Option System := do
  let t ← s.journal.currTransaction
  let trans ← s.transactions t
  if trans.updates ≠ 0 then none
  else
    some (System.setTrans
      { s with journal := { s.journal with
        commitSequence := trans.transId
        committingTrans := some t
        currTransaction := none } }
      t { trans with logStart := s.journal.head })

/-- The transaction a turn of `JournalCommitter` goes by: the current one if it
has expired, else the one a thread asked for. -/
def committerRequest : ℕ :=
  match s.journal.currTransaction.bind s.transactions with
  | some curr =>
    if curr.expires ≤ s.seconds then curr.transId
    else s.journal.commitRequest
  | none => s.journal.commitRequest

def journalCommitter : Option System :=
  let s₁ : System :=
    { s with journal :=
      { s.journal with commitRequest := committerRequest s } }
  if s₁.journal.commitSequence ≠ s₁.journal.commitRequest then
    journalCommitBegin s₁
  else some s₁

/-- `JournalWaitCommit`, which lets the committer run.  After one turn it has
nothing more to commit. -/
def journalWaitCommit (id : ℕ) : Option System :=
  if id ≤ s.journal.commitSequence then some s
  else do
    let s ← journalCommitter s
    if id ≤ s.journal.commitSequence then some s else none

/-- The part of `JournalStop` that asks for a commit, once `handle` has been
taken off its transaction. -/
def journalStopCommit (handle : JournalHandle) (trans : JournalTrans) : Option System :=
  if handle.sync = 1 then
    journalWaitCommit (journalStartCommit s trans) trans.transId
  else if trans.expires ≤ s.seconds then some (journalStartCommit s trans)
  else some s

def journalStop : Option System := do
  let handle ← s.handles h
  let t ← handle.transaction
  let trans ← s.transactions t
  let handle := { handle with refs := handle.refs - 1 }
  let s := { s with currHandle := none }.setHandle h handle
  if 0 < handle.refs then some s
  else
    let trans := { trans with
      updates := trans.updates - 1
      outstandingBlocks := trans.outstandingBlocks - handle.numBlocks }
    let s ← journalStopCommit (s.setTrans t trans) handle trans
    some (s.freeHandle h)

end

/-! ## What the calls do -/

variable {r : Option ℕ} {numBlocks : ℤ}

section Calls

variable {s s' : System}

theorem journalCommitBegin_cases (hs : journalCommitBegin s = some s') :
    ∃ t trans, s.journal.currTransaction = some t ∧
      s.transactions t = some trans ∧ trans.updates = 0 ∧
      s' = System.setTrans
        { s with journal := { s.journal with
          commitSequence := trans.transId
          committingTrans := some t
          currTransaction := none } }
        t { trans with logStart := s.journal.head } := by
  simp only [journalCommitBegin, bind_eq_bind, bind_eq_some_iff] at hs
  obtain ⟨t, ht, trans, htrans, hs⟩ := hs
  split at hs
  · cases hs
  · next hupdates =>
    refine ⟨t, trans, ht, htrans, not_not.mp hupdates, ?_⟩
    exact (some.inj hs).symm

/-- A request for a commit leaves everything but `commitRequest` alone, and
the committer may then begin a commit. -/
def AsksCommit (s s' : System) : Prop :=
  ∃ request, let s₁ : System :=
      { s with journal := { s.journal with commitRequest := request } }
    s' = s₁ ∨ journalCommitBegin s₁ = some s'

theorem journalCommitter_asks (hs : journalCommitter s = some s') : AsksCommit s s' := by
  rw [journalCommitter] at hs
  refine ⟨committerRequest s, ?_⟩
  split at hs
  · exact .inr hs
  · exact .inl (some.inj hs).symm

theorem journalStopCommit_asks {handle : JournalHandle} {trans : JournalTrans}
    (hs : journalStopCommit s handle trans = some s') : AsksCommit s s' := by
  rw [journalStopCommit] at hs
  split at hs
  · rw [journalWaitCommit] at hs
    split at hs
    · exact ⟨trans.transId, .inl (some.inj hs).symm⟩
    · simp only [bind_eq_bind, bind_eq_some_iff] at hs
      obtain ⟨s₁, hs₁, hs⟩ := hs
      split at hs
      · cases hs
        obtain ⟨request, hrequest⟩ := journalCommitter_asks hs₁
        exact ⟨request, hrequest⟩
      · cases hs
  · split at hs
    · exact ⟨trans.transId, .inl (some.inj hs).symm⟩
    · exact ⟨s.journal.commitRequest, .inl (some.inj hs).symm⟩

theorem journalStart_nested {h t curr : ℕ} (hcurr : s.currHandle = some curr)
    (hs : journalStart s numBlocks h t = some (r, s')) :
    ∃ handle, s.handles curr = some handle ∧ r = some curr ∧
      s' = s.setHandle curr { handle with refs := handle.refs + 1 } := by
  simp only [journalStart, hcurr, bind_eq_bind, bind_eq_some_iff] at hs
  obtain ⟨handle, hhandle, hs⟩ := hs
  cases hs
  exact ⟨handle, hhandle, rfl, rfl⟩

/-- The state after the outermost start has joined the transaction `trans` at
address `t` of `s`. -/
def System.joined (s : System) (numBlocks : ℤ) (h t : ℕ) (trans : JournalTrans) : System :=
  { s with
    handles := update s.handles h (some { refs := 1, numBlocks, sync := 0, transaction := some t })
    transactions := update s.transactions t (some
      { trans with
        outstandingBlocks := trans.outstandingBlocks + numBlocks
        updates := trans.updates + 1
        handleCount := trans.handleCount + 1 })
    currHandle := some h }

theorem journalHandleStart_allocated {h t : ℕ} {ret : ℤ} (hs : journalHandleStart
    { journalHandleAllocate s h numBlocks with currHandle := some h } h t = some (ret, s')) :
    (ret = -ENOSPC ∧ s' = { journalHandleAllocate s h numBlocks with currHandle := some h }) ∨
    (ret = 0 ∧ ∃ trans, (journalCurrTrans s t).2.transactions (journalCurrTrans s t).1 =
        some trans ∧
      s' = (journalCurrTrans s t).2.joined numBlocks h (journalCurrTrans s t).1 trans) := by
  simp only [journalHandleStart, journalHandleAllocate, System.setHandle,
    update_self, bind_eq_bind, bind_some] at hs
  split at hs
  · cases hs
    exact .inl ⟨rfl, rfl⟩
  · right
    obtain ⟨trans, htrans, hs⟩ := bind_eq_some_iff.mp hs
    cases hs
    refine ⟨rfl, trans, ?_⟩
    rw [journalCurrTrans] at htrans ⊢
    split
    · next hcurr =>
      simp only [journalCurrTrans, hcurr] at htrans ⊢
      refine ⟨htrans, ?_⟩
      simp only [System.joined, System.setTrans, update_idem]
    · next hcurr =>
      simp only [journalCurrTrans, hcurr] at htrans ⊢
      refine ⟨htrans, ?_⟩
      simp only [System.joined, System.setTrans, journalTransCreate, update_idem]

/-- An outermost start allocates a handle, which joins the current
transaction unless it wants too many blocks. -/
theorem journalStart_outermost {h t : ℕ} (hcurr : s.currHandle = none)
    (hs : journalStart s numBlocks h t = some (r, s')) :
    (r = none ∧ s' = journalHandleAllocate s h numBlocks) ∨
    (r = some h ∧ ∃ trans,
      (journalCurrTrans s t).2.transactions (journalCurrTrans s t).1 = some trans ∧
      s' = (journalCurrTrans s t).2.joined numBlocks h (journalCurrTrans s t).1 trans) := by
  simp only [journalStart, hcurr, bind_eq_bind, bind_eq_some_iff] at hs
  obtain ⟨⟨ret, s₁⟩, hs₁, hs⟩ := hs
  rcases journalHandleStart_allocated hs₁ with
    ⟨rfl, rfl⟩ | ⟨rfl, trans, htrans, rfl⟩
  · left
    cases hs
    refine ⟨rfl, ?_⟩
    simp only [journalHandleAllocate, System.setHandle, hcurr]
  · right
    cases hs
    exact ⟨rfl, trans, htrans, rfl⟩

theorem AsksCommit.freeHandle (hs : AsksCommit s s') (h : ℕ) :
    AsksCommit (s.freeHandle h) (s'.freeHandle h) := by
  obtain ⟨request, rfl | hs⟩ := hs
  · exact ⟨request, .inl rfl⟩
  · refine ⟨request, .inr ?_⟩
    obtain ⟨t, trans, ht, htrans, hupdates, rfl⟩ := journalCommitBegin_cases hs
    simp only [System.freeHandle] at ht htrans ⊢
    simp only [journalCommitBegin, ht, htrans, hupdates, bind_eq_bind,
      bind_some, ne_eq, not_true_eq_false, if_false, System.setTrans]

/-- The state after the last use of the handle at `h` has left the transaction
`trans` at address `t`. -/
def System.left (s : System) (h t : ℕ) (handle : JournalHandle) (trans : JournalTrans) : System :=
  { s with
    handles := update s.handles h none
    transactions := update s.transactions t (some
      { trans with
        updates := trans.updates - 1
        outstandingBlocks := trans.outstandingBlocks - handle.numBlocks })
    currHandle := none }

/-- A stop forgets the handle of the thread.  It counts one use less, and frees
the handle at its last use. -/
theorem journalStop_cases {h : ℕ} (hs : journalStop s h = some s') :
    ∃ handle t trans, s.handles h = some handle ∧
      handle.transaction = some t ∧ s.transactions t = some trans ∧
      ((1 < handle.refs ∧ s' = System.setHandle { s with currHandle := none }
          h { handle with refs := handle.refs - 1 }) ∨
        (handle.refs ≤ 1 ∧ AsksCommit (s.left h t handle trans) s')) := by
  simp only [journalStop, bind_eq_bind, bind_eq_some_iff] at hs
  obtain ⟨handle, hhandle, t, ht, trans, htrans, hs⟩ := hs
  refine ⟨handle, t, trans, hhandle, ht, htrans, ?_⟩
  split at hs
  · next hrefs =>
    refine .inl ⟨by omega, (some.inj hs).symm⟩
  · next hrefs =>
    refine .inr ⟨by omega, ?_⟩
    obtain ⟨s₁, hs₁, hs⟩ := bind_eq_some_iff.mp hs
    cases hs
    have hasks := (journalStopCommit_asks hs₁).freeHandle h
    simpa only [System.freeHandle, System.setTrans, System.setHandle,
      System.left, update_idem] using hasks

end Calls

end Whitix.Jfs
