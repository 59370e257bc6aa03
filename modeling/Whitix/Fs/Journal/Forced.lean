import Mathlib.Data.Finset.Card
import Whitix.Fs.Journal.Log
import Whitix.Support.Run

/-!
# Forced commits

A synchronous `JournalStop` asks the committer thread for a commit of its
transaction and waits in `JournalWaitCommit` until `commitSequence` has
reached it.  The committer sets `commitSequence` before it writes anything.  A
thread that is woken while the commit is going on, by the `WakeUp` of another
`JournalStop` on the same queue, returns too early.  Even after the commit its
blocks need not be on the disk: `BlockWrite` only marks a buffer as dirty, and
`WaitForBuffer` waits only for a buffer that is being written.

The model is the interleaving of the threads, of the committer and of the
thread that writes dirty buffers back.  Threads are switched at `BlockWrite`,
`WaitForBuffer`, where a thread sleeps and at `JournalUnlock`.  Handles are not
nested, and the writes of a checkpoint, which come after the commit block and
do not go to the log, are left out.
-/

namespace Whitix.Jfs.Forced

open Support Function List

/-! ## Log blocks -/

/-- The blocks that the commit of a transaction writes to the log. -/
inductive LogBlock
  | descriptor (transId : ℕ)
  | data (transId i : ℕ)
  | commit (transId : ℕ)
  deriving DecidableEq, Repr

def LogBlock.transId : LogBlock → ℕ
  | descriptor t => t
  | data t _ => t
  | commit t => t

/-- `spaceLeft` in `JournalCommitMetadata` after the tag of buffer `i`. -/
def spaceLeft (sectorSize : ℕ) : ℕ → ℕ
  | 0 => dwordSub (dwordSub (dwordSub sectorSize sizeofHeader) sizeofTag) 16
  | i + 1 => dwordSub (spaceLeft sectorSize i) sizeofTag

/-- The test in `JournalCommitMetadata` after buffer `i` of `n`. -/
def submits (sectorSize n i : ℕ) : Bool :=
  i + 2 = 64 ∨ n ≤ i + 2 ∨ spaceLeft sectorSize i < sizeofTag + 16

/-- The contents of `buffers` after buffer `i`.  Its index is never reset. -/
def submission (t i : ℕ) : List LogBlock :=
  .descriptor t :: (range (i + 1)).map (.data t)

def logBlocks (t n : ℕ) : List LogBlock :=
  (if n = 0 then [] else submission t (n - 1)) ++ [.commit t]

/-- Where the committer can be switched away: at a `BlockWrite` and at a
`WaitForBuffer`.  `overrun` is a store behind the end of `buffers`. -/
inductive Action
  | write (b : LogBlock)
  | wait (b : LogBlock)
  | overrun
  deriving DecidableEq, Repr

/-- `JournalCommitMetadata`, `JournalWaitForIO` and `JournalWriteCommitRecord`
for transaction `t` with `n` buffers.  The descriptor and 63 buffers fill `buffers`. -/
def commitActions (sectorSize t n : ℕ) : List Action :=
  ((range (min n 63)).flatMap fun i =>
    if submits sectorSize n i then (submission t i).map .write else []) ++
  if n < 64 then
    (range n).map (fun i => .wait (.data t i)) ++ [.write (.commit t), .wait (.commit t)]
  else [.overrun]

/-! ## The system -/

/-- A thread outside the journal, with a handle on a transaction, asleep in
`JournalWaitCommit` and woken there. -/
inductive ThreadState
  | out
  | handle (transId : ℕ)
  | asleep (id : ℕ)
  | woken (id : ℕ)
  deriving DecidableEq, Repr

/-- `JournalCommitter`: at the top of its loop, asleep, just woken, waiting for
the updates of a transaction, and in the course of a commit. -/
inductive CommitterState
  | looping
  | asleep
  | woken
  | waiting (transId : ℕ)
  | committing (transId : ℕ) (todo : List Action)
  deriving DecidableEq, Repr

inductive Waiter
  | committer
  | thread (tid : ℕ)
  deriving DecidableEq, Repr

/-- The journal, its threads and the buffers of the log.  `updates` belongs to
the current transaction, and `size` gives the number of buffers of each
transaction.  `disk` tells which blocks are on the disk as they are in memory,
and `returned` collects the arguments of the calls of `JournalWaitCommit` that
have returned. -/
structure System where
  sectorSize : ℕ
  transSequence : ℕ
  commitSequence : ℕ
  commitRequest : ℕ
  current : Option ℕ
  updates : ℕ
  size : ℕ → ℕ
  threads : ℕ → ThreadState
  commitWait : List Waiter
  committer : CommitterState
  dirty : LogBlock → Bool
  locked : LogBlock → Bool
  disk : LogBlock → Bool
  returned : List ℕ

variable (s : System)

def System.setThread (tid : ℕ) (state : ThreadState) : System :=
  { s with threads := update s.threads tid state }

def wakeUp : System :=
  match s.commitWait with
  | [] => s
  | .committer :: rest =>
    { s with
      commitWait := rest
      committer := match s.committer with
        | .asleep => .woken
        | committer => committer }
  | .thread tid :: rest =>
    { s with
      commitWait := rest
      threads := update s.threads tid (match s.threads tid with
          | .asleep id => .woken id
          | state => state) }

/-- The loop of `JournalWaitCommit`, from its test to the next sleep or to the
return. -/
def journalWaitCommit (tid id : ℕ) : System :=
  if s.commitSequence < id then
    let s := wakeUp s
    { s.setThread tid (.asleep id) with
      commitWait := s.commitWait ++ [.thread tid] }
  else { s.setThread tid .out with returned := id :: s.returned }

def journalStart (tid : ℕ) : System :=
  match s.current with
  | some t => { s.setThread tid (.handle t) with updates := s.updates + 1 }
  | none =>
    { s.setThread tid (.handle s.transSequence) with
      transSequence := dword (s.transSequence + 1)
      current := some s.transSequence
      updates := 1
      size := update s.size s.transSequence 0 }

/-- `expired` tells whether the transaction has expired. -/
def journalStop (tid id : ℕ) (sync expired : Bool) : System :=
  let s := { s.setThread tid .out with updates := s.updates - 1 }
  if sync ∨ expired then
    let s := wakeUp { s with commitRequest := id }
    if sync then journalWaitCommit s tid id else s
  else s

def commitBegin (t : ℕ) : System :=
  { s with
    commitSequence := t
    current := none
    committer := .committing t (commitActions s.sectorSize t (s.size t)) }

/-- `BlockWrite` of a log block.  Between two writes of the descriptor block
tags have been added to it. -/
def blockWrite (b : LogBlock) : System :=
  { s with
    dirty := update s.dirty b true
    disk := match b with
      | .descriptor _ => update s.disk b false
      | _ => s.disk }

/-- A turn of the committer.  After a commit it goes to sleep.  There is no turn after an
overrun. -/
def committerStep (expired : Bool) : Option System :=
  match s.committer with
  | .looping =>
    if s.commitSequence = s.commitRequest then
      some { s with
        committer := .asleep
        commitWait := s.commitWait ++ [.committer] }
    else
      match s.current with
      | none => none
      | some t =>
        if s.updates = 0 then some (commitBegin s t)
        else some { s with committer := .waiting t }
  | .asleep => none
  | .woken =>
    some { s with
      committer := .looping
      commitWait := s.commitWait.filter (· ≠ .committer)
      commitRequest := match s.current with
        | some t => if expired then t else s.commitRequest
        | none => s.commitRequest }
  | .waiting t => if s.updates = 0 then some (commitBegin s t) else none
  | .committing t (.write b :: todo) =>
    some { blockWrite s b with committer := .committing t todo }
  | .committing t (.wait b :: todo) =>
    if s.locked b then none
    else some { s with committer := .committing t todo }
  | .committing _ (.overrun :: _) => none
  | .committing _ [] =>
    some { s with
      committer := .asleep
      commitWait := s.commitWait ++ [.committer] }

/-- What may happen next.  The timer wakes the committer; a dirty buffer is
locked and written back. -/
inductive Op
  | start (tid : ℕ)
  | dirtyMetadata (tid : ℕ)
  | stop (tid : ℕ) (sync expired : Bool)
  | run (tid : ℕ)
  | committer (expired : Bool)
  | timer
  | flushBegin (b : LogBlock)
  | flushEnd (b : LogBlock)
  deriving DecidableEq, Repr

def step : Op → Option System
  | .start tid =>
    match s.threads tid with
    | .out => some (journalStart s tid)
    | _ => none
  | .dirtyMetadata tid =>
    match s.threads tid with
    | .handle t =>
      some { s with size := update s.size t (s.size t + 1) }
    | _ => none
  | .stop tid sync expired =>
    match s.threads tid with
    | .handle t => some (journalStop s tid t sync expired)
    | _ => none
  | .run tid =>
    match s.threads tid with
    | .woken id => some (journalWaitCommit s tid id)
    | _ => none
  | .committer expired => committerStep s expired
  | .timer =>
    match s.committer with
    | .asleep => some { s with committer := .woken }
    | _ => none
  | .flushBegin b =>
    if s.dirty b ∧ s.locked b = false then
      some { s with
        dirty := update s.dirty b false
        locked := update s.locked b true }
    else none
  | .flushEnd b =>
    if s.locked b then
      some { s with
        locked := update s.locked b false
        disk := if s.dirty b then s.disk
          else update s.disk b true }
    else none

/-- The state after `JournalCreate`, with `first` the first sequence number. -/
def created (sectorSize first : ℕ) : System where
  sectorSize := sectorSize
  transSequence := first
  commitSequence := dwordSub first 1
  commitRequest := dwordSub first 1
  current := none
  updates := 0
  size := fun _ => 0
  threads := fun _ => .out
  commitWait := []
  committer := .looping
  dirty := fun _ => false
  locked := fun _ => false
  disk := fun _ => false
  returned := []

/-! ## Durability -/

/-- The blocks of all transactions up to those a call of `JournalWaitCommit`
has returned for are on the disk. -/
def Durable (first : ℕ) (s : System) : Prop :=
  ∀ id ∈ s.returned, ∀ t, first ≤ t → t ≤ id → ∀ b ∈ logBlocks t (s.size t), s.disk b = true

def System.committing (s : System) : Option ℕ :=
  match s.committer with
  | .committing t _ => some t
  | _ => none

def ThreadState.wokenFor : ThreadState → Option ℕ
  | .woken id => some id
  | _ => none

/-- No transaction up to `id` is being committed, and no block of one is still
to be written back. -/
def Settled (id : ℕ) : Prop :=
  (∀ t ∈ s.committing, id < t) ∧ ∀ t ≤ id, ∀ b ∈ logBlocks t (s.size t),
      s.dirty b = false ∧ s.locked b = false
  deriving Decidable

/-- The transaction that the committer begins to commit in its next turn. -/
def System.commits : Option ℕ :=
  match s.committer with
  | .looping =>
    if s.commitSequence ≠ s.commitRequest ∧ s.updates = 0 then s.current else none
  | .waiting t => if s.updates = 0 then some t else none
  | _ => none

/-- `WakeUp` wakes no thread, or all that has been committed is settled. -/
def WakesCalmly : Prop :=
  (∀ waiter ∈ s.commitWait, waiter = .committer) ∨ Settled s s.commitSequence
  deriving Decidable

/-- The events of an undisturbed run of `n` threads.  Sequence numbers do not wrap.
`JournalStop` and the loop of `JournalWaitCommit` call `WakeUp` while a thread is asleep
only if what has been committed is settled.  The committer begins a commit of less than
64 buffers, and not between the waking of a thread and its test, if the thread
waits for a transaction that is not committed. -/
def Undisturbed (n : ℕ) (s : System) : Op → Prop
  | .start tid => tid < n ∧ (s.current = none → s.commitSequence < s.transSequence)
  | .stop _ sync expired => sync ∨ expired → WakesCalmly s
  | .run tid => ∀ id ∈ (s.threads tid).wokenFor, s.commitSequence < id → WakesCalmly s
  | .committer _ => ∀ t ∈ s.commits, s.size t < 64 ∧
      ∀ tid < n, ∀ id ∈ (s.threads tid).wokenFor, id ≤ s.commitSequence
  | _ => True

instance (n : ℕ) (s : System) : (op : Op) → Decidable (Undisturbed n s op)
  | .start _ => inferInstanceAs (Decidable (_ ∧ (_ → _)))
  | .stop _ _ _ => inferInstanceAs (Decidable (_ → _))
  | .run tid =>
    inferInstanceAs (Decidable (∀ id ∈ (s.threads tid).wokenFor,
      s.commitSequence < id → WakesCalmly s))
  | .committer _ =>
    inferInstanceAs (Decidable (∀ t ∈ s.commits, s.size t < 64 ∧
      ∀ tid < n, ∀ id ∈ (s.threads tid).wokenFor, id ≤ s.commitSequence))
  | .dirtyMetadata _ | .timer | .flushBegin _ | .flushEnd _ => isTrue trivial

end Whitix.Jfs.Forced
