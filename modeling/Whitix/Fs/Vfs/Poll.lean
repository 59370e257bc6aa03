import Mathlib.Data.Int.Notation
import Whitix.Include.Wait
import Whitix.Support.Rings
import Whitix.Support.Run

/-!
# Polling

`SysPoll` of `fs/vfs/poll.c` puts an entry for each of its descriptors on the wait
queue of the descriptor, and removes the entries again before it frees them.  Other
threads use the same queues in `WAIT_ON`, and any thread or interrupt wakes up the
threads of a queue.

The list operations run with interrupts disabled, so each of them is one step, and the
steps of different threads are interleaved in any order.  Besides the links, the state
has the entries that belong on each queue: those that have been added and have neither
been woken up nor removed since.
-/

namespace Whitix.Poll

open Support Function List Option Nat

/-! ## The code -/

/-- A wait queue, an entry of `waitEntries`, or the entry that a thread defines in
`WAIT_ON`. -/
inductive Node
  | queue (q : ℕ)
  | poll (thread i : ℕ)
  | wait (thread : ℕ)
  deriving DecidableEq, Repr

section

variable (links : Links Node) (s : System) (thread : ℕ)

def pollAddWait (newQueue waitEntry : Node) : Links Node :=
  waitPrepareWait (links.remove waitEntry) newQueue waitEntry

/-- The loop of `WakeUpCommon` for at most `fuel` iterations. -/
def wakeUpLoop (head : Node) : ℕ → Links Node → ℤ → Node → Node → Option (Links Node)
  | 0, _, _, _, _ => none
  | fuel + 1, links, number, curr, curr2 =>
    if curr = head then some links
    else
      let links := links.removeInit curr
      if number - 1 = 0 then some links
      else wakeUpLoop head fuel links (number - 1) curr2 (links.next curr2)

def wakeUpCommon (waitQueue : Node) (number : ℤ) (fuel : ℕ) : Option (Links Node) :=
  if links.next waitQueue = waitQueue then some links
  else wakeUpLoop waitQueue fuel links number (links.next waitQueue)
    (links.next (links.next waitQueue))

/-! ## The threads -/

inductive Phase
  | idle
  | polling
  | cleaning
  deriving DecidableEq, Repr

/-- The local variables of `SysPoll`; `next` is the member `i` of `pollQueue`. -/
structure SysPoll where
  phase : Phase
  numFds : ℕ
  timeout : ℤ
  changed : ℕ
  i : ℕ
  next : ℕ
  waitQueues : ℕ → Option ℕ

structure System where
  links : Links Node
  poll : ℕ → SysPoll
  /-- The queue a thread waits on in `WAIT_ON`. -/
  waits : ℕ → Option ℕ
  /-- The entries that belong on each queue. -/
  queued : ℕ → List Node

def enqueue (queued : ℕ → List Node) (q : ℕ) (entry : Node) : ℕ → List Node :=
  update queued q (queued q ++ [entry])

def dequeue (queued : ℕ → List Node) (entry : Node) : ℕ → List Node :=
  fun q => (queued q).erase entry

def stillQueued : ℤ → List Node → List Node
  | _, [] => []
  | number, _ :: rest => if number - 1 = 0 then rest else stillQueued (number - 1) rest

inductive PollOp
  /-- `SysPoll` is called. -/
  | start (thread numFds : ℕ) (timeout : ℤ)
  /-- The next descriptor is polled.  Its poll function may call `PollAddWait`. -/
  | poll (thread : ℕ) (queue : Option ℕ) (ready : Bool)
  /-- All descriptors have been polled. -/
  | round (thread : ℕ)
  /-- The next entry is cleaned up. -/
  | clean (thread : ℕ)
  /-- The entries are freed. -/
  | free (thread : ℕ)
  /-- `WaitPrepareWait` in `WAIT_ON` -/
  | prepare (thread q : ℕ)
  /-- `WaitFinishWait` in `WAIT_ON` -/
  | finish (thread : ℕ)
  /-- `_WakeUp` -/
  | wake (q : ℕ) (number : ℤ) (fuel : ℕ)

def System.setPoll (p : SysPoll) : System :=
  { s with poll := update s.poll thread p }

def initEntries (links : Links Node) (thread : ℕ) : ℕ → Links Node
  | 0 => links
  | i + 1 => (initEntries links thread i).init (.poll thread i)

def startPoll (thread numFds : ℕ) (timeout : ℤ) : System :=
  { s.setPoll thread ⟨.polling, numFds, timeout, 0, 0, 0, fun _ => none⟩ with
    links := initEntries s.links thread numFds }

/-- `PollAddWait`, with the entry at `pollQueue->i`. -/
def addWait (thread q : ℕ) : System :=
  let p := s.poll thread
  { s.setPoll thread
      { p with
        waitQueues := update p.waitQueues p.next (some q)
        next := p.next + 1 } with
    links := pollAddWait s.links (.queue q) (.poll thread p.next)
    queued := enqueue (dequeue s.queued (.poll thread p.next)) q (.poll thread p.next) }

/-- The end of a turn of the loop over the descriptors. -/
def polled (ready : Bool) : System :=
  let p := s.poll thread
  s.setPoll thread { p with changed := p.changed + ready.toNat, i := p.i + 1 }

/-- The end of a turn of the outer loop; the second one is the last. -/
def endRound : System :=
  let p := s.poll thread
  if p.changed ≠ 0 ∨ p.timeout = 0 then
    s.setPoll thread { p with phase := .cleaning, i := 0 }
  else s.setPoll thread { p with timeout := 0, i := 0, next := 0 }

def cleanEntry : System :=
  let p := s.poll thread
  let s' := s.setPoll thread { p with i := p.i + 1 }
  if p.waitQueues p.i = none then s'
  else
    { s' with
      links := waitFinishWait s.links (.poll thread p.i)
      queued := dequeue s.queued (.poll thread p.i) }

/-- `WaitPrepareWait` with the entry of a thread, which is defined before the first
call. -/
def prepareWait (thread q : ℕ) : System :=
  let links := if s.waits thread = none then s.links.init (.wait thread) else s.links
  { s with
    links := waitPrepareWait links (.queue q) (.wait thread)
    waits := update s.waits thread (some q)
    queued :=
      if .wait thread ∈ s.queued q then s.queued
      else enqueue s.queued q (.wait thread) }

def finishWait : System :=
  { s with
    links := waitFinishWait s.links (.wait thread)
    waits := update s.waits thread none
    queued := dequeue s.queued (.wait thread) }

def pollStep : PollOp → Option System
  | .start thread numFds timeout =>
    if (s.poll thread).phase = .idle then some (startPoll s thread numFds timeout)
    else none
  | .poll thread queue ready =>
    let p := s.poll thread
    if p.phase = .polling ∧ p.i < p.numFds then
      match queue with
      | none => some (polled s thread ready)
      | some q => some (polled (addWait s thread q) thread ready)
    else none
  | .round thread =>
    let p := s.poll thread
    if p.phase = .polling ∧ p.i = p.numFds then some (endRound s thread) else none
  | .clean thread =>
    let p := s.poll thread
    if p.phase = .cleaning ∧ p.i < p.numFds then some (cleanEntry s thread) else none
  | .free thread =>
    let p := s.poll thread
    if p.phase = .cleaning ∧ p.i = p.numFds then
      some (s.setPoll thread { p with phase := .idle })
    else none
  | .prepare thread q =>
    if s.waits thread = none ∨ s.waits thread = some q then
      some (prepareWait s thread q)
    else none
  | .finish thread =>
    if s.waits thread = none then none else some (finishWait s thread)
  | .wake q number fuel =>
    (wakeUpCommon s.links (.queue q) number fuel).map fun links =>
      { s with
        links := links
        queued := update s.queued q (stillQueued number (s.queued q)) }

end

variable (s : System)

/-- No thread waits or polls yet, and the wait queues have been initialised. -/
structure System.Initial : Prop where
  idle : ∀ thread, (s.poll thread).phase = .idle
  waits : ∀ thread, s.waits thread = none
  queued : ∀ q, s.queued q = []
  queues : ∀ q, SelfLinked s.links (.queue q)

/-! ## Links and queues -/

/-- The links of the queues are those of the entries that belong on them, and an entry
in use that is on no queue is linked to itself. -/
structure Linkage (links : Links Node) (queued : ℕ → List Node) (live : Node → Prop) : Prop where
  rings : Rings links Node.queue queued
  queues : ∀ q, ¬ live (.queue q)
  inUse : ∀ q, ∀ entry ∈ queued q, live entry
  self : ∀ entry, live entry → (∀ q, entry ∉ queued q) → SelfLinked links entry

variable {x : Node} {number : ℤ} {q fuel : ℕ} {links' : Links Node} {p : SysPoll} {s' : System}
  {op : PollOp}

section

variable {links : Links Node} {queued : ℕ → List Node} {live live' : Node → Prop} {entry : Node}

section

variable (h : Linkage links queued live)
include h

theorem Linkage.outside {queued : ℕ → List Node} (hlive : live entry)
    (hout : ∀ q, entry ∉ queued q) : Outside Node.queue queued entry :=
  outside_iff.mpr ⟨fun q heq => h.queues q (heq ▸ hlive), hout⟩

theorem Linkage.next_eq_iff (hlive : live entry) :
    links.next entry = entry ↔ ∀ q, entry ∉ queued q := by
  constructor
  · intro hnext q hmem
    exact (h.rings.circular q).next_ne_self hmem hnext
  · intro hout
    exact (h.self entry hlive hout).1

theorem Linkage.congr (hqueues : ∀ q, ¬ live' (.queue q))
    (hqueued : ∀ q, ∀ entry ∈ queued q, live' entry)
    (hself : ∀ entry, live' entry → live entry ∨ SelfLinked links entry) :
    Linkage links queued live' := by
  refine ⟨h.rings, hqueues, hqueued, ?_⟩
  intro entry hlive hout
  rcases hself entry hlive with hold | hself
  · exact h.self entry hold hout
  · exact hself

end

@[simp] theorem mem_enqueue {j : ℕ} :
    x ∈ enqueue queued q entry j ↔ x ∈ queued j ∨ (x = entry ∧ j = q) := by
  by_cases hj : j = q
  · subst hj
    simp [enqueue]
  · simp [enqueue, hj]

theorem mem_dequeue_of_ne (hne : x ≠ entry) (q : ℕ) : x ∈ dequeue queued entry q ↔ x ∈ queued q :=
  mem_erase_of_ne hne

theorem Linkage.addTail (h : Linkage links queued live) (hlive : live entry)
    (hout : ∀ q, entry ∉ queued q) (q : ℕ) :
    Linkage (links.addTail entry (.queue q)) (enqueue queued q entry) live := by
  refine ⟨h.rings.addTail (h.outside hlive hout) q, h.queues, ?_, ?_⟩
  · intro j x hx
    rcases mem_enqueue.mp hx with hx | ⟨rfl, -⟩
    · exact h.inUse j x hx
    · exact hlive
  · intro x hx hnot
    simp only [mem_enqueue, not_or] at hnot
    have hxout : ∀ j, x ∉ queued j := fun j => (hnot j).1
    have hne : x ≠ entry := fun heq => (hnot q).2 ⟨heq, rfl⟩
    exact h.rings.selfLinked_addTail (h.outside hx hxout) hne (h.self x hx hxout)

theorem Linkage.removeInit (h : Linkage links queued live) (hmem : entry ∈ queued q) :
    Linkage (links.removeInit entry) (dequeue queued entry) live := by
  refine ⟨h.rings.removeInit hmem, h.queues, ?_, ?_⟩
  · intro j x hx
    exact h.inUse j x (mem_of_mem_erase hx)
  · intro x hx hnot
    refine h.rings.selfLinked_removeInit hmem (h.outside hx hnot) fun hout => ?_
    exact h.self x hx (outside_iff.mp hout).2

theorem dequeue_of_not_mem (hout : ∀ q, entry ∉ queued q) : dequeue queued entry = queued := by
  funext q
  exact erase_of_not_mem (hout q)

section

variable (h : Linkage links queued live)
include h

theorem Linkage.not_mem_dequeue (q : ℕ) : entry ∉ dequeue queued entry q :=
  (nodup_cons.mp (h.rings.circular q).nodup).2.not_mem_erase

/-! ## The list operations of the threads -/

section

variable (hlive : live entry)
include hlive

theorem Linkage.waitFinishWait :
    Linkage (waitFinishWait links entry) (dequeue queued entry) live := by
  unfold Whitix.waitFinishWait
  by_cases hnext : links.next entry = entry
  · rw [if_neg (not_not_intro hnext), dequeue_of_not_mem ((h.next_eq_iff hlive).mp hnext)]
    exact h
  · rw [if_pos hnext]
    have hmem := mt (h.next_eq_iff hlive).mpr hnext
    push Not at hmem
    obtain ⟨q, hq⟩ := hmem
    exact h.removeInit hq

theorem Linkage.waitPrepareWait (honly : ∀ j, entry ∈ queued j → j = q) :
    Linkage (waitPrepareWait links (.queue q) entry)
      (if entry ∈ queued q then queued else enqueue queued q entry) live := by
  unfold Whitix.waitPrepareWait
  by_cases hmem : entry ∈ queued q
  · have hnext := mt (h.next_eq_iff hlive).mp fun hout => hout q hmem
    rw [if_neg hnext, if_pos hmem]
    exact h
  · have hout : ∀ j, entry ∉ queued j := fun j hj => hmem (honly j hj ▸ hj)
    rw [if_pos ((h.next_eq_iff hlive).mpr hout), if_neg hmem]
    exact h.addTail hlive hout q

theorem Linkage.pollAddWait (hnext : links.next entry = entry) (q : ℕ) :
    Linkage (pollAddWait links (.queue q) entry) (enqueue (dequeue queued entry) q entry) live := by
  have hout := (h.next_eq_iff hlive).mp hnext
  unfold Poll.pollAddWait Whitix.waitPrepareWait
  rw [(h.self entry hlive hout).remove, if_pos hnext, dequeue_of_not_mem hout]
  exact h.addTail hlive hout q

end

theorem Linkage.wakeUpLoop (hrun : wakeUpLoop (.queue q) fuel links number (links.next (.queue q))
      (links.next (links.next (.queue q))) = some links') :
    Linkage links' (update queued q (stillQueued number (queued q))) live := by
  induction fuel generalizing links queued number with
  | zero => cases hrun
  | succ fuel ih =>
    rw [Poll.wakeUpLoop] at hrun
    have hcirc := h.rings.circular q
    cases hq : queued q with
    | nil =>
      rw [hq] at hcirc
      rw [if_pos hcirc.path.1] at hrun
      cases hrun
      rw [stillQueued, ← hq, update_eq_self]
      exact h
    | cons curr rest =>
      rw [hq] at hcirc
      have hcurr : links.next (.queue q) = curr := hcirc.path.1
      have hne : curr ≠ .queue q := by
        rintro rfl
        exact (nodup_cons.mp hcirc.nodup).1 mem_cons_self
      have hmem : curr ∈ queued q := hq ▸ mem_cons_self
      have hlink := h.removeInit hmem
      have hrest : dequeue queued curr = update queued q rest := by
        funext j
        by_cases hj : j = q
        · subst hj
          rw [update_self, dequeue, hq, erase_cons_head]
        · rw [update_of_ne hj]
          refine erase_of_not_mem fun hjmem => ?_
          exact h.rings.disjoint q j (Ne.symm hj) curr
            (mem_cons_of_mem _ hmem) (mem_cons_of_mem _ hjmem)
      rw [hcurr, if_neg hne] at hrun
      rw [stillQueued]
      split at hrun
      · next hlast =>
        cases hrun
        rw [if_pos hlast, ← hrest]
        exact hlink
      · next hlast =>
        -- the saved successor is the first entry of the shorter queue
        have hsecond : links.next curr = (links.removeInit curr).next (.queue q) := by
          have hprev : links.prev curr = .queue q := hcirc.path.2.1
          rw [Links.removeInit, Links.init_next_of_ne hne.symm, ← hprev, Links.remove_next_prev]
        rw [hsecond] at hrun
        have hdone := ih hlink hrun
        rw [hrest, update_self, update_idem] at hdone
        rw [if_neg hlast]
        exact hdone

theorem Linkage.wakeUpCommon (hrun : wakeUpCommon links (.queue q) number fuel = some links') :
    Linkage links' (update queued q (stillQueued number (queued q))) live := by
  unfold Poll.wakeUpCommon at hrun
  split at hrun
  · next hempty =>
    obtain rfl := some.inj hrun
    have hcirc := h.rings.circular q
    have hnil : queued q = [] := by
      cases hq : queued q with
      | nil => rfl
      | cons curr rest =>
        rw [hq] at hcirc
        have hcurr : links.next (.queue q) = curr := hcirc.path.1
        rw [hempty] at hcurr
        exact absurd (hcurr ▸ mem_cons_self) (nodup_cons.mp hcirc.nodup).1
    rw [hnil, stillQueued, ← hnil, update_eq_self]
    exact h
  · exact h.wakeUpLoop hrun

end

end

/-! ## The invariant -/

/-- The entries that have been initialised and not been freed. -/
def Live : Node → Prop
  | .queue _ => False
  | .poll thread i => (s.poll thread).phase ≠ .idle ∧ i < (s.poll thread).numFds
  | .wait thread => s.waits thread ≠ none

structure PollInv : Prop where
  linkage : Linkage s.links s.queued (Live s)
  waits : ∀ thread q, .wait thread ∈ s.queued q → s.waits thread = some q
  entries : ∀ thread i q, .poll thread i ∈ s.queued q → (s.poll thread).waitQueues i ≠ none ∧
      ((s.poll thread).phase = .cleaning → (s.poll thread).i ≤ i)
  counts : ∀ thread, (s.poll thread).phase = .polling →
    (s.poll thread).next ≤ (s.poll thread).i ∧ (s.poll thread).i ≤ (s.poll thread).numFds

/-- `PollAddWait` is called with an entry that is on no queue: in the first round, or
after the entry has been woken up. -/
def FreshEntry : PollOp → Prop
  | .poll thread (some _) _ =>
    s.links.next (.poll thread (s.poll thread).next) = .poll thread (s.poll thread).next
  | _ => True

instance : ∀ op, Decidable (FreshEntry s op)
  | .poll _ (some _) _ => inferInstanceAs (Decidable (_ = _))
  | .poll _ none _ | .start _ _ _ | .round _ | .clean _ | .free _ | .prepare _ _ => isTrue trivial
  | .finish _ | .wake _ _ _ => isTrue trivial

@[simp] theorem poll_setPoll (thread t : ℕ) (p : SysPoll) :
    (s.setPoll thread p).poll t = if t = thread then p else s.poll t :=
  update_apply _ _ _ _

variable {s : System} {thread : ℕ}

variable {links : Links Node} {queued : ℕ → List Node} {entry : Node} {live : Node → Prop}

section

variable (h : PollInv s)
  (hothers : ∀ entry q, (∀ i, entry ≠ .poll thread i) → entry ∈ queued q → entry ∈ s.queued q)
  (hentries : ∀ i q, .poll thread i ∈ queued q →
    p.waitQueues i ≠ none ∧ (p.phase = .cleaning → p.i ≤ i))
  (hcounts : p.phase = .polling → p.next ≤ p.i ∧ p.i ≤ p.numFds)
include h hothers hentries hcounts

theorem PollInv.setPoll (hlinkage : Linkage links queued
    (Live { s.setPoll thread p with links := links, queued := queued })) :
    PollInv { s.setPoll thread p with links := links, queued := queued } := by
  refine ⟨hlinkage, ?_, ?_, ?_⟩
  · intro t q hmem
    exact h.waits t q (hothers _ q (fun i => nofun) hmem)
  · intro t i q hmem
    simp only [poll_setPoll]
    split
    · next ht =>
      subst ht
      exact hentries i q hmem
    · next ht =>
      refine h.entries t i q (hothers _ q ?_ hmem)
      exact fun j heq => ht (Node.poll.inj heq).1
  · intro t
    simp only [poll_setPoll]
    split
    · exact hcounts
    · exact h.counts t

theorem PollInv.step (hlinkage : Linkage links queued (Live s)) (hphase : p.phase ≠ .idle)
    (hold : (s.poll thread).phase ≠ .idle) (hnum : p.numFds = (s.poll thread).numFds) :
    PollInv { s.setPoll thread p with links := links, queued := queued } := by
  have hlive : Live { s.setPoll thread p with links := links, queued := queued } = Live s := by
    funext entry
    cases entry with
    | queue q | wait t => rfl
    | poll t i =>
      simp only [Live, poll_setPoll]
      split
      · next ht =>
        rw [ht, hnum]
        exact propext ⟨fun h => ⟨hold, h.2⟩, fun h => ⟨hphase, h.2⟩⟩
      · rfl
  exact h.setPoll hothers hentries hcounts (hlive ▸ hlinkage)

end

theorem Linkage.init (h : Linkage links queued live) (hout : Outside Node.queue queued entry) :
    Linkage (links.init entry) queued live := by
  refine ⟨h.rings.init hout, h.queues, h.inUse, ?_⟩
  intro x hx hnot
  exact (h.self x hx hnot).init_of_self

theorem Linkage.initEntries (h : Linkage links queued live)
    (hout : ∀ i q, .poll thread i ∉ queued q) (count : ℕ) :
    Linkage (initEntries links thread count) queued live ∧
      ∀ i < count, SelfLinked (initEntries links thread count) (.poll thread i) := by
  induction count with
  | zero => exact ⟨h, fun i hi => absurd hi (not_lt_zero i)⟩
  | succ count ih =>
    obtain ⟨hlink, hself⟩ := ih
    constructor
    · exact hlink.init (outside_iff.mpr ⟨nofun, hout count⟩)
    · intro i hi
      obtain hlt | rfl := Nat.lt_succ_iff_lt_or_eq.mp hi
      · exact (hself i hlt).init_of_self
      · exact SelfLinked.init _ _

theorem stillQueued_sublist (number : ℤ) (xs : List Node) : (stillQueued number xs).Sublist xs := by
  induction xs generalizing number with
  | nil => exact List.Sublist.refl _
  | cons x xs ih =>
    rw [stillQueued]
    split
    · exact sublist_cons_self x xs
    · exact (ih (number - 1)).cons x

/-! ## The steps -/

section

variable (h : PollInv s)
include h

theorem PollInv.outside (hlinkage : Linkage links s.queued (Live s))
    (hout : ∀ i q, .poll thread i ∉ s.queued q)
    (hself : p.phase ≠ .idle → ∀ i < p.numFds, SelfLinked links (.poll thread i))
    (hcounts : p.phase = .polling → p.next ≤ p.i ∧ p.i ≤ p.numFds) :
    PollInv { s.setPoll thread p with links := links } := by
  refine h.setPoll (fun _ _ _ hmem => hmem) (fun i q hmem => absurd hmem (hout i q)) hcounts
    (hlinkage.congr (fun q => id) ?_ ?_)
  · intro q entry hmem
    have hlive := hlinkage.inUse q entry hmem
    cases entry with
    | queue _ | wait _ => exact hlive
    | poll t i =>
      have ht : t ≠ thread := fun ht => hout i q (ht ▸ hmem)
      simp only [Live, poll_setPoll, if_neg ht]
      exact hlive
  · intro entry hlive
    cases entry with
    | queue _ | wait _ => exact .inl hlive
    | poll t i =>
      simp only [Live, poll_setPoll] at hlive
      split at hlive
      · next ht => exact .inr (ht ▸ hself hlive.1 i hlive.2)
      · exact .inl hlive

theorem PollInv.startPoll (hidle : (s.poll thread).phase = .idle) (numFds : ℕ) (timeout : ℤ) :
    PollInv (startPoll s thread numFds timeout) := by
  have hout : ∀ i q, .poll thread i ∉ s.queued q :=
    fun i q hmem => (h.linkage.inUse q _ hmem).1 hidle
  obtain ⟨hlink, hself⟩ := h.linkage.initEntries hout numFds
  exact h.outside hlink hout (fun _ => hself) fun _ => ⟨Nat.le_refl _, Nat.zero_le _⟩

section

variable (hphase : (s.poll thread).phase = .polling)
include hphase

theorem PollInv.polled (hlt : (s.poll thread).i < (s.poll thread).numFds) (ready : Bool) :
    PollInv (polled s thread ready) := by
  have hbusy : (s.poll thread).phase ≠ .idle := hphase ▸ nofun
  refine h.step (fun _ _ _ hmem => hmem) ?_ ?_ h.linkage hbusy hbusy rfl
  · intro i q hmem
    refine ⟨(h.entries thread i q hmem).1, fun hclean => ?_⟩
    cases hphase.symm.trans hclean
  · intro _
    exact ⟨le_succ_of_le (h.counts thread hphase).1, hlt⟩

theorem PollInv.addWait (hlt : (s.poll thread).i < (s.poll thread).numFds) (q : ℕ) (ready : Bool)
    (hfresh : FreshEntry s (.poll thread (some q) ready)) :
    PollInv (Poll.polled (addWait s thread q) thread ready) := by
  have hbusy : (s.poll thread).phase ≠ .idle := hphase ▸ nofun
  have hnext := (h.counts thread hphase).1
  have hlive : Live s (.poll thread (s.poll thread).next) :=
    ⟨hbusy, Nat.lt_of_le_of_lt hnext hlt⟩
  have hlink := h.linkage.pollAddWait hlive hfresh q
  have hmem : ∀ entry j, entry ≠ .poll thread (s.poll thread).next →
      entry ∈ enqueue (dequeue s.queued (.poll thread (s.poll thread).next)) q
        (.poll thread (s.poll thread).next) j → entry ∈ s.queued j := by
    intro entry j hne hentry
    have hkept := (mem_enqueue.mp hentry).resolve_right fun heq => hne heq.1
    exact (mem_dequeue_of_ne hne j).mp hkept
  have hstep := h.step (p := { s.poll thread with
      waitQueues := update (s.poll thread).waitQueues (s.poll thread).next (some q)
      next := (s.poll thread).next + 1
      changed := (s.poll thread).changed + ready.toNat
      i := (s.poll thread).i + 1 }) ?_ ?_ ?_ hlink hbusy hbusy rfl
  · unfold Poll.polled Poll.addWait
    simp only [System.setPoll, update_self, update_idem] at hstep ⊢
    exact hstep
  · intro entry j hne
    exact hmem entry j (hne _)
  · intro i j hentry
    refine ⟨?_, fun hclean => by cases hphase.symm.trans hclean⟩
    by_cases hi : i = (s.poll thread).next
    · simp [hi]
    · simp only [update_of_ne hi]
      refine (h.entries thread i j (hmem _ j ?_ hentry)).1
      exact fun heq => hi (Node.poll.inj heq).2
  · intro _
    exact ⟨succ_le_succ hnext, hlt⟩

theorem PollInv.endRound : PollInv (endRound s thread) := by
  have hbusy : (s.poll thread).phase ≠ .idle := hphase ▸ nofun
  unfold Poll.endRound
  simp only
  split
  · refine h.step (fun _ _ _ hmem => hmem) ?_ nofun h.linkage nofun hbusy rfl
    intro i q hmem
    exact ⟨(h.entries thread i q hmem).1, fun _ => zero_le i⟩
  · refine h.step (fun _ _ _ hmem => hmem) ?_ ?_ h.linkage hbusy hbusy rfl
    · intro i q hmem
      exact ⟨(h.entries thread i q hmem).1, fun _ => zero_le i⟩
    · exact fun _ => ⟨Nat.le_refl _, Nat.zero_le _⟩

end

section

variable (hphase : (s.poll thread).phase = .cleaning)
include hphase

theorem PollInv.cleanEntry (hlt : (s.poll thread).i < (s.poll thread).numFds) :
    PollInv (cleanEntry s thread) := by
  have hbusy : (s.poll thread).phase ≠ .idle := hphase ▸ nofun
  have hpolling : (s.poll thread).phase ≠ .polling := hphase ▸ nofun
  unfold Poll.cleanEntry
  simp only
  split
  · next hnone =>
    refine h.step (fun _ _ _ hmem => hmem) ?_ (fun hp => absurd hp hpolling)
      h.linkage hbusy hbusy rfl
    intro i q hmem
    obtain ⟨hqueue, hle⟩ := h.entries thread i q hmem
    refine ⟨hqueue, fun _ => Nat.lt_of_le_of_ne (hle hphase) ?_⟩
    rintro rfl
    exact hqueue hnone
  · have hlive : Live s (.poll thread (s.poll thread).i) := ⟨hbusy, hlt⟩
    refine h.step ?_ ?_ (fun hp => absurd hp hpolling)
      (h.linkage.waitFinishWait hlive) hbusy hbusy rfl
    · intro entry q hne hmem
      exact mem_of_mem_erase hmem
    · intro i q hmem
      obtain ⟨hqueue, hle⟩ := h.entries thread i q (mem_of_mem_erase hmem)
      refine ⟨hqueue, fun _ => Nat.lt_of_le_of_ne (hle hphase) ?_⟩
      rintro rfl
      exact h.linkage.not_mem_dequeue q hmem

theorem PollInv.not_queued_of_cleaned (hdone : (s.poll thread).i = (s.poll thread).numFds)
    (i q : ℕ) : .poll thread i ∉ s.queued q := by
  intro hmem
  have hlt := (h.linkage.inUse q _ hmem).2
  have hle := (h.entries thread i q hmem).2 hphase
  omega

theorem PollInv.free (hdone : (s.poll thread).i = (s.poll thread).numFds) :
    PollInv (s.setPoll thread { s.poll thread with phase := .idle }) :=
  h.outside h.linkage (h.not_queued_of_cleaned hphase hdone) (fun h => absurd rfl h) nofun

end

theorem PollInv.others {waits : ℕ → Option ℕ}
    (hlinkage : Linkage links queued (Live { s with waits := waits }))
    (hwaits : ∀ thread q, .wait thread ∈ queued q → waits thread = some q)
    (hpolls : ∀ thread i q, .poll thread i ∈ queued q → .poll thread i ∈ s.queued q) :
    PollInv ⟨links, s.poll, waits, queued⟩ := by
  refine ⟨hlinkage, hwaits, ?_, h.counts⟩
  intro thread i q hmem
  exact h.entries thread i q (hpolls thread i q hmem)

end

theorem live_setWaits (s : System) (thread : ℕ) (queue : Option ℕ) (entry : Node) :
    Live { s with waits := update s.waits thread queue } entry ↔
      if entry = .wait thread then queue ≠ none else Live s entry := by
  cases entry with
  | queue _ | poll _ _ => rw [if_neg nofun]; rfl
  | wait t =>
    by_cases ht : t = thread
    · simp [Live, ht]
    · simp [Live, ht]

section

variable (h : PollInv s)
include h

theorem PollInv.prepared (thread q : ℕ) :
    Linkage (if s.waits thread = none then s.links.init (.wait thread) else s.links)
      s.queued (Live { s with waits := update s.waits thread (some q) }) := by
  have hbase : Linkage (if s.waits thread = none then s.links.init (.wait thread) else s.links)
      s.queued (Live s) ∧ (Live s (.wait thread) ∨ SelfLinked
        (if s.waits thread = none then s.links.init (.wait thread) else s.links)
        (.wait thread)) := by
    split
    · next hnone =>
      refine ⟨h.linkage.init (outside_iff.mpr ⟨nofun, fun j hmem => ?_⟩),
        .inr (SelfLinked.init _ _)⟩
      cases hnone.symm.trans (h.waits thread j hmem)
    · next hsome => exact ⟨h.linkage, .inl hsome⟩
  refine hbase.1.congr (fun j => id) ?_ ?_
  · intro j entry hmem
    rw [live_setWaits]
    split
    · exact some_ne_none q
    · exact h.linkage.inUse j entry hmem
  · intro entry hlive
    rw [live_setWaits] at hlive
    split at hlive
    · next heq => exact heq ▸ hbase.2
    · exact .inl hlive

theorem PollInv.prepareWait (hwaits : s.waits thread = none ∨ s.waits thread = some q) :
    PollInv (prepareWait s thread q) := by
  have honly : ∀ j, .wait thread ∈ s.queued j → j = q := by
    intro j hmem
    have hj := h.waits thread j hmem
    rcases hwaits with hnone | hsome
    · cases hnone.symm.trans hj
    · exact (some.inj (hsome.symm.trans hj)).symm
  have hlive : Live { s with waits := update s.waits thread (some q) } (.wait thread) := by
    simp [Live]
  have hmem : ∀ entry j, entry ∈ (if .wait thread ∈ s.queued q then s.queued
      else enqueue s.queued q (.wait thread)) j →
        entry ∈ s.queued j ∨ (entry = .wait thread ∧ j = q) := by
    intro entry j hentry
    split at hentry
    · exact .inl hentry
    · exact mem_enqueue.mp hentry
  refine h.others ((h.prepared thread q).waitPrepareWait hlive honly) ?_ ?_
  · intro t j hentry
    rw [update_apply]
    rcases hmem _ j hentry with hold | ⟨heq, rfl⟩
    · split
      · next ht => rw [honly j (ht ▸ hold)]
      · exact h.waits t j hold
    · rw [if_pos (Node.wait.inj heq)]
  · intro t i j hentry
    exact (hmem _ j hentry).resolve_right nofun

theorem PollInv.finishWait (hwaits : s.waits thread ≠ none) : PollInv (finishWait s thread) := by
  have hlive : Live s (.wait thread) := hwaits
  have hlink := h.linkage.waitFinishWait hlive
  have hgone : ∀ entry q, entry ∈ dequeue s.queued (.wait thread) q → entry ≠ .wait thread := by
    rintro entry q hmem rfl
    exact h.linkage.not_mem_dequeue q hmem
  refine h.others (hlink.congr (fun q => id) ?_ ?_) ?_ fun t i q hmem => mem_of_mem_erase hmem
  · intro q entry hmem
    rw [live_setWaits, if_neg (hgone entry q hmem)]
    exact hlink.inUse q entry hmem
  · intro entry hentry
    rw [live_setWaits] at hentry
    split at hentry
    · exact absurd rfl hentry
    · exact .inl hentry
  · intro t q hmem
    have ht : t ≠ thread := fun ht => hgone _ q hmem (ht ▸ rfl)
    rw [update_of_ne ht]
    exact h.waits t q (mem_of_mem_erase hmem)

theorem PollInv.wake (hrun : wakeUpCommon s.links (.queue q) number fuel = some links) :
    PollInv { s with
      links := links
      queued := update s.queued q (stillQueued number (s.queued q)) } := by
  have hsub : ∀ entry j, entry ∈ update s.queued q (stillQueued number (s.queued q)) j →
        entry ∈ s.queued j := by
    intro entry j hentry
    by_cases hj : j = q
    · subst hj
      rw [update_self] at hentry
      exact (stillQueued_sublist number _).subset hentry
    · rwa [update_of_ne hj] at hentry
  refine h.others (h.linkage.wakeUpCommon hrun) ?_ ?_
  · intro thread j hmem
    exact h.waits thread j (hsub _ j hmem)
  · intro thread i j hmem
    exact hsub _ j hmem

theorem PollInv.pollStep (hfresh : FreshEntry s op)
    (hstep : pollStep s op = some s') : PollInv s' := by
  cases op with
  | start thread numFds timeout =>
    obtain ⟨hidle, heq⟩ := ite_none_right_eq_some.mp hstep
    exact some.inj heq ▸ h.startPoll hidle numFds timeout
  | poll thread queue ready =>
    obtain ⟨⟨hphase, hlt⟩, heq⟩ := ite_none_right_eq_some.mp hstep
    cases queue with
    | none => exact some.inj heq ▸ h.polled hphase hlt ready
    | some q => exact some.inj heq ▸ h.addWait hphase hlt q ready hfresh
  | round thread =>
    obtain ⟨⟨hphase, -⟩, heq⟩ := ite_none_right_eq_some.mp hstep
    exact some.inj heq ▸ h.endRound hphase
  | clean thread =>
    obtain ⟨⟨hphase, hlt⟩, heq⟩ := ite_none_right_eq_some.mp hstep
    exact some.inj heq ▸ h.cleanEntry hphase hlt
  | free thread =>
    obtain ⟨⟨hphase, hdone⟩, heq⟩ := ite_none_right_eq_some.mp hstep
    exact some.inj heq ▸ h.free hphase hdone
  | prepare thread q =>
    obtain ⟨hwaits, heq⟩ := ite_none_right_eq_some.mp hstep
    exact some.inj heq ▸ h.prepareWait hwaits
  | finish thread =>
    obtain ⟨hwaits, heq⟩ := ite_none_left_eq_some.mp hstep
    exact some.inj heq ▸ h.finishWait hwaits
  | wake q number fuel =>
    obtain ⟨links, hrun, rfl⟩ := map_eq_some_iff.mp hstep
    exact h.wake hrun

end

/-! ## Runs -/

def Linked (links : Links Node) (q : ℕ) (entry : Node) : Prop :=
  ∃ xs, Circular links (.queue q) xs ∧ entry ∈ xs

/-- Every queue is a circular list of the entries that belong on it, and the entries of
a call of `SysPoll` are on no queue when it frees them. -/
structure QueuesSound (s : System) : Prop where
  circular : ∀ q, Circular s.links (.queue q) (s.queued q)
  freed : ∀ thread, (s.poll thread).phase = .cleaning → (s.poll thread).i = (s.poll thread).numFds →
      ∀ i q, ¬ Linked s.links q (.poll thread i)

def PollOp.Of (thread : ℕ) : PollOp → Prop
  | .start t _ _ => t = thread
  | .poll t _ _ => t = thread
  | .round t => t = thread
  | .clean t => t = thread
  | .free t => t = thread
  | _ => False

theorem PollInv.linked_iff (h : PollInv s) : Linked s.links q entry ↔ entry ∈ s.queued q := by
  have hcirc := h.linkage.rings.circular q
  constructor
  · rintro ⟨xs, hxs, hmem⟩
    rwa [hcirc.unique hxs]
  · intro hmem
    exact ⟨s.queued q, hcirc, hmem⟩

theorem PollInv.queuesSound (h : PollInv s) : QueuesSound s := by
  refine ⟨h.linkage.rings.circular, ?_⟩
  intro thread hphase hdone i q hlinked
  exact h.not_queued_of_cleaned hphase hdone i q (h.linked_iff.mp hlinked)

/-- `SysPoll` takes no entries but its own off the queues. -/
theorem queued_of_pollStep (hop : op.Of thread) (hentry : ∀ i, entry ≠ .poll thread i)
    (hstep : pollStep s op = some s') (hmem : entry ∈ s.queued q) : entry ∈ s'.queued q := by
  cases op with
  | start t numFds timeout | free t =>
    obtain ⟨-, heq⟩ := ite_none_right_eq_some.mp hstep
    exact some.inj heq ▸ hmem
  | poll t queue ready =>
    obtain rfl : t = thread := hop
    obtain ⟨-, heq⟩ := ite_none_right_eq_some.mp hstep
    cases queue with
    | none => exact some.inj heq ▸ hmem
    | some newQueue =>
      cases heq
      have hkept := (mem_dequeue_of_ne (hentry (s.poll t).next) q).mpr hmem
      exact mem_enqueue.mpr (.inl hkept)
  | round t =>
    obtain ⟨-, heq⟩ := ite_none_right_eq_some.mp hstep
    cases heq
    unfold endRound
    simp only
    split <;> exact hmem
  | clean t =>
    obtain rfl : t = thread := hop
    obtain ⟨-, heq⟩ := ite_none_right_eq_some.mp hstep
    cases heq
    unfold cleanEntry
    simp only
    split
    · exact hmem
    · exact (mem_dequeue_of_ne (hentry _) q).mpr hmem
  | prepare _ _ | finish _ | wake _ _ _ => exact hop.elim

theorem System.Initial.pollInv (h : s.Initial) : PollInv s := by
  have hidle : ∀ thread, (s.poll thread).phase ≠ .polling := by
    intro thread
    rw [h.idle thread]
    exact nofun
  have hrings : Rings s.links Node.queue s.queued := by
    constructor
    · intro q
      rw [h.queued q]
      exact ⟨h.queues q, nodup_singleton _⟩
    · intro q j hne x hx hxj
      rw [h.queued, mem_singleton] at hx hxj
      exact hne (Node.queue.inj (hx.symm.trans hxj))
  have hempty : ∀ {entry q}, entry ∉ s.queued q := fun hmem => by
    rw [h.queued] at hmem
    cases hmem
  constructor
  case linkage =>
    refine ⟨hrings, fun q => id, fun q entry hmem => absurd hmem hempty, ?_⟩
    · intro entry hlive
      cases entry with
      | queue _ => exact hlive.elim
      | poll t i => exact absurd (h.idle t) hlive.1
      | wait t => exact absurd (h.waits t) hlive
  case waits => exact fun thread q hmem => absurd hmem hempty
  case entries => exact fun thread i q hmem => absurd hmem hempty
  case counts => exact fun thread hphase => absurd hphase (hidle thread)

/-- Polling and waiting threads keep the queues sound as long as `PollAddWait` is not
called with an entry that is still on a queue. -/
theorem queuesSound_of_fresh
    {s₀ s : System} (hinit : s₀.Initial) (h : Reach pollStep FreshEntry s₀ s) :
    QueuesSound s ∧ ∀ op s' thread, FreshEntry s op → pollStep s op = some s' → op.Of thread →
      ∀ q entry, (∀ i, entry ≠ .poll thread i) →
        Linked s.links q entry → Linked s'.links q entry := by
  have hinv : PollInv s := by
    refine Reach.invariant hinit.pollInv ?_ h
    exact fun s op s' hs hfresh hstep => hs.pollStep hfresh hstep
  refine ⟨hinv.queuesSound, ?_⟩
  intro op s' thread hfresh hstep hop q entry hentry hlinked
  have hinv' := hinv.pollStep hfresh hstep
  have hmem := hinv.linked_iff.mp hlinked
  exact hinv'.linked_iff.mpr (queued_of_pollStep hop hentry hstep hmem)

def idleSystem : System where
  links := ⟨id, id⟩
  poll := fun _ => ⟨.idle, 0, 0, 0, 0, 0, fun _ => none⟩
  waits := fun _ => none
  queued := fun _ => []

theorem idleSystem_initial : idleSystem.Initial :=
  ⟨fun _ => rfl, fun _ => rfl, fun _ => rfl, fun _ => ⟨rfl, rfl⟩⟩

/-- A thread polls two descriptors, is woken up by both and polls them again, while
another thread waits on the first queue. -/
theorem queuesSound_of_fresh_two :
    ∃ s, Reach pollStep FreshEntry idleSystem s ∧
      s.queued 0 = [.wait 8, .poll 7 0] ∧ QueuesSound s := by
  obtain ⟨s, hreach, hend⟩ := exists_reach pollStep FreshEntry idleSystem
    [.start 7 2 (-1), .poll 7 (some 0) false, .poll 7 (some 1) false, .round 7, .prepare 8 0,
      .wake 0 1 9, .wake 1 0 9, .poll 7 (some 0) true]
    (fun s => s.queued 0 = [.wait 8, .poll 7 0]) (by decide +kernel)
  exact ⟨s, hreach, hend, (queuesSound_of_fresh idleSystem_initial hreach).1⟩

/-- A thread polls a descriptor twice, since its timeout runs out, and then removes
the entry of a thread that has begun to wait in the meantime. -/
theorem not_queuesSound_timeout :
    ∃ s, Reach pollStep (fun _ _ => True) idleSystem s ∧ ¬ QueuesSound s := by
  obtain ⟨s, hs, hqueued, hnext⟩ := exists_reach pollStep (fun _ _ => True) idleSystem
    [.start 7 1 100, .poll 7 (some 0) false, .round 7, .poll 7 (some 0) false, .prepare 8 0,
      .round 7, .clean 7]
    (fun s => s.queued 0 = [.wait 8] ∧ s.links.next (.queue 0) = .queue 0) (by decide +kernel)
  refine ⟨s, hs, fun hsound => ?_⟩
  have hcirc := hsound.circular 0
  rw [hqueued] at hcirc
  cases hnext.symm.trans hcirc.path.1

end Whitix.Poll
