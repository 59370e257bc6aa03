import Mathlib.Data.Int.Notation
import Mathlib.Data.List.Count
import Mathlib.Data.List.Nodup
import Mathlib.Data.List.Perm.Basic
import Whitix.Include.Task
import Whitix.Support.Run

/-!
# Threads and the number of running threads

`nrRunning` is incremented when a thread is started, and decremented when a
thread is suspended and when a thread is freed.  A thread that exits is marked
as dying; it is freed when its last reference is released, or by the scheduler
if it is the current thread.  The idle task is not on the list of threads.

A record of the model has one field that the source does not have: whether a
dying thread was runnable when it began to die.
-/

namespace Whitix.Threads

open Support Function List Option

structure Thread where
  state : ThreadState
  refs : ℤ
  parent : Option ℕ
  /-- The thread was running when it was marked as dying. -/
  wasRunning : Bool

def Thread.counted (thread : Thread) : Bool :=
  thread.state = .running ∨ thread.state = .dying ∧ thread.wasRunning

structure System where
  threadList : List ℕ
  thread : ℕ → Thread
  nrRunning : ℤ

section

variable (s : System) (t : ℕ)

def System.setThread (thread : Thread) : System :=
  { s with thread := update s.thread t thread }

/-! ## The operations -/

/-- `t` is the address of the new thread. -/
def thrCreateThread (parent : Option ℕ) : System :=
  { s with
    threadList := s.threadList ++ [t]
    thread := update s.thread t ⟨.paused, 1, parent, false⟩ }

def thrStartThread : System :=
  if (s.thread t).state ≠ .running then
    { s.setThread t { s.thread t with state := .running } with
      nrRunning := s.nrRunning + 1 }
  else s

def thrSuspendThread : System :=
  if (s.thread t).state = .running then
    { s.setThread t { s.thread t with state := .paused } with
      nrRunning := s.nrRunning - 1 }
  else s

def thrResumeThread : System :=
  if (s.thread t).state ≠ .running then thrStartThread s t else s

def thrFreeThread : System :=
  { s with
    threadList := s.threadList.erase t
    nrRunning := s.nrRunning - 1 }

def thrGetThread : System :=
  s.setThread t { s.thread t with refs := (s.thread t).refs + 1 }

def thrReleaseThread : System :=
  let s := s.setThread t { s.thread t with refs := (s.thread t).refs - 1 }
  if (s.thread t).refs ≤ 0 then thrFreeThread s t else s

def setDying : System :=
  s.setThread t { s.thread t with
    state := .dying
    wasRunning := (s.thread t).counted }

/-- The first part of `ThrSchedule`: a current thread that is dying is freed. -/
def scheduleFree (currThread : ℕ) : System :=
  if currThread ∈ s.threadList ∧ (s.thread currThread).state = .dying then
    thrFreeThread s currThread
  else s

/-- If the release frees the current thread, the call does not come back, and the
scheduler is entered without a current thread. -/
def thrDoExitThread (currThread : ℕ) : System :=
  scheduleFree (thrReleaseThread (setDying s currThread) currThread) currThread

def exitLoop (process : ℕ) : List ℕ → System → System
  | [], s => s
  | curr :: rest, s =>
    exitLoop process rest (if (s.thread curr).parent = some process then
        thrReleaseThread (setDying s curr) curr
      else s)

def thrProcessExit (currThread process : ℕ) : System :=
  let s := thrGetThread s currThread
  scheduleFree (exitLoop process s.threadList s) currThread

/-! ## Runs -/

inductive Op
  | create (t : ℕ) (parent : Option ℕ)
  | start (t : ℕ)
  | suspend (t : ℕ)
  | resume (t : ℕ)
  | get (t : ℕ)
  | release (t : ℕ)
  | exitThread (currThread : ℕ)
  | exitProcess (currThread process : ℕ)
  deriving DecidableEq, Repr

/-- A new thread gets a free address, and all other operations are about threads
that have not been freed. -/
def step : Op → Option System
  | .create t parent =>
    if t ∉ s.threadList then some (thrCreateThread s t parent) else none
  | .start t =>
    if t ∈ s.threadList then some (thrStartThread s t) else none
  | .suspend t =>
    if t ∈ s.threadList then some (thrSuspendThread s t) else none
  | .resume t =>
    if t ∈ s.threadList then some (thrResumeThread s t) else none
  | .get t =>
    if t ∈ s.threadList then some (thrGetThread s t) else none
  | .release t =>
    if t ∈ s.threadList then some (thrReleaseThread s t) else none
  | .exitThread t =>
    if t ∈ s.threadList then some (thrDoExitThread s t) else none
  | .exitProcess t process =>
    if t ∈ s.threadList ∧ (s.thread t).parent = some process then
      some (thrProcessExit s t process)
    else none

/-- `ThrEarlyInit` leaves only the idle task, which is not on the list. -/
def initial : System where
  threadList := []
  thread _ := ⟨.paused, 0, none, false⟩
  nrRunning := 0

def System.counted (s : System) (t : ℕ) : Bool := (s.thread t).counted

def Exact : Prop :=
  s.nrRunning = s.threadList.countP s.counted

def OnlyIdle : Prop :=
  ∀ t ∈ s.threadList, s.counted t = false

/-- A thread that is freed is counted, a thread that exits is runnable, and a
dying thread that is counted is not started again. -/
def FreesCounted : Op → Prop
  | .start t => ¬ ((s.thread t).state = .dying ∧ (s.thread t).wasRunning)
  | .resume t => ¬ ((s.thread t).state = .dying ∧ (s.thread t).wasRunning)
  | .release t => (s.thread t).refs ≤ 1 → s.counted t = true
  | .exitThread t => (s.thread t).state = .running
  | .exitProcess t process => (s.thread t).state = .running ∧
      ∀ u ∈ s.threadList, u ≠ t → (s.thread u).parent = some process →
        (s.thread u).refs ≤ 1 → s.counted u = true
  | _ => True

end

instance (s : System) : (op : Op) → Decidable (FreesCounted s op)
  | .create _ _ | .suspend _ | .get _ => isTrue trivial
  | .start _ | .resume _ => inferInstanceAs (Decidable (¬ _))
  | .release _ => inferInstanceAs (Decidable (_ → _))
  | .exitThread _ => inferInstanceAs (Decidable (_ = _))
  | .exitProcess _ _ => inferInstanceAs (Decidable (_ ∧ _))

/-! ## Counting -/

section Counting

variable {l : List ℕ} {p p' : ℕ → Bool} {t : ℕ}

theorem countP_change (ht : t ∈ l) (hnodup : l.Nodup) (hsame : ∀ u, u ≠ t → p' u = p u) :
    l.countP p' + (p t).toNat = l.countP p + (p' t).toNat := by
  have hperm := perm_cons_erase ht
  have hrest : (l.erase t).countP p' = (l.erase t).countP p := by
    apply countP_congr
    intro u hu
    rw [hsame u (hnodup.mem_erase_iff.mp hu).1]
  rw [hperm.countP_eq p', hperm.countP_eq p, countP_cons, countP_cons, hrest]
  cases p t with
  | false | true =>
    cases p' t with
    | false | true => rfl

end Counting

/-- The counter is exact, no thread is on the list twice, and a thread on the
list has a reference. -/
structure Inv (s : System) : Prop where
  exact : Exact s
  nodup : s.threadList.Nodup
  refs : ∀ t ∈ s.threadList, 1 ≤ (s.thread t).refs

variable {s s' : System} {t u : ℕ}

theorem thread_setThread_self (s : System) (t : ℕ) (thread : Thread) :
    (s.setThread t thread).thread t = thread :=
  update_self _ _ _

theorem thread_setThread_of_ne (s : System) (thread : Thread) (h : u ≠ t) :
    (s.setThread t thread).thread u = s.thread u :=
  update_of_ne h _ _

theorem counted_setThread {thread : Thread} (h : thread.counted = s.counted t) :
    (s.setThread t thread).counted = s.counted := by
  funext u
  by_cases hne : u = t
  · rw [hne, ← h, System.counted, thread_setThread_self]
  · rw [System.counted, thread_setThread_of_ne s _ hne]
    rfl

theorem counted_setRefs (s : System) (t : ℕ) (n : ℤ) :
    (s.setThread t { s.thread t with refs := n }).counted = s.counted :=
  counted_setThread rfl

section

variable (h : Inv s) (ht : t ∈ s.threadList)
include h ht

theorem Inv.setThread {thread : Thread} {n : ℤ}
    (hrefs : 1 ≤ thread.refs) (hn : n + (s.counted t).toNat = s.nrRunning + thread.counted.toNat) :
    Inv { s.setThread t thread with nrRunning := n } := by
  refine ⟨?_, h.nodup, fun u hu => ?_⟩
  · have hcount := @countP_change _ s.counted (s.setThread t thread).counted _
      ht h.nodup fun u hne =>
        congrArg Thread.counted (thread_setThread_of_ne s thread hne)
    have hself : (s.setThread t thread).counted t = thread.counted :=
      congrArg Thread.counted (thread_setThread_self s t thread)
    have hexact : s.nrRunning = s.threadList.countP s.counted := h.exact
    rw [hself] at hcount
    show n = s.threadList.countP (s.setThread t thread).counted
    omega
  · show 1 ≤ ((s.setThread t thread).thread u).refs
    by_cases hne : u = t
    · rw [hne, thread_setThread_self]
      exact hrefs
    · rw [thread_setThread_of_ne s thread hne]
      exact h.refs u hu

theorem Inv.setThread_of_counted {thread : Thread} (hrefs : 1 ≤ thread.refs)
    (hcounted : thread.counted = s.counted t) : Inv (s.setThread t thread) := by
  have hset := @Inv.setThread s t h ht thread s.nrRunning hrefs (by rw [hcounted])
  exact hset

theorem Inv.freeRefs (hcounted : s.counted t = true) (n : ℤ) :
    Inv (thrFreeThread (s.setThread t { s.thread t with refs := n }) t) := by
  have hperm := (perm_cons_erase ht).countP_eq s.counted
  rw [countP_cons_of_pos hcounted] at hperm
  have hexact : s.nrRunning = s.threadList.countP s.counted := h.exact
  refine ⟨?_, h.nodup.erase t, fun u hu => ?_⟩
  · show s.nrRunning - 1 = (s.threadList.erase t).countP (s.setThread t _).counted
    rw [counted_setRefs]
    omega
  · obtain ⟨hne, hmem⟩ := h.nodup.mem_erase_iff.mp hu
    show 1 ≤ ((s.setThread t _).thread u).refs
    rw [thread_setThread_of_ne s _ hne]
    exact h.refs u hmem

theorem Inv.free (hcounted : s.counted t = true) : Inv (thrFreeThread s t) := by
  have hfree := h.freeRefs ht hcounted (s.thread t).refs
  rwa [System.setThread, update_eq_self] at hfree

end

/-! ## What the operations do -/

theorem counted_setDying (s : System) (t : ℕ) : (setDying s t).counted = s.counted :=
  counted_setThread (by simp [System.counted, Thread.counted])

theorem refs_setDying (s : System) (t : ℕ) :
    ((setDying s t).thread t).refs = (s.thread t).refs := by
  unfold setDying
  rw [thread_setThread_self]

theorem Inv.setDying (h : Inv s) (ht : t ∈ s.threadList) : Inv (setDying s t) := by
  refine h.setThread_of_counted ht (h.refs t ht) ?_
  have hcounted := congrFun (counted_setDying s t) t
  rw [← hcounted]
  exact (congrArg Thread.counted (thread_setThread_self s t _)).symm

theorem Inv.get (h : Inv s) (ht : t ∈ s.threadList) : Inv (thrGetThread s t) := by
  have hrefs := h.refs t ht
  refine h.setThread_of_counted ht ?_ rfl
  show 1 ≤ (s.thread t).refs + 1
  omega

theorem thrReleaseThread_eq (s : System) (t : ℕ) :
    thrReleaseThread s t = if (s.thread t).refs ≤ 1 then
      thrFreeThread (s.setThread t { s.thread t with refs := (s.thread t).refs - 1 }) t
      else s.setThread t { s.thread t with refs := (s.thread t).refs - 1 } := by
  unfold thrReleaseThread
  dsimp only
  rw [thread_setThread_self]
  by_cases hlast : (s.thread t).refs ≤ 1
  · rw [if_pos hlast, if_pos (by dsimp only; omega)]
  · rw [if_neg hlast, if_neg (by dsimp only; omega)]

theorem counted_thrReleaseThread (s : System) (t : ℕ) :
    (thrReleaseThread s t).counted = s.counted := by
  rw [thrReleaseThread_eq]
  split
  · exact counted_setRefs s t _
  · exact counted_setRefs s t _

theorem Inv.release (h : Inv s) (ht : t ∈ s.threadList)
    (hlast : (s.thread t).refs ≤ 1 → s.counted t = true) : Inv (thrReleaseThread s t) := by
  rw [thrReleaseThread_eq]
  split
  · next hone => exact h.freeRefs ht (hlast hone) _
  · next hmore =>
    refine h.setThread_of_counted ht ?_ rfl
    show 1 ≤ (s.thread t).refs - 1
    omega

theorem Inv.scheduleFree (h : Inv s) (hcounted : s.counted t = true) : Inv (scheduleFree s t) := by
  unfold Threads.scheduleFree
  split
  · next hdying => exact h.free hdying.1 hcounted
  · exact h

theorem thrReleaseThread_of_ne (s : System) (h : u ≠ t) :
    (thrReleaseThread s t).thread u = s.thread u ∧
      (u ∈ (thrReleaseThread s t).threadList ↔ u ∈ s.threadList) := by
  rw [thrReleaseThread_eq]
  split
  · exact ⟨thread_setThread_of_ne s _ h, mem_erase_of_ne h⟩
  · exact ⟨thread_setThread_of_ne s _ h, Iff.rfl⟩

theorem Inv.exitLoop {process : ℕ} {l : List ℕ} (h : Inv s) (hnodup : l.Nodup)
    (hl : ∀ u ∈ l, u ∈ s.threadList ∧ ((s.thread u).parent = some process →
      (s.thread u).refs ≤ 1 → s.counted u = true)) :
    Inv (exitLoop process l s) ∧ (exitLoop process l s).counted = s.counted := by
  induction l generalizing s with
  | nil => exact ⟨h, rfl⟩
  | cons curr rest ih =>
    obtain ⟨hcurr, hlast⟩ := hl curr mem_cons_self
    obtain ⟨hfresh, hrest⟩ := nodup_cons.mp hnodup
    unfold Threads.exitLoop
    split
    · next hparent =>
      have hcounted : (thrReleaseThread (Threads.setDying s curr) curr).counted =
          s.counted := by rw [counted_thrReleaseThread, counted_setDying]
      have hinv : Inv (thrReleaseThread (Threads.setDying s curr) curr) := by
        apply (h.setDying hcurr).release hcurr
        intro hone
        rw [counted_setDying]
        rw [refs_setDying] at hone
        exact hlast hparent hone
      rw [← hcounted]
      refine ih hinv hrest fun u hu => ?_
      have hne : u ≠ curr := fun heq => hfresh (heq ▸ hu)
      obtain ⟨hsame, hmem⟩ :=
        thrReleaseThread_of_ne (Threads.setDying s curr) hne
      have hrecord : (Threads.setDying s curr).thread u = s.thread u :=
        thread_setThread_of_ne s _ hne
      rw [hcounted, hsame, hmem, hrecord]
      exact hl u (mem_cons_of_mem _ hu)
    · exact ih h hrest (forall_mem_cons.mp hl).2

theorem counted_of_running (h : (s.thread t).state = .running) : s.counted t = true := by
  unfold System.counted Thread.counted
  rw [h]
  rfl

section

variable (h : Inv s)
include h

section

variable (ht : t ∈ s.threadList)
include ht

theorem Inv.exitThread (hrunning : (s.thread t).state = .running) : Inv (thrDoExitThread s t) := by
  have hcounted := counted_of_running hrunning
  have hrelease : Inv (thrReleaseThread (Threads.setDying s t) t) := by
    apply (h.setDying ht).release ht
    rw [counted_setDying]
    exact fun _ => hcounted
  apply hrelease.scheduleFree
  rw [counted_thrReleaseThread, counted_setDying]
  exact hcounted

theorem Inv.exitProcess {process : ℕ} (hguard : FreesCounted s (.exitProcess t process)) :
    Inv (thrProcessExit s t process) := by
  obtain ⟨hrunning, hothers⟩ := hguard
  have hcounted := counted_of_running hrunning
  have hget : (thrGetThread s t).counted = s.counted := counted_setRefs s t _
  obtain ⟨hinv, hsame⟩ := @Inv.exitLoop (thrGetThread s t) process s.threadList
    (h.get ht) h.nodup (by
      intro u hu
      refine ⟨hu, fun hparent hone => ?_⟩
      rw [hget]
      by_cases hne : u = t
      · rw [hne]
        exact hcounted
      · have hrecord : (thrGetThread s t).thread u = s.thread u :=
          thread_setThread_of_ne s _ hne
        rw [hrecord] at hparent hone
        exact hothers u hu hne hparent hone)
  apply hinv.scheduleFree
  rw [hsame, hget]
  exact hcounted

theorem Inv.start (hguard : ¬ ((s.thread t).state = .dying ∧ (s.thread t).wasRunning)) :
    Inv (thrStartThread s t) := by
  unfold thrStartThread
  split
  · next hstopped =>
    have hcounted : s.counted t = false := by exact decide_eq_false (not_or.mpr ⟨hstopped, hguard⟩)
    refine h.setThread ht (h.refs t ht) ?_
    rw [hcounted]
    show s.nrRunning + 1 + 0 = s.nrRunning + 1
    omega
  · exact h

theorem Inv.suspend : Inv (thrSuspendThread s t) := by
  unfold thrSuspendThread
  split
  · next hrunning =>
    refine h.setThread ht (h.refs t ht) ?_
    rw [counted_of_running hrunning]
    show s.nrRunning - 1 + 1 = s.nrRunning + 0
    omega
  · exact h

end

theorem Inv.create {parent : Option ℕ} (ht : t ∉ s.threadList) :
    Inv (thrCreateThread s t parent) := by
  have hothers : ∀ u ∈ s.threadList, (thrCreateThread s t parent).thread u = s.thread u := by
    intro u hu
    have hne : u ≠ t := by
      rintro rfl
      exact ht hu
    exact update_of_ne hne _ _
  have hnew : (thrCreateThread s t parent).thread t = ⟨.paused, 1, parent, false⟩ :=
    update_self _ _ _
  refine ⟨?_, ?_, forall_mem_append.mpr ⟨fun u hu => ?_, forall_mem_singleton.mpr ?_⟩⟩
  · have hold : s.threadList.countP (thrCreateThread s t parent).counted =
        s.threadList.countP s.counted := by
      apply countP_congr
      intro u hu
      unfold System.counted
      rw [hothers u hu]
    have hzero : (thrCreateThread s t parent).counted t = false := by
      unfold System.counted
      rw [hnew]
      rfl
    show s.nrRunning = (s.threadList ++ [t]).countP _
    rw [countP_append, hold, countP_singleton, hzero]
    exact h.exact
  · exact h.nodup.append (nodup_singleton t) (disjoint_singleton.mpr ht)
  · rw [hothers u hu]
    exact h.refs u hu
  · exact Int.le_of_eq (congrArg Thread.refs hnew).symm

theorem Inv.step {op : Op} (hguard : FreesCounted s op) (hs : step s op = some s') : Inv s' := by
  -- every operation checks its thread first
  cases op <;> obtain ⟨ht, hs⟩ := ite_none_right_eq_some.mp hs <;> cases hs
  case create => exact h.create ht
  case start => exact h.start ht hguard
  case suspend => exact h.suspend ht
  case resume =>
    unfold thrResumeThread
    split
    · exact h.start ht hguard
    · exact h
  case get => exact h.get ht
  case release => exact h.release ht hguard
  case exitThread => exact h.exitThread ht hguard
  case exitProcess => exact h.exitProcess ht.1 hguard

end

theorem inv_initial : Inv initial :=
  ⟨rfl, nodup_nil, nofun⟩

theorem Exact.eq_zero_iff (h : Exact s) : s.nrRunning = 0 ↔ OnlyIdle s := by
  rw [h, Int.natCast_eq_zero, countP_eq_zero]
  unfold OnlyIdle
  simp only [Bool.not_eq_true]

/-- In every run in which only threads that are counted are freed, `nrRunning` is
the number of threads that are runnable or are exiting after having been
runnable. -/
theorem nrRunning_exact (hreach : Reach step FreesCounted initial s) :
    Exact s ∧ 0 ≤ s.nrRunning ∧ (s.nrRunning = 0 ↔ OnlyIdle s) := by
  have hinv : Inv s := hreach.invariant inv_initial fun _ _ _ h => h.step
  refine ⟨hinv.exact, ?_, hinv.exact.eq_zero_iff⟩
  have hexact : s.nrRunning = s.threadList.countP s.counted := hinv.exact
  omega

/-- A process of two running threads and another thread. -/
theorem nrRunning_exact_two_processes :
    ∃ s, Reach step FreesCounted initial s ∧ s.nrRunning = 1 ∧ Exact s ∧
      0 ≤ s.nrRunning ∧ (s.nrRunning = 0 ↔ OnlyIdle s) := by
  obtain ⟨s, hreach, hend⟩ := exists_reach step FreesCounted initial
    [.create 0 (some 7), .create 1 (some 7), .create 2 (some 8), .start 0, .start 1, .resume 2,
      .suspend 2, .resume 2, .get 1, .exitProcess 0 7, .release 1]
    (fun s => s.nrRunning = 1) (by decide)
  exact ⟨s, hreach, hend, nrRunning_exact hreach⟩

/-- A process with a thread that has never been started exits: both threads are
freed, and the counter becomes negative. -/
theorem nrRunning_becomes_negative :
    ∃ s, Reach step (fun _ _ => True) initial s ∧ s.threadList = [] ∧
      s.nrRunning = -1 ∧ ¬ Exact s := by
  obtain ⟨s, hs, hlist, hcounter⟩ := exists_reach step (fun _ _ => True) initial
    [.create 0 (some 7), .create 1 (some 7), .start 0, .exitProcess 0 7]
    (fun s => s.threadList = [] ∧ s.nrRunning = -1) (by decide)
  refine ⟨s, hs, hlist, hcounter, fun hexact => ?_⟩
  unfold Exact at hexact
  rw [hlist, hcounter] at hexact
  cases hexact

end Whitix.Threads
