import Mathlib.Data.Int.Notation
import Mathlib.Logic.Function.Iterate
import Whitix.Include.Task
import Whitix.Support.Run

/-!
# Wait queues

A thread that executes `WAIT_ON` puts itself on a wait queue, tests the
condition again, suspends itself and calls the scheduler, until the condition is
true.  An interrupt makes the condition true and wakes up the first thread of
the queue.  It may come between any two steps of the thread, on the only
processor.

The thread is not preempted by another thread in the model, as other threads
change neither the condition nor the queue.  The process of the thread is not
dying, so `ThrEndWait` returns.
-/

namespace Whitix.WaitQueue

open Support Function List Option Prod

def thrResumeThread (state : ℕ → ThreadState) (thread : ℕ) : ℕ → ThreadState :=
  if state thread ≠ .running then update state thread .running
  else state

def thrSuspendThread (state : ℕ → ThreadState) (thread : ℕ) : ℕ → ThreadState :=
  if state thread = .running then update state thread .paused
  else state

def wakeUpCommon (state : ℕ → ThreadState) : ℤ → List ℕ → List ℕ × (ℕ → ThreadState)
  | _, [] => ([], state)
  | number, curr :: rest =>
    if number - 1 = 0 then (rest, thrResumeThread state curr)
    else wakeUpCommon (thrResumeThread state curr) (number - 1) rest

/-- The places in `WAIT_ON` where the thread may be interrupted, each named after
the step that comes next. -/
inductive Place
  | test
  | prepareWait
  | testAgain
  | suspend
  | schedule
  | finishWait
  | left
  deriving DecidableEq, Repr

structure System where
  place : Place
  condition : Bool
  queue : List ℕ
  state : ℕ → ThreadState
  /-- The number of interrupts that are still to come. -/
  pending : ℕ

def waitPrepareWait (queue : List ℕ) (thread : ℕ) : List ℕ :=
  if thread ∈ queue then queue else queue ++ [thread]

def waitFinishWait (queue : List ℕ) (thread : ℕ) : List ℕ :=
  if thread ∈ queue then queue.erase thread else queue

variable (waiter : ℕ)

section

variable (s : System)

/-- The next step of the thread.  `ThrSchedule` returns when the thread is
running. -/
def waiterStep : Option System :=
  match s.place with
  | .test =>
    some { s with place := if s.condition then .left else .prepareWait }
  | .prepareWait =>
    some { s with
      place := .testAgain
      queue := waitPrepareWait s.queue waiter }
  | .testAgain =>
    some { s with place := if s.condition then .finishWait else .suspend }
  | .suspend =>
    some { s with
      place := .schedule
      state := thrSuspendThread s.state waiter }
  | .schedule =>
    if s.state waiter = .running then some { s with place := .prepareWait }
    else none
  | .finishWait =>
    some { s with
      place := .left
      queue := waitFinishWait s.queue waiter }
  | .left => none

/-- The interrupt makes the condition true and calls `WakeUp`. -/
def interrupt : System :=
  let r := wakeUpCommon s.state 1 s.queue
  { s with
    condition := true
    queue := r.1
    state := r.2
    pending := s.pending - 1 }

inductive Op
  | waiter
  | interrupt
  deriving DecidableEq, Repr

def step : Op → Option System
  | .waiter => waiterStep waiter s
  | .interrupt => if 0 < s.pending then some (interrupt s) else none

/-- A running thread enters `WAIT_ON`; other threads may be on the queue. -/
def entering (others : List ℕ) (condition : Bool) (pending : ℕ) : System where
  place := .test
  condition := condition
  queue := others
  state _ := .running
  pending := pending

/-- The thread sleeps although the condition is true, and nothing will wake it
up. -/
def Stuck : Prop :=
  s.state waiter = .paused ∧ waiter ∉ s.queue ∧ s.condition = true ∧ s.pending = 0

/-- The thread leaves `WAIT_ON` when it is run. -/
def Leaves : Prop :=
  ∃ n s', (fun r => r.bind (waiterStep waiter))^[n] (some s) = some s' ∧ s'.place = .left

/-- The interrupt does not come between the second test and `ThrSuspendThread`
while the thread is the first one of the queue. -/
def NotBeforeSuspend : Op → Prop
  | .waiter => True
  | .interrupt => ¬ (s.place = .suspend ∧ s.queue.head? = some waiter)

end

instance (s : System) : (op : Op) → Decidable (NotBeforeSuspend waiter s op)
  | .waiter => isTrue trivial
  | .interrupt => inferInstanceAs (Decidable (¬ _))

/-! ## Safety -/

variable {waiter} {s s' : System}

variable {thread pending : ℕ} {condition : Bool} {op : Op}

section

variable (state : ℕ → ThreadState)

theorem thrResumeThread_self (thread : ℕ) : thrResumeThread state thread thread = .running := by
  unfold thrResumeThread
  split
  · exact update_self _ _ _
  · next h => exact not_not.mp h

theorem thrResumeThread_of_ne {other : ℕ}
    (h : other ≠ thread) : thrResumeThread state thread other = state other := by
  unfold thrResumeThread
  split
  · exact update_of_ne h _ _
  · rfl

theorem wakeUp_nil (number : ℤ) : wakeUpCommon state number [] = ([], state) := rfl

theorem wakeUp_cons (thread : ℕ) (rest : List ℕ) :
    wakeUpCommon state 1 (thread :: rest) = (rest, thrResumeThread state thread) := rfl

end

/-- A thread that is suspended, or about to be, is on the queue. -/
structure Inv (waiter : ℕ) (s : System) : Prop where
  running : s.place ≠ .schedule → s.state waiter = .running
  alive : s.state waiter ≠ .dying
  tested : s.place = .testAgain → s.condition = false → waiter ∈ s.queue
  suspending : s.place = .suspend → waiter ∈ s.queue
  paused : s.state waiter = .paused → waiter ∈ s.queue

theorem inv_entering {others : List ℕ} : Inv waiter (entering others condition pending) :=
  ⟨fun _ => rfl, nofun, nofun, nofun, nofun⟩

theorem Inv.interrupt (h : Inv waiter s) (hguard : NotBeforeSuspend waiter s .interrupt) :
    Inv waiter (interrupt s) := by
  unfold WaitQueue.interrupt
  cases hqueue : s.queue with
  | nil =>
    have hempty : waiter ∉ s.queue := hqueue ▸ not_mem_nil
    refine ⟨h.running, h.alive, fun _ => nofun, fun hplace => ?_, fun hp => ?_⟩
    · exact absurd (h.suspending hplace) hempty
    · exact absurd (h.paused hp) hempty
  | cons thread rest =>
    rw [wakeUp_cons]
    by_cases hself : waiter = thread
    · subst hself
      have hstate := thrResumeThread_self s.state waiter
      refine ⟨fun _ => hstate, ?_, fun _ => nofun, fun hplace => ?_, fun hp => ?_⟩
      · intro hdying
        cases hstate.symm.trans hdying
      · have hhead : s.queue.head? = some waiter := by
          rw [hqueue]
          rfl
        exact absurd ⟨hplace, hhead⟩ hguard
      · cases hstate.symm.trans hp
    · have hstate := thrResumeThread_of_ne s.state hself
      have hkeep : waiter ∈ s.queue → waiter ∈ rest := by
        rw [hqueue]
        intro hmem
        exact (mem_cons.mp hmem).resolve_left hself
      refine ⟨fun hplace => ?_, ?_, fun _ => nofun, fun hplace => ?_, fun hp => ?_⟩
      · exact hstate.trans (h.running hplace)
      · exact fun hdying => h.alive (hstate.symm.trans hdying)
      · exact hkeep (h.suspending hplace)
      · exact hkeep (h.paused (hstate.symm.trans hp))

theorem waiterStep_cases (hs : waiterStep waiter s = some s') :
    (s.place = .test ∧ s.condition = true ∧ s' = { s with place := .left }) ∨
    (s.place = .test ∧ s.condition = false ∧ s' = { s with place := .prepareWait }) ∨
    (s.place = .prepareWait ∧ s' = { s with
      place := .testAgain, queue := waitPrepareWait s.queue waiter }) ∨
    (s.place = .testAgain ∧ s.condition = true ∧ s' = { s with place := .finishWait }) ∨
    (s.place = .testAgain ∧ s.condition = false ∧ s' = { s with place := .suspend }) ∨
    (s.place = .suspend ∧ s' = { s with
      place := .schedule, state := thrSuspendThread s.state waiter }) ∨
    (s.place = .schedule ∧ s.state waiter = .running ∧ s' = { s with place := .prepareWait }) ∨
    (s.place = .finishWait ∧ s' = { s with
      place := .left, queue := waitFinishWait s.queue waiter }) := by
  obtain ⟨place, condition, queue, state, pending⟩ := s
  cases place with
  | test =>
    cases condition with
    | true => exact .inl ⟨rfl, rfl, (some.inj hs).symm⟩
    | false => exact .inr (.inl ⟨rfl, rfl, (some.inj hs).symm⟩)
  | prepareWait => exact .inr (.inr (.inl ⟨rfl, (some.inj hs).symm⟩))
  | testAgain =>
    refine .inr (.inr (.inr ?_))
    cases condition with
    | true => exact .inl ⟨rfl, rfl, (some.inj hs).symm⟩
    | false => exact .inr (.inl ⟨rfl, rfl, (some.inj hs).symm⟩)
  | suspend =>
    refine .inr (.inr (.inr (.inr (.inr (.inl ⟨rfl, ?_⟩)))))
    exact (some.inj hs).symm
  | schedule =>
    refine .inr (.inr (.inr (.inr (.inr (.inr (.inl ?_))))))
    obtain ⟨hrunning, hs⟩ := ite_none_right_eq_some.mp hs
    exact ⟨rfl, hrunning, (some.inj hs).symm⟩
  | finishWait =>
    refine .inr (.inr (.inr (.inr (.inr (.inr (.inr ⟨rfl, ?_⟩))))))
    exact (some.inj hs).symm
  | left => cases hs

theorem mem_waitPrepareWait (queue : List ℕ) (thread : ℕ) :
    thread ∈ waitPrepareWait queue thread := by
  unfold waitPrepareWait
  split
  · next h => exact h
  · exact mem_append_right _ mem_cons_self

theorem thrSuspendThread_self {state : ℕ → ThreadState} (h : state thread = .running) :
    thrSuspendThread state thread thread = .paused := by
  unfold thrSuspendThread
  rw [if_pos h, update_self]

theorem Inv.waiterStep (h : Inv waiter s) (hs : waiterStep waiter s = some s') : Inv waiter s' := by
  have hrunning : s.place ≠ .schedule → s.state waiter = .running := h.running
  rcases waiterStep_cases hs with
    ⟨hp, -, rfl⟩ | ⟨hp, -, rfl⟩ | ⟨hp, rfl⟩ | ⟨hp, -, rfl⟩ | ⟨hp, hc, rfl⟩ |
    ⟨hp, rfl⟩ | ⟨hp, hr, rfl⟩ | ⟨hp, rfl⟩
  all_goals rw [hp] at hrunning
  · exact ⟨fun _ => hrunning nofun, h.alive, nofun, nofun, h.paused⟩
  · exact ⟨fun _ => hrunning nofun, h.alive, nofun, nofun, h.paused⟩
  · have hmem := mem_waitPrepareWait s.queue waiter
    exact ⟨fun _ => hrunning nofun, h.alive, fun _ _ => hmem, nofun, fun _ => hmem⟩
  · exact ⟨fun _ => hrunning nofun, h.alive, nofun, nofun, h.paused⟩
  · have hmem := h.tested hp hc
    exact ⟨fun _ => hrunning nofun, h.alive, nofun, fun _ => hmem, fun _ => hmem⟩
  · have hmem := h.suspending hp
    have hpaused := thrSuspendThread_self (hrunning nofun)
    refine ⟨fun hne => absurd rfl hne, ?_, nofun, nofun, fun _ => hmem⟩
    exact fun hdying => absurd (hpaused.symm.trans hdying) (by decide)
  · exact ⟨fun _ => hr, h.alive, nofun, nofun, h.paused⟩
  · refine ⟨fun _ => hrunning nofun, h.alive, nofun, nofun, fun hpaused => ?_⟩
    cases (hrunning nofun).symm.trans hpaused

theorem Inv.step (h : Inv waiter s) (hguard : NotBeforeSuspend waiter s op)
    (hs : step waiter s op = some s') : Inv waiter s' := by
  cases op with
  | waiter => exact h.waiterStep hs
  | interrupt =>
    obtain ⟨-, hs⟩ := ite_none_right_eq_some.mp hs
    cases hs
    exact h.interrupt hguard

/-! ## Liveness -/

/-- No other thread is on the queue, and the thread only sleeps as long as the
condition is false. -/
structure Alone (waiter : ℕ) (s : System) : Prop where
  queue : s.queue = [] ∨ s.queue = [waiter]
  suspending : s.place = .suspend → s.condition = false
  sleeping : s.place = .schedule → s.state waiter = .paused → s.condition = false

theorem alone_entering : Alone waiter (entering [] condition pending) :=
  ⟨.inl rfl, nofun, nofun⟩

section

variable (h : Alone waiter s)
include h

theorem Alone.eq_singleton (hmem : waiter ∈ s.queue) : s.queue = [waiter] :=
  h.queue.resolve_left (ne_nil_of_mem hmem)

theorem Alone.eq_nil (hmem : waiter ∉ s.queue) : s.queue = [] :=
  h.queue.resolve_right fun hone => hmem (hone ▸ mem_cons_self)

theorem Alone.interrupt (hinv : Inv waiter s) (hguard : NotBeforeSuspend waiter s .interrupt) :
    Alone waiter (interrupt s) := by
  have hplace : s.place ≠ .suspend := by
    intro hp
    apply hguard
    refine ⟨hp, ?_⟩
    rw [h.eq_singleton (hinv.suspending hp)]
    rfl
  have hawake : (wakeUpCommon s.state 1 s.queue).2 waiter ≠ .paused := by
    rcases h.queue with hnil | hone
    · rw [hnil, wakeUp_nil]
      intro hpaused
      have hmem := hinv.paused hpaused
      rw [hnil] at hmem
      cases hmem
    · rw [hone, wakeUp_cons]
      intro hpaused
      cases (thrResumeThread_self _ _).symm.trans hpaused
  refine ⟨.inl ?_, fun hp => absurd hp hplace, fun _ hp => absurd hp hawake⟩
  show (wakeUpCommon s.state 1 s.queue).1 = []
  rcases h.queue with hnil | hone
  · rw [hnil, wakeUp_nil]
  · rw [hone, wakeUp_cons]

theorem Alone.waiterStep (hs : waiterStep waiter s = some s') : Alone waiter s' := by
  rcases waiterStep_cases hs with
    ⟨hp, -, rfl⟩ | ⟨hp, -, rfl⟩ | ⟨hp, rfl⟩ | ⟨hp, -, rfl⟩ | ⟨hp, hc, rfl⟩ |
    ⟨hp, rfl⟩ | ⟨hp, hr, rfl⟩ | ⟨hp, rfl⟩
  · exact ⟨h.queue, nofun, nofun⟩
  · exact ⟨h.queue, nofun, nofun⟩
  · refine ⟨.inr ?_, nofun, nofun⟩
    show waitPrepareWait s.queue waiter = [waiter]
    unfold waitPrepareWait
    split
    · next hmem => exact h.eq_singleton hmem
    · next hmem => rw [h.eq_nil hmem, nil_append]
  · exact ⟨h.queue, nofun, nofun⟩
  · exact ⟨h.queue, fun _ => hc, nofun⟩
  · exact ⟨h.queue, nofun, fun _ _ => h.suspending hp⟩
  · exact ⟨h.queue, nofun, nofun⟩
  · refine ⟨.inl ?_, nofun, nofun⟩
    show waitFinishWait s.queue waiter = []
    unfold waitFinishWait
    split
    · next hmem => rw [h.eq_singleton hmem, erase_cons_head]
    · next hmem => exact h.eq_nil hmem

theorem Alone.step (hinv : Inv waiter s) (hguard : NotBeforeSuspend waiter s op)
    (hs : step waiter s op = some s') : Alone waiter s' := by
  cases op with
  | waiter => exact h.waiterStep hs
  | interrupt =>
    obtain ⟨-, hs⟩ := ite_none_right_eq_some.mp hs
    cases hs
    exact h.interrupt hinv hguard

theorem Alone.leaves (hinv : Inv waiter s) (hcondition : s.condition = true) : Leaves waiter s := by
  obtain ⟨place, condition, queue, state, pending⟩ := s
  obtain rfl : condition = true := hcondition
  cases place with
  | test | finishWait => exact ⟨1, _, rfl, rfl⟩
  | prepareWait => exact ⟨3, _, rfl, rfl⟩
  | testAgain => exact ⟨2, _, rfl, rfl⟩
  | suspend => exact absurd (h.suspending rfl) nofun
  | schedule =>
    have hrunning : state waiter = .running := by
      cases hstate : state waiter with
      | running => rfl
      | paused => exact absurd (h.sleeping rfl hstate) nofun
      | dying => exact absurd hstate hinv.alive
    refine ⟨4, ⟨.left, true, waitFinishWait (waitPrepareWait queue waiter) waiter, state, pending⟩,
      ?_, rfl⟩
    rw [iterate_succ_apply]
    have hfirst : (some (⟨.schedule, true, queue, state, pending⟩ : System)).bind
        (WaitQueue.waiterStep waiter) =
        some ⟨.prepareWait, true, queue, state, pending⟩ := if_pos hrunning
    rw [hfirst]
    rfl
  | left => exact ⟨0, _, rfl, rfl⟩

end

/-- In every run in which the interrupt does not come between the second test and
`ThrSuspendThread`, no wake-up is lost; a thread that waits alone leaves
`WAIT_ON`. -/
theorem waitOn_no_lost_wakeup {others : List ℕ} {condition : Bool} {pending : ℕ}
    (hreach : Reach (step waiter) (NotBeforeSuspend waiter) (entering others condition pending) s) :
    ¬ Stuck waiter s ∧ (others = [] → s.condition = true → Leaves waiter s) := by
  have hinv : Inv waiter s :=
    hreach.invariant inv_entering fun _ _ _ h => h.step
  refine ⟨fun hstuck => hstuck.2.1 (hinv.paused hstuck.1), ?_⟩
  rintro rfl hcondition
  have hboth : Inv waiter s ∧ Alone waiter s := by
    apply @Reach.invariant _ _ (WaitQueue.step waiter) (NotBeforeSuspend waiter)
      _ s (fun s => Inv waiter s ∧ Alone waiter s)
      ⟨inv_entering, alone_entering⟩ _ hreach
    intro s op s' h hguard hs
    exact ⟨h.1.step hguard hs, h.2.step h.1 hguard hs⟩
  exact hboth.2.leaves hinv hcondition

theorem waitOn_no_lost_wakeup_sleeping :
    ∃ s, Reach (step 0) (NotBeforeSuspend 0) (entering [] false 1) s ∧
      s.place = .schedule ∧ s.condition = true ∧ ¬ Stuck 0 s ∧
      Leaves 0 s := by
  obtain ⟨s, hreach, hplace, hcondition⟩ := exists_reach (step 0) (NotBeforeSuspend 0)
    (entering [] false 1) [.waiter, .waiter, .waiter, .waiter, .interrupt]
    (fun s => s.place = .schedule ∧ s.condition = true) (by decide)
  have hsafe := waitOn_no_lost_wakeup hreach
  exact ⟨s, hreach, hplace, hcondition, hsafe.1, hsafe.2 rfl hcondition⟩

/-- The interrupt takes the thread off the queue while it is still running, and
then the thread suspends itself. -/
theorem waitOn_loses_wakeup :
    ∃ s, Reach (step 0) (fun _ _ => True) (entering [] false 1) s ∧ Stuck 0 s := by
  exact exists_reach (step 0) (fun _ _ => True) (entering [] false 1)
    [.waiter, .waiter, .waiter, .interrupt, .waiter]
    (fun s => s.state 0 = .paused ∧ 0 ∉ s.queue ∧ s.condition = true ∧ s.pending = 0) (by decide)

end Whitix.WaitQueue
