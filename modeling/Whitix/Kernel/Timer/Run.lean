import Whitix.Kernel.Timer.Queue
import Whitix.Support.Run
import Mathlib.Algebra.Order.BigOperators.Group.List

/-!
# Runs of the timer queue

The queue of `kernel/timer.c` is placed in a system that remembers what was
requested, and the question is whether the stored differences still decode to
the requested times.  They do in every run that avoids the two places which
lose time: an insertion that passes more than one nonzero difference, and a
tick that overshoots the head of a queue with further timers behind it.
-/

namespace Whitix.TimerQueue

open Support List

/-! ## The queue together with what was requested -/

/-- The queue, the number of ticks so far, and for each timer the timeout and
the tick count of its last `TimerAdd`.  `fired` lists the timers whose
callback ran, oldest first, with their deadlines. -/
structure TimerSystem where
  timerList : List Timer
  ticks : ℕ
  timeout : ℕ → ℤ
  addedAt : ℕ → ℕ
  fired : List (ℕ × ℤ)

def TimerSystem.initial : TimerSystem where
  timerList := []
  ticks := 0
  timeout := fun _ => 0
  addedAt := fun _ => 0
  fired := []

section

variable (s : TimerSystem) (id : ℕ)

/-- The requested timeout minus ten milliseconds for each tick since then. -/
def TimerSystem.remaining : ℤ :=
  s.timeout id - 10 * ((s.ticks : ℤ) - s.addedAt id)

/-- The time since boot, in milliseconds, at which the timer is due. -/
def TimerSystem.deadline : ℤ :=
  10 * (s.addedAt id : ℤ) + s.timeout id

inductive TimerOp where
  | add (id : ℕ) (timeout : ℤ)
  | remove (id : ℕ) (linked : Bool)
  | tick
deriving DecidableEq, Repr

def TimerSystem.added (timeout : ℤ) : TimerSystem :=
  { s with
    timerList := timerAdd s.timerList ⟨id, timeout⟩
    timeout := fun j => if j = id then timeout else s.timeout j
    addedAt := fun j => if j = id then s.ticks else s.addedAt j }

def TimerSystem.ticked : TimerSystem :=
  { s with
    timerList := (updateTimers s.timerList).1
    ticks := s.ticks + 1
    fired := match (updateTimers s.timerList).2 with
      | none => s.fired
      | some timer => s.fired ++ [(timer.id, s.deadline timer.id)] }

def timerStep : TimerOp → Option TimerSystem
  | .add id timeout => some (s.added id timeout)
  | .remove id linked =>
    some { s with timerList := (timerRemove s.timerList id linked).1 }
  | .tick => some s.ticked

/-- Timers are added with a positive `int` timeout while they are not
pending. -/
def TimerOp.Legal : TimerOp → Prop
  | .add id timeout =>
    0 < timeout ∧ timeout < 2 ^ 31 ∧ id ∉ s.timerList.map Timer.id
  | .remove _ _ => True
  | .tick => True

/-- The operation loses no time.  Of the entries passed by an insertion, only
the last one may store a nonzero difference, and a tick that finds more than
one timer pending does not overshoot the first. -/
def TimerOp.Lossless : TimerOp → Prop
  | .add _ timeout =>
    ((passed timeout s.timerList).dropLast.map Timer.expires).sum = 0
  | .remove _ _ => True
  | .tick =>
    s.timerList.length ≤ 1 ∨ ∀ timer ∈ s.timerList.head?, 10 ≤ timer.expires

instance : (op : TimerOp) → Decidable (op.Legal s)
  | .add _ _ => inferInstanceAs (Decidable (_ ∧ _))
  | .remove _ _ | .tick => isTrue trivial

instance : (op : TimerOp) → Decidable (op.Lossless s)
  | .add _ _ => inferInstanceAs (Decidable (_ = _))
  | .remove _ _ => isTrue trivial
  | .tick => inferInstanceAs (Decidable (_ ∨ _))

/-- Every pending timer's remaining time is the sum of the stored differences
up to and including its own. -/
def DeltaExact : Prop :=
  ∀ (i : ℕ) (hi : i < s.timerList.length), s.remaining (s.timerList[i]).id =
      ((s.timerList.take (i + 1)).map Timer.expires).sum

def queued (timerList : List Timer) (id : ℕ) : Option ℤ :=
  ((deltaTimes 0 (deltas timerList)).find? fun x => x.1 = id).map Prod.snd

/-! ## The invariant -/

/-- The queue decodes to the remaining times, its differences are nonnegative
and fit an `int`, and whatever has fired was due before everything pending. -/
structure TimerInv : Prop where
  times : deltaTimes 0 (deltas s.timerList) =
    s.timerList.map fun timer => (timer.id, s.remaining timer.id)
  nonneg : ∀ timer ∈ s.timerList, 0 ≤ timer.expires
  bounded : ∀ timer ∈ s.timerList, s.remaining timer.id < 2 ^ 31
  nodup : (s.timerList.map Timer.id).Nodup
  firedSorted : (s.fired.map Prod.snd).Pairwise (· ≤ ·)
  firedDue : ∀ f ∈ s.fired, f.2 ≤ 10 * s.ticks
  firedFirst : ∀ f ∈ s.fired, ∀ timer ∈ s.timerList, f.2 ≤ s.deadline timer.id

theorem timerInv_initial : TimerInv TimerSystem.initial where
  times := rfl
  nonneg := by simp [TimerSystem.initial]
  bounded := by simp [TimerSystem.initial]
  nodup := by simp [TimerSystem.initial]
  firedSorted := by simp [TimerSystem.initial]
  firedDue := by simp [TimerSystem.initial]
  firedFirst := by simp [TimerSystem.initial]

theorem deadline_eq_remaining : s.deadline id = s.remaining id + 10 * s.ticks := by
  unfold TimerSystem.deadline TimerSystem.remaining
  ring

end

variable {s : TimerSystem} {id : ℕ}

theorem TimerInv.deltaExact (h : TimerInv s) : DeltaExact s := by
  intro i hi
  have hi' : i < (deltas s.timerList).length := by simpa [deltas] using hi
  have hlen : i < (deltaTimes 0 (deltas s.timerList)).length := by
    rw [deltaTimes_length]
    exact hi'
  have htime := deltaTimes_getElem 0 (deltas s.timerList) i hlen hi'
  have hmap : (deltaTimes 0 (deltas s.timerList))[i] =
      ((s.timerList[i]).id, s.remaining (s.timerList[i]).id) := by simp only [h.times, getElem_map]
  have htake : (deltas s.timerList).take (i + 1) = deltas (s.timerList.take (i + 1)) := by
    simp [deltas]
  rw [hmap, htake, deltaTotal_deltas, zero_add] at htime
  exact congrArg Prod.snd htime

theorem TimerInv.expires_lt (h : TimerInv s) : ∀ timer ∈ s.timerList, timer.expires < 2 ^ 31 := by
  have hpos : ∀ x ∈ deltas s.timerList, 0 ≤ x.2 := forall_mem_map.mpr h.nonneg
  have hle : ∀ y ∈ deltaTimes 0 (deltas s.timerList), y.2 ≤ 2 ^ 31 - 1 := by
    rw [h.times]
    exact forall_mem_map.mpr fun timer htimer => Int.le_sub_one_of_lt (h.bounded timer htimer)
  intro timer htimer
  have hmem : (timer.id, timer.expires) ∈ deltas s.timerList :=
    mem_map.mpr ⟨timer, htimer, rfl⟩
  exact Int.lt_of_le_sub_one (delta_le_of_deltaTimes_le hpos le_rfl hle _ hmem)

variable {timer : Timer} {rest : List Timer} {timeout : ℤ} {op : TimerOp} {s' : TimerSystem}

theorem TimerInv.head_le (h : TimerInv s) (hlist : s.timerList = timer :: rest) :
    s.remaining timer.id = timer.expires ∧
      ∀ other ∈ rest, timer.expires ≤ s.remaining other.id := by
  have htimes := h.times
  rw [hlist, deltas_cons, deltaTimes_cons, zero_add] at htimes
  obtain ⟨hhead, hrest⟩ := cons_eq_cons.mp htimes
  refine ⟨(congrArg Prod.snd hhead).symm, fun other hother => ?_⟩
  have hpos : ∀ x ∈ deltas rest, 0 ≤ x.2 :=
    forall_mem_map.mpr fun t ht => h.nonneg t (by simp [hlist, ht])
  refine base_le_deltaTimes hpos (other.id, s.remaining other.id) ?_
  rw [hrest]
  exact mem_map.mpr ⟨other, hother, rfl⟩

theorem TimerInv.queued (h : TimerInv s) (hid : id ∈ s.timerList.map Timer.id) :
    queued s.timerList id = some (s.remaining id) := by
  unfold TimerQueue.queued
  rw [h.times, find?_map]
  cases hfind : s.timerList.find? ((fun x : ℕ × ℤ => decide (x.1 = id)) ∘
      fun timer => (timer.id, s.remaining timer.id)) with
  | none =>
    obtain ⟨timer, htimer, rfl⟩ := mem_map.mp hid
    have := find?_eq_none.mp hfind timer htimer
    simp at this
  | some timer =>
    have hfound : timer.id = id := by simpa using find?_some hfind
    simp [hfound]

/-! ## What one operation keeps -/

section Step

@[simp] theorem ticks_added (s : TimerSystem) (id : ℕ) (timeout : ℤ) :
    (s.added id timeout).ticks = s.ticks := rfl

theorem remaining_added (s : TimerSystem) (id : ℕ) (timeout : ℤ) (j : ℕ) :
    (s.added id timeout).remaining j = if j = id then timeout else s.remaining j := by
  unfold TimerSystem.remaining TimerSystem.added
  by_cases hj : j = id
  · simp [hj]
  · simp [hj]

theorem forall_added (P : ℕ → Prop) (hid : P id) (hrest : ∀ timer ∈ s.timerList, P timer.id) :
    ∀ timer ∈ (s.added id timeout).timerList, P timer.id := by
  intro timer htimer
  have hmem : timer.id ∈ id :: s.timerList.map Timer.id :=
    (timerAdd_ids_perm s.timerList ⟨id, timeout⟩).mem_iff.mp (mem_map_of_mem htimer)
  rcases mem_cons.mp hmem with heq | hmem
  · exact heq ▸ hid
  · obtain ⟨other, hother, heq⟩ := mem_map.mp hmem
    exact heq ▸ hrest other hother

section

variable (h : TimerInv s)
include h

section

variable (hlegal : (TimerOp.add id timeout).Legal s) (hloss : (TimerOp.add id timeout).Lossless s)
include hlegal hloss

theorem TimerInv.times_added :
    deltaTimes 0 (deltas (timerAdd s.timerList ⟨id, timeout⟩)) =
      (timerAdd s.timerList ⟨id, timeout⟩).map fun timer =>
        (timer.id, (s.added id timeout).remaining timer.id) := by
  obtain ⟨hpos, hint, hnew⟩ := hlegal
  have hsplit := passed_append_drop timeout s.timerList
  rw [deltaTimes_timerAdd id h.nonneg h.expires_lt hpos hint hloss]
  generalize hfront : passed timeout s.timerList = front at hsplit ⊢
  generalize hback : s.timerList.drop front.length = back at hsplit ⊢
  -- The times decoded before the insertion split at the same place.
  have htimes : deltaTimes 0 (deltas front) ++
        deltaTimes (deltaTotal (deltas front)) (deltas back) =
      front.map (fun timer => (timer.id, s.remaining timer.id)) ++
        back.map (fun timer => (timer.id, s.remaining timer.id)) := by
    rw [← map_append, hsplit, ← h.times, ← hsplit, deltas_append, deltaTimes_append, zero_add]
  obtain ⟨hleft, hright⟩ := append_inj htimes (by
    rw [deltaTimes_length]
    simp [deltas])
  have hold : ∀ xs : List Timer, (∀ timer ∈ xs, timer ∈ s.timerList) →
      xs.map (fun timer => (timer.id, s.remaining timer.id)) = (xs.map Timer.id).map fun j =>
          (j, (s.added id timeout).remaining j) := by
    intro xs hxs
    rw [map_map]
    refine map_congr_left fun timer htimer => ?_
    have hne : timer.id ≠ id := by
      rintro rfl
      exact hnew (mem_map_of_mem (hxs timer htimer))
    simp [remaining_added, hne]
  have hmap : (timerAdd s.timerList ⟨id, timeout⟩).map (fun timer =>
        (timer.id, (s.added id timeout).remaining timer.id)) =
      ((timerAdd s.timerList ⟨id, timeout⟩).map Timer.id).map fun j =>
        (j, (s.added id timeout).remaining j) := by simp [Function.comp_def]
  have hmem : ∀ timer, timer ∈ front ∨ timer ∈ back → timer ∈ s.timerList := fun timer htimer =>
    hsplit ▸ mem_append.mpr htimer
  rw [hmap, timerAdd_ids, hfront, hback, map_append, map_cons,
    hleft, hright, hold front fun timer htimer => hmem timer (.inl htimer),
    hold back fun timer htimer => hmem timer (.inr htimer)]
  simp [remaining_added]

theorem TimerInv.add : TimerInv (s.added id timeout) := by
  have ⟨hpos, hint, hnew⟩ := hlegal
  have hne : ∀ timer ∈ s.timerList, timer.id ≠ id := by
    rintro timer htimer rfl
    exact hnew (mem_map_of_mem htimer)
  refine { h with
    times := h.times_added hlegal hloss
    nonneg := nonneg_timerAdd id h.nonneg h.expires_lt hpos hint
    bounded := forall_added (fun j => (s.added id timeout).remaining j < _)
      ?_ fun timer htimer => ?_
    nodup := ?_
    firedFirst := fun f hf =>
      forall_added (fun j => f.2 ≤ (s.added id timeout).deadline j) ?_ fun timer htimer => ?_ }
  · simpa [remaining_added] using hint
  · simpa [remaining_added, hne timer htimer] using h.bounded timer htimer
  · exact (timerAdd_ids_perm _ _).nodup_iff.mpr (nodup_cons.mpr ⟨hnew, h.nodup⟩)
  · have hdue := h.firedDue f hf
    rw [deadline_eq_remaining]
    simp only [remaining_added, if_true, ticks_added]
    omega
  · have hfirst := h.firedFirst f hf timer htimer
    rw [deadline_eq_remaining] at hfirst ⊢
    simpa [remaining_added, hne timer htimer] using hfirst

end

theorem TimerInv.times_removed {front : List Timer}
    {curr : Timer} (hsplit : s.timerList = front ++ curr :: rest) :
    deltaTimes 0 (deltas (front ++ timerFold curr rest)) = (front ++ rest).map
        (fun timer => (timer.id, s.remaining timer.id)) ∧
      (front ++ timerFold curr rest).map Timer.id = (front ++ rest).map Timer.id ∧
      ∀ timer ∈ front ++ timerFold curr rest, 0 ≤ timer.expires := by
  have hmem : ∀ timer, timer ∈ front ∨ timer = curr ∨ timer ∈ rest → timer ∈ s.timerList := by
    intro timer htimer
    rw [hsplit]
    simpa using htimer
  have hcurr := h.nonneg curr (hmem curr (.inr (.inl rfl)))
  have htimes := h.times
  rw [hsplit, deltas_append, deltas_cons, deltaTimes_append, deltaTimes_cons,
    map_append, map_cons, zero_add] at htimes
  obtain ⟨hfront, hback⟩ := append_inj htimes (by
    rw [deltaTimes_length]
    simp [deltas])
  obtain ⟨hhead, hrest⟩ := cons_eq_cons.mp hback
  cases rest with
  | nil =>
    refine ⟨?_, by simp [timerFold], fun timer htimer => ?_⟩
    · simp [timerFold, hfront]
    · exact h.nonneg timer (hmem timer (.inl (by simpa [timerFold] using htimer)))
  | cons next rest =>
    have hnext := h.nonneg next (hmem next (by simp))
    -- The folded difference is at most the remaining time of `next`.
    have hsum : next.expires + curr.expires < 2 ^ 31 := by
      have hbound := h.bounded next (hmem next (by simp))
      have hfrontTotal : 0 ≤ deltaTotal (deltas front) := by
        rw [deltaTotal_deltas]
        exact sum_nonneg (forall_mem_map.mpr fun timer htimer =>
          h.nonneg timer (hmem timer (.inl htimer)))
      have htime : deltaTotal (deltas front) + curr.expires + next.expires = s.remaining next.id :=
        congrArg Prod.snd (cons_eq_cons.mp hrest).1
      omega
    have hfold : timerFold curr (next :: rest) =
        ⟨next.id, next.expires + curr.expires⟩ :: rest := by
      by_cases hpos : 0 < curr.expires
      · simp only [timerFold, if_pos hpos]
        rw [int32_of_range (by omega) hsum]
      · have hzero : curr.expires = 0 := by omega
        simp [timerFold, hzero]
    rw [hfold]
    refine ⟨?_, by simp, fun timer htimer => ?_⟩
    · rw [deltas_append, deltas_cons, deltaTimes_remove, hfront, map_append, ← hrest]
      simp
    · rw [mem_append, mem_cons] at htimer
      rcases htimer with htimer | rfl | htimer
      · exact h.nonneg timer (hmem timer (.inl htimer))
      · exact add_nonneg hnext hcurr
      · exact h.nonneg timer (hmem timer (by simp [htimer]))

theorem TimerInv.remove (id : ℕ) (linked : Bool) :
    TimerInv { s with timerList := (timerRemove s.timerList id linked).1 } := by
  by_cases hmem : id ∈ s.timerList.map Timer.id ∧ linked = true
  · obtain ⟨⟨curr, hcurr, rfl⟩, rfl⟩ := hmem.imp_left mem_map.mp
    obtain ⟨front, rest, hsplit⟩ := append_of_mem hcurr
    have hnodup := h.nodup
    have hfirst : curr.id ∉ front.map Timer.id := by
      intro hin
      rw [hsplit, map_append] at hnodup
      exact (nodup_append.mp hnodup).2.2 _ hin _ (by simp) rfl
    have hlist : (timerRemove s.timerList curr.id true).1 = front ++ timerFold curr rest := by
      have hne : s.timerList ≠ [] := ne_nil_of_mem hcurr
      rw [timerRemove, if_neg (by simp), if_neg hne, hsplit, timerRemoveWalk_split hfirst]
    obtain ⟨htimes, hids, hnonneg⟩ := h.times_removed hsplit
    have hsub : ((front ++ rest).map Timer.id).Sublist (s.timerList.map Timer.id) := by
      rw [hsplit]
      exact ((sublist_cons_self curr rest).append_left front).map Timer.id
    have hpending : ∀ P : ℕ → Prop, (∀ timer ∈ s.timerList, P timer.id) →
        ∀ timer ∈ front ++ timerFold curr rest, P timer.id := by
      intro P hP timer htimer
      have hin : timer.id ∈ s.timerList.map Timer.id :=
        hsub.subset (hids ▸ mem_map_of_mem htimer)
      obtain ⟨other, hother, heq⟩ := mem_map.mp hin
      exact heq ▸ hP other hother
    rw [hlist]
    refine { h with
      times := ?_
      nonneg := hnonneg
      bounded := hpending (fun j => s.remaining j < _) h.bounded
      nodup := by
        rw [hids]
        exact h.nodup.sublist hsub
      firedFirst := fun f hf =>
        hpending (fun j => f.2 ≤ s.deadline j) (h.firedFirst f hf) }
    rw [htimes]
    have hmap := congrArg (map fun j => (j, s.remaining j)) hids
    rw [map_map, map_map] at hmap
    exact hmap.symm
  · -- Nothing is removed.
    have hlist : (timerRemove s.timerList id linked).1 = s.timerList := by
      cases linked with
      | false => rfl
      | true =>
        have hnot : id ∉ s.timerList.map Timer.id := fun hin =>
          hmem ⟨hin, rfl⟩
        rw [timerRemove, timerRemoveWalk_of_not_mem hnot]
        split_ifs <;> rfl
    rw [hlist]
    exact h

end

theorem remaining_ticked (s : TimerSystem) (id : ℕ) :
    s.ticked.remaining id = s.remaining id - 10 := by
  simp only [TimerSystem.remaining, TimerSystem.ticked, Nat.cast_succ]
  ring

theorem deadline_ticked (s : TimerSystem) (id : ℕ) : s.ticked.deadline id = s.deadline id := rfl

section

variable (h : TimerInv s)
include h

theorem TimerInv.times_ticked (hlist : s.timerList = timer :: rest) :
    deltaTimes (timer.expires - 10) (deltas rest) =
      rest.map fun t => (t.id, s.ticked.remaining t.id) := by
  have htimes := h.times
  rw [hlist, deltas_cons, deltaTimes_cons, zero_add] at htimes
  have hrest : deltaTimes timer.expires (deltas rest) =
      rest.map fun t => (t.id, s.remaining t.id) :=
    (cons_eq_cons.mp htimes).2
  rw [sub_eq_add_neg, deltaTimes_shift, hrest, map_map]
  refine map_congr_left fun t _ => ?_
  simp [remaining_ticked, sub_eq_add_neg]

theorem TimerInv.tick_empty (hlist : s.timerList = []) : TimerInv s.ticked := by
  have hticked : s.ticked = { s with ticks := s.ticks + 1 } := by
    simp [TimerSystem.ticked, hlist, updateTimers]
  rw [hticked]
  refine { h with
    times := by simp [hlist]
    bounded := by simp [hlist]
    firedDue := fun f hf => ?_ }
  have hdue := h.firedDue f hf
  push_cast
  omega

theorem TimerInv.ticked_cons (hlist : s.timerList = timer :: rest) :
    (s.ticked.timerList, s.ticked.fired) = if timer.expires ≤ 10 then
        (rest, s.fired ++ [(timer.id, s.deadline timer.id)])
      else (⟨timer.id, timer.expires - 10⟩ :: rest, s.fired) := by
  have hmem : timer ∈ s.timerList := by simp [hlist]
  have hupdate := updateTimers_cons rest (h.nonneg timer hmem) (h.expires_lt timer hmem)
  rw [TimerSystem.ticked, hlist, hupdate]
  split <;> simp

theorem TimerInv.tick_wait (hlist : s.timerList = timer :: rest)
    (hwait : 10 < timer.expires) : TimerInv s.ticked := by
  have hmem : timer ∈ s.timerList := by simp [hlist]
  have hrest : ∀ t ∈ rest, t ∈ s.timerList := fun t ht => by simp [hlist, ht]
  have hticked := h.ticked_cons hlist
  rw [if_neg hwait.not_ge] at hticked
  obtain ⟨htimer, hfired⟩ := Prod.mk.inj hticked
  have hpending : ∀ P : ℕ → Prop, (∀ t ∈ s.timerList, P t.id) →
      ∀ t ∈ s.ticked.timerList, P t.id := by
    intro P hP t ht
    rw [htimer, mem_cons] at ht
    rcases ht with rfl | ht
    · exact hP timer hmem
    · exact hP t (hrest t ht)
  refine {
    times := ?_
    nonneg := fun t ht => ?_
    bounded := hpending (fun j => s.ticked.remaining j < _) fun t ht => ?_
    nodup := ?_
    firedSorted := by
      rw [hfired]
      exact h.firedSorted
    firedDue := fun f hf => ?_
    firedFirst := fun f hf => ?_ }
  · rw [htimer, deltas_cons, deltaTimes_cons, map_cons, zero_add,
      h.times_ticked hlist, remaining_ticked, (h.head_le hlist).1]
  · rw [htimer, mem_cons] at ht
    rcases ht with rfl | ht
    · exact sub_nonneg.mpr hwait.le
    · exact h.nonneg t (hrest t ht)
  · have hbound := h.bounded t ht
    rw [remaining_ticked]
    omega
  · have hnodup := h.nodup
    rw [hlist] at hnodup
    rw [htimer]
    exact hnodup
  · rw [hfired] at hf
    have hdue := h.firedDue f hf
    simp only [TimerSystem.ticked]
    omega
  · rw [hfired] at hf
    exact hpending (fun j => f.2 ≤ s.ticked.deadline j) (h.firedFirst f hf)

/-- The head fires, with nothing behind it or exactly on time. -/
theorem TimerInv.tick_fire (hlist : s.timerList = timer :: rest) (hdue : timer.expires ≤ 10)
    (hloss : rest = [] ∨ timer.expires = 10) : TimerInv s.ticked := by
  have hmem : timer ∈ s.timerList := by simp [hlist]
  have hrest : ∀ t ∈ rest, t ∈ s.timerList := fun t ht => by simp [hlist, ht]
  have hticked := h.ticked_cons hlist
  rw [if_pos hdue] at hticked
  obtain ⟨htimer, hfired⟩ := Prod.mk.inj hticked
  obtain ⟨hhead, hbehind⟩ := h.head_le hlist
  have hdeadline : s.deadline timer.id = timer.expires + 10 * s.ticks := by
    rw [deadline_eq_remaining, hhead]
  have hmemFired : ∀ f ∈ s.ticked.fired, f ∈ s.fired ∨ f = (timer.id, s.deadline timer.id) := by
    intro f hf
    simpa [hfired] using hf
  refine {
    times := ?_
    nonneg := fun t ht => h.nonneg t (hrest t (htimer ▸ ht))
    bounded := fun t ht => ?_
    nodup := ?_
    firedSorted := ?_
    firedDue := fun f hf => ?_
    firedFirst := fun f hf t ht => ?_ }
  · rw [htimer]
    rcases hloss with rfl | hexact
    · rfl
    · simpa [hexact] using h.times_ticked hlist
  · have hbound := h.bounded t (hrest t (htimer ▸ ht))
    rw [remaining_ticked]
    omega
  · have hnodup := h.nodup
    rw [hlist] at hnodup
    rw [htimer]
    exact (nodup_cons.mp hnodup).2
  · rw [hfired, map_append, pairwise_append]
    refine ⟨h.firedSorted, by simp, ?_⟩
    intro x hx y hy
    obtain ⟨f, hf, rfl⟩ := mem_map.mp hx
    have hy' : y = s.deadline timer.id := by simpa using hy
    exact hy' ▸ h.firedFirst f hf timer hmem
  · have hticks : (s.ticked.ticks : ℤ) = s.ticks + 1 := by simp [TimerSystem.ticked]
    rcases hmemFired f hf with hf | rfl
    · have hdue' := h.firedDue f hf
      omega
    · omega
  · have ht' := htimer ▸ ht
    rw [deadline_ticked]
    rcases hmemFired f hf with hf | rfl
    · exact h.firedFirst f hf t (hrest t ht')
    · have hle := hbehind t ht'
      rw [deadline_eq_remaining s t.id]
      omega

theorem TimerInv.tick (hloss : TimerOp.tick.Lossless s) : TimerInv s.ticked := by
  cases hlist : s.timerList with
  | nil => exact h.tick_empty hlist
  | cons timer rest =>
    by_cases hdue : timer.expires ≤ 10
    · refine h.tick_fire hlist hdue ?_
      rcases hloss with hlen | hhead
      · left
        simpa [hlist] using hlen
      · right
        have hge : 10 ≤ timer.expires := hhead timer (by simp [hlist])
        omega
    · exact h.tick_wait hlist (not_le.mp hdue)

theorem TimerInv.step (hop : op.Legal s ∧ op.Lossless s) (hs' : timerStep s op = some s') :
    TimerInv s' := by
  cases op with
  | add id timeout =>
    cases hs'
    exact h.add hop.1 hop.2
  | remove id linked =>
    cases hs'
    exact h.remove id linked
  | tick =>
    cases hs'
    exact h.tick hop.2

theorem TimerInv.lossless_of_add (hlegal : (TimerOp.add id timeout).Legal s)
    (hexact : DeltaExact (s.added id timeout)) : (TimerOp.add id timeout).Lossless s := by
  obtain ⟨hpos, hint, -⟩ := hlegal
  obtain ⟨-, -, htotal⟩ := timerAddDelta_passed id h.nonneg hpos hint
  have hlist : (s.added id timeout).timerList = _ :=
    timerAdd_split s.timerList ⟨id, timeout⟩
  -- Read the queue at the place of the new timer.
  have hnew := hexact (passed timeout s.timerList).length (by
    rw [hlist]
    simp)
  simp only [hlist, getElem_append_right, le_refl, Nat.sub_self,
    getElem_cons_zero, remaining_added, if_true] at hnew
  rw [take_length_add_append, map_append, sum_append, ← deltaTotal_deltas, take_succ_cons,
    take_zero, map_singleton, sum_singleton] at hnew
  exact add_eq_right.mp (htotal.symm.trans hnew.symm)

theorem TimerInv.lossless_of_tick (hexact : DeltaExact s.ticked) : TimerOp.tick.Lossless s := by
  cases hlist : s.timerList with
  | nil => simp [TimerOp.Lossless, hlist]
  | cons timer rest =>
    cases rest with
    | nil => simp [TimerOp.Lossless, hlist]
    | cons next rest =>
      by_contra hlossy
      have hlt : timer.expires < 10 := by simpa [TimerOp.Lossless, hlist] using hlossy
      have hticked := h.ticked_cons hlist
      rw [if_pos hlt.le] at hticked
      obtain ⟨htimer, -⟩ := Prod.mk.inj hticked
      have hnext : s.ticked.remaining next.id = next.expires := by
        have hzero := hexact 0 (by simp [htimer])
        simpa [htimer] using hzero
      have hshift := h.times_ticked hlist
      have htime : timer.expires - 10 + next.expires = s.ticked.remaining next.id :=
        congrArg Prod.snd (cons_eq_cons.mp hshift).1
      omega

/-- From a state of the invariant, the next operation leaves the queue exact
precisely when it loses no time. -/
theorem TimerInv.deltaExact_iff_lossless (hlegal : op.Legal s)
    (hs' : timerStep s op = some s') : DeltaExact s' ↔ op.Lossless s := by
  constructor
  · intro hexact
    cases op with
    | add id timeout =>
      cases hs'
      exact h.lossless_of_add hlegal hexact
    | remove id linked => trivial
    | tick =>
      cases hs'
      exact h.lossless_of_tick hexact
  · intro hloss
    exact (h.step ⟨hlegal, hloss⟩ hs').deltaExact

theorem TimerInv.queued_step (hop : op.Legal s ∧ op.Lossless s) (htick : op ≠ .tick)
    (hs' : timerStep s op = some s') (hid : id ∈ s.timerList.map Timer.id)
    (hid' : id ∈ s'.timerList.map Timer.id) :
    TimerQueue.queued s'.timerList id = TimerQueue.queued s.timerList id := by
  rw [(h.step hop hs').queued hid', h.queued hid]
  cases op with
  | add new timeout =>
    have hne : id ≠ new := by
      rintro rfl
      exact hop.1.2.2 hid
    cases hs'
    rw [remaining_added, if_neg hne]
  | remove old linked =>
    cases hs'
    rfl
  | tick => exact absurd rfl htick

end

end Step

/-! ## Runs -/

/-- In every run that loses no time, the differences decode to the remaining
times, timers have fired in the order of their deadlines, and an operation on
one timer moves no other one.  The next operation keeps this up exactly when it
loses no time either. -/
theorem timer_queue_exact {s : TimerSystem}
    (h : Reach timerStep (fun s op => op.Legal s ∧ op.Lossless s) TimerSystem.initial s) :
    DeltaExact s ∧ (s.fired.map Prod.snd).Pairwise (· ≤ ·) ∧
      (∀ op s', op.Legal s → timerStep s op = some s' → (DeltaExact s' ↔ op.Lossless s)) ∧
      ∀ op s', op.Legal s ∧ op.Lossless s → op ≠ .tick → timerStep s op = some s' →
        ∀ id ∈ s.timerList.map Timer.id, id ∈ s'.timerList.map Timer.id →
          queued s'.timerList id = queued s.timerList id := by
  have hinv : TimerInv s := h.invariant timerInv_initial fun s op s' hs hop hs' => hs.step hop hs'
  refine ⟨hinv.deltaExact, hinv.firedSorted, ?_, ?_⟩
  · intro op s' hlegal hs'
    exact hinv.deltaExact_iff_lossless hlegal hs'
  · intro op s' hop htick hs' id hid hid'
    exact hinv.queued_step hop htick hs' hid hid'

/-- Timers of 30 and 20 milliseconds, of which the second one is due after two
ticks and the first one after a third. -/
theorem timer_queue_exact_two :
    ∃ s, Reach timerStep (fun s op => op.Legal s ∧ op.Lossless s) TimerSystem.initial s ∧
      DeltaExact s ∧ s.fired = [(1, 20), (0, 30)] := by
  obtain ⟨s, hreach, hfired⟩ := exists_reach timerStep (fun s op => op.Legal s ∧ op.Lossless s)
    TimerSystem.initial [.add 0 30, .add 1 20, .tick, .tick, .tick]
    (fun s => s.fired = [(1, 20), (0, 30)]) (by decide)
  exact ⟨s, hreach, (timer_queue_exact hreach).1, hfired⟩

/-- Three timers of 10, 20 and 30 milliseconds, added in this order, are stored
as the differences 10, 10 and 20, so the third one decodes to 40. -/
theorem timer_queue_three_adds_inexact :
    ∃ s, Reach timerStep (fun s op => op.Legal s) TimerSystem.initial s ∧
      s.timerList = [⟨0, 10⟩, ⟨1, 10⟩, ⟨2, 20⟩] ∧
      s.remaining 2 = 30 ∧ ¬ DeltaExact s := by
  obtain ⟨s, hs, hlist, hremaining⟩ := exists_reach timerStep (fun s op => op.Legal s)
    TimerSystem.initial [.add 0 10, .add 1 20, .add 2 30]
    (fun s => s.timerList = [⟨0, 10⟩, ⟨1, 10⟩, ⟨2, 20⟩] ∧ s.remaining 2 = 30) (by decide)
  refine ⟨s, hs, hlist, hremaining, fun hexact => ?_⟩
  have hthird := hexact 2 (by simp [hlist])
  simp [hlist, hremaining] at hthird

/-! ## When timers fire -/

section Firing

variable {s : TimerSystem} {timer : Timer} {front rest : List Timer}

theorem deadline_iterate (n : ℕ) (s : TimerSystem) (id : ℕ) :
    (TimerSystem.ticked^[n] s).deadline id = s.deadline id := by
  induction n generalizing s with
  | zero => rfl
  | succ n ih => exact ih s.ticked

theorem head_fires (hlow : 0 ≤ timer.expires) (hhigh : timer.expires < 2 ^ 31)
    (hlist : s.timerList = timer :: rest) :
    ∃ n : ℕ, timer.expires ≤ 10 * n ∧ 10 * n ≤ timer.expires + 10 ∧
      (TimerSystem.ticked^[n] s).timerList = rest ∧
      (TimerSystem.ticked^[n] s).fired = s.fired ++ [(timer.id, s.deadline timer.id)] ∧
      ∀ m < n, (TimerSystem.ticked^[m] s).timerList.map Timer.id = s.timerList.map Timer.id := by
  -- The induction is on the number of ticks that do not fire it.
  obtain ⟨k, hk⟩ : ∃ k : ℕ, timer.expires ≤ 10 * (k + 1) ∧ (k = 0 ∨ 10 * k < timer.expires) :=
    ⟨((timer.expires - 1) / 10).toNat, by omega⟩
  induction k generalizing s timer with
  | zero =>
    have hupdate : updateTimers s.timerList = (rest, some ⟨timer.id, timer.expires - 10⟩) := by
      rw [hlist, updateTimers_cons rest hlow hhigh, if_pos (by omega)]
    refine ⟨1, by omega, by omega, congrArg Prod.fst hupdate, ?_, fun m hm => ?_⟩
    · show TimerSystem.fired s.ticked = _
      rw [TimerSystem.ticked, hupdate]
    · obtain rfl : m = 0 := by omega
      rfl
  | succ k ih =>
    have hupdate : updateTimers s.timerList = (⟨timer.id, timer.expires - 10⟩ :: rest, none) := by
      rw [hlist, updateTimers_cons rest hlow hhigh, if_neg (by omega)]
    have hticked : s.ticked.timerList = ⟨timer.id, timer.expires - 10⟩ :: rest :=
      congrArg Prod.fst hupdate
    have hfired : s.ticked.fired = s.fired := by rw [TimerSystem.ticked, hupdate]
    obtain ⟨n, hle, hlate, hrest, hfires, hbefore⟩ :=
      @ih s.ticked ⟨timer.id, timer.expires - 10⟩ (by dsimp only; omega) (by dsimp only; omega)
        hticked (by dsimp only; omega)
    dsimp only at hle hlate
    rw [hfired] at hfires
    refine ⟨n + 1, by omega, by omega, hrest, hfires, fun m hm => ?_⟩
    cases m with
    | zero => rfl
    | succ m =>
      refine (hbefore m (by omega)).trans ?_
      rw [hticked, hlist, map_cons, map_cons]

theorem pending_fires (hlist : s.timerList = front ++ timer :: rest)
    (hrange : ∀ t ∈ s.timerList, 0 ≤ t.expires ∧ t.expires < 2 ^ 31) :
    ∃ n : ℕ, ((front ++ [timer]).map Timer.expires).sum ≤ 10 * n ∧
      10 * n ≤ ((front ++ [timer]).map Timer.expires).sum + 10 * (front.length + 1) ∧
      (TimerSystem.ticked^[n] s).timerList = rest ∧ (TimerSystem.ticked^[n] s).fired =
        s.fired ++ (front ++ [timer]).map (fun t => (t.id, s.deadline t.id)) ∧
      ∀ m < n, timer.id ∈ (TimerSystem.ticked^[m] s).timerList.map Timer.id := by
  induction front generalizing s with
  | nil =>
    obtain ⟨hlow, hhigh⟩ := hrange timer (hlist ▸ mem_cons_self)
    obtain ⟨n, hle, hlate, hrest, hfired, hbefore⟩ := head_fires hlow hhigh hlist
    refine ⟨n, by simpa using hle, by simpa using hlate, hrest, hfired, fun m hm => ?_⟩
    rw [hbefore m hm, hlist]
    exact mem_cons_self
  | cons first front ih =>
    obtain ⟨hlow, hhigh⟩ := hrange first (hlist ▸ mem_cons_self)
    obtain ⟨n, hle, hlate, hrest, hfired, hbefore⟩ := head_fires hlow hhigh hlist
    obtain ⟨n', hle', hlate', hrest', hfired', hbefore'⟩ := ih hrest fun t ht =>
      hrange t (hlist ▸ mem_cons_of_mem _ (hrest ▸ ht))
    simp only [cons_append, map_cons, sum_cons, length_cons]
    refine ⟨n' + n, by omega, by omega, ?_, ?_, fun m hm => ?_⟩
    · rw [Function.iterate_add_apply]
      exact hrest'
    · rw [Function.iterate_add_apply, hfired', hfired, append_assoc]
      simp only [deadline_iterate, cons_append, nil_append]
    · by_cases hfirst : m < n
      · rw [hbefore m hfirst, hlist]
        simp
      · obtain ⟨k, rfl⟩ : ∃ k, m = k + n := ⟨m - n, by omega⟩
        rw [Function.iterate_add_apply]
        exact hbefore' k (by omega)

/-- A pending timer fires if the clock goes on ticking, after the timers in
front of it and in their order: not before its time, and late by one tick at
most for each timer up to it. -/
theorem timer_fires_in_time
    (h : Reach timerStep (fun s op => op.Legal s ∧ op.Lossless s) TimerSystem.initial s)
    (hlist : s.timerList = front ++ timer :: rest) :
    ∃ n : ℕ, s.remaining timer.id ≤ 10 * n ∧
      10 * n ≤ s.remaining timer.id + 10 * (front.length + 1) ∧
      (TimerSystem.ticked^[n] s).timerList = rest ∧ (TimerSystem.ticked^[n] s).fired =
        s.fired ++ (front ++ [timer]).map (fun t => (t.id, s.deadline t.id)) ∧
      ∀ m < n, timer.id ∈ (TimerSystem.ticked^[m] s).timerList.map Timer.id := by
  have hinv : TimerInv s := h.invariant timerInv_initial fun s op s' hs hop hs' => hs.step hop hs'
  have hlt : front.length < s.timerList.length := by simp [hlist]
  have hremaining := hinv.deltaExact front.length hlt
  have htake : s.timerList.take (front.length + 1) = front ++ [timer] := by
    rw [hlist, append_cons]
    exact take_left' (by simp)
  have htimer : s.timerList[front.length] = timer := by simp [hlist]
  rw [htake, htimer] at hremaining
  rw [hremaining]
  exact pending_fires hlist fun t ht => ⟨hinv.nonneg t ht, hinv.expires_lt t ht⟩

end Firing

theorem timer_fires_in_time_second :
    ∃ s, Reach timerStep (fun s op => op.Legal s ∧ op.Lossless s) TimerSystem.initial s ∧
      ∃ n : ℕ, 25 ≤ 10 * n ∧ 10 * n ≤ 45 ∧
        (TimerSystem.ticked^[n] s).fired = [(1, 12), (0, 25)] := by
  obtain ⟨s, hreach, hlist, hremaining, hfires⟩ := exists_reach timerStep
    (fun s op => op.Legal s ∧ op.Lossless s) TimerSystem.initial [.add 0 25, .add 1 12]
    (fun s => s.timerList = [⟨1, 12⟩] ++ ⟨0, 13⟩ :: [] ∧ s.remaining 0 = 25 ∧
      s.fired ++ [(1, s.deadline 1), (0, s.deadline 0)] = [(1, 12), (0, 25)]) (by decide)
  obtain ⟨n, hle, hlate, -, hfired, -⟩ := timer_fires_in_time hreach hlist
  rw [hremaining] at hle hlate
  exact ⟨s, hreach, n, by omega, by simp at hlate; omega, hfired.trans hfires⟩

end Whitix.TimerQueue
