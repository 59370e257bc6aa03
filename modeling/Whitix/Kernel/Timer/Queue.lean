import Whitix.Include.Error
import Whitix.Support.DeltaList
import Whitix.Support.Word
import Mathlib.Data.List.TakeWhile

/-!
# The kernel timer queue

`kernel/timer.c` keeps the pending timers in one list.  The `expires` field of
an entry is meant to be the time left after its predecessor has fired, so that
a clock tick only has to touch the head of the list.

This module contains the code and what the single operations do to the times
the list decodes to.  `TimerAdd` subtracts only the difference of the entry in
front of the place of insertion, so an insertion is exact when the entries it
passes before that one store no time of their own.
-/

namespace Whitix.TimerQueue

open Support List

/-! ## The code -/

/-- `struct Timer`, identified by its address.  Callback, argument and owner
play no part in the queue. -/
structure Timer where
  id : ℕ
  expires : ℤ
deriving DecidableEq, Repr

/-- The `expires` value `TimerAdd` stores, given the entry in front of the
place of insertion. -/
def timerAddDelta (timer : Timer) : Option Timer → ℤ
  | none => timer.expires
  | some prev => int32 (timer.expires - prev.expires)

/-- The loop of `TimerAdd`; `prev` is the entry passed last. -/
def timerAddWalk (timer : Timer) : Option Timer → List Timer → List Timer
  | prev, [] => [{ timer with expires := timerAddDelta timer prev }]
  | prev, curr :: rest =>
    if timer.expires ≤ curr.expires then
      let delta := timerAddDelta timer prev
      { timer with expires := delta } ::
        { curr with expires := int32 (curr.expires - delta) } :: rest
    else curr :: timerAddWalk timer (some curr) rest

variable (timerList : List Timer) (timer : Timer)

def timerAdd : List Timer :=
  match timerList with
  | [] => [timer]
  | _ :: _ => timerAddWalk timer none timerList

/-- What `TimerRemove` leaves behind the removed entry `curr`. -/
def timerFold (curr : Timer) : List Timer → List Timer
  | [] => []
  | next :: rest =>
    if 0 < curr.expires then
      { next with expires := int32 (next.expires + curr.expires) } :: rest
    else next :: rest

def timerRemoveWalk (id : ℕ) : List Timer → List Timer
  | [] => []
  | curr :: rest =>
    if curr.id = id then timerFold curr rest
    else curr :: timerRemoveWalk id rest

/-- `TimerRemove` with its return value.  `linked` says whether the list
pointers of the timer are set. -/
def timerRemove (id : ℕ) (linked : Bool) : List Timer × ℤ :=
  if linked = false then (timerList, 0)
  else if timerList = [] then (timerList, -EINVAL)
  else (timerRemoveWalk id timerList, 0)

/-- `UpdateTimers`, with the timer whose callback it runs. -/
def updateTimers : List Timer → List Timer × Option Timer
  | [] => ([], none)
  | timer :: rest =>
    let timer := { timer with expires := int32 (timer.expires - 10) }
    if timer.expires ≤ 0 then (rest, some timer)
    else (timer :: rest, none)

/-! ## The operations on lists -/

/-- The entries `TimerAdd` passes before it stops. -/
def passed (timeout : ℤ) (timerList : List Timer) : List Timer :=
  timerList.takeWhile fun curr => curr.expires < timeout

def deltas : List (ℕ × ℤ) :=
  timerList.map fun timer => (timer.id, timer.expires)

/-- What the list behind an inserted entry becomes. -/
def timerSplit (delta : ℤ) : List Timer → List Timer
  | [] => []
  | curr :: rest =>
    { curr with expires := int32 (curr.expires - delta) } :: rest

theorem timerAddWalk_eq (prev : Option Timer) (xs : List Timer) :
    let front := passed timer.expires xs
    let delta := timerAddDelta timer (front.getLast?.or prev)
    timerAddWalk timer prev xs = front ++ { timer with expires := delta } ::
        timerSplit delta (xs.drop front.length) := by
  induction xs generalizing prev with
  | nil => simp [passed, timerAddWalk, timerSplit]
  | cons curr rest ih =>
    by_cases hle : timer.expires ≤ curr.expires
    · simp [passed, timerAddWalk, timerSplit, hle, not_lt.mpr hle]
    · have hlt : curr.expires < timer.expires := not_le.mp hle
      have hfront : passed timer.expires (curr :: rest) = curr :: passed timer.expires rest := by
        simp [passed, hlt]
      have hlast : ((curr :: passed timer.expires rest).getLast?).or prev =
          ((passed timer.expires rest).getLast?).or (some curr) := by
        cases passed timer.expires rest with
        | nil => simp
        | cons x xs =>
          rw [getLast?_cons_cons]
          cases hx : (x :: xs).getLast? with
          | none => simp at hx
          | some y => simp
      simp only [timerAddWalk, if_neg hle, hfront, hlast, ih (some curr),
        cons_append, length_cons, drop_succ_cons]

theorem timerAdd_eq_walk : timerAdd timerList timer = timerAddWalk timer none timerList := by
  cases timerList with
  | nil => simp [timerAdd, timerAddWalk, timerAddDelta]
  | cons curr rest => rfl

variable {xs : List Timer} {timeout : ℤ}

theorem timerRemoveWalk_of_not_mem {id : ℕ}
    (h : id ∉ xs.map Timer.id) : timerRemoveWalk id xs = xs := by
  induction xs with
  | nil => rfl
  | cons curr rest ih =>
    have hne : curr.id ≠ id := by
      rintro rfl
      exact h (by simp)
    have hrest : id ∉ rest.map Timer.id := fun hmem =>
      h (mem_cons_of_mem _ hmem)
    simp [timerRemoveWalk, hne, ih hrest]

variable {curr : Timer} {rest : List Timer}

theorem timerRemoveWalk_split {front : List Timer} (h : curr.id ∉ front.map Timer.id) :
    timerRemoveWalk curr.id (front ++ curr :: rest) = front ++ timerFold curr rest := by
  induction front with
  | nil => simp [timerRemoveWalk]
  | cons x front ih =>
    have hne : x.id ≠ curr.id := by
      intro heq
      exact h (by simp [heq])
    have hfront : curr.id ∉ front.map Timer.id := fun hmem =>
      h (mem_cons_of_mem _ hmem)
    simp [timerRemoveWalk, hne, ih hfront]

theorem passed_append_drop (timeout : ℤ) (xs : List Timer) :
    passed timeout xs ++ xs.drop (passed timeout xs).length = xs :=
  prefix_iff_eq_append.mp ( takeWhile_prefix _)

theorem lt_of_mem_passed {timer : Timer}
    (h : timer ∈ passed timeout xs) : timer.expires < timeout := by simpa using mem_takeWhile_imp h

theorem le_of_drop_passed (h : xs.drop (passed timeout xs).length = curr :: rest) :
    timeout ≤ curr.expires := by
  have hdrop : xs.dropWhile (fun curr => curr.expires < timeout) = curr :: rest := by
    rw [← h]
    have hsplit := takeWhile_append_dropWhile
      (p := fun curr : Timer => decide (curr.expires < timeout)) (l := xs)
    exact append_cancel_left (hsplit.trans (passed_append_drop timeout xs).symm)
  have hhead := head?_dropWhile_not (fun curr : Timer => decide (curr.expires < timeout)) xs
  simpa [hdrop] using hhead

theorem deltaTotal_deltas (xs : List Timer) :
    deltaTotal (deltas xs) = (xs.map Timer.expires).sum := by
  simp [deltaTotal, deltas, Function.comp_def]

@[simp] theorem deltas_append (xs ys : List Timer) :
    deltas (xs ++ ys) = deltas xs ++ deltas ys := by simp [deltas]

@[simp] theorem deltas_cons (xs : List Timer) :
    deltas (timer :: xs) = (timer.id, timer.expires) :: deltas xs := rfl

@[simp] theorem deltas_nil : deltas [] = [] := rfl

theorem updateTimers_cons {timer : Timer} (rest : List Timer)
    (hlow : 0 ≤ timer.expires) (hhigh : timer.expires < 2 ^ 31) :
    updateTimers (timer :: rest) =
      if timer.expires ≤ 10 then (rest, some ⟨timer.id, timer.expires - 10⟩)
      else (⟨timer.id, timer.expires - 10⟩ :: rest, none) := by
  have hsub : int32 (timer.expires - 10) = timer.expires - 10 :=
    int32_of_range (by omega) (by omega)
  simp only [updateTimers, hsub, sub_nonpos]

section Insertion

/-- The difference stored by an insertion.  Together with the entries passed
it decodes to the requested timeout plus whatever these store in front of the
last one. -/
theorem timerAddDelta_passed (id : ℕ) (hnonneg : ∀ timer ∈ xs, 0 ≤ timer.expires)
    (hpos : 0 < timeout) (hint : timeout < 2 ^ 31) :
    let delta := timerAddDelta ⟨id, timeout⟩ ((passed timeout xs).getLast?)
    0 < delta ∧ delta ≤ timeout ∧ deltaTotal (deltas (passed timeout xs)) + delta =
        ((passed timeout xs).dropLast.map Timer.expires).sum + timeout := by
  cases hlast : (passed timeout xs).getLast? with
  | none =>
    have hnil : passed timeout xs = [] := getLast?_eq_none_iff.mp hlast
    simp [timerAddDelta, hnil, hpos]
  | some prev =>
    have hmem : prev ∈ passed timeout xs := mem_of_getLast? hlast
    have hlt : prev.expires < timeout := lt_of_mem_passed hmem
    have hprev : 0 ≤ prev.expires :=
      hnonneg prev (( takeWhile_prefix _).subset hmem)
    have hsplit : (passed timeout xs).dropLast ++ [prev] = passed timeout xs :=
      dropLast_append_getLast? prev hlast
    have htotal : deltaTotal (deltas (passed timeout xs)) =
        ((passed timeout xs).dropLast.map Timer.expires).sum + prev.expires := by
      rw [deltaTotal_deltas]
      nth_rewrite 1 [← hsplit]
      simp
    have hdelta : int32 (timeout - prev.expires) = timeout - prev.expires :=
      int32_of_range (by omega) (by omega)
    simp only [timerAddDelta, hdelta, htotal]
    omega

theorem deltas_timerSplit {delta : ℤ} (hlow : 0 ≤ delta) (hhigh : delta ≤ curr.expires)
    (hint : curr.expires < 2 ^ 31) :
    timerSplit delta (curr :: rest) = ⟨curr.id, curr.expires - delta⟩ :: rest := by
  have hsub : int32 (curr.expires - delta) = curr.expires - delta :=
    int32_of_range (by omega) (by omega)
  simp [timerSplit, hsub]

theorem timerAdd_split (xs : List Timer) (timer : Timer) :
    timerAdd xs timer = passed timer.expires xs ++
        { timer with
          expires := timerAddDelta timer (passed timer.expires xs).getLast? } ::
        timerSplit (timerAddDelta timer (passed timer.expires xs).getLast?)
          (xs.drop (passed timer.expires xs).length) := by
  rw [timerAdd_eq_walk, timerAddWalk_eq]
  simp

theorem timerSplit_ids (delta : ℤ) (xs : List Timer) :
    (timerSplit delta xs).map Timer.id = xs.map Timer.id := by
  cases xs with
  | nil | cons curr rest => rfl

theorem timerAdd_ids (xs : List Timer) (timer : Timer) :
    (timerAdd xs timer).map Timer.id = (passed timer.expires xs).map Timer.id ++ timer.id ::
      (xs.drop (passed timer.expires xs).length).map Timer.id := by
  rw [timerAdd_split, map_append, map_cons, timerSplit_ids]

theorem timerAdd_ids_perm (xs : List Timer) (timer : Timer) :
    ((timerAdd xs timer).map Timer.id).Perm (timer.id :: xs.map Timer.id) := by
  rw [timerAdd_ids]
  refine perm_middle.trans (List.Perm.cons _ ?_)
  rw [← map_append, passed_append_drop]

section

variable (id : ℕ) (hnonneg : ∀ timer ∈ xs, 0 ≤ timer.expires)
  (hbound : ∀ timer ∈ xs, timer.expires < 2 ^ 31) (hpos : 0 < timeout) (hint : timeout < 2 ^ 31)
include id hnonneg hbound hpos hint

theorem deltaTimes_timerAdd (hzero : ((passed timeout xs).dropLast.map Timer.expires).sum = 0) :
    deltaTimes 0 (deltas (timerAdd xs ⟨id, timeout⟩)) =
      deltaTimes 0 (deltas (passed timeout xs)) ++ (id, timeout) ::
        deltaTimes (deltaTotal (deltas (passed timeout xs)))
          (deltas (xs.drop (passed timeout xs).length)) := by
  obtain ⟨hdelta, hle, htotal⟩ := timerAddDelta_passed id hnonneg hpos hint
  rw [hzero] at htotal
  rw [timerAdd_split]
  cases hrest : xs.drop (passed timeout xs).length with
  | nil =>
    simp [timerSplit, deltaTimes_append, htotal]
  | cons curr rest =>
    have hcurr : curr ∈ xs := mem_of_mem_drop (by rw [hrest]; simp)
    have hge : timeout ≤ curr.expires := le_of_drop_passed hrest
    rw [deltas_timerSplit hdelta.le (hle.trans hge) (hbound curr hcurr)]
    simp only [deltas_append, deltas_cons]
    rw [deltaTimes_insert]
    simp only [zero_add, htotal, deltaTimes_cons]

theorem nonneg_timerAdd : ∀ timer ∈ timerAdd xs ⟨id, timeout⟩, 0 ≤ timer.expires := by
  obtain ⟨hdelta, hle, -⟩ := timerAddDelta_passed id hnonneg hpos hint
  intro timer htimer
  rw [timerAdd_split, mem_append, mem_cons] at htimer
  rcases htimer with hfront | rfl | hrest
  · exact hnonneg timer (( takeWhile_prefix _).subset hfront)
  · exact hdelta.le
  · cases hdrop : xs.drop (passed timeout xs).length with
    | nil => simp [hdrop, timerSplit] at hrest
    | cons curr rest =>
      have hsub : ∀ x ∈ curr :: rest, x ∈ xs := fun x hx =>
        mem_of_mem_drop (by rw [hdrop]; exact hx)
      have hge : timeout ≤ curr.expires := le_of_drop_passed hdrop
      simp only [hdrop] at hrest
      rw [deltas_timerSplit hdelta.le (hle.trans hge)
        (hbound curr (hsub curr (by simp))), mem_cons] at hrest
      rcases hrest with rfl | hrest
      · exact sub_nonneg.mpr (hle.trans hge)
      · exact hnonneg timer (hsub timer (mem_cons_of_mem _ hrest))

end

end Insertion

end Whitix.TimerQueue
