import Whitix.Support.Run

/-!
# Thread-specific keys

The keys of the POSIX library are slots of `pKeys`, and the values of the main thread are
in a table of two levels.  `pthread_key_delete` leaves the value in the table, where the
next key of the slot finds it.  The destructors, which no function calls, and the mutex are
left out.
-/

namespace Whitix.Pthread

open Support Function

inductive Errno
  | EAGAIN | EINVAL | ENOMEM

structure System where
  inUse : ℕ → Bool
  /-- The second level, as far as it has been allocated. -/
  specific : ℕ → Option (ℕ → ℕ)
  /-- The value set last since the key was created. -/
  last : ℕ → Option ℕ

variable (s : System) (key : ℕ)

/-- The slot that the loop of `pthread_key_create` finds. -/
def System.freeSlot : Option ℕ := (List.range 1024).find? fun i => !s.inUse i

def pthreadKeyCreate : Except Errno (ℕ × System) :=
  match s.freeSlot with
  | some i =>
    .ok (i, { s with inUse := update s.inUse i true, last := update s.last i none })
  | none => .error .EAGAIN

def pthreadKeyDelete : Except Errno System :=
  if 1024 ≤ key ∨ !s.inUse key then .error .EINVAL
  else .ok { s with inUse := update s.inUse key false }

/-- The flag says whether `calloc` finds memory. -/
def pthreadSetspecific (value : ℕ) (memory : Bool) : Except Errno System :=
  if 1024 ≤ key ∨ !s.inUse key then .error .EINVAL
  else if s.specific (key / 32) = none ∧ !memory then .error .ENOMEM
  else
    let table := (s.specific (key / 32)).getD fun _ => 0
    .ok { s with
      specific := update s.specific (key / 32) (some (update table (key % 32) value))
      last := update s.last key (some value) }

def pthreadGetspecific : ℕ :=
  if 1024 ≤ key then 0
  else
    match s.specific (key / 32) with
    | none => 0
    | some table => if s.inUse key then table (key % 32) else 0

inductive Op
  | create
  | delete (key : ℕ)
  | set (key value : ℕ) (memory : Bool)

/-- A call that fails changes nothing. -/
def step : Op → Option System
  | .create => some ((pthreadKeyCreate s).toOption.elim s Prod.snd)
  | .delete key => some ((pthreadKeyDelete s key).toOption.getD s)
  | .set key value memory => some ((pthreadSetspecific s key value memory).toOption.getD s)

/-- The key has been created and not been deleted. -/
def System.Live : Prop := key < 1024 ∧ s.inUse key

/-- The value that is stored for a key, in use or not. -/
def System.stored : ℕ := ((s.specific (key / 32)).getD fun _ => 0) (key % 32)

/-- Every live key returns the value set last since it was created, or `NULL`, and other
keys return `NULL`. -/
def Returns : Prop := ∀ k, (s.Live k → pthreadGetspecific s k = (s.last k).getD 0) ∧
  (¬ s.Live k → pthreadGetspecific s k = 0)

/-- A key that is created has no value from its slot's previous key. -/
def Fresh : Op → Prop
  | .create => ∀ i ∈ s.freeSlot, s.stored i = 0
  | _ => True

instance : ∀ op, Decidable (Fresh s op)
  | .create => inferInstanceAs (Decidable (∀ i ∈ s.freeSlot, _))
  | .delete _ | .set .. => isTrue trivial

def Op.On : Op → Prop
  | .create => False
  | .delete k | .set k .. => key = k

variable {s : System} {key : ℕ}

theorem getspecific_live (h : s.Live key) : pthreadGetspecific s key = s.stored key := by
  rw [pthreadGetspecific, if_neg (Nat.not_le.mpr h.1), System.stored]
  cases s.specific (key / 32) with
  | none => rfl
  | some table => exact if_pos h.2

theorem getspecific_dead (h : ¬ s.Live key) : pthreadGetspecific s key = 0 := by
  unfold pthreadGetspecific
  split
  · rfl
  · next hkey =>
    cases s.specific (key / 32) with
    | none => rfl
    | some table => exact if_neg fun huse => h ⟨Nat.not_le.mp hkey, huse⟩

theorem returns_iff : Returns s ↔ ∀ k, s.Live k → s.stored k = (s.last k).getD 0 :=
  forall_congr' fun _ => ⟨fun h hlive => getspecific_live hlive ▸ h.1 hlive,
    fun h => ⟨fun hlive => (getspecific_live hlive).trans (h hlive), getspecific_dead⟩⟩

theorem freeSlot_dead (h : s.freeSlot = some key) : key < 1024 ∧ ¬ s.Live key := by
  unfold System.freeSlot at h
  refine ⟨List.mem_range.mp (List.mem_of_find?_eq_some h), fun hlive => ?_⟩
  have hfree := List.find?_some h
  rw [hlive.2] at hfree
  cases hfree

/-- What a call does to the keys and their values. -/
theorem step_cases {op : Op} {s' : System} (h : step s op = some s') : s' = s ∧ Fresh s op ∨
    (∃ i, op = .create ∧ s.freeSlot = some i ∧ s'.inUse = update s.inUse i true ∧
      s'.last = update s.last i none ∧ s'.stored = s.stored) ∨
    (∃ k, op = .delete k ∧ s'.inUse = update s.inUse k false ∧ s'.last = s.last ∧
      s'.stored = s.stored) ∨
    ∃ k value memory, op = .set k value memory ∧ s'.inUse = s.inUse ∧
      s'.last = update s.last k (some value) ∧ s'.stored = update s.stored k value := by
  cases op with
  | create =>
    obtain rfl := Option.some.inj h
    unfold pthreadKeyCreate Fresh
    cases hfree : s.freeSlot with
    | none => exact .inl ⟨rfl, nofun⟩
    | some i => exact .inr (.inl ⟨i, rfl, rfl, rfl, rfl, rfl⟩)
  | delete k =>
    obtain rfl := Option.some.inj h
    unfold pthreadKeyDelete
    split_ifs
    · exact .inl ⟨rfl, trivial⟩
    · exact .inr (.inr (.inl ⟨k, rfl, rfl, rfl, rfl⟩))
  | set k value memory =>
    obtain rfl := Option.some.inj h
    unfold pthreadSetspecific
    split_ifs
    · exact .inl ⟨rfl, trivial⟩
    · exact .inl ⟨rfl, trivial⟩
    · refine .inr (.inr (.inr ⟨k, value, memory, rfl, rfl, rfl, funext fun j => ?_⟩))
      by_cases hj : j / 32 = k / 32
      · have hslot : j % 32 = k % 32 ↔ j = k := by omega
        simp [System.stored, Except.toOption, hj, update_apply, hslot]
      · have hne : j ≠ k := fun h => hj (h ▸ rfl)
        simp [System.stored, Except.toOption, hj, hne]

section
variable {op : Op} {s' : System} (hs : step s op = some s')
include hs

theorem returns_step (h : Returns s) : Returns s' ↔ Fresh s op := by
  rw [returns_iff] at *
  obtain ⟨rfl, hfresh⟩ | ⟨i, rfl, hi, huse, hlast, hstored⟩ | ⟨i, rfl, huse, hlast, hstored⟩ |
    ⟨i, _, _, rfl, huse, hlast, hstored⟩ := step_cases hs
  · exact iff_of_true h hfresh
  · rw [hstored, hlast]
    refine ⟨fun hafter j hj => ?_, fun hfresh k hk => ?_⟩
    · obtain rfl := Option.some.inj (hi.symm.trans hj)
      have hnull := hafter i ⟨(freeSlot_dead hi).1, by rw [huse, update_self]⟩
      rwa [update_self] at hnull
    · by_cases hki : k = i
      · rw [hki, update_self]
        exact hfresh i hi
      · rw [update_of_ne hki]
        exact h k ⟨hk.1, by simpa [huse, hki] using hk.2⟩
  · refine iff_of_true (fun k hk => ?_) trivial
    have hki : k ≠ i := by
      rintro rfl
      simp [System.Live, huse] at hk
    rw [hstored, hlast]
    exact h k ⟨hk.1, by simpa [huse, hki] using hk.2⟩
  · refine iff_of_true (fun k hk => ?_) trivial
    rw [hstored, hlast]
    by_cases hki : k = i
    · rw [hki, update_self, update_self]
      rfl
    · rw [update_of_ne hki, update_of_ne hki]
      exact h k ⟨hk.1, huse ▸ hk.2⟩

theorem getspecific_step (hlive : s.Live key) (hon : ¬ op.On key) :
    pthreadGetspecific s' key = pthreadGetspecific s key := by
  suffices h : s'.inUse key ∧ s'.stored key = s.stored key by
    rw [getspecific_live ⟨hlive.1, h.1⟩, getspecific_live hlive, h.2]
  obtain ⟨rfl, -⟩ | ⟨i, -, hi, huse, -, hstored⟩ | ⟨i, rfl, huse, -, hstored⟩ |
    ⟨i, _, _, rfl, huse, -, hstored⟩ := step_cases hs
  · exact ⟨hlive.2, rfl⟩
  · have hki : key ≠ i := fun h => (freeSlot_dead hi).2 (h ▸ hlive)
    rw [huse, update_of_ne hki, hstored]
    exact ⟨hlive.2, rfl⟩
  · rw [huse, update_of_ne hon, hstored]
    exact ⟨hlive.2, rfl⟩
  · rw [huse, hstored, update_of_ne hon]
    exact ⟨hlive.2, rfl⟩

end

def initial : System := ⟨fun _ => false, fun _ => none, fun _ => none⟩

/-- Keys return what was set last as long as none takes over the value of an earlier one,
and no longer.  A call never changes what another live key returns. -/
theorem returns_iff_fresh :
    (Reach step Fresh initial s → Returns s ∧
      ∀ op s', step s op = some s' → (Returns s' ↔ Fresh s op)) ∧
    ∀ op s' k, step s op = some s' → s.Live k → ¬ op.On k →
      pthreadGetspecific s' k = pthreadGetspecific s k := by
  refine ⟨fun h => ?_, fun _ _ _ hs => getspecific_step hs⟩
  have hreturns : Returns s :=
    h.invariant (returns_iff.mpr fun _ hk => absurd hk.2 Bool.false_ne_true)
      fun _ _ _ hreturns hfresh hs => (returns_step hs hreturns).mpr hfresh
  exact ⟨hreturns, fun _ _ hs => returns_step hs hreturns⟩

/-- Of two keys the second one is set, set to `NULL`, deleted and created again. -/
theorem returns_iff_fresh_two : ∃ s, Reach step Fresh initial s ∧
    pthreadGetspecific s 0 = 5 ∧ pthreadGetspecific s 1 = 0 ∧ Returns s := by
  obtain ⟨s, hs, hzero, hone⟩ := exists_reach step Fresh initial
    [.create, .create, .set 1 7 true, .set 1 0 false, .delete 1, .set 0 5 true, .create]
    (fun s => pthreadGetspecific s 0 = 5 ∧ pthreadGetspecific s 1 = 0) (by decide +kernel)
  exact ⟨s, hs, hzero, hone, (returns_iff_fresh.1 hs).1⟩

/-- A key that has just been created returns the value of the key that had its slot. -/
theorem not_returns_reused : ∃ s, Reach step (fun _ _ => True) initial s ∧
    s.last 0 = none ∧ pthreadGetspecific s 0 = 5 ∧ ¬ Returns s := by
  obtain ⟨s, hs, huse, hlast, hget⟩ := exists_reach step (fun _ _ => True) initial
    [.create, .set 0 5 true, .delete 0, .create]
    (fun s => s.inUse 0 = true ∧ s.last 0 = none ∧ pthreadGetspecific s 0 = 5) (by decide +kernel)
  refine ⟨s, hs, hlast, hget, fun h => ?_⟩
  have hnull := (h 0).1 ⟨by decide, huse⟩
  rw [hget, hlast] at hnull
  cases hnull

end Whitix.Pthread
