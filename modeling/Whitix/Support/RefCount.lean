import Mathlib.Algebra.BigOperators.Group.Finset.Basic
import Mathlib.Data.Int.Cast.Lemmas

/-!
# Reference counts

Every object has a count of references.  Acquiring a reference adds one to the
count of an object, and releasing one takes one away, unless the count is zero.
The number of references taken on balance, over all objects, is what tells
whether a computation has leaked any.
-/

namespace Whitix.Support

open Function Finset

variable {α : Type*} [DecidableEq α]

def acquire (refs : α → ℕ) (v : α) : α → ℕ :=
  update refs v (refs v + 1)

def release (refs : α → ℕ) (v : α) : α → ℕ :=
  update refs v (refs v - 1)

section

variable (refs : α → ℕ)

theorem acquire_self (v : α) : acquire refs v v = refs v + 1 :=
  update_self v _ refs

theorem acquire_of_ne {v w : α} (h : w ≠ v) : acquire refs v w = refs w :=
  update_of_ne h _ refs

theorem release_self (v : α) : release refs v v = refs v - 1 :=
  update_self v _ refs

theorem release_of_ne {v w : α} (h : w ≠ v) : release refs v w = refs w :=
  update_of_ne h _ refs

@[simp]
theorem release_acquire (v : α) : release (acquire refs v) v = refs := by
  funext w
  by_cases hwv : w = v
  · rw [hwv, release_self, acquire_self, Nat.add_sub_cancel]
  · rw [release_of_ne _ hwv, acquire_of_ne _ hwv]

theorem acquire_comm (v w : α) : acquire (acquire refs v) w = acquire (acquire refs w) v := by
  funext x
  by_cases hvw : v = w
  · rw [hvw]
  · by_cases hxv : x = v
    · rw [hxv, acquire_of_ne _ hvw, acquire_self, acquire_self, acquire_of_ne _ hvw]
    · by_cases hxw : x = w
      · rw [hxw, acquire_self, acquire_of_ne _ (Ne.symm hvw),
          acquire_of_ne _ (Ne.symm hvw), acquire_self]
      · rw [acquire_of_ne _ hxw, acquire_of_ne _ hxv, acquire_of_ne _ hxv, acquire_of_ne _ hxw]

end

/-! ## Net changes -/

/-- On balance, `n` references have been taken between `refs₀` and `refs`. -/
def NetChange (refs₀ refs : α → ℕ) (n : ℤ) : Prop :=
  ∃ s : Finset α, (∀ v ∉ s, refs v = refs₀ v) ∧ ∑ v ∈ s, (refs v : ℤ) = ∑ v ∈ s, (refs₀ v : ℤ) + n

variable {refs₀ refs : α → ℕ} {n : ℤ}

omit [DecidableEq α] in
theorem NetChange.refl (refs : α → ℕ) : NetChange refs refs 0 :=
  ⟨∅, fun _ _ => rfl, by simp⟩

omit [DecidableEq α] in
theorem NetChange.extend {s t : Finset α} (hst : s ⊆ t) (hout : ∀ v ∉ s, refs v = refs₀ v)
    (hsum : ∑ v ∈ s, (refs v : ℤ) = ∑ v ∈ s, (refs₀ v : ℤ) + n) :
    ∑ v ∈ t, (refs v : ℤ) = ∑ v ∈ t, (refs₀ v : ℤ) + n := by
  classical
  have hrest : ∑ v ∈ t \ s, (refs v : ℤ) = ∑ v ∈ t \ s, (refs₀ v : ℤ) :=
    sum_congr rfl fun v hv => by rw [hout v (mem_sdiff.mp hv).2]
  rw [← sum_sdiff hst, ← sum_sdiff hst, hrest, hsum, add_assoc]

section

variable (h : NetChange refs₀ refs n)
include h

/-- The number of references taken on balance is determined. -/
theorem NetChange.unique {m : ℤ} (h' : NetChange refs₀ refs m) : n = m := by
  obtain ⟨s, hout, hsum⟩ := h
  obtain ⟨t, hout', hsum'⟩ := h'
  have hs := NetChange.extend (subset_union_left : s ⊆ s ∪ t) hout hsum
  have ht := NetChange.extend (subset_union_right : t ⊆ s ∪ t) hout' hsum'
  rw [hs] at ht
  exact add_left_cancel ht

theorem NetChange.update (v : α) (k : ℕ) : NetChange refs₀ (update refs v k) (n + k - refs v) := by
  obtain ⟨s, hout, hsum⟩ := h
  have hbig := NetChange.extend (subset_insert v s) hout hsum
  have hv : v ∈ insert v s := mem_insert_self v s
  refine ⟨insert v s, ?_, ?_⟩
  · intro w hw
    rw [mem_insert, not_or] at hw
    rw [update_of_ne hw.1, hout w hw.2]
  · have hrest : ∑ w ∈ (insert v s).erase v, ((Function.update refs v k w : ℕ) : ℤ) =
          ∑ w ∈ (insert v s).erase v, (refs w : ℤ) :=
      sum_congr rfl fun w hw => by rw [update_of_ne (ne_of_mem_erase hw)]
    have hold := add_sum_erase _ (fun w => (refs w : ℤ)) hv
    rw [← add_sum_erase _ _ hv, hrest, update_self]
    omega

theorem NetChange.acquire (v : α) : NetChange refs₀ (acquire refs v) (n + 1) := by
  have hupdate := h.update v (refs v + 1)
  rwa [Nat.cast_add, Nat.cast_one, add_sub_assoc, add_sub_cancel_left] at hupdate

theorem NetChange.release {v : α} (hv : refs v ≠ 0) : NetChange refs₀ (release refs v) (n - 1) := by
  have hupdate := h.update v (refs v - 1)
  rwa [Nat.cast_sub (Nat.one_le_iff_ne_zero.mpr hv), Nat.cast_one,
    show n + ((refs v : ℤ) - 1) - refs v = n - 1 by omega] at hupdate

theorem NetChange.exists_release (v : α) :
    ∃ m, n - 1 ≤ m ∧ NetChange refs₀ (Support.release refs v) m := by
  by_cases hv : refs v = 0
  · have hsame : Support.release refs v = refs := by
      rw [Support.release, hv, Nat.zero_sub, ← hv, update_eq_self]
    refine ⟨n, by omega, ?_⟩
    rw [hsame]
    exact h
  · exact ⟨n - 1, le_rfl, h.release hv⟩

end

end Whitix.Support
