import Mathlib.Data.List.Basic

/-!
# Runs of a partial transition function

A kernel component is modelled by a function that executes one operation in
one state.  The function is partial: `none` stands for an operation that does
not return, because the machine halts, faults or waits forever.  This module
contains the component-independent notion of a run in which every operation
meets a side condition in the state it is executed in, and the rule by which
an invariant of single operations becomes an invariant of runs.
-/

namespace Whitix.Support

variable {σ ι : Type*}

/-- The states reached from `s₀` by operations that all meet `guard` in the
state they are executed in. -/
inductive Reach (step : σ → ι → Option σ) (guard : σ → ι → Prop) (s₀ : σ) : σ → Prop
  | refl : Reach step guard s₀ s₀
  | tail {s s' : σ} (op : ι) :
      Reach step guard s₀ s → guard s op → step s op = some s' → Reach step guard s₀ s'

section Invariants

variable {step : σ → ι → Option σ} {guard : σ → ι → Prop} {s₀ s : σ}

theorem Reach.invariant {Inv : σ → Prop} (hinit : Inv s₀)
    (hstep : ∀ s op s', Inv s → guard s op → step s op = some s' → Inv s')
    (h : Reach step guard s₀ s) : Inv s := by
  induction h with
  | refl => exact hinit
  | tail op _ hguard hs ih => exact hstep _ op _ ih hguard hs

theorem Reach.mono {guard' : σ → ι → Prop} (hguard : ∀ s op, guard s op → guard' s op)
    (h : Reach step guard s₀ s) : Reach step guard' s₀ s := by
  induction h with
  | refl => exact Reach.refl
  | tail op _ hg hs ih => exact Reach.tail op ih (hguard _ op hg) hs

end Invariants

/-- Execute a list of operations, stopping with `none` at the first one that
does not return or does not meet the side condition. -/
def runGuarded (step : σ → ι → Option σ) (guard : σ → ι → Prop)
    [∀ s op, Decidable (guard s op)] : σ → List ι → Option σ
  | s, [] => some s
  | s, op :: ops =>
    if guard s op then
      (step s op).bind fun s' => runGuarded step guard s' ops
    else none

variable {guard : σ → ι → Prop} {step : σ → ι → Option σ} {ops : List ι}

theorem reach_of_runGuarded [∀ s op, Decidable (guard s op)] {s₀ s : σ}
    (h : runGuarded step guard s₀ ops = some s) : Reach step guard s₀ s := by
  suffices hgen : ∀ s₁, Reach step guard s₀ s₁ →
      runGuarded step guard s₁ ops = some s → Reach step guard s₀ s from
    hgen s₀ Reach.refl h
  clear h
  induction ops with
  | nil =>
    intro s₁ hs₁ h
    simp only [runGuarded, Option.some.injEq] at h
    exact h ▸ hs₁
  | cons op ops ih =>
    intro s₁ hs₁ h
    rw [runGuarded] at h
    split at h
    · next hguard =>
      obtain ⟨s₂, hs₂, hrest⟩ := Option.bind_eq_some_iff.mp h
      exact ih s₂ (Reach.tail op hs₁ hguard hs₂) hrest
    · cases h

theorem exists_reach (step : σ → ι → Option σ) (guard : σ → ι → Prop)
    [∀ s op, Decidable (guard s op)] (s₀ : σ) (ops : List ι) (P : σ → Prop) [DecidablePred P]
    (h : (runGuarded step guard s₀ ops).any (fun s => P s) = true) :
    ∃ s, Reach step guard s₀ s ∧ P s := by
  obtain ⟨s, hs, hP⟩ := (Option.any_eq_true _ _).mp h
  exact ⟨s, reach_of_runGuarded hs, of_decide_eq_true hP⟩

end Whitix.Support
