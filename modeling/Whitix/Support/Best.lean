import Mathlib.Data.List.Induction
import Mathlib.Order.Lattice

/-!
# The best element of a list

A loop over a list keeps the first of the admissible elements that have the largest
key.
-/

namespace Whitix.Support

open List

variable {α β κ : Type*} [LinearOrder κ] {admissible : α → Prop} {key : α → κ}

/-- An admissible element of the list with the largest key, if there is one. -/
def BestOf (admissible : α → Prop) (key : α → κ) (l : List α) : Option α → Prop
  | none => ∀ a ∈ l, ¬ admissible a
  | some b => b ∈ l ∧ admissible b ∧ ∀ a ∈ l, admissible a → key a ≤ key b

/-- The best element after one more, which replaces the old one only if it is better. -/
inductive Improves (admissible : α → Prop) (key : α → κ) (best : Option α) (a : α) :
    Option α → Prop
  | takes : admissible a → (∀ b ∈ best, key b ≤ key a) → Improves admissible key best a (some a)
  | keeps : (admissible a → ∃ b ∈ best, key a ≤ key b) → Improves admissible key best a best

theorem BestOf.snoc {l : List α} {a : α} {best best' : Option α}
    (h : BestOf admissible key l best) (himproves : Improves admissible key best a best') :
    BestOf admissible key (l ++ [a]) best' := by
  cases himproves with
  | takes ha hless =>
    refine ⟨mem_append_right _ mem_cons_self, ha, forall_mem_append.mpr ⟨fun c hc hadm => ?_,
      forall_mem_singleton.mpr fun _ => le_rfl⟩⟩
    cases best with
    | none => exact absurd hadm (h c hc)
    | some b => exact (h.2.2 c hc hadm).trans (hless b rfl)
  | keeps hmore =>
    cases best with
    | none =>
      refine forall_mem_append.mpr ⟨h, forall_mem_singleton.mpr fun ha => ?_⟩
      obtain ⟨b, hb, -⟩ := hmore ha
      cases hb
    | some b =>
      refine ⟨mem_append_left _ h.1, h.2.1, forall_mem_append.mpr ⟨h.2.2,
        forall_mem_singleton.mpr fun ha => ?_⟩⟩
      obtain ⟨_, ⟨⟩, hle⟩ := hmore ha
      exact hle

/-- A loop whose state has the best element, with an invariant of the rest of the
state. -/
theorem bestOf_foldl {f : β → α → β} (choice : β → Option α) (P : β → Prop)
    (hstep : ∀ r a, P r → P (f r a) ∧ Improves admissible key (choice r) a (choice (f r a)))
    {r : β} (hr : P r) (hnone : choice r = none) (l : List α) :
    P (l.foldl f r) ∧ BestOf admissible key l (choice (l.foldl f r)) := by
  induction l using reverseRecOn with
  | nil =>
    refine ⟨hr, ?_⟩
    rw [foldl_nil, hnone]
    exact nofun
  | append_singleton l a ih =>
    rw [foldl_append]
    obtain ⟨hP, himproves⟩ := hstep _ a ih.1
    exact ⟨hP, ih.2.snoc himproves⟩

end Whitix.Support
