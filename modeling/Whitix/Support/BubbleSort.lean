import Mathlib.Data.List.Chain
import Mathlib.Data.List.Perm.Basic

/-!
# Bubble sort

A list is sorted by passes that exchange neighbours in the wrong order, until a
pass exchanges none.  Each pass that exchanges something leaves fewer inversions,
so that the passes end.
-/

namespace Whitix.Support

open List Nat

variable {α : Type*} (before : α → α → Bool)

/-- A pass over a list whose first element is `a`, and whether it has exchanged
anything. -/
def bubbleFrom : α → List α → List α × Bool
  | a, [] => ([a], false)
  | a, b :: l =>
    if before b a then (b :: (bubbleFrom a l).1, true)
    else (a :: (bubbleFrom b l).1, (bubbleFrom b l).2)

def bubblePass : List α → List α × Bool
  | [] => ([], false)
  | a :: l => bubbleFrom before a l

/-- The passes; there is no result if they have not ended after `fuel` passes. -/
def bubbleSort : ℕ → List α → Option (List α)
  | 0, _ => none
  | fuel + 1, l =>
    let pass := bubblePass before l
    if pass.2 then bubbleSort fuel pass.1 else some pass.1

/-- The number of pairs in the wrong order. -/
def inversions : List α → ℕ
  | [] => 0
  | a :: l => l.countP (fun b => before b a) + inversions l

variable {before}

theorem bubbleFrom_perm (a : α) (l : List α) : (bubbleFrom before a l).1.Perm (a :: l) := by
  induction l generalizing a with
  | nil => exact List.Perm.refl _
  | cons b l ih =>
    rw [bubbleFrom]
    split_ifs
    · exact ((ih a).cons b).trans (List.Perm.swap a b l)
    · exact (ih b).cons a

theorem inversions_le (l : List α) : inversions before l ≤ l.length * l.length := by
  induction l with
  | nil => exact le_refl 0
  | cons a l ih =>
    have hcount : l.countP (fun b => before b a) ≤ l.length := countP_le_length
    rw [inversions, length_cons, succ_mul, mul_succ]
    omega

/-- A pass that exchanges something leaves fewer inversions. -/
theorem inversions_bubbleFrom (hasymm : ∀ a b, before a b = true → before b a = false)
    (a : α) (l : List α) :
    inversions before (bubbleFrom before a l).1 + (if (bubbleFrom before a l).2 then 1 else 0) ≤
      inversions before (a :: l) := by
  induction l generalizing a with
  | nil => exact le_rfl
  | cons b l ih =>
    rw [bubbleFrom]
    by_cases hswap : before b a = true
    · have hcount : (bubbleFrom before a l).1.countP (fun c => before c b) =
          l.countP (fun c => before c b) := by
        rw [(bubbleFrom_perm a l).countP_eq, countP_cons_of_neg (by rw [hasymm b a hswap]; decide)]
      have hrest := ih a
      rw [if_pos hswap]
      have hfirst : (b :: l).countP (fun c => before c a) = l.countP (fun c => before c a) + 1 :=
        countP_cons_of_pos hswap
      rw [inversions, hcount, inversions, hfirst, inversions, if_pos rfl]
      rw [inversions] at hrest
      omega
    · have hrest := ih b
      rw [if_neg hswap]
      dsimp only
      rw [inversions, (bubbleFrom_perm b l).countP_eq]
      conv_rhs => rw [inversions]
      omega

theorem bubbleFrom_eq (a : α) (l : List α) (h : (bubbleFrom before a l).2 = false) :
    (bubbleFrom before a l).1 = a :: l ∧ (a :: l).IsChain (fun x y => before y x = false) := by
  induction l generalizing a with
  | nil => exact ⟨rfl, isChain_singleton a⟩
  | cons b l ih =>
    rw [bubbleFrom] at h ⊢
    by_cases hswap : before b a = true
    · rw [if_pos hswap] at h
      cases h
    · rw [if_neg hswap] at h ⊢
      obtain ⟨heq, hchain⟩ := ih b h
      exact ⟨congrArg (a :: ·) heq, isChain_cons_cons.mpr ⟨Bool.eq_false_iff.mpr hswap, hchain⟩⟩

theorem bubbleSort_spec (hasymm : ∀ a b, before a b = true → before b a = false)
    (htrans : ∀ a b c, before b a = false → before c b = false → before c a = false) {fuel : ℕ}
    {l : List α} (hfuel : inversions before l < fuel) :
    ∃ l', bubbleSort before fuel l = some l' ∧ l'.Perm l ∧
      l'.Pairwise (fun x y => before y x = false) := by
  induction fuel generalizing l with
  | zero => exact absurd hfuel (not_lt_zero _)
  | succ fuel ih =>
    rw [bubbleSort]
    cases l with
    | nil => exact ⟨[], rfl, List.Perm.refl _, List.Pairwise.nil⟩
    | cons a l =>
      have hinversions := inversions_bubbleFrom hasymm a l
      have hperm : (bubbleFrom before a l).1.Perm (a :: l) := bubbleFrom_perm a l
      rw [bubblePass]
      by_cases hflag : (bubbleFrom before a l).2 = true
      · rw [if_pos hflag] at hinversions ⊢
        obtain ⟨l', hsort, hperm', hsorted⟩ := ih (lt_of_lt_of_le hinversions (le_of_lt_succ hfuel))
        exact ⟨l', hsort, hperm'.trans hperm, hsorted⟩
      · obtain ⟨heq, hchain⟩ := bubbleFrom_eq a l (Bool.eq_false_iff.mpr hflag)
        have : IsTrans α (fun x y => before y x = false) := ⟨htrans⟩
        rw [if_neg hflag, heq]
        exact ⟨_, rfl, List.Perm.refl _, isChain_iff_pairwise.mp hchain⟩

end Whitix.Support
