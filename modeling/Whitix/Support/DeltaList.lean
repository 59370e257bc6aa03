import Mathlib.Algebra.BigOperators.Group.List.Basic
import Mathlib.Algebra.Order.Group.Defs
import Mathlib.Algebra.Order.Group.Int
import Mathlib.Tactic.Abel

/-!
# Delta lists

A delta list stores a sequence of points in time as differences: the time of
an entry is the sum of all differences up to and including its own.  Entries
carry an arbitrary label.  The lemmas say how the decoded times change when an
entry is inserted in front of another one whose difference is split, when an
entry is removed and its difference is folded into its successor, and when the
whole list is shifted.
-/

namespace Whitix.Support

open List

variable {α M : Type*}

section Group

variable [AddCommGroup M]

/-- The decoded times of a delta list whose origin is `base`. -/
def deltaTimes : M → List (α × M) → List (α × M)
  | _, [] => []
  | base, (a, d) :: rest => (a, base + d) :: deltaTimes (base + d) rest

def deltaTotal (xs : List (α × M)) : M :=
  (xs.map Prod.snd).sum

section

variable (base : M) (xs ys : List (α × M))

@[simp] theorem deltaTimes_nil :
    deltaTimes base ([] : List (α × M)) = [] := rfl

@[simp] theorem deltaTimes_cons (x : α × M) (xs : List (α × M)) :
    deltaTimes base (x :: xs) = (x.1, base + x.2) :: deltaTimes (base + x.2) xs := rfl

@[simp] theorem deltaTotal_nil : deltaTotal ([] : List (α × M)) = 0 := rfl

@[simp] theorem deltaTotal_cons (x : α × M) (xs : List (α × M)) :
    deltaTotal (x :: xs) = x.2 + deltaTotal xs := by simp [deltaTotal]

theorem deltaTimes_append :
    deltaTimes base (xs ++ ys) = deltaTimes base xs ++ deltaTimes (base + deltaTotal xs) ys := by
  induction xs generalizing base with
  | nil => simp
  | cons x xs ih =>
    simp only [cons_append, deltaTimes_cons, ih, deltaTotal_cons, add_assoc]

theorem deltaTimes_shift (base c : M) (xs : List (α × M)) :
    deltaTimes (base + c) xs = (deltaTimes base xs).map fun x => (x.1, x.2 + c) := by
  induction xs generalizing base with
  | nil => rfl
  | cons x xs ih =>
    have hcomm : base + c + x.2 = base + x.2 + c := by abel
    simp only [deltaTimes_cons, map_cons, hcomm, ih]

/-- Inserting an entry in front of one whose difference is reduced by as much
leaves the times of all other entries alone. -/
theorem deltaTimes_insert (a b : α) (d e : M) :
    deltaTimes base (xs ++ (a, d) :: (b, e - d) :: ys) =
      deltaTimes base xs ++ (a, base + deltaTotal xs + d) ::
        deltaTimes (base + deltaTotal xs) ((b, e) :: ys) := by
  have hsum : base + deltaTotal xs + d + (e - d) = base + deltaTotal xs + e := by abel
  simp only [deltaTimes_append, deltaTimes_cons, hsum]

theorem deltaTimes_remove (b : α) (d e : M) :
    deltaTimes base (xs ++ (b, e + d) :: ys) = deltaTimes base xs ++
      deltaTimes (base + deltaTotal xs + d) ((b, e) :: ys) := by
  have hsum : base + deltaTotal xs + (e + d) = base + deltaTotal xs + d + e := by abel
  simp only [deltaTimes_append, deltaTimes_cons, hsum]

theorem deltaTimes_length : (deltaTimes base xs).length = xs.length := by
  induction xs generalizing base with
  | nil => rfl
  | cons x xs ih => simp [ih]

/-- The time of an entry is the sum of the differences up to and including
its own. -/
theorem deltaTimes_getElem (i : ℕ) (hi : i < (deltaTimes base xs).length) (hi' : i < xs.length) :
    (deltaTimes base xs)[i] = (xs[i].1, base + deltaTotal (xs.take (i + 1))) := by
  induction xs generalizing base i with
  | nil => simp at hi'
  | cons x xs ih =>
    cases i with
    | zero => simp
    | succ i =>
      have hlt : i < xs.length := by simpa using hi'
      have hlt' : i < (deltaTimes (base + x.2) xs).length := by
        rw [deltaTimes_length]
        exact hlt
      simp only [deltaTimes_cons, getElem_cons_succ, ih _ i hlt' hlt,
        take_succ_cons, deltaTotal_cons]
      rw [add_assoc]

end

end Group

section Order

variable [AddCommGroup M] [LinearOrder M] [IsOrderedAddMonoid M]

theorem base_le_deltaTimes {base : M} {xs : List (α × M)} (hpos : ∀ x ∈ xs, 0 ≤ x.2) :
    ∀ y ∈ deltaTimes base xs, base ≤ y.2 := by
  induction xs generalizing base with
  | nil => simp
  | cons x xs ih =>
    have hx : base ≤ base + x.2 :=
      le_add_of_nonneg_right (hpos x (by simp))
    have hrest : ∀ y ∈ deltaTimes (base + x.2) xs, base + x.2 ≤ y.2 :=
      ih (forall_mem_cons.mp hpos).2
    intro y hy
    rw [deltaTimes_cons, mem_cons] at hy
    rcases hy with rfl | hy
    · exact hx
    · exact hx.trans (hrest y hy)

theorem delta_le_of_deltaTimes_le {xs : List (α × M)} {bound : M} (hpos : ∀ x ∈ xs, 0 ≤ x.2)
    {base : M} (hbase : 0 ≤ base) (hbound : ∀ y ∈ deltaTimes base xs, y.2 ≤ bound) :
    ∀ x ∈ xs, x.2 ≤ bound := by
  induction xs generalizing base with
  | nil => simp
  | cons y ys ih =>
    have hy : 0 ≤ y.2 := hpos y (by simp)
    intro x hx
    rw [mem_cons] at hx
    rcases hx with rfl | hx
    · have hle : base + x.2 ≤ bound := hbound (x.1, base + x.2) (by simp)
      exact le_trans (le_add_of_nonneg_left hbase) hle
    · exact ih (forall_mem_cons.mp hpos).2 (add_nonneg hbase hy)
        (fun z hz => hbound z (by
          exact mem_cons_of_mem _ hz)) x hx

end Order

end Whitix.Support
