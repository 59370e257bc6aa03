import Mathlib.Data.List.TakeWhile
import Mathlib.Data.List.Pairwise
import Mathlib.Order.Nat

/-!
# Ordered lists of disjoint intervals

The entries of a list stand for half-open intervals `[lo a, hi a)`.  An
interval list is ordered and its intervals are nonempty and disjoint.  Its
basic operations are the insertion of a disjoint interval behind all entries
that start no later, the removal of entries, and the replacement of an entry
by a part of it.
-/

namespace Whitix.Support

open List

variable {α : Type*} {lo hi : α → ℕ}

structure IntervalList (lo hi : α → ℕ) (xs : List α) : Prop where
  nonempty : ∀ a ∈ xs, lo a < hi a
  ordered : xs.Pairwise fun a b => hi a ≤ lo b

/-- Insertion behind all entries that do not start later. -/
def insertOrdered (lo : α → ℕ) (z : α) (xs : List α) : List α :=
  (xs.takeWhile fun a => lo a ≤ lo z) ++ z :: xs.dropWhile fun a => lo a ≤ lo z

variable {a z : α} {xs later back front : List α}

theorem mem_insertOrdered : a ∈ insertOrdered lo z xs ↔ a = z ∨ a ∈ xs := by
  have hsplit : a ∈ xs ↔ a ∈ xs.takeWhile (fun a => lo a ≤ lo z) ∨
      a ∈ xs.dropWhile (fun a => lo a ≤ lo z) := by rw [← mem_append, takeWhile_append_dropWhile]
  rw [insertOrdered, mem_append, mem_cons, hsplit]
  exact or_left_comm

theorem intervalList_nil : IntervalList lo hi ([] : List α) :=
  ⟨by simp, List.Pairwise.nil⟩

namespace IntervalList

variable {ys : List α}

theorem sublist (h : IntervalList lo hi xs) (hsub : ys.Sublist xs) : IntervalList lo hi ys :=
  ⟨fun a ha => h.nonempty a (hsub.subset ha), h.ordered.sublist hsub⟩

theorem split (h : IntervalList lo hi (front ++ a :: back)) :
    (∀ b ∈ front, hi b ≤ lo a) ∧ ∀ b ∈ back, hi a ≤ lo b := by
  obtain ⟨-, htail, hcross⟩ := pairwise_append.mp h.ordered
  exact ⟨fun b hb => hcross b hb a (by simp), (pairwise_cons.mp htail).1⟩

theorem insert (h : IntervalList lo hi xs) (hz : lo z < hi z)
    (hapart : ∀ a ∈ xs, hi a ≤ lo z ∨ hi z ≤ lo a) :
    IntervalList lo hi (insertOrdered lo z xs) := by
  have hsplit : xs.takeWhile (fun a => lo a ≤ lo z) ++ xs.dropWhile (fun a => lo a ≤ lo z) = xs :=
    takeWhile_append_dropWhile
  have hordered := h.ordered
  rw [← hsplit] at hordered
  obtain ⟨hfront, hback, hcross⟩ := pairwise_append.mp hordered
  -- Entries in front start no later, so they end before the new interval.
  have hbefore : ∀ a ∈ xs.takeWhile (fun a => lo a ≤ lo z), hi a ≤ lo z := by
    intro a ha
    have hmem : a ∈ xs := ( takeWhile_prefix _).subset ha
    have hle : lo a ≤ lo z := by simpa using mem_takeWhile_imp ha
    rcases hapart a hmem with hok | hok <;> omega
  -- The first entry behind starts later, and the others follow it.
  have hafter : ∀ a ∈ xs.dropWhile (fun a => lo a ≤ lo z), hi z ≤ lo a := by
    intro a ha
    have hmem : a ∈ xs := (dropWhile_suffix _).subset ha
    have hlater : lo z < lo a := by
      cases hdrop : xs.dropWhile (fun a => lo a ≤ lo z) with
      | nil => simp [hdrop] at ha
      | cons first rest =>
        have hhead := head?_dropWhile_not (fun a => decide (lo a ≤ lo z)) xs
        have hfirst : lo z < lo first := by simpa [hdrop] using hhead
        rw [hdrop] at ha hback
        rcases mem_cons.mp ha with rfl | ha
        · exact hfirst
        · have hle := (pairwise_cons.mp hback).1 a ha
          have hmemFirst : first ∈ xs :=
            (dropWhile_suffix _).subset (by rw [hdrop]; simp)
          have hne := h.nonempty first hmemFirst
          omega
    have hne := h.nonempty a hmem
    rcases hapart a hmem with hok | hok <;> omega
  constructor
  · intro a ha
    rcases mem_insertOrdered.mp ha with rfl | ha
    · exact hz
    · exact h.nonempty a ha
  · refine pairwise_append.mpr ⟨hfront, pairwise_cons.mpr ⟨hafter, hback⟩, ?_⟩
    exact fun a ha => forall_mem_cons.mpr ⟨hbefore a ha, hcross a ha⟩

/-- Replacing an entry by one that starts no earlier and ends in front of the next one. -/
theorem replace {a' : α} (h : IntervalList lo hi (front ++ a :: back)) (hne : lo a' < hi a')
    (hlo : lo a ≤ lo a') (hafter : ∀ b ∈ back, hi a' ≤ lo b) :
    IntervalList lo hi (front ++ a' :: back) := by
  obtain ⟨hfront, htail, hcross⟩ := pairwise_append.mp h.ordered
  constructor
  · obtain ⟨hbefore, hbehind⟩ := forall_mem_append.mp h.nonempty
    exact forall_mem_append.mpr ⟨hbefore, forall_mem_cons.mpr ⟨hne, (forall_mem_cons.mp hbehind).2⟩⟩
  · refine pairwise_append.mpr ⟨hfront, pairwise_cons.mpr ⟨hafter, (pairwise_cons.mp htail).2⟩, ?_⟩
    intro b hb
    obtain ⟨hle, hback⟩ := forall_mem_cons.mp (hcross b hb)
    exact forall_mem_cons.mpr ⟨le_trans hle hlo, hback⟩

theorem shrink {a' : α} (h : IntervalList lo hi (front ++ a :: back)) (hne : lo a' < hi a')
    (hlo : lo a ≤ lo a') (hhi : hi a' ≤ hi a) : IntervalList lo hi (front ++ a' :: back) :=
  h.replace hne hlo fun b hb => hhi.trans (h.split.2 b hb)

theorem merge {b c : α} (h : IntervalList lo hi (front ++ a :: b :: back)) (hlo : lo c = lo a)
    (hhi : hi c = hi b) : IntervalList lo hi (front ++ c :: back) := by
  have ha := h.nonempty a (by simp)
  have hb := h.nonempty b (by simp)
  have hab := h.split.2 b (by simp)
  have hrest : IntervalList lo hi (b :: back) := h.sublist (by simp)
  have hfirst : IntervalList lo hi (front ++ a :: back) := h.sublist (by simp)
  refine hfirst.replace (by omega) hlo.ge fun x hx => ?_
  exact hhi ▸ (pairwise_cons.mp hrest.ordered).1 x hx

end IntervalList

end Whitix.Support
