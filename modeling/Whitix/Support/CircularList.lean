import Mathlib.Data.List.Nodup
import Mathlib.Logic.Function.Iterate

/-!
# Circular doubly linked lists

Nodes are linked by two maps, `next` and `prev`.  A list is given by a head,
which is a node but not an element: its elements are met on the way from the
head along `next` until the head is reached again, and `prev` leads back.

Adding and removing an element are the updates of the maps a kernel makes.
Both maps are total, so an element that has been removed keeps its links.
-/

namespace Whitix.Support

open Function List

variable {α : Type*}

structure Links (α : Type*) where
  next : α → α
  prev : α → α

section Updates

variable [DecidableEq α] (l : Links α)

def Links.setNext (a b : α) : Links α :=
  { l with next := update l.next a b }

def Links.setPrev (a b : α) : Links α :=
  { l with prev := update l.prev a b }

def Links.init (a : α) : Links α :=
  (l.setNext a a).setPrev a a

def Links.insert (new prev next : α) : Links α :=
  (((l.setPrev next new).setNext new next).setPrev new prev).setNext prev new

def Links.addTail (new head : α) : Links α :=
  l.insert new (l.prev head) head

def Links.remove (a : α) : Links α :=
  (l.setPrev (l.next a) (l.prev a)).setNext (l.prev a) (l.next a)

def Links.removeInit (a : α) : Links α := (l.remove a).init a

end Updates

/-! ## Paths -/

/-- The nodes `xs` lead from `a` to `b`. -/
def Path (l : Links α) : α → List α → α → Prop
  | a, [], b => l.next a = b ∧ l.prev b = a
  | a, x :: xs, b => l.next a = x ∧ l.prev x = a ∧ Path l x xs b

variable {l l' : Links α} {a b x : α} {xs ys : List α}

theorem path_append : Path l a (xs ++ x :: ys) b ↔ Path l a xs x ∧ Path l x ys b := by
  induction xs generalizing a with
  | nil =>
    constructor
    · rintro ⟨hnext, hprev, hpath⟩
      exact ⟨⟨hnext, hprev⟩, hpath⟩
    · rintro ⟨⟨hnext, hprev⟩, hpath⟩
      exact ⟨hnext, hprev, hpath⟩
  | cons y xs ih =>
    constructor
    · rintro ⟨hnext, hprev, hpath⟩
      obtain ⟨hleft, hright⟩ := ih.mp hpath
      exact ⟨⟨hnext, hprev, hleft⟩, hright⟩
    · rintro ⟨⟨hnext, hprev, hleft⟩, hright⟩
      exact ⟨hnext, hprev, ih.mpr ⟨hleft, hright⟩⟩

/-- A path uses the successors of its nodes except the last one, and the
predecessors of its nodes except the first one. -/
theorem Path.congr (h : Path l a xs b) (hnext : ∀ y ∈ a :: xs, l'.next y = l.next y)
    (hprev : ∀ y ∈ b :: xs, l'.prev y = l.prev y) : Path l' a xs b := by
  induction xs generalizing a with
  | nil =>
    obtain ⟨hn, hp⟩ := h
    exact ⟨(hnext a (by simp)).trans hn, (hprev b (by simp)).trans hp⟩
  | cons y xs ih =>
    obtain ⟨hn, hp, hpath⟩ := h
    refine ⟨(hnext a (by simp)).trans hn, (hprev y (by simp)).trans hp, ?_⟩
    apply ih hpath
    · exact (forall_mem_cons.mp hnext).2
    · obtain ⟨hb, hrest⟩ := forall_mem_cons.mp hprev
      exact forall_mem_cons.mpr ⟨hb, (forall_mem_cons.mp hrest).2⟩

theorem Path.prev_mem (h : Path l a xs b) : l.prev b ∈ a :: xs := by
  induction xs generalizing a with
  | nil => exact mem_singleton.mpr h.2
  | cons y xs ih => exact mem_cons_of_mem a (ih h.2.2)

theorem Path.redirect {c : α} (h : Path l a xs b) (hnodup : (a :: xs).Nodup)
    (hlast : l'.next (l.prev b) = c) (hback : l'.prev c = l.prev b)
    (hnext : ∀ y ∈ a :: xs, y ≠ l.prev b → l'.next y = l.next y)
    (hprev : ∀ y ∈ xs, l'.prev y = l.prev y) : Path l' a xs c := by
  induction xs generalizing a with
  | nil =>
    rw [h.2] at hlast hback
    exact ⟨hlast, hback⟩
  | cons y xs ih =>
    obtain ⟨hn, hp, hpath⟩ := h
    obtain ⟨hnotMem, hnodup⟩ := nodup_cons.mp hnodup
    have hne : a ≠ l.prev b := by
      rintro rfl
      exact hnotMem hpath.prev_mem
    refine ⟨(hnext a (by simp) hne).trans hn, (hprev y (by simp)).trans hp, ?_⟩
    apply ih hpath hnodup
    · intro z hz
      exact hnext z (mem_cons_of_mem a hz)
    · intro z hz
      exact hprev z (mem_cons_of_mem y hz)

/-! ## Circular lists -/

/-- The elements of the list at `head` are `xs`. -/
structure Circular (l : Links α) (head : α) (xs : List α) : Prop where
  path : Path l head xs head
  nodup : (head :: xs).Nodup

variable {head : α}

variable {y new : α}

section

variable (h : Circular l head xs)
include h

theorem Circular.congr (hnext : ∀ y ∈ head :: xs, l'.next y = l.next y)
    (hprev : ∀ y ∈ head :: xs, l'.prev y = l.prev y) : Circular l' head xs :=
  ⟨h.path.congr hnext hprev, h.nodup⟩

theorem Circular.next_mem (hy : y ∈ head :: xs) : l.next y ∈ head :: xs := by
  have hgen : ∀ (a : α) (xs : List α), Path l a xs head → ∀ y ∈ a :: xs, l.next y ∈ head :: xs := by
    intro a xs hpath
    induction xs generalizing a with
    | nil =>
      intro y hy
      rw [mem_singleton.mp hy, hpath.1]
      exact mem_cons_self
    | cons z xs ih =>
      obtain ⟨hnext, -, hpath⟩ := hpath
      intro y hy
      rcases mem_cons.mp hy with rfl | hy
      · rw [hnext]
        simp
      · rcases mem_cons.mp (ih z hpath y hy) with hmem | hmem
        · rw [hmem]
          exact mem_cons_self
        · exact mem_cons_of_mem _ (mem_cons_of_mem _ hmem)
  exact hgen head xs h.path y hy

theorem Circular.prev_mem (hy : y ∈ head :: xs) : l.prev y ∈ head :: xs := by
  rcases mem_cons.mp hy with rfl | hy
  · exact h.path.prev_mem
  · obtain ⟨ys, zs, rfl⟩ := append_of_mem hy
    have hleft := (path_append.mp h.path).1
    rcases mem_cons.mp hleft.prev_mem with hmem | hmem
    · rw [hmem]
      exact mem_cons_self
    · exact mem_cons_of_mem _ (mem_append_left _ hmem)

theorem Circular.iterate_mem (k : ℕ) : l.next^[k] head ∈ head :: xs := by
  induction k with
  | zero => exact mem_cons_self
  | succ k ih =>
    rw [iterate_succ_apply']
    exact h.next_mem ih

end

section Updates

variable [DecidableEq α]

theorem Links.addTail_next_of_ne (hnew : y ≠ new)
    (hlast : y ≠ l.prev head) : (l.addTail new head).next y = l.next y := by
  simp [Links.addTail, Links.insert, Links.setNext, Links.setPrev, hnew, hlast]

theorem Links.addTail_prev_of_ne (hnew : y ≠ new)
    (hhead : y ≠ head) : (l.addTail new head).prev y = l.prev y := by
  simp [Links.addTail, Links.insert, Links.setNext, Links.setPrev, hnew, hhead]

theorem Links.remove_next_of_ne (hy : y ≠ l.prev a) : (l.remove a).next y = l.next y := by
  simp [Links.remove, Links.setNext, Links.setPrev, hy]

theorem Links.remove_prev_of_ne (hy : y ≠ l.next a) : (l.remove a).prev y = l.prev y := by
  simp [Links.remove, Links.setNext, Links.setPrev, hy]

theorem Links.remove_next_prev : (l.remove a).next (l.prev a) = l.next a :=
  update_self _ _ _

theorem Links.remove_prev_next : (l.remove a).prev (l.next a) = l.prev a :=
  update_self _ _ _

theorem Circular.addTail (h : Circular l head xs) (hnew : new ∉ head :: xs) :
    Circular (l.addTail new head) head (xs ++ [new]) := by
  have hlast := h.path.prev_mem
  have hnewLast : new ≠ l.prev head := by
    rintro rfl
    exact hnew hlast
  have hnewHead : new ≠ head := by
    rintro rfl
    exact hnew mem_cons_self
  have hne : ∀ y ∈ head :: xs, y ≠ new := by
    rintro y hy rfl
    exact hnew hy
  constructor
  · apply path_append.mpr
    refine ⟨h.path.redirect h.nodup ?_ ?_ ?_ ?_, ?_, ?_⟩
    · exact update_self _ _ _
    · exact update_self _ _ _
    · intro y hy hylast
      exact Links.addTail_next_of_ne (hne y hy) hylast
    · intro y hy
      apply Links.addTail_prev_of_ne (hne y (mem_cons_of_mem head hy))
      rintro rfl
      exact (nodup_cons.mp h.nodup).1 hy
    · simp [Links.addTail, Links.insert, Links.setNext, Links.setPrev, hnewLast]
    · simp [Links.addTail, Links.insert, Links.setNext, Links.setPrev, hnewHead.symm]
  · rw [← cons_append, nodup_append]
    exact ⟨h.nodup, nodup_singleton new, fun y hy => forall_mem_singleton.mpr (hne y hy)⟩

theorem Circular.remove (h : Circular l head (xs ++ x :: ys)) :
    Circular (l.remove x) head (xs ++ ys) := by
  obtain ⟨hleft, hright⟩ := path_append.mp h.path
  have hnodup := h.nodup
  rw [← cons_append, nodup_append] at hnodup
  obtain ⟨hxs, hys, hdisjoint⟩ := hnodup
  have hprev := hleft.prev_mem
  constructor
  · cases ys with
    | nil =>
      have hhead : l.next x = head := hright.1
      rw [append_nil]
      apply hleft.redirect hxs
      · rw [Links.remove_next_prev, hhead]
      · rw [← hhead, Links.remove_prev_next]
      · intro y _ hy
        exact Links.remove_next_of_ne hy
      · intro y hy
        apply Links.remove_prev_of_ne
        rintro rfl
        rw [hhead] at hy
        exact (nodup_cons.mp hxs).1 hy
    | cons y ys =>
      obtain ⟨hnext, -, hrest⟩ := hright
      apply path_append.mpr
      constructor
      · apply hleft.redirect hxs
        · rw [Links.remove_next_prev, hnext]
        · rw [← hnext, Links.remove_prev_next]
        · intro z _ hz
          exact Links.remove_next_of_ne hz
        · intro z hz
          apply Links.remove_prev_of_ne
          rw [hnext]
          exact hdisjoint z (mem_cons_of_mem head hz) y (by simp)
      · apply hrest.congr
        · intro z hz
          apply Links.remove_next_of_ne
          exact (hdisjoint _ hprev z (mem_cons_of_mem x hz)).symm
        · intro z hz
          apply Links.remove_prev_of_ne
          rw [hnext]
          rcases mem_cons.mp hz with rfl | hz
          · exact hdisjoint z mem_cons_self y (by simp)
          · rintro rfl
            exact (nodup_cons.mp (nodup_cons.mp hys).2).1 hz
  · rw [← cons_append, nodup_append]
    refine ⟨hxs, (nodup_cons.mp hys).2, ?_⟩
    intro y hy z hz
    exact hdisjoint y hy z (mem_cons_of_mem x hz)

end Updates

end Whitix.Support
