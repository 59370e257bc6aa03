import Mathlib.Data.List.TakeWhile

/-!
# Components

A list with a separator is a sequence of components: the maximal parts that are
not empty and do not contain the separator.  In the other direction a sequence
of components is written with a separator in front and one behind each of them.
-/

namespace Whitix.Support

open List

variable {α : Type*} [DecidableEq α] {sep : α}

def components (sep : α) (xs : List α) : List (List α) :=
  (xs.splitOn sep).filter (· ≠ [])

theorem components_nil (sep : α) : components sep [] = [] := by simp [components]

variable {name rest xs : List α} {y : α} {names : List (List α)}

theorem components_append (hne : name ≠ []) (hname : sep ∉ name) (xs : List α) :
    components sep (name ++ sep :: xs) = name :: components sep xs := by
  unfold components
  rw [splitOn_append_cons_self_of_not_mem hname, filter_cons_of_pos (by simpa using hne)]

theorem components_of_notMem (hne : name ≠ [])
    (hname : sep ∉ name) : components sep name = [name] := by
  unfold components
  rw [splitOn_eq_singleton hname, filter_cons_of_pos (by simpa using hne), filter_nil]

theorem components_cons_sep (sep : α) (xs : List α) :
    components sep (sep :: xs) = components sep xs := by
  have hsplit : ([] ++ sep :: xs).splitOn sep = [] :: xs.splitOn sep :=
    splitOn_append_cons_self_of_not_mem not_mem_nil xs
  rw [nil_append] at hsplit
  unfold components
  rw [hsplit, filter_cons_of_neg (by simp)]

theorem components_dropWhile (sep : α) (xs : List α) :
    components sep (xs.dropWhile (· = sep)) = components sep xs := by
  induction xs with
  | nil => rfl
  | cons x xs ih =>
    by_cases hx : x = sep
    · rw [dropWhile_cons_of_pos (by simpa using hx), ih, hx, components_cons_sep]
    · rw [dropWhile_cons_of_neg (by simpa using hx)]

/-! ## The first component -/

theorem notMem_takeWhile (sep : α) (xs : List α) : sep ∉ xs.takeWhile (· ≠ sep) := by
  intro hmem
  simpa using mem_takeWhile_imp hmem

theorem eq_takeWhile_append (h : xs.dropWhile (· ≠ sep) = y :: rest) :
    xs = xs.takeWhile (· ≠ sep) ++ sep :: rest := by
  have hy : y = sep := by
    have hhead := head?_dropWhile_not (· ≠ sep) xs
    rw [h] at hhead
    simpa using hhead
  calc xs = xs.takeWhile (· ≠ sep) ++ xs.dropWhile (· ≠ sep) :=
        takeWhile_append_dropWhile.symm
    _ = xs.takeWhile (· ≠ sep) ++ sep :: rest := by rw [h, hy]

theorem dropWhile_ne_cons (sep : α) (xs rest : List α) : xs.dropWhile (· = sep) ≠ sep :: rest := by
  intro hxs
  have hhead := head?_dropWhile_not (· = sep) xs
  rw [hxs] at hhead
  simp at hhead

theorem takeWhile_dropWhile_ne_nil (h : (xs.dropWhile (· = sep)).dropWhile (· ≠ sep) = y :: rest) :
    (xs.dropWhile (· = sep)).takeWhile (· ≠ sep) ≠ [] := by
  intro hnil
  have hxs := eq_takeWhile_append h
  rw [hnil, nil_append] at hxs
  exact dropWhile_ne_cons sep xs rest hxs

theorem dropWhile_ne_nil (hne : xs ≠ [])
    (hlast : ∀ x ∈ xs.getLast?, x ≠ sep) : xs.dropWhile (· = sep) ≠ [] := by
  intro hnil
  rw [dropWhile_eq_nil_iff] at hnil
  have hmem := getLast_mem hne
  have heq : xs.getLast hne = sep := by simpa using hnil _ hmem
  exact hlast _ (getLast?_eq_some_getLast hne) heq

theorem exists_first_component (h : xs.dropWhile (· = sep) ≠ []) :
    ∃ name rest, xs.dropWhile (· = sep) = name ++ rest ∧ name ≠ [] ∧
      sep ∉ name ∧ (rest = [] ∨ ∃ rest', rest = sep :: rest') ∧
      components sep xs = name :: components sep rest := by
  cases hrest : (xs.dropWhile (· = sep)).dropWhile (· ≠ sep) with
  | nil =>
    have hname : sep ∉ xs.dropWhile (· = sep) := by
      intro hmem
      rw [dropWhile_eq_nil_iff] at hrest
      simpa using hrest sep hmem
    refine ⟨_, [], (append_nil _).symm, h, hname, .inl rfl, ?_⟩
    rw [← components_dropWhile, components_of_notMem h hname, components_nil]
  | cons y rest =>
    have hcut := eq_takeWhile_append hrest
    refine ⟨_, sep :: rest, hcut, takeWhile_dropWhile_ne_nil hrest,
      notMem_takeWhile _ _, .inr ⟨rest, rfl⟩, ?_⟩
    rw [← components_dropWhile, components_cons_sep]
    conv => lhs; rw [hcut]
    exact components_append (takeWhile_dropWhile_ne_nil hrest) (notMem_takeWhile _ _) rest

theorem mem_of_mem_components {x : α}
    (hname : name ∈ components sep xs) (hx : x ∈ name) : x ∈ xs := by
  have hjoin : [sep].intercalate (xs.splitOn sep) = xs := intercalate_splitOn sep
  obtain ⟨i, hi⟩ := mem_iff_getElem?.mp (mem_filter.mp hname).1
  rw [← hjoin]
  exact mem_flatten.mpr ⟨name, mem_of_getElem? (getElem?_intersperse_two_mul.trans hi), hx⟩

theorem dropWhile_append_of_notMem (hne : name ≠ []) (hname : sep ∉ name) (xs : List α) :
    (name ++ xs).dropWhile (· = sep) = name ++ xs := by
  obtain ⟨x, name, rfl⟩ := exists_cons_of_ne_nil hne
  have hx : x ≠ sep := fun heq => hname (heq ▸ mem_cons_self)
  rw [cons_append, dropWhile_cons_of_neg (by simpa using hx)]

theorem takeWhile_append_sep (hname : sep ∉ name) (xs : List α) :
    (name ++ sep :: xs).takeWhile (· ≠ sep) = name ∧
      (name ++ sep :: xs).dropWhile (· ≠ sep) = sep :: xs := by
  have hall : ∀ x ∈ name, decide (x ≠ sep) = true := fun x hx =>
    decide_eq_true fun heq => hname (heq ▸ hx)
  rw [takeWhile_append_of_pos hall, takeWhile_cons_of_neg (by simp), append_nil,
    dropWhile_append_of_pos hall, dropWhile_cons_of_neg (by simp)]
  exact ⟨rfl, rfl⟩

/-! ## Writing a sequence of components -/

/-- The components with a separator in front and one behind each of them. -/
def rooted (sep : α) (names : List (List α)) : List α :=
  sep :: names.flatMap (· ++ [sep])

omit [DecidableEq α] in
theorem rooted_append_singleton (sep : α) (names : List (List α)) (name : List α) :
    rooted sep (names ++ [name]) = rooted sep names ++ (name ++ [sep]) := by simp [rooted]

theorem components_flatMap (h : ∀ n ∈ names, n ≠ [] ∧ sep ∉ n) :
    components sep (names.flatMap (· ++ [sep])) = names := by
  induction names with
  | nil => exact components_nil sep
  | cons name names ih =>
    obtain ⟨hne, hname⟩ := h name mem_cons_self
    rw [flatMap_cons, append_assoc, singleton_append, components_append hne hname,
      ih (forall_mem_cons.mp h).2]

/-- The components of a list that was written from components. -/
theorem components_rooted (h : ∀ n ∈ names, n ≠ [] ∧ sep ∉ n) :
    components sep (rooted sep names) = names := by
  rw [rooted, components_cons_sep, components_flatMap h]

omit [DecidableEq α] in
theorem length_le_length_flatMap (sep : α) (names : List (List α)) :
    names.length ≤ (names.flatMap (· ++ [sep])).length := by
  induction names with
  | nil => exact Nat.le_refl 0
  | cons name names ih =>
    rw [flatMap_cons, length_append, length_append, length_singleton, length_cons]
    omega

end Whitix.Support
