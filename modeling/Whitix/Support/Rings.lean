import Whitix.Support.CircularList

/-!
# Families of circular lists

Several circular lists share the link fields of their nodes.  A node is on at most
one of them, so that an update of one list leaves the others as they are.
-/

namespace Whitix.Support

open Function List

variable {α ι : Type*} {l : Links α} {head : ι → α} {lists : ι → List α}

/-- The elements of the list at `head i` are `lists i`, and no two of the lists have a
node in common. -/
structure Rings (l : Links α) (head : ι → α) (lists : ι → List α) : Prop where
  circular : ∀ i, Circular l (head i) (lists i)
  disjoint : ∀ i j, i ≠ j → ∀ x ∈ head i :: lists i, x ∉ head j :: lists j

def Outside (head : ι → α) (lists : ι → List α) (x : α) : Prop :=
  ∀ i, x ∉ head i :: lists i

theorem outside_iff {x : α} : Outside head lists x ↔ (∀ i, x ≠ head i) ∧ ∀ i, x ∉ lists i := by
  simp [Outside, forall_and]

def SelfLinked (l : Links α) (a : α) : Prop := l.next a = a ∧ l.prev a = a

theorem Rings.congr (h : Rings l head lists) {l' : Links α}
    (hnext : ∀ i, ∀ y ∈ head i :: lists i, l'.next y = l.next y)
    (hprev : ∀ i, ∀ y ∈ head i :: lists i, l'.prev y = l.prev y) : Rings l' head lists :=
  ⟨fun i => (h.circular i).congr (hnext i) (hprev i), h.disjoint⟩

variable {a x y new : α} {xs ys : List α} {i : ι}

theorem Path.unique {b : α} (hx : Path l a xs b) (hy : Path l a ys b) (hxs : b ∉ xs)
    (hys : b ∉ ys) : xs = ys := by
  induction xs generalizing a ys with
  | nil =>
    cases ys with
    | nil => rfl
    | cons y ys => exact absurd (hx.1.symm.trans hy.1 ▸ mem_cons_self) hys
  | cons x xs ih =>
    cases ys with
    | nil => exact absurd (hy.1.symm.trans hx.1 ▸ mem_cons_self) hxs
    | cons y ys =>
      obtain ⟨hnextX, -, hpathX⟩ := hx
      obtain ⟨hnextY, -, hpathY⟩ := hy
      obtain rfl := hnextX.symm.trans hnextY
      rw [ih hpathX hpathY (fun h => hxs (mem_cons_of_mem x h))
        (fun h => hys (mem_cons_of_mem x h))]

theorem Circular.unique (hx : Circular l a xs) (hy : Circular l a ys) : xs = ys :=
  hx.path.unique hy.path (nodup_cons.mp hx.nodup).1 (nodup_cons.mp hy.nodup).1

theorem Circular.next_ne_self (h : Circular l a xs) (hx : x ∈ xs) : l.next x ≠ x := by
  obtain ⟨ys, zs, rfl⟩ := append_of_mem hx
  have hright := (path_append.mp h.path).2
  obtain ⟨hhead, hnodup⟩ := nodup_cons.mp h.nodup
  cases zs with
  | nil =>
    rw [hright.1]
    rintro rfl
    exact hhead hx
  | cons z zs =>
    rw [hright.1]
    rintro rfl
    have htail := (nodup_append.mp hnodup).2.1
    exact (nodup_cons.mp htail).1 mem_cons_self

section Updates

variable [DecidableEq α]

theorem Links.init_next_self (a : α) : (l.init a).next a = a :=
  update_self _ _ _

theorem Links.init_prev_self (a : α) : (l.init a).prev a = a :=
  update_self _ _ _

theorem Links.init_next_of_ne (hy : y ≠ a) : (l.init a).next y = l.next y :=
  update_of_ne hy _ _

theorem Links.init_prev_of_ne (hy : y ≠ a) : (l.init a).prev y = l.prev y :=
  update_of_ne hy _ _

theorem SelfLinked.remove (h : SelfLinked l a) : l.remove a = l := by
  obtain ⟨hnext, hprev⟩ := h
  cases l with
  | mk next prev =>
    simp only at hnext hprev
    simp only [Links.remove, Links.setNext, Links.setPrev, hnext, hprev]
    rw [update_eq_self_iff.mpr hnext.symm, update_eq_self_iff.mpr hprev.symm]

theorem Rings.init (h : Rings l head lists) (ha : Outside head lists a) :
    Rings (l.init a) head lists := by
  have hne : ∀ i, ∀ y ∈ head i :: lists i, y ≠ a := by
    rintro i y hy rfl
    exact ha i hy
  refine h.congr ?_ ?_
  · intro i y hy
    exact Links.init_next_of_ne (hne i y hy)
  · intro i y hy
    exact Links.init_prev_of_ne (hne i y hy)

variable [DecidableEq ι]

theorem Rings.addTail (h : Rings l head lists) (hnew : Outside head lists new) (i : ι) :
    Rings (l.addTail new (head i)) head (update lists i (lists i ++ [new])) := by
  have hmem : ∀ j, ∀ x ∈ head j :: update lists i (lists i ++ [new]) j,
      x ∈ head j :: lists j ∨ (j = i ∧ x = new) := by
    intro j x hx
    by_cases hj : j = i
    · subst hj
      rw [update_self, ← cons_append, mem_append, mem_singleton] at hx
      exact hx.imp_right fun hx => ⟨rfl, hx⟩
    · rw [update_of_ne hj] at hx
      exact .inl hx
  constructor
  · intro j
    by_cases hj : j = i
    · subst hj
      rw [update_self]
      exact (h.circular j).addTail (hnew j)
    · rw [update_of_ne hj]
      have hlast := (h.circular i).prev_mem mem_cons_self
      refine (h.circular j).congr ?_ ?_
      · intro y hy
        refine Links.addTail_next_of_ne (fun heq => hnew j (heq ▸ hy)) ?_
        exact fun heq => h.disjoint j i hj y hy (heq ▸ hlast)
      · intro y hy
        refine Links.addTail_prev_of_ne (fun heq => hnew j (heq ▸ hy)) ?_
        exact fun heq => h.disjoint j i hj y hy (heq ▸ mem_cons_self)
  · intro j k hjk x hxj hxk
    rcases hmem j x hxj with hoj | ⟨hj, hx⟩
    · rcases hmem k x hxk with hok | ⟨-, hx⟩
      · exact h.disjoint j k hjk x hoj hok
      · exact hnew j (hx ▸ hoj)
    · rcases hmem k x hxk with hok | ⟨hk, -⟩
      · exact hnew k (hx ▸ hok)
      · exact hjk (hj.trans hk.symm)

omit [DecidableEq ι] in
theorem Rings.removeInit (h : Rings l head lists) (hx : x ∈ lists i) :
    Rings (l.removeInit x) head (fun j => (lists j).erase x) := by
  have hin : x ∈ head i :: lists i := mem_cons_of_mem _ hx
  have hsub : ∀ j, ∀ y ∈ head j :: (lists j).erase x, y ∈ head j :: lists j :=
    fun j => (erase_sublist.cons_cons (head j)).subset
  constructor
  · intro j
    by_cases hj : j = i
    · subst hj
      obtain ⟨hhead, hnodup⟩ := nodup_cons.mp (h.circular j).nodup
      obtain ⟨ys, zs, hsplit⟩ := append_of_mem hx
      have hys : x ∉ ys := by
        rw [hsplit] at hnodup
        exact fun hmem => (nodup_append.mp hnodup).2.2 x hmem x mem_cons_self rfl
      have hcirc := h.circular j
      rw [hsplit] at hcirc
      have herase : (lists j).erase x = ys ++ zs := by
        rw [hsplit, erase_append_right _ hys, erase_cons_head]
      have hrest : ∀ y ∈ head j :: (ys ++ zs), y ≠ x := by
        rintro y hy rfl
        rcases mem_cons.mp hy with heq | hy
        · exact hhead (heq ▸ hx)
        · exact hnodup.not_mem_erase (herase ▸ hy)
      rw [herase]
      refine hcirc.remove.congr ?_ ?_
      · intro y hy
        exact Links.init_next_of_ne (hrest y hy)
      · intro y hy
        exact Links.init_prev_of_ne (hrest y hy)
    · have hout : x ∉ head j :: lists j := h.disjoint i j (Ne.symm hj) x hin
      rw [erase_of_not_mem fun hmem => hout (mem_cons_of_mem _ hmem)]
      have hne : ∀ y ∈ head j :: lists j, y ≠ x := by
        rintro y hy rfl
        exact hout hy
      refine (h.circular j).congr ?_ ?_
      · intro y hy
        rw [Links.removeInit, Links.init_next_of_ne (hne y hy)]
        refine Links.remove_next_of_ne ?_
        rintro rfl
        exact h.disjoint j i hj _ hy ((h.circular i).prev_mem hin)
      · intro y hy
        rw [Links.removeInit, Links.init_prev_of_ne (hne y hy)]
        refine Links.remove_prev_of_ne ?_
        rintro rfl
        exact h.disjoint j i hj _ hy ((h.circular i).next_mem hin)
  · intro j k hjk y hyj hyk
    exact h.disjoint j k hjk y (hsub j y hyj) (hsub k y hyk)

/-! ## Nodes that are on none of the lists -/

theorem SelfLinked.init (l : Links α) (a : α) : SelfLinked (l.init a) a :=
  ⟨Links.init_next_self a, Links.init_prev_self a⟩

theorem SelfLinked.init_of_self (h : SelfLinked l y) : SelfLinked (l.init a) y := by
  by_cases hy : y = a
  · subst hy
    exact SelfLinked.init l y
  · exact ⟨(Links.init_next_of_ne hy).trans h.1, (Links.init_prev_of_ne hy).trans h.2⟩

omit [DecidableEq ι] in
theorem Rings.selfLinked_addTail (h : Rings l head lists) (hy : Outside head lists y)
    (hne : y ≠ new) (hself : SelfLinked l y) : SelfLinked (l.addTail new (head i)) y := by
  have hlast := (h.circular i).prev_mem mem_cons_self
  constructor
  · rw [Links.addTail_next_of_ne hne fun heq => hy i (heq ▸ hlast), hself.1]
  · rw [Links.addTail_prev_of_ne hne fun heq => hy i (heq ▸ mem_cons_self), hself.2]

omit [DecidableEq ι] in
theorem Rings.selfLinked_removeInit (h : Rings l head lists) (hx : x ∈ lists i)
    (hy : Outside head (fun j => (lists j).erase x) y)
    (hself : Outside head lists y → SelfLinked l y) : SelfLinked (l.removeInit x) y := by
  have hin : x ∈ head i :: lists i := mem_cons_of_mem _ hx
  by_cases hyx : y = x
  · subst hyx
    exact SelfLinked.init _ y
  · obtain ⟨hhead, hlists⟩ := outside_iff.mp hy
    have hout : Outside head lists y :=
      outside_iff.mpr ⟨hhead, fun j hmem => hlists j ((mem_erase_of_ne hyx).mpr hmem)⟩
    obtain ⟨hnext, hprev⟩ := hself hout
    constructor
    · rw [Links.removeInit, Links.init_next_of_ne hyx, Links.remove_next_of_ne, hnext]
      exact fun heq => hout i (heq ▸ (h.circular i).prev_mem hin)
    · rw [Links.removeInit, Links.init_prev_of_ne hyx, Links.remove_prev_of_ne, hprev]
      exact fun heq => hout i (heq ▸ (h.circular i).next_mem hin)

end Updates

end Whitix.Support
