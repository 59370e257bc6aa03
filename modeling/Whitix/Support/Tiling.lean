import Mathlib.Data.List.Basic
import Mathlib.Order.Basic

/-!
# Regions tiled by cells

A region of a memory is divided into consecutive cells.  The length of a cell is
stored in the cell, so it is a function of the offset where the cell starts, and
a reader gets from one cell to the next by adding the length.

A cell may be split into two cells, and two neighbours may be merged into one;
both change the lengths at the offsets concerned and nowhere else.
-/

namespace Whitix.Support

open List

/-- The cells that start at the offsets of the list tile the region from the
first offset to the second one. -/
inductive Tiles (len : ℕ → ℕ) : ℕ → List ℕ → ℕ → Prop
  | nil (a : ℕ) : Tiles len a [] a
  | cons {a b : ℕ} {os : List ℕ} :
      0 < len a → Tiles len (a + len a) os b → Tiles len a (a :: os) b

/-- The offsets a reader visits from `off` up to the end of a region, at most
`fuel` of them. -/
def walk (len : ℕ → ℕ) (stop : ℕ) : ℕ → ℕ → List ℕ
  | 0, _ => []
  | fuel + 1, off =>
    if off < stop then off :: walk len stop fuel (off + len off) else []

variable {len len' : ℕ → ℕ} {a b c o o' : ℕ} {os pre post : List ℕ}

theorem tiles_nil_iff : Tiles len a [] b ↔ a = b := by
  constructor
  · intro h
    cases h with
    | nil => rfl
  · rintro rfl
    exact Tiles.nil a

theorem tiles_cons_iff : Tiles len a (o :: os) b ↔
    o = a ∧ 0 < len a ∧ Tiles len (a + len a) os b := by
  constructor
  · intro h
    cases h with
    | cons hpos htail => exact ⟨rfl, hpos, htail⟩
  · rintro ⟨rfl, hpos, htail⟩
    exact Tiles.cons hpos htail

instance decidableTiles (len : ℕ → ℕ) :
    (a : ℕ) → (os : List ℕ) → (b : ℕ) → Decidable (Tiles len a os b)
  | _, [], _ => decidable_of_iff _ tiles_nil_iff.symm
  | a, _ :: os, b =>
    have := decidableTiles len (a + len a) os b
    decidable_of_iff _ tiles_cons_iff.symm

section

variable (h : Tiles len a os b)
include h

theorem Tiles.le : a ≤ b := by
  induction h with
  | nil => exact Nat.le_refl _
  | cons _ _ ih => exact Nat.le_trans (Nat.le_add_right _ _) ih

theorem Tiles.bounds (ho : o ∈ os) : a ≤ o ∧ o + len o ≤ b := by
  induction h with
  | nil => cases ho
  | cons _ htail ih =>
    rcases mem_cons.mp ho with rfl | hmem
    · exact ⟨Nat.le_refl _, htail.le⟩
    · obtain ⟨hlow, hhigh⟩ := ih hmem
      exact ⟨Nat.le_trans (Nat.le_add_right _ _) hlow, hhigh⟩

theorem Tiles.len_pos (ho : o ∈ os) : 0 < len o := by
  induction h with
  | nil => cases ho
  | cons hpos _ ih =>
    rcases mem_cons.mp ho with rfl | hmem
    · exact hpos
    · exact ih hmem

theorem Tiles.nodup : os.Nodup := by
  induction h with
  | nil => exact nodup_nil
  | cons hpos htail ih =>
    refine nodup_cons.mpr ⟨fun ha => ?_, ih⟩
    have hle := (htail.bounds ha).1
    omega

theorem Tiles.apart (ho : o ∈ os) (ho' : o' ∈ os)
    (hne : o ≠ o') : o + len o ≤ o' ∨ o' + len o' ≤ o := by
  induction h with
  | nil => cases ho
  | cons _ htail ih =>
    rcases mem_cons.mp ho with rfl | hmem
    · rcases mem_cons.mp ho' with rfl | hmem'
      · exact absurd rfl hne
      · exact .inl (htail.bounds hmem').1
    · rcases mem_cons.mp ho' with rfl | hmem'
      · exact .inr (htail.bounds hmem).1
      · exact ih hmem hmem'

theorem Tiles.congr (hlen : ∀ o ∈ os, len' o = len o) : Tiles len' a os b := by
  induction h with
  | nil => exact Tiles.nil _
  | cons hpos _ ih =>
    have hhead := hlen _ mem_cons_self
    apply Tiles.cons
    · rw [hhead]
      exact hpos
    · rw [hhead]
      exact ih (forall_mem_cons.mp hlen).2

end

theorem tiles_append :
    Tiles len a (pre ++ post) c ↔ ∃ b, Tiles len a pre b ∧ Tiles len b post c := by
  constructor
  · intro h
    induction pre generalizing a with
    | nil => exact ⟨a, Tiles.nil a, h⟩
    | cons o pre ih =>
      cases h with
      | cons hpos htail =>
        obtain ⟨b, hpre, hpost⟩ := ih htail
        exact ⟨b, Tiles.cons hpos hpre, hpost⟩
  · rintro ⟨b, hpre, hpost⟩
    induction hpre with
    | nil => exact hpost
    | cons hpos _ ih => exact Tiles.cons hpos (ih hpost)

theorem Tiles.ne_of_mem (h : Tiles len a (pre ++ o :: post) b)
    (hmem : o' ∈ pre ++ post) : o' ≠ o := by
  obtain ⟨m, hpre, hcell⟩ := tiles_append.mp h
  cases hcell with
  | cons hpos hpost =>
    rcases mem_append.mp hmem with hleft | hright
    · have hend := (hpre.bounds hleft).2
      have hpos' := hpre.len_pos hleft
      omega
    · have hstart := (hpost.bounds hright).1
      omega

theorem Tiles.walk_eq (h : Tiles len a os b) {fuel : ℕ}
    (hfuel : b - a ≤ fuel) : walk len b fuel a = os := by
  induction h generalizing fuel with
  | nil b =>
    cases fuel with
    | zero => rfl
    | succ fuel => exact if_neg (Nat.lt_irrefl _)
  | @cons a b os hpos htail ih =>
    have hle := htail.le
    obtain ⟨fuel, rfl⟩ : ∃ n, fuel = n + 1 := ⟨fuel - 1, by omega⟩
    unfold walk
    rw [if_pos (by omega), ih (by omega)]

theorem Tiles.split {k : ℕ} (h : Tiles len a (pre ++ o :: post) b) (hk : 0 < k) (hrest : k < len o)
    (hfirst : len' o = k) (hsecond : len' (o + k) = len o - k)
    (hothers : ∀ q ∈ pre ++ post, len' q = len q) :
    Tiles len' a (pre ++ o :: (o + k) :: post) b := by
  obtain ⟨m, hpre, hcell⟩ := tiles_append.mp h
  cases hcell with
  | cons hpos hpost =>
    have hend : o + k + len' (o + k) = o + len o := by omega
    refine tiles_append.mpr ⟨o, hpre.congr fun q hq =>
      hothers q (mem_append_left _ hq), ?_⟩
    apply Tiles.cons
    · rw [hfirst]
      exact hk
    · rw [hfirst]
      apply Tiles.cons
      · omega
      · rw [hend]
        exact hpost.congr fun q hq =>
          hothers q (mem_append_right _ hq)

/-- Merge the cell at `o'` into its left neighbour. -/
theorem Tiles.merge (h : Tiles len a (pre ++ o :: o' :: post) b) (hlen : len' o = len o + len o')
    (hothers : ∀ q ∈ pre ++ post, len' q = len q) : Tiles len' a (pre ++ o :: post) b := by
  obtain ⟨m, hpre, hcells⟩ := tiles_append.mp h
  cases hcells with
  | cons hpos hcell =>
    cases hcell with
    | cons hpos' hpost =>
      have hend : o + len' o = o + len o + len (o + len o) := by omega
      refine tiles_append.mpr ⟨o, hpre.congr fun q hq =>
        hothers q (mem_append_left _ hq), ?_⟩
      apply Tiles.cons
      · omega
      · rw [hend]
        exact hpost.congr fun q hq =>
          hothers q (mem_append_right _ hq)

end Whitix.Support
