import Whitix.Support.Memory

/-!
# An array behind a block map

The cells of an array lie in blocks of one size, and a partial map names the
block for each part of the array.  Cells without a block have a default value.
Copies from and to a block are copies from and to the array as long as they do
not cross the end of the block, and blocks can be added without a change to the
array if they are filled with the default value.
-/

namespace Whitix.Support

open Function Nat

variable {α : Type*} {map map' : ℕ → Option ℕ} {blocks blocks' : ℕ → ℕ → α} {size : ℕ} {default : α}

/-- The array that a block map makes of blocks of `size` cells. -/
def assembled (map : ℕ → Option ℕ) (blocks : ℕ → ℕ → α) (size : ℕ) (default : α) (k : ℕ) : α :=
  match map (k / size) with
  | none => default
  | some block => blocks block (k % size)

theorem assembled_of_none {k : ℕ} (h : map (k / size) = none) :
    assembled map blocks size default k = default := by
  unfold assembled
  rw [h]

theorem assembled_of_some {k block : ℕ} (h : map (k / size) = some block) :
    assembled map blocks size default k = blocks block (k % size) := by
  unfold assembled
  rw [h]

theorem div_mod_add (pos : ℕ) {i : ℕ} (h : pos % size + i < size) :
    (pos + i) / size = pos / size ∧ (pos + i) % size = pos % size + i := by
  have hpos := div_add_mod pos size
  have hsplit : pos + i = (pos % size + i) + size * (pos / size) := by omega
  constructor
  · rw [hsplit, add_mul_div_left _ _ (zero_lt_of_lt h), div_eq_of_lt h, Nat.zero_add]
  · rw [hsplit, add_mul_mod_self_left, mod_eq_of_lt h]

theorem extract_assembled {pos len block : ℕ}
    (hmap : map (pos / size) = some block) (hlen : pos % size + len ≤ size) :
    extract (blocks block) (pos % size) len =
      extract (assembled map blocks size default) pos len := by
  apply List.map_congr_left
  intro i hi
  have hi := List.mem_range.mp hi
  have hlt : pos % size + i < size := by omega
  obtain ⟨hdiv, hmod⟩ := div_mod_add pos hlt
  rw [← hdiv] at hmap
  rw [assembled_of_some hmap, hmod]

theorem assembled_overwrite (blocks : ℕ → ℕ → α) (default : α) {pos block : ℕ} {data : List α}
    (hinj : ∀ a a' b, map a = some b → map a' = some b → a = a')
    (hmap : map (pos / size) = some block) (hlen : pos % size + data.length ≤ size) :
    assembled map (update blocks block (overwrite (blocks block) (pos % size) data)) size default =
      overwrite (assembled map blocks size default) pos data := by
  funext k
  by_cases hin : pos ≤ k ∧ k < pos + data.length
  · obtain ⟨i, rfl⟩ := Nat.exists_eq_add_of_le hin.1
    have hi : i < data.length := by omega
    have hlt : pos % size + i < size := by omega
    obtain ⟨hdiv, hmod⟩ := div_mod_add pos hlt
    rw [← hdiv] at hmap
    rw [assembled_of_some hmap, update_self, hmod, overwrite_add hi, overwrite_add hi]
  · have hout : overwrite (assembled map blocks size default) pos data k =
        assembled map blocks size default k := by
      by_cases hlt : k < pos
      · exact overwrite_of_lt hlt
      · exact overwrite_of_le (by omega)
    rw [hout]
    cases hk : map (k / size) with
    | none => rw [assembled_of_none hk, assembled_of_none hk]
    | some block' =>
      rw [assembled_of_some hk, assembled_of_some hk]
      by_cases hsame : block' = block
      · -- The cell is in the same block, before or after the data.
        subst hsame
        have hdiv := hinj _ _ _ hk hmap
        have hk := div_add_mod k size
        have hpos := div_add_mod pos size
        rw [hdiv] at hk
        rw [update_self]
        by_cases hlt : k < pos
        · exact overwrite_of_lt (by omega)
        · exact overwrite_of_le (by omega)
      · rw [update_of_ne hsame]

theorem assembled_grow (hsize : 0 < size)
    (hkeep : ∀ a b, map a = some b → map' a = some b ∧ blocks' b = blocks b)
    (hnew : ∀ a b, map a = none → map' a = some b → ∀ i < size, blocks' b i = default) :
    assembled map' blocks' size default = assembled map blocks size default := by
  funext k
  cases hk : map (k / size) with
  | some block =>
    obtain ⟨hmap', hblock⟩ := hkeep _ _ hk
    rw [assembled_of_some hk, assembled_of_some hmap', hblock]
  | none =>
    rw [assembled_of_none hk]
    cases hk' : map' (k / size) with
    | none => exact assembled_of_none hk'
    | some block =>
      rw [assembled_of_some hk']
      exact hnew _ _ hk hk' _ (mod_lt _ hsize)

end Whitix.Support
