import Mathlib.Data.List.GetD
import Mathlib.Order.Nat

/-!
# Flat memory

A memory is a function from addresses to cells.  The two operations are those
of a block copy: writing a list of cells at an address and reading a number of
cells from an address.
-/

namespace Whitix.Support

open List Nat

variable {α : Type*} (mem : ℕ → α)

/-- The memory after the cells of `data` have been stored from `off` on. -/
def overwrite (off : ℕ) (data : List α) : ℕ → α :=
  fun j => if off ≤ j then data.getD (j - off) (mem j) else mem j

/-- The `len` cells of the memory from `off` on. -/
def extract (off len : ℕ) : List α :=
  (range len).map fun i => mem (off + i)

@[simp] theorem length_extract (off len : ℕ) :
    (extract mem off len).length = len := by simp [extract]

theorem extract_zero (off : ℕ) : extract mem off 0 = [] := rfl

theorem extract_succ (off len : ℕ) :
    extract mem off (len + 1) = mem off :: extract mem (off + 1) len := by
  unfold extract
  rw [range_succ_eq_map, map_cons, map_map]
  congr 1
  apply map_congr_left
  intro i _
  exact congrArg mem (by simp only [succ_eq_add_one]; omega)

variable {off j : ℕ}

variable {mem : ℕ → α} {data : List α}

theorem extract_congr {mem' : ℕ → α} {len : ℕ} (h : ∀ i < len, mem' (off + i) = mem (off + i)) :
    extract mem' off len = extract mem off len :=
  map_congr_left fun i hi => h i (mem_range.mp hi)

theorem extract_add (mem : ℕ → α) (off m n : ℕ) :
    extract mem off (m + n) = extract mem off m ++ extract mem (off + m) n := by
  unfold extract
  rw [range_add, map_append, map_map]
  congr 1
  apply map_congr_left
  intro i _
  exact congrArg mem (Nat.add_assoc off m i).symm

theorem overwrite_of_lt (h : j < off) : overwrite mem off data j = mem j := by
  simp [overwrite, not_le.mpr h]

theorem overwrite_of_le (h : off + data.length ≤ j) : overwrite mem off data j = mem j := by
  have hge : data.length ≤ j - off := by omega
  unfold overwrite
  split
  · exact getD_eq_default _ _ hge
  · rfl

theorem overwrite_add {i : ℕ}
    (h : i < data.length) : overwrite mem off data (off + i) = data[i] := by simp [overwrite, h]

variable (mem)

theorem overwrite_nil (off : ℕ) : overwrite mem off [] = mem := by
  funext j
  unfold overwrite
  split
  · rfl
  · rfl

theorem overwrite_append (off : ℕ) (xs ys : List α) :
    overwrite (overwrite mem off xs) (off + xs.length) ys = overwrite mem off (xs ++ ys) := by
  funext j
  by_cases hlow : j < off
  · rw [overwrite_of_lt (by omega), overwrite_of_lt hlow, overwrite_of_lt hlow]
  · obtain ⟨i, rfl⟩ := Nat.exists_eq_add_of_le (not_lt.mp hlow)
    by_cases hmid : i < xs.length
    · have hi : i < (xs ++ ys).length := by
        rw [length_append]
        omega
      rw [overwrite_of_lt (by omega), overwrite_add hmid, overwrite_add hi,
        getElem_append_left hmid]
    · obtain ⟨j, rfl⟩ := Nat.exists_eq_add_of_le (not_lt.mp hmid)
      by_cases hhigh : j < ys.length
      · have hi : xs.length + j < (xs ++ ys).length := by
          rw [length_append]
          omega
        rw [← Nat.add_assoc, overwrite_add hhigh, Nat.add_assoc,
          overwrite_add hi, getElem_append_right (le_add_right _ _)]
        simp only [Nat.add_sub_cancel_left]
      · rw [overwrite_of_le (by omega), overwrite_of_le (by omega),
          overwrite_of_le (by rw [length_append]; omega)]

theorem extract_overwrite (off : ℕ) (data : List α) :
    extract (overwrite mem off data) off data.length = data := by
  apply ext_getElem
  · simp
  · intro i _ hi
    simp [extract, overwrite_add hi]

end Whitix.Support
