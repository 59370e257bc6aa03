import Whitix.Support.Memory
import Mathlib.Data.Int.ModEq

/-!
# Ring buffers

The contents of a ring buffer of capacity `n` are the `size` cells from `start`
on, counted modulo `n`.  A producer appends behind the contents and a consumer
takes cells from their front; both copy a contiguous piece of memory, which
must not cross the physical end of the buffer.
-/

namespace Whitix.Support

open List

variable {α : Type*}

/-- The cells held by a ring buffer, oldest first. -/
def ringContents (n : ℕ) (mem : ℕ → α) (start size : ℕ) : List α :=
  (range size).map fun i => mem ((start + i) % n)

@[simp] theorem length_ringContents (n : ℕ) (mem : ℕ → α) (start size : ℕ) :
    (ringContents n mem start size).length = size := by simp [ringContents]

theorem ring_index_ne {n start i j : ℕ} (hij : i < j) (hj : j < i + n) :
    (start + i) % n ≠ (start + j) % n := by
  intro heq
  have hmod : start + i ≡ start + j [MOD n] := heq
  have hdvd : n ∣ (start + j) - (start + i) :=
    (Nat.modEq_iff_dvd' (by omega)).mp hmod
  have hle := Nat.le_of_dvd (by omega) hdvd
  omega

/-- A position behind the end stays contiguous up to the physical end. -/
theorem ring_index_add {n a i : ℕ} (h : a % n + i < n) : (a + i) % n = a % n + i := by
  rw [Nat.add_mod, Nat.mod_eq_of_lt (show i < n by omega), Nat.mod_eq_of_lt h]

theorem ringContents_push (mem : ℕ → α) (n start size : ℕ) {data : List α}
    (hroom : size + data.length ≤ n) (hchunk : (start + size) % n + data.length ≤ n) :
    ringContents n (overwrite mem ((start + size) % n) data) start (size + data.length) =
      ringContents n mem start size ++ data := by
  apply ext_getElem
  · simp
  · intro i hi _
    have hi' : i < size + data.length := by simpa using hi
    by_cases hlt : i < size
    · -- The new cells lie in the free part of the ring.
      have hold : overwrite mem ((start + size) % n) data ((start + i) % n) =
          mem ((start + i) % n) := by
        by_cases hbefore : (start + i) % n < (start + size) % n
        · exact overwrite_of_lt hbefore
        · apply overwrite_of_le
          by_contra hin
          have heq : (start + (size + ((start + i) % n - (start + size) % n))) % n =
              (start + i) % n := by
            rw [← add_assoc, ring_index_add (by omega)]
            omega
          exact ring_index_ne (by omega) (by omega) heq.symm
      simp [ringContents, hold, getElem_append_left, hlt]
    · obtain ⟨k, rfl⟩ : ∃ k, i = size + k := ⟨i - size, by omega⟩
      have hk : k < data.length := by omega
      have hindex : (start + (size + k)) % n = (start + size) % n + k := by
        rw [← add_assoc, ring_index_add (by omega)]
      simp [ringContents, hindex, overwrite_add hk, getElem_append_right]

theorem ringContents_pop {n start size chars : ℕ} (mem : ℕ → α)
    (hsize : chars ≤ size) (hchunk : start + chars ≤ n) :
    extract mem start chars ++ ringContents n mem ((start + chars) % n) (size - chars) =
      ringContents n mem start size := by
  apply ext_getElem
  · simp
    omega
  · intro i _ hi
    by_cases hlt : i < chars
    · have hindex : (start + i) % n = start + i :=
        Nat.mod_eq_of_lt (by omega)
      simp [extract, ringContents, getElem_append_left, hlt, hindex]
    · obtain ⟨k, rfl⟩ : ∃ k, i = chars + k := ⟨i - chars, by omega⟩
      simp [extract, ringContents, getElem_append_right, add_assoc]

end Whitix.Support
