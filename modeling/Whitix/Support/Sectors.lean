import Whitix.Support.PackedTable

/-!
# Byte arrays in consecutive sectors

A disk is a sequence of sectors of one size.  A region of it, which starts with
some sector, is an array of bytes.  Changing a byte of a sector changes one
element of the array, and changing a sector behind the region changes none.
-/

namespace Whitix.Support

open Function Nat

abbrev Disk := ℕ → ℕ → UInt8

def setByte (disk : Disk) (sector offset : ℕ) (b : UInt8) : Disk :=
  update disk sector (update (disk sector) offset b)

/-- The bytes from sector `start` on, for sectors of `size` bytes. -/
def flat (disk : Disk) (start size k : ℕ) : UInt8 :=
  disk (start + k / size) (k % size)

variable {disk : Disk} {start size : ℕ}

theorem div_mod_add_of_dvd {m k size j : ℕ} (hm : m ∣ size) (hk : m ∣ k) (hj : j < m) :
    (k + j) / size = k / size ∧ (k + j) % size = k % size + j := by
  obtain ⟨q, rfl⟩ := hm
  obtain ⟨r, rfl⟩ := hk
  have hdiv : (m * r + j) / (m * q) = m * r / (m * q) := by
    rw [← Nat.div_div_eq_div_mul, ← Nat.div_div_eq_div_mul, mul_add_div (by omega), div_eq_of_lt hj,
      add_zero, Nat.mul_div_cancel_left _ (by omega)]
  refine ⟨hdiv, ?_⟩
  have h := div_add_mod (m * r + j) (m * q)
  have h' := div_add_mod (m * r) (m * q)
  rw [hdiv] at h
  omega

theorem flat_setByte (k : ℕ) (b : UInt8) :
    flat (setByte disk (start + k / size) (k % size) b) start size =
      update (flat disk start size) k b := by
  funext j
  by_cases hjk : j = k
  · subst hjk
    simp [flat, setByte]
  · rw [update_of_ne hjk]
    by_cases hdiv : j / size = k / size
    · have hmod : j % size ≠ k % size := by
        intro hmod
        have hj := div_add_mod j size
        have hk := div_add_mod k size
        rw [hdiv, hmod] at hj
        omega
      simp only [flat, setByte, hdiv, update_self, update_of_ne hmod]
    · have hsector : start + j / size ≠ start + k / size := by omega
      simp only [flat, setByte, update_of_ne hsector]

theorem flat_setWordAt (disk : Disk) (start : ℕ) {m k : ℕ} (hm : m ∣ size) (hk : m ∣ k) {j : ℕ}
    (hj : j + 1 < m) (v : ℕ) :
    flat (update disk (start + k / size) (setWordAt (disk (start + k / size)) (k % size + j) v))
        start size =
      setWordAt (flat disk start size) (k + j) v := by
  obtain ⟨hdiv, hmod⟩ := div_mod_add_of_dvd hm hk (lt_of_succ_lt hj)
  obtain ⟨hdiv', hmod'⟩ := div_mod_add_of_dvd hm hk hj
  rw [setWordAt, setWordAt, ← flat_setByte, ← flat_setByte, add_assoc k, hdiv, hdiv', hmod, hmod']
  simp only [setByte, update_self, update_idem, add_assoc]

theorem flat_setDwordAt {k : ℕ} (hsize : 4 ∣ size) (hk : 4 ∣ k) (v : ℕ) :
    flat (update disk (start + k / size) (setDwordAt (disk (start + k / size)) (k % size) v))
        start size =
      setDwordAt (flat disk start size) k v := by
  have hlow := flat_setWordAt disk start hsize hk (by decide : 0 + 1 < 4) v
  have hhigh := flat_setWordAt (update disk (start + k / size)
      (setWordAt (disk (start + k / size)) (k % size) v))
    start hsize hk (by decide : 2 + 1 < 4) (v / 2 ^ 16)
  rw [add_zero, add_zero] at hlow
  rw [update_self, update_idem, hlow] at hhigh
  exact hhigh

theorem flat_update_of_le {sector len k : ℕ} (data : ℕ → UInt8)
    (hsector : start + len ≤ sector) (hk : k < len * size) :
    flat (update disk sector data) start size k = flat disk start size k := by
  have hdiv : k / size < len := Nat.div_lt_of_lt_mul (by
    rw [mul_comm]
    exact hk)
  rw [flat, update_of_ne (by omega), flat]

end Whitix.Support
