import Mathlib.Tactic.Ring

/-!
# Tables of packed entries

A table of bytes holds entries of 12, 16 or 32 bits.  Two neighbouring entries
of 12 bits share a byte.  Storing a value in one entry leaves the values of all
other entries alone.
-/

namespace Whitix.Support

open Function Nat UInt8

section

variable (table : ℕ → UInt8)

def get12 (c : ℕ) : ℕ :=
  if c % 2 = 1 then
    (((table (c * 3 / 2)).toNat >>> 4) ||| ((table (c * 3 / 2 + 1)).toNat <<< 4)) &&& 0xFFF
  else
    ((table (c * 3 / 2)).toNat + ((table (c * 3 / 2 + 1)).toNat <<< 8)) &&& 0xFFF

def set12 (c v : ℕ) : ℕ → UInt8 :=
  let first := (table (c * 3 / 2)).toNat
  let last := (table (c * 3 / 2 + 1)).toNat
  if c % 2 = 1 then
    update (update table (c * 3 / 2) (UInt8.ofNat ((first &&& 0xF) ||| (v <<< 4))))
      (c * 3 / 2 + 1) (UInt8.ofNat (v >>> 4))
  else
    update (update table (c * 3 / 2) (UInt8.ofNat (v &&& 0xFF)))
      (c * 3 / 2 + 1) (UInt8.ofNat ((last &&& 0xF0) ||| (v >>> 8)))

def wordAt (k : ℕ) : ℕ :=
  (table k).toNat + (table (k + 1)).toNat * 2 ^ 8

def dwordAt (k : ℕ) : ℕ :=
  wordAt table k + wordAt table (k + 2) * 2 ^ 16

def setWordAt (k v : ℕ) : ℕ → UInt8 :=
  update (update table k (UInt8.ofNat v)) (k + 1) (UInt8.ofNat (v / 2 ^ 8))

def setDwordAt (k v : ℕ) : ℕ → UInt8 :=
  setWordAt (setWordAt table k v) (k + 2) (v / 2 ^ 16)

end

/-! ## Words -/

section Words

variable {table : ℕ → UInt8} {k j v : ℕ}

theorem wordAt_congr {table' : ℕ → UInt8} (h : ∀ i < 2, table' (j + i) = table (k + i)) :
    wordAt table' j = wordAt table k := by
  have hfirst := h 0 (by decide)
  rw [wordAt, wordAt, h 1 (by decide), ← add_zero j, hfirst, add_zero]

theorem dwordAt_congr {table' : ℕ → UInt8} (h : ∀ i < 4, table' (j + i) = table (k + i)) :
    dwordAt table' j = dwordAt table k := by
  rw [dwordAt, dwordAt, wordAt_congr fun i hi => h i (by omega)]
  congr 2
  apply wordAt_congr
  intro i hi
  rw [add_assoc, add_assoc]
  exact h (2 + i) (by omega)

theorem wordAt_lt (table : ℕ → UInt8) (k : ℕ) : wordAt table k < 2 ^ 16 := by
  have hlow := (table k).toNat_lt
  have hhigh := (table (k + 1)).toNat_lt
  unfold wordAt
  omega

theorem dwordAt_lt (table : ℕ → UInt8) (k : ℕ) : dwordAt table k < 2 ^ 32 := by
  have hlow := wordAt_lt table k
  have hhigh := wordAt_lt table (k + 2)
  unfold dwordAt
  omega

theorem setWordAt_of_ne (h : j ≠ k ∧ j ≠ k + 1) : setWordAt table k v j = table j := by
  simp [setWordAt, update_of_ne, h.1, h.2]

theorem wordAt_setWordAt : wordAt (setWordAt table k v) k = v % 2 ^ 16 := by
  simp only [wordAt, setWordAt, update_self, update_of_ne (succ_ne_self k).symm, toNat_ofNat']
  omega

theorem wordAt_setWordAt_of_apart (h : j + 2 ≤ k ∨ k + 2 ≤ j) :
    wordAt (setWordAt table k v) j = wordAt table j := by
  rw [wordAt, setWordAt_of_ne (by omega), setWordAt_of_ne (by omega), wordAt]

theorem dwordAt_setDwordAt (hv : v < 2 ^ 32) : dwordAt (setDwordAt table k v) k = v := by
  rw [dwordAt, setDwordAt, wordAt_setWordAt_of_apart (by omega), wordAt_setWordAt, wordAt_setWordAt]
  omega

theorem dwordAt_setDwordAt_of_apart (h : j + 4 ≤ k ∨ k + 4 ≤ j) :
    dwordAt (setDwordAt table k v) j = dwordAt table j := by
  simp only [dwordAt, setDwordAt]
  repeat rw [wordAt_setWordAt_of_apart (by omega)]

theorem setDwordAt_of_ne (h : j < k ∨ k + 4 ≤ j) : setDwordAt table k v j = table j := by
  rw [setDwordAt, setWordAt_of_ne (by omega), setWordAt_of_ne (by omega)]

end Words

/-! ## Entries of 12 bits -/

section Entries

variable (table : ℕ → UInt8) (k v : ℕ)

theorem get12_even : get12 table (2 * k) =
    (table (3 * k)).toNat + (table (3 * k + 1)).toNat % 16 * 256 := by
  have hp := (table (3 * k)).toNat_lt
  have hidx : 2 * k * 3 / 2 = 3 * k := by omega
  rw [get12, if_neg (by omega), hidx, show 0xFFF = 2 ^ 12 - 1 from rfl,
    and_two_pow_sub_one_eq_mod, shiftLeft_eq]
  omega

theorem get12_odd : get12 table (2 * k + 1) =
    (table (3 * k + 1)).toNat / 16 + (table (3 * k + 2)).toNat * 16 := by
  have hp := (table (3 * k + 1)).toNat_lt
  have hq := (table (3 * k + 2)).toNat_lt
  have hidx : (2 * k + 1) * 3 / 2 = 3 * k + 1 := by omega
  have hidx' : (2 * k + 1) * 3 / 2 + 1 = 3 * k + 2 := by omega
  have hlow : (table (3 * k + 1)).toNat >>> 4 < 2 ^ 4 := by
    omega
  rw [get12, if_pos (by omega), hidx', hidx, show 0xFFF = 2 ^ 12 - 1 from rfl,
    and_two_pow_sub_one_eq_mod, Nat.or_comm, ← shiftLeft_add_eq_or_of_lt hlow, shiftLeft_eq,
    shiftRight_eq_div_pow]
  omega

theorem and_upper_half : ∀ p < 2 ^ 8, p &&& 0xF0 = (p / 16) <<< 4 := by decide +kernel

section

variable (hv : v < 2 ^ 12)
include hv

/-- Storing in an even entry changes its own byte and the lower half of the
byte it shares. -/
theorem set12_even :
    (set12 table (2 * k) v (3 * k)).toNat = v % 2 ^ 8 ∧ (set12 table (2 * k) v (3 * k + 1)).toNat =
        (table (3 * k + 1)).toNat / 16 * 16 + v / 2 ^ 8 ∧
      ∀ j, j ≠ 3 * k → j ≠ 3 * k + 1 → set12 table (2 * k) v j = table j := by
  have hq := (table (3 * k + 1)).toNat_lt
  have hidx : 2 * k * 3 / 2 = 3 * k := by omega
  have hhigh : v >>> 8 < 2 ^ 4 := by
    omega
  rw [set12, if_neg (by omega), hidx]
  refine ⟨?_, ?_, ?_⟩
  · rw [update_of_ne (succ_ne_self _).symm, update_self, toNat_ofNat',
      show 0xFF = 2 ^ 8 - 1 from rfl, and_two_pow_sub_one_eq_mod, mod_mod]
  · rw [update_self, toNat_ofNat', and_upper_half _ hq, ← shiftLeft_add_eq_or_of_lt hhigh,
      shiftLeft_eq, shiftRight_eq_div_pow]
    omega
  · intro j hj hj'
    rw [update_of_ne hj', update_of_ne hj]

/-- Storing in an odd entry changes the upper half of the byte it shares and
its own byte. -/
theorem set12_odd :
    (set12 table (2 * k + 1) v (3 * k + 1)).toNat = (table (3 * k + 1)).toNat % 16 + v % 16 * 16 ∧
      (set12 table (2 * k + 1) v (3 * k + 2)).toNat = v / 16 ∧
      ∀ j, j ≠ 3 * k + 1 → j ≠ 3 * k + 2 → set12 table (2 * k + 1) v j = table j := by
  have hidx : (2 * k + 1) * 3 / 2 = 3 * k + 1 := by omega
  have hidx' : (2 * k + 1) * 3 / 2 + 1 = 3 * k + 2 := by omega
  have hlow : (table (3 * k + 1)).toNat % 2 ^ 4 < 2 ^ 4 :=
    mod_lt _ (by decide)
  rw [set12, if_pos (by omega), hidx', hidx]
  refine ⟨?_, ?_, ?_⟩
  · rw [update_of_ne (by omega), update_self, toNat_ofNat', show 0xF = 2 ^ 4 - 1 from rfl,
      and_two_pow_sub_one_eq_mod, Nat.or_comm, ← shiftLeft_add_eq_or_of_lt hlow, shiftLeft_eq]
    omega
  · rw [update_self, toNat_ofNat', shiftRight_eq_div_pow]
    omega
  · intro j hj hj'
    rw [update_of_ne hj', update_of_ne hj]

theorem get12_set12 {c : ℕ} : get12 (set12 table c v) c = v := by
  obtain ⟨k, rfl | rfl⟩ := even_or_odd' c
  · obtain ⟨hfirst, hlast, -⟩ := set12_even table k v hv
    rw [get12_even, hfirst, hlast]
    omega
  · obtain ⟨hfirst, hlast, -⟩ := set12_odd table k v hv
    rw [get12_odd, hfirst, hlast]
    omega

/-- The other entries keep their values, also the one in the shared byte. -/
theorem get12_set12_of_ne {c d : ℕ} (hd : d ≠ c) : get12 (set12 table c v) d = get12 table d := by
  obtain ⟨k, rfl | rfl⟩ := even_or_odd' c
  · obtain ⟨-, hlast, hother⟩ := set12_even table k v hv
    obtain ⟨j, rfl | rfl⟩ := even_or_odd' d
    · rw [get12_even, get12_even, hother _ (by omega) (by omega), hother _ (by omega) (by omega)]
    · rw [get12_odd, get12_odd, hother (3 * j + 2) (by omega) (by omega)]
      by_cases hjk : j = k
      · subst hjk
        omega
      · rw [hother _ (by omega) (by omega)]
  · obtain ⟨hfirst, -, hother⟩ := set12_odd table k v hv
    obtain ⟨j, rfl | rfl⟩ := even_or_odd' d
    · rw [get12_even, get12_even, hother (3 * j) (by omega) (by omega)]
      by_cases hjk : j = k
      · subst hjk
        omega
      · rw [hother _ (by omega) (by omega)]
    · rw [get12_odd, get12_odd, hother _ (by omega) (by omega), hother _ (by omega) (by omega)]

end

end Entries

end Whitix.Support
