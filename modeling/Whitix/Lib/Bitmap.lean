import Mathlib.Data.Nat.Bitwise
import Whitix.Support.PackedTable

/-!
# Bitmaps

Bit `i` of a bitmap is bit `i % 8` of byte `i / 8`.  `BmapSetBit` changes a
byte, and `BitFindFirstZero` scans double words, so it looks at all bits of the
double word in which the bitmap ends.
-/

namespace Whitix.Bitmap

open Support List Nat Function UInt8

variable {array : ℕ → UInt8} {i k size : ℕ}

def bmapGetBit (array : ℕ → UInt8) (index : ℕ) : Bool :=
  (array (index / 8)).toNat.testBit (index % 8)

/-- The masks for clearing and setting a bit of a byte. -/
def bMasks : Bool → List UInt8
  | false => [0xFE, 0xFD, 0xFB, 0xF7, 0xEF, 0xDF, 0xBF, 0x7F]
  | true => [0x01, 0x02, 0x04, 0x08, 0x10, 0x20, 0x40, 0x80]

def bmapSetBit (array : ℕ → UInt8) (index : ℕ) (value : Bool) : ℕ → UInt8 :=
  let mask := (bMasks value).getD (index % 8) 0
  update array (index / 8)
    (if value then array (index / 8) ||| mask else array (index / 8) &&& mask)

/-- `repe scasl`: the first of `count` double words that is not all ones. -/
def scanDwords (array : ℕ → UInt8) (count : ℕ) : Option ℕ :=
  (range count).find? fun k => dwordAt array (4 * k) ≠ 2 ^ 32 - 1

/-- `bsfl`, for a word that is not zero. -/
def bitScanForward (word : ℕ) : ℕ :=
  ((range 32).find? fun i => word.testBit i).getD 0

def bitFindFirstZero (array : ℕ → UInt8) (size : ℕ) : ℕ :=
  if size = 0 then 0
  else
    match scanDwords array ((size + 31) / 32) with
    | none => (size + 31) / 32 * 32
    | some k =>
      bitScanForward (dwordAt array (4 * k) ^^^ (2 ^ 32 - 1)) + k * 32

/-! ## Setting a bit -/

theorem bMasks_testBit : ∀ (value : Bool), ∀ i < 8, ∀ k < 8,
    ((bMasks value).getD i 0).toNat.testBit k = if k = i then value else !value := by decide

theorem bmapGetBit_bmapSetBit (value : Bool) :
    bmapGetBit (bmapSetBit array i value) k = if k = i then value else bmapGetBit array k := by
  have hi : i % 8 < 8 := mod_lt i (by decide)
  have hk : k % 8 < 8 := mod_lt k (by decide)
  have hmask := bMasks_testBit value (i % 8) hi (k % 8) hk
  unfold bmapGetBit bmapSetBit
  generalize (bMasks value).getD (i % 8) 0 = mask at hmask ⊢
  by_cases hbyte : k / 8 = i / 8
  · have hbit : k % 8 = i % 8 ↔ k = i := by omega
    rw [hbyte, update_self]
    by_cases hki : k = i
    · rw [if_pos hki]
      rw [if_pos (hbit.mpr hki)] at hmask
      cases value with
      | false => simp [UInt8.toNat_and, hmask]
      | true => simp [UInt8.toNat_or, hmask]
    · rw [if_neg hki]
      rw [if_neg (mt hbit.mp hki)] at hmask
      cases value with
      | false => simp [UInt8.toNat_and, hmask]
      | true => simp [UInt8.toNat_or, hmask]
  · have hki : k ≠ i := by
      rintro rfl
      exact hbyte rfl
    rw [update_of_ne hbyte, if_neg hki]

/-! ## Finding a zero bit -/

theorem testBit_wordAt (hi : i < 16) :
    (wordAt array k).testBit i = (array (k + i / 8)).toNat.testBit (i % 8) := by
  have hword : wordAt array k = 2 ^ 8 * (array (k + 1)).toNat + (array k).toNat := by
    rw [wordAt, mul_comm, add_comm]
  rw [hword, testBit_two_pow_mul_add _ (array k).toNat_lt]
  split
  · next hlow => rw [div_eq_of_lt hlow, mod_eq_of_lt hlow, add_zero]
  · next hhigh =>
    rw [show i / 8 = 1 by omega, show i % 8 = i - 8 by omega]

theorem testBit_dwordAt (hi : i < 32) :
    (dwordAt array (4 * k)).testBit i = bmapGetBit array (32 * k + i) := by
  have hdword : dwordAt array (4 * k) =
      2 ^ 16 * wordAt array (4 * k + 2) + wordAt array (4 * k) := by
    rw [dwordAt, mul_comm (wordAt array (4 * k + 2)), add_comm]
  rw [hdword, testBit_two_pow_mul_add _ (wordAt_lt array (4 * k)), bmapGetBit]
  have hmod : (32 * k + i) % 8 = i % 8 := by omega
  split
  · next hlow =>
    rw [testBit_wordAt hlow, hmod, show (32 * k + i) / 8 = 4 * k + i / 8 by omega]
  · next hhigh =>
    rw [testBit_wordAt (by omega), hmod, show (i - 16) % 8 = i % 8 by omega,
      show (32 * k + i) / 8 = 4 * k + 2 + (i - 16) / 8 by omega]

theorem dwordAt_eq_ones_iff : dwordAt array (4 * k) = 2 ^ 32 - 1 ↔
    ∀ i < 32, bmapGetBit array (32 * k + i) = true := by
  constructor
  · intro h i hi
    rw [← testBit_dwordAt hi, h, testBit_two_pow_sub_one]
    exact decide_eq_true hi
  · intro h
    apply eq_of_testBit_eq
    intro i
    rw [testBit_two_pow_sub_one]
    by_cases hi : i < 32
    · rw [testBit_dwordAt hi, h i hi, decide_eq_true hi]
    · have hlarge : dwordAt array (4 * k) < 2 ^ i :=
        lt_of_lt_of_le (dwordAt_lt array (4 * k)) (Nat.pow_le_pow_right (by decide) (not_lt.mp hi))
      rw [testBit_lt_two_pow hlarge, decide_eq_false hi]

theorem bmapGetBit_of_dwordAt (h : dwordAt array (4 * (i / 32)) = 2 ^ 32 - 1) :
    bmapGetBit array i = true := by
  have hbit := dwordAt_eq_ones_iff.mp h (i % 32) (mod_lt i (by decide))
  rwa [div_add_mod] at hbit

theorem bitScanForward_spec {word : ℕ} (h : ∃ i < 32, word.testBit i = true) :
    bitScanForward word < 32 ∧ word.testBit (bitScanForward word) = true ∧
      ∀ j < bitScanForward word, word.testBit j = false := by
  obtain ⟨i, hi, hbit⟩ := h
  unfold bitScanForward
  cases hfind : (range 32).find? fun i => word.testBit i with
  | none =>
    have hno := find?_eq_none.mp hfind i (mem_range.mpr hi)
    exact absurd hbit hno
  | some j =>
    obtain ⟨hj, hrange, hbefore⟩ := find?_range_eq_some.mp hfind
    refine ⟨mem_range.mp hrange, hj, fun m hm => ?_⟩
    simpa using hbefore m hm

/-- The result is the first zero bit, or the end of the last double word if
there is none. -/
theorem bitFindFirstZero_spec (array : ℕ → UInt8) (size : ℕ) :
    (∀ i < bitFindFirstZero array size, bmapGetBit array i = true) ∧
      (bitFindFirstZero array size < size →
        bmapGetBit array (bitFindFirstZero array size) = false) := by
  unfold bitFindFirstZero
  split
  · next hzero => simp [hzero]
  · split
    · next hnone =>
      constructor
      · intro i hi
        have hword := find?_eq_none.mp hnone (i / 32) (mem_range.mpr (by omega))
        apply bmapGetBit_of_dwordAt
        simpa using hword
      · intro hlt
        omega
    · next k hk =>
      obtain ⟨hne, hkrange, hbefore⟩ :=
        find?_range_eq_some.mp hk
      have hones : dwordAt array (4 * k) ≠ 2 ^ 32 - 1 := by simpa using hne
      have hflip : ∀ i < 32, (dwordAt array (4 * k) ^^^ (2 ^ 32 - 1)).testBit i =
            !bmapGetBit array (32 * k + i) := by
        intro i hi
        rw [testBit_xor, testBit_two_pow_sub_one, testBit_dwordAt hi,
          decide_eq_true hi, Bool.xor_true]
      have hzero : ∃ i < 32, (dwordAt array (4 * k) ^^^ (2 ^ 32 - 1)).testBit i = true := by
        by_contra hall
        refine hones (dwordAt_eq_ones_iff.mpr fun i hi => ?_)
        have hno : ¬(!bmapGetBit array (32 * k + i)) = true := by
          intro hbit
          exact hall ⟨i, hi, (hflip i hi).trans hbit⟩
        simpa using hno
      obtain ⟨hlt, hbit, hfirst⟩ := bitScanForward_spec hzero
      generalize bitScanForward _ = j at hlt hbit hfirst ⊢
      rw [add_comm, mul_comm]
      constructor
      · intro i hi
        by_cases hword : i / 32 < k
        · apply bmapGetBit_of_dwordAt
          simpa using hbefore (i / 32) hword
        · have hsame := hfirst (i - 32 * k) (by omega)
          rw [hflip _ (by omega), show 32 * k + (i - 32 * k) = i by omega]
            at hsame
          simpa using hsame
      · intro _
        rw [hflip j hlt] at hbit
        simpa using hbit

end Whitix.Bitmap
