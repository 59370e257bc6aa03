import Mathlib.Data.Set.Insert

/-!
# Comparing strings

`strcmp` and `memcmp` keep the difference of two bytes in a signed `char`, so that its
sign is the one of the unsigned bytes only if these are less than 128 apart; `strncmp`
keeps the bytes apart.  The comparisons read the strings and their NUL only.
-/

namespace Whitix.Str

open List

variable (c1 c2 : UInt8)

def result : ℤ := (c1.toInt8 - c2.toInt8).toInt

/-- The comparisons get the bytes from the two pointers on; there is no result if one
reads behind them. -/
def strcmp : List UInt8 → List UInt8 → Option ℤ
  | c1 :: s1, c2 :: s2 =>
    if result c1 c2 ≠ 0 ∨ c1 = 0 then some (result c1 c2) else strcmp s1 s2
  | _, _ => none

def strncmp : ℕ → List UInt8 → List UInt8 → Option ℤ
  | 0, _, _ => some 0
  | num + 1, c1 :: s1, c2 :: s2 =>
    if c1 ≠ c2 then some (c1.toNat - c2.toNat)
    else if c1 = 0 then some 0
    else strncmp num s1 s2
  | _, _, _ => none

def memcmp : ℕ → List UInt8 → List UInt8 → Option ℤ
  | 0, _, _ => some 0
  | n + 1, c1 :: s1, c2 :: s2 =>
    if result c1 c2 ≠ 0 then some (result c1 c2) else memcmp n s1 s2
  | _, _, _ => none

/-- A string: the bytes in front of its NUL. -/
structure CString where
  chars : List UInt8
  chars_ne : ∀ c ∈ chars, c ≠ 0

namespace CString

variable (a b : CString)

def bytes : List UInt8 := a.chars ++ [0]

/-- The sign of `strcmp`. -/
def order : Option Ordering := (strcmp a.bytes b.bytes).map (compare · 0)

end CString

/-- What makes `strcmp` a total order of the strings in `S`; the bytes of a list are
compared as unsigned numbers. -/
structure TotalOrder (S : Set CString) : Prop where
  lexicographic : ∀ a ∈ S, ∀ b ∈ S, a.order b = some (compare a.chars b.chars)
  antisymmetric : ∀ a ∈ S, ∀ b ∈ S, b.order a = (a.order b).map Ordering.swap
  transitive : ∀ a ∈ S, ∀ b ∈ S, ∀ c ∈ S, (a.order b).any Ordering.isLE →
    (b.order c).any Ordering.isLE → (a.order c).any Ordering.isLE
  equal : ∀ a ∈ S, ∀ b ∈ S, a.order b = some .eq ↔ a = b
  agrees_strncmp : ∀ a ∈ S, ∀ b ∈ S, ∀ n, a.chars.length < n → b.chars.length < n →
    (strncmp n a.bytes b.bytes).map (compare · 0) = a.order b
  agrees_memcmp : ∀ a ∈ S, ∀ b ∈ S,
    (memcmp (min a.chars.length b.chars.length + 1) a.bytes b.bytes).map (compare · 0) = a.order b

/-- The bytes at the first place where two strings differ, two NULs if there is none. -/
def mismatch : List UInt8 → List UInt8 → UInt8 × UInt8
  | [], [] => (0, 0)
  | c1 :: _, [] => (c1, 0)
  | [], c2 :: _ => (0, c2)
  | c1 :: s1, c2 :: s2 => if c1 = c2 then mismatch s1 s2 else (c1, c2)

/-- The difference of two unsigned bytes fits a `char`. -/
def Fits : Prop := c1.toNat < c2.toNat + 128 ∧ c2.toNat ≤ c1.toNat + 128

theorem toInt_toInt8 (c : UInt8) : c.toInt8.toInt = (c.toNat : ℤ).bmod 256 := by
  have hbits : c.toInt8.toBitVec = c.toBitVec := rfl
  rw [← Int8.toInt_toBitVec, hbits, BitVec.toInt_eq_toNat_bmod]
  rfl

theorem result_eq : result c1 c2 = ((c1.toNat : ℤ) - c2.toNat).bmod 256 := by
  rw [result, Int8.toInt_sub, toInt_toInt8, toInt_toInt8]
  simp

@[simp] theorem result_eq_zero {c1 c2 : UInt8} : result c1 c2 = 0 ↔ c1 = c2 := by
  have h1 := c1.toNat_lt
  have h2 := c2.toNat_lt
  rw [result_eq, ← UInt8.toNat_inj, Int.bmod_eq_emod]
  split_ifs <;> omega

theorem compare_byte : compare c1 c2 =
    if c1.toNat < c2.toNat then .lt else if c1.toNat = c2.toNat then .eq else .gt := by
  simp [compare, compareOfLessAndEq, UInt8.lt_iff_toNat_lt, UInt8.toNat_inj]

theorem compare_zero (r : ℤ) : compare r 0 = if r < 0 then .lt else if r = 0 then .eq else .gt :=
  rfl

theorem compare_sub : compare ((c1.toNat : ℤ) - c2.toNat) 0 = compare c1 c2 := by
  rw [compare_byte, compare_zero]
  split_ifs <;> first | rfl | omega

theorem compare_result {c1 c2 : UInt8} : compare (result c1 c2) 0 = compare c1 c2 ↔ Fits c1 c2 := by
  have h1 := c1.toNat_lt
  have h2 := c2.toNat_lt
  rw [compare_byte, compare_zero, Fits, result_eq, Int.bmod_eq_emod]
  split_ifs <;> simp <;> omega

section

variable {a b : List UInt8} (ha : ∀ c ∈ a, c ≠ 0) (hb : ∀ c ∈ b, c ≠ 0)

include ha hb

theorem strcmp_eq : strcmp (a ++ [0]) (b ++ [0]) =
    some (result (mismatch a b).1 (mismatch a b).2) := by
  fun_induction mismatch a b <;> simp_all [strcmp]

theorem memcmp_eq : memcmp (min a.length b.length + 1) (a ++ [0]) (b ++ [0]) =
    some (result (mismatch a b).1 (mismatch a b).2) := by
  fun_induction mismatch a b <;> simp_all [memcmp, eq_comm.trans result_eq_zero]

theorem strncmp_eq {n : ℕ} (hna : a.length < n) (hnb : b.length < n) :
    strncmp n (a ++ [0]) (b ++ [0]) =
      some (((mismatch a b).1.toNat : ℤ) - (mismatch a b).2.toNat) := by
  fun_induction mismatch a b generalizing n
  all_goals
    obtain ⟨n, rfl⟩ := Nat.exists_eq_add_one_of_ne_zero (Nat.ne_zero_of_lt hna)
    simp_all [strncmp, @eq_comm UInt8 0]

theorem compare_mismatch : compare a b = compare (mismatch a b).1 (mismatch a b).2 := by
  fun_induction mismatch a b with
  | case5 c1 s1 c2 s2 hne =>
    rw [List.compare_cons_cons]
    cases hcompare : compare c1 c2 with
    | eq => exact absurd (Std.compare_eq_iff_eq.mp hcompare) hne
    | lt | gt => rfl
  | _ => simp_all [List.compare_cons_cons, compare_byte, ← UInt8.toNat_inj, Nat.pos_iff_ne_zero]

end

variable {S : Set CString} {a b : CString}

theorem order_eq : a.order b =
    some (compare (result (mismatch a.chars b.chars).1 (mismatch a.chars b.chars).2) 0) := by
  rw [CString.order, CString.bytes, CString.bytes, strcmp_eq a.chars_ne b.chars_ne, Option.map_some]

/-- `strcmp` is a total order exactly of the strings whose first different bytes are close
enough. -/
theorem totalOrder_iff : TotalOrder S ↔
    ∀ a ∈ S, ∀ b ∈ S, Fits (mismatch a.chars b.chars).1 (mismatch a.chars b.chars).2 := by
  have hiff (a b : CString) : a.order b = some (compare a.chars b.chars) ↔
      Fits (mismatch a.chars b.chars).1 (mismatch a.chars b.chars).2 := by
    rw [order_eq, Option.some.injEq, compare_mismatch a.chars_ne b.chars_ne]
    exact compare_result
  refine ⟨fun h a ha b hb => (hiff a b).mp (h.lexicographic a ha b hb), fun hnear => ?_⟩
  have hlex a (ha : a ∈ S) b (hb : b ∈ S) : a.order b = some (compare a.chars b.chars) :=
    (hiff a b).mpr (hnear a ha b hb)
  refine ⟨hlex, fun a ha b hb => ?_, fun a ha b hb c hc hab hbc => ?_, fun a ha b hb => ?_,
    fun a ha b hb n hna hnb => ?_, fun a _ b _ => ?_⟩
  · rw [hlex a ha b hb, hlex b hb a ha, Option.map_some, Std.OrientedOrd.eq_swap]
  · rw [hlex a ha b hb] at hab
    rw [hlex b hb c hc] at hbc
    rw [hlex a ha c hc]
    exact Std.TransCmp.isLE_trans hab hbc
  · rw [hlex a ha b hb, Option.some.injEq, Std.compare_eq_iff_eq, CString.mk.injEq]
  · rw [CString.bytes, CString.bytes, strncmp_eq a.chars_ne b.chars_ne hna hnb, hlex a ha b hb,
      Option.map_some, compare_sub, compare_mismatch a.chars_ne b.chars_ne]
  · rw [CString.bytes, CString.bytes, memcmp_eq a.chars_ne b.chars_ne, order_eq, Option.map_some]

def single (c : UInt8) (hc : c ≠ 0) : CString := ⟨[c], forall_mem_singleton.mpr hc⟩

/-- The string `"\x01"` is not in front of `"\x82"`. -/
theorem not_totalOrder_high : ¬TotalOrder {single 1 (by decide), single 0x82 (by decide)} := by
  intro h
  have hlex := h.lexicographic (single 1 (by decide)) (.inl rfl)
    (single 0x82 (by decide)) (.inr rfl)
  revert hlex
  decide

end Whitix.Str
