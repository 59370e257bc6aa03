import Mathlib.Data.Int.ModEq
import Mathlib.Tactic.Ring
import Mathlib.Tactic.NormNum

/-!
# Thirty-two bit arithmetic

The kernel computes with `DWORD` values, which wrap modulo `2 ^ 32`, and with
`int` values, which are read here as wrapping into `[-2 ^ 31, 2 ^ 31)`.  Both
are represented by the numbers they denote, and every operation that can wrap
is written with one of the functions below.
-/

namespace Whitix.Support

/-- A natural number reduced to a `DWORD`. -/
def dword (n : ℕ) : ℕ := n % 2 ^ 32

def dwordSub (a b : ℕ) : ℕ :=
  if b ≤ a then a - b else a + 2 ^ 32 - b

/-- The difference of two sixty-four bit values. -/
def qwordSub (a b : ℕ) : ℕ :=
  if b ≤ a then a - b else a + 2 ^ 64 - b

def int32 (x : ℤ) : ℤ := Int.bmod x (2 ^ 32)

theorem dword_of_lt {n : ℕ} (h : n < 2 ^ 32) : dword n = n :=
  Nat.mod_eq_of_lt h

theorem dword_lt (n : ℕ) : dword n < 2 ^ 32 :=
  Nat.mod_lt _ (by norm_num)

theorem dwordSub_of_le {a b : ℕ} (hba : b ≤ a) : dwordSub a b = a - b :=
  if_pos hba

theorem qwordSub_of_le {a b : ℕ} (hba : b ≤ a) : qwordSub a b = a - b :=
  if_pos hba

theorem int32_of_range {x : ℤ} (hlow : -2 ^ 31 ≤ x) (hhigh : x < 2 ^ 31) : int32 x = x := by
  apply Int.bmod_eq_of_le
  · omega
  · omega

theorem eq_of_int32_nonneg {n : ℕ} (hn : n < 2 ^ 32) (h : 0 ≤ int32 n) : int32 n = n := by
  rw [int32, Int.bmod_def] at *
  omega

end Whitix.Support
