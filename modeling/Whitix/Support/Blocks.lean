import Mathlib.Tactic.Ring

/-!
# Blocks of memory

A block is given by its address and its length.  Two blocks are apart when no
address belongs to both, and parts of blocks that are apart are apart.  The
objects of a grid, which have the same size and lie side by side, are apart
from each other and inside any block with room for all of them.
-/

namespace Whitix.Support

/-- The blocks of length `m` at `a` and of length `n` at `b` do not meet. -/
def Apart (a m b n : ℕ) : Prop := a + m ≤ b ∨ b + n ≤ a
  deriving Decidable

variable {m n b a j i size : ℕ}

theorem Apart.symm (h : Apart a m b n) : Apart b n a m :=
  Or.symm h

theorem Apart.mono {a' m' b' n' : ℕ} (h : Apart a m b n) (ha : a ≤ a' ∧ a' + m' ≤ a + m)
    (hb : b ≤ b' ∧ b' + n' ≤ b + n) : Apart a' m' b' n' := by
  unfold Apart at *
  omega

theorem apart_grid (b size : ℕ) (hij : i ≠ j) : Apart (b + i * size) size (b + j * size) size := by
  rcases lt_or_gt_of_ne hij with h | h
  · left
    have hle : (i + 1) * size ≤ j * size := Nat.mul_le_mul_right size h
    rw [add_mul, one_mul] at hle
    omega
  · right
    have hle : (j + 1) * size ≤ i * size := Nat.mul_le_mul_right size h
    rw [add_mul, one_mul] at hle
    omega

theorem grid_le (b size : ℕ) (hi : i < n) : b + i * size + size ≤ b + n * size := by
  have hle : (i + 1) * size ≤ n * size := Nat.mul_le_mul_right size hi
  rw [add_mul, one_mul] at hle
  omega

theorem grid_injective (hsize : 0 < size) (h : b + i * size = b + j * size) : i = j := by
  have hmul : i * size = j * size := add_left_cancel h
  exact Nat.eq_of_mul_eq_mul_right hsize hmul

end Whitix.Support
