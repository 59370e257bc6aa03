import Whitix.Support.Memory
import Mathlib.Tactic.Ring

/-!
# Big-endian double words

Double words stored in a memory of bytes with the most significant byte first.
-/

namespace Whitix.Support

def beDwordAt (mem : ℕ → UInt8) (k : ℕ) : ℕ :=
  (mem k).toNat * 2 ^ 24 + (mem (k + 1)).toNat * 2 ^ 16 +
    (mem (k + 2)).toNat * 2 ^ 8 + (mem (k + 3)).toNat

/-- The bytes of a double word, the most significant one first. -/
def beBytes (v : ℕ) : List UInt8 :=
  [UInt8.ofNat (v / 2 ^ 24), UInt8.ofNat (v / 2 ^ 16), UInt8.ofNat (v / 2 ^ 8), UInt8.ofNat v]

def setBeDwordAt (mem : ℕ → UInt8) (k v : ℕ) : ℕ → UInt8 :=
  overwrite mem k (beBytes v)

section BigEndian

variable {mem : ℕ → UInt8} {k j v : ℕ}

theorem beDwordAt_congr {mem' : ℕ → UInt8} (h : ∀ i < 4, mem' (k + i) = mem (k + i)) :
    beDwordAt mem' k = beDwordAt mem k := by
  have hzero : mem' k = mem k := h 0 (by decide)
  rw [beDwordAt, beDwordAt, hzero, h 1 (by decide), h 2 (by decide), h 3 (by decide)]

theorem beDwordAt_overwrite_of_apart {data : List UInt8} (h : k + 4 ≤ j ∨ j + data.length ≤ k) :
    beDwordAt (overwrite mem j data) k = beDwordAt mem k := by
  apply beDwordAt_congr
  intro i hi
  rcases h with h | h
  · exact overwrite_of_lt (by omega)
  · exact overwrite_of_le (by omega)

theorem beDwordAt_setBeDwordAt_of_apart (h : k + 4 ≤ j ∨ j + 4 ≤ k) :
    beDwordAt (setBeDwordAt mem j v) k = beDwordAt mem k :=
  beDwordAt_overwrite_of_apart h

theorem beDwordAt_setBeDwordAt (hv : v < 2 ^ 32) : beDwordAt (setBeDwordAt mem k v) k = v := by
  have hbyte : ∀ i < 4, setBeDwordAt mem k v (k + i) = (beBytes v).getD i 0 := by
    intro i hi
    rw [setBeDwordAt, overwrite_add (show i < (beBytes v).length from hi)]
    exact (List.getD_eq_getElem _ _ hi).symm
  have hzero := hbyte 0 (by decide)
  rw [add_zero] at hzero
  rw [beDwordAt, hzero, hbyte 1 (by decide), hbyte 2 (by decide), hbyte 3 (by decide)]
  simp only [beBytes, List.getD_cons_zero, List.getD_cons_succ, UInt8.toNat_ofNat']
  omega

end BigEndian

end Whitix.Support
