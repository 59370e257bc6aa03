import Mathlib.Algebra.Group.Nat.Defs
import Whitix.Support.PagedListing

/-!
# Directory records

The records that `SysGetDirEntries` returns, which the file systems hand to
`FillDir`.
-/

namespace Whitix.Vfs

/-- The part of `struct DirEntry` that depends on the directory. -/
structure DirRecord where
  vNodeNum : ℕ
  name : List UInt8
deriving DecidableEq, Repr

/-- `recordLen` of `FillDir`, a multiple of 4; the name begins at the offset 12. -/
def recordLen (r : DirRecord) : ℕ := (12 + r.name.length + 1 + 3) / 4 * 4

/-- The room that `FillDir` finds in a buffer.  `FillDirInfo.count` is an `int`, so that of
2^31 bytes or more is negative: every record is refused, as in an empty buffer. -/
def fillDirRoom (count : ℕ) : ℕ := if count < 2 ^ 31 then count else 0

def tolower (c : UInt8) : UInt8 := if 0x41 ≤ c ∧ c ≤ 0x5A then c ||| 0x20 else c

def cString (bytes : List UInt8) : List UInt8 := bytes.takeWhile fun c => c ≠ 0

theorem cString_append_zero (bytes : List UInt8) : cString (bytes ++ [0]) = cString bytes := by
  unfold cString
  induction bytes with
  | nil => rfl
  | cons c bytes ih =>
    rw [List.cons_append, List.takeWhile_cons, List.takeWhile_cons, ih]

end Whitix.Vfs
