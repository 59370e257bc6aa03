import Mathlib.Data.Int.Notation

/-!
# Error codes

The error numbers of `include/error.h`.  Kernel functions return them negated.
-/

namespace Whitix

def EPERM : ℤ := 1
def ENOENT : ℤ := 2
def EIO : ℤ := 3
def EBADF : ℤ := 4
def ENOMEM : ℤ := 5
def EBUSY : ℤ := 7
def EFAULT : ℤ := 8
def EEXIST : ℤ := 9
def EMFILE : ℤ := 10
def ENOSPC : ℤ := 11
def EROFS : ℤ := 12
def ENOTIMPL : ℤ := 14
def ENOTDIR : ℤ := 15
def EINVAL : ℤ := 18
def EPIPE : ℤ := 20
def ECONNRESET : ℤ := 27

/-- A number that a call returns when it fails. -/
abbrev ErrorCode := { e : ℤ // e ≠ 0 }

theorem neg_ENOENT_ne_zero : -ENOENT ≠ 0 := by decide

end Whitix
