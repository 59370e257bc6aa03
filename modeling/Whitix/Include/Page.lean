import Whitix.Support.Word

/-!
# Pages

The page arithmetic of `include/i386/i386.h`.
-/

namespace Whitix

open Support

def pageSize : ℕ := 4096

/-! The bits of a page table entry. -/

def pagePresent : ℕ := 1

def pageRw : ℕ := 2

def pageUser : ℕ := 4

def pageAlign (address : ℕ) : ℕ := address / pageSize * pageSize

/-- `PAGE_ALIGN_UP`, in which the addition can wrap. -/
def pageAlignUp (address : ℕ) : ℕ :=
  pageAlign (dword (address + (pageSize - 1)))

theorem pageSize_dvd_pageAlign (address : ℕ) : pageSize ∣ pageAlign address :=
  dvd_mul_left _ _

theorem pageSize_dvd_pageAlignUp (address : ℕ) : pageSize ∣ pageAlignUp address :=
  pageSize_dvd_pageAlign _

theorem pageAlign_of_dvd {address : ℕ} (h : pageSize ∣ address) : pageAlign address = address :=
  Nat.div_mul_cancel h

theorem pageAlignUp_of_dvd {length : ℕ} (h : pageSize ∣ length)
    (hlt : length ≤ 2 ^ 32 - pageSize) : pageAlignUp length = length := by
  unfold pageAlignUp pageAlign
  unfold pageSize at *
  rw [dword_of_lt (by omega)]
  omega

theorem pageAlignUp_idem (length : ℕ) : pageAlignUp (pageAlignUp length) = pageAlignUp length := by
  apply pageAlignUp_of_dvd (pageSize_dvd_pageAlignUp length)
  have hlt := dword_lt (length + (pageSize - 1))
  unfold pageAlignUp pageAlign
  unfold pageSize at *
  omega

end Whitix
