import Mathlib.Data.Nat.Notation
import Mathlib.Logic.Function.Basic

/-!
# Two-level paging

Physical memory consists of frames of 1024 words.  A virtual address is
translated through a page directory, whose entries name the frames of page
tables, and a page table, whose entries name the frames of pages.  An entry is
4096 times the number of a frame, with flags in the twelve low bits; the lowest
bit says whether there is anything at all.

A directory whose last entry names itself shows all its tables in the last four
megabytes of the address space, and itself in the last page.
-/

namespace Whitix.Support

open Function

abbrev Frames := ℕ → ℕ → ℕ

variable {dir g i page : ℕ} {mem : Frames}

section

variable (mem : Frames)

def setWord (frame i x : ℕ) : Frames :=
  update mem frame (update (mem frame) i x)

theorem setWord_self (frame i x : ℕ) : setWord mem frame i x frame i = x := by
  rw [setWord, update_self, update_self]

theorem setWord_frame_of_ne {frame : ℕ} (i x : ℕ)
    (h : g ≠ frame) : setWord mem frame i x g = mem g :=
  update_of_ne h _ mem

theorem setWord_of_ne {frame j : ℕ} (x : ℕ)
    (h : g ≠ frame ∨ j ≠ i) : setWord mem frame i x g j = mem g j := by
  by_cases hg : g = frame
  · have hj : j ≠ i := h.resolve_left (not_not_intro hg)
    rw [hg, setWord, update_self, update_of_ne hj]
  · rw [setWord_frame_of_ne mem i x hg]

/-! ## Translation -/

/-- The frame and the word of a virtual address. -/
def translate (dir va : ℕ) : Option (ℕ × ℕ) :=
  let dirEntry := mem dir (va / 4194304)
  if dirEntry % 2 = 0 then none
  else
    let tableEntry := mem (dirEntry / 4096) (va / 4096 % 1024)
    if tableEntry % 2 = 0 then none
    else some (tableEntry / 4096, va / 4 % 1024)

def pageEntry (dir page : ℕ) : ℕ :=
  mem (mem dir (page / 1024) / 4096) (page % 1024)

theorem translate_page {mem : Frames} (hi : i < 1024) (hdir : mem dir (page / 1024) % 2 = 1) :
    translate mem dir (page * 4096 + 4 * i) = if pageEntry mem dir page % 2 = 0 then none
      else some (pageEntry mem dir page / 4096, i) := by
  have hpage : (page * 4096 + 4 * i) / 4096 = page := by omega
  have hentry : (page * 4096 + 4 * i) / 4194304 = page / 1024 := by omega
  have hword : (page * 4096 + 4 * i) / 4 % 1024 = i := by omega
  rw [translate, hpage, hentry, hword]
  rw [if_neg (by omega), pageEntry]

/-- The directory names itself in its last entry. -/
def SelfMapped (dir : ℕ) : Prop :=
  mem dir 1023 = dir * 4096 + 3

end

section

variable (h : SelfMapped mem dir)
include h

theorem SelfMapped.frame : mem dir 1023 / 4096 = dir := by
  rw [SelfMapped] at h
  omega

theorem SelfMapped.present : mem dir 1023 % 2 = 1 := by
  rw [SelfMapped] at h
  omega

theorem SelfMapped.translate_table (hpage : page < 1048576) :
    translate mem dir (4290772992 + 4 * page) = if mem dir (page / 1024) % 2 = 0 then none
      else some (mem dir (page / 1024) / 4096, page % 1024) := by
  have haddress : 4290772992 + 4 * page =
      (1047552 + page / 1024) * 4096 + 4 * (page % 1024) := by omega
  have hentry : (1047552 + page / 1024) / 1024 = 1023 := by omega
  have htable : pageEntry mem dir (1047552 + page / 1024) = mem dir (page / 1024) := by
    rw [pageEntry, hentry, h.frame]
    congr 1
    omega
  rw [haddress, translate_page (by omega) (by rw [hentry]; exact h.present), htable]

theorem SelfMapped.translate_dir (hi : i < 1024) :
    translate mem dir (4294963200 + 4 * i) = some (dir, i) := by
  have hlast : (1047552 + i) / 1024 = 1023 := by omega
  have hpresent := h.present
  rw [show 4294963200 + 4 * i = 4290772992 + 4 * (1047552 + i) by omega,
    h.translate_table (by omega), hlast, if_neg (by omega), h.frame]
  congr 2
  omega

end

end Whitix.Support
