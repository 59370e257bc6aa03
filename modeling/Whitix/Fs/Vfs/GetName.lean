import Whitix.Fs.Vfs.Lookup
import Whitix.Memory.Vmm.CheckArea

/-!
# Copying a path from user space

`GetName` takes the room for a path from the area of its first byte and the one behind it,
and allocates as many bytes.  A path that fills the room is ended behind the block, and
one that leaves a short neighbour is read from memory that is not mapped.
-/

namespace Whitix.Vfs

open Support List Mmap Vmm

/-! ## The code -/

/-- `FileNameMaxLength` at the area that has been found, with those behind it. -/
def maxLengthFrom (path : ℕ) : List VMArea → ℤ
  | [] => - EFAULT
  | area :: back =>
    let finish := dword (area.start + area.length)
    let len := min (int32 (finish - path)) pathMax
    if back.head?.map VMArea.start = some finish then pathMax else len

variable (areaList : List VMArea) (mem : ℕ → UInt8)

def fileNameMaxLength (path : ℕ) : ℤ :=
  match vmLookupAddress areaList path with
  | none => - EFAULT
  | some i => maxLengthFrom path (areaList.drop i)

/-- The loop of `GetName` and the byte behind it: the addresses read and the bytes written. -/
def copyLoop (mem : ℕ → UInt8) (path : ℕ) : ℕ → List ℕ × List UInt8
  | 0 => ([], [0])
  | len + 1 =>
    if mem path = 0 then ([path], [0])
    else
      let r := copyLoop mem (path + 1) len
      (path :: r.1, mem path :: r.2)

/-- `GetName`: the addresses read, and the size of the block with the bytes written to it. -/
def getName (path : ℕ) (allocated : Bool) : List ℕ × Option (ℕ × List UInt8) :=
  let len := fileNameMaxLength areaList path
  if mem path = 0 ∨ len ≤ 0 ∨ allocated = false then ([path], none)
  else
    let r := copyLoop mem path len.toNat
    (path :: r.1, some (len.toNat, r.2))

/-! ## Strings -/

/-- The address lies in an area. -/
def Mapped (x : ℕ) : Prop :=
  ∃ area ∈ areaList, area.start ≤ x ∧ x < area.finish

/-- The characters of the string at `path`, of which there are at most `n`. -/
def stringAt (path n : ℕ) : List UInt8 :=
  ((range' path n).map mem).takeWhile fun c => c ≠ 0

/-- The copy is read from areas without a gap from `path` on, stays in its block, and has the
first `PATH_MAX - 1` characters of the string at most. -/
structure Bounded (path : ℕ) (r : List ℕ × Option (ℕ × List UInt8)) : Prop where
  reads : ∀ x ∈ r.1, path ≤ x ∧ ∀ y, path ≤ y → y ≤ x → Mapped areaList y
  writes : ∀ b ∈ r.2, b.2.length ≤ b.1
  copy : ∀ b ∈ r.2, b.2 = stringAt mem path (pathMax - 1) ++ [0]

/-- The room for a path by the layout of the areas: up to the end of its area, and
`PATH_MAX` if the next one follows without a gap.  There is none in an area that ends with
the address space or 2^31 bytes behind the path. -/
def nameRoom (path : ℕ) : ℕ :=
  match areaList.dropWhile fun area => area.finish ≤ path with
  | [] => 0
  | area :: back =>
    if path < area.start ∨ area.finish = 2 ^ 32 then 0
    else if back.head?.map VMArea.start = some area.finish then pathMax
    else if 2 ^ 31 ≤ area.finish - path then 0
    else min (area.finish - path) pathMax

/-- The end of the string is in the room, and mapped with all that is in front of it. -/
def EndsInRoom (path : ℕ) : Prop :=
  ∃ k < nameRoom areaList path, mem (path + k) = 0 ∧
    ∀ x, path ≤ x → x ≤ path + k → Mapped areaList x

variable {areaList : List VMArea} {mem : ℕ → UInt8} {path : ℕ}

theorem stringAt_succ (path n : ℕ) : stringAt mem path (n + 1) =
    if mem path = 0 then [] else mem path :: stringAt mem (path + 1) n := by
  unfold stringAt
  rw [range'_succ, map_cons]
  split_ifs <;> simp_all

theorem copyLoop_eq (path len : ℕ) : copyLoop mem path len =
    (range' path (min ((stringAt mem path len).length + 1) len), stringAt mem path len ++ [0]) := by
  induction len generalizing path with
  | zero => simp [copyLoop, stringAt]
  | succ len ih =>
    rw [copyLoop, stringAt_succ, ih]
    split_ifs
    · simp
    · rw [length_cons, Nat.add_min_add_right, range'_succ]
      rfl

/-- A shorter string has its end behind it, and does not depend on the bound. -/
theorem stringAt_of_lt {n : ℕ} (h : (stringAt mem path n).length < n) :
    mem (path + (stringAt mem path n).length) = 0 ∧
      ∀ n', n ≤ n' + 1 → stringAt mem path n' = stringAt mem path n := by
  induction n generalizing path with
  | zero => cases h
  | succ n ih =>
    rw [stringAt_succ] at h ⊢
    split_ifs at h ⊢ with hzero
    · refine ⟨hzero, fun n' _ => ?_⟩
      cases n' with
      | zero => rfl
      | succ n' => rw [stringAt_succ, if_pos hzero]
    · obtain ⟨hend, hsame⟩ := ih (Nat.lt_of_succ_lt_succ h)
      refine ⟨?_, fun n' hn' => ?_⟩
      · rw [length_cons, add_comm _ 1, ← add_assoc]
        exact hend
      · cases n' with
        | zero =>
          have hn : n = 0 := by omega
          subst hn
          cases Nat.lt_of_succ_lt_succ h
        | succ n' => rw [stringAt_succ, if_neg hzero, hsame n' (by omega)]

theorem length_stringAt_le_of_zero {n k : ℕ} (hk : mem (path + k) = 0) :
    (stringAt mem path n).length ≤ k := by
  induction n generalizing path k with
  | zero => exact Nat.zero_le k
  | succ n ih =>
    rw [stringAt_succ]
    split_ifs with hzero
    · exact Nat.zero_le k
    · cases k with
      | zero => exact absurd hk hzero
      | succ k =>
        refine Nat.succ_le_succ (ih ?_)
        rw [add_assoc, add_comm 1]
        exact hk

/-! ## The room -/

theorem dropWhile_of_mem {front back : List VMArea} {area : VMArea}
    (h : Areas (front ++ area :: back)) (hstart : area.start ≤ path) (hlt : path < area.finish) :
    (front ++ area :: back).dropWhile (fun a => a.finish ≤ path) = area :: back := by
  rw [dropWhile_append_of_pos, dropWhile_cons_of_neg (by simpa using hlt)]
  intro a ha
  have hbefore := (pairwise_append.mp h.ordered).2.2 a ha area mem_cons_self
  exact decide_eq_true (hbefore.trans hstart)

theorem fileNameMaxLength_toNat (h : Areas areaList) :
    (fileNameMaxLength areaList path).toNat = nameRoom areaList path := by
  unfold fileNameMaxLength nameRoom
  rcases vmLookupAddress_cases path h.starts with
    ⟨front, area, back, rfl, hfound, hin⟩ | ⟨hnone, hout⟩
  · have hle := h.finish_le area (by simp)
    have hfinish : dword (area.start + area.length) = area.finish := by
      rw [VMArea.finish] at hle ⊢
      rw [dword] at hin ⊢
      omega
    have hlt : area.finish < 2 ^ 32 := hfinish ▸ dword_lt _
    rw [hfinish] at hin
    rw [hfound, dropWhile_of_mem h hin.1 hin.2]
    simp only [drop_left, maxLengthFrom, hfinish]
    rw [if_neg (by omega : ¬ (path < area.start ∨ area.finish = 2 ^ 32))]
    split_ifs with hnext hlarge
    · rfl
    · rw [int32, Int.bmod_def]
      omega
    · rw [int32_of_range (by omega) (by omega)]
      omega
  · rw [hnone]
    dsimp only
    split
    · rfl
    · next area back hdrop =>
      have hmem : area ∈ areaList := (dropWhile_suffix _).subset (hdrop ▸ mem_cons_self)
      have hlt : path < area.finish := by
        have hhead := head?_dropWhile_not (fun a : VMArea => decide (a.finish ≤ path)) areaList
        rw [hdrop] at hhead
        simpa using hhead
      have hle := h.finish_le area hmem
      rw [if_pos]
      · rfl
      · by_contra hnot
        push Not at hnot
        have hdword := hout area hmem hnot.1
        have hsame : dword (area.start + area.length) = area.finish :=
          dword_of_lt (lt_of_le_of_ne hle hnot.2)
        omega

theorem nameRoom_le (path : ℕ) : nameRoom areaList path ≤ pathMax := by
  unfold nameRoom
  split
  · exact Nat.zero_le _
  · split_ifs
    · exact Nat.zero_le _
    · exact le_rfl
    · exact Nat.zero_le _
    · exact min_le_right _ _

/-- A path is copied within bounds if and only if its first byte is mapped, and nothing is
copied or the path ends in the room. -/
theorem getName_bounded_iff (h : Areas areaList) {allocated : Bool} :
    Bounded areaList mem path (getName areaList mem path allocated) ↔
      Mapped areaList path ∧ (mem path = 0 ∨ nameRoom areaList path = 0 ∨ allocated = false ∨
        EndsInRoom areaList mem path) := by
  have hlen : fileNameMaxLength areaList path ≤ 0 ↔ nameRoom areaList path = 0 := by
    rw [← fileNameMaxLength_toNat h, Int.toNat_eq_zero]
  have hfirst : Mapped areaList path ↔
      path ≤ path ∧ ∀ y, path ≤ y → y ≤ path → Mapped areaList y := by
    refine ⟨fun hpath => ⟨le_rfl, fun y hlow hhigh => ?_⟩, fun hall => hall.2 path le_rfl le_rfl⟩
    rw [le_antisymm hhigh hlow]
    exact hpath
  rw [getName]
  rw [fileNameMaxLength_toNat h]
  simp only [hlen]
  split_ifs with hnull
  · have hcond : mem path = 0 ∨ nameRoom areaList path = 0 ∨ allocated = false ∨
        EndsInRoom areaList mem path := by
      rcases hnull with hempty | hroom | hfailed
      · exact .inl hempty
      · exact .inr (.inl hroom)
      · exact .inr (.inr (.inl hfailed))
    rw [and_iff_left hcond, hfirst]
    exact ⟨fun hbounded => hbounded.reads path (mem_singleton_self _), fun hall =>
      ⟨forall_mem_singleton.mpr hall, nofun, nofun⟩⟩
  push Not at hnull
  rw [or_iff_right hnull.1, or_iff_right hnull.2.1, or_iff_right hnull.2.2, copyLoop_eq]
  have hmax := @nameRoom_le areaList path
  constructor
  · intro hbounded
    have hwrites := hbounded.writes _ rfl
    rw [length_append, length_singleton] at hwrites
    have hend := (stringAt_of_lt hwrites).1
    rw [min_eq_left hwrites] at hbounded
    refine ⟨hfirst.mpr (hbounded.reads path mem_cons_self), _, hwrites, hend, ?_⟩
    refine (hbounded.reads _ (mem_cons_of_mem _ ?_)).2
    exact mem_range'.mpr ⟨_, Nat.lt_succ_self _, by omega⟩
  · rintro ⟨hpath, k, hk, hzero, hmapped⟩
    have hshort := @length_stringAt_le_of_zero mem path (nameRoom areaList path) k hzero
    have hlt := hshort.trans_lt hk
    refine ⟨forall_mem_cons.mpr ⟨hfirst.mp hpath, fun x hx => ?_⟩, ?_, ?_⟩
    · obtain ⟨i, hi, rfl⟩ := mem_range'.mp hx
      exact ⟨by omega, fun y hlow hhigh => hmapped y hlow (by omega)⟩
    · rintro b ⟨⟩
      rw [length_append, length_singleton]
      exact hlt
    · rintro b ⟨⟩
      rw [(stringAt_of_lt hlt).2 (pathMax - 1) (by unfold pathMax at *; omega)]

/-- An area of one page, and one of 16 bytes that follows it. -/
def twoAreas : List VMArea :=
  [⟨0x900000, 0x1000, 0, 0, 7, 0, 0⟩, ⟨0x901000, 0x10, 0, 0, 7, 0, 0⟩]

/-- Characters up to the address `last`. -/
def lettersTo (last x : ℕ) : UInt8 := if x < last then 65 else 0

/-- A path that ends in the short neighbour. -/
theorem getName_bounded_neighbour :
    Bounded twoAreas (lettersTo 0x901008) 0x900FF0
      (getName twoAreas (lettersTo 0x901008) 0x900FF0 true) := by
  have hareas : Areas twoAreas := by
    constructor <;> simp [twoAreas, VMArea.finish]
  have hmapped : ∀ x, 0x900FF0 ≤ x → x ≤ 0x901008 → Mapped twoAreas x := by
    intro x hlow hhigh
    by_cases hfirst : x < 0x901000
    · exact ⟨_, mem_cons_self, by dsimp only; omega, hfirst⟩
    · exact ⟨_, mem_cons_of_mem _ mem_cons_self, Nat.le_of_not_lt hfirst,
        hhigh.trans_lt (by decide)⟩
  exact (getName_bounded_iff hareas).mpr ⟨hmapped _ le_rfl (by decide), .inr (.inr (.inr
    ⟨24, by decide, by decide, fun x hlow hhigh => hmapped x hlow hhigh⟩))⟩

/-- The end of a path that is not ended in its area is written behind the block. -/
theorem getName_overrun :
    ((getName [⟨0x900000, 0x1000, 0, 0, 7, 0, 0⟩] (lettersTo 0x901000) 0x900FF0 true).2.map
      fun b => (b.1, b.2.length)) = some (16, 17) := by
  decide +kernel

end Whitix.Vfs
