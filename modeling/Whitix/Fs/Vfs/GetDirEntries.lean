import Whitix.Fs.Fat.ReadDir
import Whitix.Fs.Isofs.ReadDir

/-!
# Listing a directory

`SysGetDirEntries` fills the buffer of the caller from the position of the file on.
A listing in several calls is complete if each buffer is full at a record from which
the file system goes on: in a FAT directory a record without a long name, in an
ISO 9660 directory none.  A buffer of 2^31 bytes or more is never filled.
-/

namespace Whitix.Vfs

open Support List Prod

inductive Directory where
  | fat (dir : Fat.FatDir)
  | iso (dir : Isofs.IsoDir)

/-- `readDir` of the file system from a position on, with the room for records: those
that fit and the new position.  The loops end at once if the position is not less than
the size. -/
def readDir : Directory → ℕ → ℕ → Option (List DirRecord × ℕ)
  | .fat dir => dir.reader.call
  | .iso dir => dir.reader.call

/-- A call with a buffer of `count` bytes: the records in the buffer, whose lengths
add up to the return value, and the position of the file. -/
def sysGetDirEntries (dir : Directory) (position count : ℕ) : Option (List DirRecord × ℕ) :=
  readDir dir position (fillDirRoom count)

/-- Calls with buffers of the given sizes on a file, until one returns 0. -/
def listing (dir : Directory) : ℕ → List ℕ → Reader.Outcome DirRecord
  | _, [] => .unfinished
  | position, count :: counts =>
    match sysGetDirEntries dir position count with
    | none => .fault
    | some ([], _) => .finished []
    | some (r :: rs, position) => (listing dir position counts).prepend (r :: rs)

theorem listing_eq_paged {σ : Type} {R : Reader σ DirRecord} {dir : Directory}
    (hread : readDir dir = R.call) (position : ℕ) (counts : List ℕ) :
    listing dir position counts = R.paged position (counts.map fillDirRoom) := by
  induction counts generalizing position with
  | nil => rfl
  | cons count counts ih =>
    rw [listing, sysGetDirEntries, hread, map_cons, Reader.paged]
    cases R.call position (fillDirRoom count) with
    | none => rfl
    | some r =>
      obtain ⟨rs, next⟩ := r
      cases rs with
      | nil => rfl
      | cons r rs => exact congrArg (·.prepend (r :: rs)) (ih next)

/-- A well-formed directory with its records, and whether they are read without
leaving the arrays of the file system. -/
def WellFormed : Directory → List (DirRecord × ℕ) → Bool → Prop
  | .fat dir => Fat.WellFormed dir 0
  | .iso dir => Isofs.WellFormed dir 0

/-- With unlimited room, and in calls with the given buffers, the records of the directory
are returned. -/
def Complete (dir : Directory) (items : List (DirRecord × ℕ)) (counts : List ℕ) : Prop :=
  (∃ room, ∀ count, room ≤ count → (readDir dir 0 count).map fst = some (items.map fst)) ∧
  listing dir 0 counts = .finished (items.map fst)

/-- The file system goes on with the first of the records that are left. -/
def Resumes : Directory → List (DirRecord × ℕ) → Prop
  | .fat dir, rest => ∀ item ∈ rest.head?, Fat.ResumesAt dir item
  | .iso _, _ => False

/-- A listing is complete if and only if the file system stays inside its arrays, each
buffer, its size taken as an `int`, has room for the next record, and it is full at a
record from which the file system goes on. -/
theorem getDirEntries_complete_iff (dir : Directory) (items : List (DirRecord × ℕ))
    (fits : Bool) (hwf : WellFormed dir items fits) (counts : List ℕ)
    (hfinished : listing dir 0 counts ≠ .unfinished) :
    Complete dir items counts ↔
      fits = true ∧ RoomForNext recordLen items (counts.map fillDirRoom) ∧
        ∀ rest ∈ cuts recordLen items (counts.map fillDirRoom), Resumes dir rest := by
  unfold Complete
  cases dir with
  | fat dir =>
    rw [listing_eq_paged (R := dir.reader) rfl] at hfinished ⊢
    change dir.reader.Complete items (counts.map fillDirRoom) ↔ _
    cases fits with
    | false =>
      exact iff_of_false (Fat.WellFormed.faults hwf rfl).not_complete
        (fun h => absurd h.1 Bool.false_ne_true)
    | true =>
      have hholds := Fat.WellFormed.holds hwf (Nat.zero_le _)
      rw [hholds.complete_iff, Reader.paged_finished_iff
        (G := Resumes (.fat dir)) hholds ?_ ?_ hfinished]
      · exact (and_iff_right rfl).symm
      · exact fun item rest hsuffix hG =>
          Fat.WellFormed.resumes hwf hsuffix (hG item rfl)
      · intro item rest hsuffix hG
        refine Fat.WellFormed.not_resumes hwf hsuffix fun hresumes => hG ?_
        rintro _ ⟨⟩
        exact hresumes
  | iso dir =>
    rw [listing_eq_paged (R := dir.reader) rfl] at hfinished ⊢
    change dir.reader.Complete items (counts.map fillDirRoom) ↔ _
    cases fits with
    | false =>
      exact iff_of_false (Isofs.WellFormed.faults hwf rfl (Isofs.ready_start dir 0)).not_complete
        (fun h => absurd h.1 Bool.false_ne_true)
    | true =>
      have hholds := Isofs.WellFormed.holds hwf
      rw [hholds.complete_iff, Reader.paged_finished_iff
        (G := Resumes (.iso dir)) hholds ?_ ?_ hfinished]
      · exact (and_iff_right rfl).symm
      · exact fun _ _ _ hG => hG.elim
      · exact fun item rest hsuffix _ => Isofs.WellFormed.loses hwf hsuffix

/-! ## Directories with two records -/

def entryOf (name : List UInt8) : Fat.DirEntry := fun i => (name ++ [0x20]).getD i 0

def entryA : Fat.DirEntry := entryOf (0x41 :: replicate 10 0x20)

def entryB : Fat.DirEntry := entryOf (0x42 :: replicate 10 0x20)

def shortDir : Fat.FatDir := ⟨[entryA, entryB], 512, fun n => 100 + n⟩

theorem wellFormed_shortDir : Fat.WellFormed shortDir 0
    [(⟨25600, [0x61]⟩, 0), (⟨25601, [0x62]⟩, 1)] true :=
  @Fat.WellFormed.short shortDir 0 entryA _ true rfl ⟨by decide, by decide, by decide⟩
    (@Fat.WellFormed.short shortDir 1 entryB _ true rfl
      ⟨by decide, by decide, by decide⟩ (.done rfl))

/-- Each call returns a record, and the last one none. -/
theorem getDirEntries_complete_short :
    Complete (.fat shortDir) [(⟨25600, [0x61]⟩, 0), (⟨25601, [0x62]⟩, 1)] [16, 16, 16] := by
  refine (getDirEntries_complete_iff (.fat shortDir) _ true wellFormed_shortDir _
    (by decide)).mpr ⟨rfl, ⟨by decide, by decide, trivial⟩, ?_⟩
  have hcuts : cuts recordLen [(⟨25600, [0x61]⟩, 0), (⟨25601, [0x62]⟩, 1)]
      ([16, 16, 16].map fillDirRoom) = [[(⟨25601, [0x62]⟩, 1)]] := by decide
  intro rest hrest item hitem
  rw [hcuts, mem_singleton] at hrest
  subst hrest
  cases hitem
  exact ⟨entryB, rfl, by decide, rfl⟩

def slotB : Fat.DirEntry := fun i =>
  if i = 13 then Fat.fatCheckSum entryB
  else [0x41, 0x62, 0, 0x65, 0, 0x65, 0, 0, 0, 0, 0, 0x0F].getD i 0

def longDir : Fat.FatDir := ⟨[entryA, slotB, entryB], 512, fun n => 100 + n⟩

def emptyDir : Isofs.IsoDir where
  data n :=
    if n = 0 ∨ n = 34 then 34
    else if n = 32 ∨ n = 66 ∨ n = 67 then 1
    else 0
  size := 2048
  sectorSize := 2048
  sectorSize_pos := by decide
  firstSector := 20
  id := 5

/-- The second record of each directory does not fit in the first buffer.  It is then
returned with its short name, or not at all. -/
theorem getDirEntries_not_complete :
    (∃ items, WellFormed (.fat longDir) items true ∧
      (∀ count ∈ [16, 16, 16], ∀ item ∈ items, recordLen item.1 ≤ count) ∧
      listing (.fat longDir) 0 [16, 16, 16] ≠ .unfinished ∧
      ¬ Complete (.fat longDir) items [16, 16, 16]) ∧
    (∃ items, WellFormed (.iso emptyDir) items true ∧
      (∀ count ∈ [16, 16], ∀ item ∈ items, recordLen item.1 ≤ count) ∧
      listing (.iso emptyDir) 0 [16, 16] ≠ .unfinished ∧
      ¬ Complete (.iso emptyDir) items [16, 16]) := by
  constructor
  · have hwf : WellFormed (.fat longDir)
        [(⟨25600, [0x61]⟩, 0), (⟨25602, [0x62, 0x65, 0x65]⟩, 2)] true :=
      @Fat.WellFormed.short longDir 0 entryA _ true rfl ⟨by decide, by decide, by decide⟩
        (@Fat.WellFormed.long longDir 1 0 slotB [] _ true rfl rfl rfl (by decide)
          (.entry rfl ⟨by decide, by decide, by decide⟩ rfl) (.done rfl))
    refine ⟨_, hwf, by decide, by decide, fun h => ?_⟩
    exact absurd h.2 (by decide)
  · have hwf : WellFormed (.iso emptyDir) [(⟨5, [0x2E]⟩, 34), (⟨0, [0x2E, 0x2E]⟩, 68)] true :=
      @Isofs.WellFormed.record emptyDir 0 _ true ⟨by decide, by decide, by decide, by decide⟩ rfl
        (@Isofs.WellFormed.record emptyDir 34 _ true
          ⟨by decide, by decide, by decide, by decide⟩ rfl
          (@Isofs.WellFormed.padding emptyDir 68 _ true (by decide) rfl (.done (by decide))))
    refine ⟨_, hwf, by decide, by decide, fun h => ?_⟩
    exact absurd h.2 (by decide)

end Whitix.Vfs
