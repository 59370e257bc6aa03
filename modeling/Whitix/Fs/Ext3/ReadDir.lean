import Mathlib.Data.List.Nodup
import Whitix.Fs.Ext3.DirectoryMap
import Whitix.Fs.Vfs.FillDir

/-!
# Listing a directory in ext3

`Ext3ReadDir` leaves the position of the file at the record that does not fit in the
buffer, so that the next call begins with it.  Only in a buffer of 2^31 bytes or more, for
`FillDir` a negative number, there is no room.  What is listed agrees with what
`Ext3FindEntry` finds.
-/

namespace Whitix.Ext3

open Support Vfs List Nat

/-- A round of the loops of `Ext3ReadDir`.  The offset in the block and the position
of the file advance together, and the position gives them again in the next block.
The blocks of the directory can be read. -/
def ext3ReadDir (dir : Dir) (position : ℕ) : Round ℕ DirRecord :=
  if dir.size ≤ position then .stop position
  else
    let offset := position % dir.blockSize
    let data := dir.data (position / dir.blockSize)
    let next := position + recLen data offset
    if iNodeNum data offset ≠ 0 then
      .emit ⟨iNodeNum data offset, recName data offset⟩ next position
    else .skip next

def Dir.reader (dir : Dir) : Reader ℕ DirRecord where
  start := id
  round := ext3ReadDir dir
  rounds := dir.size + 1
  space := recordLen

section Listing

variable (dir : Dir)

def Dir.itemsAt (b : ℕ) (os : List ℕ) : List (DirRecord × ℕ) :=
  (os.filter fun o => iNodeNum (dir.data b) o ≠ 0).map fun o =>
    (⟨iNodeNum (dir.data b) o, recName (dir.data b) o⟩, b * dir.blockSize + o)

def Dir.itemsFrom : ℕ → ℕ → List (DirRecord × ℕ)
  | _, 0 => []
  | b, n + 1 => dir.itemsAt b (dir.records b) ++ itemsFrom (b + 1) n

def Dir.items : List (DirRecord × ℕ) := dir.itemsFrom 0 dir.count

/-- Calls of `SysGetDirEntries` with buffers of the given sizes on a file, until one
returns 0. -/
def Dir.listing (counts : List ℕ) : Reader.Outcome DirRecord :=
  dir.reader.paged 0 (counts.map fillDirRoom)

variable {dir} {b n last : ℕ} {items : List (DirRecord × ℕ)}

theorem ext3ReadDir_stop (h : dir.size ≤ last) : dir.reader.Lists 1 last [] last :=
  .stop (if_pos h)

theorem ext3ReadDir_record {o : ℕ} (ho : o < dir.blockSize)
    (hb : (b + 1) * dir.blockSize ≤ dir.size) :
    dir.reader.round (b * dir.blockSize + o) = if iNodeNum (dir.data b) o ≠ 0 then
        .emit ⟨iNodeNum (dir.data b) o, recName (dir.data b) o⟩
          (b * dir.blockSize + (o + recLen (dir.data b) o)) (b * dir.blockSize + o)
      else .skip (b * dir.blockSize + (o + recLen (dir.data b) o)) := by
  have hinside : b * dir.blockSize + o < dir.size := by
    rw [add_one_mul] at hb
    omega
  change ext3ReadDir dir _ = _
  rw [ext3ReadDir, if_neg hinside.not_ge, mul_comm b, mul_add_mod,
    mod_eq_of_lt ho, mul_add_div (zero_lt_of_lt ho), div_eq_of_lt ho, add_zero]
  dsimp only
  rw [add_assoc]

theorem lists_block {o : ℕ} {os : List ℕ} (hb : (b + 1) * dir.blockSize ≤ dir.size)
    (h : Tiles (recLen (dir.data b)) o os dir.blockSize)
    (hrest : dir.reader.Lists n ((b + 1) * dir.blockSize) items last) :
    ∃ n' ≤ n + (dir.blockSize - o),
      dir.reader.Lists n' (b * dir.blockSize + o) (dir.itemsAt b os ++ items) last := by
  generalize hend : dir.blockSize = e at h
  induction h with
  | nil =>
    subst hend
    rw [← add_one_mul]
    exact ⟨n, le_add_right _ _, hrest⟩
  | @cons o _ os hpos htail ih =>
    subst hend
    obtain ⟨n', hn, hlists⟩ := ih rfl
    have hle := htail.le
    have hround := ext3ReadDir_record (lt_of_lt_of_le (Nat.lt_add_of_pos_right hpos) hle) hb
    refine ⟨n' + 1, by omega, ?_⟩
    by_cases hused : iNodeNum (dir.data b) o ≠ 0
    · rw [if_pos hused] at hround
      rw [Dir.itemsAt, filter_cons_of_pos (by simpa using hused)]
      exact .emit hround hlists
    · rw [if_neg hused] at hround
      rw [Dir.itemsAt, filter_cons_of_neg (by simpa using hused)]
      exact .skip hround hlists

theorem lists_from (h : Tiled dir) : ∀ {b : ℕ}, b + n = dir.count → ∃ n' ≤ n * dir.blockSize + 1,
    dir.reader.Lists n' (b * dir.blockSize) (dir.itemsFrom b n) dir.size := by
  have hsize : dir.count * dir.blockSize = dir.size := Nat.div_mul_cancel h.blockSize_dvd
  induction n with
  | zero =>
    rintro _ rfl
    rw [hsize]
    exact ⟨1, le_add_left 1 _, ext3ReadDir_stop le_rfl⟩
  | succ n ih =>
    intro b hb
    obtain ⟨n', hn, hlists⟩ := ih (b := b + 1) (by omega)
    have hinside : (b + 1) * dir.blockSize ≤ dir.size := by
      rw [← hsize]
      exact mul_le_mul_right _ (by omega)
    obtain ⟨n'', hn', hblock⟩ := lists_block hinside (h.tiles b (by omega)) hlists
    rw [add_one_mul, Dir.itemsFrom]
    exact ⟨n'', by omega, hblock⟩

theorem Tiled.holds (h : Tiled dir) : dir.reader.Holds 0 dir.items := by
  obtain ⟨n, hn, hlists⟩ := lists_from h (zero_add dir.count)
  rw [Dir.count, Nat.div_mul_cancel h.blockSize_dvd] at hn
  rw [zero_mul] at hlists
  exact ⟨n, dir.size, hn, hlists, 1, dir.size, le_add_left 1 _, ext3ReadDir_stop le_rfl⟩

theorem ext3ReadDir_resume {s next : ℕ} {r : DirRecord} {p : ℕ}
    (h : dir.reader.round s = .emit r next p) : dir.reader.start p = s := by
  change ext3ReadDir dir s = _ at h
  rw [ext3ReadDir] at h
  dsimp only at h
  split_ifs at h
  cases h
  rfl

end Listing

/-- The calls list every record in use once, in the order of the directory, with its
name and inode number, if and only if each buffer, its size taken as an `int`, has room for
the next record. -/
theorem ext3_listing_complete (dir : Dir) (htiled : Tiled dir) (counts : List ℕ)
    (hfinished : dir.listing counts ≠ .unfinished) :
    dir.listing counts = .finished (dir.items.map Prod.fst) ↔
      RoomForNext recordLen dir.items (counts.map fillDirRoom) :=
  Reader.Holds.paged_eq_iff ext3ReadDir_resume htiled.holds hfinished

theorem ext3_listing_complete_twoBlocks :
    Tiled twoBlocks ∧
      twoBlocks.listing [16, 35, 16, 0] = .finished [⟨2, [46]⟩, ⟨2, [46, 46]⟩, ⟨11, [97]⟩] :=
  ⟨twoBlocks_tiled, ((ext3_listing_complete twoBlocks twoBlocks_tiled [16, 35, 16, 0]
    (by decide)).mpr ⟨by decide, by decide, trivial⟩).trans (by decide)⟩

/-- In a buffer of 2^31 bytes there is room for all records, but none is listed. -/
theorem ext3_listing_large_buffer :
    Tiled twoBlocks ∧ RoomForNext recordLen twoBlocks.items [2 ^ 31, 16] ∧
      twoBlocks.listing [2 ^ 31, 16] = .finished [] ∧ twoBlocks.items ≠ [] :=
  ⟨twoBlocks_tiled, ⟨by decide, trivial⟩, by decide, by decide⟩

/-! ## The listing and the lookup -/

section Agreement

variable {dir : Dir} {b n p : ℕ} {r : DirRecord}

theorem itemsFrom_eq_flatMap (dir : Dir) (b n : ℕ) :
    dir.itemsFrom b n = (range' b n).flatMap fun b => dir.itemsAt b (dir.records b) := by
  induction n generalizing b with
  | zero => rfl
  | succ n ih => rw [Dir.itemsFrom, range'_succ, flatMap_cons, ih]

theorem mem_itemsAt {os : List ℕ} : (r, p) ∈ dir.itemsAt b os ↔ ∃ o ∈ os, r.vNodeNum ≠ 0 ∧
    iNodeNum (dir.data b) o = r.vNodeNum ∧ recName (dir.data b) o = r.name ∧
      b * dir.blockSize + o = p := by
  obtain ⟨ino, name⟩ := r
  simp only [Dir.itemsAt, mem_map, mem_filter, decide_eq_true_eq, Prod.mk.injEq,
    DirRecord.mk.injEq, and_assoc]
  refine exists_congr fun o => and_congr_right fun _ => ?_
  constructor <;>
  · rintro ⟨hused, rfl, hrest⟩
    exact ⟨hused, rfl, hrest⟩

theorem mem_items : (r, p) ∈ dir.items ↔ ∃ b o, r.vNodeNum ≠ 0 ∧
    dir.entry b o = some (r.vNodeNum, r.name) ∧ b * dir.blockSize + o = p := by
  rw [Dir.items, itemsFrom_eq_flatMap, mem_flatMap]
  simp only [mem_range'_1, zero_add, Nat.zero_le, true_and, mem_itemsAt, entry_eq_some]
  constructor
  · rintro ⟨b, hb, o, ho, hused, hino, hname, hp⟩
    exact ⟨b, o, hused, ⟨hb, ho, hino, hname⟩, hp⟩
  · rintro ⟨b, o, hused, ⟨hb, ho, hino, hname⟩, hp⟩
    exact ⟨b, hb, o, ho, hused, hino, hname, hp⟩

theorem Tiled.nodup_items (h : Tiled dir) : dir.items.Nodup := by
  rw [Dir.items, itemsFrom_eq_flatMap, nodup_flatMap]
  constructor
  · intro b hb
    refine ((h.tiles b (by simpa using hb)).nodup.filter _).map fun o o' heq => ?_
    exact Nat.add_left_cancel (congrArg Prod.snd heq)
  · refine (nodup_range' _).imp_of_mem fun {b b'} hb hb' hne => ?_
    rintro ⟨r, p⟩ hmem hmem'
    obtain ⟨o, ho, -, -, -, rfl⟩ := mem_itemsAt.mp hmem
    obtain ⟨o', ho', -, -, -, hp⟩ := mem_itemsAt.mp hmem'
    have hlt := record_lt h (by simpa using hb) ho
    have hlt' := record_lt h (by simpa using hb') ho'
    refine hne ?_
    calc
      b = (b * dir.blockSize + o) / dir.blockSize := (place_div hlt).symm
      _ = (b' * dir.blockSize + o') / dir.blockSize := by rw [hp]
      _ = b' := place_div hlt'

theorem Mapped.of_reach {s : Dir} (h : Mapped dir) (hreach : Reach dirStep KeepsNames dir s) :
    Mapped s := by
  induction hreach with
  | refl => exact h
  | tail op _ hguard hs ih => exact (dirStep_mapped ih.tiled ih.uniqueNames hguard hs).1

/-- Of the records of the listing, those with the name are the one that is found. -/
theorem Mapped.filter_items (h : Mapped dir) (name : Name) :
    (∃ i ino, lookup dir name = some (.ok (i, ino)) ∧
      (dir.items.map Prod.fst).filter (·.name = name.bytes) = [⟨ino, name.bytes⟩]) ∨
    lookup dir name = some (.error (-ENOENT)) ∧
      (dir.items.map Prod.fst).filter (·.name = name.bytes) = [] := by
  rw [filter_map]
  by_cases hany : ∃ b o ino, dir.entry b o = some (ino, name.bytes)
  · obtain ⟨b, o, ino, hentry⟩ := hany
    refine .inl ⟨_, ino, h.lookup_found hentry, ?_⟩
    have hone : dir.items.filter ((fun r : DirRecord => decide (r.name = name.bytes)) ∘ Prod.fst) =
        [(⟨ino, name.bytes⟩, b * dir.blockSize + o)] := by
      refine perm_singleton.mp ((perm_ext_iff_of_nodup (h.tiled.nodup_items.filter _)
        (nodup_singleton _)).mpr fun ⟨r, p⟩ => ?_)
      simp only [mem_filter, mem_items, Function.comp_apply, decide_eq_true_eq, mem_singleton]
      constructor
      · rintro ⟨⟨b', o', hused, hentry', rfl⟩, hname⟩
        obtain ⟨ino', rname⟩ := r
        obtain rfl : rname = name.bytes := hname
        obtain ⟨rfl, rfl⟩ := h.unique name b o b' o' _ _ hentry hentry'
        rw [hentry] at hentry'
        cases hentry'
        rfl
      · rintro heq
        cases heq
        exact ⟨⟨b, o, ino_ne_zero h.named hentry, hentry, rfl⟩, rfl⟩
    rw [hone]
    rfl
  · have hnone : ∀ b o ino, dir.entry b o ≠ some (ino, name.bytes) :=
      fun b o ino hentry => hany ⟨b, o, ino, hentry⟩
    refine .inr ⟨h.lookup_missing hnone, map_eq_nil_iff.mpr (filter_eq_nil_iff.mpr ?_)⟩
    rintro ⟨r, p⟩ hr hname
    obtain ⟨b, o, -, hentry, -⟩ := mem_items.mp hr
    rw [Function.comp_apply, decide_eq_true_eq] at hname
    exact hnone b o _ (hname ▸ hentry)

end Agreement

/-- In every run that keeps the directory a map, the calls list a name once, with the
inode number that `Ext3FindEntry` finds, or not at all if it is not found. -/
theorem listing_agrees_with_lookup {dir s : Dir} (htiled : Tiled dir) (hunique : UniqueNames dir)
    (hstale : NoStaleNames dir) (hreach : Reach dirStep KeepsNames dir s) (counts : List ℕ)
    (hroom : RoomForNext recordLen s.items (counts.map fillDirRoom))
    (hfinished : s.listing counts ≠ .unfinished) :
    ∃ records, s.listing counts = .finished records ∧ ∀ name : Name,
      (∃ i ino, lookup s name = some (.ok (i, ino)) ∧
        records.filter (·.name = name.bytes) = [⟨ino, name.bytes⟩]) ∨
      lookup s name = some (.error (-ENOENT)) ∧ records.filter (·.name = name.bytes) = [] := by
  have hmapped := (Mapped.of_uniqueNames htiled hunique hstale).of_reach hreach
  exact ⟨_, (Reader.Holds.paged_eq_iff ext3ReadDir_resume hmapped.tiled.holds
    hfinished).mpr hroom, hmapped.filter_items⟩

theorem listing_agrees_with_lookup_twoBlocks :
    ∃ s records, Reach dirStep KeepsNames twoBlocks s ∧ s.listing [64, 0] = .finished records ∧
      ((∃ i ino, lookup s nameB = some (.ok (i, ino)) ∧
        records.filter (·.name = nameB.bytes) = [⟨ino, nameB.bytes⟩]) ∨
      lookup s nameB = some (.error (-ENOENT)) ∧ records.filter (·.name = nameB.bytes) = []) := by
  obtain ⟨s, hreach, hitems, hfinished⟩ := exists_reach dirStep KeepsNames twoBlocks
    [.add nameB newFile] (fun s => s.items = [(⟨2, [46]⟩, 0), (⟨2, [46, 46]⟩, 12),
      (⟨12, [98]⟩, 24), (⟨11, [97]⟩, 1024)] ∧ s.listing [64, 0] ≠ .unfinished) (by decide +kernel)
  have hroom : RoomForNext recordLen s.items ([64, 0].map fillDirRoom) := by
    rw [hitems]
    exact ⟨by decide, trivial⟩
  obtain ⟨records, hlisting, hnames⟩ := listing_agrees_with_lookup twoBlocks_tiled
    twoBlocks_uniqueNames (by decide) hreach [64, 0] hroom hfinished
  exact ⟨s, records, hreach, hlisting, hnames nameB⟩

end Whitix.Ext3
