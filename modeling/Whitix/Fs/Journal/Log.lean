import Whitix.Support.BigEndian
import Whitix.Support.Word

/-!
# The format of the journal's log

The log is a sequence of blocks.  A transaction is logged as descriptor
blocks, each followed by the blocks it describes, and a commit block.  A
descriptor block holds a header and a tag for every block that follows; the
first tag is followed by the identifier of the filesystem, and the last one is
marked.  All numbers are big-endian (`include/fs/journal.h`).

The functions that read the log are those of `fs/journal/recovery.c`.  The
passes over the log differ in how they read a block and in what they do with a
descriptor block; the loop is the same for all of them.
-/

namespace Whitix.Jfs

open Support Option Prod

/-! ## Headers -/

abbrev Block := ℕ → UInt8

def jfsMagic : ℕ := 0xC03B3998
def jfsDescBlock : ℕ := 1
def jfsCommitBlock : ℕ := 2

structure JournalHeader where
  magic : ℕ
  blockType : ℕ
  sequence : ℕ
  deriving DecidableEq, Repr

def sizeofHeader : ℕ := 12

section

variable (data : Block) (size : ℕ)

def headerAt (k : ℕ) : JournalHeader where
  magic := beDwordAt data k
  blockType := beDwordAt data (k + 4)
  sequence := beDwordAt data (k + 8)

def setHeaderAt (k : ℕ) (header : JournalHeader) : Block :=
  setBeDwordAt (setBeDwordAt (setBeDwordAt data k header.magic) (k + 4) header.blockType)
    (k + 8) header.sequence

def memcpy (dst src : Block) (size : ℕ) : Block :=
  fun j => if j < size then src j else dst j

/-- A log block as it is written to its home location. -/
def homeCopy (log : ℕ → Block) (n : ℕ) : Block :=
  memcpy (fun _ => 0) (log n) size

/-! ## Tags -/

def journFlagSameUuid : ℕ := 2
def journFlagLastTag : ℕ := 8
def sizeofTag : ℕ := 8

def tagFlags (p : ℕ) : ℕ := beDwordAt data (p + 4)

def nextTag (p : ℕ) : ℕ :=
  if tagFlags data p &&& journFlagSameUuid = 0 then p + sizeofTag + 16
  else p + sizeofTag

/-- The loop over the tags of a descriptor block of `size` bytes, of
`JournalCountTags` and `JournalReplayBlocks`; `body` gets the block number of
each tag. -/
def forEachTag {σ : Type*} (data : Block) (size : ℕ) (body : σ → ℕ → σ) : ℕ → ℕ → σ → σ
  | 0, _, s => s
  | fuel + 1, p, s =>
    if p + sizeofTag ≤ size then
      let s := body s (beDwordAt data p)
      if tagFlags data p &&& journFlagLastTag ≠ 0 then s
      else forEachTag data size body fuel (nextTag data p) s
    else s

/-- Every tag takes more than one byte, so `size` iterations are enough. -/
def journalCountTags : ℕ :=
  forEachTag data size (fun num _ => num + 1) size sizeofHeader 0

def tagsFrom (data : Block) (size : ℕ) : ℕ → ℕ → List ℕ
  | 0, _ => []
  | fuel + 1, p =>
    if p + sizeofTag ≤ size then
      if tagFlags data p &&& journFlagLastTag ≠ 0 then [beDwordAt data p]
      else beDwordAt data p :: tagsFrom data size fuel (nextTag data p)
    else []

def tags : List ℕ :=
  tagsFrom data size size sizeofHeader

end

/-! ## Passes over the log -/

def journalWrap (maxLength head pos : ℕ) : ℕ :=
  if maxLength ≤ pos then dwordSub pos (dwordSub maxLength head) else pos

/-- The locals of `JournalDoOnePass` that change, and what the pass acts
on. -/
structure Pass (σ : Type*) where
  nextLogBlock : ℕ
  nextCommitId : ℕ
  env : σ

/-- How a pass reads a block of the log, and what it does with a descriptor
block before it goes on at the log block it returns.  A read that fails is
not noticed and ends the system. -/
structure Access (σ : Type*) where
  read : σ → ℕ → Option (Block × σ)
  descriptor : σ → Block → ℕ → Option (σ × ℕ)

/-- What `JournalDoOnePass` does with the block it has read, and whether the
loop goes on.  A block of unknown type is skipped. -/
def passBlock {σ : Type*} (access : Access σ) (data : Block) (p : Pass σ) :
    Option (Bool × Pass σ) :=
  if (headerAt data 0).magic ≠ jfsMagic then some (false, p)
  else if (headerAt data 0).sequence ≠ p.nextCommitId then some (false, p)
  else if (headerAt data 0).blockType = jfsDescBlock then
    (access.descriptor p.env data p.nextLogBlock).map fun r =>
      (true, { p with nextLogBlock := r.2, env := r.1 })
  else if (headerAt data 0).blockType = jfsCommitBlock then
    some (true, { p with nextCommitId := dword (p.nextCommitId + 1) })
  else some (true, p)

def passIteration {σ : Type*} (wrap : ℕ → ℕ) (access : Access σ)
    (p : Pass σ) : Option (Bool × Pass σ) :=
  (access.read p.env p.nextLogBlock).bind fun r =>
    passBlock access r.1 { p with nextLogBlock := wrap (dword (p.nextLogBlock + 1)), env := r.2 }

def passLoop {σ : Type*} (wrap : ℕ → ℕ) (access : Access σ) : ℕ → Pass σ → Option (Pass σ)
  | 0, _ => none
  | fuel + 1, p =>
    match passIteration wrap access p with
    | none => none
    | some (false, p) => some p
    | some (true, p) => passLoop wrap access fuel p

/-! ## Reading what was written -/

section Headers

variable {data : Block} {k : ℕ} {header : JournalHeader}

def JournalHeader.Fits (header : JournalHeader) : Prop :=
  header.magic < 2 ^ 32 ∧ header.blockType < 2 ^ 32 ∧ header.sequence < 2 ^ 32

theorem headerAt_setHeaderAt (hfits : header.Fits) :
    headerAt (setHeaderAt data k header) k = header := by
  have hmagic : beDwordAt (setHeaderAt data k header) k = header.magic := by
    rw [setHeaderAt, beDwordAt_setBeDwordAt_of_apart (by omega),
      beDwordAt_setBeDwordAt_of_apart (by omega), beDwordAt_setBeDwordAt hfits.1]
  have htype : beDwordAt (setHeaderAt data k header) (k + 4) = header.blockType := by
    rw [setHeaderAt, beDwordAt_setBeDwordAt_of_apart (by omega), beDwordAt_setBeDwordAt hfits.2.1]
  have hsequence : beDwordAt (setHeaderAt data k header) (k + 8) =
      header.sequence := beDwordAt_setBeDwordAt hfits.2.2
  rw [headerAt, hmagic, htype, hsequence]

theorem headerAt_congr {data' : Block} (h : ∀ i < sizeofHeader, data' (k + i) = data (k + i)) :
    headerAt data' k = headerAt data k := by
  have hword : ∀ off, off + 4 ≤ sizeofHeader →
      beDwordAt data' (k + off) = beDwordAt data (k + off) := by
    intro off hoff
    apply beDwordAt_congr
    intro i hi
    rw [add_assoc]
    exact h (off + i) (by omega)
  have hzero : beDwordAt data' k = beDwordAt data k := hword 0 (by decide)
  rw [headerAt, headerAt, hzero, hword 4 (by decide), hword 8 (by decide)]

end Headers

section Tags

variable {σ : Type*} {data : Block} {size : ℕ}

theorem forEachTag_eq_foldl (body : σ → ℕ → σ) (fuel p : ℕ) (s : σ) :
    forEachTag data size body fuel p s = (tagsFrom data size fuel p).foldl body s := by
  induction fuel generalizing p s with
  | zero => rfl
  | succ fuel ih =>
    rw [forEachTag, tagsFrom]
    split
    · split
      · rfl
      · exact ih (nextTag data p) (body s (beDwordAt data p))
    · rfl

theorem journalCountTags_eq : journalCountTags data size = (tags data size).length := by
  have hcount : ∀ (bs : List ℕ) (n : ℕ), bs.foldl (fun num _ => num + 1) n = n + bs.length := by
    intro bs
    induction bs with
    | nil => exact fun n => rfl
    | cons b bs ih =>
      intro n
      rw [List.foldl_cons, ih, List.length_cons]
      omega
  rw [journalCountTags, forEachTag_eq_foldl, hcount, zero_add, tags]

theorem tagsFrom_succ {fuel p : ℕ} (hroom : p + sizeofTag ≤ size) :
    tagsFrom data size (fuel + 1) p = beDwordAt data p ::
      if tagFlags data p &&& journFlagLastTag ≠ 0 then []
      else tagsFrom data size fuel (nextTag data p) := by
  rw [tagsFrom, if_pos hroom]
  split <;> rfl

end Tags

section Passes

theorem dword_succ_ne (n : ℕ) : dword (n + 1) ≠ n := by
  rw [dword]
  omega

theorem journalWrap_succ {maxLength first n : ℕ} (hmax : maxLength < 2 ^ 32)
    (hn : n + 1 < maxLength) : journalWrap maxLength first (dword (n + 1)) = n + 1 := by
  rw [dword_of_lt (by omega), journalWrap, if_neg (by omega)]

variable {σ : Type*} {access : Access σ} {data : Block} {p p' : Pass σ}

theorem passBlock_stop
    (h : (headerAt data 0).magic ≠ jfsMagic ∨ (headerAt data 0).sequence ≠ p.nextCommitId) :
    passBlock access data p = some (false, p) := by
  rw [passBlock]
  rcases h with h | h
  · rw [if_pos h]
  · rw [if_pos h, ite_self]

theorem passBlock_descriptor (h : headerAt data 0 = ⟨jfsMagic, jfsDescBlock, p.nextCommitId⟩) :
    passBlock access data p = (access.descriptor p.env data p.nextLogBlock).map fun r =>
        (true, { p with nextLogBlock := r.2, env := r.1 }) := by
  rw [passBlock, h, if_neg (not_not.mpr rfl), if_neg (not_not.mpr rfl), if_pos rfl]

theorem passBlock_commit (h : headerAt data 0 = ⟨jfsMagic, jfsCommitBlock, p.nextCommitId⟩) :
    passBlock access data p =
      some (true, { p with nextCommitId := dword (p.nextCommitId + 1) }) := by
  rw [passBlock, h, if_neg (not_not.mpr rfl), if_neg (not_not.mpr rfl),
    if_neg (show jfsCommitBlock ≠ jfsDescBlock by decide), if_pos rfl]

/-- What a pass that goes on has found: a descriptor block, a commit block or
a block of unknown type. -/
theorem passBlock_true (h : passBlock access data p = some (true, p')) :
    ((headerAt data 0).blockType = jfsDescBlock ∧
        ∃ r, access.descriptor p.env data p.nextLogBlock = some r ∧
          p' = { p with nextLogBlock := r.2, env := r.1 }) ∨
      ((headerAt data 0).blockType = jfsCommitBlock ∧
        p' = { p with nextCommitId := dword (p.nextCommitId + 1) }) ∨
      ((headerAt data 0).blockType ≠ jfsCommitBlock ∧ p' = p) := by
  unfold passBlock at h
  split_ifs at h with hmagic hsequence htype hcommit
  · cases h
  · cases h
  · obtain ⟨r, hr, hp'⟩ := map_eq_some_iff.mp h
    exact .inl ⟨htype, r, hr, (mk.inj hp').2.symm⟩
  · exact .inr (.inl ⟨hcommit, (mk.inj (some.inj h)).2.symm⟩)
  · exact .inr (.inr ⟨hcommit, (mk.inj (some.inj h)).2.symm⟩)

end Passes

end Whitix.Jfs
