import Whitix.Fs.Vfs.File

/-!
# Writes that fail

`FileGenericWrite` returns as soon as it gets no block or no buffer.  The blocks before
have been written then, and the size and the position are those after them, but the vnode
is marked dirty only at the end of the loop.
-/

namespace Whitix.GenericFile

open Support List

/-! ## The source -/

/-- A file system on a device that may fail, with its data in `σ`. -/
structure Volume (σ : Type*) where
  blockSize : ℕ
  blockSize_pos : 0 < blockSize
  /-- `blockMap` with `VFS_MAP_CREATE`, and `none` for a negative result. -/
  blockMap : σ → ℕ → Option ℕ × σ
  blockRead : σ → ℕ → Option (ℕ → UInt8) × σ
  blockWrite : σ → ℕ → (ℕ → UInt8) → σ

structure OpenFile (σ : Type*) where
  fs : σ
  position : ℕ
  size : ℕ
  /-- `VNODE_DIRTY` -/
  dirty : Bool
  /-- The size that is on the disk. -/
  diskSize : ℕ

variable {σ : Type*}

/-- The loop of `FileGenericWrite`, with the rest of the buffer and the bytes that have been
stored. -/
def Volume.writeLoop (v : Volume σ) (buffer stored : List UInt8) (copyOffset : ℕ)
    (file : OpenFile σ) : ℤ × List UInt8 × OpenFile σ :=
  if 0 < buffer.length then
    match v.blockMap file.fs (file.position / v.blockSize) with
    | (none, fs) => (- EIO, stored, { file with fs := fs })
    | (some block, fs) =>
      let writeOffset := file.position % v.blockSize
      let writeSize := min (v.blockSize - writeOffset) buffer.length
      match v.blockRead fs block with
      | (none, fs) => (- EIO, stored, { file with fs := fs })
      | (some data, fs) =>
        let bytes := buffer.take writeSize
        let position := dword (file.position + writeSize)
        v.writeLoop (buffer.drop writeSize) (stored ++ bytes) (dword (copyOffset + writeSize))
          { file with
            fs := v.blockWrite fs block (overwrite data writeOffset bytes)
            position := position
            size := if file.size < position then position else file.size }
  else (int32 copyOffset, stored, { file with dirty := true })
termination_by buffer.length
decreasing_by
  have hoffset := Nat.mod_lt file.position v.blockSize_pos
  rw [length_drop]
  omega

def OpenFile.vNodeSyncAll (file : OpenFile σ) : OpenFile σ :=
  if file.dirty then { file with diskSize := file.size, dirty := false } else file

/-! ## What a write leaves behind -/

/-- The positions of the file behind each block of a write that is in front of the first one
for which `blockMap` or `BlockRead` fails, and whether there is one. -/
def Volume.firstFailure (v : Volume σ) (fs : σ) (position : ℕ) (buffer : List UInt8) :
    List ℕ × Bool :=
  if 0 < buffer.length then
    match v.blockMap fs (position / v.blockSize) with
    | (none, _) => ([], true)
    | (some block, fs) =>
      match v.blockRead fs block with
      | (none, _) => ([], true)
      | (some data, fs) =>
        let writeOffset := position % v.blockSize
        let writeSize := min (v.blockSize - writeOffset) buffer.length
        let next := dword (position + writeSize)
        let rest := v.firstFailure (v.blockWrite fs block
          (overwrite data writeOffset (buffer.take writeSize))) next (buffer.drop writeSize)
        (next :: rest.1, rest.2)
  else ([], false)
termination_by buffer.length
decreasing_by
  have hoffset := Nat.mod_lt position v.blockSize_pos
  rw [length_drop]
  omega

/-- The result of a call agrees with the bytes that have been stored, and the size gets to
the disk. -/
structure Consistent (file : OpenFile σ) (ret : ℤ) (stored : List UInt8) (after : OpenFile σ) :
    Prop where
  kept : ret < 0 → after.size = file.size ∨ after.dirty = true
  synced : ret < 0 → after.vNodeSyncAll.diskSize = after.size
  position : ret < 0 → after.position = dword (file.position + stored.length)
  count : 0 ≤ ret → ret = stored.length

variable {v : Volume σ} {buffer stored stored' : List UInt8} {file after : OpenFile σ} {ret : ℤ}

theorem Volume.writeLoop_spec {copyOffset : ℕ} (hposition : file.position < 2 ^ 32)
    (hoffset : copyOffset < 2 ^ 32)
    (h : v.writeLoop buffer stored copyOffset file = (ret, stored', after)) :
    ∃ n ≤ buffer.length, stored' = stored ++ buffer.take n ∧
      after.position = dword (file.position + n) ∧ after.diskSize = file.diskSize ∧
      file.size ≤ after.size ∧
      (after.size = file.size ↔
        ∀ position ∈ (v.firstFailure file.fs file.position buffer).1, position ≤ file.size) ∧
      ((v.firstFailure file.fs file.position buffer).2 = true ↔ n < buffer.length) ∧
      (n = buffer.length ∧ ret = int32 (dword (copyOffset + n)) ∧ after.dirty = true ∨
        n < buffer.length ∧ ret = - EIO ∧ after.dirty = file.dirty) := by
  fun_induction Volume.writeLoop v buffer stored copyOffset file with
  | case1 _ _ _ _ hleft _ hmap =>
    cases h
    rw [Volume.firstFailure, if_pos hleft, hmap]
    refine ⟨0, Nat.zero_le _, (append_nil _).symm, (dword_of_lt hposition).symm, rfl, le_rfl, ?_,
      iff_of_true rfl hleft, .inr ⟨hleft, rfl, rfl⟩⟩
    exact iff_of_true rfl nofun
  | case2 _ _ _ _ hleft _ _ hmap _ hread =>
    cases h
    rw [Volume.firstFailure, if_pos hleft, hmap]
    dsimp only
    rw [hread]
    refine ⟨0, Nat.zero_le _, (append_nil _).symm, (dword_of_lt hposition).symm, rfl, le_rfl, ?_,
      iff_of_true rfl hleft, .inr ⟨hleft, rfl, rfl⟩⟩
    exact iff_of_true rfl nofun
  | case3 buffer _ _ file hleft _ _ hmap _ size _ _ hread _ position ih =>
    have hadd (n a : ℕ) : dword (dword (a + size) + n) = dword (a + (size + n)) := by
      rw [dword, dword, Nat.mod_add_mod, add_assoc, dword]
    obtain ⟨n, hn, hstored, hpos', hdisk, hgrows, hsame, hfails, hend⟩ :=
      ih (dword_lt _) (dword_lt _) h
    rw [length_drop] at hn hend hfails
    rw [Volume.firstFailure, if_pos hleft, hmap]
    dsimp only at hgrows hsame hfails ⊢
    rw [hread]
    refine ⟨size + n, by omega, ?_, ?_, hdisk, ?_, ?_, ?_, ?_⟩
    · rw [hstored, append_assoc, take_add]
    · rw [hpos', ← hadd]
    · split_ifs at hgrows <;> omega
    · -- The size has grown for good once a position has passed it.
      rw [forall_mem_cons]
      split_ifs at hgrows hsame with hpassed
      · exact iff_of_false (by omega) fun hall => absurd hall.1 (Nat.not_le_of_lt hpassed)
      · rw [hsame]
        exact (and_iff_right (Nat.le_of_not_lt hpassed)).symm
    · exact hfails.trans (by omega)
    · rw [hadd] at hend
      rcases hend with ⟨hall, hret, hdirty⟩ | ⟨hpart, hret, hdirty⟩
      · exact .inl ⟨by omega, hret, hdirty⟩
      · exact .inr ⟨by omega, hret, hdirty⟩
  | case4 buffer stored copyOffset file hzero =>
    obtain ⟨rfl, rfl, rfl⟩ := Prod.mk.inj h
    rw [Volume.firstFailure, if_neg hzero]
    refine ⟨0, Nat.zero_le _, (append_nil _).symm, (dword_of_lt hposition).symm, rfl, le_rfl,
      iff_of_true rfl nofun, iff_of_false Bool.false_ne_true hzero, .inl ?_⟩
    exact ⟨by omega, by rw [add_zero, dword_of_lt hoffset], rfl⟩

def oneBlock : Volume Unit where
  blockSize := 512
  blockSize_pos := by decide
  blockMap _ n := (some n, ())
  blockRead _ n := (if n = 0 then some fun _ => 0 else none, ())
  blockWrite _ _ _ := ()

end Whitix.GenericFile
