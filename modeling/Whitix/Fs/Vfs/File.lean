import Whitix.Include.Error
import Whitix.Support.BlockArray
import Whitix.Support.Sectors
import Whitix.Support.Word

/-!
# Reading and writing files

`FileGenericRead` and `FileGenericWrite` split a request at the ends of the
blocks of the device.  The file system maps the blocks of the file to blocks of
the device, and makes new blocks for a write.  The device itself does not fail:
`BlockRead` always returns the block.
-/

namespace Whitix.GenericFile

open Support Option Nat

/-- A file system, as far as `blockMap` shows it.  The type `σ` has its own data
about one file. -/
structure BlockMap (σ : Type*) where
  /-- `BYTES_PER_SECTOR` -/
  blockSize : ℕ
  blockSize_pos : 0 < blockSize
  /-- `blockMap` without flags, with `none` for the result `-1`. -/
  map : σ → ℕ → Option ℕ
  /-- `blockMap` with `VFS_MAP_CREATE`. -/
  create : σ → Disk → ℕ → ℕ × σ × Disk
  map_injective : ∀ s a a' block, map s a = some block → map s a' = some block → a = a'
  map_create : ∀ s disk a, map (create s disk a).2.1 a = some (create s disk a).1
  /-- The blocks of the file stay where they are. -/
  map_stable : ∀ s disk a a' block, map s a' = some block →
    map (create s disk a).2.1 a' = some block ∧ (create s disk a).2.2 block = disk block
  map_lower : ∀ s disk a, ∀ a' ≤ a, (map (create s disk a).2.1 a').isSome = true
  /-- New blocks are filled with zeros. -/
  create_zero : ∀ s disk a a' block, map s a' = none → map (create s disk a).2.1 a' = some block →
      ∀ i < blockSize, (create s disk a).2.2 block i = 0

structure File (σ : Type*) where
  fs : σ
  disk : Disk
  size : ℕ
  position : ℕ

variable {σ : Type*}

/-! ## The source -/

def readLoop (b : BlockMap σ) (size : ℕ) (copied : List UInt8) (file : File σ) :
    ℤ × List UInt8 × File σ :=
  if 0 < size then
    match b.map file.fs (file.position / b.blockSize) with
    | none => (- EIO, copied, file)
    | some block =>
      let readOffset := file.position % b.blockSize
      let readSize := min (b.blockSize - readOffset) size
      readLoop b (size - readSize) (copied ++ extract (file.disk block) readOffset readSize)
        { file with position := dword (file.position + readSize) }
  else (int32 copied.length, copied, file)
termination_by size
decreasing_by
  have hoffset := mod_lt file.position b.blockSize_pos
  omega

variable (b : BlockMap σ) (file : File σ) (c : Contents) (buffer : List UInt8)

def fileGenericRead (size : ℕ) : ℤ × List UInt8 × File σ :=
  let left := qwordSub file.size file.position
  let size := if left < size then dword left else size
  if file.size ≤ file.position then (0, [], file)
  else readLoop b size [] file

/-- An iteration of the loop of `FileGenericWrite`, for the bytes that go to one
block. -/
def writeBlock (bytes : List UInt8) : File σ :=
  let made := b.create file.fs file.disk (file.position / b.blockSize)
  let writeOffset := file.position % b.blockSize
  let position := dword (file.position + bytes.length)
  { fs := made.2.1
    disk := Function.update made.2.2 made.1 (overwrite (made.2.2 made.1) writeOffset bytes)
    size := if file.size < position then position else file.size
    position := position }

def writeLoop (b : BlockMap σ) (buffer : List UInt8) (copyOffset : ℕ)
    (file : File σ) : ℤ × File σ :=
  if 0 < buffer.length then
    let writeOffset := file.position % b.blockSize
    let writeSize := min (b.blockSize - writeOffset) buffer.length
    writeLoop b (buffer.drop writeSize) (copyOffset + writeSize)
      (writeBlock b file (buffer.take writeSize))
  else (int32 copyOffset, file)
termination_by buffer.length
decreasing_by
  have hoffset := mod_lt file.position b.blockSize_pos
  rw [List.length_drop]
  omega

def fileGenericWrite : ℤ × File σ :=
  writeLoop b buffer 0 file

inductive Op
  | read (position size : ℕ)
  | write (position : ℕ) (buffer : List UInt8)

/-- The return value of a call, with the bytes that a read has copied. -/
def call : Op → (ℤ × List UInt8) × File σ
  | .read position size =>
    let r := fileGenericRead b { file with position := position } size
    ((r.1, r.2.1), r.2.2)
  | .write position buffer =>
    let r := fileGenericWrite b { file with position := position } buffer
    ((r.1, []), r.2)

def run (b : BlockMap σ) (file : File σ) : List Op → List (ℤ × List UInt8) × File σ
  | [] => ([], file)
  | op :: ops =>
    let first := call b file op
    let rest := run b first.2 ops
    (first.1 :: rest.1, rest.2)

/-! ## An array of bytes -/

/-- What a file is for its users. -/
structure Contents where
  bytes : ℕ → UInt8
  size : ℕ
  position : ℕ

/-- A write replaces bytes, and it moves the end if there are any. -/
def Contents.write : Contents where
  bytes := overwrite c.bytes c.position buffer
  size := if buffer = [] then c.size
    else max c.size (c.position + buffer.length)
  position := c.position + buffer.length

/-- The number of bytes from the position on, at most a given number. -/
def Contents.count (size : ℕ) : ℕ := min size (c.size - c.position)

def Contents.call : Op → (ℤ × List UInt8) × Contents
  | .read position size =>
    let c := { c with position := position }
    ((c.count size, extract c.bytes position (c.count size)),
      { c with position := position + c.count size })
  | .write position buffer =>
    ((buffer.length, []), { c with position := position }.write buffer)

def Contents.run (c : Contents) : List Op → List (ℤ × List UInt8) × Contents
  | [] => ([], c)
  | op :: ops =>
    let first := c.call op
    let rest := first.2.run ops
    (first.1 :: rest.1, rest.2)

def contents : Contents where
  bytes := assembled (b.map file.fs) file.disk b.blockSize 0
  size := file.size
  position := file.position

/-- All blocks up to the end of the file exist. -/
structure WellFormed : Prop where
  size_lt : file.size < 2 ^ 64
  mapped : ∀ k < file.size, (b.map file.fs (k / b.blockSize)).isSome = true

/-- The last byte of a request has a position below `2 ^ 31`. -/
def Op.Bounded : Op → Prop
  | .read position size => position + size < 2 ^ 31
  | .write position buffer => position + buffer.length < 2 ^ 31

variable {b : BlockMap σ} {file : File σ}

/-! ## Reads -/

theorem iteration_size (b : BlockMap σ) (position : ℕ) {size : ℕ} (hsize : 0 < size) :
    0 < min (b.blockSize - position % b.blockSize) size ∧
      position % b.blockSize + min (b.blockSize - position % b.blockSize) size ≤ b.blockSize ∧
      min (b.blockSize - position % b.blockSize) size ≤ size := by
  have hoffset := mod_lt position b.blockSize_pos
  omega

theorem readLoop_eq (size : ℕ) (copied : List UInt8) (file : File σ)
    (hmapped : ∀ k, file.position ≤ k → k < file.position + size →
      (b.map file.fs (k / b.blockSize)).isSome = true)
    (hbound : file.position + size < 2 ^ 31) :
    readLoop b size copied file = (int32 (copied.length + size : ℕ),
        copied ++ extract (contents b file).bytes file.position size,
        { file with position := file.position + size }) := by
  induction size using Nat.strongRecOn generalizing copied file with
  | ind size ih =>
    rw [readLoop]
    by_cases hsize : 0 < size
    · rw [if_pos hsize]
      obtain ⟨block, hblock⟩ := isSome_iff_exists.mp (hmapped file.position le_rfl (by omega))
      rw [hblock]
      dsimp only
      obtain ⟨hpos, hlen, hle⟩ := iteration_size b file.position hsize
      generalize min (b.blockSize - file.position % b.blockSize) size = n at hpos hlen hle
      -- The rest of the request is read by the next iterations.
      rw [dword_of_lt (by omega), ih (size - n) (by omega) _ _ _ (by
        dsimp only
        omega)]
      · have hchunk : extract (file.disk block) (file.position % b.blockSize) n =
            extract (contents b file).bytes file.position n :=
          extract_assembled hblock hlen
        have hcontents : (contents b { file with position := file.position + n }).bytes =
            (contents b file).bytes := rfl
        have hend : file.position + n + (size - n) = file.position + size := by omega
        have hlength : (copied ++ extract (contents b file).bytes
            file.position n).length + (size - n) = copied.length + size := by
          rw [List.length_append, length_extract]
          omega
        rw [hcontents, hchunk, hlength, List.append_assoc, ← extract_add, hend,
          Nat.add_sub_cancel' hle]
      · intro k hlow hhigh
        dsimp only at hlow hhigh
        exact hmapped k (by omega) (by omega)
    · obtain rfl : size = 0 := by omega
      rw [extract_zero, List.append_nil]
      rfl

theorem fileGenericRead_eq (size : ℕ) (hfile : WellFormed b file)
    (hbound : file.position + size < 2 ^ 31) :
    fileGenericRead b file size = (((contents b file).count size : ℤ),
        extract (contents b file).bytes file.position ((contents b file).count size),
        { file with
          position := file.position + (contents b file).count size }) := by
  unfold fileGenericRead
  by_cases hend : file.size ≤ file.position
  · have hzero : (contents b file).count size = 0 := by
      show min size (file.size - file.position) = 0
      omega
    rw [if_pos hend, hzero]
    rfl
  · have hlimit : (if qwordSub file.size file.position < size then
        dword (qwordSub file.size file.position) else size) =
        (contents b file).count size := by
      show _ = min size (file.size - file.position)
      rw [qwordSub_of_le (Nat.le_of_not_le hend)]
      split
      · rw [dword_of_lt (by omega)]
        omega
      · omega
    have hcount : (contents b file).count size ≤ size := min_le_left _ _
    have hcount' : (contents b file).count size ≤ file.size - file.position :=
      min_le_right _ _
    rw [if_neg hend, hlimit, readLoop_eq]
    · rw [List.length_nil, zero_add, List.nil_append, int32_of_range (by omega) (by omega)]
    · intro k _ hk
      exact hfile.mapped k (by omega)
    · omega

/-! ## Writes -/

section Writes

variable {bytes : List UInt8}

theorem Contents.write_append {xs ys : List UInt8}
    (hxs : xs ≠ []) : (c.write xs).write ys = c.write (xs ++ ys) := by
  have hsize : (if ys = [] then max c.size (c.position + xs.length)
      else max (max c.size (c.position + xs.length)) (c.position + xs.length + ys.length)) =
      max c.size (c.position + (xs.length + ys.length)) := by
    split
    · next hnil =>
      rw [hnil]
      rfl
    · omega
  unfold Contents.write
  rw [overwrite_append, List.length_append, if_neg hxs, hsize,
    if_neg (List.append_ne_nil_of_left_ne_nil hxs ys), add_assoc]

theorem contents_writeBlock (hbytes : bytes ≠ [])
    (hlen : file.position % b.blockSize + bytes.length ≤ b.blockSize)
    (hbound : file.position + bytes.length < 2 ^ 31) :
    contents b (writeBlock b file bytes) = (contents b file).write bytes := by
  have hgrow : assembled (b.map (b.create file.fs file.disk (file.position / b.blockSize)).2.1)
      (b.create file.fs file.disk (file.position / b.blockSize)).2.2
      b.blockSize 0 = (contents b file).bytes :=
    assembled_grow b.blockSize_pos (b.map_stable _ _ _) (b.create_zero _ _ _)
  have hwrite := assembled_overwrite
    (b.create file.fs file.disk (file.position / b.blockSize)).2.2 0
    (b.map_injective _)
    (b.map_create file.fs file.disk (file.position / b.blockSize)) hlen
  have hsize : (if file.size < file.position + bytes.length then
      file.position + bytes.length else file.size) =
      max file.size (file.position + bytes.length) := by
    split
    · omega
    · omega
  unfold Contents.write
  rw [if_neg hbytes]
  unfold contents writeBlock
  dsimp only
  rw [hwrite, hgrow, dword_of_lt (by omega), hsize]
  rfl

theorem WellFormed.writeBlock (hfile : WellFormed b file)
    (hlen : file.position % b.blockSize + bytes.length ≤ b.blockSize)
    (hbound : file.position + bytes.length < 2 ^ 31) : WellFormed b (writeBlock b file bytes) := by
  have hsize := hfile.size_lt
  unfold GenericFile.writeBlock
  rw [dword_of_lt (by omega)]
  constructor
  · dsimp only
    split
    · omega
    · exact hsize
  · intro k hk
    dsimp only at hk ⊢
    by_cases hold : k < file.size
    · obtain ⟨block, hblock⟩ := isSome_iff_exists.mp (hfile.mapped k hold)
      rw [(b.map_stable _ _ _ _ _ hblock).1]
      rfl
    · -- The byte is written or in front of the written bytes.
      apply b.map_lower
      have hend : k < file.position + bytes.length := by
        split at hk
        · exact hk
        · exact absurd hk hold
      have hblock := div_add_mod file.position b.blockSize
      have hlast : k < b.blockSize * (file.position / b.blockSize + 1) := by
        rw [mul_add, mul_one]
        omega
      exact Nat.lt_succ_iff.mp (Nat.div_lt_of_lt_mul hlast)

theorem writeLoop_spec (copyOffset : ℕ) (file : File σ) (hfile : WellFormed b file)
    (hbound : file.position + buffer.length < 2 ^ 31) :
    ∃ file', writeLoop b buffer copyOffset file = (int32 (copyOffset + buffer.length : ℕ), file') ∧
      WellFormed b file' ∧
      contents b file' = (contents b file).write buffer := by
  induction hn : buffer.length using Nat.strongRecOn generalizing buffer copyOffset file with
  | ind n ih =>
    subst hn
    rw [writeLoop]
    by_cases hlen : 0 < buffer.length
    · obtain ⟨hpos, hfits, hle⟩ := iteration_size b file.position hlen
      rw [if_pos hlen]
      dsimp only
      generalize min (b.blockSize - file.position % b.blockSize) buffer.length = n at hpos hfits hle
      have htake : (buffer.take n).length = n := List.length_take_of_le hle
      have hdrop : (buffer.drop n).length = buffer.length - n :=
        List.length_drop
      have hbytes : buffer.take n ≠ [] := List.ne_nil_of_length_pos (by omega)
      have hfits' : file.position % b.blockSize + (buffer.take n).length ≤ b.blockSize := by
        rw [htake]
        exact hfits
      have hcontents := contents_writeBlock hbytes hfits' (by omega)
      have hposition : (GenericFile.writeBlock b file
          (buffer.take n)).position = file.position + (buffer.take n).length :=
        congrArg Contents.position hcontents
      -- The rest of the buffer is written by the next iterations.
      obtain ⟨file', heq, hfile', hrest⟩ := ih (buffer.length - n) (by omega)
        (buffer.drop n) (copyOffset + n) _
        (hfile.writeBlock hfits' (by omega)) (by omega) hdrop
      refine ⟨file', ?_, hfile', ?_⟩
      · rw [heq, add_assoc, Nat.add_sub_cancel' hle]
      · rw [hrest, hcontents, Contents.write_append _ hbytes, List.take_append_drop]
    · obtain rfl := List.length_eq_zero_iff.mp (Nat.eq_zero_of_not_pos hlen)
      refine ⟨file, rfl, hfile, ?_⟩
      unfold Contents.write
      rw [overwrite_nil]
      rfl

end Writes

/-! ## Runs -/

theorem call_spec (hfile : WellFormed b file) {op : Op} (hop : op.Bounded) :
    (call b file op).1 = ((contents b file).call op).1 ∧
      contents b (call b file op).2 = ((contents b file).call op).2 ∧
      WellFormed b (call b file op).2 := by
  cases op with
  | read position size =>
    have hseek : WellFormed b { file with position := position } :=
      ⟨hfile.size_lt, hfile.mapped⟩
    unfold call
    dsimp only
    rw [fileGenericRead_eq size hseek hop]
    exact ⟨rfl, rfl, hfile.size_lt, hfile.mapped⟩
  | write position buffer =>
    have hseek : WellFormed b { file with position := position } :=
      ⟨hfile.size_lt, hfile.mapped⟩
    have hop : position + buffer.length < 2 ^ 31 := hop
    obtain ⟨file', heq, hfile', hcontents⟩ := writeLoop_spec buffer 0 _ hseek hop
    unfold call fileGenericWrite
    dsimp only
    rw [heq, zero_add, int32_of_range (by omega) (by omega)]
    exact ⟨rfl, hcontents, hfile'⟩

/-- Reads and writes of a file are reads and writes of an array of bytes. -/
theorem file_refines_array (b : BlockMap σ) (file : File σ) (ops : List Op)
    (hfile : WellFormed b file) (hops : ∀ op ∈ ops, op.Bounded) :
    (run b file ops).1 = ((contents b file).run ops).1 ∧
      contents b (run b file ops).2 = ((contents b file).run ops).2 := by
  induction ops generalizing file with
  | nil => exact ⟨rfl, rfl⟩
  | cons op ops ih =>
    obtain ⟨hresult, hcontents, hfile'⟩ := call_spec hfile (hops op List.mem_cons_self)
    obtain ⟨hresults, hend⟩ := ih _ hfile' fun op hop => hops op (List.mem_cons_of_mem _ hop)
    unfold run Contents.run
    dsimp only
    rw [hresult, hresults, hend, hcontents]
    exact ⟨rfl, rfl⟩

/-- A file in the first blocks of a device with four bytes in each block.  The
data of the file system is the number of blocks. -/
def sequential : BlockMap ℕ where
  blockSize := 4
  blockSize_pos := by decide
  map blocks a := if a < blocks then some a else none
  create blocks disk a :=
    (a, max blocks (a + 1),
      fun block => if blocks ≤ block ∧ block ≤ a then fun _ => 0 else disk block)
  map_injective blocks a a' block ha ha' := by
    obtain ⟨-, ha⟩ := ite_none_right_eq_some.mp ha
    obtain ⟨-, ha'⟩ := ite_none_right_eq_some.mp ha'
    exact some.inj (ha.trans ha'.symm)
  map_create blocks disk a := by
    exact if_pos (lt_of_lt_of_le (lt_succ_self a) (le_max_right _ _))
  map_stable blocks disk a a' block ha := by
    obtain ⟨hlt, ha⟩ := ite_none_right_eq_some.mp ha
    cases ha
    exact ⟨if_pos (hlt.trans_le (le_max_left _ _)), if_neg (by omega)⟩
  map_lower blocks disk a a' ha := by
    dsimp only
    rw [if_pos (by omega)]
    rfl
  create_zero blocks disk a a' block hnone hsome i _ := by
    have hge : ¬ a' < blocks := by
      intro hlt
      rw [if_pos hlt] at hnone
      cases hnone
    obtain ⟨hlt, ha⟩ := ite_none_right_eq_some.mp hsome
    cases ha
    dsimp only at hlt ⊢
    rw [if_pos (by omega)]

def emptyFile : File ℕ := ⟨0, fun _ _ => 7, 0, 0⟩

theorem wellFormed_emptyFile : WellFormed sequential emptyFile :=
  ⟨by decide, fun _ hk => absurd hk (not_lt_zero _)⟩

/-- A write over the end of two blocks, and a read over the end of the file. -/
theorem file_refines_array_two_calls :
    (run sequential emptyFile [.write 2 [1, 2, 3, 4, 5, 6, 7], .read 1 20]).1 =
      [(7, []), (8, [0, 1, 2, 3, 4, 5, 6, 7])] := by
  have hops : ∀ op ∈ [Op.write 2 [1, 2, 3, 4, 5, 6, 7], Op.read 1 20], op.Bounded :=
    List.forall_mem_cons.mpr ⟨show 2 + 7 < 2 ^ 31 by decide,
      List.forall_mem_singleton.mpr (show 1 + 20 < 2 ^ 31 by decide)⟩
  exact (file_refines_array sequential emptyFile _ wellFormed_emptyFile hops).1.trans (by decide)

/-- Writing nothing behind the end of a file does not move the end there. -/
theorem empty_write_keeps_size :
    WellFormed sequential emptyFile ∧ (Op.write 5 []).Bounded ∧
      (call sequential emptyFile (.write 5 [])).2.size = 0 ∧
      (call sequential emptyFile (.write 5 [])).2.size ≠
        max emptyFile.size (5 + ([] : List UInt8).length) := by
  have hsize : (call sequential emptyFile (.write 5 [])).2.size = 0 := by
    unfold call fileGenericWrite
    dsimp only
    rw [writeLoop]
    rfl
  refine ⟨wellFormed_emptyFile, ?_, hsize, ?_⟩
  · show 5 + 0 < 2 ^ 31
    decide
  · rw [hsize]
    decide

end Whitix.GenericFile
