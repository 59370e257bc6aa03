import Whitix.Include.Error
import Whitix.Support.RingBuffer
import Whitix.Support.Run
import Whitix.Support.Word

/-!
# Pipes

`fs/vfs/pipe.c` keeps the bytes of a pipe in a ring of 4096 bytes.  Writing
copies in chunks that end at the physical end of the ring, at the end of the
request or at the end of the free space.

The third bound is not the one the code uses: when a chunk is longer than the
free space, `PipeWrite` takes the whole rest of the request instead.  The chunk
up to the physical end is longer than the free space only once the contents
have wrapped, so this happens to requests larger than the ring which find it
neither full nor starting at its first byte.  All other runs are lossless.
-/

namespace Whitix.Pipe

open Support List

/-! ## The code -/

def pipeBufferSize : ℕ := 4096

/-- `struct PipeInfo` without its wait queue and the number of writers, which
reading and writing do not use. -/
structure PipeInfo where
  base : ℕ → UInt8
  start : ℕ
  lock : ℕ
  readers : ℕ
  size : ℕ

variable (s : PipeSystem)

section

variable (info : PipeInfo)

def pipeFree : ℕ :=
  dwordSub pipeBufferSize info.size

def pipeEnd : ℕ :=
  dword (info.start + info.size) % pipeBufferSize

def pipeMaxWchunk : ℕ :=
  dwordSub pipeBufferSize (pipeEnd info)

def pipeMaxRchunk : ℕ :=
  dwordSub pipeBufferSize info.start

/-- The locals of `PipeRead`.  `buffer` holds the bytes copied out so far, and
`accesses` the offset and length of every copy from or to the ring. -/
structure PipeReading where
  info : PipeInfo
  count : ℕ
  read : ℤ
  buffer : List UInt8
  accesses : List (ℕ × ℕ)

def pipeReadChars (count : ℕ) : ℕ :=
  min (min (pipeMaxRchunk info) count) info.size

/-- One iteration of `PipeRead`: copy `chars` bytes from the front. -/
def PipeReading.advance (r : PipeReading) (chars : ℕ) : PipeReading where
  info := { r.info with
    start := dword (r.info.start + chars) % pipeBufferSize
    size := dwordSub r.info.size chars }
  count := r.count - chars
  read := int32 (r.read + chars)
  buffer := r.buffer ++ extract r.info.base r.info.start chars
  accesses := r.accesses ++ [(r.info.start, chars)]

def pipeReadCopy : ℕ → PipeReading → Option PipeReading
  | 0, _ => none
  | fuel + 1, r =>
    if 0 < r.count ∧ r.info.size ≠ 0 then
      pipeReadCopy fuel (r.advance (pipeReadChars r.info r.count))
    else some r

/-- Without `FILE_NONBLOCK`, waiting for the lock of a pipe that holds bytes never ends
here, because no one else runs. -/
def pipeRead (nonblock : Bool) (count : ℕ) : Option PipeReading :=
  if count = 0 then some ⟨info, count, 0, [], []⟩
  else if nonblock = true ∧ info.lock ≠ 0 then some ⟨info, count, 0, [], []⟩
  else if nonblock = false ∧ info.size = 0 then some ⟨info, count, 0, [], []⟩
  else if nonblock = false ∧ info.lock ≠ 0 then none
  else
    (pipeReadCopy (count + 1) ⟨{ info with lock := dword (info.lock + 1) }, count, 0, [], []⟩).map
      fun r => { r with info := { r.info with lock := dwordSub r.info.lock 1 } }

/-- The locals of `PipeWrite`.  `buffer` holds the bytes not yet written. -/
structure PipeWriting where
  info : PipeInfo
  buffer : List UInt8
  written : ℤ
  accesses : List (ℕ × ℕ)

def pipeWriteChars (size : ℕ) : ℕ :=
  let chars := min (pipeMaxWchunk info) size
  if pipeFree info < chars then size else chars

/-- One iteration of `PipeWrite`: copy `chars` bytes behind the contents. -/
def PipeWriting.advance (w : PipeWriting) (chars : ℕ) : PipeWriting where
  info := { w.info with
    base := overwrite w.info.base (pipeEnd w.info) (w.buffer.take chars)
    size := dword (w.info.size + chars) }
  buffer := w.buffer.drop chars
  written := int32 (w.written + chars)
  accesses := w.accesses ++ [(pipeEnd w.info, chars)]

def pipeWriteCopy : ℕ → PipeWriting → Option PipeWriting
  | 0, _ => none
  | fuel + 1, w =>
    if 0 < w.buffer.length ∧ pipeFree w.info ≠ 0 then
      pipeWriteCopy fuel (w.advance (pipeWriteChars w.info w.buffer.length))
    else some w

/-- The outer loop of `PipeWrite`, with the value of `err` at its end. -/
def pipeWriteLoop (nonblock : Bool) : ℕ → ℕ → PipeWriting → Option (PipeWriting × ℤ)
  | 0, _, _ => none
  | fuel + 1, free, w =>
    if w.buffer.length = 0 then some (w, 0)
    else if pipeFree w.info < free ∨ w.info.lock ≠ 0 then
      if w.info.readers ≠ 0 then some (w, -EPIPE)
      else if nonblock = true then some (w, 0)
      else none
    else
      (pipeWriteCopy (w.buffer.length + 1)
        { w with info :=
          { w.info with lock := dword (w.info.lock + 1) } }).bind fun w' =>
        pipeWriteLoop nonblock fuel 1
          { w' with info :=
            { w'.info with lock := dwordSub w'.info.lock 1 } }

def pipeWrite (nonblock : Bool) (buffer : List UInt8) : Option (PipeWriting × ℤ) :=
  if info.readers = 0 then some (⟨info, buffer, 0, []⟩, -EPIPE)
  else
    let free := if buffer.length ≤ pipeBufferSize then buffer.length else 1
    (pipeWriteLoop nonblock (buffer.length + 2) free ⟨info, buffer, 0, []⟩).map fun r =>
        (r.1, if 0 < r.1.written then r.1.written else r.2)

/-! ## A pipe and what passed through it -/

/-- A pipe with the bytes its readers received, the bytes its writers were told
were written, and every access to the ring. -/
structure PipeSystem where
  info : PipeInfo
  delivered : List UInt8
  accepted : List UInt8
  accesses : List (ℕ × ℕ)

/-- A new pipe; the contents of its buffer are whatever the memory held. -/
def PipeSystem.initial (base : ℕ → UInt8) (readers : ℕ) : PipeSystem where
  info := ⟨base, 0, 0, readers, 0⟩
  delivered := []
  accepted := []
  accesses := []

inductive PipeOp where
  | read (nonblock : Bool) (count : ℕ)
  | write (nonblock : Bool) (buffer : List UInt8)

/-- A negative return value of `PipeWrite` is an error: no bytes count as
written. -/
def pipeStep : PipeOp → Option PipeSystem
  | .read nonblock count =>
    (pipeRead s.info nonblock count).map fun r =>
      { s with
        info := r.info
        delivered := s.delivered ++ r.buffer
        accesses := s.accesses ++ r.accesses }
  | .write nonblock buffer =>
    (pipeWrite s.info nonblock buffer).map fun r =>
      { s with
        info := r.1.info
        accepted := s.accepted ++ buffer.take r.2.toNat
        accesses := s.accesses ++ r.1.accesses }

def PipeOp.Legal (_ : PipeSystem) : PipeOp → Prop
  | .read _ count => count < 2 ^ 32
  | .write _ buffer => buffer.length < 2 ^ 32

/-- The request fits the ring, or the ring is full, or it starts at its first
byte. -/
def PipeOp.Fits : PipeOp → Prop
  | .read _ _ => True
  | .write _ buffer =>
    buffer.length ≤ pipeBufferSize ∨ s.info.size = pipeBufferSize ∨ s.info.start = 0

instance : (op : PipeOp) → Decidable (op.Legal s)
  | .read _ _ | .write _ _ => inferInstanceAs (Decidable (_ < _))

instance : (op : PipeOp) → Decidable (op.Fits s)
  | .read _ _ => isTrue trivial
  | .write _ _ => inferInstanceAs (Decidable (_ ∨ _))

def PipeInfo.contents : List UInt8 :=
  ringContents pipeBufferSize info.base info.start info.size

end

def InRing (access : ℕ × ℕ) : Prop :=
  access.1 + access.2 ≤ pipeBufferSize

/-- The ring holds what was accepted and not yet delivered, and was never
left. -/
structure PipeLossless : Prop where
  size_le : s.info.size ≤ pipeBufferSize
  inRing : ∀ access ∈ s.accesses, InRing access
  fifo : s.delivered ++ s.info.contents = s.accepted

/-! ## The ring arithmetic -/

/-- The start and the size of a ring that has not been overrun. -/
structure PipeInfo.Valid (info : PipeInfo) : Prop where
  start_lt : info.start < pipeBufferSize
  size_le : info.size ≤ pipeBufferSize

section Arithmetic

variable {info : PipeInfo}

theorem PipeInfo.Valid.free_eq (h : info.Valid) : pipeFree info = pipeBufferSize - info.size :=
  dwordSub_of_le h.size_le

theorem PipeInfo.Valid.end_eq (h : info.Valid) :
    pipeEnd info = (info.start + info.size) % pipeBufferSize := by
  have hstart := h.start_lt
  have hsize := h.size_le
  unfold pipeEnd
  rw [dword_of_lt]
  unfold pipeBufferSize at *
  omega

theorem pipeEnd_lt (info : PipeInfo) : pipeEnd info < pipeBufferSize :=
  Nat.mod_lt _ (by norm_num [pipeBufferSize])

theorem pipeMaxWchunk_eq (info : PipeInfo) : pipeMaxWchunk info = pipeBufferSize - pipeEnd info :=
  dwordSub_of_le (pipeEnd_lt info).le

theorem PipeInfo.Valid.maxRchunk_eq (h : info.Valid) :
    pipeMaxRchunk info = pipeBufferSize - info.start :=
  dwordSub_of_le h.start_lt.le

end Arithmetic

theorem accesses_of_chunk {chunk : ℕ × ℕ} {old new : List (ℕ × ℕ)}
    (h : ∀ access ∈ new, access ∈ old ++ [chunk] ∨ InRing access) (hchunk : InRing chunk) :
    ∀ access ∈ new, access ∈ old ∨ InRing access := by
  intro access hmem
  rcases h access hmem with hold | hin
  · rcases mem_append.mp hold with hold | hnew
    · exact .inl hold
    · right
      rw [mem_singleton.mp hnew]
      exact hchunk
  · exact .inr hin

/-! ## Reading -/

theorem pipeReadCopy_spec (fuel : ℕ) (r : PipeReading)
    (hvalid : r.info.Valid) (hfuel : r.count < fuel) :
    ∃ r' bytes, pipeReadCopy fuel r = some r' ∧ r'.buffer = r.buffer ++ bytes ∧
      bytes ++ r'.info.contents = r.info.contents ∧
      r'.info.Valid ∧ r'.info.lock = r.info.lock ∧
      r'.info.readers = r.info.readers ∧
      ∀ access ∈ r'.accesses, access ∈ r.accesses ∨ InRing access := by
  induction fuel generalizing r with
  | zero => omega
  | succ fuel ih =>
    by_cases hloop : 0 < r.count ∧ r.info.size ≠ 0
    · have hstart := hvalid.start_lt
      have hsize := hvalid.size_le
      have hbounds : let chars := pipeReadChars r.info r.count
          0 < chars ∧ chars ≤ r.count ∧ chars ≤ r.info.size ∧
          r.info.start + chars ≤ pipeBufferSize := by
        rw [pipeReadChars, hvalid.maxRchunk_eq]
        omega
      rw [pipeReadCopy, if_pos hloop]
      generalize pipeReadChars r.info r.count = chars at hbounds ⊢
      obtain ⟨hpos, hcount, hle, hchunk⟩ := hbounds
      have hstart' : (r.advance chars).info.start = (r.info.start + chars) % pipeBufferSize := by
        simp only [PipeReading.advance]
        rw [dword_of_lt]
        unfold pipeBufferSize at hchunk
        omega
      have hsize' : (r.advance chars).info.size = r.info.size - chars :=
        dwordSub_of_le hle
      have hpop : extract r.info.base r.info.start chars ++
          (r.advance chars).info.contents = r.info.contents := by
        unfold PipeInfo.contents
        rw [hstart', hsize']
        exact ringContents_pop r.info.base hle hchunk
      obtain ⟨r', bytes, hrun, hbuffer, hcontents, hvalid', hlock,
        hreaders, haccess⟩ := ih (r.advance chars)
        ⟨Nat.mod_lt _ (by norm_num [pipeBufferSize]), by omega⟩
        (by
          simp only [PipeReading.advance]
          omega)
      refine ⟨r', extract r.info.base r.info.start chars ++ bytes, hrun,
        ?_, ?_, hvalid', hlock, hreaders, ?_⟩
      · rw [hbuffer, ← append_assoc]
        rfl
      · rw [append_assoc, hcontents, hpop]
      · exact accesses_of_chunk haccess hchunk
    · refine ⟨r, [], ?_, by simp, by simp, hvalid, rfl, rfl, ?_⟩
      · rw [pipeReadCopy, if_neg hloop]
      · exact fun access hmem => .inl hmem

variable {info : PipeInfo} {w : PipeWriting}

theorem pipeRead_spec (hvalid : info.Valid) (hlock : info.lock = 0) (nonblock : Bool) (count : ℕ) :
    ∃ r, pipeRead info nonblock count = some r ∧ r.buffer ++ r.info.contents = info.contents ∧
      r.info.Valid ∧ r.info.lock = 0 ∧ r.info.readers = info.readers ∧
      ∀ access ∈ r.accesses, InRing access := by
  have hidle : ∃ r, some (⟨info, count, 0, [], []⟩ : PipeReading) = some r ∧
      r.buffer ++ r.info.contents = info.contents ∧
      r.info.Valid ∧ r.info.lock = 0 ∧ r.info.readers = info.readers ∧
      ∀ access ∈ r.accesses, InRing access :=
    ⟨_, rfl, nil_append _, hvalid, hlock, rfl, by simp⟩
  unfold pipeRead
  by_cases hcount : count = 0
  · rw [if_pos hcount]
    exact hidle
  rw [if_neg hcount, if_neg (by simp [hlock])]
  by_cases hempty : nonblock = false ∧ info.size = 0
  · rw [if_pos hempty]
    exact hidle
  rw [if_neg hempty, if_neg (by simp [hlock])]
  obtain ⟨r, bytes, hrun, hbuffer, hcontents, hvalid', hlock', hreaders,
    haccess⟩ := pipeReadCopy_spec (count + 1)
    ⟨{ info with lock := dword (info.lock + 1) }, count, 0, [], []⟩
    ⟨hvalid.start_lt, hvalid.size_le⟩ (Nat.lt_succ_self count)
  rw [hrun]
  refine ⟨_, rfl, ?_, ⟨hvalid'.start_lt, hvalid'.size_le⟩, ?_, hreaders, ?_⟩
  · simpa [hbuffer, PipeInfo.contents] using hcontents
  · simp [hlock', hlock, dword, dwordSub]
  · intro access hmem
    simpa using haccess access hmem

/-! ## Writing -/

/-- The bytes left to write fit into the free space, or the ring starts at its
first byte, so that the free space is contiguous. -/
def PipeWriting.Fits (w : PipeWriting) : Prop :=
  w.buffer.length ≤ pipeBufferSize - w.info.size ∨ w.info.start = 0

/-- One chunk, when the request fits, stays inside the ring and inside the
free space. -/
theorem pipeWriteChars_of_fits (hvalid : w.info.Valid) (hfits : w.Fits)
    (hpos : 0 < w.buffer.length) (hfree : pipeFree w.info ≠ 0) :
    let chars := pipeWriteChars w.info w.buffer.length
    0 < chars ∧ chars ≤ w.buffer.length ∧ w.info.size + chars ≤ pipeBufferSize ∧
      pipeEnd w.info + chars ≤ pipeBufferSize := by
  have hend := pipeEnd_lt w.info
  have hendEq := hvalid.end_eq
  rw [hvalid.free_eq] at hfree
  have hle : min (pipeMaxWchunk w.info) w.buffer.length ≤ pipeBufferSize - w.info.size := by
    rcases hfits with hfit | hstart
    · exact le_trans (min_le_right _ _) hfit
    · have hwhole : pipeEnd w.info = w.info.size := by
        rw [hendEq, hstart, zero_add, Nat.mod_eq_of_lt (by omega)]
      rw [pipeMaxWchunk_eq, hwhole]
      exact min_le_left _ _
  have hchars : pipeWriteChars w.info w.buffer.length =
      min (pipeMaxWchunk w.info) w.buffer.length := by
    rw [pipeWriteChars, hvalid.free_eq]
    exact if_neg hle.not_gt
  rw [pipeMaxWchunk_eq] at *
  omega

theorem pipeWriteCopy_spec (fuel : ℕ) (w : PipeWriting) (hvalid : w.info.Valid) (hfits : w.Fits)
    (hwritten : 0 ≤ w.written ∧ w.written ≤ w.info.size) (hfuel : w.buffer.length < fuel) :
    ∃ w' k, pipeWriteCopy fuel w = some w' ∧
      k = min w.buffer.length (pipeBufferSize - w.info.size) ∧
      w'.buffer = w.buffer.drop k ∧ w'.written = w.written + k ∧
      w'.info.contents = w.info.contents ++ w.buffer.take k ∧
      w'.info.size = w.info.size + k ∧ w'.info.start = w.info.start ∧
      w'.info.lock = w.info.lock ∧ w'.info.readers = w.info.readers ∧
      ∀ access ∈ w'.accesses, access ∈ w.accesses ∨ InRing access := by
  induction fuel generalizing w with
  | zero => omega
  | succ fuel ih =>
    by_cases hloop : 0 < w.buffer.length ∧ pipeFree w.info ≠ 0
    · obtain ⟨hpos, hlen, hroom, hchunk⟩ :=
        pipeWriteChars_of_fits hvalid hfits hloop.1 hloop.2
      rw [pipeWriteCopy, if_pos hloop]
      generalize pipeWriteChars w.info w.buffer.length = chars at *
      have hsize' : (w.advance chars).info.size = w.info.size + chars := by
        apply dword_of_lt
        unfold pipeBufferSize at hroom
        omega
      have hwritten' : (w.advance chars).written = w.written + chars := by
        apply int32_of_range
        · omega
        · unfold pipeBufferSize at hroom
          omega
      have hlength : (w.advance chars).buffer.length = w.buffer.length - chars := length_drop
      have htake : (w.buffer.take chars).length = chars :=
        length_take_of_le hlen
      have hpush : (w.advance chars).info.contents = w.info.contents ++ w.buffer.take chars := by
        have hcontents := ringContents_push w.info.base pipeBufferSize
          w.info.start w.info.size (htake.symm ▸ hroom)
          (by rw [htake, ← hvalid.end_eq]; exact hchunk)
        rw [htake, ← hvalid.end_eq] at hcontents
        unfold PipeInfo.contents
        rw [hsize']
        exact hcontents
      obtain ⟨w', k, hrun, hk, hbuffer, hcount, hcontents, hsize'', hstart',
        hlock, hreaders, haccess⟩ := ih (w.advance chars)
        ⟨hvalid.start_lt, by omega⟩
        (hfits.imp_left fun hfit => by omega)
        (by
          omega)
        (by omega)
      rw [hsize'] at hsize''
      rw [hwritten'] at hcount
      refine ⟨w', chars + k, hrun, by omega, ?_, ?_, ?_, ?_, hstart', hlock, hreaders, ?_⟩
      · rw [hbuffer]
        exact drop_drop
      · rw [hcount]
        push_cast
        ring
      · rw [hcontents, hpush, take_add, append_assoc]
        rfl
      · rw [hsize'', add_assoc]
      · exact accesses_of_chunk haccess hchunk
    · refine ⟨w, 0, ?_, ?_, by simp, by simp, by simp, rfl, rfl, rfl, rfl, ?_⟩
      · rw [pipeWriteCopy, if_neg hloop]
      · rw [hvalid.free_eq] at hloop
        omega
      · exact fun access hmem => .inl hmem

theorem pipeWriteLoop_done (nonblock : Bool) (fuel : ℕ)
    (hdone : w.buffer.length = 0 ∨ pipeFree w.info = 0) (hreaders : w.info.readers ≠ 0) :
    ∃ err, pipeWriteLoop nonblock (fuel + 1) 1 w = some (w, err) := by
  by_cases hempty : w.buffer.length = 0
  · exact ⟨0, by rw [pipeWriteLoop, if_pos hempty]⟩
  · have hfull : pipeFree w.info < 1 ∨ w.info.lock ≠ 0 := by
      left
      omega
    exact ⟨-EPIPE, by
      rw [pipeWriteLoop, if_neg hempty, if_pos hfull, if_pos hreaders]⟩

theorem pipeWrite_spec (hvalid : info.Valid) (hlock : info.lock = 0) (hreaders : info.readers ≠ 0)
    (nonblock : Bool) (buffer : List UInt8)
    (hfits : buffer.length ≤ pipeBufferSize ∨ info.size = pipeBufferSize ∨ info.start = 0) :
    ∃ r ret, pipeWrite info nonblock buffer = some (r, ret) ∧
      r.info.contents = info.contents ++ buffer.take ret.toNat ∧
      r.info.Valid ∧ r.info.lock = 0 ∧ r.info.readers = info.readers ∧
      ∀ access ∈ r.accesses, InRing access := by
  rw [pipeWrite, if_neg hreaders]
  generalize hfree : (if buffer.length ≤ pipeBufferSize then buffer.length
    else 1) = free
  dsimp only
  by_cases hempty : buffer.length = 0
  · rw [pipeWriteLoop, if_pos hempty]
    exact ⟨⟨info, buffer, 0, []⟩, 0, by simp, by simp, hvalid, hlock, rfl,
      by simp⟩
  by_cases hwait : pipeFree info < free
  · rw [pipeWriteLoop, if_neg hempty, if_pos (.inl hwait), if_pos hreaders]
    exact ⟨⟨info, buffer, 0, []⟩, -EPIPE, by simp, by simp [EPIPE], hvalid, hlock, rfl, by simp⟩
  have henter : ¬ (pipeFree info < free ∨ info.lock ≠ 0) := by simp [hwait, hlock]
  rw [hvalid.free_eq] at hwait
  have hfits' : PipeWriting.Fits ⟨{ info with lock := dword (info.lock + 1) }, buffer, 0, []⟩ := by
    by_cases hlarge : buffer.length ≤ pipeBufferSize
    · rw [if_pos hlarge] at hfree
      left
      dsimp only
      omega
    · rw [if_neg hlarge] at hfree
      right
      dsimp only
      omega
  obtain ⟨w, k, hrun, hk, hbuffer, hwritten, hcontents, hsize', hstart',
    hlock', hreaders', haccess⟩ := pipeWriteCopy_spec (buffer.length + 1)
    ⟨{ info with lock := dword (info.lock + 1) }, buffer, 0, []⟩
    ⟨hvalid.start_lt, hvalid.size_le⟩ hfits' (by simp) (Nat.lt_succ_self _)
  dsimp only at hk hbuffer hwritten hsize' hstart' hlock' hreaders'
  have hkpos : 0 < k := by split at hfree <;> omega
  have hdone : (w.buffer.length = 0 ∨ pipeFree
      { w.info with lock := dwordSub w.info.lock 1 } = 0) := by
    rw [hbuffer, length_drop]
    have hroom : pipeFree { w.info with lock := dwordSub w.info.lock 1 } =
        pipeBufferSize - (info.size + k) := by
      unfold pipeFree
      rw [hsize']
      exact dwordSub_of_le (by omega)
    omega
  obtain ⟨err, hloop⟩ := pipeWriteLoop_done nonblock buffer.length
    (w := { w with info := { w.info with lock := dwordSub w.info.lock 1 } })
    hdone (by simpa [hreaders'] using hreaders)
  rw [pipeWriteLoop, if_neg hempty, if_neg henter]
  simp only [hrun, Option.bind_some, hloop, Option.map_some]
  have hret : (if 0 < w.written then w.written else err) = (k : ℤ) := by
    rw [hwritten, zero_add, if_pos (by exact_mod_cast hkpos)]
  refine ⟨_, _, rfl, ?_, ⟨?_, ?_⟩, ?_, hreaders', ?_⟩
  · rw [hret]
    exact hcontents
  · rw [hstart']
    exact hvalid.start_lt
  · dsimp only
    omega
  · rw [hlock', hlock]
    rfl
  · intro access hmem
    simpa using haccess access hmem

/-! ## The overrun -/

def PipeWriting.Overrun (w : PipeWriting) : Prop :=
  ¬ (w.info.size ≤ pipeBufferSize ∧ ∀ access ∈ w.accesses, InRing access)

/-- Once the contents have wrapped, a request longer than the free space is
copied as a whole. -/
theorem pipeWriteCopy_wrapped (fuel : ℕ) (hvalid : w.info.Valid)
    (hwrapped : pipeBufferSize ≤ w.info.start + w.info.size) (hroom : w.info.size < pipeBufferSize)
    (hlong : pipeBufferSize - w.info.size < w.buffer.length) :
    ∃ w', pipeWriteCopy (fuel + 2) w = some w' ∧ w'.buffer.length = 0 ∧
      w'.info.readers = w.info.readers ∧ w'.Overrun := by
  have hstart := hvalid.start_lt
  have hloop : 0 < w.buffer.length ∧ pipeFree w.info ≠ 0 := by
    rw [hvalid.free_eq]
    omega
  have hend : pipeEnd w.info = w.info.start + w.info.size - pipeBufferSize := by
    rw [hvalid.end_eq, Nat.mod_eq_sub_mod hwrapped, Nat.mod_eq_of_lt (by omega)]
  have hchars : pipeWriteChars w.info w.buffer.length = w.buffer.length := by
    rw [pipeWriteChars, hvalid.free_eq, pipeMaxWchunk_eq, hend]
    exact if_pos (by omega)
  have hempty : (w.advance w.buffer.length).buffer.length = 0 := by simp [PipeWriting.advance]
  rw [show fuel + 2 = (fuel + 1) + 1 from rfl, pipeWriteCopy, if_pos hloop,
    hchars, pipeWriteCopy, if_neg (by omega)]
  refine ⟨_, rfl, hempty, rfl, fun hok => ?_⟩
  obtain ⟨hsize, haccess⟩ := hok
  have hin : pipeEnd w.info + w.buffer.length ≤ pipeBufferSize :=
    haccess (pipeEnd w.info, w.buffer.length) (by simp [PipeWriting.advance])
  have hexact : (w.advance w.buffer.length).info.size = w.info.size + w.buffer.length := by
    apply dword_of_lt
    unfold pipeBufferSize at hin hroom
    omega
  omega

/-- A request longer than the ring overruns it, unless it is full or starts at
its first byte. -/
theorem pipeWriteCopy_overrun (fuel : ℕ) (hvalid : w.info.Valid) (hstart : w.info.start ≠ 0)
    (hroom : w.info.size < pipeBufferSize) (hlong : pipeBufferSize < w.buffer.length) :
    ∃ w', pipeWriteCopy (fuel + 3) w = some w' ∧ w'.buffer.length = 0 ∧
      w'.info.readers = w.info.readers ∧ w'.Overrun := by
  by_cases hwrapped : pipeBufferSize ≤ w.info.start + w.info.size
  · exact pipeWriteCopy_wrapped (fuel + 1) hvalid hwrapped hroom (by omega)
  · -- The first chunk reaches the physical end, the second one overruns.
    have hend : pipeEnd w.info = w.info.start + w.info.size := by
      rw [hvalid.end_eq, Nat.mod_eq_of_lt (by omega)]
    have hloop : 0 < w.buffer.length ∧ pipeFree w.info ≠ 0 := by
      rw [hvalid.free_eq]
      omega
    have hchars : pipeWriteChars w.info w.buffer.length =
        pipeBufferSize - (w.info.start + w.info.size) := by
      rw [pipeWriteChars, hvalid.free_eq, pipeMaxWchunk_eq, hend, min_eq_left (by omega)]
      exact if_neg (by omega)
    set chars := pipeBufferSize - (w.info.start + w.info.size) with hset
    have hsize' : (w.advance chars).info.size = pipeBufferSize - w.info.start := by
      have hsum : w.info.size + chars = pipeBufferSize - w.info.start := by omega
      simp only [PipeWriting.advance, hsum]
      apply dword_of_lt
      unfold pipeBufferSize
      omega
    have hstart' : (w.advance chars).info.start = w.info.start := rfl
    have hlength : (w.advance chars).buffer.length = w.buffer.length - chars := length_drop
    rw [pipeWriteCopy, if_pos hloop, hchars]
    exact pipeWriteCopy_wrapped fuel ⟨hvalid.start_lt, by omega⟩ (by omega) (by omega) (by omega)

theorem pipeWrite_overrun (hvalid : info.Valid)
    (hlock : info.lock = 0) (hreaders : info.readers ≠ 0) (nonblock : Bool)
    {buffer : List UInt8} (hlong : pipeBufferSize < buffer.length)
    (hroom : info.size ≠ pipeBufferSize) (hstart : info.start ≠ 0) :
    ∃ r ret, pipeWrite info nonblock buffer = some (r, ret) ∧ r.Overrun := by
  have hsize : info.size < pipeBufferSize :=
    lt_of_le_of_ne hvalid.size_le hroom
  have hempty : buffer.length ≠ 0 := by omega
  have henter : ¬ (pipeFree info < 1 ∨ info.lock ≠ 0) := by
    rw [hvalid.free_eq]
    omega
  obtain ⟨fuel, hfuel⟩ : ∃ fuel, buffer.length + 1 = fuel + 3 :=
    ⟨buffer.length - 2, by unfold pipeBufferSize at hlong; omega⟩
  obtain ⟨w, hrun, hdone, hreaders', hover⟩ := pipeWriteCopy_overrun fuel
    (w := ⟨{ info with lock := dword (info.lock + 1) }, buffer, 0, []⟩)
    ⟨hvalid.start_lt, hvalid.size_le⟩ hstart hsize hlong
  obtain ⟨err, hloop⟩ := pipeWriteLoop_done nonblock buffer.length
    (w := { w with info := { w.info with lock := dwordSub w.info.lock 1 } })
    (.inl hdone) (by simpa [hreaders'] using hreaders)
  rw [pipeWrite, if_neg hreaders, if_neg hlong.not_ge,
    show buffer.length + 2 = (buffer.length + 1) + 1 from rfl]
  dsimp only
  rw [pipeWriteLoop, if_neg hempty, if_neg henter]
  simp only [hfuel, hrun, Option.bind_some]
  rw [← hfuel, hloop]
  exact ⟨_, _, rfl, hover⟩

/-! ## Runs -/

/-- Between two calls the pipe is unlocked and its ring is consistent. -/
structure PipeInv : Prop where
  valid : s.info.Valid
  lock : s.info.lock = 0
  readers : s.info.readers ≠ 0
  inRing : ∀ access ∈ s.accesses, InRing access
  fifo : s.delivered ++ s.info.contents = s.accepted

variable {s : PipeSystem} {readers : ℕ} {op : PipeOp}

theorem PipeInv.lossless (h : PipeInv s) : PipeLossless s :=
  ⟨h.valid.size_le, h.inRing, h.fifo⟩

theorem pipeInv_initial (base : ℕ → UInt8) (h : readers ≠ 0) :
    PipeInv (PipeSystem.initial base readers) where
  valid := ⟨by norm_num [PipeSystem.initial, pipeBufferSize],
    by norm_num [PipeSystem.initial]⟩
  lock := rfl
  readers := h
  inRing := by simp [PipeSystem.initial]
  fifo := rfl

theorem PipeInv.step (h : PipeInv s)
    (hfits : op.Fits s) : ∃ s', pipeStep s op = some s' ∧ PipeInv s' := by
  cases op with
  | read nonblock count =>
    obtain ⟨r, hrun, hcontents, hvalid, hlock, hreaders, haccess⟩ :=
      pipeRead_spec h.valid h.lock nonblock count
    refine ⟨_, by rw [pipeStep, hrun, Option.map_some], hvalid, hlock, ?_, ?_, ?_⟩
    · rw [hreaders]
      exact h.readers
    · exact forall_mem_append.mpr ⟨h.inRing, haccess⟩
    · rw [append_assoc, hcontents, h.fifo]
  | write nonblock buffer =>
    obtain ⟨r, ret, hrun, hcontents, hvalid, hlock, hreaders, haccess⟩ :=
      pipeWrite_spec h.valid h.lock h.readers nonblock buffer hfits
    refine ⟨_, by rw [pipeStep, hrun, Option.map_some], hvalid, hlock, ?_, ?_, ?_⟩
    · rw [hreaders]
      exact h.readers
    · exact forall_mem_append.mpr ⟨h.inRing, haccess⟩
    · rw [hcontents, ← append_assoc, h.fifo]

theorem PipeInv.overrun (h : PipeInv s) (hfits : ¬ op.Fits s) :
    ∃ s', pipeStep s op = some s' ∧ ¬ PipeLossless s' := by
  cases op with
  | read nonblock count => exact absurd trivial hfits
  | write nonblock buffer =>
    have hcases : pipeBufferSize < buffer.length ∧
        s.info.size ≠ pipeBufferSize ∧ s.info.start ≠ 0 := by
      simpa [PipeOp.Fits, not_or] using hfits
    obtain ⟨r, ret, hrun, hover⟩ := pipeWrite_overrun h.valid h.lock
      h.readers nonblock hcases.1 hcases.2.1 hcases.2.2
    refine ⟨_, by rw [pipeStep, hrun, Option.map_some], fun hlossless => ?_⟩
    exact hover ⟨hlossless.size_le, fun access hmem =>
      hlossless.inRing access (mem_append_right _ hmem)⟩

theorem pipeInv_of_reach {base : ℕ → UInt8} (hreaders : readers ≠ 0)
    (h : Reach pipeStep (fun s op => op.Legal s ∧ op.Fits s)
      (PipeSystem.initial base readers) s) : PipeInv s := by
  apply h.invariant (pipeInv_initial base hreaders)
  intro s op s' hs hop hs'
  obtain ⟨s'', hs'', hinv⟩ := hs.step hop.2
  rw [hs''] at hs'
  exact Option.some.inj hs' ▸ hinv

/-- In every run of reads and of writes that fit, the pipe is a lossless queue
in its ring.  Every call returns, and keeps this up exactly when it fits. -/
theorem pipe_lossless (base : ℕ → UInt8) {readers : ℕ} (hreaders : readers ≠ 0) {s : PipeSystem}
    (h : Reach pipeStep (fun s op => op.Legal s ∧ op.Fits s) (PipeSystem.initial base readers) s) :
    PipeLossless s ∧ ∀ op, op.Legal s → ∃ s', pipeStep s op = some s' ∧
      (PipeLossless s' ↔ op.Fits s) := by
  have hinv : PipeInv s := pipeInv_of_reach hreaders h
  refine ⟨hinv.lossless, fun op _ => ?_⟩
  by_cases hfits : op.Fits s
  · obtain ⟨s', hs', hinv'⟩ := hinv.step hfits
    exact ⟨s', hs', iff_of_true hinv'.lossless hfits⟩
  · obtain ⟨s', hs', hlossy⟩ := hinv.overrun hfits
    exact ⟨s', hs', iff_of_false hlossy hfits⟩

/-- Three bytes are written, two are read and one stays in the ring. -/
theorem pipe_lossless_three :
    ∃ s, Reach pipeStep (fun s op => op.Legal s ∧ op.Fits s) (PipeSystem.initial (fun _ => 0) 1) s ∧
      s.delivered = [7, 8] ∧ s.accepted = [7, 8, 9] ∧ PipeLossless s := by
  obtain ⟨s, hreach, hdelivered, haccepted⟩ := exists_reach pipeStep
    (fun s op => op.Legal s ∧ op.Fits s) (PipeSystem.initial (fun _ => 0) 1)
    [.write true [7, 8, 9], .read true 2]
    (fun s => s.delivered = [7, 8] ∧ s.accepted = [7, 8, 9]) (by decide)
  exact ⟨s, hreach, hdelivered, haccepted, (pipe_lossless (fun _ => 0) (by decide) hreach).1⟩

/-- After one byte has been written and read, a write of 5000 bytes overruns
the ring. -/
theorem pipe_write_5000_overruns :
    ∃ s, Reach pipeStep (fun s op => op.Legal s)
      (PipeSystem.initial (fun _ => 0) 1) s ∧ ¬ PipeLossless s := by
  obtain ⟨s, hreach, hstart, hsize⟩ := exists_reach pipeStep (fun s op => op.Legal s ∧ op.Fits s)
    (PipeSystem.initial (fun _ => 0) 1) [.write true [7], .read true 1]
    (fun s => s.info.start = 1 ∧ s.info.size = 0) (by decide)
  have hlength : (replicate 5000 (7 : UInt8)).length = 5000 :=
    length_replicate
  have hlong : ¬ (PipeOp.write true (replicate 5000 7)).Fits s := by
    simp only [PipeOp.Fits, hlength, hstart, hsize, pipeBufferSize]
    omega
  obtain ⟨s', hs', hlossy⟩ :=
    (pipeInv_of_reach (by decide) hreach).overrun hlong
  refine ⟨s', Reach.tail _ (hreach.mono fun _ _ hop => hop.1) ?_ hs', hlossy⟩
  simp only [PipeOp.Legal, hlength]
  norm_num

end Whitix.Pipe
