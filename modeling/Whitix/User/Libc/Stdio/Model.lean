import Mathlib.Data.List.Basic
import Mathlib.Data.Int.Notation

/-!
# Buffered streams

`fread`, `fgetc`, `ungetc`, `fseek`, `ftell` and `fwrite` of the C library, over a
file whose system calls act on one offset and do not fail.  The file fits in the
memory, so that no position exceeds an `int`.
-/

namespace Whitix.Stdio

/-! ## The file of the kernel -/

/-- The contents of an open file, and the offset of the kernel. -/
structure KernelFile where
  content : List UInt8
  offset : ℕ

def sysRead (file : KernelFile) (size : ℕ) : List UInt8 × KernelFile :=
  let bytes := (file.content.drop file.offset).take size
  (bytes, { file with offset := file.offset + bytes.length })

/-- The contents after a write.  A gap behind the end is filled with zeros. -/
def overwrite (content : List UInt8) (offset : ℕ) (bytes : List UInt8) : List UInt8 :=
  content.take offset ++ List.replicate (offset - content.length) 0 ++ bytes ++
    content.drop (offset + bytes.length)

def sysWrite (file : KernelFile) (bytes : List UInt8) : KernelFile where
  content := overwrite file.content file.offset bytes
  offset := file.offset + bytes.length

/-- `SEEK_SET` and `SEEK_CUR` -/
inductive Whence where
  | set
  | cur
  deriving DecidableEq

def sysSeek (file : KernelFile) (distance : ℤ) : Whence → KernelFile
  | .set => { file with offset := distance.toNat }
  | .cur => { file with offset := (file.offset + distance).toNat }

/-! ## The streams -/

def bufsiz : ℕ := 2048

/-- A stream with a buffer, and the file behind its descriptor.  The pointer
`ptr` is an offset into the buffer. -/
structure File where
  kernel : KernelFile
  position : ℕ
  buf : ℕ → UInt8
  ptr : ℕ
  count : ℕ
  /-- The flag `FILE_EOF`. -/
  eof : Bool
  /-- The flag `FILE_ERROR`, which is the same bit as `_IONBF`. -/
  error : Bool

/-- `fopen` with the mode `r+`; the buffer is not initialised. -/
def fopen (content : List UInt8) (buf : ℕ → UInt8) : File where
  kernel := ⟨content, 0⟩
  position := 0
  buf := buf
  ptr := 0
  count := 0
  eof := false
  error := false

section

variable (file : File)

/-- Whether the return value is not 0, and the stream. -/
def fillBuffer : Bool × File :=
  let bytes := (sysRead file.kernel bufsiz).1
  let kernel := (sysRead file.kernel bufsiz).2
  if bytes = [] then
    (true, { file with kernel := kernel, eof := true, count := 0 })
  else
    (false, { file with
      kernel := kernel
      eof := false
      buf := fun i => bytes.getD i (file.buf i)
      count := bytes.length
      ptr := 0 })

def File.bytes (size : ℕ) : List UInt8 :=
  (List.range size).map fun i => file.buf (file.ptr + i)

/-- The stream after the last `memcpy` of `fread`. -/
def File.consume (size : ℕ) : File :=
  { file with
    ptr := file.ptr + size
    count := file.count - size
    position := file.position + size }

/-- The loop of `fread`: whether it returns `count`, the bytes copied, and the
stream. -/
def freadLoop : ℕ → File → ℕ → List UInt8 → Option (Bool × List UInt8 × File)
  | 0, _, _, _ => none
  | fuel + 1, file, totalSize, p =>
    if totalSize = 0 then some (false, p, file)
    else if file.count < totalSize then
      let p := p ++ file.bytes file.count
      let totalSize := totalSize - file.count
      -- The pointer stays where it is.
      let filled := fillBuffer { file with position := file.position + file.count }
      if filled.1 then some (false, p, filled.2)
      else if totalSize ≤ filled.2.count then
        some (true, p ++ filled.2.bytes totalSize, filled.2.consume totalSize)
      else freadLoop fuel filled.2 totalSize p
    else some (true, p ++ file.bytes totalSize, file.consume totalSize)

/-- The bytes copied, the return value, and the stream.  It is a fault to divide
by a `size` of 0. -/
def fread (size count : ℕ) : Option (List UInt8 × ℕ × File) :=
  let totalSize := size * count % 0x100000000
  match freadLoop (totalSize + 2) file totalSize [] with
  | none => none
  | some (true, p, file') => some (p, count, file')
  | some (false, p, file') =>
    if size = 0 then none
    else some (p, (file'.position - file.position) / size, file')

def fgetc : Option (ℤ × File) :=
  (fread file 1 1).map fun (p, bytesRead, file) =>
    if bytesRead = 0 then (-1, { file with eof := true })
    else if bytesRead ≠ 1 then (-1, { file with error := true })
    else ((p.headD 0).toNat, file)

def signedChar (c : UInt8) : ℤ :=
  if c < 0x80 then c.toNat else c.toNat - 256

/-- The process exits, or reads in front of the buffer, where there is no
result. -/
def ungetc (c : ℤ) (file : File) : Option (ℤ × File) :=
  if file.ptr = 0 then none
  else if c ≠ -1 ∧ signedChar (file.buf (file.ptr - 1)) = c % 256 then
    some (c, { file with
      ptr := file.ptr - 1
      position := file.position - 1
      count := file.count + 1
      eof := false })
  else if signedChar (file.buf (file.ptr - 1)) ≠ c % 256 then some (-1, file)
  else none

def fwrite (buffer : ℕ → UInt8) (size count : ℕ) (file : File) : ℕ × File :=
  if size = 0 ∨ count = 0 then (0, { file with error := true })
  else
    let bytes := (List.range (size * count % 0x100000000)).map buffer
    (bytes.length / size,
      { file with
        kernel := sysWrite file.kernel bytes
        position := file.position + bytes.length })

def seekKernel (offset : ℤ) (whence : Whence) : File :=
  let kernel := sysSeek file.kernel offset whence
  { file with kernel := kernel, position := kernel.offset, count := 0, ptr := 0 }

def fseek (offset : ℤ) (whence : Whence) : File :=
  let file := { file with eof := false }
  if file.error = false then
    let offset : ℤ :=
      match whence with
      | .set => offset
      | .cur => offset + file.position
    if file.position - offset ≤ file.ptr ∧ offset - file.position ≤ file.count then
      { file with
        ptr := (file.ptr + (offset - file.position)).toNat
        count := (file.count + (file.position - offset)).toNat
        position := offset.toNat }
    else seekKernel file offset .set
  else seekKernel file offset whence

def ftell : ℕ := file.position

end

/-! ## Sequences of calls -/

inductive Op where
  | fread (size count : ℕ)
  | fgetc
  | ungetc
  | fseek (offset : ℤ) (whence : Whence)
  | ftell
  | fwrite (buffer : ℕ → UInt8) (size count : ℕ)

/-- The bytes stored for the caller, and the return value. -/
abbrev Answer := List UInt8 × ℤ

/-- A stream, and the byte that the last call has returned if it was `fgetc`. -/
structure Stream where
  file : File
  last : Option UInt8

def byteOf (c : ℤ) : Option UInt8 := if c = -1 then none else some (.ofNat c.toNat)

/-- A call.  What `ungetc` puts back is the byte that `fgetc` has just returned. -/
def Stream.step (s : Stream) : Op → Option (Answer × Stream)
  | .fread size count => (fread s.file size count).map fun (p, ret, file) =>
    ((p, ret), ⟨file, none⟩)
  | .fgetc => (fgetc s.file).map fun (c, file) => (([], c), ⟨file, byteOf c⟩)
  | .ungetc => s.last.bind fun c => (ungetc c.toNat s.file).map fun (ret, file) =>
    (([], ret), ⟨file, none⟩)
  | .fseek offset whence => some (([], 0), ⟨fseek s.file offset whence, none⟩)
  | .ftell => some (([], ftell s.file), ⟨s.file, none⟩)
  | .fwrite buffer size count =>
    let written := fwrite buffer size count s.file
    some (([], written.1), ⟨written.2, none⟩)

def Stream.run (s : Stream) : List Op → Option (List Answer × Stream)
  | [] => some ([], s)
  | op :: ops => (s.step op).bind fun (answer, s) =>
    (s.run ops).map fun (answers, s) => (answer :: answers, s)

/-! ## One position -/

/-- A file with one position and without a buffer. -/
structure Logical where
  content : List UInt8
  pos : ℕ
  last : Option UInt8

def Logical.step (l : Logical) : Op → Answer × Logical
  | .fread size count =>
    let bytes := (l.content.drop l.pos).take (size * count)
    ((bytes, (bytes.length / size : ℕ)), { l with pos := l.pos + bytes.length, last := none })
  | .fgetc =>
    match l.content[l.pos]? with
    | none => (([], -1), { l with last := none })
    | some c => (([], c.toNat), { l with pos := l.pos + 1, last := some c })
  | .ungetc =>
    match l.last with
    | none => (([], -1), l)
    | some c => (([], c.toNat), { l with pos := l.pos - 1, last := none })
  | .fseek offset .set => (([], 0), { l with pos := offset.toNat, last := none })
  | .fseek offset .cur =>
    (([], 0), { l with pos := (l.pos + offset).toNat, last := none })
  | .ftell => (([], l.pos), { l with last := none })
  | .fwrite buffer size count =>
    if size * count = 0 then (([], 0), { l with last := none })
    else
      (([], count),
        { content := overwrite l.content l.pos
            ((List.range (size * count)).map buffer)
          pos := l.pos + size * count
          last := none })

def Logical.run (l : Logical) : List Op → List Answer × Logical
  | [] => ([], l)
  | op :: ops =>
    let (answer, l) := l.step op
    let (answers, l) := l.run ops
    (answer :: answers, l)

end Whitix.Stdio
