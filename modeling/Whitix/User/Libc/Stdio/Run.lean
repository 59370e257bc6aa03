import Whitix.User.Libc.Stdio.Model

/-!
# Buffered streams and one position

What a stream has read ahead is what follows the position in the file.  This is
enough for reads, and for seeks that go forward in the buffer.  Seeks that go back
need that the bytes in front of the pointer are those in front of the position.
Filling the buffer makes it so; a read that ends at the end of the file moves the
position and not the pointer, and so does a write, which goes to the offset of the
kernel.
-/

namespace Whitix.Stdio

open List Option

/-! ## Calls and answers -/

/-- The calls of a correct program: `ungetc` follows an `fgetc` that has returned a
byte, and `fseek` goes to a position that is not negative. -/
def Legal (l : Logical) : Op → Prop
  | .ungetc => l.last ≠ none
  | .fseek offset .set => 0 ≤ offset
  | .fseek offset .cur => 0 ≤ l.pos + offset
  | _ => True

instance (l : Logical) (op : Op) : Decidable (Legal l op) := by
  unfold Legal
  split <;> infer_instance

def LegalRun (l : Logical) : List Op → Prop
  | [] => True
  | op :: ops => Legal l op ∧ LegalRun (l.step op).2 ops

instance decidableLegalRun : ∀ (ops : List Op) (l : Logical), Decidable (LegalRun l ops)
  | [], _ => isTrue trivial
  | op :: ops, l =>
    have := decidableLegalRun ops
    inferInstanceAs (Decidable (Legal l op ∧ LegalRun (l.step op).2 ops))

/-- The stream answers like a file with one position, and leaves the same
contents. -/
def Alike (content : List UInt8) (buf : ℕ → UInt8) (ops : List Op) : Prop :=
  (Stream.run ⟨fopen content buf, none⟩ ops).map
      (fun (answers, s) => (answers, s.file.kernel.content)) =
    some ((Logical.run ⟨content, 0, none⟩ ops).1, (Logical.run ⟨content, 0, none⟩ ops).2.content)

instance (content : List UInt8) (buf : ℕ → UInt8) (ops : List Op) :
    Decidable (Alike content buf ops) := by
  unfold Alike
  infer_instance

/-! ## The conditions -/

/-- Whether the buffer serves a seek to a position. -/
def File.Serves (file : File) (target : ℤ) : Prop :=
  file.position - target ≤ file.ptr ∧ target - file.position ≤ file.count

instance (file : File) (target : ℤ) : Decidable (file.Serves target) := by
  unfold File.Serves
  infer_instance

def readShifts (file : File) (shifted : Bool) (totalSize : ℕ) : Bool :=
  let left := file.kernel.content.length - file.position
  if totalSize ≤ file.count then shifted
  else if totalSize ≤ left then false
  else shifted || decide (0 < left)

/-- Whether the position has moved without the pointer since the buffer was filled or
given up: by a read that has ended at the end of the file after some bytes, or by a
write. -/
def shiftedBy (file : File) (shifted : Bool) : Op → Bool
  | .fread size count => readShifts file shifted (size * count)
  | .fgetc => readShifts file shifted 1
  | .fseek offset .set => shifted && decide (file.error = false ∧ file.Serves offset)
  | .fseek offset .cur =>
    shifted && decide (file.error = false ∧ file.Serves (offset + file.position))
  | .fwrite _ size count => shifted || decide (0 < size * count)
  | .ungetc | .ftell => shifted

/-- The buffer serves no seek that goes back after a shift. -/
def SeekMeets (file : File) (shifted : Bool) (offset : ℤ) : Whence → Prop
  | .set => file.error = false → file.Serves offset → offset < file.position → shifted = false
  | .cur =>
    if file.error then file.count = 0
    else file.Serves (offset + file.position) → offset < 0 → shifted = false

instance (file : File) (shifted : Bool) (offset : ℤ) (whence : Whence) :
    Decidable (SeekMeets file shifted offset whence) := by
  unfold SeekMeets
  split <;> infer_instance

/-- The elements have a size, and their number of bytes is an `int`; a byte that is
put back is a positive `char`; the buffer serves no seek that goes back after a shift,
and a seek relative to the position after an error finds no bytes that have been read
ahead; nor does a write. -/
def Meets (s : Stream) (shifted : Bool) : Op → Prop
  | .fread size count => 0 < size ∧ size * count < 0x80000000
  | .ungetc => ∀ c ∈ s.last, c < 0x80
  | .fseek offset whence => SeekMeets s.file shifted offset whence
  | .fwrite _ size count =>
    size * count = 0 ∨ s.file.count = 0 ∧ size * count < 0x80000000
  | _ => True

instance (s : Stream) (shifted : Bool) : (op : Op) → Decidable (Meets s shifted op)
  | .fread _ _ => inferInstanceAs (Decidable (_ ∧ _))
  | .fgetc | .ftell => isTrue trivial
  | .ungetc => inferInstanceAs (Decidable (∀ c ∈ s.last, c < 0x80))
  | .fseek _ _ => inferInstanceAs (Decidable (SeekMeets _ _ _ _))
  | .fwrite _ _ _ => inferInstanceAs (Decidable (_ ∨ _))

def MeetsRun (s : Stream) (shifted : Bool) : List Op → Prop
  | [] => True
  | op :: ops => Meets s shifted op ∧
    ∀ r ∈ s.step op, MeetsRun r.2 (shiftedBy s.file shifted op) ops

instance decidableMeetsRun :
    ∀ (ops : List Op) (s : Stream) (shifted : Bool), Decidable (MeetsRun s shifted ops)
  | [], _, _ => isTrue trivial
  | op :: ops, s, shifted =>
    have := decidableMeetsRun ops
    inferInstanceAs (Decidable (Meets s shifted op ∧
      ∀ r ∈ s.step op, MeetsRun r.2 (shiftedBy s.file shifted op) ops))

/-! ## Reading ahead -/

/-- What has been read ahead is what follows the position. -/
structure Synced (content : List UInt8) (file : File) : Prop where
  kernel : file.kernel.content = content
  offset : file.kernel.offset = file.position + file.count
  ahead : ∀ i < file.count, content[file.position + i]? = some (file.buf (file.ptr + i))

/-- The bytes in front of the pointer are those in front of the position. -/
structure Aligned (content : List UInt8) (file : File) : Prop where
  ptr_le : file.ptr ≤ file.position
  behind : ∀ i < file.ptr, content[file.position - file.ptr + i]? = some (file.buf i)

theorem File.length_bytes (file : File) (size : ℕ) : (file.bytes size).length = size := by
  unfold File.bytes
  rw [length_map, length_range]

variable {content : List UInt8} {file : File}

variable {size count : ℕ}

theorem Synced.bytes (h : Synced content file) (hsize : size ≤ file.count) :
    file.bytes size = (content.drop file.position).take size := by
  apply ext_getElem?
  intro i
  unfold File.bytes
  rw [getElem?_map, getElem?_take, getElem?_drop]
  by_cases hi : i < size
  · rw [getElem?_range hi, if_pos hi, h.ahead i (by omega)]
    rfl
  · rw [getElem?_eq_none (by rw [length_range]; omega), if_neg hi]
    rfl

theorem Synced.consume (h : Synced content file) (hsize : size ≤ file.count) :
    Synced content (file.consume size) where
  kernel := h.kernel
  offset := by
    have hoffset := h.offset
    change file.kernel.offset = file.position + size + (file.count - size)
    omega
  ahead i hi := by
    change i < file.count - size at hi
    have hahead := h.ahead (size + i) (by omega)
    rwa [← Nat.add_assoc, ← Nat.add_assoc] at hahead

theorem Aligned.of_ptr_eq_zero (h : file.ptr = 0) : Aligned content file :=
  ⟨h ▸ Nat.zero_le _, fun i hi => absurd (h ▸ hi) (Nat.not_lt_zero i)⟩

/-- The buffer has the bytes of the file from `ptr` bytes in front of the position on. -/
theorem Aligned.byte (h : Aligned content file) (hsynced : Synced content file) {i : ℕ}
    (hi : i < file.ptr + file.count) :
    content[file.position - file.ptr + i]? = some (file.buf i) := by
  have hle := h.ptr_le
  by_cases hbehind : i < file.ptr
  · exact h.behind i hbehind
  · have hahead := hsynced.ahead (i - file.ptr) (by omega)
    rwa [show file.position + (i - file.ptr) = file.position - file.ptr + i by omega,
      show file.ptr + (i - file.ptr) = i by omega] at hahead

theorem Aligned.consume (h : Aligned content file) (hsynced : Synced content file)
    (hsize : size ≤ file.count) : Aligned content (file.consume size) where
  ptr_le := Nat.add_le_add_right h.ptr_le size
  behind i hi := by
    change i < file.ptr + size at hi
    change content[file.position + size - (file.ptr + size) + i]? = some (file.buf i)
    rw [Nat.add_sub_add_right]
    exact h.byte hsynced (by omega)

theorem Synced.fillBuffer (hcontent : file.kernel.content = content)
    (hoffset : file.kernel.offset = file.position) :
    let filled := fillBuffer file
    Synced content filled.2 ∧ filled.2.position = file.position ∧ filled.2.error = file.error ∧
      (filled.1 = true → content.length ≤ file.position ∧
        (Aligned content file → Aligned content filled.2)) ∧
      (filled.1 = false → 0 < filled.2.count ∧ filled.2.ptr = 0) := by
  subst hcontent
  unfold Stdio.fillBuffer sysRead
  rw [hoffset]
  generalize hbytes : (file.kernel.content.drop file.position).take bufsiz = bytes
  have hlength : bytes.length = min bufsiz (file.kernel.content.length - file.position) := by
    rw [← hbytes, length_take, length_drop]
  by_cases hnil : bytes = []
  · rw [if_pos hnil]
    subst hnil
    refine ⟨⟨rfl, rfl, nofun⟩, rfl, rfl, fun _ => ⟨?_, fun h => ⟨h.ptr_le, h.behind⟩⟩, nofun⟩
    have hzero : bufsiz ≠ 0 := by decide
    rw [length_nil] at hlength
    omega
  · rw [if_neg hnil]
    have hpos : 0 < bytes.length := length_pos_iff.mpr hnil
    refine ⟨⟨rfl, rfl, fun i hi => ?_⟩, rfl, rfl, nofun, fun _ => ⟨hpos, rfl⟩⟩
    change i < bytes.length at hi
    change file.kernel.content[file.position + i]? = some (bytes.getD (0 + i) (file.buf (0 + i)))
    have hget : bytes[i]? = file.kernel.content[file.position + i]? := by
      rw [← hbytes, getElem?_take, if_pos (by omega), getElem?_drop]
    rw [Nat.zero_add, getD_eq_getElem?_getD, ← hget, getElem?_eq_getElem hi, getD_some]

/-- What the loop of `fread` does. -/
structure Reads (content : List UInt8) (file : File) (totalSize : ℕ) (full : Bool)
    (bytes : List UInt8) (file' : File) : Prop where
  copied : bytes = (content.drop file.position).take totalSize
  position : file'.position = file.position + bytes.length
  synced : Synced content file'
  error : file'.error = file.error
  complete : full = true → bytes.length = totalSize
  short : full = false → totalSize = 0 ∨ bytes.length < totalSize
  last : full = true → 0 < file'.ptr ∧ 0 < file'.position ∧
    content[file'.position - 1]? = some (file'.buf (file'.ptr - 1))
  kept : Aligned content file → totalSize ≤ file.count ∨ bytes = [] → Aligned content file'
  refilled : file.count < totalSize → full = true → Aligned content file'

theorem Synced.reads (h : Synced content file) (hsize : size ≤ file.count) (hpos : 0 < size) :
    Reads content file size true (file.bytes size) (file.consume size) where
  copied := h.bytes hsize
  position := by rw [File.length_bytes]; rfl
  synced := h.consume hsize
  error := rfl
  complete _ := file.length_bytes size
  short := nofun
  last _ := by
    have hahead := h.ahead (size - 1) (by omega)
    change 0 < file.ptr + size ∧ 0 < file.position + size ∧
      content[file.position + size - 1]? = some (file.buf (file.ptr + size - 1))
    rw [Nat.add_sub_assoc hpos, Nat.add_sub_assoc hpos]
    exact ⟨by omega, by omega, hahead⟩
  kept haligned _ := haligned.consume h hsize
  refilled hlt := absurd hsize (Nat.not_le_of_lt hlt)

theorem Synced.reads_nil (h : Synced content file) (hend : content.length ≤ file.position)
    (hpos : 0 < size) : Reads content file size false [] file where
  copied := by rw [drop_eq_nil_of_le hend, take_nil]
  position := rfl
  synced := h
  error := rfl
  complete := nofun
  short _ := .inr hpos
  last := nofun
  kept haligned _ := haligned
  refilled _ := nofun

theorem Reads.after {filled file' : File} {totalSize : ℕ} {full : Bool} {bytes : List UInt8}
    (hsynced : Synced content file) (hcount : file.count < totalSize)
    (hposition : filled.position = file.position + file.count) (herror : filled.error = file.error)
    (haligned : full = true ∨ file.count = 0 ∧ Aligned content file → Aligned content filled)
    (h : Reads content filled (totalSize - file.count) full bytes file') :
    Reads content file totalSize full (file.bytes file.count ++ bytes) file' := { h with
  copied := by
    rw [hsynced.bytes (Nat.le_refl _), h.copied, hposition]
    conv_rhs => rw [← Nat.add_sub_cancel' (Nat.le_of_lt hcount)]
    rw [take_add, drop_drop]
  position := by rw [h.position, hposition, length_append, File.length_bytes, Nat.add_assoc]
  error := h.error.trans herror
  complete hfull := by
    have hrest := h.complete hfull
    rw [length_append, File.length_bytes]
    omega
  short hfull := by
    have hrest := h.short hfull
    rw [length_append, File.length_bytes]
    omega
  kept hfile hnil := by
    obtain ⟨hfirst, hrest⟩ := append_eq_nil_iff.mp (hnil.resolve_left (Nat.not_le_of_lt hcount))
    have hzero : file.count = 0 := by rw [← file.length_bytes file.count, hfirst, length_nil]
    exact h.kept (haligned (.inr ⟨hzero, hfile⟩)) (.inr hrest)
  refilled _ hfull := (Nat.lt_or_ge filled.count (totalSize - file.count)).elim
    (h.refilled · hfull) fun hle => h.kept (haligned (.inl hfull)) (.inl hle) }

theorem Synced.freadLoop {fuel : ℕ} :
    ∀ {file : File} {totalSize : ℕ} (p : List UInt8), Synced content file →
      totalSize + (if file.count = 0 then 1 else 0) < fuel →
      ∃ full bytes file', freadLoop fuel file totalSize p = some (full, p ++ bytes, file') ∧
        Reads content file totalSize full bytes file' := by
  induction fuel with
  | zero => exact fun _ _ hfuel => absurd hfuel (Nat.not_lt_zero _)
  | succ fuel ih =>
    intro file totalSize p h hfuel
    rw [Stdio.freadLoop]
    by_cases htotal : totalSize = 0
    · rw [if_pos htotal]
      subst htotal
      exact ⟨false, [], file, by rw [append_nil], rfl, rfl, h, rfl, nofun,
        fun _ => .inl rfl, nofun, fun haligned _ => haligned, nofun⟩
    rw [if_neg htotal]
    by_cases hcount : file.count < totalSize
    · rw [if_pos hcount]
      obtain ⟨hsynced, hposition, herror, heof, hmore⟩ :=
        @Synced.fillBuffer content
          { file with position := file.position + file.count } h.kernel h.offset
      generalize Stdio.fillBuffer
        { file with position := file.position + file.count } =
          filled at hsynced hposition herror heof hmore
      obtain ⟨ended, filled⟩ := filled
      cases ended with
      | true =>
        obtain ⟨hend, hkept⟩ := heof rfl
        have haligned : false = true ∨ file.count = 0 ∧ Aligned content file →
            Aligned content filled := by
          rintro (hfull | ⟨hzero, hfile⟩)
          · cases hfull
          · rw [hzero] at hkept
            exact hkept { hfile with }
        rw [← append_nil (p ++ file.bytes file.count), append_assoc]
        exact ⟨false, _, filled, rfl, (hsynced.reads_nil (hposition ▸ hend) (by omega)).after h
          hcount hposition herror haligned⟩
      | false =>
        obtain ⟨hpos, hptr⟩ := hmore rfl
        have hafter : ∀ {full bytes file'}, Reads content filled
            (totalSize - file.count) full bytes file' →
            Reads content file totalSize full (file.bytes file.count ++ bytes) file' :=
          fun hreads => hreads.after h hcount hposition herror fun _ => .of_ptr_eq_zero hptr
        rw [if_neg Bool.false_ne_true]
        by_cases henough : totalSize - file.count ≤ filled.count
        · rw [if_pos henough, append_assoc]
          exact ⟨true, _, _, rfl, hafter (hsynced.reads henough (by omega))⟩
        · rw [if_neg henough]
          have hfuel' : totalSize - file.count + (if filled.count = 0 then 1 else 0) < fuel := by
            rw [if_neg (Nat.ne_of_gt hpos)]
            split_ifs at hfuel <;> omega
          obtain ⟨full, bytes, file', hloop, hreads⟩ :=
            ih (p ++ file.bytes file.count) hsynced hfuel'
          exact ⟨full, _, file', by rw [hloop, append_assoc], hafter hreads⟩
    · rw [if_neg hcount]
      exact ⟨true, _, _, rfl, h.reads (by omega) (by omega)⟩

theorem Synced.fread (h : Synced content file) (hsize : 0 < size)
    (htotal : size * count < 0x80000000) :
    ∃ full bytes file', Reads content file (size * count) full bytes file' ∧
      Stdio.fread file size count = some (bytes, bytes.length / size, file') := by
  have hmod : size * count % 0x100000000 = size * count :=
    Nat.mod_eq_of_lt (by omega)
  have hfuel : size * count + (if file.count = 0 then 1 else 0) < size * count + 2 := by
    split_ifs <;> omega
  obtain ⟨full, bytes, file', hloop, hreads⟩ := h.freadLoop [] hfuel
  refine ⟨full, bytes, file', hreads, ?_⟩
  unfold Stdio.fread
  dsimp only
  rw [hmod, hloop, nil_append]
  cases full with
  | true =>
    rw [hreads.complete rfl, Nat.mul_div_cancel_left _ hsize]
  | false =>
    dsimp only
    rw [if_neg (Nat.ne_of_gt hsize), hreads.position, Nat.add_sub_cancel_left]

theorem Reads.aligned {file' : File} {totalSize : ℕ} {full shifted : Bool} {bytes : List UInt8}
    (h : Reads content file totalSize full bytes file') (hsynced : Synced content file)
    (haligned : shifted = false → Aligned content file)
    (hshifts : readShifts file shifted totalSize = false) : Aligned content file' := by
  have hlength : bytes.length = min totalSize (content.length - file.position) := by
    rw [h.copied, length_take, length_drop]
  unfold readShifts at hshifts
  rw [hsynced.kernel] at hshifts
  dsimp only at hshifts
  split_ifs at hshifts with hbuffer hleft
  · exact h.kept (haligned hshifts) (.inl hbuffer)
  · refine h.refilled (Nat.lt_of_not_le hbuffer) (Bool.not_eq_false _ ▸ fun hfull => ?_)
    have hshort := h.short hfull
    omega
  · rw [Bool.or_eq_false_iff, decide_eq_false_iff_not] at hshifts
    exact h.kept (haligned hshifts.1) (.inr (length_eq_zero_iff.mp (by omega)))

/-! ## The other calls -/

theorem Synced.seekBuffer {target : ℤ} (h : Synced content file) (hnonneg : 0 ≤ target)
    (hserves : file.Serves target) (hbehind : target < file.position → Aligned content file) :
    Synced content { file with
      ptr := (file.ptr + (target - file.position)).toNat
      count := (file.count + (file.position - target)).toNat
      position := target.toNat } where
  kernel := h.kernel
  offset := by
    have hoffset := h.offset
    obtain ⟨hback, hahead⟩ := hserves
    dsimp only
    omega
  ahead i hi := by
    obtain ⟨hback, hahead⟩ := hserves
    dsimp only at hi ⊢
    by_cases hfront : target.toNat + i < file.position
    · obtain ⟨hle, hbehind⟩ := hbehind (by omega)
      have hbyte := hbehind (file.ptr + (target.toNat + i) - file.position) (by omega)
      rw [show file.position - file.ptr + (file.ptr + (target.toNat + i) - file.position) =
        target.toNat + i by omega] at hbyte
      rw [hbyte]
      congr 2
      omega
    · have hbyte := h.ahead (target.toNat + i - file.position) (by omega)
      rw [show file.position + (target.toNat + i - file.position) =
        target.toNat + i by omega] at hbyte
      rw [hbyte]
      congr 2
      omega

theorem Aligned.seekBuffer {target : ℤ} (h : Aligned content file) (hnonneg : 0 ≤ target)
    (hserves : file.Serves target) (hsynced : Synced content file) :
    Aligned content { file with
      ptr := (file.ptr + (target - file.position)).toNat
      count := (file.count + (file.position - target)).toNat
      position := target.toNat } where
  ptr_le := by
    have hle := h.ptr_le
    dsimp only
    omega
  behind i hi := by
    have hle := h.ptr_le
    obtain ⟨hback, hahead⟩ := hserves
    dsimp only at hi ⊢
    rw [show target.toNat - (file.ptr + (target - file.position)).toNat + i =
      file.position - file.ptr + i by omega]
    exact h.byte hsynced (by omega)

theorem Synced.seekKernel (offset : ℤ) (whence : Whence) (h : Synced content file) :
    Synced content (seekKernel file offset whence) where
  kernel := by cases whence <;> exact h.kernel
  offset := rfl
  ahead := nofun

/-- The stream and the file with one position. -/
structure Sim (s : Stream) (shifted : Bool) (l : Logical) : Prop where
  synced : Synced l.content s.file
  position : s.file.position = l.pos
  last : s.last = l.last
  back : ∀ c, l.last = some c → 0 < s.file.ptr ∧ 0 < l.pos ∧
    s.file.buf (s.file.ptr - 1) = c ∧ l.content[l.pos - 1]? = some c
  aligned : shifted = false → Aligned l.content s.file

theorem sim_fopen (content : List UInt8) (buf : ℕ → UInt8) :
    Sim ⟨fopen content buf, none⟩ false ⟨content, 0, none⟩ :=
  ⟨⟨rfl, rfl, nofun⟩, rfl, rfl, nofun, fun _ => .of_ptr_eq_zero rfl⟩

theorem byteOf_toNat (c : UInt8) : byteOf c.toNat = some c := by
  have hne : (c.toNat : ℤ) ≠ -1 := by omega
  rw [byteOf, if_neg hne, Int.toNat_natCast, UInt8.ofNat_toNat]

section Step

variable {s : Stream} {shifted : Bool} {l : Logical} (h : Sim s shifted l)

include h

theorem Sim.fread (hmeets : Meets s shifted (.fread size count)) :
    ∃ s', s.step (.fread size count) = some ((l.step (.fread size count)).1, s') ∧
      Sim s' (shiftedBy s.file shifted (.fread size count)) (l.step (.fread size count)).2 := by
  obtain ⟨full, bytes, file', hreads, hfread⟩ := h.synced.fread hmeets.1 hmeets.2
  have haligned := hreads.aligned h.synced h.aligned
  have hcopied := hreads.copied
  have hposition := hreads.position
  rw [h.position] at hcopied hposition
  subst hcopied
  refine ⟨⟨file', none⟩, ?_, hreads.synced, hposition, rfl, nofun, haligned⟩
  rw [Stream.step, hfread]
  rfl

theorem Sim.fgetc :
    ∃ s', s.step .fgetc = some ((l.step .fgetc).1, s') ∧
      Sim s' (shiftedBy s.file shifted .fgetc) (l.step .fgetc).2 := by
  obtain ⟨full, bytes, file', hreads, hfread⟩ :=
    @Synced.fread l.content s.file 1 1 h.synced (by decide) (by decide)
  have haligned := hreads.aligned h.synced h.aligned
  have hcopied := hreads.copied
  have hposition := hreads.position
  rw [h.position] at hcopied hposition
  rw [take_one, head?_drop] at hcopied
  rw [Stream.step, Logical.step, Stdio.fgetc, hfread]
  cases hbyte : l.content[l.pos]? with
  | none =>
    rw [hbyte] at hcopied
    cases hcopied
    exact ⟨_, rfl, { hreads.synced with }, hposition, rfl, nofun,
      fun hshifts => { haligned hshifts with }⟩
  | some c =>
    rw [hbyte] at hcopied
    cases hcopied
    obtain rfl : full = true := by
      by_contra hfull
      exact (hreads.short (Bool.eq_false_iff.mpr hfull)).elim nofun (Nat.lt_irrefl 1)
    obtain ⟨hptr, hpos, hlast⟩ := hreads.last rfl
    rw [hposition] at hpos hlast
    have hc : l.content[l.pos + 1 - 1]? = some c := hbyte
    refine ⟨⟨file', some c⟩, ?_, hreads.synced, hposition, rfl, ?_, haligned⟩
    · dsimp only [toList_some, length_singleton, map_some, headD_cons]
      rw [if_neg Nat.one_ne_zero, if_neg (fun hne => hne rfl)]
      rw [byteOf_toNat]
    · rintro _ ⟨⟩
      exact ⟨hptr, hpos, some.inj (hlast.symm.trans hc), hc⟩

theorem Sim.ungetc (hlegal : Legal l .ungetc) (hmeets : Meets s shifted .ungetc) :
    ∃ s', s.step .ungetc = some ((l.step .ungetc).1, s') ∧ Sim s' shifted (l.step .ungetc).2 := by
  obtain ⟨c, hc⟩ := ne_none_iff_exists'.mp hlegal
  obtain ⟨hptr, hpos, hbuf, hbyte⟩ := h.back c hc
  have hchar : signedChar c = (c.toNat : ℤ) % 256 := by
    have hlt := c.toNat_lt
    rw [signedChar, if_pos (hmeets c (h.last.trans hc))]
    omega
  rw [Stream.step, Logical.step, h.last, hc]
  dsimp only [bind_some]
  rw [Stdio.ungetc, if_neg (Nat.ne_of_gt hptr), hbuf, if_pos ⟨by omega, hchar⟩]
  refine ⟨_, rfl, ⟨h.synced.kernel, ?_, ?_⟩, ?_, rfl, nofun, fun hshifted => ?_⟩
  · have hoffset := h.synced.offset
    have hposition := h.position
    dsimp only
    omega
  · intro i hi
    dsimp only at hi ⊢
    rw [h.position]
    cases i with
    | zero => rw [Nat.add_zero, Nat.add_zero, hbuf, hbyte]
    | succ i =>
      have hahead := h.synced.ahead i (Nat.lt_of_succ_lt_succ hi)
      rw [h.position] at hahead
      rw [show l.pos - 1 + (i + 1) = l.pos + i by omega,
        show s.file.ptr - 1 + (i + 1) = s.file.ptr + i by omega, hahead]
  · exact congrArg (· - 1) h.position
  · obtain ⟨hle, hbehind⟩ := h.aligned hshifted
    refine ⟨Nat.sub_le_sub_right hle 1, fun i hi => ?_⟩
    dsimp only at hi ⊢
    rw [show s.file.position - 1 - (s.file.ptr - 1) = s.file.position - s.file.ptr by omega]
    exact hbehind i (by omega)

theorem Sim.fwrite {buffer : ℕ → UInt8} (hmeets : Meets s shifted (.fwrite buffer size count)) :
    ∃ s', s.step (.fwrite buffer size count) = some ((l.step (.fwrite buffer size count)).1, s') ∧
      Sim s' (shiftedBy s.file shifted (.fwrite buffer size count))
        (l.step (.fwrite buffer size count)).2 := by
  rw [Stream.step, Logical.step, Stdio.fwrite]
  by_cases hzero : size * count = 0
  · rw [if_pos (Nat.mul_eq_zero.mp hzero), if_pos hzero]
    refine ⟨_, rfl, { h.synced with }, h.position, rfl, nofun, fun hshifts => ?_⟩
    exact { h.aligned (Bool.or_eq_false_iff.mp hshifts).1 with }
  · obtain ⟨hcount, htotal⟩ := hmeets.resolve_left hzero
    have hsize : 0 < size := Nat.pos_of_ne_zero fun hsize =>
      hzero (by rw [hsize, Nat.zero_mul])
    have hoffset := h.synced.offset
    rw [hcount, Nat.add_zero, h.position] at hoffset
    rw [if_neg (fun hnil => hzero (Nat.mul_eq_zero.mpr hnil)), if_neg hzero,
      Nat.mod_eq_of_lt (by omega)]
    dsimp only
    rw [length_map, length_range, Nat.mul_div_cancel_left _ hsize]
    have hshifts : (shifted || decide (0 < size * count)) ≠ false := by
      simp [Nat.pos_of_ne_zero hzero]
    refine ⟨_, rfl, ⟨?_, ?_, ?_⟩, ?_, rfl, nofun, fun h => absurd h hshifts⟩
    · change overwrite s.file.kernel.content s.file.kernel.offset _ = _
      rw [hoffset, h.synced.kernel]
    · change s.file.kernel.offset + _ = s.file.position + _ + s.file.count
      rw [hoffset, hcount, h.position, length_map, length_range, Nat.add_zero]
    · intro i hi
      exact absurd (hcount ▸ hi) (Nat.not_lt_zero i)
    · exact congrArg (· + size * count) h.position

/-- A seek in a stream without an error, to a position in the file. -/
theorem Sim.seek {target : ℤ} {file : File} (hnonneg : 0 ≤ target)
    (hmeets : s.file.Serves target → target < s.file.position → shifted = false)
    (hfile : file = if s.file.Serves target then
        { s.file with
          eof := false
          ptr := (s.file.ptr + (target - s.file.position)).toNat
          count := (s.file.count + (s.file.position - target)).toNat
          position := target.toNat }
      else seekKernel { s.file with eof := false } target .set) :
    Sim ⟨file, none⟩ (shifted && decide (s.file.Serves target))
      { l with pos := target.toNat, last := none } := by
  have hsynced : Synced l.content { s.file with eof := false } := { h.synced with }
  have haligned (hshifted : shifted = false) : Aligned l.content { s.file with eof := false } :=
    { h.aligned hshifted with }
  subst hfile
  by_cases hserves : s.file.Serves target
  · rw [if_pos hserves, decide_eq_true hserves, Bool.and_true]
    exact ⟨hsynced.seekBuffer hnonneg hserves fun hback => haligned (hmeets hserves hback),
      rfl, rfl, nofun, fun hshifted => (haligned hshifted).seekBuffer hnonneg hserves hsynced⟩
  · rw [if_neg hserves]
    exact ⟨hsynced.seekKernel target .set, rfl, rfl, nofun, fun _ => .of_ptr_eq_zero rfl⟩

theorem Sim.fseek {offset : ℤ} {whence : Whence} (hlegal : Legal l (.fseek offset whence))
    (hmeets : Meets s shifted (.fseek offset whence)) :
    ∃ s', s.step (.fseek offset whence) = some ((l.step (.fseek offset whence)).1, s') ∧
      Sim s' (shiftedBy s.file shifted (.fseek offset whence))
        (l.step (.fseek offset whence)).2 := by
  have hsynced : Synced l.content { s.file with eof := false } := { h.synced with }
  cases whence with
  | set =>
    refine ⟨_, rfl, ?_⟩
    by_cases herror : s.file.error = false
    · simp only [shiftedBy, herror, true_and]
      refine h.seek hlegal (hmeets herror) ?_
      rw [Stdio.fseek, if_pos herror]
      rfl
    · rw [Stdio.fseek, if_neg herror]
      exact ⟨hsynced.seekKernel offset .set, rfl, rfl, by rintro _ ⟨⟩, fun _ => .of_ptr_eq_zero rfl⟩
  | cur =>
    have hposition := h.position
    have htarget : l.pos + offset = offset + s.file.position := by
      rw [hposition, Int.add_comm]
    have hnonneg : 0 ≤ offset + s.file.position := htarget ▸ hlegal
    change if s.file.error = true then s.file.count = 0
      else s.file.Serves (offset + s.file.position) → offset < 0 → shifted = false
      at hmeets
    refine ⟨_, rfl, ?_⟩
    by_cases herror : s.file.error = true
    · rw [if_pos herror] at hmeets
      have hoffset := h.synced.offset
      rw [hmeets, Nat.add_zero, hposition] at hoffset
      rw [Stdio.fseek, if_neg (by rw [herror]; decide)]
      refine ⟨hsynced.seekKernel offset .cur, ?_, rfl, by rintro _ ⟨⟩, fun _ => .of_ptr_eq_zero rfl⟩
      change (s.file.kernel.offset + offset).toNat = (l.pos + offset).toNat
      rw [hoffset]
    · rw [if_neg herror] at hmeets
      simp only [shiftedBy, Bool.eq_false_iff.mpr herror, true_and, Logical.step, htarget]
      refine h.seek hnonneg (fun hserves hback => hmeets hserves (by omega)) ?_
      rw [Stdio.fseek, if_pos (Bool.eq_false_iff.mpr herror)]
      rfl

theorem Sim.step {op : Op} (hlegal : Legal l op) (hmeets : Meets s shifted op) :
    ∃ s', s.step op = some ((l.step op).1, s') ∧
      Sim s' (shiftedBy s.file shifted op) (l.step op).2 := by
  cases op with
  | fread => exact h.fread hmeets
  | fgetc => exact h.fgetc
  | ungetc => exact h.ungetc hlegal hmeets
  | fseek => exact h.fseek hlegal hmeets
  | ftell =>
    refine ⟨⟨s.file, none⟩, ?_, h.synced, h.position, rfl, nofun, h.aligned⟩
    rw [Stream.step, ftell, h.position]
    rfl
  | fwrite => exact h.fwrite hmeets

end Step

theorem Sim.run {ops : List Op} {s : Stream} {shifted : Bool} {l : Logical}
    (h : Sim s shifted l) (hlegal : LegalRun l ops) (hmeets : MeetsRun s shifted ops) :
    ∃ s' shifted', s.run ops = some ((l.run ops).1, s') ∧ Sim s' shifted' (l.run ops).2 := by
  induction ops generalizing s shifted l with
  | nil => exact ⟨s, shifted, rfl, h⟩
  | cons op ops ih =>
    obtain ⟨s₁, hstep, hsim⟩ := h.step hlegal.1 hmeets.1
    obtain ⟨s', shifted', hrun, hend⟩ := ih hsim hlegal.2 (hmeets.2 _ hstep)
    refine ⟨s', shifted', ?_, hend⟩
    rw [Stream.run, hstep]
    dsimp only [bind_some]
    rw [hrun]
    rfl

end Whitix.Stdio
