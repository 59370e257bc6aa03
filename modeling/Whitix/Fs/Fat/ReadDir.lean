import Whitix.Fs.Vfs.FillDir

/-!
# Reading FAT directories

`FatReadDir` hands the entries of a directory to `FillDir`, with their long names
if they have any.  The slots of a long name precede the entry itself, the last part
of the name first.  If there is no room for a record, the position goes back by one
entry, which is the beginning of the record only if it has no long name.
-/

namespace Whitix.Fat

open Support List Nat Option Bool UInt8
open Vfs

/-! ## The code -/

abbrev DirEntry := ℕ → UInt8

/-- A directory: its entries, and the sectors they are in.  The size of the node is
the number of the entries. -/
structure FatDir where
  entries : List DirEntry
  bytesPerSector : ℕ
  /-- `FatBlockMap` -/
  blockMap : ℕ → ℕ

section

variable (dir : FatDir) (entry : DirEntry)

/-- `SS_TO_VNUM`, of the sector and the offset that `FatPosToSecOffset` returns. -/
def FatDir.vNum (pos : ℕ) : ℕ :=
  let sec := dir.blockMap (pos * 32 / dir.bytesPerSector)
  let offset := pos % (dir.bytesPerSector / 32)
  (sec <<< 8 ||| (offset &&& 0xFF)) % 0x100000000

def fatCheckSum : UInt8 :=
  (range 11).foldl (fun checkSum i =>
    ((checkSum &&& 1) <<< 7 ||| (checkSum &&& 0xFE) >>> 1) + entry i) 0

/-- The characters of a slot, of which the lower bytes are copied. -/
def slotChars (slot : DirEntry) : List UInt8 :=
  (range 5).map (fun i => slot (1 + i * 2)) ++ (range 6).map (fun i => slot (14 + i * 2)) ++
    (range 2).map (fun i => slot (28 + i * 2))

/-- `longName` from the offset of a slot on.  The characters end where those of the
slot before begin; a slot with the bit 0x40 is followed by a terminator. -/
def putSlot (slot : DirEntry) (longName : List UInt8) : List UInt8 :=
  slotChars slot ++ if slot 0 &&& 0x40 ≠ 0 then 0 :: longName.drop 1 else longName

/-- The result of `FatGetLongName`, with the position after it.  There are 256 bytes
for a name, which is less than 20 slots take. -/
inductive LongName where
  | overrun
  | invalid (pos : ℕ)
  | found (pos : ℕ) (longName : List UInt8)

/-- The loop of `FatGetLongName` with `numSlots` slots to go, and the check of the
entry that follows. -/
def longNameLoop (dir : FatDir) (checkSum : UInt8) : ℕ → ℕ → List UInt8 → DirEntry → LongName
  | 0, pos, longName, entry =>
    if fatCheckSum entry = checkSum then .found pos longName else .invalid pos
  | numSlots + 1, pos, longName, slot =>
    let longName := putSlot slot longName
    let entry := dir.entries[pos]?.getD slot
    if numSlots ≠ 0 ∧ (entry 11 ≠ 0x0F ∨ (entry 0 &&& 0xBF).toNat ≠ numSlots ∨
        entry 13 ≠ checkSum) then .invalid (pos + 1)
    else longNameLoop dir checkSum numSlots (pos + 1) longName entry

def fatGetLongName (pos : ℕ) (slot : DirEntry) : LongName :=
  let numSlots := (slot 0 &&& 0xBF).toNat
  if slot 0 &&& 0x40 = 0 ∨ numSlots = 0 ∨ 20 < numSlots then .invalid pos
  else if numSlots = 20 then .overrun
  else longNameLoop dir (slot 13) numSlots pos [] slot

def fatNameToStr : List UInt8 :=
  let base := (((range' 0 8).map entry).takeWhile fun c => c ≠ 0x20).map tolower
  if entry 8 ≠ 0x20 then
    base ++ 0x2E :: (((range' 8 3).map entry).takeWhile fun c => c ≠ 0x20).map tolower
  else base

/-- The body of the loop of `FatReadDir`.  There are 12 bytes for a short name with
its terminator. -/
def fatReadDir (position : ℕ) : Round ℕ DirRecord :=
  match dir.entries[position]? with
  | none => .stop position
  | some entry =>
    if entry 0 = 0 then .stop (position + 1)
    else if entry 0 = 0xE5 then .skip (position + 1)
    else if entry 11 &&& 0x08 ≠ 0 ∧ entry 11 ≠ 0x0F then .skip (position + 1)
    else if entry 11 = 0x0F then
      match fatGetLongName dir (position + 1) entry with
      | .overrun => .fault
      | .invalid pos => .skip pos
      | .found pos longName =>
        .emit ⟨dir.vNum (pos - 1), cString longName⟩ pos (pos - 1)
    else
      let newName := fatNameToStr entry
      if 12 ≤ newName.length then .fault
      else .emit ⟨dir.vNum position, cString newName⟩ (position + 1) position

def FatDir.reader : Reader ℕ DirRecord where
  start position := position
  round := fatReadDir dir
  rounds := dir.entries.length + 1
  space := recordLen

/-! ## Well-formed directories -/

/-- An entry that is in use and not a label or a slot. -/
def Listed : Prop :=
  entry 0 ≠ 0 ∧ entry 0 ≠ 0xE5 ∧ entry 11 &&& 0x08 = 0

end

/-- The slots `n` to 1 of a long name, the characters in them, and the entry they
belong to. -/
inductive Slots (dir : FatDir) (checkSum : UInt8) : ℕ → ℕ → List UInt8 → Prop
  | entry {pos : ℕ} {entry : DirEntry} : dir.entries[pos]? = some entry →
      Listed entry → fatCheckSum entry = checkSum → Slots dir checkSum 0 pos []
  | slot {n pos : ℕ} {slot : DirEntry} {chars : List UInt8} :
      dir.entries[pos]? = some slot → slot 11 = 0x0F → (slot 0).toNat = n + 1 →
      n + 1 < 20 → slot 13 = checkSum → Slots dir checkSum n (pos + 1) chars →
        Slots dir checkSum (n + 1) pos (chars ++ slotChars slot)

/-- A well-formed directory from a position on, with its records.  Each record comes
with the position of its entry.  The last argument says whether all names fit in the
arrays of `FatReadDir`. -/
inductive WellFormed (dir : FatDir) : ℕ → List (DirRecord × ℕ) → Bool → Prop
  | done {pos : ℕ} : dir.entries[pos]? = none → WellFormed dir pos [] true
  | unused {pos : ℕ} {entry : DirEntry} : dir.entries[pos]? = some entry →
      entry 0 = 0 →
      (∀ i entry', pos ≤ i → dir.entries[i]? = some entry' → entry' 0 = 0) →
        WellFormed dir pos [] true
  | deleted {pos : ℕ} {entry : DirEntry} {items : List (DirRecord × ℕ)}
      {fits : Bool} : dir.entries[pos]? = some entry → entry 0 = 0xE5 →
      WellFormed dir (pos + 1) items fits → WellFormed dir pos items fits
  | label {pos : ℕ} {entry : DirEntry} {items : List (DirRecord × ℕ)} {fits : Bool} :
      dir.entries[pos]? = some entry → entry 0 ≠ 0 → entry 0 ≠ 0xE5 →
      entry 11 &&& 0x08 ≠ 0 → entry 11 ≠ 0x0F →
      WellFormed dir (pos + 1) items fits → WellFormed dir pos items fits
  | short {pos : ℕ} {entry : DirEntry} {items : List (DirRecord × ℕ)} {fits : Bool} :
      dir.entries[pos]? = some entry → Listed entry →
      WellFormed dir (pos + 1) items fits → WellFormed dir pos
          ((⟨dir.vNum pos, cString (fatNameToStr entry)⟩, pos) :: items)
          (decide ((fatNameToStr entry).length < 12) && fits)
  | long {pos n : ℕ} {slot : DirEntry} {chars : List UInt8}
      {items : List (DirRecord × ℕ)} {fits : Bool} :
      dir.entries[pos]? = some slot → slot 11 = 0x0F →
      (slot 0).toNat = 0x40 + (n + 1) → n + 1 ≤ 20 →
      Slots dir (slot 13) n (pos + 1) chars →
      WellFormed dir (pos + n + 2) items fits → WellFormed dir pos
          ((⟨dir.vNum (pos + n + 1), cString (chars ++ slotChars slot)⟩, pos + n + 1) :: items)
          (decide (n + 1 < 20) && fits)

/-! ## Long names -/

variable {entry : DirEntry} {rest : List (DirRecord × ℕ)} {item : DirRecord × ℕ}

theorem Listed.not_slot (h : Listed entry) : entry 11 ≠ 0x0F := by
  intro hattr
  have hlabel := h.2.2
  rw [hattr] at hlabel
  cases hlabel

section

variable {chars : List UInt8} {n pos : ℕ} {checkSum id : UInt8} {dir : FatDir}

theorem slotNumber (h : id.toNat < 0x40) : id &&& 0x40 = 0 ∧ id &&& 0xBF = id := by
  have hall : ∀ n < 0x40, UInt8.ofNat n &&& 0x40 = 0 ∧
      UInt8.ofNat n &&& 0xBF = UInt8.ofNat n := by decide +kernel
  have hid := hall id.toNat h
  rwa [UInt8.ofNat_toNat] at hid

theorem firstNumber (h : id.toNat = 0x40 + n) (hn : n < 0x40) :
    id &&& 0x40 ≠ 0 ∧ (id &&& 0xBF).toNat = n := by
  have hall : ∀ n < 0x40, UInt8.ofNat (0x40 + n) &&& 0x40 ≠ 0 ∧
      (UInt8.ofNat (0x40 + n) &&& 0xBF).toNat = n := by decide +kernel
  have hid := hall n hn
  rwa [← h, UInt8.ofNat_toNat] at hid

theorem Slots.longNameLoop (h : Slots dir checkSum n pos chars) (longName slot) :
    longNameLoop dir checkSum (n + 1) pos longName slot =
      .found (pos + n + 1) (chars ++ putSlot slot longName) := by
  induction h generalizing longName slot with
  | entry hentry _ hsum =>
    rw [Fat.longNameLoop, hentry, getD_some, if_neg (fun h => h.1 rfl),
      Fat.longNameLoop, if_pos hsum]
    rfl
  | @slot n pos next chars hnext hattr hid hlt hsum _ ih =>
    obtain ⟨hbit, hmask⟩ := slotNumber (show (next 0).toNat < 0x40 by omega)
    have hvalid : ¬ (n + 1 ≠ 0 ∧ (next 11 ≠ 0x0F ∨
        (next 0 &&& 0xBF).toNat ≠ n + 1 ∨ next 13 ≠ checkSum)) := by
      rintro ⟨-, hbad | hbad | hbad⟩
      · exact hbad hattr
      · exact hbad (by rw [hmask, hid])
      · exact hbad hsum
    have hput : putSlot next (putSlot slot longName) = slotChars next ++ putSlot slot longName := by
      rw [putSlot, if_neg (fun hne => hne hbit)]
    rw [Fat.longNameLoop, hnext, getD_some, if_neg hvalid, ih, hput, append_assoc]
    congr 1
    omega

theorem Slots.entry_at (h : Slots dir checkSum n pos chars) :
    ∃ entry, dir.entries[pos + n]? = some entry ∧ Listed entry := by
  induction h with
  | entry hentry hlisted _ => exact ⟨_, hentry, hlisted⟩
  | @slot n pos _ _ _ _ _ _ _ _ ih =>
    rwa [Nat.add_assoc, Nat.add_comm 1 n] at ih

end

/-! ## The rounds of the loop -/

section Rounds

variable {dir : FatDir} {pos : ℕ}

section

variable (hentry : dir.entries[pos]? = some entry)
include hentry

theorem fatReadDir_deleted (hdeleted : entry 0 = 0xE5) : fatReadDir dir pos = .skip (pos + 1) := by
  rw [fatReadDir, hentry]
  dsimp only
  rw [if_neg (by rw [hdeleted]; decide), if_pos hdeleted]

theorem fatReadDir_label (hzero : entry 0 ≠ 0)
    (hdeleted : entry 0 ≠ 0xE5) (hlabel : entry 11 &&& 0x08 ≠ 0)
    (hattr : entry 11 ≠ 0x0F) : fatReadDir dir pos = .skip (pos + 1) := by
  rw [fatReadDir, hentry]
  dsimp only
  rw [if_neg hzero, if_neg hdeleted, if_pos ⟨hlabel, hattr⟩]

theorem fatReadDir_short (hlisted : Listed entry) :
    fatReadDir dir pos = if 12 ≤ (fatNameToStr entry).length then .fault
      else .emit ⟨dir.vNum pos, cString (fatNameToStr entry)⟩ (pos + 1) pos := by
  rw [fatReadDir, hentry]
  dsimp only
  rw [if_neg hlisted.1, if_neg hlisted.2.1, if_neg (fun h => h.1 hlisted.2.2),
    if_neg hlisted.not_slot]

end

theorem fatReadDir_long {n : ℕ} {slot : DirEntry} {chars : List UInt8}
    (hslot : dir.entries[pos]? = some slot) (hattr : slot 11 = 0x0F)
    (hid : (slot 0).toNat = 0x40 + (n + 1)) (hn : n + 1 ≤ 20)
    (hslots : Slots dir (slot 13) n (pos + 1) chars) :
    fatReadDir dir pos = if n + 1 = 20 then .fault
      else .emit ⟨dir.vNum (pos + n + 1), cString (chars ++ slotChars slot)⟩
        (pos + n + 2) (pos + n + 1) := by
  obtain ⟨hbit, hmask⟩ := firstNumber hid (by omega)
  have hzero : slot 0 ≠ 0 := by
    intro h
    rw [h] at hid
    exact absurd hid (by rw [show (0 : UInt8).toNat = 0 from rfl]; omega)
  have hdeleted : slot 0 ≠ 0xE5 := by
    intro h
    rw [h] at hid
    exact absurd hid (by rw [show (0xE5 : UInt8).toNat = 229 from rfl]; omega)
  have hname : fatGetLongName dir (pos + 1) slot = if n + 1 = 20 then .overrun
      else .found (pos + n + 2) (chars ++ putSlot slot []) := by
    rw [fatGetLongName, hmask, if_neg (by
      rintro (h | h | h)
      · exact hbit h
      · omega
      · omega), hslots.longNameLoop]
    split_ifs
    · rfl
    · congr 1
      omega
  have hchars : cString (chars ++ putSlot slot []) = cString (chars ++ slotChars slot) := by
    rw [putSlot, if_pos hbit, drop_nil, ← append_assoc, cString_append_zero]
  rw [fatReadDir, hslot]
  dsimp only
  rw [if_neg hzero, if_neg hdeleted, if_neg (fun h => h.2 hattr), hname]
  split_ifs
  · rfl
  · dsimp only
    rw [hchars]
    rfl

end Rounds

/-! ## Listings -/

section Listing

variable {dir : FatDir} {pos : ℕ} {items : List (DirRecord × ℕ)} {fits : Bool}

/-- A well-formed directory is listed from each of its records on, or its names do
not fit. -/
theorem WellFormed.lists (h : WellFormed dir pos items fits) (hfits : fits = true)
    (hpos : pos ≤ dir.entries.length) :
    ∃ n last, n + pos ≤ dir.entries.length + 1 ∧ dir.reader.Lists n pos items last ∧
      ∃ last', dir.reader.Lists 1 last [] last' := by
  induction h with
  | @done pos hnone =>
    have hstop : fatReadDir dir pos = .stop pos := by rw [fatReadDir, hnone]
    exact ⟨1, pos, by omega, .stop hstop, pos, .stop hstop⟩
  | @unused pos entry hentry hzero hall =>
    refine ⟨1, pos + 1, by omega, .stop ?_, ?_⟩
    · change fatReadDir dir pos = _
      rw [fatReadDir, hentry]
      exact if_pos hzero
    · cases hnext : dir.entries[pos + 1]? with
      | none =>
        refine ⟨pos + 1, .stop ?_⟩
        change fatReadDir dir (pos + 1) = _
        rw [fatReadDir, hnext]
      | some next =>
        refine ⟨pos + 2, .stop ?_⟩
        change fatReadDir dir (pos + 1) = _
        rw [fatReadDir, hnext]
        exact if_pos (hall (pos + 1) next (le_succ pos) hnext)
  | @deleted pos entry items fits hentry hdeleted _ ih =>
    have hlt := (List.getElem?_eq_some_iff.mp hentry).1
    obtain ⟨n, last, hn, hlists, hend⟩ := ih hfits hlt
    exact ⟨n + 1, last, by omega, .skip (fatReadDir_deleted hentry hdeleted) hlists, hend⟩
  | @label pos entry items fits hentry hzero hdeleted hlabel hattr _ ih =>
    have hlt := (List.getElem?_eq_some_iff.mp hentry).1
    obtain ⟨n, last, hn, hlists, hend⟩ := ih hfits hlt
    exact ⟨n + 1, last, by omega,
      .skip (fatReadDir_label hentry hzero hdeleted hlabel hattr) hlists, hend⟩
  | @short pos entry items fits hentry hlisted _ ih =>
    have hlt := (List.getElem?_eq_some_iff.mp hentry).1
    obtain ⟨hname, hrest⟩ := and_eq_true_iff.mp hfits
    obtain ⟨n, last, hn, hlists, hend⟩ := ih hrest hlt
    refine ⟨n + 1, last, by omega, .emit ?_ hlists, hend⟩
    change fatReadDir dir pos = _
    rw [fatReadDir_short hentry hlisted, if_neg (Nat.not_le.mpr (of_decide_eq_true hname))]
  | @long pos n slot chars items fits hslot hattr hid hn hslots _ ih =>
    obtain ⟨entry, hentry, -⟩ := hslots.entry_at
    have hlt := (List.getElem?_eq_some_iff.mp hentry).1
    obtain ⟨hfew, hrest⟩ := and_eq_true_iff.mp hfits
    obtain ⟨m, last, hm, hlists, hend⟩ := ih hrest (by omega)
    refine ⟨m + 1, last, by omega, .emit ?_ hlists, hend⟩
    change fatReadDir dir pos = _
    rw [fatReadDir_long hslot hattr hid hn hslots, if_neg (Nat.ne_of_lt (of_decide_eq_true hfew))]

theorem WellFormed.holds (h : WellFormed dir pos items true)
    (hpos : pos ≤ dir.entries.length) : dir.reader.Holds pos items := by
  obtain ⟨n, last, hn, hlists, last', hend⟩ := h.lists rfl hpos
  exact ⟨n, last, Nat.le_trans (Nat.le_add_right n pos) hn, hlists, 1, last', le_add_left 1 _, hend⟩

theorem WellFormed.faults (h : WellFormed dir pos items fits) (hfits : fits = false) :
    dir.reader.Faults pos := by
  induction h with
  | done | unused => cases hfits
  | @deleted pos entry items fits hentry hdeleted _ ih =>
    exact .skip (fatReadDir_deleted hentry hdeleted) (ih hfits)
  | @label pos entry items fits hentry hzero hdeleted hlabel hattr _ ih =>
    exact .skip (fatReadDir_label hentry hzero hdeleted hlabel hattr) (ih hfits)
  | @short pos entry items fits hentry hlisted _ ih =>
    have hround := fatReadDir_short hentry hlisted
    split_ifs at hround with hlong
    · exact .fault hround
    · refine .emit hround (ih ?_)
      simpa [Nat.not_le.mp hlong] using hfits
  | @long pos n slot chars items fits hslot hattr hid hn hslots _ ih =>
    have hround := fatReadDir_long hslot hattr hid hn hslots
    split_ifs at hround with hmany
    · exact .fault hround
    · refine .emit hround (ih ?_)
      simpa [Nat.lt_of_le_of_ne hn hmany] using hfits

theorem WellFormed.suffix (h : WellFormed dir pos items fits) (hfits : fits = true)
    (hsuffix : item :: rest <:+ items) : ∃ entry, dir.entries[item.2]? = some entry ∧
      Listed entry ∧ item.1.vNodeNum = dir.vNum item.2 ∧ WellFormed dir (item.2 + 1) rest true := by
  induction h with
  | done | unused => exact absurd (suffix_nil.mp hsuffix) (cons_ne_nil _ _)
  | deleted _ _ _ ih | label _ _ _ _ _ _ ih => exact ih hfits hsuffix
  | short hentry hlisted hrest ih =>
    obtain ⟨-, hfits⟩ := and_eq_true_iff.mp hfits
    rcases suffix_cons_iff.mp hsuffix with heq | hsuffix
    · cases heq
      exact ⟨_, hentry, hlisted, rfl, hfits ▸ hrest⟩
    · exact ih hfits hsuffix
  | long _ _ _ _ hslots hrest ih =>
    obtain ⟨-, hfits⟩ := and_eq_true_iff.mp hfits
    rcases suffix_cons_iff.mp hsuffix with heq | hsuffix
    · cases heq
      obtain ⟨entry, hentry, hlisted⟩ := hslots.entry_at
      rw [Nat.add_right_comm] at hentry
      exact ⟨entry, hentry, hlisted, rfl, hfits ▸ hrest⟩
    · exact ih hfits hsuffix

/-- A record whose entry alone gives the same record. -/
def ResumesAt (dir : FatDir) (item : DirRecord × ℕ) : Prop :=
  ∃ entry, dir.entries[item.2]? = some entry ∧ (fatNameToStr entry).length < 12 ∧
    item.1.name = cString (fatNameToStr entry)

section

variable (h : WellFormed dir pos items true) (hsuffix : item :: rest <:+ items)
include h hsuffix

theorem WellFormed.resumes
    (hresumes : ResumesAt dir item) : dir.reader.Holds item.2 (item :: rest) := by
  obtain ⟨entry, hentry, hlisted, hnum, hwf⟩ := h.suffix rfl hsuffix
  obtain ⟨entry', hentry', hname, hsame⟩ := hresumes
  cases some.inj (hentry'.symm.trans hentry)
  have hitem : item = (⟨dir.vNum item.2, cString (fatNameToStr entry)⟩, item.2) := by
    rw [← hnum, ← hsame]
  have hshort := WellFormed.short hentry hlisted hwf
  rw [← hitem, decide_eq_true hname] at hshort
  exact hshort.holds (Nat.le_of_lt (List.getElem?_eq_some_iff.mp hentry).1)

/-- Otherwise they return another record, or write behind an array. -/
theorem WellFormed.not_resumes (hresumes : ¬ ResumesAt dir item) (counts : List ℕ) :
    dir.reader.paged item.2 counts ≠ .finished ((item :: rest).map Prod.fst) := by
  obtain ⟨entry, hentry, hlisted, -, hwf⟩ := h.suffix rfl hsuffix
  intro hpaged
  have hround := fatReadDir_short hentry hlisted
  split_ifs at hround with hname
  · exact Reader.paged_ne_of_fault hround hpaged
  · have hshort := WellFormed.short hentry hlisted hwf
    rw [decide_eq_true (Nat.not_le.mp hname)] at hshort
    have hhead := (hshort.holds
      (Nat.le_of_lt (List.getElem?_eq_some_iff.mp hentry).1)).paged_head hpaged
    exact hresumes ⟨entry, hentry, Nat.not_le.mp hname, by rw [← hhead]⟩

end

end Listing

end Whitix.Fat
