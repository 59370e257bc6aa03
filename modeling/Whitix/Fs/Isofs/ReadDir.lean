import Whitix.Fs.Vfs.FillDir

/-!
# Reading ISO 9660 directories

The records of a directory lie one after the other in its sectors; the rest of a
sector is filled with zeros.  `IsoReadDir` moves the position of the file behind a
record before it calls `FillDir`, and leaves it there if there is no room.
-/

namespace Whitix.Isofs

open Support List Nat Bool
open Vfs

/-! ## The code -/

structure IsoDir where
  data : ℕ → UInt8
  size : ℕ
  sectorSize : ℕ
  sectorSize_pos : 0 < sectorSize
  firstSector : ℕ
  id : ℕ

/-- The local variables of `IsoReadDir`, and the position of the file. -/
structure IsoState where
  sector : ℕ
  offset : ℕ
  position : ℕ

def isoParseFileName (src : List UInt8) : List UInt8 :=
  let length :=
    if src.drop (src.length - 3) = [0x2E, 0x3B, 0x31] then src.length - 3
    else if src.drop (src.length - 2) = [0x3B, 0x31] then src.length - 2
    else src.length
  (src.map tolower).take length

section

variable (dir : IsoDir) (pos : ℕ)

/-- What is passed to `FillDir` for the record at an offset of a sector. -/
def isoRecord (sector offset : ℕ) : DirRecord :=
  let entry := sector * dir.sectorSize + offset
  let nameLen := (dir.data (entry + 32)).toNat
  if nameLen = 1 ∧ dir.data (entry + 33) = 0 then ⟨dir.id, [0x2E]⟩
  else if nameLen = 1 ∧ dir.data (entry + 33) = 1 then ⟨0, [0x2E, 0x2E]⟩
  else
    ⟨((dir.firstSector + sector) <<< 11 ||| (offset &&& 0xFFF) >>> 1) % 0x100000000,
      isoParseFileName ((range nameLen).map fun i => dir.data (entry + 33 + i))⟩

/-- The body of the loop of `IsoReadDir`.  At the end of a sector the next record is
looked for behind the buffer, and `IsoReadAcrossSector` copies a negative number of
bytes. -/
def isoReadDir (s : IsoState) : Round IsoState DirRecord :=
  if dir.size ≤ s.position then .stop s.position
  else if dir.sectorSize ≤ s.offset then .fault
  else
    let entry := s.sector * dir.sectorSize + s.offset
    let entryLength := (dir.data entry).toNat
    if entryLength = 0 then
      .skip ⟨s.sector + 1, 0, s.position + (dir.sectorSize - s.offset)⟩
    else if dir.sectorSize < s.offset + entryLength then .fault
    else
      let next : IsoState :=
        ⟨s.sector, s.offset + entryLength, s.position + entryLength⟩
      if dir.data (entry + 25) &&& 0x80 ≠ 0 then .skip next
      else .emit (isoRecord dir s.sector s.offset) next next.position

def IsoDir.reader : Reader IsoState DirRecord where
  start position := ⟨position / dir.sectorSize, position % dir.sectorSize, position⟩
  round := isoReadDir dir
  rounds := dir.size + 1
  space := recordLen

/-! ## Well-formed directories -/

def IsoDir.entryLength : ℕ := (dir.data pos).toNat

/-- A record with its name, which lies in one sector. -/
structure InSector (dir : IsoDir) (pos : ℕ) : Prop where
  inside : pos < dir.size
  length_pos : 0 < dir.entryLength pos
  sector : pos % dir.sectorSize + dir.entryLength pos ≤ dir.sectorSize
  name : 33 + (dir.data (pos + 32)).toNat ≤ dir.entryLength pos

/-- A record behind which there is padding, or nothing. -/
def padded : Bool :=
  decide (pos % dir.sectorSize + dir.entryLength pos < dir.sectorSize ∨
    dir.size ≤ pos + dir.entryLength pos)

/-- A well-formed directory from a position on, with its records.  Each record comes
with the position behind it.  The last argument says whether no record but the last
one ends where its sector ends. -/
inductive WellFormed (dir : IsoDir) : ℕ → List (DirRecord × ℕ) → Bool → Prop
  | done {pos : ℕ} : dir.size ≤ pos → WellFormed dir pos [] true
  | padding {pos : ℕ} {items : List (DirRecord × ℕ)} {fits : Bool} :
      pos < dir.size → dir.data pos = 0 →
      WellFormed dir ((pos / dir.sectorSize + 1) * dir.sectorSize) items fits →
        WellFormed dir pos items fits
  | extent {pos : ℕ} {items : List (DirRecord × ℕ)} {fits : Bool} :
      InSector dir pos → dir.data (pos + 25) &&& 0x80 ≠ 0 →
      WellFormed dir (pos + dir.entryLength pos) items fits →
        WellFormed dir pos items (padded dir pos && fits)
  | record {pos : ℕ} {items : List (DirRecord × ℕ)} {fits : Bool} :
      InSector dir pos → dir.data (pos + 25) &&& 0x80 = 0 →
      WellFormed dir (pos + dir.entryLength pos) items fits → WellFormed dir pos
          ((isoRecord dir (pos / dir.sectorSize) (pos % dir.sectorSize),
            pos + dir.entryLength pos) :: items)
          (padded dir pos && fits)

/-! ## The rounds of the loop -/

/-- The variables at a position. -/
structure At (dir : IsoDir) (s : IsoState) (pos : ℕ) : Prop where
  position : s.position = pos
  sector : s.offset < dir.sectorSize → s.sector = pos / dir.sectorSize
  offset : s.offset < dir.sectorSize → s.offset = pos % dir.sectorSize

theorem at_start : At dir (dir.reader.start pos) pos :=
  ⟨rfl, fun _ => rfl, fun _ => rfl⟩

theorem At.next {dir : IsoDir} {pos length : ℕ} :
    At dir ⟨pos / dir.sectorSize, pos % dir.sectorSize + length, pos + length⟩ (pos + length) := by
  have hdiv := div_add_mod pos dir.sectorSize
  refine ⟨rfl, fun hlt => ?_, fun hlt => ?_⟩
  · have hsum : pos + length =
        pos % dir.sectorSize + length + pos / dir.sectorSize * dir.sectorSize := by
      rw [Nat.mul_comm]
      omega
    rw [hsum, add_mul_div_right _ _ dir.sectorSize_pos, div_eq_of_lt hlt, Nat.zero_add]
  · rw [← mod_add_mod, mod_eq_of_lt hlt]

theorem At.nextSector :
    At dir ⟨pos / dir.sectorSize + 1, 0, pos + (dir.sectorSize - pos % dir.sectorSize)⟩
      ((pos / dir.sectorSize + 1) * dir.sectorSize) where
  position := by
    have hdiv := div_add_mod pos dir.sectorSize
    have hlt := mod_lt pos dir.sectorSize_pos
    rw [Nat.add_mul, Nat.mul_comm]
    dsimp only
    omega
  sector _ := (Nat.mul_div_cancel _ dir.sectorSize_pos).symm
  offset _ := (mul_mod_left _ _).symm

end

section Rounds

variable {dir : IsoDir} {s : IsoState} {pos : ℕ}

/-- A state in which the next record can be read, or the directory ends. -/
def Ready (dir : IsoDir) (s : IsoState) (pos : ℕ) : Prop :=
  At dir s pos ∧ (s.offset < dir.sectorSize ∨ dir.size ≤ pos)

theorem Ready.eq (h : Ready dir s pos) (hinside : pos < dir.size) :
    s = ⟨pos / dir.sectorSize, pos % dir.sectorSize, pos⟩ := by
  have hoffset := h.2.resolve_right (Nat.not_le.mpr hinside)
  rw [← h.1.sector hoffset, ← h.1.offset hoffset, ← h.1.position]

theorem entry_eq (dir : IsoDir) (pos : ℕ) :
    pos / dir.sectorSize * dir.sectorSize + pos % dir.sectorSize = pos := by
  rw [Nat.mul_comm]
  exact div_add_mod pos dir.sectorSize

theorem Ready.round_padding (h : Ready dir s pos) (hinside : pos < dir.size)
    (hzero : dir.data pos = 0) :
    isoReadDir dir s = .skip ⟨pos / dir.sectorSize + 1, 0,
      pos + (dir.sectorSize - pos % dir.sectorSize)⟩ := by
  have hmod := mod_lt pos dir.sectorSize_pos
  rw [h.eq hinside, isoReadDir, if_neg (Nat.not_le.mpr hinside), if_neg (Nat.not_le.mpr hmod)]
  dsimp only
  rw [entry_eq, hzero]
  rfl

theorem Ready.round_record (h : Ready dir s pos) (hrecord : InSector dir pos) :
    isoReadDir dir s = let next : IsoState := ⟨pos / dir.sectorSize,
        pos % dir.sectorSize + dir.entryLength pos, pos + dir.entryLength pos⟩
      if dir.data (pos + 25) &&& 0x80 ≠ 0 then .skip next
      else .emit (isoRecord dir (pos / dir.sectorSize) (pos % dir.sectorSize)) next
        (pos + dir.entryLength pos) := by
  have hmod := mod_lt pos dir.sectorSize_pos
  rw [h.eq hrecord.inside, isoReadDir, if_neg (Nat.not_le.mpr hrecord.inside),
    if_neg (Nat.not_le.mpr hmod)]
  rw [entry_eq]
  change (if dir.entryLength pos = 0 then _ else if dir.sectorSize <
    pos % dir.sectorSize + dir.entryLength pos then _ else _) = _
  rw [if_neg (Nat.ne_of_gt hrecord.length_pos), if_neg (Nat.not_lt.mpr hrecord.sector)]
  rfl

end Rounds

/-! ## Listings -/

variable {rest : List (DirRecord × ℕ)} {item : DirRecord × ℕ}

section Listing

variable {dir : IsoDir} {pos : ℕ} {items : List (DirRecord × ℕ)} {fits : Bool}

theorem ready_start (dir : IsoDir) (pos : ℕ) : Ready dir (dir.reader.start pos) pos :=
  ⟨at_start dir pos, .inl (mod_lt pos dir.sectorSize_pos)⟩

theorem Ready.next {s : IsoState} (hpadded : padded dir pos = true)
    (hs : s = ⟨pos / dir.sectorSize, pos % dir.sectorSize + dir.entryLength pos,
      pos + dir.entryLength pos⟩) : Ready dir s (pos + dir.entryLength pos) := by
  subst hs
  exact ⟨At.next, of_decide_eq_true hpadded⟩

theorem Ready.stop {s : IsoState} (h : Ready dir s pos) (hend : dir.size ≤ pos) :
    dir.reader.Lists 1 s [] pos := by
  refine .stop ?_
  change isoReadDir dir s = _
  rw [isoReadDir, h.1.position, if_pos hend]

theorem WellFormed.lists (h : WellFormed dir pos items fits) (hfits : fits = true) {s : IsoState}
    (hs : Ready dir s pos) : ∃ n last, n ≤ dir.size - pos + 1 ∧
      dir.reader.Lists n s items last ∧ dir.size ≤ last := by
  induction h generalizing s with
  | @done pos hend => exact ⟨1, pos, by omega, hs.stop hend, hend⟩
  | @padding pos items fits hinside hzero _ ih =>
    have hready : Ready dir ⟨pos / dir.sectorSize + 1, 0,
        pos + (dir.sectorSize - pos % dir.sectorSize)⟩ _ :=
      ⟨At.nextSector dir pos, .inl dir.sectorSize_pos⟩
    obtain ⟨n, last, hn, hlists, hlast⟩ := ih hfits hready
    have hadvance := (At.nextSector dir pos).position
    have hmod := mod_lt pos dir.sectorSize_pos
    dsimp only at hadvance
    exact ⟨n + 1, last, by omega, .skip (hs.round_padding hinside hzero) hlists, hlast⟩
  | @extent pos items fits hrecord hflag _ ih =>
    obtain ⟨hpadded, hrest⟩ := and_eq_true_iff.mp hfits
    obtain ⟨n, last, hn, hlists, hlast⟩ := ih hrest (Ready.next hpadded rfl)
    have hround := hs.round_record hrecord
    rw [if_pos hflag] at hround
    have hlength := hrecord.length_pos
    have hinside := hrecord.inside
    exact ⟨n + 1, last, by omega, .skip hround hlists, hlast⟩
  | @record pos items fits hrecord hflag _ ih =>
    obtain ⟨hpadded, hrest⟩ := and_eq_true_iff.mp hfits
    obtain ⟨n, last, hn, hlists, hlast⟩ := ih hrest (Ready.next hpadded rfl)
    have hround := hs.round_record hrecord
    rw [if_neg (fun hne => hne hflag)] at hround
    have hlength := hrecord.length_pos
    have hinside := hrecord.inside
    exact ⟨n + 1, last, by omega, .emit hround hlists, hlast⟩

theorem WellFormed.holds (h : WellFormed dir pos items true) : dir.reader.Holds pos items := by
  obtain ⟨n, last, hn, hlists, hlast⟩ := h.lists rfl (ready_start dir pos)
  refine ⟨n, last, ?_, hlists, 1, last, ?_, (ready_start dir last).stop hlast⟩
  · exact Nat.le_trans hn (Nat.add_le_add_right (sub_le _ _) 1)
  · exact Nat.le_add_left 1 _

theorem fault_of_not_padded (h : padded dir pos = false) :
    isoReadDir dir ⟨pos / dir.sectorSize,
      pos % dir.sectorSize + dir.entryLength pos, pos + dir.entryLength pos⟩ =
      .fault := by
  obtain ⟨hsector, hinside⟩ := not_or.mp (of_decide_eq_false h)
  rw [isoReadDir, if_neg hinside, if_pos (Nat.not_lt.mp hsector)]

theorem faults_next (hfits : (padded dir pos && fits) = false) (ih : fits = false →
      ∀ {s : IsoState}, Ready dir s (pos + dir.entryLength pos) → dir.reader.Faults s) :
    dir.reader.Faults ⟨pos / dir.sectorSize, pos % dir.sectorSize + dir.entryLength pos,
      pos + dir.entryLength pos⟩ := by
  cases hpadded : padded dir pos with
  | false => exact .fault (fault_of_not_padded hpadded)
  | true =>
    rw [hpadded] at hfits
    exact ih hfits (Ready.next hpadded rfl)

theorem WellFormed.faults (h : WellFormed dir pos items fits) (hfits : fits = false)
    {s : IsoState} (hs : Ready dir s pos) : dir.reader.Faults s := by
  induction h generalizing s with
  | done => cases hfits
  | @padding pos items fits hinside hzero _ ih =>
    exact .skip (hs.round_padding hinside hzero)
      (ih hfits ⟨At.nextSector dir pos, .inl dir.sectorSize_pos⟩)
  | @extent pos items fits hrecord hflag _ ih =>
    have hround := hs.round_record hrecord
    rw [if_pos hflag] at hround
    exact .skip hround (faults_next hfits ih)
  | @record pos items fits hrecord hflag _ ih =>
    have hround := hs.round_record hrecord
    rw [if_neg (fun hne => hne hflag)] at hround
    exact .emit hround (faults_next hfits ih)

theorem WellFormed.suffix (h : WellFormed dir pos items fits) (hfits : fits = true)
    (hsuffix : item :: rest <:+ items) : WellFormed dir item.2 rest true := by
  induction h with
  | done => exact absurd (suffix_nil.mp hsuffix) (cons_ne_nil _ _)
  | padding _ _ _ ih => exact ih hfits hsuffix
  | extent _ _ _ ih => exact ih (and_eq_true_iff.mp hfits).2 hsuffix
  | record _ _ hrest ih =>
    obtain ⟨-, hfits⟩ := and_eq_true_iff.mp hfits
    rcases suffix_cons_iff.mp hsuffix with heq | hsuffix
    · cases heq
      exact hfits ▸ hrest
    · exact ih hfits hsuffix

theorem WellFormed.loses (h : WellFormed dir pos items true) (hsuffix : item :: rest <:+ items)
    (counts : List ℕ) :
    dir.reader.paged item.2 counts ≠ .finished ((item :: rest).map Prod.fst) := by
  have hholds : ∀ {item : DirRecord × ℕ} {rest : List (DirRecord × ℕ)},
      item :: rest <:+ items → dir.reader.Holds item.2 rest :=
    fun hsuffix => (h.suffix rfl hsuffix).holds
  intro hpaged
  have hle := (hholds hsuffix).paged_length_le (fun item' rest' h' =>
    hholds ((h'.trans (suffix_cons item rest)).trans hsuffix)) hpaged
  rw [length_map] at hle
  exact not_succ_le_self _ hle

end Listing

end Whitix.Isofs
