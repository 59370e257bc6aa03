import Whitix.Fs.Fat.ReadDir
import Whitix.Fs.Fat.Table

/-!
# Node numbers in FAT

The number of a node is made of the sector of its directory entry and of the place of
the entry in the sector.  There are 24 bits for the sector.
-/

namespace Whitix.Fat

open Support Vfs Function Nat

/-- The loop of `FatScanDir`: the number and the position of the entry it finds. -/
def scanLoop (dir : FatDir) (name : List UInt8) : ℕ → ℕ → Option (ℕ × ℕ)
  | 0, _ => none
  | fuel + 1, pos =>
    match dir.entries[pos]? with
    | none => none
    | some entry =>
      if entry 0 = 0 then none
      else if entry 0 = 0xE5 then scanLoop dir name fuel (pos + 1)
      else if entry 11 = 0x0F then
        match fatGetLongName dir (pos + 1) entry with
        | .overrun => none
        | .invalid pos => scanLoop dir name fuel pos
        | .found pos longName =>
          if name.map tolower = (cString longName).map tolower then
            some (dir.vNum (pos - 1), pos - 1)
          else scanLoop dir name fuel pos
      else if name.map tolower = (cString (fatNameToStr entry)).map tolower then
        some (dir.vNum pos, pos)
      else scanLoop dir name fuel (pos + 1)

def fatScanDir (dir : FatDir) (name : List UInt8) : Option (ℕ × ℕ) :=
  scanLoop dir name (dir.entries.length + 1) 0

/-- The sector and the offset at which `FatReadVNode` and `FatWriteVNode` find the
entry of a node; the root has none. -/
def vNodeEntry (id : ℕ) : Option (ℕ × ℕ) :=
  if id = fatRootId then none else some (id >>> 8, (id &&& 0xFF) * 32)

/-- The entry from which `FatReadVNode` takes the fields of a node. -/
def fatReadVNode (disk : Disk) (id : ℕ) : Option DirEntry :=
  (vNodeEntry id).map fun e i => disk e.1 (e.2 + i)

/-- `FatWriteVNode`, with the entry after its fields have been set. -/
def fatWriteVNode (disk : Disk) (id : ℕ) (entry : DirEntry) : Disk :=
  match vNodeEntry id with
  | none => disk
  | some e => update disk e.1 fun k =>
      if e.2 ≤ k ∧ k < e.2 + 32 then entry (k - e.2) else disk e.1 k

def FatDir.place (dir : FatDir) (pos : ℕ) : ℕ × ℕ :=
  (dir.blockMap (pos * 32 / dir.bytesPerSector), pos * 32 % dir.bytesPerSector)

/-- `FatScanDir` reports a number for the entry at a place.  The sectors of a
directory follow the boot sector. -/
def Reported (place : ℕ × ℕ) (id : ℕ) : Prop :=
  0 < place.1 ∧ ∃ (dir : FatDir) (name : List UInt8) (pos slots : ℕ),
    dir.bytesPerSector = 32 * slots ∧ 0 < slots ∧ slots ≤ 128 ∧
      fatScanDir dir name = some (id, pos) ∧ dir.place pos = place

/-- The number stands for the entry at the place, and for nothing else. -/
def Accesses (id : ℕ) (place : ℕ × ℕ) : Prop :=
  id ≠ fatRootId ∧ ∀ disk, fatReadVNode disk id = some (fun i => disk place.1 (place.2 + i)) ∧
    ∀ entry, fatWriteVNode disk id entry = update disk place.1 fun k =>
      if place.2 ≤ k ∧ k < place.2 + 32 then entry (k - place.2) else disk place.1 k

variable {dir : FatDir} {id pos : ℕ} {place : ℕ × ℕ}

theorem scanLoop_vNum {name : List UInt8} {fuel start : ℕ}
    (h : scanLoop dir name fuel start = some (id, pos)) : id = dir.vNum pos := by
  induction fuel generalizing start with
  | zero => cases h
  | succ fuel ih =>
    rw [scanLoop] at h
    split at h
    · cases h
    split_ifs at h
    · exact ih h
    · split at h
      · cases h
      · exact ih h
      · split_ifs at h
        · cases h
          rfl
        · exact ih h
    · cases h
      rfl
    · exact ih h

section

variable (h : Reported place id)
include h

theorem Reported.id_eq :
    id = place.1 % 2 ^ 24 * 256 + place.2 / 32 ∧ place.2 / 32 < 128 ∧ 32 ∣ place.2 := by
  obtain ⟨-, dir, name, pos, slots, hslots, hpos, hle, hscan, rfl⟩ := h
  have hslot := mod_lt pos hpos
  have hoffset : (dir.place pos).2 = pos % slots * 32 := by
    change pos * 32 % dir.bytesPerSector = _
    rw [hslots, mul_comm 32, mul_mod_mul_right]
  have hid := scanLoop_vNum hscan
  rw [FatDir.vNum, hslots, Nat.mul_div_cancel_left slots (by decide), ← hslots] at hid
  change id = ((dir.place pos).1 <<< 8 ||| (pos % slots &&& (2 ^ 8 - 1))) % _ at hid
  rw [and_two_pow_sub_one_eq_mod, ← shiftLeft_add_eq_or_of_lt (mod_lt _ (by decide)),
    shiftLeft_eq] at hid
  omega

theorem Reported.vNodeEntry_eq (hid : id ≠ fatRootId) :
    vNodeEntry id = some (place.1 % 2 ^ 24, place.2) := by
  obtain ⟨heq, hslot, hdvd⟩ := h.id_eq
  have hlow : id &&& 0xFF = id % 256 := and_two_pow_sub_one_eq_mod id 8
  rw [vNodeEntry, if_neg hid, shiftRight_eq_div_pow, hlow]
  congr <;> omega

theorem Reported.accesses_iff : Accesses id place ↔ place.1 < 2 ^ 24 := by
  constructor
  · rintro ⟨hid, haccess⟩
    -- A volume on which the sector of the entry differs from all others.
    have hread := (haccess fun sector _ => if sector = place.1 then 1 else 0).1
    rw [fatReadVNode, h.vNodeEntry_eq hid] at hread
    have hbyte := congrFun (Option.some.inj hread) 0
    dsimp only at hbyte
    rw [if_pos rfl] at hbyte
    split_ifs at hbyte with hsector
    · omega
    · cases hbyte
  · intro hlt
    have hid : id ≠ fatRootId := by
      have hpos := h.1
      have heq := h.id_eq.1
      unfold fatRootId
      omega
    have hentry := h.vNodeEntry_eq hid
    rw [mod_eq_of_lt hlt] at hentry
    refine ⟨hid, fun disk => ⟨?_, fun entry => ?_⟩⟩
    · rw [fatReadVNode, hentry]
      rfl
    · rw [fatWriteVNode, hentry]

end

/-- The numbers of two entries differ and stand for them if and only if the sectors of
the entries have 24 bits. -/
theorem fat_vNum_iff (place place' : ℕ × ℕ) (hne : place ≠ place') (id id' : ℕ)
    (h : Reported place id) (h' : Reported place' id') :
    (id ≠ id' ∧ Accesses id place ∧ Accesses id' place') ↔
      place.1 < 2 ^ 24 ∧ place'.1 < 2 ^ 24 := by
  rw [h.accesses_iff, h'.accesses_iff, and_iff_right_iff_imp]
  rintro ⟨hlt, hlt'⟩ rfl
  obtain ⟨heq, hslot, hdvd⟩ := h.id_eq
  obtain ⟨heq', hslot', hdvd'⟩ := h'.id_eq
  exact hne (Prod.ext (by omega) (by omega))

def twoFiles (sector : ℕ) : FatDir :=
  ⟨[fun i => if i = 0 then 0x41 else 0x20, fun i => if i = 0 then 0x42 else 0x20], 512,
    fun _ => sector⟩

theorem reported_twoFiles {sector : ℕ} (h : 0 < sector) :
    Reported (sector, 0) ((twoFiles sector).vNum 0) ∧
      Reported (sector, 32) ((twoFiles sector).vNum 1) :=
  ⟨⟨h, twoFiles sector, [0x61], 0, 16, rfl, by decide, by decide, rfl, rfl⟩,
    h, twoFiles sector, [0x62], 1, 16, rfl, by decide, by decide, rfl, rfl⟩

theorem fat_vNum_iff_near : Reported (100, 0) 25600 ∧ Reported (100, 32) 25601 ∧
    Accesses 25600 (100, 0) ∧ Accesses 25601 (100, 32) := by
  obtain ⟨h, h'⟩ := @reported_twoFiles 100 (by decide)
  exact ⟨h, h', ((fat_vNum_iff _ _ (by decide) _ _ h h').mpr (by decide)).2⟩

/-- The number of the first file is the one of the root. -/
theorem fat_vNum_far : Reported (2 ^ 24, 0) fatRootId ∧ ¬ Accesses fatRootId (2 ^ 24, 0) :=
  ⟨(reported_twoFiles (by decide)).1, fun h => h.1 rfl⟩

end Whitix.Fat
