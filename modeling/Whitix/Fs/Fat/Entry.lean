import Whitix.Fs.Fat.Table

/-!
# Entries of the file allocation table

The first table of a volume is an array of bytes with packed entries.
`FatAccess` returns the entry of a cluster, and a write changes this entry
only: the entries that share a byte with it keep their values, and the copies
go to sectors behind the first table.
-/

namespace Whitix.Fat

open Support Nat List

/-! ## Volumes -/

def FatType.bits : FatType → ℕ
  | .fat12 => 12
  | .fat16 => 16
  | .fat32 => 32

def FatType.valueBits : FatType → ℕ
  | .fat12 => 12
  | .fat16 => 16
  | .fat32 => 28

/-- The sizes of a sector that `FatReadSuper` accepts. -/
def FatBootSector.SectorSize (boot : FatBootSector) : Prop :=
  boot.bytesPerSec = 512 ∨ boot.bytesPerSec = 1024 ∨ boot.bytesPerSec = 2048 ∨
    boot.bytesPerSec = 4096
  deriving Decidable

theorem FatBootSector.SectorSize.aligned {boot : FatBootSector} (h : boot.SectorSize) :
    4 ∣ (fatReadSuper boot).bytesPerSector := by
  change 4 ∣ boot.bytesPerSec
  rcases h with hb | hb | hb | hb <;> rw [hb] <;> decide

/-- A volume has a sector size that `FatReadSuper` accepts, at least one table, tables
and root directory inside it, and an entry for every number below `limit`, all of which
can be cluster numbers. -/
structure FatBootSector.HasTable (boot : FatBootSector) (limit : ℕ) : Prop where
  bytes : boot.SectorSize
  fats : 1 ≤ boot.numFats
  layout : boot.reservedSectorCnt + boot.numFats * boot.fatLength +
    boot.rootDirLength ≤ boot.totalSectors
  sectors : boot.totalSectors < 2 ^ 32
  clusters : limit ≤ FatType.fat32.invalidCluster
  entries : limit * (fatReadSuper boot).fatType.bits ≤
    8 * (boot.fatLength * boot.bytesPerSec)

/-- A volume with clusters of one sector. -/
structure FatBootSector.IsVolume (boot : FatBootSector) : Prop
    extends boot.HasTable boot.totalDataSectors where
  cluster : boot.sectorsPerClus = 1

def FatBootSector.clusterCount (boot : FatBootSector) : ℕ :=
  boot.totalDataSectors / boot.sectorsPerClus

/-- A volume with clusters of any size, which are numbered from two on. -/
structure FatBootSector.IsFatVolume (boot : FatBootSector) : Prop
    extends boot.HasTable (boot.clusterCount + 2) where
  cluster : 1 ≤ boot.sectorsPerClus

/-- The table has an entry for every cluster number below `limit`. -/
structure FatSbInfo.TableFor (info : FatSbInfo) (limit : ℕ) : Prop where
  aligned : 4 ∣ info.bytesPerSector
  marker : info.invalidCluster = info.fatType.invalidCluster
  clusters : limit ≤ info.invalidCluster
  behind : info.fatStart + info.fatLength ≤ info.firstDataSector
  entries : limit * info.fatType.bits ≤ 8 * (info.fatLength * info.bytesPerSector)

/-- What the code relies on in a superblock if the clusters have one sector. -/
abbrev FatSbInfo.Wellformed (info : FatSbInfo) : Prop := info.TableFor info.totalDataSectors

variable {n k : ℕ} {boot : FatBootSector}

theorem le_invalidCluster_fatTypeOf (hk : k ≤ 2) (hn : n + k ≤ FatType.fat32.invalidCluster) :
    n + k ≤ (fatTypeOf n).invalidCluster := by
  unfold fatTypeOf
  split
  · next h => exact (Nat.add_le_add h.le hk).trans (by decide)
  · split
    · next h => exact (Nat.add_le_add h.le hk).trans (by decide)
    · exact hn

theorem FatBootSector.HasTable.tableFor {limit : ℕ} (h : boot.HasTable limit)
    (hclusters : limit ≤ (fatReadSuper boot).invalidCluster) :
    (fatReadSuper boot).TableFor limit := by
  refine ⟨h.bytes.aligned, rfl, hclusters, ?_, h.entries⟩
  change boot.reservedSectorCnt + boot.fatLength ≤ boot.firstDataSector
  have hfirst : boot.firstDataSector = boot.reservedSectorCnt +
      boot.numFats * boot.fatLength + boot.rootDirLength :=
    dword_of_lt (lt_of_le_of_lt h.layout h.sectors)
  have hmul := mul_le_mul_right boot.fatLength h.fats
  omega

theorem fatReadSuper_wellformed (h : boot.IsVolume) : (fatReadSuper boot).Wellformed := by
  refine h.tableFor ?_
  have hcount : boot.totalDataSectors / boot.sectorsPerClus =
      boot.totalDataSectors := by rw [h.cluster, Nat.div_one]
  change boot.totalDataSectors ≤ FatType.invalidCluster (fatTypeOf _)
  rw [hcount]
  exact @le_invalidCluster_fatTypeOf _ 0 (by decide) h.clusters

theorem FatBootSector.IsFatVolume.table (h : boot.IsFatVolume) :
    (fatReadSuper boot).TableFor (boot.clusterCount + 2) :=
  h.tableFor (le_invalidCluster_fatTypeOf le_rfl h.clusters)

/-- A small volume with 12-bit entries, two tables and sixteen clusters of one
sector. -/
def floppy : FatBootSector where
  bytesPerSec := 512
  sectorsPerClus := 1
  reservedSectorCnt := 1
  numFats := 2
  numRootDirEnts := 16
  totalSecSmall := 20
  secsPerFat := 1
  totalSectorsLarge := 0
  secsPerFat32 := 0
  rootClus := 0

theorem floppy_isFatVolume : floppy.IsFatVolume :=
  ⟨⟨by decide, by decide, by decide, by decide, by decide, by decide⟩, by decide⟩

/-! ## Entries of a byte table -/

def FatType.get (table : ℕ → UInt8) (c : ℕ) : FatType → ℕ
  | .fat12 => get12 table c
  | .fat16 => wordAt table (c * 2)
  | .fat32 => dwordAt table (c * 4) % 2 ^ 28

def FatType.set (table : ℕ → UInt8) (c v : ℕ) : FatType → ℕ → UInt8
  | .fat12 => set12 table c v
  | .fat16 => setWordAt table (c * 2) v
  | .fat32 => setDwordAt table (c * 4) v

def FatType.entryEnd (c : ℕ) : FatType → ℕ
  | .fat12 => c * 3 / 2 + 2
  | .fat16 => c * 2 + 2
  | .fat32 => c * 4 + 4

section Entries

variable {fatType : FatType} {table table' : ℕ → UInt8} {c d v : ℕ}

theorem FatType.get_congr (h : ∀ k < fatType.entryEnd c, table' k = table k) :
    fatType.get table' c = fatType.get table c := by
  cases fatType with
  | fat12 =>
    simp only [FatType.get, get12, h _ (Nat.lt_add_of_pos_right two_pos), h _ (lt_succ_self _)]
  | fat16 => exact wordAt_congr fun i hi => h _ (Nat.add_lt_add_left hi _)
  | fat32 =>
    exact congrArg (· % 2 ^ 28) (dwordAt_congr fun i hi => h _ (Nat.add_lt_add_left hi _))

theorem FatType.get_set (hv : v < 2 ^ fatType.bits) :
    fatType.get (fatType.set table c v) c = v % 2 ^ fatType.valueBits := by
  cases fatType with
  | fat12 => exact (get12_set12 table v hv).trans (mod_eq_of_lt hv).symm
  | fat16 =>
    change wordAt (setWordAt table (c * 2) v) (c * 2) = _
    rw [wordAt_setWordAt]
    rfl
  | fat32 =>
    change dwordAt (setDwordAt table (c * 4) v) (c * 4) % 2 ^ 28 = _
    rw [dwordAt_setDwordAt hv]
    rfl

theorem FatType.get_set_of_ne (hv : v < 2 ^ fatType.bits) (hd : d ≠ c) :
    fatType.get (fatType.set table c v) d = fatType.get table d := by
  cases fatType with
  | fat12 => exact get12_set12_of_ne table v hv hd
  | fat16 => exact wordAt_setWordAt_of_apart (by omega)
  | fat32 =>
    change dwordAt (setDwordAt table (c * 4) v) (d * 4) % 2 ^ 28 = _
    rw [dwordAt_setDwordAt_of_apart (by omega)]
    rfl

end Entries

/-! ## `FatAccess` -/

def fatBytes (info : FatSbInfo) (disk : Disk) : ℕ → UInt8 :=
  flat disk info.fatStart info.bytesPerSector

def fatEntry (info : FatSbInfo) (disk : Disk) (c : ℕ) : ℕ :=
  info.fatType.get (fatBytes info disk) c

section Access

variable {info : FatSbInfo} {disk : Disk} {c : ℕ}

theorem fatFirst_of_lt (info : FatSbInfo) (hc : c < 2 ^ 30) :
    fatFirst info c = match info.fatType with
      | .fat12 => c * 3 / 2
      | .fat16 => c * 2
      | .fat32 => c * 4 := by
  unfold fatFirst
  cases info.fatType with
  | fat12 => exact congrArg (· / 2) (dword_of_lt (by omega))
  | fat16 | fat32 => exact dword_of_lt (by omega)

theorem fatSector2_fat12 (h12 : info.fatType = .fat12) :
    fatSector2 info c = info.fatStart + (fatFirst info c + 1) / info.bytesPerSector := by
  have hlast : fatLast info c = fatFirst info c + 1 := by rw [fatLast, h12]
  rw [fatSector2, hlast, fatSector]
  by_cases hdvd : info.bytesPerSector ∣ fatFirst info c + 1
  · rw [succ_div_of_dvd hdvd, if_neg (succ_ne_self _).symm, add_assoc]
  · rw [succ_div_of_not_dvd hdvd, if_pos rfl]

section Aligned

variable (ha : 4 ∣ info.bytesPerSector)

include ha

theorem wordAt_sector {m j : ℕ} (hm : m ∣ 4) (hk : m ∣ k) (hj : j < m) :
    disk (info.fatStart + k / info.bytesPerSector) (k % info.bytesPerSector + j) =
      fatBytes info disk (k + j) := by
  obtain ⟨hdiv, hmod⟩ := div_mod_add_of_dvd (hm.trans ha) hk hj
  rw [fatBytes, flat, hdiv, hmod]

theorem fatRead_eq (hc : c < 2 ^ 30) : fatRead info disk c = fatEntry info disk c := by
  have hfirst := fatFirst_of_lt info hc
  unfold fatRead fatEntry
  cases htype : info.fatType with
  | fat12 =>
    rw [htype] at hfirst
    rw [fatSector2_fat12 htype, fatSector, hfirst]
    rfl
  | fat16 =>
    rw [htype] at hfirst
    rw [fatSector, hfirst]
    apply wordAt_congr
    intro i hi
    exact wordAt_sector ha (by decide : 2 ∣ 4) (Dvd.intro_left c rfl) hi
  | fat32 =>
    rw [htype] at hfirst
    rw [fatSector, hfirst, show 0xFFFFFFF = 2 ^ 28 - 1 from rfl]
    dsimp only
    rw [and_two_pow_sub_one_eq_mod]
    refine congrArg (· % 2 ^ 28) (dwordAt_congr ?_)
    intro i hi
    exact wordAt_sector ha (by decide : 4 ∣ 4) (Dvd.intro_left c rfl) hi

theorem fatBytes_fatStore (hc : c < 2 ^ 30) (v : ℕ) :
    fatBytes info (fatStore info disk c v) = info.fatType.set (fatBytes info disk) c v := by
  have hfirst := fatFirst_of_lt info hc
  unfold fatStore
  cases htype : info.fatType with
  | fat12 =>
    rw [htype] at hfirst
    rw [fatSector2_fat12 htype, fatSector, hfirst]
    dsimp only [FatType.set, set12]
    split
    · rw [fatBytes, flat_setByte, flat_setByte]
      rfl
    · rw [fatBytes, flat_setByte, flat_setByte]
      rfl
  | fat16 =>
    rw [htype] at hfirst
    rw [fatSector, hfirst]
    exact flat_setWordAt _ _ ((by decide : 2 ∣ 4).trans ha)
      (Dvd.intro_left c rfl) (by decide : 0 + 1 < 2) v
  | fat32 =>
    rw [htype] at hfirst
    rw [fatSector, hfirst]
    exact flat_setDwordAt ha (Dvd.intro_left c rfl) v

end Aligned

theorem fatBytes_fatCopy (hk : k < info.fatLength * info.bytesPerSector) :
    fatBytes info (fatCopy info disk c) k = fatBytes info disk k := by
  have hblock : ∀ i, 1 ≤ i →
      info.fatStart + info.fatLength ≤ fatSector info c + info.fatLength * i := by
    intro i hi
    exact Nat.add_le_add (Nat.le_add_right _ _) (Nat.le_mul_of_pos_right _ hi)
  have hfold : ∀ (is : List ℕ) (disk : Disk), (∀ i ∈ is, 1 ≤ i) → fatBytes info (is.foldl
          (fun disk i =>
            let block := fatSector info c + info.fatLength * i
            let disk :=
              if fatSector info c = fatSector2 info c then disk
              else copySector disk (fatSector2 info c) (block + 1)
            copySector disk (fatSector info c) block)
          disk) k = fatBytes info disk k := by
    intro is
    induction is with
    | nil => exact fun _ _ => rfl
    | cons i is ih =>
      intro disk his
      have hi := hblock i (his i mem_cons_self)
      rw [foldl_cons, ih _ (forall_mem_cons.mp his).2]
      dsimp only [fatBytes, copySector]
      rw [flat_update_of_le _ hi hk]
      split
      · rfl
      · rw [flat_update_of_le _ (hi.trans (le_succ _)) hk]
  apply hfold
  intro i hi
  exact (mem_range'_1.mp hi).1

theorem fatEntry_congr {disk' : Disk}
    (hc : info.fatType.entryEnd c ≤ info.fatLength * info.bytesPerSector)
    (hbytes : ∀ k < info.fatLength * info.bytesPerSector,
      fatBytes info disk' k = fatBytes info disk k) :
    fatEntry info disk' c = fatEntry info disk c :=
  FatType.get_congr fun k hk => hbytes k (hk.trans_le hc)

theorem fatEntry_fatWrite (ha : 4 ∣ info.bytesPerSector) (hc : c < 2 ^ 30)
    {v d : ℕ} (hv : v < 2 ^ info.fatType.bits)
    (hd : info.fatType.entryEnd d ≤ info.fatLength * info.bytesPerSector) :
    fatEntry info (fatWrite info disk c v) d = if d = c then v % 2 ^ info.fatType.valueBits
      else fatEntry info disk d := by
  rw [fatWrite, fatEntry_congr hd fun k hk => fatBytes_fatCopy hk, fatEntry,
    fatBytes_fatStore ha hc]
  split
  · next hdc =>
    rw [hdc, FatType.get_set hv]
  · next hdc => exact FatType.get_set_of_ne hv hdc

section TableFor

variable {limit : ℕ} (h : info.TableFor limit)

include h

theorem entryEnd_le (hc : c < limit) :
    info.fatType.entryEnd c ≤ info.fatLength * info.bytesPerSector := by
  have hentries := h.entries
  have hmul := mul_le_mul_right info.fatType.bits hc
  cases htype : info.fatType <;> rw [htype] at hentries hmul <;>
    simp only [FatType.bits, FatType.entryEnd] at hentries hmul ⊢ <;> omega

theorem lt_valueBits {v : ℕ} (hv : v ≤ info.invalidCluster) : v < 2 ^ info.fatType.valueBits := by
  rw [h.marker] at hv
  exact hv.trans_lt (by cases info.fatType <;> decide)

theorem lt_of_lt_limit (hc : c < limit) : c < 2 ^ 30 := by
  have hlt := lt_valueBits h (hc.le.trans h.clusters)
  exact hlt.trans_le ((Nat.pow_le_pow_right (by decide) (by cases info.fatType <;> decide)))

theorem fatEntry_write (hc : c < limit) {v d : ℕ} (hv : v ≤ info.invalidCluster) (hd : d < limit) :
    fatEntry info (fatWrite info disk c v) d = if d = c then v else fatEntry info disk d := by
  have hvalue := lt_valueBits h hv
  have hbits : v < 2 ^ info.fatType.bits := hvalue.trans_le
    (Nat.pow_le_pow_right (by decide) (by cases info.fatType <;> decide))
  rw [fatEntry_fatWrite h.aligned (lt_of_lt_limit h hc) hbits
    (entryEnd_le h hd), mod_eq_of_lt hvalue]

theorem fatAccess_read (hc : c < limit) (hrange : c ≤ info.totalDataSectors) :
    fatAccess info disk c none = some (fatEntry info disk c, disk) := by
  rw [fatAccess, if_neg hrange.not_gt, fatRead_eq h.aligned (lt_of_lt_limit h hc)]

theorem fatAccess_write (hc : c < limit) (hrange : c ≤ info.totalDataSectors) (v : ℕ) :
    fatAccess info disk c (some v) = some (fatEntry info disk c, fatWrite info disk c v) := by
  rw [fatAccess, if_neg hrange.not_gt, fatRead_eq h.aligned (lt_of_lt_limit h hc)]

end TableFor

end Access

end Whitix.Fat
