import Whitix.Fs.Fat.Entry

/-!
# Access to a cell of the table

`FatAccess` reads and writes one cell of the table, and keeps the copies of the
table alike.  It refuses cluster numbers above the number of data sectors,
although the clusters are numbered from two on.
-/

namespace Whitix.Fat

open Support Function List Nat

/-! ## The copies of the table -/

/-- All copies of the table have the same bytes. -/
def Mirrored (info : FatSbInfo) (disk : Disk) : Prop :=
  ∀ i < info.numFats, ∀ j < info.fatLength, ∀ k < info.bytesPerSector,
    disk (info.fatStart + info.fatLength * i + j) k = disk (info.fatStart + j) k

/-- The entry of a cluster number lies inside the table. -/
structure InTable (info : FatSbInfo) (c : ℕ) : Prop where
  number : c < 2 ^ info.fatType.valueBits
  inside : info.fatType.entryEnd c ≤ info.fatLength * info.bytesPerSector

variable {i' n i j m : ℕ}

section Copies

variable {info : FatSbInfo} {disk : Disk} {c : ℕ}

theorem InTable.lt (h : InTable info c) : c < 2 ^ 30 :=
  h.number.trans_le (Nat.pow_le_pow_right (by decide) (by cases info.fatType <;> decide))

theorem fatStore_of_ne {v sector : ℕ} (hfirst : sector ≠ fatSector info c)
    (hsecond : sector ≠ fatSector2 info c) : fatStore info disk c v sector = disk sector := by
  unfold fatStore
  cases info.fatType with
  | fat12 =>
    dsimp only
    split
    · rw [setByte, update_of_ne hsecond, setByte, update_of_ne hfirst]
    · rw [setByte, update_of_ne hsecond, setByte, update_of_ne hfirst]
  | fat16 | fat32 => exact update_of_ne hfirst _ _

theorem fatSector2_cases (info : FatSbInfo) (c : ℕ) :
    fatSector2 info c = fatSector info c ∨ fatSector2 info c = fatSector info c + 1 := by
  unfold fatSector2
  split
  · exact .inl rfl
  · exact .inr rfl

theorem InTable.sectors (h : InTable info c) :
    ∃ m < info.fatLength, ∃ n < info.fatLength, fatSector info c = info.fatStart + m ∧
      fatSector2 info c = info.fatStart + n := by
  have hfirst := fatFirst_of_lt info h.lt
  have hend := h.inside
  have hlt : ∀ k, k < info.fatLength * info.bytesPerSector →
      k / info.bytesPerSector < info.fatLength := fun k hk =>
    Nat.div_lt_of_lt_mul (by rwa [mul_comm])
  have hsame : info.fatType ≠ .fat12 → fatSector2 info c = fatSector info c := by
    intro htype
    unfold fatSector2 fatLast
    cases hcase : info.fatType with
    | fat12 => exact absurd hcase htype
    | fat16 | fat32 => exact if_pos rfl
  cases htype : info.fatType with
  | fat12 =>
    rw [htype] at hfirst hend
    dsimp only [FatType.entryEnd] at hfirst hend
    refine ⟨_, hlt (c * 3 / 2) (by omega), _, hlt (c * 3 / 2 + 1) (by omega), ?_, ?_⟩
    · rw [fatSector, hfirst]
    · rw [fatSector2_fat12 htype, hfirst]
  | fat16 =>
    rw [htype] at hfirst hend
    dsimp only [FatType.entryEnd] at hfirst hend
    have hm := hlt (c * 2) (by omega)
    refine ⟨_, hm, _, hm, ?_, ?_⟩
    · rw [fatSector, hfirst]
    · rw [hsame (by rw [htype]; decide), fatSector, hfirst]
  | fat32 =>
    rw [htype] at hfirst hend
    dsimp only [FatType.entryEnd] at hfirst hend
    have hm := hlt (c * 4) (by omega)
    refine ⟨_, hm, _, hm, ?_, ?_⟩
    · rw [fatSector, hfirst]
    · rw [hsame (by rw [htype]; decide), fatSector, hfirst]

theorem copy_sector_inj {length j' : ℕ} (hj : j < length) (hj' : j' < length)
    (h : length * i + j = length * i' + j') : i = i' ∧ j = j' := by
  have hdiv := congrArg (· / length) h
  have hmod := congrArg (· % length) h
  rw [mul_add_div (by omega), mul_add_div (by omega), div_eq_of_lt hj, div_eq_of_lt hj'] at hdiv
  rw [mul_add_mod, mul_add_mod, mod_eq_of_lt hj, mod_eq_of_lt hj'] at hmod
  exact ⟨hdiv, hmod⟩

def fatCopyTo (info : FatSbInfo) (c : ℕ) (disk : Disk) (i : ℕ) : Disk :=
  copySector (if fatSector info c = fatSector2 info c then disk
      else copySector disk (fatSector2 info c) (fatSector info c + info.fatLength * i + 1))
    (fatSector info c) (fatSector info c + info.fatLength * i)

theorem fatCopy_eq (info : FatSbInfo) (disk : Disk) (c : ℕ) :
    fatCopy info disk c = (range' 1 (info.numFats - 1)).foldl (fatCopyTo info c) disk := rfl

theorem fatCopyTo_spec (hi : 1 ≤ i) (hm : m < info.fatLength) (hn : n < info.fatLength)
    (hfirst : fatSector info c = info.fatStart + m)
    (hsecond : fatSector2 info c = info.fatStart + n) (hj : j < info.fatLength) :
    fatCopyTo info c disk i (info.fatStart + info.fatLength * i' + j) =
      if i' = i ∧ (j = m ∨ j = n) then disk (info.fatStart + j)
      else disk (info.fatStart + info.fatLength * i' + j) := by
  have hne : ∀ x < info.fatLength, ¬ (i' = i ∧ j = x) → info.fatStart + info.fatLength * i' + j ≠
        info.fatStart + info.fatLength * i + x := by
    intro x hx hdiff heq
    exact hdiff (copy_sector_inj hj hx (by omega))
  -- The first table is not written to.
  have hzero : ∀ x < info.fatLength,
      info.fatStart + m ≠ info.fatStart + info.fatLength * i + x := by
    intro x hx heq
    have hcopy : 0 = i ∧ m = x :=
      copy_sector_inj hm hx (by rw [mul_zero]; omega)
    omega
  have hm' : fatSector info c + info.fatLength * i =
      info.fatStart + info.fatLength * i + m := by omega
  unfold fatCopyTo copySector
  rw [hm', hfirst, hsecond]
  by_cases hsame : info.fatStart + m = info.fatStart + n
  · obtain rfl : m = n := by omega
    rw [if_pos rfl]
    by_cases hjm : i' = i ∧ j = m
    · rw [hjm.1, hjm.2, update_self, if_pos ⟨rfl, .inl rfl⟩]
    · rw [update_of_ne (hne m hm hjm), if_neg fun h => hjm ⟨h.1, h.2.elim id id⟩]
  · rw [if_neg hsame]
    have hn' : info.fatStart + info.fatLength * i + m + 1 =
        info.fatStart + info.fatLength * i + n := by
      rcases fatSector2_cases info c with heq | heq
      · omega
      · omega
    rw [hn', update_of_ne (hzero n hn)]
    by_cases hjm : i' = i ∧ j = m
    · rw [hjm.1, hjm.2, update_self, if_pos ⟨rfl, .inl rfl⟩]
    · rw [update_of_ne (hne m hm hjm)]
      by_cases hjn : i' = i ∧ j = n
      · rw [hjn.1, hjn.2, update_self, if_pos ⟨rfl, .inr rfl⟩]
      · rw [update_of_ne (hne n hn hjn), if_neg]
        rintro ⟨hi', hj' | hj'⟩
        · exact hjm ⟨hi', hj'⟩
        · exact hjn ⟨hi', hj'⟩

theorem fatCopy_spec (hm : m < info.fatLength)
    (hn : n < info.fatLength) (hfirst : fatSector info c = info.fatStart + m)
    (hsecond : fatSector2 info c = info.fatStart + n) {is : List ℕ}
    (his : ∀ i ∈ is, 1 ≤ i) (hj : j < info.fatLength) :
    is.foldl (fatCopyTo info c) disk (info.fatStart + info.fatLength * i + j) =
      if i ∈ is ∧ (j = m ∨ j = n) then disk (info.fatStart + j)
      else disk (info.fatStart + info.fatLength * i + j) := by
  induction is generalizing disk with
  | nil => rw [if_neg fun h => not_mem_nil h.1]; rfl
  | cons i₀ is ih =>
    have hi₀ := his i₀ mem_cons_self
    have hstep : ∀ i', fatCopyTo info c disk i₀
        (info.fatStart + info.fatLength * i' + j) = _ := fun i' =>
      fatCopyTo_spec hi₀ hm hn hfirst hsecond hj
    have htable : fatCopyTo info c disk i₀ (info.fatStart + j) = disk (info.fatStart + j) := by
      have h := hstep 0
      rw [mul_zero, if_neg (by omega)] at h
      exact h
    rw [foldl_cons, ih (forall_mem_cons.mp his).2, htable, hstep i]
    by_cases hentry : j = m ∨ j = n
    · by_cases hi : i ∈ is
      · rw [if_pos ⟨hi, hentry⟩, if_pos ⟨mem_cons_of_mem i₀ hi, hentry⟩]
      · rw [if_neg fun h => hi h.1]
        exact if_congr (by simp [hi, hentry]) rfl rfl
    · rw [if_neg fun h => hentry h.2, if_neg fun h => hentry h.2, if_neg fun h => hentry h.2]

theorem Mirrored.fatWrite (hmirrored : Mirrored info disk) (hc : InTable info c) (v : ℕ) :
    Mirrored info (fatWrite info disk c v) := by
  obtain ⟨m, hm, n, hn, hfirst, hsecond⟩ := hc.sectors
  have his : ∀ i ∈ range' 1 (info.numFats - 1), 1 ≤ i := fun i hi =>
    (mem_range'_1.mp hi).1
  intro i hi j hj k hk
  have htable := @fatCopy_spec n 0 j m info (fatStore info disk c v) c hm hn hfirst hsecond _ his hj
  rw [if_neg fun h => not_succ_le_zero 0 (his 0 h.1), mul_zero, add_zero] at htable
  rw [Fat.fatWrite, fatCopy_eq, fatCopy_spec hm hn hfirst hsecond his hj, htable]
  split
  · rfl
  · next hcopy =>
    by_cases hzero : i = 0
    · rw [hzero, mul_zero, add_zero]
    -- No copy was made here, so the sector does not belong to the entry.
    have hmem : i ∈ range' 1 (info.numFats - 1) :=
      mem_range'_1.mpr (by omega)
    have hentry : ¬ (j = m ∨ j = n) := fun h => hcopy ⟨hmem, h⟩
    have hsector : ∀ i', info.fatStart + info.fatLength * i' + j ≠ fatSector info c ∧
        info.fatStart + info.fatLength * i' + j ≠ fatSector2 info c := by
      intro i'
      rw [hfirst, hsecond]
      have hinj : ∀ x < info.fatLength,
          info.fatStart + info.fatLength * i' + j = info.fatStart + x →
            i' = 0 ∧ j = x := fun x hx heq =>
        copy_sector_inj hj hx (by rw [mul_zero]; omega)
      exact ⟨fun heq => hentry (.inl (hinj m hm heq).2), fun heq => hentry (.inr (hinj n hn heq).2)⟩
    have hfirst' := hsector 0
    rw [mul_zero, add_zero] at hfirst'
    rw [fatStore_of_ne (hsector i).1 (hsector i).2, fatStore_of_ne hfirst'.1 hfirst'.2]
    exact hmirrored i hi j hj k hk

end Copies

/-! ## One cell -/

/-- The argument `newVal`, where `-1` asks for no change. -/
def newValArg (v : ℕ) : Option ℕ := if v = 2 ^ 32 - 1 then none else some v

/-- A write to the cell of `c` returns the old value, is read back, changes no
other cell and keeps the copies of the table alike. -/
def CellAccess (info : FatSbInfo) (disk : Disk) (c d v : ℕ) : Prop :=
  ∃ old disk', fatAccess info disk c none = some (old, disk) ∧
    fatAccess info disk c (newValArg v) = some (old, disk') ∧
    fatAccess info disk' c none = some (v % 2 ^ info.fatType.valueBits, disk') ∧
    (d ≠ c → ∃ value, fatAccess info disk d none = some (value, disk) ∧
      fatAccess info disk' d none = some (value, disk')) ∧
    (Mirrored info disk → Mirrored info disk')

section CellAccess

variable {info : FatSbInfo} {disk : Disk} {c : ℕ}

theorem fatAccess_panics {newVal : Option ℕ} (hc : info.totalDataSectors < c) :
    fatAccess info disk c newVal = none := if_pos hc

section

variable (ha : 4 ∣ info.bytesPerSector) (h : InTable info c) (hc : c ≤ info.totalDataSectors)
include ha h hc

theorem InTable.fatAccess_read :
    fatAccess info disk c none = some (fatEntry info disk c, disk) := by
  rw [fatAccess, if_neg hc.not_gt, fatRead_eq ha h.lt]

theorem InTable.fatAccess_write (v : ℕ) :
    fatAccess info disk c (some v) = some (fatEntry info disk c, fatWrite info disk c v) := by
  rw [fatAccess, if_neg hc.not_gt, fatRead_eq ha h.lt]

end

end CellAccess

/-- `FatAccess` is access to a cell of the table exactly for the cluster numbers
that are not above the number of data sectors. -/
theorem fatAccess_cell_iff (boot : FatBootSector) (hvolume : boot.IsFatVolume) (disk : Disk)
    (c d v : ℕ) (hc : InTable (fatReadSuper boot) c) (hd : InTable (fatReadSuper boot) d)
    (hv : v < 2 ^ (fatReadSuper boot).fatType.bits) (hv' : v ≠ 2 ^ 32 - 1) :
    CellAccess (fatReadSuper boot) disk c d v ↔ c ≤ (fatReadSuper boot).totalDataSectors ∧
      d ≤ (fatReadSuper boot).totalDataSectors := by
  have ha := hvolume.bytes.aligned
  have hnew : newValArg v = some v := if_neg hv'
  constructor
  · rintro ⟨old, disk', hold, -, -, hother, -⟩
    have hle : c ≤ (fatReadSuper boot).totalDataSectors := by
      by_contra hlt
      rw [fatAccess_panics (not_le.mp hlt)] at hold
      cases hold
    refine ⟨hle, ?_⟩
    by_cases hdc : d = c
    · exact hdc ▸ hle
    · by_contra hlt
      obtain ⟨value, hvalue, -⟩ := hother hdc
      rw [fatAccess_panics (not_le.mp hlt)] at hvalue
      cases hvalue
  · rintro ⟨hcle, hdle⟩
    refine ⟨_, fatWrite (fatReadSuper boot) disk c v,
      hc.fatAccess_read ha hcle, ?_, ?_, fun hdc => ?_,
      fun hmirrored => hmirrored.fatWrite hc v⟩
    · rw [hnew, hc.fatAccess_write ha hcle]
    · rw [hc.fatAccess_read ha hcle, fatEntry_fatWrite ha hc.lt hv hc.inside, if_pos rfl]
    · refine ⟨_, hd.fatAccess_read ha hdle, ?_⟩
      rw [hd.fatAccess_read ha hdle, fatEntry_fatWrite ha hc.lt hv hd.inside, if_neg hdc]

/-- The last cluster but one and the first one. -/
theorem fatAccess_cell_iff_floppy : CellAccess (fatReadSuper floppy) (fun _ _ => 0) 16 2 0xABC :=
  (fatAccess_cell_iff floppy floppy_isFatVolume _ 16 2 0xABC
    ⟨by decide, by decide⟩ ⟨by decide, by decide⟩ (by decide)
    (by decide)).mpr ⟨by decide, by decide⟩

/-- `FatAccess` refuses the last cluster of the volume. -/
theorem fatAccess_last_cluster_panics :
    floppy.IsFatVolume ∧ floppy.clusterCount + 1 = 17 ∧ InTable (fatReadSuper floppy) 17 ∧
      InTable (fatReadSuper floppy) 2 ∧
      fatAccess (fatReadSuper floppy) (fun _ _ => 0) 17 none = none ∧
      ¬ CellAccess (fatReadSuper floppy) (fun _ _ => 0) 17 2 5 := by
  have hpanic : fatAccess (fatReadSuper floppy) (fun _ _ => 0) 17 none =
      none := by decide
  refine ⟨floppy_isFatVolume, by decide, ⟨by decide, by decide⟩, ⟨by decide, by decide⟩, hpanic, ?_⟩
  rintro ⟨old, disk', hold, -⟩
  cases hold

end Whitix.Fat
