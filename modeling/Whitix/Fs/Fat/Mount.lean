import Whitix.Fs.Fat.FreeCount

/-!
# Mounting a volume

Apart from the size of its sectors, nothing in a boot sector is checked.  The
layout is consistent if the boot sector is, and not otherwise.  On a volume with
entries of 32 bits the vnode of the root directory is read along its chain, so
that the mount returns only if the chain ends.
-/

namespace Whitix.Fat

open Support List

/-! ## The source -/

/-- The results of the calls in `FatReadSuper`, `true` for success. -/
structure MountCalls where
  dev : Bool
  setBlockSize : Bool
  bootRead : Bool
  allocSuper : Bool
  memAlloc : Bool
  /-- The sector `fsInfo`, if it can be read. -/
  fsInfo : Option (ℕ → UInt8)
  setSectorSize : Bool
  vNodeAlloc : Bool
  /-- The `MemAlloc` of `FatReadVNode`. -/
  vNodeInfo : Bool
  /-- Whether the reads of the table succeed, one after the other. -/
  tableRead : ℕ → Bool

inductive Mounted
  /-- A division by zero, or a write through a null pointer. -/
  | fault
  /-- A panic, or a walk along the table that has not ended. -/
  | stuck
  | null
  | super (info : FatSbInfo)

/-- The count of free clusters that it stores is in the state of the volume. -/
def fatReadFsInfo : Option (ℕ → UInt8) → ℤ
  | none => - EIO
  | some data =>
    if data 0 ≠ 0x52 ∨ data 1 ≠ 0x52 ∨ data 2 ≠ 0x61 ∨ data 3 ≠ 0x41 then - EINVAL
    else if data 510 ≠ 0x55 ∨ data 511 ≠ 0xAA then - EINVAL
    else 0

section Root

variable (info : FatSbInfo) (disk : Disk)

/-- The loop of `FatGetDirSize`, which counts the clusters of a chain. -/
def fatDirClusters : (ℕ → Bool) → ℕ → ℕ → Option ℕ
  | _, 0, _ => none
  | tableRead, fuel + 1, cluster =>
    if info.invalidCluster ≤ cluster then some 0
    else
      (fatAccess info disk cluster none).bind fun r =>
        -- `FatAccess` returns 0 if the sector cannot be read
        let next := if tableRead 0 then r.1 else 0
        (fatDirClusters (fun i => tableRead (i + 1)) fuel next).map (· + 1)

/-- In directory entries. -/
def fatGetDirSize (tableRead : ℕ → Bool) (fuel cluster : ℕ) : Option ℕ :=
  if info.fatType ≠ .fat32 ∧ cluster = 0 then
    some (dword (info.rootDirLength * (info.bytesPerSector / sizeofDirEntry)))
  else
    (fatDirClusters info disk tableRead fuel cluster).map fun clusters =>
      dword (clusters * (info.bytesPerSector / sizeofDirEntry) * info.secsPerClus)

/-- `FatReadVNode` for the root directory, with the superblock that it leaves. -/
def fatReadRootVNode (tableRead : ℕ → Bool) (fuel : ℕ) : Option FatSbInfo :=
  if info.fatType = .fat32 then
    (fatGetDirSize info disk tableRead fuel info.rootDirStart).map fun size =>
      { info with rootDirLength := size }
  else some info

end Root

/-- `FatReadSuper` -/
def fatMount (fuel : ℕ) (calls : MountCalls) (disk : Disk) (boot : FatBootSector) : Mounted :=
  if !calls.dev then .null
  else if !calls.setBlockSize then .null
  else if !calls.bootRead then .null
  else if boot.bytesPerSec ≠ 512 ∧ boot.bytesPerSec ≠ 1024 ∧ boot.bytesPerSec ≠ 2048 ∧
      boot.bytesPerSec ≠ 4096 then .null
  else if !calls.allocSuper then .null
  else if !calls.memAlloc then .null
  else if boot.sectorsPerClus = 0 then .fault
  else if (fatReadSuper boot).fatType = .fat32 ∧ fatReadFsInfo calls.fsInfo ≠ 0 then .null
  else if !calls.setSectorSize then .null
  else if !calls.vNodeAlloc then .null
  else if !calls.vNodeInfo then .fault
  else
    match fatReadRootVNode (fatReadSuper boot) disk calls.tableRead fuel with
    | none => .stuck
    | some info => .super info

/-- The vnode of the root directory gets its memory, and the table can be read. -/
def MountCalls.Serve (calls : MountCalls) : Prop :=
  calls.vNodeInfo = true ∧ ∀ i, calls.tableRead i = true

/-! ## Consistent volumes -/

namespace FatBootSector

variable (boot : FatBootSector)

def metadata : ℕ :=
  boot.reservedSectorCnt + boot.numFats * boot.fatLength + boot.rootDirLength

def dataClusters : ℕ := (boot.totalSectors - boot.metadata) / boot.sectorsPerClus

def rootSector : ℕ := boot.reservedSectorCnt + boot.numFats * boot.secsPerFat

/-- The boot sector describes a volume. -/
structure Consistent : Prop where
  cluster : 0 < boot.sectorsPerClus
  layout : boot.metadata ≤ boot.totalSectors
  entries : (boot.dataClusters + 2) * (fatTypeOf boot.dataClusters).bits ≤
    8 * (boot.fatLength * boot.bytesPerSec)
  /-- The length of the table is in the field for the type of the volume. -/
  root : (fatTypeOf boot.dataClusters = .fat32 ↔ boot.secsPerFat = 0 ∧ 0 < boot.secsPerFat32) ∨
    boot.rootClus = boot.rootSector

/-- The chain of the root directory ends, and its clusters are not above the number
of the data sectors. -/
def RootEnds (disk : Disk) : Prop :=
  FatType.fat32.invalidCluster ≤ boot.rootClus ∨
    ∃ cs, FatChain (fatReadSuper boot) disk (boot.rootClus :: cs) ∧
      ∀ c ∈ boot.rootClus :: cs, c ≤ boot.totalSectors - boot.metadata

end FatBootSector

/-- The superblock fits the volume.  The root directory is given by a cluster if
the entries have 32 bits, and by a sector otherwise. -/
structure FatSbInfo.Fits (info : FatSbInfo) (boot : FatBootSector) : Prop where
  cluster : 0 < info.secsPerClus
  unwrapped : info.firstDataSector = boot.metadata
  layout : info.firstDataSector ≤ boot.totalSectors
  entries : (info.totalDataSectors / info.secsPerClus + 2) * info.fatType.bits ≤
    8 * (info.fatLength * info.bytesPerSector)
  root : info.rootDirStart = if info.fatType = .fat32 then boot.rootClus else boot.rootSector

def Mounted.Safe (boot : FatBootSector) : Mounted → Prop
  | .fault | .stuck => False
  | .null => True
  | .super info => info.Fits boot

section Mount

variable {boot : FatBootSector}

theorem dataClusters_eq (hfirst : boot.firstDataSector = boot.metadata)
    (hlayout : boot.metadata ≤ boot.totalSectors) :
    boot.totalDataSectors / boot.sectorsPerClus = boot.dataClusters := by
  rw [FatBootSector.totalDataSectors, hfirst, dwordSub_of_le hlayout, FatBootSector.dataClusters]

theorem rootDirStart_iff {p q : Prop} [Decidable p] [Decidable q] {a b : ℕ} :
    ((if q then a else b) = if p then a else b) ↔ (p ↔ q) ∨ a = b := by
  by_cases hp : p <;> by_cases hq : q <;> simp [hp, hq, eq_comm]

theorem fits_iff (hsectors : boot.totalSectors < 2 ^ 32) :
    (fatReadSuper boot).Fits boot ↔ boot.Consistent := by
  constructor
  · intro h
    have hlayout : boot.metadata ≤ boot.totalSectors := h.unwrapped ▸ h.layout
    have hclusters := dataClusters_eq h.unwrapped hlayout
    have hentries := h.entries
    have hroot := rootDirStart_iff.1 h.root
    simp only [fatReadSuper, hclusters] at hentries hroot
    exact ⟨h.cluster, hlayout, hentries, hroot⟩
  · intro h
    have hfirst : boot.firstDataSector = boot.metadata :=
      dword_of_lt (h.layout.trans_lt hsectors)
    have hclusters := dataClusters_eq hfirst h.layout
    refine ⟨h.cluster, hfirst, hfirst.trans_le h.layout, ?_, rootDirStart_iff.2 ?_⟩
    · simpa only [fatReadSuper, hclusters] using h.entries
    · simpa only [fatReadSuper, hclusters, FatBootSector.rootSector] using h.root

/-- All calls succeed, and the sector `fsInfo` is valid. -/
def successful : MountCalls where
  dev := true
  setBlockSize := true
  bootRead := true
  allocSuper := true
  memAlloc := true
  fsInfo := some fun i =>
    if i < 2 then 0x52 else if i = 2 then 0x61 else if i = 3 then 0x41
    else if i = 510 then 0x55 else 0xAA
  setSectorSize := true
  vNodeAlloc := true
  vNodeInfo := true
  tableRead := fun _ => true

theorem serve_successful : successful.Serve := ⟨rfl, fun _ => rfl⟩

end Mount

/-! ## The chain of the root directory -/

section Root

variable {info : FatSbInfo} {disk : Disk} {tableRead : ℕ → Bool} {c : ℕ}

theorem fatDirClusters_succ (ha : 4 ∣ info.bytesPerSector) (hmarker : info.invalidCluster ≤ 2 ^ 30)
    (hread : ∀ i, tableRead i = true) (hc : ¬ info.invalidCluster ≤ c)
    (htotal : c ≤ info.totalDataSectors) (fuel : ℕ) :
    fatDirClusters info disk tableRead (fuel + 1) c =
      (fatDirClusters info disk (fun i => tableRead (i + 1)) fuel
        (fatEntry info disk c)).map (· + 1) := by
  have haccess : fatAccess info disk c none = some (fatEntry info disk c, disk) := by
    rw [fatAccess, if_neg htotal.not_gt, fatRead_eq ha ((not_le.mp hc).trans_le hmarker)]
  rw [fatDirClusters, if_neg hc, haccess, Option.bind_some]
  simp only [hread 0, if_true]

/-- The loop of `FatGetDirSize` ends exactly if the chain does, before a cluster that
makes `FatAccess` panic. -/
theorem fatDirClusters_returns_iff (ha : 4 ∣ info.bytesPerSector)
    (hmarker : info.invalidCluster ≤ 2 ^ 30) (hread : ∀ i, tableRead i = true) :
    (∃ fuel clusters, fatDirClusters info disk tableRead fuel c = some clusters) ↔
      info.invalidCluster ≤ c ∨ ∃ cs, FatChain info disk (c :: cs) ∧
        ∀ x ∈ c :: cs, x ≤ info.totalDataSectors := by
  constructor
  · rintro ⟨fuel, clusters, h⟩
    induction fuel generalizing c clusters tableRead with
    | zero => cases h
    | succ fuel ih =>
      by_cases hc : info.invalidCluster ≤ c
      · exact .inl hc
      by_cases htotal : c ≤ info.totalDataSectors
      · rw [fatDirClusters_succ ha hmarker hread hc htotal, Option.map_eq_some_iff] at h
        obtain ⟨rest, hrest, -⟩ := h
        right
        by_cases hd : info.invalidCluster ≤ fatEntry info disk c
        · exact ⟨[], hd, forall_mem_singleton.mpr htotal⟩
        · obtain ⟨cs, hchain, hrange⟩ := (ih (fun i => hread (i + 1)) rest hrest).resolve_left hd
          exact ⟨_ :: cs, ⟨rfl, hd, hchain⟩, forall_mem_cons.mpr ⟨htotal, hrange⟩⟩
      · have hpanic : fatAccess info disk c none = none := if_pos (not_le.mp htotal)
        rw [fatDirClusters, if_neg hc, hpanic] at h
        cases h
  · have hend {c : ℕ} (tableRead : ℕ → Bool) (hc : info.invalidCluster ≤ c) :
        fatDirClusters info disk tableRead 1 c = some 0 := if_pos hc
    intro h
    by_cases hc : info.invalidCluster ≤ c
    · exact ⟨1, 0, hend tableRead hc⟩
    obtain ⟨cs, hchain, hrange⟩ := h.resolve_left hc
    clear h
    induction cs generalizing c tableRead with
    | nil =>
      refine ⟨2, 1, ?_⟩
      rw [fatDirClusters_succ ha hmarker hread hc (hrange c mem_cons_self), hend _ hchain]
      rfl
    | cons d cs ih =>
      obtain ⟨hnext, hd, hrest⟩ := hchain
      obtain ⟨htotal, hrange'⟩ := forall_mem_cons.mp hrange
      obtain ⟨fuel, clusters, h⟩ := ih (fun i => hread (i + 1)) hd hrest hrange'
      refine ⟨fuel + 1, clusters + 1, ?_⟩
      rw [fatDirClusters_succ ha hmarker hread hc htotal, hnext, h]
      rfl

/-- Reading the root directory leaves a superblock that fits the volume as before. -/
theorem fits_fatReadRootVNode {info' : FatSbInfo} {fuel : ℕ} {boot : FatBootSector}
    (h : fatReadRootVNode info disk tableRead fuel = some info') :
    info'.Fits boot ↔ info.Fits boot := by
  unfold fatReadRootVNode at h
  split at h
  · obtain ⟨size, -, rfl⟩ := Option.map_eq_some_iff.mp h
    exact ⟨fun h => { h with }, fun h => { h with }⟩
  · cases h
    rfl

theorem fatReadRootVNode_returns_iff (ha : 4 ∣ info.bytesPerSector)
    (hmarker : info.invalidCluster = info.fatType.invalidCluster)
    (hread : ∀ i, tableRead i = true) :
    (∃ fuel info', fatReadRootVNode info disk tableRead fuel = some info') ↔
      (info.fatType = .fat32 → info.invalidCluster ≤ info.rootDirStart ∨
        ∃ cs, FatChain info disk (info.rootDirStart :: cs) ∧
          ∀ x ∈ info.rootDirStart :: cs, x ≤ info.totalDataSectors) := by
  by_cases htype : info.fatType = .fat32
  · have hle : info.invalidCluster ≤ 2 ^ 30 := by
      rw [hmarker, htype]
      decide
    rw [← fatDirClusters_returns_iff ha hle hread]
    simp [fatReadRootVNode, fatGetDirSize, htype]
  · simp [fatReadRootVNode, htype]

end Root

section Mount

variable {boot : FatBootSector} {disk : Disk}

theorem rootEnds_iff (hsectors : boot.totalSectors < 2 ^ 32) (h : boot.Consistent)
    (hbytes : boot.SectorSize) {tableRead : ℕ → Bool} (hread : ∀ i, tableRead i = true) :
    (∃ fuel info, fatReadRootVNode (fatReadSuper boot) disk tableRead fuel = some info) ↔
      (fatTypeOf boot.dataClusters = .fat32 → boot.RootEnds disk) := by
  have hfits := (fits_iff hsectors).2 h
  have htype : (fatReadSuper boot).fatType = fatTypeOf boot.dataClusters :=
    congrArg fatTypeOf (dataClusters_eq hfits.unwrapped h.layout)
  have htotal : (fatReadSuper boot).totalDataSectors = boot.totalSectors - boot.metadata := by
    change boot.totalDataSectors = _
    rw [← hfits.unwrapped]
    exact dwordSub_of_le hfits.layout
  rw [fatReadRootVNode_returns_iff hbytes.aligned rfl hread, htype]
  refine forall_congr' fun h32 => ?_
  have hroot : (fatReadSuper boot).rootDirStart = boot.rootClus := by
    rw [hfits.root, htype, if_pos h32]
  have hmarker : (fatReadSuper boot).invalidCluster = FatType.fat32.invalidCluster :=
    congrArg FatType.invalidCluster (htype.trans h32)
  rw [hroot, htotal, hmarker, FatBootSector.RootEnds]

theorem fatMount_successful (hbytes : boot.SectorSize) (fuel : ℕ) :
    fatMount fuel successful disk boot =
      if boot.sectorsPerClus = 0 then .fault
      else
        match fatReadRootVNode (fatReadSuper boot) disk successful.tableRead fuel with
        | none => .stuck
        | some info => .super info := by
  have hinfo : fatReadFsInfo successful.fsInfo = 0 := by decide
  rw [fatMount, hinfo, if_neg (by decide), if_neg (by decide), if_neg (by decide),
    if_neg (by unfold FatBootSector.SectorSize at hbytes; omega)]
  simp [successful]

theorem fatMount_safe {calls : MountCalls} (hserve : calls.Serve) {fuel : ℕ}
    (h : boot.SectorSize → (fatReadSuper boot).Fits boot ∧
      ∃ info, fatReadRootVNode (fatReadSuper boot) disk calls.tableRead fuel = some info) :
    (fatMount fuel calls disk boot).Safe boot := by
  have hsize (hbytes : ¬ (boot.bytesPerSec ≠ 512 ∧ boot.bytesPerSec ≠ 1024 ∧
      boot.bytesPerSec ≠ 2048 ∧ boot.bytesPerSec ≠ 4096)) : boot.SectorSize := by
    unfold FatBootSector.SectorSize
    omega
  fun_cases fatMount fuel calls disk boot
  case case7 hbytes _ _ hzero => exact absurd hzero (h (hsize hbytes)).1.cluster.ne'
  case case11 hinfo => exact absurd hserve.1 (by simpa using hinfo)
  case case12 hbytes _ _ _ _ _ _ _ hstuck =>
    obtain ⟨info, hinfo⟩ := (h (hsize hbytes)).2
    cases hstuck.symm.trans hinfo
  case case13 hbytes _ _ _ _ _ _ _ info hinfo =>
    exact (fits_fatReadRootVNode hinfo).2 (h (hsize hbytes)).1
  all_goals trivial

theorem fatMount_consistent_iff (boot : FatBootSector) (hsectors : boot.totalSectors < 2 ^ 32)
    (disk : Disk) :
    (∀ calls : MountCalls, calls.Serve → ∃ fuel, (fatMount fuel calls disk boot).Safe boot) ↔
      (boot.SectorSize → boot.Consistent ∧
        (fatTypeOf boot.dataClusters = .fat32 → boot.RootEnds disk)) := by
  constructor
  · intro h hbytes
    obtain ⟨fuel, hsafe⟩ := h successful serve_successful
    rw [fatMount_successful hbytes] at hsafe
    split at hsafe
    · exact hsafe.elim
    split at hsafe
    · exact hsafe.elim
    next info hinfo =>
      have hconsistent := (fits_iff hsectors).1 ((fits_fatReadRootVNode hinfo).1 hsafe)
      exact ⟨hconsistent, (rootEnds_iff hsectors hconsistent hbytes serve_successful.2).1
        ⟨fuel, info, hinfo⟩⟩
  · intro h calls hserve
    by_cases hbytes : boot.SectorSize
    · obtain ⟨hconsistent, hroot⟩ := h hbytes
      obtain ⟨fuel, info, hinfo⟩ := (rootEnds_iff hsectors hconsistent hbytes hserve.2).2 hroot
      exact ⟨fuel, fatMount_safe hserve fun _ =>
        ⟨(fits_iff hsectors).2 hconsistent, info, hinfo⟩⟩
    · exact ⟨0, fatMount_safe hserve fun h => absurd h hbytes⟩

end Mount

theorem fatMount_consistent_large :
    ∃ fuel, (fatMount fuel successful (fun _ _ => 0xFF) largeVolume).Safe largeVolume :=
  (fatMount_consistent_iff largeVolume (by decide) _).2
    (fun _ => ⟨⟨by decide, by decide, by decide, .inl (by decide)⟩,
      fun _ => .inr ⟨[], Nat.le_of_ble_eq_true rfl, by decide⟩⟩)
    successful serve_successful

/-- A boot sector with no sectors in a cluster is not rejected. -/
theorem fatMount_divides_by_zero :
    ¬ ∃ fuel, (fatMount fuel successful (fun _ _ => 0) { floppy with sectorsPerClus := 0 }).Safe
      { floppy with sectorsPerClus := 0 } := by
  rintro ⟨fuel, h⟩
  exact h

end Whitix.Fat
