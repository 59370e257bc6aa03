import Whitix.Fs.Fat.Cluster

/-!
# The range of allocation

The clusters of a volume have the numbers from 2 to one above their count.
`FatAddCluster` searches the numbers below the number of data sectors instead:
with clusters of one sector it misses the last two clusters, and with larger ones
it goes on behind the end of the volume.
-/

namespace Whitix.Fat

open Support List Option Nat

variable (boot : FatBootSector)

structure FatBootSector.Accepted : Prop where
  bytes : boot.SectorSize
  cluster : boot.sectorsPerClus ≠ 0

def FatBootSector.IsCluster (c : ℕ) : Prop :=
  2 ≤ c ∧ c ≤ boot.clusterCount + 1

def SectorsInside (info : FatSbInfo) (c : ℕ) : Prop :=
  ∀ i < info.secsPerClus, info.firstDataSector ≤ fatToSector info c + i ∧
    fatToSector info c + i < info.firstDataSector + info.totalDataSectors

/-- Only clusters of the volume are allocated, and there is no space only if all
of them are in use. -/
def AllocatesInside (s : FatState) (v : ℕ) : Prop :=
  ∀ ret lastCluster s', fatAddCluster (fatReadSuper boot) s v = some (ret, lastCluster, s') →
      (∀ c ∈ lastCluster, boot.IsCluster c ∧ SectorsInside (fatReadSuper boot) c) ∧
      (ret = -ENOSPC → ∀ c, boot.IsCluster c → fatRead (fatReadSuper boot) s.disk c ≠ 0)

def WalkEnds (info : FatSbInfo) (s : FatState) (v : ℕ) : Prop :=
  s.startCluster v = 0 ∨ fatLastCluster info s.disk (info.totalDataSectors + 2)
      (s.startCluster v) ≠ none

/-- A cluster of the volume among those that are searched is free, or no number
that is searched or belongs to a cluster is free. -/
def SearchSuffices (disk : Disk) : Prop :=
  (∃ c, boot.IsCluster c ∧ c < (fatReadSuper boot).totalDataSectors ∧
      fatRead (fatReadSuper boot) disk c = 0) ∨
    ∀ c, 2 ≤ c → (boot.IsCluster c ∨ c < (fatReadSuper boot).totalDataSectors) →
        fatRead (fatReadSuper boot) disk c ≠ 0

section Alloc

variable {boot : FatBootSector} {info : FatSbInfo} {s : FatState} {v : ℕ}

theorem FatBootSector.IsCluster.sectorsInside {c : ℕ} (h : boot.IsCluster c) :
    SectorsInside (fatReadSuper boot) c := by
  obtain ⟨hlow, hhigh⟩ := h
  intro i hi
  have hsector : fatToSector (fatReadSuper boot) c =
      (c - 2) * boot.sectorsPerClus + boot.firstDataSector :=
    if_neg (by omega)
  have hmul : (c - 2 + 1) * boot.sectorsPerClus ≤ boot.clusterCount * boot.sectorsPerClus :=
    mul_le_mul_right _ (by omega)
  have hcount : boot.clusterCount * boot.sectorsPerClus ≤
      boot.totalDataSectors := div_mul_le_self _ _
  rw [add_mul, one_mul] at hmul
  change i < boot.sectorsPerClus at hi
  change boot.firstDataSector ≤ _ ∧ _ < boot.firstDataSector + boot.totalDataSectors
  omega

theorem fatLastCluster_le {disk : Disk} {fuel c last : ℕ}
    (h : fatLastCluster info disk fuel c = some last) : last ≤ info.totalDataSectors := by
  induction fuel generalizing c with
  | zero => cases h
  | succ fuel ih =>
    obtain ⟨r, haccess, h⟩ := bind_eq_some_iff.mp h
    obtain ⟨hc, -⟩ := ite_none_left_eq_some.mp haccess
    split_ifs at h
    · exact some.inj h ▸ not_lt.mp hc
    · exact ih h

theorem fatAddCluster_cases (hroot : ¬(info.fatType ≠ .fat32 ∧ v = fatRootId))
    (hwalk : WalkEnds info s v) :
    (firstFree info s.disk = none ∧ fatAddCluster info s v = some (-ENOSPC, none, s)) ∨
    ∃ c s', firstFree info s.disk = some c ∧ fatAddCluster info s v = some (0, some c, s') := by
  obtain ⟨last, hlast, hle⟩ : ∃ last, (if s.startCluster v = 0 then some 0
      else fatLastCluster info s.disk (info.totalDataSectors + 2)
        (s.startCluster v)) = some last ∧ last ≤ info.totalDataSectors := by
    by_cases hstart : s.startCluster v = 0
    · exact ⟨0, if_pos hstart, zero_le _⟩
    · obtain ⟨last, hlast⟩ := ne_none_iff_exists'.mp (hwalk.resolve_left hstart)
      exact ⟨last, (if_neg hstart).trans hlast, fatLastCluster_le hlast⟩
  rw [fatAddCluster, if_neg hroot, hlast, bind_some, fatFindFree_range, bind_some]
  cases hfind : firstFree info s.disk with
  | none => exact .inl ⟨rfl, rfl⟩
  | some c =>
    right
    have hmem := mem_range'_1.mp (mem_of_find?_eq_some hfind)
    have hc : ¬ info.totalDataSectors < c := by omega
    dsimp only
    rw [fatAccess, if_neg hc]
    dsimp only [bind_some]
    split_ifs
    · exact ⟨c, _, rfl, rfl⟩
    · exact ⟨c, _, rfl, rfl⟩
    · rw [fatAccess, if_neg hle.not_gt]
      exact ⟨c, _, rfl, rfl⟩

theorem fatAddCluster_of_not_walkEnds (hroot : ¬(info.fatType ≠ .fat32 ∧ v = fatRootId))
    (hwalk : ¬ WalkEnds info s v) : fatAddCluster info s v = none := by
  obtain ⟨hstart, hnone⟩ := not_or.mp hwalk
  rw [fatAddCluster, if_neg hroot, if_neg hstart, not_not.mp hnone]
  rfl

theorem searchSuffices_of_found {c : ℕ} (hfind : firstFree (fatReadSuper boot) s.disk = some c) :
    SearchSuffices boot s.disk ↔ boot.IsCluster c := by
  obtain ⟨hfree, hmem, hfirst⟩ := find?_range'_eq_some.mp hfind
  have hrange := mem_range'_1.mp hmem
  have hlt : c < (fatReadSuper boot).totalDataSectors := by omega
  constructor
  · rintro (⟨c', hc', -, hfree'⟩ | hnone)
    · -- The search stops at the cluster `c'` at the latest.
      have hle : c ≤ c' := by
        by_contra hlt'
        have hused := hfirst c' hc'.1 (not_le.mp hlt')
        simp [hfree'] at hused
      exact ⟨hrange.1, hle.trans hc'.2⟩
    · exact absurd (by simpa using hfree) (hnone c hrange.1 (.inr hlt))
  · intro hc
    exact .inl ⟨c, hc, hlt, by simpa using hfree⟩

theorem searchSuffices_of_none (hfind : firstFree (fatReadSuper boot) s.disk = none) :
    SearchSuffices boot s.disk ↔
      ∀ c, boot.IsCluster c → fatRead (fatReadSuper boot) s.disk c ≠ 0 := by
  have hused : ∀ c, 2 ≤ c → c < (fatReadSuper boot).totalDataSectors →
      fatRead (fatReadSuper boot) s.disk c ≠ 0 := by
    intro c hlow hhigh
    have hno := find?_eq_none.mp hfind c (mem_range'_1.mpr (by omega))
    simpa using hno
  constructor
  · rintro (⟨c, hc, hlt, hfree⟩ | hnone)
    · exact absurd hfree (hused c hc.1 hlt)
    · exact fun c hc => hnone c hc.1 (.inl hc)
  · intro hall
    refine .inr fun c hlow hc => ?_
    rcases hc with hc | hlt
    · exact hall c hc
    · exact hused c hlow hlt

theorem allocatesInside_of_noSpace
    (hresult : fatAddCluster (fatReadSuper boot) s v = some (-ENOSPC, none, s)) :
    AllocatesInside boot s v ↔
      ∀ c, boot.IsCluster c → fatRead (fatReadSuper boot) s.disk c ≠ 0 := by
  constructor
  · exact fun h => (h _ _ _ hresult).2 rfl
  · intro hall ret lastCluster s' hadd
    cases hresult.symm.trans hadd
    exact ⟨nofun, fun _ => hall⟩

end Alloc

/-- `FatAddCluster` keeps to the clusters of the volume, and uses all of them,
exactly if its search suffices; the root directory of FAT12 and FAT16 gets no
clusters. -/
theorem fatAddCluster_inside_iff (boot : FatBootSector) (s : FatState) (v : ℕ) :
    AllocatesInside boot s v ↔ if (fatReadSuper boot).fatType ≠ .fat32 ∧ v = fatRootId then
        ∀ c, boot.IsCluster c → fatRead (fatReadSuper boot) s.disk c ≠ 0
      else WalkEnds (fatReadSuper boot) s v → SearchSuffices boot s.disk := by
  split_ifs with hroot
  · exact allocatesInside_of_noSpace (if_pos hroot)
  by_cases hwalk : WalkEnds (fatReadSuper boot) s v
  · rw [forall_prop_of_true hwalk]
    rcases fatAddCluster_cases hroot hwalk with
      ⟨hfind, hresult⟩ | ⟨c, s', hfind, hresult⟩
    · rw [searchSuffices_of_none hfind, allocatesInside_of_noSpace hresult]
    · rw [searchSuffices_of_found hfind]
      constructor
      · exact fun h => ((h _ _ _ hresult).1 c rfl).1
      · intro hc ret lastCluster s'' hadd
        cases hresult.symm.trans hadd
        refine ⟨fun c' hc' => ?_, fun hret => absurd hret (by decide)⟩
        cases hc'
        exact ⟨hc, hc.sectorsInside⟩
  · refine iff_of_true (fun ret lastCluster s' hadd => ?_) fun h => absurd h hwalk
    rw [fatAddCluster_of_not_walkEnds hroot hwalk] at hadd
    cases hadd

/-- A state with no chains, in which the first `n` bytes of the table are set. -/
def usedTable (n : ℕ) : FatState where
  disk sector offset := if sector = 1 ∧ offset < n then 0xFF else 0
  startCluster _ := 0
  freeClusters := 0
  superDirty := false

def wideFloppy : FatBootSector := { floppy with sectorsPerClus := 2 }

/-- The first cluster is allocated. -/
theorem fatAddCluster_inside_iff_empty : AllocatesInside floppy (usedTable 0) 1 := by
  apply (fatAddCluster_inside_iff floppy _ 1).mpr
  exact fun _ => .inl ⟨2, ⟨by decide, by decide⟩, by decide, by decide⟩

/-- With clusters of one sector the free clusters 16 and 17 are not found; with
clusters of two sectors cluster 10 is allocated, behind the last cluster 9. -/
theorem fatAddCluster_not_inside :
    floppy.Accepted ∧ wideFloppy.Accepted ∧
      floppy.clusterCount + 1 = 17 ∧ wideFloppy.clusterCount + 1 = 9 ∧
      ¬ AllocatesInside floppy (usedTable 24) 1 ∧
      ¬ AllocatesInside wideFloppy (usedTable 15) 1 := by
  refine ⟨⟨by decide, by decide⟩, ⟨by decide, by decide⟩, by decide, by decide,
    fun h => ?_, fun h => ?_⟩
  · have hresult : fatAddCluster (fatReadSuper floppy) (usedTable 24) 1 =
        some (-ENOSPC, none, usedTable 24) := by rfl
    exact (h _ _ _ hresult).2 rfl 16 ⟨by decide, by decide⟩ (by decide)
  · have hresult : ((fatAddCluster (fatReadSuper wideFloppy) (usedTable 15) 1).map
        fun r => r.2.1) = some (some 10) := by decide
    obtain ⟨⟨ret, lastCluster, s'⟩, hadd, hlast⟩ :=
      map_eq_some_iff.mp hresult
    exact absurd ((h _ _ _ hadd).1 10 hlast).1.2 (by decide)

end Whitix.Fat
