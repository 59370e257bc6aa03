import Whitix.Fs.Fat.Alloc
import Whitix.Support.Run

/-!
# The number of free clusters

On FAT32 the superblock has the number of free clusters.  `FatAddCluster` takes one off
for the cluster it allocates.  `FatRemoveClusters` counts the clusters that it skips
instead of those that it frees.
-/

namespace Whitix.Fat

open Support List Option Nat

variable (boot : FatBootSector)

def freeEntries (disk : Disk) : ℕ :=
  (range' 2 boot.clusterCount).countP fun c => fatEntry (fatReadSuper boot) disk c = 0

def FreeExact (s : FatState) : Prop :=
  s.freeClusters = freeEntries boot s.disk

inductive CountedOp where
  | add (vNode : ℕ)
  | remove (vNode number : ℕ)

def countedStep (info : FatSbInfo) (s : FatState) : CountedOp → Option FatState
  | .add v => (fatAddCluster info s v).map fun r => r.2.2
  | .remove v number => (fatRemoveClusters info s v number).map fun r => r.2

structure VolumeChain (s : FatState) (v : ℕ) (cs : List ℕ) : Prop
    extends ChainOf (fatReadSuper boot) (boot.clusterCount + 2) s v cs where
  accepted : ∀ c ∈ cs, c ≤ (fatReadSuper boot).totalDataSectors

/-- The calls after which the number is right: `FatAddCluster` while it finds
clusters of the volume, and `FatRemoveClusters` when it skips as many clusters
as it frees, or all. -/
def Counted (s : FatState) : CountedOp → Prop
  | .add v => (∃ cs, VolumeChain boot s v cs) ∧
    ∀ c, (range' 2 ((fatReadSuper boot).totalDataSectors - 2)).find?
      (fun i => fatRead (fatReadSuper boot) s.disk i = 0) = some c → boot.IsCluster c
  | .remove v number => ∃ cs, VolumeChain boot s v cs ∧
    (number = cs.length ∨ 2 * number = cs.length)

/-! ## Counting -/

theorem countP_of_new {l cs : List ℕ} {p q : ℕ → Bool} (hl : l.Nodup) (hcs : cs.Nodup)
    (hsub : cs ⊆ l) (hold : ∀ e ∈ cs, p e = false)
    (hnew : ∀ e ∈ l, q e = (p e || decide (e ∈ cs))) : l.countP q = l.countP p + cs.length := by
  have hperm : (l.filter (· ∈ cs)).Perm cs := by
    refine (perm_ext_iff_of_nodup (hl.filter _) hcs).mpr fun e => ?_
    rw [mem_filter, decide_eq_true_eq]
    exact and_iff_right_of_imp fun he => hsub he
  rw [← hperm.length_eq, ← countP_eq_length_filter]
  clear hl hsub hperm
  induction l with
  | nil => rfl
  | cons e l ih =>
    obtain ⟨he, hrest⟩ := forall_mem_cons.mp hnew
    rw [countP_cons, countP_cons, ih hrest, he]
    by_cases hmem : e ∈ cs
    · rw [hold e hmem]
      simp [hmem, add_assoc]
    · simp [hmem, add_right_comm]

section Volume

variable {boot : FatBootSector} (hvolume : boot.IsFatVolume)
  (htype : (fatReadSuper boot).fatType = .fat32) {s s' : FatState} {v : ℕ} {cs : List ℕ}

theorem mem_clusters {c : ℕ} :
    c ∈ range' 2 boot.clusterCount ↔ 2 ≤ c ∧ c < boot.clusterCount + 2 := by
  rw [mem_range'_1, add_comm 2]

include hvolume in
/-- No chain has a free cluster, and all clusters fit in a `DWORD`. -/
theorem VolumeChain.count_le (hc : VolumeChain boot s v cs) :
    freeEntries boot s.disk + cs.length < 2 ^ 32 - 1 := by
  have hcount := @countP_of_new (range' 2 boot.clusterCount) cs
    (fun c => fatEntry (fatReadSuper boot) s.disk c = 0)
    (fun c => fatEntry (fatReadSuper boot) s.disk c = 0 ∨ c ∈ cs) nodup_range' hc.nodup
    (fun c hmem => mem_clusters.mpr (hc.range c hmem))
    (fun c hmem => decide_eq_false (hc.entry_ne_zero hvolume.table hmem)) (fun c _ => by simp)
  have hle := @countP_le_length ℕ
    (fun c => fatEntry (fatReadSuper boot) s.disk c = 0 ∨ c ∈ cs) (range' 2 boot.clusterCount)
  rw [length_range'] at hle
  have hclusters : boot.clusterCount + 2 ≤ 0x0FFFFFF8 := hvolume.clusters
  rw [freeEntries, ← hcount]
  omega

include htype in
theorem fatUpdateFree_freeClusters {n : ℕ} (hs : s.freeClusters < 2 ^ 32 - 1) :
    (fatUpdateFree (fatReadSuper boot) s n).freeClusters = n := by
  rw [fatUpdateFree, if_pos ⟨htype, by omega⟩]

include htype in
theorem freeClusters_of_added {c : ℕ} (hs : s.freeClusters < 2 ^ 32 - 1)
    (hadd : fatAddCluster (fatReadSuper boot) s v = some (0, some c, s')) :
    s'.freeClusters = dwordSub s.freeClusters 1 := by
  rw [fatAddCluster, if_neg fun hroot => hroot.1 htype] at hadd
  obtain ⟨last, -, hadd⟩ := bind_eq_some_iff.mp hadd
  obtain ⟨found, -, hadd⟩ := bind_eq_some_iff.mp hadd
  cases found with
  | none => cases hadd
  | some ret =>
    obtain ⟨r, -, hadd⟩ := bind_eq_some_iff.mp hadd
    obtain ⟨s₁, hs₁, heq⟩ := map_eq_some_iff.mp hadd
    have hfree : s₁.freeClusters = s.freeClusters := by
      split_ifs at hs₁
      · exact some.inj hs₁ ▸ rfl
      · exact some.inj hs₁ ▸ rfl
      · obtain ⟨r', -, rfl⟩ := map_eq_some_iff.mp hs₁
        rfl
    cases heq
    exact fatUpdateFree_freeClusters htype (hfree ▸ hs)

include htype in
theorem freeClusters_of_removed {number : ℕ} (hs : s.freeClusters < 2 ^ 32 - 1)
    (hstart : s.startCluster v ≠ 0)
    (hremove : fatRemoveClusters (fatReadSuper boot) s v number = some (0, s')) :
    s'.freeClusters = dword (s.freeClusters + number) := by
  rw [fatRemoveClusters, if_neg (fun hroot => hroot.1 htype), if_neg hstart] at hremove
  obtain ⟨found, -, hremove⟩ := bind_eq_some_iff.mp hremove
  cases found with
  | none => cases hremove
  | some cluster =>
    obtain ⟨disk, -, heq⟩ := map_eq_some_iff.mp hremove
    cases heq
    exact fatUpdateFree_freeClusters htype hs

include hvolume htype

theorem FreeExact.added {ret : ℤ} {lastCluster : Option ℕ} (h : FreeExact boot s)
    (hc : VolumeChain boot s v cs)
    (hsearch : ∀ c, firstFree (fatReadSuper boot) s.disk = some c → boot.IsCluster c)
    (hadd : fatAddCluster (fatReadSuper boot) s v = some (ret, lastCluster, s')) :
    FreeExact boot s' := by
  have hroot : (fatReadSuper boot).fatType ≠ .fat32 → v ≠ fatRootId := fun hne => absurd htype hne
  cases hfind : firstFree (fatReadSuper boot) s.disk with
  | none =>
    rw [fatAddCluster_full hvolume.table hc.toChainOf hc.accepted hroot hfind] at hadd
    cases hadd
    exact h
  | some c =>
    obtain ⟨hlow, hhigh⟩ := hsearch c hfind
    have hlimit : c < boot.clusterCount + 2 := lt_succ_of_le hhigh
    have hzero : fatEntry (fatReadSuper boot) s.disk c = 0 := by
      rw [← fatRead_eq hvolume.bytes.aligned (lt_of_lt_limit hvolume.table hlimit)]
      simpa using find?_some hfind
    obtain ⟨s'', hadd', -, hdisk⟩ := fatAddCluster_found hvolume.table hc.toChainOf hc.accepted
      hroot hfind hlimit
    cases hadd'.symm.trans hadd
    have hentries := @fatEntry_appendDisk _ _ _ hvolume.table s.disk c hc.range ⟨hlow, hlimit⟩
    rw [← hdisk] at hentries
    have hlast : cs.getLast? ≠ some c := fun heq =>
      hc.entry_ne_zero hvolume.table (mem_of_getLast? heq) hzero
    have hcount : freeEntries boot s.disk = freeEntries boot s'.disk + 1 := by
      refine countP_of_new nodup_range' (nodup_singleton c) ?_ ?_ fun e he => ?_
      · exact cons_subset.mpr ⟨mem_clusters.mpr ⟨hlow, hlimit⟩, nil_subset _⟩
      · refine forall_mem_singleton.mpr (decide_eq_false ?_)
        rw [hentries c hlimit, if_neg hlast, if_pos rfl, hvolume.table.marker, htype]
        decide
      · rw [hentries e (mem_clusters.mp he).2]
        by_cases hec : e = c
        · simp [hec, hzero]
        by_cases hel : cs.getLast? = some e
        · have hused := hc.entry_ne_zero hvolume.table (mem_of_getLast? hel)
          rw [if_pos hel]
          simp [hused, hec, ne_of_gt (zero_lt_of_lt hlow)]
        · rw [if_neg hel]
          simp [hec]
    rw [FreeExact, freeClusters_of_added htype (by have := hc.count_le hvolume; rw [h]; omega)
      hadd', h, hcount, dwordSub_of_le (Nat.le_add_left 1 _), Nat.add_sub_cancel]

theorem FreeExact.removed_iff {number : ℕ} (h : FreeExact boot s)
    (hc : VolumeChain boot s v cs) (hnumber : number ≤ cs.length) :
    ∃ ret s', fatRemoveClusters (fatReadSuper boot) s v number = some (ret, s') ∧
      (FreeExact boot s' ↔ number = cs.length ∨ 2 * number = cs.length) := by
  obtain ⟨ret, s', hremove, hret, hsame, -, hentries⟩ := fatRemoveClusters_cases hvolume.table
    hc.toChainOf hc.accepted (fun hne => absurd htype hne) hnumber
  refine ⟨ret, s', hremove, ?_⟩
  rcases lt_or_eq_of_le hnumber with hlt | heq
  · have hbound := hc.count_le hvolume
    have hne : cs ≠ [] := by
      rintro rfl
      exact not_lt_zero _ hlt
    rw [if_neg (fun hroot => hroot.1 htype), if_pos (.inr hlt)] at hret
    have hcount : freeEntries boot s'.disk = freeEntries boot s.disk + (cs.drop number).length := by
      refine countP_of_new nodup_range' (hc.nodup.sublist (drop_sublist number cs)) ?_ ?_
        fun e he => ?_
      · exact fun c hmem => mem_clusters.mpr (hc.range c (mem_of_mem_drop hmem))
      · exact fun c hmem =>
          decide_eq_false (hc.entry_ne_zero hvolume.table (mem_of_mem_drop hmem))
      · rw [hentries e (mem_clusters.mp he).2]
        split_ifs with hmem
        · simp [hmem]
        · simp [hmem]
    rw [FreeExact, freeClusters_of_removed htype (by rw [h]; omega) (mt hc.start_eq_zero.mp hne)
      (hret ▸ hremove), h, hcount, length_drop, dword_of_lt (by omega)]
    omega
  · rw [hsame heq]
    exact iff_of_true h (.inl heq)

end Volume

/-! ## Runs -/

/-- The number of free clusters is exact in every counted run, and after one
more `FatRemoveClusters` exactly if it skips as many clusters as it frees, or
all. -/
theorem fat32_free_count {boot : FatBootSector} (hvolume : boot.IsFatVolume)
    (htype : (fatReadSuper boot).fatType = .fat32) {s₀ s : FatState} (hstart : FreeExact boot s₀)
    (h : Reach (countedStep (fatReadSuper boot)) (Counted boot) s₀ s) :
    FreeExact boot s ∧ ∀ v cs number, VolumeChain boot s v cs → number ≤ cs.length →
      ∃ ret s', fatRemoveClusters (fatReadSuper boot) s v number = some (ret, s') ∧
        (FreeExact boot s' ↔ number = cs.length ∨ 2 * number = cs.length) := by
  have hexact : FreeExact boot s := by
    refine h.invariant hstart fun s op s' hs hop hstep => ?_
    cases op with
    | add v =>
      obtain ⟨⟨cs, hc⟩, hsearch⟩ := hop
      obtain ⟨⟨ret, lastCluster, s''⟩, hadd, rfl⟩ := map_eq_some_iff.mp hstep
      exact hs.added hvolume htype hc hsearch hadd
    | remove v number =>
      obtain ⟨cs, hc, hnumber⟩ := hop
      have hle : number ≤ cs.length := by omega
      obtain ⟨ret, s'', hremove, hiff⟩ := hs.removed_iff hvolume htype hc hle
      rw [countedStep, hremove] at hstep
      exact some.inj hstep ▸ hiff.mpr hnumber
  exact ⟨hexact, fun v cs number hc hnumber => hexact.removed_iff hvolume htype hc hnumber⟩

/-- A FAT32 volume with 65,536 clusters of one sector. -/
def largeVolume : FatBootSector where
  bytesPerSec := 512
  sectorsPerClus := 1
  reservedSectorCnt := 32
  numFats := 1
  numRootDirEnts := 0
  totalSecSmall := 0
  secsPerFat := 0
  totalSectorsLarge := 66081
  secsPerFat32 := 513
  rootClus := 2

theorem largeVolume_isFatVolume : largeVolume.IsFatVolume :=
  ⟨⟨.inl rfl, by decide, by decide, by decide, by decide, by decide⟩, by decide⟩

def emptyVolume : FatState := ⟨fun _ _ => 0, fun _ => 0, 65536, false⟩

theorem freeExact_emptyVolume : FreeExact largeVolume emptyVolume := by
  have hzero (c : ℕ) : fatEntry (fatReadSuper largeVolume) emptyVolume.disk c = 0 := by
    have hbytes : fatBytes (fatReadSuper largeVolume) emptyVolume.disk = fun _ => 0 := rfl
    rw [fatEntry, hbytes, (by decide : (fatReadSuper largeVolume).fatType = .fat32)]
    simp [FatType.get, dwordAt, wordAt]
  rw [FreeExact, freeEntries, countP_eq_length.mpr fun c _ => decide_eq_true (hzero c),
    length_range']
  rfl

theorem volumeChain_emptyVolume : VolumeChain largeVolume emptyVolume 1 [] :=
  ⟨⟨rfl, trivial, nodup_nil, nofun⟩, nofun⟩

theorem exists_firstCluster :
    ∃ s, fatAddCluster (fatReadSuper largeVolume) emptyVolume 1 = some (0, some 2, s) ∧
      VolumeChain largeVolume s 1 [2] ∧
      Counted largeVolume emptyVolume (.add 1) := by
  have hfind : firstFree (fatReadSuper largeVolume) emptyVolume.disk = some 2 := rfl
  have hchain := volumeChain_emptyVolume
  obtain ⟨s, hadd, hstart, hdisk⟩ := fatAddCluster_found largeVolume_isFatVolume.table
    hchain.toChainOf hchain.accepted (fun _ => by decide) hfind (by decide)
  have hentries := @fatEntry_appendDisk _ _ _ largeVolume_isFatVolume.table emptyVolume.disk 2
    hchain.range ⟨le_rfl, by decide⟩
  rw [← hdisk] at hentries
  refine ⟨s, hadd, ⟨hchain.append largeVolume_isFatVolume.table ⟨le_rfl, by decide⟩ rfl hstart
    hentries, by decide⟩, ⟨[], hchain⟩, fun c hc => ?_⟩
  cases hfind.symm.trans hc
  exact ⟨le_rfl, by decide⟩

theorem fat32_free_count_first : ∃ s, s.startCluster 1 = 2 ∧ FreeExact largeVolume s := by
  obtain ⟨s, hadd, hchain, hcounted⟩ := exists_firstCluster
  refine ⟨s, hchain.start, (fat32_free_count largeVolume_isFatVolume (by decide)
    freeExact_emptyVolume (Reach.tail (.add 1) Reach.refl hcounted ?_)).1⟩
  rw [countedStep, hadd]
  rfl

/-- The cluster of a file is freed, and not counted. -/
theorem fat32_free_count_lost : ∃ s s', FreeExact largeVolume s ∧
    VolumeChain largeVolume s 1 [2] ∧ (∃ ret,
      fatRemoveClusters (fatReadSuper largeVolume) s 1 0 = some (ret, s')) ∧
    ¬ FreeExact largeVolume s' := by
  obtain ⟨s, hadd, hchain, hcounted⟩ := exists_firstCluster
  have hexact : FreeExact largeVolume s := freeExact_emptyVolume.added largeVolume_isFatVolume
    (by decide) volumeChain_emptyVolume hcounted.2 hadd
  obtain ⟨ret, s', hremove, hiff⟩ := hexact.removed_iff largeVolume_isFatVolume (by decide) hchain
    (zero_le _)
  exact ⟨s, s', hexact, hchain, ⟨ret, hremove⟩, fun h => absurd (hiff.mp h) (by decide)⟩

end Whitix.Fat
