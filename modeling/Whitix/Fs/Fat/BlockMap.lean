import Whitix.Fs.Fat.Cell
import Whitix.Fs.Fat.Cluster

/-!
# The map from sector offsets to sectors

`FatBlockMap` finds the sector of the volume that holds the sector `offset` of a
file.  With `VFS_MAP_CREATE` it appends clusters to the chain of the file until
there is such a sector.  To a file without clusters it appends only one, whatever
the offset is.
-/

namespace Whitix.Fat

open Support List Option Nat Function

/-! ## The function -/

section Functions

variable (info : FatSbInfo)

/-- The loop that appends clusters to a chain; `none` is the return of `-1`. -/
def fatAddClusters (vNode : ℕ) : ℕ → ℕ → FatState → Option (Option ℕ × FatState)
  | 0, lastCluster, s => some (some lastCluster, s)
  | offset + 1, lastCluster, s =>
    (fatAddCluster info s vNode).bind fun r =>
      if r.1 ≠ 0 then some (none, r.2.2)
      else fatAddClusters vNode offset (r.2.1.getD lastCluster) r.2.2

def fatMapWalk (vNode : ℕ) (create : Bool) : ℕ → ℕ → FatState → Option (Option ℕ × FatState)
  | 0, retVal, s => some (some retVal, s)
  | offset + 1, retVal, s =>
    (fatAccess info s.disk retVal none).bind fun r =>
      if info.invalidCluster ≤ r.1 then
        -- `lastCluster` has no value yet, but the loop runs at least once.
        if create then fatAddClusters info vNode (offset + 1) 0 s
        else some (none, s)
      else fatMapWalk vNode create offset r.1 s

def fatBlockMap (s : FatState) (vNode offset : ℕ) (create : Bool) : Option (Option ℕ × FatState) :=
  if vNode = fatRootId ∧ info.fatType ≠ .fat32 then
    some (if info.rootDirLength ≤ offset then none
      else some (info.rootDirStart + offset), s)
  else if s.startCluster vNode = 0 then
    if create then
      (fatAddCluster info s vNode).map fun r =>
        (if r.1 ≠ 0 then none
          else some (fatToSector info (r.2.2.startCluster vNode) +
            offset / info.secsPerClus), r.2.2)
    else some (none, s)
  else
    (fatMapWalk info vNode create (offset / info.secsPerClus) (s.startCluster vNode) s).map fun r =>
        (r.1.map fun cluster =>
          fatToSector info cluster + offset % info.secsPerClus, r.2)

end Functions

/-! ## Sectors of the data area -/

/-- The tables end before the data area. -/
structure FatSbInfo.Layout (info : FatSbInfo) (limit : ℕ) : Prop extends info.TableFor limit where
  fats : 1 ≤ info.numFats
  tables : info.fatStart + info.fatLength * info.numFats ≤ info.firstDataSector
  secsPerClus : 1 ≤ info.secsPerClus

theorem FatBootSector.IsFatVolume.layoutOf {boot : FatBootSector} (h : boot.IsFatVolume) :
    (fatReadSuper boot).Layout (boot.clusterCount + 2) where
  toTableFor := h.table
  fats := h.fats
  secsPerClus := h.cluster
  tables := by
    have hfirst : boot.firstDataSector = boot.reservedSectorCnt +
        boot.numFats * boot.fatLength + boot.rootDirLength :=
      dword_of_lt (lt_of_le_of_lt h.layout h.sectors)
    change boot.reservedSectorCnt + boot.fatLength * boot.numFats ≤ boot.firstDataSector
    rw [hfirst, mul_comm]
    exact le_add_right _ _

def KeepsData (info : FatSbInfo) (cs : List ℕ) (disk disk' : Disk) : Prop :=
  ∀ c ∈ cs, ∀ j < info.secsPerClus, disk' (fatToSector info c + j) = disk (fatToSector info c + j)

variable {info : FatSbInfo} {limit sector c k o v : ℕ} {s s' : FatState} {cs cs' : List ℕ}

section Data

variable {disk : Disk}

theorem fatToSector_of_le (hc : 2 ≤ c) :
    fatToSector info c = (c - 2) * info.secsPerClus + info.firstDataSector :=
  if_neg (by omega)

theorem fatToSector_inj {d i j : ℕ} (hc : 2 ≤ c) (hd : 2 ≤ d) (hi : i < info.secsPerClus)
    (hj : j < info.secsPerClus) (heq : fatToSector info c + i = fatToSector info d + j) :
    c = d ∧ i = j := by
  rw [fatToSector_of_le hc, fatToSector_of_le hd, mul_comm, mul_comm (d - 2)] at heq
  have hboth : c - 2 = d - 2 ∧ i = j := copy_sector_inj hi hj (by omega)
  omega

theorem fatZeroCluster_of_ne (hne : ∀ i < info.secsPerClus, sector ≠ fatToSector info c + i) :
    fatZeroCluster info disk c sector = disk sector := by
  unfold fatZeroCluster
  have hne' : ∀ i ∈ range info.secsPerClus,
      sector ≠ fatToSector info c + i := fun i hi => hne i (mem_range.mp hi)
  generalize range info.secsPerClus = is at hne'
  induction is generalizing disk with
  | nil => rfl
  | cons i is ih =>
    rw [foldl_cons, ih fun i' hi' => hne' i' (mem_cons_of_mem i hi'),
      update_of_ne (hne' i mem_cons_self)]

variable (h : info.Layout limit)

include h

theorem fatWrite_data (hc : c < limit) (hsector : info.firstDataSector ≤ sector) :
    fatWrite info disk c v sector = disk sector := by
  have hin : InTable info c :=
    ⟨lt_valueBits h.toTableFor (hc.le.trans h.clusters), entryEnd_le h.toTableFor hc⟩
  obtain ⟨m, hm, n, hn, hfirst, hsecond⟩ := hin.sectors
  have hbelow : ∀ i < info.numFats, ∀ x < info.fatLength,
      info.fatStart + x + info.fatLength * i < sector := by
    intro i hi x hx
    have hmul := mul_le_mul_left info.fatLength hi
    rw [mul_succ] at hmul
    have htables := h.tables
    omega
  have hstored : fatStore info disk c v sector = disk sector := by
    apply fatStore_of_ne
    · rw [hfirst]
      exact (hbelow 0 h.fats m hm).ne'
    · rw [hsecond]
      exact (hbelow 0 h.fats n hn).ne'
  rw [fatWrite, fatCopy_eq, ← hstored]
  have his : ∀ i ∈ range' 1 (info.numFats - 1), i < info.numFats := by
    intro i hi
    have := mem_range'_1.mp hi
    omega
  generalize range' 1 (info.numFats - 1) = is at his
  generalize fatStore info disk c v = stored
  induction is generalizing stored with
  | nil => rfl
  | cons i is ih =>
    have hi := his i mem_cons_self
    rw [foldl_cons, ih fun i' hi' => his i' (mem_cons_of_mem i hi'),
      fatCopyTo, copySector, hfirst, update_of_ne (hbelow i hi m hm).ne']
    split
    · rfl
    · next hne =>
      rw [copySector, update_of_ne]
      rcases fatSector2_cases info c with heq | heq
      · exact absurd (hfirst.symm.trans heq.symm) hne
      · have := hbelow i hi n hn
        omega

theorem keepsData_appendDisk (hrange : ∀ c ∈ cs, 2 ≤ c ∧ c < limit) (hc : 2 ≤ c ∧ c < limit)
    (hnew : c ∉ cs) : KeepsData info cs disk (appendDisk info disk cs c) := by
  intro d hd j hj
  have hd2 := (hrange d hd).1
  have hdata : info.firstDataSector ≤ fatToSector info d + j := by
    rw [fatToSector_of_le hd2]
    omega
  have hother : ∀ i < info.secsPerClus, fatToSector info d + j ≠ fatToSector info c + i := by
    intro i hi heq
    exact hnew ((fatToSector_inj hd2 hc.1 hj hi heq).1 ▸ hd)
  unfold appendDisk
  cases hlast : cs.getLast? with
  | none =>
    dsimp only
    rw [fatWrite_data h hc.2 hdata, fatZeroCluster_of_ne hother]
  | some l =>
    have hl := hrange l (mem_of_getLast? hlast)
    dsimp only
    rw [fatWrite_data h hl.2 hdata, fatWrite_data h hc.2 hdata, fatZeroCluster_of_ne hother]

end Data

/-! ## Appending clusters -/

/-- There are `k` free clusters among those that `FatAddCluster` tries. -/
def HasFree (info : FatSbInfo) (limit : ℕ) (disk : Disk) (k : ℕ) : Prop :=
  ∃ free : List ℕ, free.Nodup ∧ k ≤ free.length ∧
    ∀ c ∈ free, (2 ≤ c ∧ c < limit) ∧ c < info.totalDataSectors ∧ fatEntry info disk c = 0

/-- The search of `FatAddCluster` does not leave the volume while `k` clusters
are appended. -/
def StaysInside (info : FatSbInfo) (limit : ℕ) (disk : Disk) (k : ℕ) : Prop :=
  info.totalDataSectors ≤ limit ∨ HasFree info limit disk k

section Grow

variable (h : info.Layout limit)

include h

theorem HasFree.find {disk : Disk} (hfree : HasFree info limit disk (k + 1)) :
    ∃ c < limit, firstFree info disk = some c := by
  obtain ⟨free, -, hlen, hmem⟩ := hfree
  obtain ⟨d, hd⟩ :=
    exists_mem_of_length_pos (lt_of_lt_of_le k.succ_pos hlen)
  obtain ⟨hrange, htotal, hentry⟩ := hmem d hd
  have hread : fatRead info disk d = 0 := by
    rw [fatRead_eq h.aligned (lt_of_lt_limit h.toTableFor hrange.2), hentry]
  cases hfind : firstFree info disk with
  | none =>
    have hnone := find?_eq_none.mp hfind d (mem_range'_1.mpr (by omega))
    exact absurd (decide_eq_true hread) hnone
  | some c =>
    refine ⟨c, ?_, rfl⟩
    by_contra hlimit
    obtain ⟨-, -, hfirst⟩ := find?_range'_eq_some.mp hfind
    have hnot := hfirst d hrange.1 (by omega)
    rw [decide_eq_true hread] at hnot
    cases hnot

theorem HasFree.append (hc : ChainOf info limit s v cs) (hrange : 2 ≤ c ∧ c < limit)
    (hfree : HasFree info limit s.disk (k + 1)) :
    HasFree info limit (appendDisk info s.disk cs c) k := by
  obtain ⟨free, hnodup, hlen, hmem⟩ := hfree
  refine ⟨free.erase c, hnodup.erase c, ?_, ?_⟩
  · have := le_length_erase (l := free) (a := c)
    omega
  · intro e he
    obtain ⟨hne, he⟩ := hnodup.mem_erase_iff.mp he
    obtain ⟨hrange', htotal, hentry⟩ := hmem e he
    refine ⟨hrange', htotal, ?_⟩
    have hlast : cs.getLast? ≠ some e := fun heq =>
      hc.entry_ne_zero h.toTableFor (mem_of_getLast? heq) hentry
    rw [fatEntry_appendDisk h.toTableFor hc.range hrange e hrange'.2,
      if_neg hlast, if_neg hne, hentry]

theorem fatAddCluster_inside (hc : ChainOf info limit s v cs)
    (htotal : ∀ c ∈ cs, c ≤ info.totalDataSectors) (hv : v ≠ fatRootId)
    (hinside : StaysInside info limit s.disk (k + 1)) :
    (¬ HasFree info limit s.disk 1 ∧ fatAddCluster info s v = some (-ENOSPC, none, s)) ∨
      HasFree info limit s.disk 1 ∧ ∃ c s', fatAddCluster info s v = some (0, some c, s') ∧
        ChainOf info limit s' v (cs ++ [c]) ∧
        (∀ x ∈ cs ++ [c], x ≤ info.totalDataSectors) ∧
        KeepsData info cs s.disk s'.disk ∧
        StaysInside info limit s'.disk k := by
  have hroot : info.fatType ≠ .fat32 → v ≠ fatRootId := fun _ => hv
  cases hfind : firstFree info s.disk with
  | none =>
    refine .inl ⟨fun hfree => ?_, fatAddCluster_full h.toTableFor hc htotal hroot hfind⟩
    obtain ⟨c, -, hsome⟩ := hfree.find h
    exact some_ne_none c (hsome.symm.trans hfind)
  | some c =>
    have hmem := mem_range'_1.mp (mem_of_find?_eq_some hfind)
    have hlimit : c < limit := by
      rcases hinside with hall | hfree
      · omega
      · obtain ⟨c', hc', hsome⟩ := hfree.find h
        obtain rfl := some.inj (hsome.symm.trans hfind)
        exact hc'
    have hread := find?_some hfind
    have hentry : fatEntry info s.disk c = 0 := by
      rw [← fatRead_eq h.aligned (lt_of_lt_limit h.toTableFor hlimit)]
      exact of_decide_eq_true hread
    have hrange : 2 ≤ c ∧ c < limit := ⟨hmem.1, hlimit⟩
    obtain ⟨s', hadd, hstart, hdisk⟩ := fatAddCluster_found h.toTableFor hc
      htotal hroot hfind hlimit
    refine .inr ⟨?_, c, s', hadd, ?_, ?_, ?_, ?_⟩
    · exact ⟨[c], nodup_singleton c, le_rfl, forall_mem_singleton.mpr ⟨hrange, by omega, hentry⟩⟩
    · refine hc.append h.toTableFor hrange hentry hstart ?_
      rw [hdisk]
      exact fatEntry_appendDisk h.toTableFor hc.range hrange
    · exact forall_mem_append.mpr ⟨htotal, forall_mem_singleton.mpr (by omega)⟩
    · rw [hdisk]
      exact keepsData_appendDisk h hc.range hrange fun hmem =>
        hc.entry_ne_zero h.toTableFor hmem hentry
    · rw [hdisk]
      exact hinside.imp_right fun hfree => hfree.append h hc hrange

theorem fatAddClusters_inside {last : ℕ} (hc : ChainOf info limit s v cs)
    (htotal : ∀ c ∈ cs, c ≤ info.totalDataSectors) (hv : v ≠ fatRootId)
    (hinside : StaysInside info limit s.disk k) :
    (∃ s', fatAddClusters info v k last s = some (none, s')) ∨
      ∃ new s', fatAddClusters info v k last s = some (some (new.getLastD last), s') ∧
        new.length = k ∧ ChainOf info limit s' v (cs ++ new) ∧
        (∀ c ∈ cs ++ new, c ≤ info.totalDataSectors) ∧
        KeepsData info cs s.disk s'.disk := by
  induction k generalizing s cs last with
  | zero =>
    refine .inr ⟨[], s, rfl, rfl, ?_, ?_, fun _ _ _ _ => rfl⟩
    · rwa [append_nil]
    · rwa [append_nil]
  | succ k ih =>
    rw [fatAddClusters]
    rcases fatAddCluster_inside h hc htotal hv hinside with
      ⟨-, hadd⟩ | ⟨-, c, s₁, hadd, hc₁, htotal₁, hkeeps₁, hinside₁⟩
    · exact .inl ⟨s, by rw [hadd]; rfl⟩
    · rw [hadd, bind_some, if_neg (not_not.mpr rfl)]
      rw [getD_some]
      rcases @ih s₁ (cs ++ [c]) c hc₁ htotal₁ hinside₁ with
        hfail | ⟨new, s', hnew, hlen, hc', htotal', hkeeps'⟩
      · exact .inl hfail
      · rw [append_assoc] at hc' htotal'
        refine .inr ⟨c :: new, s', ?_, by rw [length_cons, hlen], hc', htotal', fun d hd j hj => ?_⟩
        · rw [hnew, getLastD_cons]
        · exact (hkeeps' d (mem_append_left _ hd) j hj).trans (hkeeps₁ d hd j hj)

end Grow

/-! ## The map -/

/-- A call mapped the offset `o` to `sector`: the chain has the clusters it
needs and gives the sector, a second call returns the same one, what was mapped
before still is and has its data, and no two offsets share a sector. -/
structure Mapped (info : FatSbInfo) (limit : ℕ) (s : FatState) (v : ℕ)
    (cs : List ℕ) (o sector : ℕ) (s' : FatState) (cs' : List ℕ) : Prop where
  chain : ChainOf info limit s' v cs'
  extends_chain : cs <+: cs'
  length : cs'.length = max cs.length (o / info.secsPerClus + 1)
  again : fatBlockMap info s' v o false = some (some sector, s')
  formula : ∃ c, cs'[o / info.secsPerClus]? = some c ∧
    sector = fatToSector info c + o % info.secsPerClus
  kept : ∀ o' sector', fatBlockMap info s v o' false = some (some sector', s) →
    fatBlockMap info s' v o' false = some (some sector', s') ∧ s'.disk sector' = s.disk sector'
  injective : ∀ o₁ o₂ x, fatBlockMap info s' v o₁ false = some (some x, s') →
    fatBlockMap info s' v o₂ false = some (some x, s') → o₁ = o₂

/-- Whenever `FatBlockMap` with `VFS_MAP_CREATE` returns a sector for the offset,
it has mapped the offset to it. -/
def MapsStably (info : FatSbInfo) (limit : ℕ) (s : FatState) (v : ℕ) (cs : List ℕ) (o : ℕ) : Prop :=
  ∀ sector s', fatBlockMap info s v o true = some (some sector, s') →
    ∃ cs', Mapped info limit s v cs o sector s' cs'

section Map

variable (h : info.Layout limit)

theorem ChainOf.eq_singleton (hc : ChainOf info limit s v [c])
    (hc' : ChainOf info limit s v cs) : cs = [c] := by
  have hstart : cs.headD 0 = c := hc'.start.symm.trans hc.start
  have hend : info.invalidCluster ≤ fatEntry info s.disk c := hc.linked
  have hrange := (hc.range c mem_cons_self).1
  cases cs with
  | nil =>
    have hzero : 0 = c := hstart
    omega
  | cons d rest =>
    obtain rfl : d = c := hstart
    cases rest with
    | nil => rfl
    | cons e rest =>
      obtain ⟨hnext, hnode, -⟩ := hc'.linked
      rw [hnext] at hend
      exact absurd hend hnode

include h

theorem fatMapWalk_eq {q : ℕ} (create : Bool)
    (hchain : FatChain info s.disk (c :: cs)) (hlimit : ∀ x ∈ c :: cs, x < limit) :
    fatMapWalk info v create q c s = if ∀ x ∈ (c :: cs).take q, x ≤ info.totalDataSectors then
        match (c :: cs)[q]? with
        | some d => some (some d, s)
        | none =>
          if create then fatAddClusters info v (q + 1 - (c :: cs).length) 0 s
          else some (none, s)
      else none := by
  refine (walk_eq h.toTableFor (f := fun q c => fatMapWalk info v create q c s) (fun _ => rfl)
    (fun _ _ => rfl) hchain hlimit q).trans (if_congr Iff.rfl ?_ rfl)
  cases hq : (c :: cs)[q]? with
  | some d => rfl
  | none =>
    rw [Nat.sub_add_comm (getElem?_eq_none_iff.mp hq)]

variable (hv : v ≠ fatRootId)
include hv

section

variable (hc : ChainOf info limit s v cs)
include hc

theorem fatBlockMap_eq (hne : cs ≠ []) (o : ℕ) (create : Bool) :
    fatBlockMap info s v o create =
      if ∀ x ∈ cs.take (o / info.secsPerClus), x ≤ info.totalDataSectors then
        match cs[o / info.secsPerClus]? with
        | some d =>
          some (some (fatToSector info d + o % info.secsPerClus), s)
        | none =>
          if create then
            (fatAddClusters info v (o / info.secsPerClus + 1 - cs.length) 0
              s).map fun r => (r.1.map fun cluster =>
                fatToSector info cluster + o % info.secsPerClus, r.2)
          else some (none, s)
      else none := by
  obtain ⟨c, rest, rfl⟩ := exists_cons_of_ne_nil hne
  have hstart : s.startCluster v = c := hc.start
  rw [fatBlockMap, if_neg fun hr => hv hr.1, if_neg (mt hc.start_eq_zero.mp hne), hstart,
    fatMapWalk_eq h create hc.linked fun x hx => (hc.range x hx).2]
  split
  · cases (c :: rest)[o / info.secsPerClus]? with
    | none => cases create <;> rfl
    | some d => rfl
  · rfl

theorem fatBlockMap_false_iff :
    fatBlockMap info s v o false = some (some sector, s) ↔
      (∀ x ∈ cs.take (o / info.secsPerClus), x ≤ info.totalDataSectors) ∧
        ∃ c, cs[o / info.secsPerClus]? = some c ∧
          sector = fatToSector info c + o % info.secsPerClus := by
  by_cases hne : cs = []
  · rw [fatBlockMap, if_neg fun hr => hv hr.1, if_pos (hc.start_eq_zero.mpr hne), hne]
    simp
  · rw [fatBlockMap_eq h hv hc hne]
    cases hget : cs[o / info.secsPerClus]? with
    | none => simp
    | some c =>
      simp only [ite_none_right_eq_some, some.injEq, Prod.mk.injEq, and_true, exists_eq_left']
      exact and_congr_right' eq_comm

theorem Mapped.of_chain (hc' : ChainOf info limit s' v cs') (hpre : cs <+: cs')
    (hlength : cs'.length = max cs.length (o / info.secsPerClus + 1))
    (htotal : ∀ x ∈ cs'.take (o / info.secsPerClus), x ≤ info.totalDataSectors)
    (hget : cs'[o / info.secsPerClus]? = some c) (hkeeps : KeepsData info cs s.disk s'.disk) :
    Mapped info limit s v cs o (fatToSector info c + o % info.secsPerClus) s' cs' where
  chain := hc'
  extends_chain := hpre
  length := hlength
  again := (fatBlockMap_false_iff h hv hc').mpr ⟨htotal, c, hget, rfl⟩
  formula := ⟨c, hget, rfl⟩
  kept o' sector' hmapped := by
    obtain ⟨hall, d, hd, rfl⟩ := (fatBlockMap_false_iff h hv hc).mp hmapped
    obtain ⟨more, rfl⟩ := hpre
    have hlt := (List.getElem?_eq_some_iff.mp hd).1
    constructor
    · refine (fatBlockMap_false_iff h hv hc').mpr ⟨?_, d, ?_, rfl⟩
      · rwa [take_append_of_le_length hlt.le]
      · rw [getElem?_append_left hlt, hd]
    · exact hkeeps d (mem_of_getElem? hd) _ (mod_lt _ h.secsPerClus)
  injective o₁ o₂ x h₁ h₂ := by
    obtain ⟨-, c₁, hc₁, hx₁⟩ := (fatBlockMap_false_iff h hv hc').mp h₁
    obtain ⟨-, c₂, hc₂, hx₂⟩ := (fatBlockMap_false_iff h hv hc').mp h₂
    have hinj := fatToSector_inj (hc'.range c₁ (mem_of_getElem? hc₁)).1
      (hc'.range c₂ (mem_of_getElem? hc₂)).1
      (mod_lt o₁ h.secsPerClus) (mod_lt o₂ h.secsPerClus)
      (hx₁.symm.trans hx₂)
    have hdiv : o₁ / info.secsPerClus = o₂ / info.secsPerClus := by
      obtain ⟨hlt₁, hget₁⟩ := List.getElem?_eq_some_iff.mp hc₁
      obtain ⟨hlt₂, hget₂⟩ := List.getElem?_eq_some_iff.mp hc₂
      apply (List.Nodup.getElem_inj_iff hc'.nodup).mp
      rw [hget₁, hget₂, hinj.1]
    rw [← div_add_mod o₁ info.secsPerClus, ← div_add_mod o₂ info.secsPerClus, hdiv, hinj.2]

theorem mapsStably_of_ne_nil (hne : cs ≠ [])
    (hinside : StaysInside info limit s.disk (o / info.secsPerClus + 1 - cs.length)) :
    MapsStably info limit s v cs o := by
  intro sector s' hmap
  rw [fatBlockMap_eq h hv hc hne, ite_none_right_eq_some] at hmap
  obtain ⟨htotal, hmap⟩ := hmap
  cases hget : cs[o / info.secsPerClus]? with
  | some c =>
    -- The chain is long enough.
    rw [hget] at hmap
    cases hmap
    have hlt := (List.getElem?_eq_some_iff.mp hget).1
    exact ⟨cs, Mapped.of_chain h hv hc hc (prefix_refl cs)
      (max_eq_left hlt).symm htotal hget fun _ _ _ _ => rfl⟩
  | none =>
    have hlen := getElem?_eq_none_iff.mp hget
    rw [take_of_length_le hlen] at htotal
    rw [hget] at hmap
    rcases fatAddClusters_inside h hc htotal hv hinside with
      ⟨s₁, hfail⟩ | ⟨new, s₁, hnew, hnewlen, hc', htotal', hkeeps⟩
    · rw [hfail] at hmap
      cases hmap
    · rw [hnew] at hmap
      cases hmap
      have hnewlen' : (cs ++ new).length = o / info.secsPerClus + 1 := by
        rw [length_append]
        omega
      have hlast : (cs ++ new)[o / info.secsPerClus]? = some (new.getLastD 0) := by
        have hnil : new ≠ [] := ne_nil_of_length_pos (by omega)
        obtain ⟨l, hl⟩ :=
          isSome_iff_exists.mp (getLast?_isSome.mpr hnil)
        have hgetLast := getLast?_append_of_ne_nil cs hnil
        rw [getLast?_eq_getElem?, hnewlen', Nat.add_sub_cancel] at hgetLast
        rw [hgetLast, hl, getLastD_eq_getLast?, hl]
        rfl
      exact ⟨cs ++ new, Mapped.of_chain h hv hc hc' (prefix_append cs new)
        (by omega) (fun x hx => htotal' x (mem_of_mem_take hx)) hlast
        hkeeps⟩

end

theorem mapsStably_nil_iff (hc : ChainOf info limit s v [])
    (hinside : StaysInside info limit s.disk 1) :
    MapsStably info limit s v [] o ↔ (HasFree info limit s.disk 1 → o = 0) := by
  have hmap : fatBlockMap info s v o true = (fatAddCluster info s v).map fun r =>
        (if r.1 ≠ 0 then none
          else some (fatToSector info (r.2.2.startCluster v) + o / info.secsPerClus), r.2.2) := by
    rw [fatBlockMap, if_neg fun hr => hv hr.1, if_pos (hc.start_eq_zero.mpr rfl), if_pos rfl]
  rcases fatAddCluster_inside h hc (nofun)
    hv hinside with ⟨hfree, hadd⟩ | ⟨hfree, c, s₁, hadd, hc₁, -, hkeeps, -⟩
  · refine iff_of_true ?_ fun hf => absurd hf hfree
    intro sector s' hsome
    rw [hmap, hadd] at hsome
    cases hsome
  · have hstart : s₁.startCluster v = c := hc₁.start
    rw [hadd, map_some, hstart] at hmap
    constructor
    · intro hstable _
      obtain ⟨cs', hmapped⟩ := hstable _ _ hmap
      -- The chain is the new cluster alone.
      obtain rfl := hc₁.eq_singleton hmapped.chain
      obtain ⟨c', hget, hsector⟩ := hmapped.formula
      obtain ⟨hlt, rfl⟩ := List.getElem?_eq_some_iff.mp hget
      have hdiv : o / info.secsPerClus = 0 := lt_one_iff.mp hlt
      have hmod := div_add_mod o info.secsPerClus
      simp only [hdiv, getElem_cons_zero, mul_zero] at hsector hmod
      omega
    · intro hzero sector s' hsome
      obtain rfl := hzero hfree
      rw [hmap, Nat.zero_div] at hsome
      cases hsome
      refine ⟨[c], Mapped.of_chain h hv hc hc₁ nil_prefix ?_ ?_ ?_ hkeeps⟩
      · rw [Nat.zero_div]
        rfl
      · rw [Nat.zero_div]
        exact nofun
      · rw [Nat.zero_div]
        rfl

end Map

/-- While the search for free clusters stays inside the volume, `FatBlockMap` is
a stable injective map exactly if the file has clusters, the offset is that of
its first sector, or no cluster is free. -/
theorem fatBlockMap_stable_iff (boot : FatBootSector)
    (hvolume : boot.IsFatVolume) (s : FatState) (v : ℕ) (hv : v ≠ fatRootId)
    (cs : List ℕ)
    (hchain : ChainOf (fatReadSuper boot) (boot.clusterCount + 2) s v cs) (o : ℕ)
    (hinside : StaysInside (fatReadSuper boot) (boot.clusterCount + 2) s.disk
      (o / (fatReadSuper boot).secsPerClus + 1 - cs.length)) :
    MapsStably (fatReadSuper boot) (boot.clusterCount + 2) s v cs o ↔ cs ≠ [] ∨ o = 0 ∨
        ¬ HasFree (fatReadSuper boot) (boot.clusterCount + 2) s.disk 1 := by
  by_cases hnil : cs = []
  · subst hnil
    have hinside₁ : StaysInside (fatReadSuper boot) (boot.clusterCount + 2) s.disk 1 := by
      refine hinside.imp_right ?_
      rintro ⟨free, hnodup, hlen, hmem⟩
      exact ⟨free, hnodup, (le_add_left 1 _).trans hlen, hmem⟩
    rw [mapsStably_nil_iff hvolume.layoutOf hv hchain hinside₁]
    tauto
  · exact iff_of_true (mapsStably_of_ne_nil hvolume.layoutOf hv hchain hnil hinside) (.inl hnil)

def emptyTable : FatState where
  disk _ _ := 0
  startCluster _ := 0
  freeClusters := 0
  superDirty := false

theorem emptyTable_chainOf (v : ℕ) :
    ChainOf (fatReadSuper floppy) (floppy.clusterCount + 2) emptyTable v [] :=
  ⟨rfl, trivial, nodup_nil, nofun⟩

/-- The first sector of a new file. -/
theorem fatBlockMap_stable_iff_first :
    MapsStably (fatReadSuper floppy) (floppy.clusterCount + 2) emptyTable 1 [] 0 :=
  (fatBlockMap_stable_iff floppy floppy_isFatVolume emptyTable 1 (by decide) []
    (emptyTable_chainOf 1) 0 (.inl (by decide))).mpr (.inr (.inl rfl))

/-- The second sector of a new file is mapped to the sector behind its only
cluster, and a second call finds no sector. -/
theorem fatBlockMap_not_stable :
    (∃ s', fatBlockMap (fatReadSuper floppy) emptyTable 1 1 true =
        some (some (fatToSector (fatReadSuper floppy) 3), s') ∧
      fatBlockMap (fatReadSuper floppy) s' 1 1 false = some (none, s')) ∧
    ¬ MapsStably (fatReadSuper floppy) (floppy.clusterCount + 2) emptyTable 1 [] 1 := by
  refine ⟨⟨_, rfl, rfl⟩, fun hstable => ?_⟩
  obtain ⟨cs', hmapped⟩ := hstable _ _ rfl
  cases hmapped.again

end Whitix.Fat
