import Whitix.Fs.Fat.Entry
import Whitix.Include.Error
import Whitix.Support.Chain
import Mathlib.Data.List.Perm.Subperm
import Mathlib.Data.List.Range

/-!
# Cluster chains

The clusters of a file form a chain in the file allocation table.
`FatAddCluster` appends the first free cluster of the volume to the chain of a
vnode, and `FatRemoveClusters` frees a chain or its end.
-/

namespace Whitix.Fat

open Support Function List Option Nat

/-! ## The functions -/

/-- The disk, the start cluster of every vnode, and the number of free
clusters, which only FAT32 keeps, with the dirty flag of the superblock. -/
structure FatState where
  disk : Disk
  startCluster : ℕ → ℕ
  freeClusters : ℕ
  superDirty : Bool

section Functions

variable (info : FatSbInfo)

/-- The sectors of a volume have 32-bit numbers, so that no `DWORD` wraps for a cluster of
the volume. -/
def fatToSector (cluster : ℕ) : ℕ :=
  if cluster = 0 then info.rootDirStart
  else (cluster - 2) * info.secsPerClus + info.firstDataSector

/-- The walk to the last cluster of a chain.  A walk that is longer than the
table has come back to a cluster and does not end. -/
def fatLastCluster (disk : Disk) : ℕ → ℕ → Option ℕ
  | 0, _ => none
  | fuel + 1, last =>
    (fatAccess info disk last none).bind fun r =>
      if info.invalidCluster ≤ r.1 then some last
      else fatLastCluster disk fuel r.1

def fatFindFree (disk : Disk) : List ℕ → Option (Option ℕ)
  | [] => some none
  | i :: rest =>
    (fatAccess info disk i none).bind fun r =>
      if r.1 = 0 then some (some i) else fatFindFree disk rest

def fatZeroCluster (disk : Disk) (cluster : ℕ) : Disk :=
  (range info.secsPerClus).foldl (fun disk i =>
      update disk (fatToSector info cluster + i) fun _ => 0)
    disk

/-- The update of `freeClusters` on FAT32; `-1` means that the number is not
known. -/
def fatUpdateFree (s : FatState) (freeClusters : ℕ) : FatState :=
  if info.fatType = .fat32 ∧ s.freeClusters ≠ 0xFFFFFFFF then
    { s with freeClusters := freeClusters, superDirty := true }
  else s

/-- `FatAddCluster` with its return value and the value it stores at
`lastCluster`. -/
def fatAddCluster (s : FatState) (vNode : ℕ) : Option (ℤ × Option ℕ × FatState) :=
  if info.fatType ≠ .fat32 ∧ vNode = fatRootId then some (-ENOSPC, none, s)
  else
    (if s.startCluster vNode = 0 then some 0
      else fatLastCluster info s.disk (info.totalDataSectors + 2)
        (s.startCluster vNode)).bind fun last =>
    (fatFindFree info s.disk (range' 2 (info.totalDataSectors - 2))).bind fun found =>
    match found with
    | none => some (-ENOSPC, none, s)
    | some ret =>
      (fatAccess info (fatZeroCluster info s.disk ret) ret (some info.invalidCluster)).bind fun r =>
      (if s.startCluster vNode = 0 then
          some { s with
            disk := r.2
            startCluster := update s.startCluster vNode ret }
        else if last = 0 then some { s with disk := r.2 }
        else (fatAccess info r.2 last (some ret)).map fun r =>
          { s with disk := r.2 }).map fun s' =>
      (0, some ret, fatUpdateFree info s' (dwordSub s.freeClusters 1))

/-- Skip the clusters that are kept; the chain may be too short. -/
def fatSkip (disk : Disk) : ℕ → ℕ → Option (Option ℕ)
  | 0, cluster => some (some cluster)
  | number + 1, cluster =>
    (fatAccess info disk cluster none).bind fun r =>
      if info.invalidCluster ≤ r.1 then some none
      else fatSkip disk number r.1

/-- The loop that frees clusters.  Every cluster is freed when it is first
met, and met again it leads to cluster `0`, so that a loop that is longer than
this does not end. -/
def fatFree : ℕ → Disk → ℕ → Option Disk
  | 0, _, _ => none
  | fuel + 1, disk, cluster =>
    (fatAccess info disk cluster (some 0)).bind fun r =>
      if info.invalidCluster ≤ r.1 then some r.2 else fatFree fuel r.2 r.1

def fatRemoveClusters (s : FatState) (vNode number : ℕ) : Option (ℤ × FatState) :=
  if info.fatType ≠ .fat32 ∧ vNode = fatRootId then some (-EPERM, s)
  else if s.startCluster vNode = 0 then some (0, s)
  else
    (fatSkip info s.disk number (s.startCluster vNode)).bind fun found =>
    match found with
    | none => some (-EINVAL, s)
    | some cluster =>
      (fatFree info (info.totalDataSectors + 4) s.disk cluster).map fun disk =>
      (0, fatUpdateFree info
          { s with
            disk := disk
            startCluster :=
              if number = 0 then update s.startCluster vNode 0
              else s.startCluster }
          (dword (s.freeClusters + number)))

end Functions

/-! ## Loops -/

section Loops

variable {info : FatSbInfo} {limit : ℕ} (h : info.TableFor limit) {disk : Disk}

abbrev FatChain (info : FatSbInfo) (disk : Disk) (cs : List ℕ) : Prop :=
  Linked (fatEntry info disk) (info.invalidCluster ≤ ·) cs

theorem fatFindFree_eq {is : List ℕ} (hrange : ∀ i ∈ is, i ≤ info.totalDataSectors) :
    fatFindFree info disk is = some (is.find? fun i => fatRead info disk i = 0) := by
  induction is with
  | nil => rfl
  | cons i is ih =>
    rw [fatFindFree, fatAccess, if_neg (not_lt.mpr (hrange i mem_cons_self)), bind_some]
    by_cases hi : fatRead info disk i = 0
    · rw [if_pos hi, find?_cons_of_pos (by simpa using hi)]
    · rw [if_neg hi, find?_cons_of_neg (by simpa using hi)]
      exact ih (forall_mem_cons.mp hrange).2

abbrev firstFree (info : FatSbInfo) (disk : Disk) : Option ℕ :=
  (range' 2 (info.totalDataSectors - 2)).find? fun i => fatRead info disk i = 0

theorem fatFindFree_range (info : FatSbInfo) (disk : Disk) :
    fatFindFree info disk (range' 2 (info.totalDataSectors - 2)) = some (firstFree info disk) := by
  apply fatFindFree_eq
  intro i hi
  have hrange := mem_range'_1.mp hi
  omega

include h

section

variable {c fuel : ℕ} {cs : List ℕ}

theorem fatLastCluster_eq (hchain : FatChain info disk (c :: cs))
    (hrange : ∀ x ∈ c :: cs, x < limit ∧ x ≤ info.totalDataSectors) (hfuel : cs.length < fuel) :
    fatLastCluster info disk fuel c = (c :: cs).getLast? := by
  induction fuel generalizing c cs with
  | zero => exact absurd hfuel (not_lt_zero _)
  | succ fuel ih =>
    obtain ⟨⟨hlimit, htotal⟩, hrange'⟩ := forall_mem_cons.mp hrange
    rw [fatLastCluster, fatAccess_read h hlimit htotal, bind_some]
    cases cs with
    | nil => exact if_pos hchain
    | cons d cs =>
      obtain ⟨hnext, hd, hrest⟩ := hchain
      rw [hnext, if_neg hd, ih hrest hrange' (lt_of_succ_lt_succ hfuel)]
      rfl

theorem fatEntry_fatZeroCluster {cluster e : ℕ} (hcluster : cluster ≠ 0) (he : e < limit) :
    fatEntry info (fatZeroCluster info disk cluster) e = fatEntry info disk e := by
  have hsector : info.firstDataSector ≤ fatToSector info cluster := by
    rw [fatToSector, if_neg hcluster]
    exact le_add_left _ _
  unfold fatZeroCluster
  induction range info.secsPerClus generalizing disk with
  | nil => rfl
  | cons i is ih =>
    rw [foldl_cons, ih]
    refine fatEntry_congr (entryEnd_le h he) fun _ hk => flat_update_of_le _ ?_ hk
    exact h.behind.trans (hsector.trans (le_add_right _ _))

theorem fatFree_spec (hchain : FatChain info disk (c :: cs)) (hnodup : (c :: cs).Nodup)
    (hrange : ∀ x ∈ c :: cs, x < limit ∧ x ≤ info.totalDataSectors) (hfuel : cs.length < fuel) :
    ∃ disk', fatFree info fuel disk c = some disk' ∧ ∀ e < limit, fatEntry info disk' e =
      if e ∈ c :: cs then 0 else fatEntry info disk e := by
  induction fuel generalizing c cs disk with
  | zero => exact absurd hfuel (not_lt_zero _)
  | succ fuel ih =>
    obtain ⟨⟨hlimit, htotal⟩, hrange'⟩ := forall_mem_cons.mp hrange
    have hwrite : ∀ e < limit, fatEntry info (fatWrite info disk c 0) e =
        if e = c then 0 else fatEntry info disk e :=
      fun e he => fatEntry_write h hlimit (zero_le _) he
    rw [fatFree, fatAccess_write h hlimit htotal, bind_some]
    cases cs with
    | nil =>
      refine ⟨_, if_pos hchain, fun e he => ?_⟩
      rw [hwrite e he]
      simp only [mem_singleton]
    | cons d cs =>
      obtain ⟨hnext, hd, hrest⟩ := hchain
      obtain ⟨hc, hnodup'⟩ := nodup_cons.mp hnodup
      have hchain' : FatChain info (fatWrite info disk c 0) (d :: cs) := by
        refine hrest.congr fun x hx => ?_
        rw [hwrite x (hrange' x hx).1, if_neg]
        rintro rfl
        exact hc hx
      obtain ⟨disk', hfree, hentries⟩ := ih hchain' hnodup' hrange' (lt_of_succ_lt_succ hfuel)
      rw [hnext, if_neg hd]
      refine ⟨disk', hfree, fun e he => ?_⟩
      grind

theorem walk_eq {β : Type*} {f : ℕ → ℕ → Option β} {found : ℕ → β} {ended : ℕ → Option β}
    (hzero : ∀ c, f 0 c = some (found c))
    (hsucc : ∀ q c, f (q + 1) c = (fatAccess info disk c none).bind fun r =>
      if info.invalidCluster ≤ r.1 then ended q else f q r.1)
    (hchain : FatChain info disk (c :: cs)) (hlimit : ∀ x ∈ c :: cs, x < limit) (q : ℕ) :
    f q c = if ∀ x ∈ (c :: cs).take q, x ≤ info.totalDataSectors then
        match (c :: cs)[q]? with
        | some d => some (found d)
        | none => ended (q - (c :: cs).length)
      else none := by
  induction q generalizing c cs with
  | zero => exact (hzero c).trans (if_pos nofun).symm
  | succ q ih =>
    rw [hsucc]
    by_cases hc : c ≤ info.totalDataSectors
    · rw [fatAccess_read h (hlimit c mem_cons_self) hc, bind_some]
      cases cs with
      | nil =>
        have hend : info.invalidCluster ≤ fatEntry info disk c := hchain
        rw [if_pos hend, if_pos]
        · rfl
        · intro x hx
          rw [take_succ_cons, take_nil] at hx
          exact mem_singleton.mp hx ▸ hc
      | cons d cs =>
        obtain ⟨hnext, hd, hrest⟩ := hchain
        rw [hnext, if_neg hd, ih hrest (forall_mem_cons.mp hlimit).2]
        rw [length_cons (a := c), Nat.add_sub_add_right]
        refine if_congr ?_ rfl rfl
        rw [take_succ_cons, forall_mem_cons]
        exact (and_iff_right hc).symm
    · have hpanic : fatAccess info disk c none = none := if_pos (not_le.mp hc)
      rw [hpanic, if_neg]
      · rfl
      · exact fun hall => hc (hall c (by simp))

theorem fatSkip_eq (hchain : FatChain info disk (c :: cs)) (hlimit : ∀ x ∈ c :: cs, x < limit)
    (number : ℕ) :
    fatSkip info disk number c = if ∀ x ∈ (c :: cs).take number, x ≤ info.totalDataSectors then
        some (c :: cs)[number]?
      else none := by
  refine (walk_eq h (fun _ => rfl) (fun _ _ => rfl) hchain hlimit _).trans (if_congr Iff.rfl ?_ rfl)
  cases (c :: cs)[number]? with
  | none | some d => rfl

end

end Loops

/-! ## Appending to a chain -/

/-- The chain of a vnode, with cluster numbers below `limit` that `FatAccess`
accepts. -/
structure ChainOf (info : FatSbInfo) (limit : ℕ) (s : FatState) (v : ℕ) (cs : List ℕ) : Prop where
  start : s.startCluster v = cs.headD 0
  linked : FatChain info s.disk cs
  nodup : cs.Nodup
  range : ∀ c ∈ cs, 2 ≤ c ∧ c < limit

theorem fatUpdateFree_disk (info : FatSbInfo) (s : FatState) (n : ℕ) :
    (fatUpdateFree info s n).disk = s.disk := by
  unfold fatUpdateFree
  split <;> rfl

theorem fatUpdateFree_startCluster (info : FatSbInfo) (s : FatState) (n : ℕ) :
    (fatUpdateFree info s n).startCluster = s.startCluster := by
  unfold fatUpdateFree
  split <;> rfl

section Append

variable {info : FatSbInfo} {limit : ℕ} {s : FatState} {v : ℕ} {cs : List ℕ}

theorem ChainOf.start_eq_zero (hc : ChainOf info limit s v cs) :
    s.startCluster v = 0 ↔ cs = [] := by
  rw [hc.start]
  cases cs with
  | nil => simp
  | cons c cs =>
    have hrange := (hc.range c mem_cons_self).1
    simp only [headD_cons, reduceCtorEq, iff_false]
    omega

theorem ChainOf.length_le (hc : ChainOf info limit s v cs)
    (htotal : ∀ c ∈ cs, c ≤ info.totalDataSectors) : cs.length ≤ info.totalDataSectors + 1 := by
  have hsub : cs ⊆ List.range (info.totalDataSectors + 1) :=
    fun c hc => mem_range.mpr (lt_succ_of_le (htotal c hc))
  have hle := (List.Nodup.subperm hc.nodup hsub).length_le
  rwa [length_range] at hle

variable (h : info.TableFor limit)

include h

theorem ChainOf.lastCluster (hc : ChainOf info limit s v cs)
    (htotal : ∀ c ∈ cs, c ≤ info.totalDataSectors) :
    (if s.startCluster v = 0 then some 0
      else fatLastCluster info s.disk (info.totalDataSectors + 2)
        (s.startCluster v)) = some (cs.getLast?.getD 0) := by
  cases cs with
  | nil => rw [if_pos (hc.start_eq_zero.mpr rfl)]; rfl
  | cons c cs =>
    have hlen := hc.length_le htotal
    rw [length_cons] at hlen
    rw [if_neg (mt hc.start_eq_zero.mp (cons_ne_nil c cs)), hc.start, headD_cons,
      fatLastCluster_eq h hc.linked
        (fun x hx => ⟨(hc.range x hx).2, htotal x hx⟩) (by omega),
      getLast?_cons]
    rfl

def appendDisk (info : FatSbInfo) (disk : Disk) (cs : List ℕ) (c : ℕ) : Disk :=
  let marked := fatWrite info (fatZeroCluster info disk c) c info.invalidCluster
  match cs.getLast? with
  | none => marked
  | some last => fatWrite info marked last c

theorem fatEntry_appendDisk {disk : Disk} {c : ℕ}
    (hrange : ∀ c ∈ cs, 2 ≤ c ∧ c < limit) (hc : 2 ≤ c ∧ c < limit) :
    ∀ e < limit, fatEntry info (appendDisk info disk cs c) e = if cs.getLast? = some e then c
      else if e = c then info.invalidCluster
      else fatEntry info disk e := by
  intro e he
  have hmarked : fatEntry info (fatWrite info (fatZeroCluster info disk c) c
      info.invalidCluster) e = if e = c then info.invalidCluster else fatEntry info disk e := by
    rw [fatEntry_write h hc.2 le_rfl he, fatEntry_fatZeroCluster h (by omega) he]
  unfold appendDisk
  cases hlast : cs.getLast? with
  | none => exact hmarked
  | some l =>
    have hl := (hrange l (mem_of_getLast? hlast)).2
    rw [fatEntry_write h hl (hc.2.le.trans h.clusters) he, hmarked]
    simp only [some.injEq, eq_comm]

section

variable (hc : ChainOf info limit s v cs)
include hc

theorem fatAddCluster_found {c : ℕ} (htotal : ∀ c ∈ cs, c ≤ info.totalDataSectors)
    (hroot : info.fatType ≠ .fat32 → v ≠ fatRootId)
    (hfind : firstFree info s.disk = some c) (hlimit : c < limit) :
    ∃ s', fatAddCluster info s v = some (0, some c, s') ∧
      s'.startCluster = (if cs = [] then update s.startCluster v c
        else s.startCluster) ∧
      s'.disk = appendDisk info s.disk cs c := by
  have hnotroot : ¬(info.fatType ≠ .fat32 ∧ v = fatRootId) :=
    fun hr => hroot hr.1 hr.2
  have hmem := mem_range'_1.mp (mem_of_find?_eq_some hfind)
  have hrange : c ≤ info.totalDataSectors := by omega
  rw [fatAddCluster, if_neg hnotroot, hc.lastCluster h htotal,
    bind_some, fatFindFree_range, bind_some, hfind]
  dsimp only
  rw [fatAccess_write h hlimit hrange, bind_some]
  unfold appendDisk
  rcases eq_nil_or_concat' cs with hnil | ⟨front, l, hcons⟩
  · rw [if_pos (hc.start_eq_zero.mpr hnil)]
    refine ⟨_, rfl, ?_, ?_⟩
    · rw [fatUpdateFree_startCluster, if_pos hnil]
    · rw [fatUpdateFree_disk, hnil]
      rfl
  · have hlmem : l ∈ cs := by simp [hcons]
    have hl := hc.range l hlmem
    have hne : cs ≠ [] := by simp [hcons]
    rw [if_neg (mt hc.start_eq_zero.mp hne), hcons, getLast?_concat, getD_some, if_neg (by omega),
      fatAccess_write h hl.2 (htotal l hlmem)]
    refine ⟨_, rfl, ?_, ?_⟩
    · rw [fatUpdateFree_startCluster, if_neg (by simp)]
    · rw [fatUpdateFree_disk]

theorem fatAddCluster_full (htotal : ∀ c ∈ cs, c ≤ info.totalDataSectors)
    (hroot : info.fatType ≠ .fat32 → v ≠ fatRootId) (hfind : firstFree info s.disk = none) :
    fatAddCluster info s v = some (-ENOSPC, none, s) := by
  have hnotroot : ¬(info.fatType ≠ .fat32 ∧ v = fatRootId) :=
    fun hr => hroot hr.1 hr.2
  rw [fatAddCluster, if_neg hnotroot, hc.lastCluster h htotal,
    bind_some, fatFindFree_range, bind_some, hfind]

theorem ChainOf.entry_ne_zero {c : ℕ} (hmem : c ∈ cs) : fatEntry info s.disk c ≠ 0 := by
  have hmarker : 0 < info.invalidCluster := by
    rw [h.marker]
    cases info.fatType <;> decide
  rcases hc.linked.next_cases hmem with hnext | hend
  · have hrange := (hc.range _ hnext).1
    omega
  · omega

theorem ChainOf.append {s' : FatState} {c : ℕ} (hrange : 2 ≤ c ∧ c < limit)
    (hfree : fatEntry info s.disk c = 0)
    (hstart : s'.startCluster = if cs = [] then
      update s.startCluster v c else s.startCluster)
    (hentries : ∀ e < limit, fatEntry info s'.disk e = if cs.getLast? = some e then c
      else if e = c then info.invalidCluster
      else fatEntry info s.disk e) :
    ChainOf info limit s' v (cs ++ [c]) := by
  have hnew : c ∉ cs := fun hmem => hc.entry_ne_zero h hmem hfree
  have hlast : cs.getLast? ≠ some c := fun heq => hnew (mem_of_getLast? heq)
  have hend : info.invalidCluster ≤ fatEntry info s'.disk c := by
    rw [hentries c hrange.2, if_neg hlast, if_pos rfl]
  refine ⟨?_, ?_, ?_, ?_⟩
  · rw [hstart]
    split
    · next hnil => rw [hnil, update_self]; rfl
    · next hne =>
      rw [hc.start]
      obtain ⟨x, xs, hx⟩ := exists_cons_of_ne_nil hne
      rw [hx]
      rfl
  · rcases eq_nil_or_concat' cs with hnil | ⟨front, l, hcons⟩
    · rw [hnil]
      exact hend
    · have hlinked := hc.linked
      have hnodup := hc.nodup
      have hl := hc.range l (by simp [hcons])
      rw [hcons] at hlinked hnodup ⊢
      rw [hcons, getLast?_concat] at hentries
      rw [append_assoc]
      apply hlinked.snoc
      · intro x hx
        have hxr := hc.range x (by simp [hcons, hx])
        have hxl : l ≠ x := by
          rintro rfl
          exact (nodup_append.mp hnodup).2.2 l hx l mem_cons_self rfl
        have hxc : x ≠ c := by
          rintro rfl
          exact hnew (by simp [hcons, hx])
        rw [hentries x hxr.2, if_neg (by simpa using hxl), if_neg hxc]
      · rw [hentries l hl.2, if_pos rfl]
      · exact not_le.mpr (lt_of_lt_of_le hrange.2 h.clusters)
      · exact hend
  · exact hc.nodup.append (nodup_singleton c) (disjoint_singleton.mpr hnew)
  · exact forall_mem_append.mpr ⟨hc.range, forall_mem_singleton.mpr hrange⟩

end

end Append

/-! ## Freeing the end of a chain -/

section Remove

variable {info : FatSbInfo} {limit : ℕ} (h : info.TableFor limit)
  {s : FatState} {v number : ℕ} {cs : List ℕ}

include h

/-- What `FatRemoveClusters` does to a chain that `FatAccess` accepts: it zeroes
the entries of the clusters that are not kept. -/
theorem fatRemoveClusters_cases (hc : ChainOf info limit s v cs)
    (htotal : ∀ c ∈ cs, c ≤ info.totalDataSectors)
    (hroot : info.fatType ≠ .fat32 → v = fatRootId → cs = []) (hnumber : number ≤ cs.length) :
    ∃ ret s', fatRemoveClusters info s v number = some (ret, s') ∧
      ret = (if info.fatType ≠ .fat32 ∧ v = fatRootId then -EPERM
        else if cs = [] ∨ number < cs.length then 0 else -EINVAL) ∧
      (number = cs.length → s' = s) ∧
      s'.startCluster = (if number = 0 then update s.startCluster v 0
        else s.startCluster) ∧
      ∀ e < limit, fatEntry info s'.disk e =
        if e ∈ cs.drop number then 0 else fatEntry info s.disk e := by
  rw [fatRemoveClusters]
  cases cs with
  | nil =>
    obtain rfl := le_zero.mp hnumber
    have hstart := hc.start_eq_zero.mpr rfl
    refine ⟨_, s, ?_, rfl, fun _ => rfl, ?_, fun e _ => rfl⟩
    · split <;> rfl
    · rw [if_pos rfl, ← hstart, update_eq_self]
  | cons c cs =>
    -- The root directory has no chain.
    have hnotroot : ¬(info.fatType ≠ .fat32 ∧ v = fatRootId) := fun hr =>
      cons_ne_nil c cs (hroot hr.1 hr.2)
    rw [if_neg hnotroot, if_neg hnotroot]
    have hlimit : ∀ x ∈ c :: cs, x < limit := fun x hx => (hc.range x hx).2
    have hskip := fatSkip_eq h hc.linked hlimit number
    rw [if_pos fun x hx => htotal x (mem_of_mem_take hx)] at hskip
    have hstart : s.startCluster v = c := hc.start
    rw [if_neg (mt hc.start_eq_zero.mp (cons_ne_nil c cs)), hstart, hskip, bind_some]
    rcases lt_or_eq_of_le hnumber with hlt | heq
    · -- The cluster `c'` is the first one that is freed.
      obtain ⟨c', rest, hdrop⟩ : ∃ c' rest, (c :: cs).drop number = c' :: rest :=
        exists_cons_of_ne_nil (by simpa using hlt)
      have hget : (c :: cs)[number]? = some c' := by
        rw [← head?_drop, hdrop]
        rfl
      have hmem : ∀ x ∈ c' :: rest, x ∈ c :: cs := fun x hx =>
        mem_of_mem_drop (hdrop ▸ hx)
      have hchain := hc.linked.drop number
      have hnodup := hc.nodup.sublist (drop_sublist number (c :: cs))
      have hlength := hc.length_le htotal
      have hdropped := congrArg length hdrop
      rw [hdrop] at hchain hnodup
      rw [length_drop] at hdropped
      simp only [length_cons] at hdropped hlength
      obtain ⟨disk', hfree, hentries⟩ := fatFree_spec h hchain hnodup
        (fun x hx => ⟨hlimit x (hmem x hx), htotal x (hmem x hx)⟩)
        (by omega : rest.length < info.totalDataSectors + 4)
      rw [hget]
      dsimp only
      rw [hfree]
      refine ⟨_, _, rfl, (if_pos (.inr hlt)).symm, fun heq => absurd heq hlt.ne, ?_, ?_⟩
      · rw [fatUpdateFree_startCluster]
      · intro e he
        rw [fatUpdateFree_disk, hdrop]
        exact hentries e he
    · have hget : (c :: cs)[number]? = none :=
        getElem?_eq_none (le_of_eq heq.symm)
      rw [hget]
      refine ⟨_, s, rfl, (if_neg ?_).symm, fun _ => rfl, ?_, fun e _ => ?_⟩
      · exact not_or.mpr ⟨cons_ne_nil c cs, Nat.not_lt_of_le heq.symm.le⟩
      · rw [if_neg (by rw [heq, length_cons]; exact succ_ne_zero _)]
      · rw [heq, drop_length, if_neg not_mem_nil]

end Remove

end Whitix.Fat
