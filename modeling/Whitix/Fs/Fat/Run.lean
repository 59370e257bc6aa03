import Whitix.Fs.Fat.Cluster
import Whitix.Support.Run

/-!
# Runs of cluster operations

The chains of a set of vnodes are kept by every sequence of `FatAddCluster` and
`FatRemoveClusters`: they stay linked, free of repetitions, inside the volume
and disjoint, and entries that belong to none of them are left alone.
-/

namespace Whitix.Fat

open Support Function List

/-- The list `chains v` is the chain of vnode `v`, for all vnodes of `vs`. -/
structure FatChains (info : FatSbInfo) (s : FatState) (vs : List ℕ)
    (chains : ℕ → List ℕ) : Prop where
  start : ∀ v ∈ vs, s.startCluster v = (chains v).headD 0
  linked : ∀ v ∈ vs, FatChain info s.disk (chains v)
  nodup : ∀ v ∈ vs, (chains v).Nodup
  range : ∀ v ∈ vs, ∀ c ∈ chains v, 2 ≤ c ∧ c < info.totalDataSectors
  disjoint : ∀ v ∈ vs, ∀ w ∈ vs, v ≠ w → (chains v).Disjoint (chains w)

variable {info : FatSbInfo} {s s' : FatState} {vs : List ℕ} {chains : ℕ → List ℕ} {v : ℕ}

section Facts

variable (h : FatChains info s vs chains)

include h

theorem FatChains.chainOf (hv : v ∈ vs) : ChainOf info info.totalDataSectors s v (chains v) :=
  ⟨h.start v hv, h.linked v hv, h.nodup v hv, h.range v hv⟩

theorem FatChains.total (hv : v ∈ vs) : ∀ c ∈ chains v, c ≤ info.totalDataSectors :=
  fun c hc => (h.range v hv c hc).2.le

theorem FatChains.replace {cs : List ℕ} (hstart : s'.startCluster v = cs.headD 0)
    (hothers : ∀ w, w ≠ v → s'.startCluster w = s.startCluster w)
    (hlinked : FatChain info s'.disk cs) (hnodup : cs.Nodup)
    (hrange : ∀ c ∈ cs, 2 ≤ c ∧ c < info.totalDataSectors)
    (hsame : ∀ w ∈ vs, w ≠ v → ∀ c ∈ chains w,
      c ∉ cs ∧ fatEntry info s'.disk c = fatEntry info s.disk c) :
    FatChains info s' vs (update chains v cs) := by
  have hchain : ∀ w ∈ vs, ChainOf info info.totalDataSectors s' w (update chains v cs w) := by
    intro w hw
    rw [update_apply]
    split_ifs with hwv
    · rw [hwv]
      exact ⟨hstart, hlinked, hnodup, hrange⟩
    · exact ⟨(hothers w hwv).trans (h.start w hw),
        (h.linked w hw).congr fun c hc => (hsame w hw hwv c hc).2, h.nodup w hw, h.range w hw⟩
  refine ⟨fun w hw => (hchain w hw).start, fun w hw => (hchain w hw).linked,
    fun w hw => (hchain w hw).nodup, fun w hw => (hchain w hw).range, ?_⟩
  · intro w hw x hx hwx
    rw [update_apply, update_apply]
    split_ifs with hwv hxv hxv
    · exact absurd (hwv.trans hxv.symm) hwx
    · exact fun c hc hc' => (hsame x hx hxv c hc').1 hc
    · exact fun c hc hc' => (hsame w hw hwv c hc).1 hc'
    · exact h.disjoint w hw x hx hwx

end Facts

/-! ## Appending a cluster -/

/-- What a successful `FatAddCluster` does: a free cluster becomes the last one
of the chain, and besides its entry and that of the former last cluster no
entry changes. -/
structure ClusterAdded (info : FatSbInfo) (s : FatState) (vs : List ℕ)
    (chains : ℕ → List ℕ) (v c : ℕ) (s' : FatState) : Prop where
  range : 2 ≤ c ∧ c < info.totalDataSectors
  free : fatEntry info s.disk c = 0
  extended : FatChains info s' vs (update chains v (chains v ++ [c]))
  others : ∀ w, w ≠ v → s'.startCluster w = s.startCluster w
  entries : ∀ e < info.totalDataSectors, e ≠ c → (chains v).getLast? ≠ some e →
    fatEntry info s'.disk e = fatEntry info s.disk e

section Add

variable (hinfo : info.Wellformed) (h : FatChains info s vs chains) (hv : v ∈ vs)

include hinfo h hv

theorem ClusterAdded.of_entries {c : ℕ} (hc : 2 ≤ c ∧ c < info.totalDataSectors)
    (hfree : fatEntry info s.disk c = 0)
    (hstart : s'.startCluster = if chains v = [] then
      update s.startCluster v c else s.startCluster)
    (hentries : ∀ e < info.totalDataSectors, fatEntry info s'.disk e =
      if (chains v).getLast? = some e then c
      else if e = c then info.invalidCluster
      else fatEntry info s.disk e) :
    ClusterAdded info s vs chains v c s' := by
  have hnew : ∀ w ∈ vs, c ∉ chains w :=
    fun w hw hmem => (h.chainOf hw).entry_ne_zero hinfo hmem hfree
  have happend := (h.chainOf hv).append hinfo hc hfree hstart hentries
  have hothers : ∀ w, w ≠ v → s'.startCluster w = s.startCluster w := by
    intro w hwv
    rw [hstart]
    split
    · exact update_of_ne hwv _ _
    · rfl
  refine ⟨hc, hfree, ?_, hothers, ?_⟩
  · refine h.replace happend.start hothers happend.linked happend.nodup happend.range ?_
    intro w hw hwv x hx
    have hxv : x ∉ chains v := h.disjoint w hw v hv hwv hx
    have hxc : x ≠ c := by
      rintro rfl
      exact hnew w hw hx
    refine ⟨by simp [hxv, hxc], ?_⟩
    rw [hentries x (h.range w hw x hx).2, if_neg, if_neg hxc]
    intro heq
    exact hxv (mem_of_getLast? heq)
  · intro e he hec hel
    rw [hentries e he, if_neg hel, if_neg hec]

theorem fatAddCluster_spec (hroot : info.fatType ≠ .fat32 → v ≠ fatRootId) :
    (∃ c s', fatAddCluster info s v = some (0, some c, s') ∧ ClusterAdded info s vs chains v c s') ∨
      (fatAddCluster info s v = some (-ENOSPC, none, s) ∧
        ∀ c, 2 ≤ c → c < info.totalDataSectors → fatEntry info s.disk c ≠ 0) := by
  have hchain := h.chainOf hv
  have hread : ∀ i < info.totalDataSectors,
      fatRead info s.disk i = fatEntry info s.disk i := fun i hi =>
    fatRead_eq hinfo.aligned (lt_of_lt_limit hinfo hi)
  cases hfind : firstFree info s.disk with
  | none =>
    right
    refine ⟨fatAddCluster_full hinfo hchain (h.total hv) hroot hfind, ?_⟩
    intro c hc hc' hzero
    have hno := find?_eq_none.mp hfind c (mem_range'_1.mpr (by omega))
    rw [hread c hc'] at hno
    simp [hzero] at hno
  | some c =>
    left
    have hmem := mem_range'_1.mp (mem_of_find?_eq_some hfind)
    have hc : 2 ≤ c ∧ c < info.totalDataSectors := by omega
    have hfree : fatEntry info s.disk c = 0 := by
      rw [← hread c hc.2]
      simpa using find?_some hfind
    obtain ⟨s', hadd, hstart, hdisk⟩ := fatAddCluster_found hinfo
      hchain (h.total hv) hroot hfind hc.2
    refine ⟨c, s', hadd, ClusterAdded.of_entries hinfo h hv hc hfree hstart ?_⟩
    rw [hdisk]
    exact fatEntry_appendDisk hinfo hchain.range hc

end Add

/-! ## Freeing a chain -/

/-- What `FatRemoveClusters` does when it keeps no cluster: exactly the entries
of the chain become zero. -/
structure ClustersRemoved (info : FatSbInfo) (s : FatState) (vs : List ℕ)
    (chains : ℕ → List ℕ) (v : ℕ) (s' : FatState) : Prop where
  start : s'.startCluster v = 0
  emptied : FatChains info s' vs (update chains v [])
  others : ∀ w, w ≠ v → s'.startCluster w = s.startCluster w
  entries : ∀ e < info.totalDataSectors, fatEntry info s'.disk e =
    if e ∈ chains v then 0 else fatEntry info s.disk e

section Remove

variable (hinfo : info.Wellformed) (h : FatChains info s vs chains) (hv : v ∈ vs)

include h hv

theorem ClustersRemoved.of_entries (hstart : s'.startCluster = update s.startCluster v 0)
    (hentries : ∀ e < info.totalDataSectors, fatEntry info s'.disk e =
      if e ∈ chains v then 0 else fatEntry info s.disk e) :
    ClustersRemoved info s vs chains v s' := by
  have hothers : ∀ w, w ≠ v → s'.startCluster w = s.startCluster w := by
    intro w hwv
    rw [hstart, update_of_ne hwv]
  have hzero : s'.startCluster v = 0 := by rw [hstart, update_self]
  refine ⟨hzero, ?_, hothers, hentries⟩
  have hnil : FatChain info s'.disk [] := trivial
  apply h.replace hzero hothers hnil nodup_nil
  · exact nofun
  · intro w hw hwv c hc
    have hcv : c ∉ chains v := h.disjoint w hw v hv hwv hc
    exact ⟨not_mem_nil, by
      rw [hentries c (h.range w hw c hc).2, if_neg hcv]⟩

include hinfo

theorem fatRemoveClusters_spec (hroot : info.fatType ≠ .fat32 → v ≠ fatRootId) :
    ∃ s', fatRemoveClusters info s v 0 = some (0, s') ∧ ClustersRemoved info s vs chains v s' := by
  have hnotroot : ¬(info.fatType ≠ .fat32 ∧ v = fatRootId) :=
    fun hr => hroot hr.1 hr.2
  have hmore : chains v = [] ∨ 0 < (chains v).length :=
    (chains v).eq_nil_or_concat.imp id fun ⟨cs, c, hcons⟩ => by simp [hcons]
  obtain ⟨ret, s', hremove, hret, -, hstart, hentries⟩ :=
    fatRemoveClusters_cases hinfo (h.chainOf hv) (h.total hv)
      (fun htype hid => absurd hid (hroot htype)) (Nat.zero_le _)
  rw [if_neg hnotroot, if_pos hmore] at hret
  exact ⟨s', hret ▸ hremove, ClustersRemoved.of_entries h hv hstart hentries⟩

end Remove

/-! ## Runs -/

inductive FatOp where
  | add (vNode : ℕ)
  | remove (vNode : ℕ)
  deriving DecidableEq

def FatOp.vNode : FatOp → ℕ
  | .add v => v
  | .remove v => v

def fatStep (info : FatSbInfo) (s : FatState) : FatOp → Option FatState
  | .add v => (fatAddCluster info s v).map fun r => r.2.2
  | .remove v => (fatRemoveClusters info s v 0).map fun r => r.2

/-- The chains exist, and entries that were in use outside the chains when the
run began have kept their values. -/
def FatRunInv (info : FatSbInfo) (vs : List ℕ) (s₀ : FatState)
    (chains₀ : ℕ → List ℕ) (s : FatState) : Prop :=
  ∃ chains, FatChains info s vs chains ∧
    ∀ e < info.totalDataSectors, fatEntry info s₀.disk e ≠ 0 → (∀ v ∈ vs, e ∉ chains₀ v) →
        fatEntry info s.disk e = fatEntry info s₀.disk e ∧ ∀ v ∈ vs, e ∉ chains v

theorem FatRunInv.step (hinfo : info.Wellformed)
    (hroot : info.fatType ≠ .fat32 → fatRootId ∉ vs) {s₀ : FatState} {chains₀ : ℕ → List ℕ}
    {op : FatOp} (h : FatRunInv info vs s₀ chains₀ s) (hop : op.vNode ∈ vs)
    (hstep : fatStep info s op = some s') : FatRunInv info vs s₀ chains₀ s' := by
  obtain ⟨chains, hchains, hkept⟩ := h
  have hroot' : info.fatType ≠ .fat32 → op.vNode ≠ fatRootId :=
    fun htype heq => hroot htype (heq ▸ hop)
  cases op with
  | add v =>
    rw [FatOp.vNode] at hop hroot'
    rcases fatAddCluster_spec hinfo hchains hop hroot' with
      ⟨c, s₁, hadd, hspec⟩ | ⟨hadd, -⟩
    · rw [fatStep, hadd] at hstep
      cases hstep
      refine ⟨_, hspec.extended, ?_⟩
      intro e he hused hout
      obtain ⟨hvalue, hnot⟩ := hkept e he hused hout
      have hec : e ≠ c := by
        rintro rfl
        exact hused (hvalue ▸ hspec.free)
      refine ⟨?_, ?_⟩
      · rw [← hvalue]
        apply hspec.entries e he hec
        intro hlast
        exact hnot v hop (mem_of_getLast? hlast)
      · exact (forall_update_iff chains fun w cs => w ∈ vs → e ∉ cs).mpr
          ⟨fun _ => by simp [hnot v hop, hec], fun w _ => hnot w⟩
    · rw [fatStep, hadd] at hstep
      cases hstep
      exact ⟨chains, hchains, hkept⟩
  | remove v =>
    rw [FatOp.vNode] at hop hroot'
    obtain ⟨s₁, hremove, hspec⟩ :=
      fatRemoveClusters_spec hinfo hchains hop hroot'
    rw [fatStep, hremove] at hstep
    cases hstep
    refine ⟨_, hspec.emptied, ?_⟩
    intro e he hused hout
    obtain ⟨hvalue, hnot⟩ := hkept e he hused hout
    refine ⟨?_, ?_⟩
    · rw [← hvalue]
      exact (hspec.entries e he).trans (if_neg (hnot v hop))
    · exact (forall_update_iff chains fun w cs => w ∈ vs → e ∉ cs).mpr
        ⟨fun _ => not_mem_nil, fun w _ => hnot w⟩

/-- Runs of `FatAddCluster` and `FatRemoveClusters` keep the chains disjoint and
all other entries in use.  In every state reached, `FatAddCluster` appends a
free cluster or the volume is full, and `FatRemoveClusters` zeroes the entries
of the chain and no others. -/
theorem fat_cluster_chains_kept (boot : FatBootSector) (hvolume : boot.IsVolume) (vs : List ℕ)
    (hroot : (fatReadSuper boot).fatType ≠ .fat32 → fatRootId ∉ vs) (s₀ s : FatState)
    (chains₀ : ℕ → List ℕ) (hstart : FatChains (fatReadSuper boot) s₀ vs chains₀)
    (h : Reach (fatStep (fatReadSuper boot)) (fun _ op => op.vNode ∈ vs) s₀ s) :
    ∃ chains, FatChains (fatReadSuper boot) s vs chains ∧
      (∀ e < (fatReadSuper boot).totalDataSectors, fatEntry (fatReadSuper boot) s₀.disk e ≠ 0 →
        (∀ v ∈ vs, e ∉ chains₀ v) → fatEntry (fatReadSuper boot) s.disk e =
              fatEntry (fatReadSuper boot) s₀.disk e ∧
            ∀ v ∈ vs, e ∉ chains v) ∧
      ∀ v ∈ vs, ((∃ c s', fatAddCluster (fatReadSuper boot) s v = some (0, some c, s') ∧
            ClusterAdded (fatReadSuper boot) s vs chains v c s') ∨
          (fatAddCluster (fatReadSuper boot) s v = some (-ENOSPC, none, s) ∧
            ∀ c, 2 ≤ c → c < (fatReadSuper boot).totalDataSectors →
              fatEntry (fatReadSuper boot) s.disk c ≠ 0)) ∧
        ∃ s', fatRemoveClusters (fatReadSuper boot) s v 0 = some (0, s') ∧
          ClustersRemoved (fatReadSuper boot) s vs chains v s' := by
  have hinfo := fatReadSuper_wellformed hvolume
  have hinv : FatRunInv (fatReadSuper boot) vs s₀ chains₀ s :=
    h.invariant ⟨chains₀, hstart, fun _ _ _ hout => ⟨rfl, hout⟩⟩
      fun _ _ _ hs hop hstep => hs.step hinfo hroot hop hstep
  obtain ⟨chains, hchains, hkept⟩ := hinv
  refine ⟨chains, hchains, hkept, ?_⟩
  intro v hv
  have hroot' : (fatReadSuper boot).fatType ≠ .fat32 → v ≠ fatRootId :=
    fun htype heq => hroot htype (heq ▸ hv)
  exact ⟨fatAddCluster_spec hinfo hchains hv hroot', fatRemoveClusters_spec hinfo hchains hv hroot'⟩

/-- Two files grow in turn, and one is freed and its cluster used again. -/
theorem fat_cluster_chains_kept_two_files :
    ∃ s chains, s.startCluster 1 = 2 ∧ s.startCluster 2 = 0 ∧
      fatEntry (fatReadSuper floppy) s.disk 2 = 4 ∧
      fatEntry (fatReadSuper floppy) s.disk 4 = 3 ∧
      fatEntry (fatReadSuper floppy) s.disk 3 = 0xFF8 ∧
      FatChains (fatReadSuper floppy) s [1, 2] chains := by
  obtain ⟨s, hreach, h1, h2, h3, h4, h5⟩ := exists_reach (fatStep (fatReadSuper floppy))
    (fun _ op => op.vNode ∈ [1, 2]) ⟨fun _ _ => 0, fun _ => 0, 0, false⟩
    [.add 1, .add 2, .add 1, .remove 2, .add 1]
    (fun s => s.startCluster 1 = 2 ∧ s.startCluster 2 = 0 ∧
      fatEntry (fatReadSuper floppy) s.disk 2 = 4 ∧ fatEntry (fatReadSuper floppy) s.disk 4 = 3 ∧
      fatEntry (fatReadSuper floppy) s.disk 3 = 0xFF8) (by decide)
  have hvolume : floppy.IsVolume :=
    ⟨⟨by decide, by decide, by decide, by decide, by decide, by decide⟩, by decide⟩
  obtain ⟨chains, hchains, -⟩ := fat_cluster_chains_kept floppy hvolume [1, 2]
    (by decide) _ s (fun _ => [])
    ⟨fun _ _ => rfl, fun _ _ => trivial, fun _ _ => nodup_nil, nofun,
      fun _ _ _ _ _ => disjoint_nil_left _⟩
    hreach
  exact ⟨s, chains, h1, h2, h3, h4, h5, hchains⟩

end Whitix.Fat
