import Whitix.Fs.Fat.Cluster

/-!
# Truncation

`FatTruncate` keeps the clusters that the new size needs and has
`FatRemoveClusters` free the others.  The last cluster that is kept does not get
an end of chain marker: it still leads to the first cluster that was freed.
-/

namespace Whitix.Fat

open Support List Nat Option

def fatTruncate (info : FatSbInfo) (s : FatState) (vNode size : ℕ) : Option (ℤ × FatState) :=
  (fatRemoveClusters info s vNode
    (dword (size + dwordSub info.clusterLength 1) / info.clusterLength)).map fun r => (0, r.2)

/-- The chain is cut behind `number` clusters: these remain, the entries of the
others are zero, and no other entry changes, except that of the last cluster that
remains, if the chain gets shorter. -/
def CutsChain (info : FatSbInfo) (limit : ℕ) (s : FatState) (v : ℕ)
    (cs : List ℕ) (number : ℕ) : Prop :=
  ∃ ret s', fatRemoveClusters info s v number = some (ret, s') ∧
    ChainOf info limit s' v (cs.take number) ∧
    (∀ c ∈ cs.drop number, fatEntry info s'.disk c = 0) ∧
    (∀ e < limit, e ∉ cs.drop number → (cs.take number).getLast? ≠ some e →
      fatEntry info s'.disk e = fatEntry info s.disk e) ∧
    (number = cs.length → s' = s)

section

variable {info : FatSbInfo} {limit : ℕ} (h : info.TableFor limit) {disk : Disk}
  {s : FatState} {v number : ℕ} {cs : List ℕ}

include h

theorem fatFree_panics {fuel c : ℕ} (hchain : FatChain info disk (c :: cs))
    (hnodup : (c :: cs).Nodup) (hlimit : ∀ x ∈ c :: cs, x < limit)
    (hpanic : ∃ x ∈ c :: cs, info.totalDataSectors < x) : fatFree info fuel disk c = none := by
  induction fuel generalizing c cs disk with
  | zero => rfl
  | succ fuel ih =>
    obtain ⟨hclimit, hlimit'⟩ := forall_mem_cons.mp hlimit
    rw [fatFree]
    by_cases hle : c ≤ info.totalDataSectors
    · obtain ⟨x, hx, hlt⟩ := hpanic
      have hx' := (mem_cons.mp hx).resolve_left fun heq => (heq ▸ hle).not_gt hlt
      cases cs with
      | nil => cases hx'
      | cons d cs =>
        obtain ⟨hnext, hd, hrest⟩ := hchain
        obtain ⟨hc, hnodup'⟩ := nodup_cons.mp hnodup
        rw [fatAccess_write h hclimit hle, bind_some, hnext, if_neg hd]
        refine ih (hrest.congr fun y hy => ?_) hnodup' hlimit' ⟨x, hx', hlt⟩
        rw [fatEntry_write h hclimit (zero_le _) (hlimit' y hy), if_neg]
        rintro rfl
        exact hc hy
    · have haccess : fatAccess info disk c (some 0) = none :=
        if_pos (not_le.mp hle)
      rw [haccess]
      rfl

/-! ## `FatRemoveClusters` -/

theorem fatRemoveClusters_panics (hc : ChainOf info limit s v cs)
    (hpanic : ∃ c ∈ cs, info.totalDataSectors < c)
    (hroot : info.fatType ≠ .fat32 → v = fatRootId → cs = []) (hnumber : number ≤ cs.length) :
    fatRemoveClusters info s v number = none := by
  cases cs with
  | nil =>
    obtain ⟨c, hmem, -⟩ := hpanic
    cases hmem
  | cons c cs =>
    have hnotroot : ¬(info.fatType ≠ .fat32 ∧ v = fatRootId) := fun hr =>
      cons_ne_nil c cs (hroot hr.1 hr.2)
    have hlimit : ∀ x ∈ c :: cs, x < limit := fun x hx => (hc.range x hx).2
    have hstart : s.startCluster v = c := hc.start
    rw [fatRemoveClusters, if_neg hnotroot, if_neg (mt hc.start_eq_zero.mp (cons_ne_nil c cs)),
      hstart, fatSkip_eq h hc.linked hlimit]
    by_cases hkept : ∀ x ∈ (c :: cs).take number, x ≤ info.totalDataSectors
    · -- The cluster is one of those that are to be freed.
      obtain ⟨x, hx, hlt⟩ := hpanic
      rw [← take_append_drop number (c :: cs)] at hx
      have hx' : x ∈ (c :: cs).drop number := by
        rcases mem_append.mp hx with hx | hx
        · exact absurd (hkept x hx) hlt.not_ge
        · exact hx
      obtain ⟨c', rest, hdrop⟩ := exists_cons_of_ne_nil (ne_nil_of_mem hx')
      have hget : (c :: cs)[number]? = some c' := by
        rw [← head?_drop, hdrop]
        rfl
      have hchain := hc.linked.drop number
      have hnodup := hc.nodup.sublist (drop_sublist number (c :: cs))
      rw [hdrop] at hchain hnodup hx'
      have hmem : ∀ y ∈ c' :: rest, y ∈ c :: cs := fun y hy =>
        mem_of_mem_drop (hdrop ▸ hy)
      rw [if_pos hkept, hget, bind_some]
      dsimp only
      rw [fatFree_panics h hchain hnodup (fun y hy => hlimit y (hmem y hy)) ⟨x, hx', hlt⟩]
      rfl
    · rw [if_neg hkept]
      rfl

/-- The chain is cut exactly if all or none of its clusters are kept. -/
theorem cutsChain_iff (hc : ChainOf info limit s v cs)
    (hroot : info.fatType ≠ .fat32 → v = fatRootId → cs = []) (hnumber : number ≤ cs.length) :
    CutsChain info limit s v cs number ↔ (number = 0 ∨ number = cs.length) ∧
      ∀ c ∈ cs, c ≤ info.totalDataSectors := by
  by_cases htotal : ∀ c ∈ cs, c ≤ info.totalDataSectors
  · rw [and_iff_left htotal]
    obtain ⟨ret, s', hremove, -, hsame, hstart, hentries⟩ :=
      fatRemoveClusters_cases h hc htotal hroot hnumber
    constructor
    · rintro ⟨ret', s'', hremove', hchain, -⟩
      obtain ⟨-, rfl⟩ := Prod.mk.inj (some.inj (hremove.symm.trans hremove'))
      by_contra hboth
      rw [not_or] at hboth
      obtain ⟨m, rfl⟩ := exists_eq_succ_of_ne_zero hboth.1
      have hlt := lt_of_le_of_ne hnumber hboth.2
      obtain ⟨c', rest, hdrop⟩ : ∃ c' rest, cs.drop (m + 1) = c' :: rest :=
        exists_cons_of_ne_nil (by simpa using hlt)
      have hm : cs.drop m = cs[m] :: c' :: rest := by
        rw [drop_eq_getElem_cons (lt_of_succ_lt hlt), hdrop]
      have hkept : (cs.take (m + 1)).drop m = [cs[m]] := by
        rw [drop_take, hm, Nat.add_sub_cancel_left]
        rfl
      -- The entry of the last cluster that is kept leads on to `c'`.
      have hlinked := hc.linked.drop m
      have hend := hchain.linked.drop m
      have hnodup := hc.nodup.sublist (drop_sublist m cs)
      rw [hm] at hlinked hnodup
      rw [hkept] at hend
      obtain ⟨hnext, hnode, -⟩ := hlinked
      have hnot : cs[m] ∉ cs.drop (m + 1) := by
        rw [hdrop]
        exact (nodup_cons.mp hnodup).1
      have hentry := hentries cs[m] (hc.range _ (getElem_mem _)).2
      rw [if_neg hnot, hnext] at hentry
      have hend' : info.invalidCluster ≤ fatEntry info s'.disk cs[m] := hend
      rw [hentry] at hend'
      exact hnode hend'
    · intro hnumbers
      refine ⟨ret, s', hremove, ?_, ?_, ?_, hsame⟩
      · rcases hnumbers with rfl | rfl
        · refine ⟨?_, trivial, nodup_nil, nofun⟩
          rw [hstart, if_pos rfl, Function.update_self]
          rfl
        · rw [take_length, hsame rfl]
          exact hc
      · intro c hmem
        rw [hentries c (hc.range c (mem_of_mem_drop hmem)).2, if_pos hmem]
      · intro e he hnot _
        rw [hentries e he, if_neg hnot]
  · refine iff_of_false ?_ fun hboth => htotal hboth.2
    rintro ⟨ret, s', hremove, -⟩
    push Not at htotal
    rw [fatRemoveClusters_panics h hc htotal hroot hnumber] at hremove
    cases hremove

end

/-- `FatRemoveClusters` cuts the chain of a vnode exactly if it keeps all or none
of its clusters, and `FatAccess` accepts all of them. -/
theorem fatRemoveClusters_cuts_iff (boot : FatBootSector)
    (hvolume : boot.IsFatVolume) (s : FatState) (v : ℕ) (cs : List ℕ)
    (hchain : ChainOf (fatReadSuper boot) (boot.clusterCount + 2) s v cs)
    (hroot : (fatReadSuper boot).fatType ≠ .fat32 → v = fatRootId → cs = [])
    (number : ℕ) (hnumber : number ≤ cs.length) :
    CutsChain (fatReadSuper boot) (boot.clusterCount + 2) s v cs number ↔
      (number = 0 ∨ number = cs.length) ∧ ∀ c ∈ cs, c ≤ (fatReadSuper boot).totalDataSectors :=
  cutsChain_iff hvolume.table hchain hroot hnumber

def twoClusters : FatState where
  disk := fatWrite (fatReadSuper floppy) (fatWrite (fatReadSuper floppy) (fun _ _ => 0) 2 3) 3 0xFF8
  startCluster v := if v = 1 then 2 else 0
  freeClusters := 0
  superDirty := false

theorem twoClusters_chainOf :
    ChainOf (fatReadSuper floppy) (floppy.clusterCount + 2) twoClusters 1 [2, 3] := by
  have hfirst : fatEntry (fatReadSuper floppy) twoClusters.disk 2 = 3 := by decide
  have hlast : (fatReadSuper floppy).invalidCluster ≤
      fatEntry (fatReadSuper floppy) twoClusters.disk 3 := by decide
  exact ⟨rfl, ⟨hfirst, by decide, hlast⟩, by decide, by decide⟩

/-- All clusters of the file are freed. -/
theorem fatRemoveClusters_cuts_iff_none :
    CutsChain (fatReadSuper floppy) (floppy.clusterCount + 2) twoClusters 1 [2, 3] 0 :=
  (fatRemoveClusters_cuts_iff floppy floppy_isFatVolume twoClusters 1 [2, 3]
    twoClusters_chainOf (fun _ => by decide) 0 (by decide)).mpr
    ⟨.inl rfl, by decide⟩

/-- When the file is cut to one cluster, this one still leads to the second one,
which is free. -/
theorem fatTruncate_leaves_link :
    ChainOf (fatReadSuper floppy) (floppy.clusterCount + 2) twoClusters 1 [2, 3] ∧
      (∃ s', fatTruncate (fatReadSuper floppy) twoClusters 1 512 = some (0, s') ∧
        fatEntry (fatReadSuper floppy) s'.disk 2 = 3 ∧
        fatEntry (fatReadSuper floppy) s'.disk 3 = 0) ∧
      ¬ CutsChain (fatReadSuper floppy) (floppy.clusterCount + 2) twoClusters 1 [2, 3] 1 := by
  refine ⟨twoClusters_chainOf, ⟨_, rfl, by decide, by decide⟩, fun hcuts => ?_⟩
  have hiff := (cutsChain_iff floppy_isFatVolume.table twoClusters_chainOf
    (fun _ => by decide) (by decide)).mp hcuts
  exact absurd hiff.1 (by decide)

end Whitix.Fat
