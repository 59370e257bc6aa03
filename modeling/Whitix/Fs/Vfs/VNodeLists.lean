import Whitix.Fs.Vfs.VNodeCache
import Whitix.Support.Rings

/-!
# Consistency of the vnode cache

In every run in which vnodes are read without errors the cache stays
consistent.  The invariant adds to consistency what allocation and release rely
on: a free vnode is as constructed, and the reference count of an allocated one
is the number of references that are held.

An error of `readVNode` breaks the cache: the vnode is freed while it is linked
into the list of its superblock.
-/

namespace Whitix.VNodeCache

open Support Function List Option

variable {s s' : System} {superBlock id fuel a : ℕ}

structure Inv (s : System) : Prop extends Listed s where
  free : ∀ a ∉ s.allocated, s.vNodes a = vNodeCtor ∧ s.held a = 0
  used : ∀ a ∈ s.allocated, (s.vNodes a).refs = s.held a ∧
    0 < s.held a ∧ (s.vNodes a).locked = false

variable {addrs : List ℕ} {v : VNode} {held : ℕ → ℕ}

theorem vNode_mem : .vNode a ∈ .vNodeList superBlock :: addrs.map Node.vNode ↔ a ∈ addrs := by simp

theorem Inv.consistent (h : Inv s) : Consistent s := by
  refine ⟨h.toListed, ?_, ?_⟩
  · intro a ha
    obtain ⟨hrefs, hpos, -⟩ := h.used a ha
    rw [hrefs]
    exact hpos
  · intro superBlock k a hk
    obtain ⟨addrs, hcircular, hmem⟩ := h.lists superBlock
    have hin := hcircular.iterate_mem k
    rw [hk] at hin
    exact ((hmem a).mp (vNode_mem.mp hin)).1

theorem inv_boot : Inv System.boot := by
  refine ⟨⟨fun superBlock => ⟨[], ?_, ?_⟩, ?_, ?_⟩, ?_, ?_⟩
  · exact ⟨⟨rfl, rfl⟩, nodup_singleton _⟩
  · simp [System.boot]
  · simp [System.boot]
  · simp [System.boot]
  · intro a _
    exact ⟨rfl, rfl⟩
  · simp [System.boot]

/-! ## The walk along a list -/

theorem vNodeFindLoop_path {x : Node}
    (h : Path s.links x (addrs.map .vNode) (.vNodeList superBlock)) :
    vNodeFindLoop s superBlock id fuel (s.links.next x) =
        some (addrs.find? fun a => (s.vNodes a).id = id) ∨
      fuel ≤ addrs.length ∧ vNodeFindLoop s superBlock id fuel (s.links.next x) = none := by
  induction fuel generalizing x addrs with
  | zero => exact .inr ⟨Nat.zero_le _, rfl⟩
  | succ fuel ih =>
    cases addrs with
    | nil =>
      have hnext : s.links.next x = .vNodeList superBlock := h.1
      rw [hnext]
      exact .inl (if_pos rfl)
    | cons b addrs =>
      obtain ⟨hnext, -, hpath⟩ := h
      rw [hnext, vNodeFindLoop]
      by_cases hid : (s.vNodes b).id = id
      · left
        simp [hid]
      · rw [if_neg hid, find?_cons_of_neg (by simpa using hid)]
        rcases ih hpath with hfound | ⟨hfuel, hnone⟩
        · exact .inl hfound
        · exact .inr ⟨Nat.succ_le_succ hfuel, hnone⟩

theorem mem_cached : a ∈ s.cached superBlock id ↔ a ∈ s.allocated ∧
    (s.vNodes a).superBlock = some superBlock ∧ (s.vNodes a).id = id :=
  Finset.mem_filter

section

variable (h : Inv s)
include h

theorem Inv.vNodeFindLoop_cached (superBlock id : ℕ) :
    ∃ (found : Option ℕ) (n : ℕ), (∀ a, found = some a ↔ a ∈ s.cached superBlock id) ∧
      ∀ fuel, vNodeFindLoop s superBlock id fuel
          (s.links.next (.vNodeList superBlock)) = some found ∨
        fuel ≤ n ∧ vNodeFindLoop s superBlock id fuel
          (s.links.next (.vNodeList superBlock)) = none := by
  obtain ⟨addrs, hcircular, hmem⟩ := h.lists superBlock
  refine ⟨addrs.find? fun a => (s.vNodes a).id = id, addrs.length, ?_,
    fun fuel => vNodeFindLoop_path hcircular.path⟩
  intro a
  rw [mem_cached]
  constructor
  · intro hfound
    obtain ⟨hallocated, hsuper⟩ := (hmem a).mp (mem_of_find?_eq_some hfound)
    exact ⟨hallocated, hsuper, by simpa using find?_some hfound⟩
  · rintro ⟨hallocated, hsuper, hid⟩
    have hin := (hmem a).mpr ⟨hallocated, hsuper⟩
    cases hfound : addrs.find? fun a => (s.vNodes a).id = id with
    | none =>
      have := find?_eq_none.mp hfound a hin
      simp [hid] at this
    | some b =>
      obtain ⟨hb, hbsuper⟩ := (hmem b).mp (mem_of_find?_eq_some hfound)
      have hbid : (s.vNodes b).id = id := by simpa using find?_some hfound
      rw [h.ids b hb a hallocated (hbsuper.trans hsuper.symm) (hbid.trans hid.symm)]

theorem Inv.vNodeFind_cached (ha : a ∈ s.cached superBlock id)
    (hrefs : (s.vNodes a).refs + 1 < 2 ^ 32) :
    ∃ n, ∀ fuel, vNodeFind s superBlock id fuel =
        some (some a, s.setRefs a ((s.vNodes a).refs + 1)) ∨
      fuel ≤ n ∧ vNodeFind s superBlock id fuel = none := by
  obtain ⟨found, n, hfound, hloop⟩ := h.vNodeFindLoop_cached superBlock id
  have hunlocked := (h.used a (mem_cached.mp ha).1).2.2
  refine ⟨n, fun fuel => ?_⟩
  unfold vNodeFind
  rcases hloop fuel with hsome | ⟨hfuel, hnone⟩
  · left
    have hwait : vNodeWaitOn (s.setRefs a ((s.vNodes a).refs + 1)) a =
        some (s.setRefs a ((s.vNodes a).refs + 1)) := by
      simp [vNodeWaitOn, System.setRefs, System.setVNode, hunlocked]
    simp only [hsome, (hfound a).mpr ha, dword_of_lt hrefs, hwait, map_some]
  · right
    rw [hnone]
    exact ⟨hfuel, rfl⟩

theorem Inv.vNodeFind_uncached (hcached : s.cached superBlock id = ∅) (fuel : ℕ) :
    vNodeFind s superBlock id fuel = some (none, s) ∨ vNodeFind s superBlock id fuel = none := by
  obtain ⟨found, n, hfound, hloop⟩ := h.vNodeFindLoop_cached superBlock id
  have hnone : found = none := by
    cases found with
    | none => rfl
    | some a =>
      have := (hfound a).mp rfl
      rw [hcached] at this
      cases this
  unfold vNodeFind
  rcases hloop fuel with hsome | ⟨-, hloop⟩
  · left
    rw [hsome, hnone]
  · right
    rw [hloop]

theorem Inv.vNodeGetBy_cached (ha : a ∈ s.cached superBlock id)
    (hrefs : (s.vNodes a).refs + 1 < 2 ^ 32) :
    ∃ n, ∀ read fuel addr, vNodeGetBy read s (some superBlock) id fuel addr =
        some (some a, s.setRefs a ((s.vNodes a).refs + 1)) ∨
      fuel ≤ n ∧ vNodeGetBy read s (some superBlock) id fuel addr = none := by
  obtain ⟨n, hfind⟩ := h.vNodeFind_cached ha hrefs
  refine ⟨n, fun read fuel addr => ?_⟩
  rcases hfind fuel with hsome | ⟨hfuel, hnone⟩
  · left
    simp only [vNodeGetBy, hsome]
  · right
    refine ⟨hfuel, ?_⟩
    simp only [vNodeGetBy, hnone]

theorem Inv.getsCached : GetsCached s := by
  intro superBlock id a ha hrefs
  obtain ⟨n, hget⟩ := h.vNodeGetBy_cached ha hrefs
  refine ⟨n + 1, fun fuel hfuel addr r => ⟨?_, ?_⟩⟩
  · exact (hget _ fuel addr).resolve_right fun hno => by omega
  · exact (hget _ fuel addr).resolve_right fun hno => by omega

/-! ## Changes of the cache -/

theorem Inv.change (ha : a ∈ s.allocated) (hid : v.id = (s.vNodes a).id)
    (hsuper : v.superBlock = (s.vNodes a).superBlock) (hlocked : v.locked = false)
    (hrefs : v.refs = held a) (hpos : 0 < held a) (hheld : ∀ b, b ≠ a → held b = s.held b) :
    Inv { s with vNodes := update s.vNodes a v, held := held } := by
  have hsame : ∀ b, (update s.vNodes a v b).id = (s.vNodes b).id ∧
      (update s.vNodes a v b).superBlock = (s.vNodes b).superBlock := by
    intro b
    rw [update_apply]
    split_ifs with hba
    · exact hba ▸ ⟨hid, hsuper⟩
    · exact ⟨rfl, rfl⟩
  refine ⟨⟨?_, ?_, ?_⟩, ?_, ?_⟩
  · intro superBlock
    obtain ⟨addrs, hcircular, hmem⟩ := h.lists superBlock
    refine ⟨addrs, hcircular, fun b => ?_⟩
    rw [hmem b, (hsame b).2]
  · intro b hb
    rw [(hsame b).2]
    exact h.listed b hb
  · intro b hb c hc hbc hidbc
    rw [(hsame b).2, (hsame c).2] at hbc
    rw [(hsame b).1, (hsame c).1] at hidbc
    exact h.ids b hb c hc hbc hidbc
  · intro b hb
    have hba : b ≠ a := by
      rintro rfl
      exact hb ha
    dsimp only
    rw [update_of_ne hba, hheld b hba]
    exact h.free b hb
  · intro b hb
    dsimp only
    rw [update_apply]
    split_ifs with hba
    · exact hba ▸ ⟨hrefs, hpos, hlocked⟩
    · rw [hheld b hba]
      exact h.used b hb

end

section

variable (h : Inv s)
include h

theorem Inv.rings : ∃ addrs : ℕ → List ℕ,
    Rings s.links Node.vNodeList (fun superBlock => (addrs superBlock).map .vNode) ∧
      ∀ superBlock a, a ∈ addrs superBlock ↔
        a ∈ s.allocated ∧ (s.vNodes a).superBlock = some superBlock := by
  choose addrs hcircular hmem using h.lists
  refine ⟨addrs, ⟨hcircular, fun i j hij x hi hj => hij ?_⟩, hmem⟩
  cases x with
  | vNodeList x =>
    obtain rfl : x = i := by simpa using hi
    simpa using hj
  | vNode a =>
    have hsuper := ((hmem i a).mp (vNode_mem.mp hi)).2
    exact some.inj (hsuper.symm.trans ((hmem j a).mp (vNode_mem.mp hj)).2)

theorem Inv.alloc (ha : a ∉ s.allocated) (hcached : s.cached superBlock id = ∅) (hid : v.id = id)
    (hsuper : v.superBlock = some superBlock) (hlocked : v.locked = false) (hrefs : v.refs = held a)
    (hpos : 0 < held a) (hheld : ∀ b, b ≠ a → held b = s.held b) :
    Inv { links := s.links.addTail (.vNode a) (.vNodeList superBlock)
          vNodes := update s.vNodes a v
          allocated := insert a s.allocated
          held := held } := by
  have hne : ∀ b ∈ s.allocated, b ≠ a := by
    rintro b hb rfl
    exact ha hb
  have hother : ∀ b ∈ s.allocated,
      (s.vNodes b).superBlock = some superBlock → (s.vNodes b).id ≠ id := by
    intro b hb hbsuper hbid
    have := mem_cached.mpr ⟨hb, hbsuper, hbid⟩
    rw [hcached] at this
    cases this
  refine ⟨⟨?_, ?_, ?_⟩, ?_, ?_⟩
  · intro other
    obtain ⟨addrs, hrings, hmem⟩ := h.rings
    have hnew : ∀ x, a ∉ addrs x := fun x hin => ha ((hmem x a).mp hin).1
    have hcircular := (hrings.addTail (fun x => mt vNode_mem.mp (hnew x)) superBlock).circular other
    by_cases hsame : other = superBlock
    · subst hsame
      rw [update_self, ← map_singleton, ← map_append] at hcircular
      refine ⟨_, hcircular, fun b => ?_⟩
      by_cases hba : b = a
      · subst hba
        simp [hsuper]
      · simp [hba, hmem]
    · rw [update_of_ne hsame] at hcircular
      refine ⟨_, hcircular, fun b => ?_⟩
      by_cases hba : b = a
      · subst hba
        simp [hsuper, hnew, Ne.symm hsame]
      · simp [hba, hmem]
  · intro b hb
    dsimp only at hb ⊢
    rcases Finset.mem_insert.mp hb with rfl | hb
    · rw [update_self]
      exact ⟨superBlock, hsuper⟩
    · rw [update_of_ne (hne b hb)]
      exact h.listed b hb
  · intro b hb c hc hbc hidbc
    dsimp only at hb hc hbc hidbc
    rcases Finset.mem_insert.mp hb with rfl | hb'
    · rcases Finset.mem_insert.mp hc with rfl | hc'
      · rfl
      · rw [update_self, update_of_ne (hne c hc')] at hbc hidbc
        exact absurd (hidbc.symm.trans hid) (hother c hc' (hbc.symm.trans hsuper))
    · rw [update_of_ne (hne b hb')] at hbc hidbc
      rcases Finset.mem_insert.mp hc with rfl | hc'
      · rw [update_self] at hbc hidbc
        exact absurd (hidbc.trans hid) (hother b hb' (hbc.trans hsuper))
      · rw [update_of_ne (hne c hc')] at hbc hidbc
        exact h.ids b hb' c hc' hbc hidbc
  · intro b hb
    dsimp only at hb ⊢
    obtain ⟨hba, hb⟩ := not_or.mp (mt Finset.mem_insert.mpr hb)
    rw [update_of_ne hba, hheld b hba]
    exact h.free b hb
  · intro b hb
    dsimp only at hb ⊢
    rcases Finset.mem_insert.mp hb with rfl | hb
    · rw [update_self]
      exact ⟨hrefs, hpos, hlocked⟩
    · rw [update_of_ne (hne b hb), hheld b (hne b hb)]
      exact h.used b hb

theorem Inv.unlink (ha : a ∈ s.allocated)
    (hzero : held a = 0) (hheld : ∀ b, b ≠ a → held b = s.held b) :
    Inv { links := (s.links.remove (.vNode a)).init (.vNode a)
          vNodes := update s.vNodes a vNodeCtor
          allocated := s.allocated.erase a
          held := held } := by
  have hkeep : ∀ b ∈ s.allocated.erase a, b ≠ a ∧ b ∈ s.allocated :=
    fun b => Finset.mem_erase.mp
  obtain ⟨superBlock, hsuper⟩ := h.listed a ha
  refine ⟨⟨?_, ?_, ?_⟩, ?_, ?_⟩
  · intro other
    obtain ⟨addrs, hrings, hmem⟩ := h.rings
    have hin : .vNode a ∈ (addrs superBlock).map Node.vNode :=
      mem_map_of_mem ((hmem superBlock a).mpr ⟨ha, hsuper⟩)
    have hcircular := (hrings.removeInit hin).circular other
    have hnodup : (addrs other).Nodup :=
      List.Nodup.of_map Node.vNode (nodup_cons.mp (hrings.circular other).nodup).2
    rw [← map_erase fun _ _ => Node.vNode.inj] at hcircular
    refine ⟨_, hcircular, fun b => ?_⟩
    rw [hnodup.mem_erase_iff, hmem]
    by_cases hba : b = a
    · simp [hba]
    · simp [hba]
  · intro b hb
    dsimp only at hb ⊢
    obtain ⟨hba, hb⟩ := hkeep b hb
    rw [update_of_ne hba]
    exact h.listed b hb
  · intro b hb c hc hbc hidbc
    dsimp only at hb hc hbc hidbc
    obtain ⟨hba, hb⟩ := hkeep b hb
    obtain ⟨hca, hc⟩ := hkeep c hc
    rw [update_of_ne hba, update_of_ne hca] at hbc hidbc
    exact h.ids b hb c hc hbc hidbc
  · intro b hb
    dsimp only at hb ⊢
    rw [update_apply]
    split_ifs with hba
    · exact ⟨rfl, hba ▸ hzero⟩
    · rw [hheld b hba]
      exact h.free b fun hb' => hb (Finset.mem_erase.mpr ⟨hba, hb'⟩)
  · intro b hb
    dsimp only at hb ⊢
    obtain ⟨hba, hb⟩ := hkeep b hb
    rw [update_of_ne hba, hheld b hba]
    exact h.used b hb

/-! ## Operations -/

theorem Inv.hold_setRefs (ha : a ∈ s.allocated) :
    Inv (hold (some a) (s.setRefs a ((s.vNodes a).refs + 1))) := by
  obtain ⟨hrefs, -, hlocked⟩ := h.used a ha
  apply h.change ha
  · rfl
  · rfl
  · exact hlocked
  · change (s.vNodes a).refs + 1 = acquire s.held a a
    rw [acquire_self, hrefs]
  · rw [acquire_self]
    exact Nat.succ_pos _
  · intro b hb
    exact acquire_of_ne s.held hb

theorem Inv.vNodeGetBy {superBlock addr vNode : Option ℕ}
    {r : ReadResult} (hguard : Reads s superBlock id addr r)
    (hs : vNodeGetBy (fun s vNode => vNodeRead s vNode r) s superBlock id fuel
      addr = some (vNode, s')) : Inv (hold vNode s') := by
  cases superBlock with
  | none =>
    cases hs
    exact h
  | some superBlock =>
    obtain ⟨hcount, hread⟩ := hguard superBlock rfl
    rcases (s.cached superBlock id).eq_empty_or_nonempty with
      hcached | ⟨a, ha⟩
    · rcases h.vNodeFind_uncached hcached fuel with hfind | hfind
      · simp only [VNodeCache.vNodeGetBy, hfind] at hs
        cases addr with
        | none =>
          cases hs
          exact h
        | some a =>
          have hret := hread hcached (by simp)
          simp only [vNodeAlloc] at hs
          split at hs
          · cases hs
          · next hfree =>
            have ha := (not_or.mp hfree).1
            obtain ⟨hctor, hzero⟩ := h.free a ha
            simp only [map_some, vNodeRead, hret, ne_eq, not_true_eq_false, if_false] at hs
            cases hs
            have hone : acquire s.held a a = 1 := by rw [acquire_self, hzero]
            simp only [hold, System.setVNode, update_self, update_idem]
            apply h.alloc ha hcached rfl rfl rfl
            · rw [hctor, hone]
              rfl
            · rw [hone]
              exact one_pos
            · intro b hb
              exact acquire_of_ne s.held hb
      · simp only [VNodeCache.vNodeGetBy, hfind] at hs
        cases hs
    · obtain ⟨n, hget⟩ := h.vNodeGetBy_cached ha (hcount a ha)
      rcases hget (fun s vNode => vNodeRead s vNode r) fuel addr with
        hsome | ⟨-, hnone⟩
      · rw [hsome] at hs
        cases hs
        exact h.hold_setRefs (mem_cached.mp ha).1
      · rw [hnone] at hs
        cases hs

theorem Inv.allocated_of_held (hheld : s.held a ≠ 0) : a ∈ s.allocated := by
  by_contra ha
  exact hheld (h.free a ha).2

section

variable (ha : a ∈ s.allocated)
include ha

theorem Inv.setDirty (dirty : Bool) : Inv (s.setVNode a { s.vNodes a with dirty := dirty }) := by
  obtain ⟨hrefs, hpos, hlocked⟩ := h.used a ha
  exact h.change ha rfl rfl hlocked hrefs hpos fun _ _ => rfl

/-- The loop of `VNodeRelease` drops the reference of the caller.  A dirty
vnode is written first, which costs one more pass. -/
theorem Inv.vNodeReleaseLoop (hfuel : (if (s.vNodes a).dirty then 1 else 0) < fuel) :
    ∃ s', vNodeReleaseLoop s a fuel = some s' ∧ Inv { s' with held := release s'.held a } := by
  obtain ⟨hrefs, hpos, hlocked⟩ := h.used a ha
  induction fuel generalizing s with
  | zero => exact absurd hfuel (Nat.not_lt_zero _)
  | succ fuel ih =>
    rw [VNodeCache.vNodeReleaseLoop]
    split
    · next hmore =>
      refine ⟨_, rfl, h.change ha rfl rfl hlocked ?_ ?_ ?_⟩
      · change (s.vNodes a).refs - 1 = release s.held a a
        rw [release_self, hrefs]
      · change 0 < release s.held a a
        rw [release_self]
        omega
      · intro b hb
        exact release_of_ne s.held hb
    · next hone =>
      have hheld : s.held a = 1 := by omega
      split
      · next hdirty =>
        have hclean := h.setDirty ha false
        have hwrite : vNodeWrite s a = some (s.setVNode a { s.vNodes a with dirty := false }) := by
          simp [vNodeWrite, hdirty, hlocked]
        have hwait : vNodeWaitOn (s.setVNode a { s.vNodes a with dirty := false }) a =
              some (s.setVNode a { s.vNodes a with dirty := false }) := by
          simp [vNodeWaitOn, System.setVNode, hlocked]
        rw [hwrite, bind_some, hwait, bind_some]
        apply ih hclean ha
        · rw [if_pos hdirty] at hfuel
          simpa [System.setVNode] using hfuel
        · exact (hclean.used a ha).1
        · exact hpos
        · exact (hclean.used a ha).2.2
      · split
        · omega
        · refine ⟨_, rfl, h.unlink ha ?_ ?_⟩
          · change release s.held a a = 0
            rw [release_self, hheld]
          · intro b hb
            exact release_of_ne s.held hb

theorem Inv.vNodeRelease :
    ∃ s', vNodeRelease s a = some s' ∧ Inv { s' with held := release s'.held a } := by
  obtain ⟨hrefs, hpos, hlocked⟩ := h.used a ha
  have hwait : vNodeWaitOn s a = some s := by simp [vNodeWaitOn, hlocked]
  have hne : (s.vNodes a).refs ≠ 0 := by omega
  unfold VNodeCache.vNodeRelease
  rw [hwait, bind_some, if_neg hne]
  apply h.vNodeReleaseLoop ha
  split
  · exact one_lt_two
  · exact two_pos

end

theorem Inv.step {op : Op} (hguard : ReadSucceeds s op) (hs : step s op = some s') : Inv s' := by
  cases op with
  | get superBlock id fuel addr r | getWithData superBlock id fuel addr r =>
    obtain ⟨⟨vNode, s'⟩, hget, rfl⟩ := map_eq_some_iff.mp hs
    exact h.vNodeGetBy hguard hget
  | release a =>
    simp only [VNodeCache.step] at hs
    split at hs
    · cases hs
    · next hheld =>
      obtain ⟨s₁, hrelease, hinv⟩ :=
        h.vNodeRelease (h.allocated_of_held hheld)
      rw [hrelease] at hs
      cases hs
      exact hinv
  | setDirty a =>
    simp only [VNodeCache.step] at hs
    split at hs
    · cases hs
    · next hheld =>
      cases hs
      exact h.setDirty (h.allocated_of_held hheld) true

end

/-! ## Runs -/

/-- As long as vnodes are read without errors, the cache is consistent and finds
what is cached. -/
theorem vNodeCache_consistent (hreach : Reach step ReadSucceeds System.boot s) :
    Consistent s ∧ GetsCached s := by
  have hinv : Inv s := hreach.invariant inv_boot fun _ _ _ h => h.step
  exact ⟨hinv.consistent, hinv.getsCached⟩

/-- Two superblocks, three vnodes and the release of one of them. -/
theorem vNodeCache_consistent_two_superblocks :
    ∃ s, Reach step ReadSucceeds System.boot s ∧ s.allocated = {8, 12} ∧
      (s.vNodes 8).refs = 2 ∧ Consistent s ∧ GetsCached s := by
  obtain ⟨s, hreach, hallocated, hrefs⟩ := exists_reach step ReadSucceeds System.boot
    [.get (some 0) 1 5 (some 8) ⟨0, false⟩, .getWithData (some 0) 2 5 (some 4) ⟨0, true⟩,
      .get (some 1) 1 5 (some 12) ⟨0, false⟩, .get (some 0) 1 5 none ⟨-1, false⟩, .release 4]
    (fun s => s.allocated = {8, 12} ∧ (s.vNodes 8).refs = 2) (by decide)
  exact ⟨s, hreach, hallocated, hrefs, vNodeCache_consistent hreach⟩

/-- After a failed read a vnode that has been freed is in the list. -/
theorem vNodeGet_error_leaves_freed_vNode :
    ∃ s, Reach step (fun _ _ => True) System.boot s ∧
      s.links.next (.vNodeList 0) = .vNode 8 ∧ 8 ∉ s.allocated ∧
      ¬ Consistent s := by
  obtain ⟨s, hs, hnext, hfreed⟩ := exists_reach step (fun _ _ => True) System.boot
    [.get (some 0) 1 5 (some 8) ⟨-1, false⟩]
    (fun s => s.links.next (.vNodeList 0) = .vNode 8 ∧ 8 ∉ s.allocated) (by decide)
  refine ⟨s, hs, hnext, hfreed, fun hconsistent => ?_⟩
  exact hfreed (hconsistent.reachable 0 1 8 hnext)

end Whitix.VNodeCache
