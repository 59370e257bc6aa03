import Whitix.Arch.I386.Virt.Range

/-!
# Creating and destroying address spaces

A new page directory is filled in through a temporary mapping before it joins
`managerList`; until then its frame is reserved.  When an address space is
destroyed, its private page tables are handed back, and nothing else that is
still in use.
-/

namespace Whitix.Virt

open Support Function List Option Prod

variable {k : ℕ} {stale reserved : List ℕ} {s s' : VirtState}

/-! ## Switching -/

variable {manager va fuel m : ℕ} {err : ℤ}

section

variable (h : Layout k [] reserved s) (hmanager : manager ∈ s.managerList)
include h hmanager

theorem Layout.setCurrent : Layout k [] reserved { s with cr3 := manager } :=
  { h with
    current := hmanager
    agree := fun d hd i hlow hhigh hstale => by
      rw [h.agree d hd i hlow hhigh hstale, h.agree manager hmanager i hlow hhigh hstale] }

theorem Layout.tempFree_setCurrent (htemp : TempFree s) : TempFree { s with cr3 := manager } := by
  obtain ⟨page, hpage, hfree⟩ := htemp
  have hentry := hpage.entry
  have hagree := h.agree manager hmanager (page / 1024)
    (by rw [kernelStart]; omega) (by rw [kernelEnd]; omega) (by simp)
  refine ⟨page, hpage, ?_⟩
  rw [VirtState.FreePage, pageEntry] at hfree ⊢
  rw [hagree]
  exact hfree

end

/-! ## A new page directory -/

variable {page frame : ℕ}

theorem Layout.reserve (h : Layout k stale [] s)
    (halloc : Virt.pageAlloc s = some (page, s')) : Layout k stale [page] s' := by
  obtain ⟨pages, hpages, rfl⟩ := pageAlloc_eq_some halloc
  have hperm : (s.managerList ++ pages ++ [page]).Perm (s.frames []) := by
    rw [VirtState.frames, hpages, append_nil, append_assoc]
    exact List.Perm.append_left _ (perm_append_singleton page pages)
  exact { h with
    distinct := hperm.nodup_iff.mpr h.distinct
    table := fun d hd i hi hne hmem =>
      h.table d hd i hi hne (hperm.subset hmem) }

theorem Layout.unreserve (h : Layout k stale reserved s) : Layout k stale [] s := by
  have hsub : (s.frames []).Sublist (s.frames reserved) := by
    rw [VirtState.frames, append_nil]
    exact sublist_append_left _ _
  exact { h with
    distinct := h.distinct.sublist hsub
    table := fun d hd i hi hne hmem =>
      h.table d hd i hi hne (hsub.subset hmem) }

def VirtState.withRow (s : VirtState) (frame : ℕ) (row : ℕ → ℕ) : VirtState :=
  { s with mem := update s.mem frame row }

section

variable (h : Layout k stale reserved s) (hframe : frame ∈ reserved)
include h hframe

theorem Layout.reserved_notMem : frame ∉ s.managerList := by
  intro hmanager
  exact (nodup_append.mp h.distinct).2.2 frame (mem_append_left _ hmanager) frame hframe rfl

theorem Layout.withRow (row : ℕ → ℕ) : Layout k stale reserved (s.withRow frame row) := by
  apply h.congr_dirs
  · intro d hd
    apply update_of_ne
    rintro rfl
    exact h.reserved_notMem hframe hd
  · have hne : k + 1 ≠ frame := fun heq =>
      h.first_notMem_frames (heq ▸ Layout.reserved_mem_frames hframe)
    exact congrFun (update_of_ne hne _ _) k

theorem Layout.shows_withRow {shown : ℕ} (hpage : page / 1024 < 1023) (hshows : Shows s page shown)
    (row : ℕ → ℕ) : Shows (s.withRow frame row) page shown := by
  have hdir : update s.mem frame row s.cr3 = s.mem s.cr3 := by
    apply update_of_ne
    rintro rfl
    exact h.reserved_notMem hframe h.current
  have hne : s.mem s.cr3 (page / 1024) ≠ 0 := by
    have hodd := hshows.1
    omega
  have htable := h.table_ne h.current hpage hne (Layout.reserved_mem_frames hframe)
  rw [Shows, pageEntry, VirtState.withRow]
  dsimp only
  rw [hdir, update_of_ne htable.symm]
  exact hshows

variable (hpage : page / 1024 < 1023) (hshows : Shows s page frame)
include hpage hshows

theorem Layout.store_withRow (row : ℕ → ℕ) {i : ℕ} (hi : i < 1024) (x : ℕ) :
    (s.withRow frame row).store (page * 4096 + 4 * i) x =
      some (s.withRow frame (update row i x)) := by
  rw [(h.shows_withRow hframe hpage hshows row).store hi, VirtState.withRow, VirtState.withRow]
  simp only [setWord, update_self, update_idem]

theorem Layout.copyEntries (hk : k < 1024) {n i : ℕ} {row : ℕ → ℕ} (hi : i + n ≤ 1024) :
    Virt.copyEntries (page * 4096) (k * 4096) n i (s.withRow frame row) =
      some (s.withRow frame fun j =>
        if i ≤ j ∧ j < i + n then s.mem k j else row j) := by
  have hkernel : KernelPage k k := ⟨Nat.mod_eq_of_lt hk, .inl (by omega)⟩
  have hne : k ≠ frame := by
    rintro rfl
    exact h.reserved_notMem hframe h.kernel
  induction n generalizing i row with
  | zero =>
    rw [Virt.copyEntries]
    congr 2
    funext j
    rw [if_neg (by omega)]
  | succ n ih =>
    have hread : (s.withRow frame row).mem k i = s.mem k i :=
      congrFun (update_of_ne hne _ _) i
    rw [Virt.copyEntries, ((h.withRow hframe row).shows_kernel hkernel).load (by omega), hread]
    simp only [bind_eq_bind, bind_some]
    rw [h.store_withRow hframe hpage hshows row (by omega)]
    simp only [bind_some]
    rw [ih (by omega)]
    congr 2
    funext j
    by_cases hij : j = i
    · rw [hij, if_neg (by omega), if_pos (by omega), update_self]
    · rw [update_of_ne hij]
      split_ifs
      · rfl
      · omega
      · omega
      · rfl

end

def newDirectory (mem : Frames) (k page : ℕ) : ℕ → ℕ :=
  fun i =>
    if i = 1023 then page * 4096 + 3
    else if i = 0 then mem k 768
    else if kernelStart ≤ i ∧ i < kernelEnd then mem k i
    else 0

theorem Layout.addManager (h : Layout k [] [page] s)
    (hrow : s.mem page = newDirectory s.mem k page) :
    Layout k [] [] { s with managerList := s.managerList ++ [page] } := by
  have hperm : (s.managerList ++ [page] ++ s.pages ++ []).Perm (s.frames [page]) := by
    rw [VirtState.frames, append_nil, append_assoc, append_assoc]
    exact List.Perm.append_left _ perm_append_comm
  have hcases : ∀ {d}, d ∈ s.managerList ++ [page] → d ∈ s.managerList ∨ d = page :=
    fun hd => by simpa using hd
  -- Every entry of the new directory is one of the kernel's.
  have hentry : ∀ d ∈ s.managerList ++ [page], ∀ i < 1023, s.mem d i ≠ 0 →
      ∃ c ∈ s.managerList, ∃ j < 1023, s.mem c j = s.mem d i ∧ owner k c j = owner k d i := by
    intro d hd i hi hne
    rcases hcases hd with hd | rfl
    · exact ⟨d, hd, i, hi, rfl, rfl⟩
    · rw [hrow, newDirectory, if_neg (by omega)] at hne ⊢
      split_ifs at hne ⊢ with hzero hkernel
      · refine ⟨k, h.kernel, 768, by omega, rfl, ?_⟩
        rw [hzero]
        rfl
      · rw [kernelStart] at hkernel
        refine ⟨k, h.kernel, i, hi, rfl, ?_⟩
        rw [owner, owner, if_neg hzero, if_neg (by omega), if_neg hzero, if_neg (by omega)]
      · exact absurd rfl hne
  refine { h with
    current := mem_append_left _ h.current
    kernel := mem_append_left _ h.kernel
    distinct := hperm.nodup_iff.mpr h.distinct
    self := fun d hd => ?_
    first := fun d hd => ?_
    agree := fun d hd i hlow hhigh hstale => ?_
    present := fun d hd i hi hne => ?_
    table := fun d hd i hi hne hmem => ?_
    owned := fun d hd i hi e he j hj hne hne' heq => ?_ }
  · rcases hcases hd with hd | rfl
    · exact h.self d hd
    · rw [SelfMapped]
      rw [hrow, newDirectory, if_pos rfl]
  · rcases hcases hd with hd | rfl
    · exact h.first d hd
    · have hfirst := h.first k h.kernel
      rw [hrow]
      exact ⟨hfirst.2, hfirst.2⟩
  · rcases hcases hd with hd | rfl
    · exact h.agree d hd i hlow hhigh hstale
    · have hkernel := h.agree k h.kernel i hlow hhigh hstale
      rw [← hkernel, hrow, newDirectory, if_neg (by rw [kernelEnd] at hhigh; omega),
        if_neg (by rw [kernelStart] at hlow; omega), if_pos ⟨hlow, hhigh⟩]
  · obtain ⟨c, hc, l, hl, hsame, -⟩ := hentry d hd i hi hne
    rw [← hsame] at hne ⊢
    exact h.present c hc l hl hne
  · obtain ⟨c, hc, l, hl, hsame, -⟩ := hentry d hd i hi hne
    rw [← hsame] at hne hmem
    exact h.table c hc l hl hne (hperm.subset hmem)
  · obtain ⟨c, hc, l, hl, hsame, howner⟩ := hentry d hd i hi hne
    obtain ⟨c', hc', l', hl', hsame', howner'⟩ := hentry e he j hj hne'
    rw [← hsame] at hne heq
    rw [← hsame'] at hne' heq
    rw [← howner, ← howner']
    exact h.owned c hc l hl c' hc' l' hl' hne hne' heq

/-- The new page directory is complete before its temporary mapping is
removed. -/
theorem Layout.virtMemManagerInit_eq {s₁ s₂ : VirtState} (hk : k < 1024)
    (halloc : Virt.pageAlloc s = some (page, s₁)) (hpage : page ≠ 0)
    (htemp : Virt.virtAllocateTemp fuel s₁ (page * 4096) = some (va * 4096, s₂))
    (h : Layout k [] [page] s₂) (hva : TempPage va) (hshows : Shows s₂ va page) :
    virtMemManagerInit k fuel s =
      (Virt.virtUnmapPhysPage (s₂.withRow page (newDirectory s₂.mem k page))
        (va * 4096)).map fun t =>
          (0, { t with managerList := t.managerList ++ [page] }) := by
  have hentry := hva.entry
  have hmem : page ∈ [page] := mem_singleton_self page
  have hstore := fun row i (hi : i < 1024) x =>
    h.store_withRow hmem (by omega) hshows row hi x
  have hfirst := fun row x => hstore row 0 (by omega) x
  rw [mul_zero, add_zero] at hfirst
  rw [virtMemManagerInit, halloc]
  simp only [bind_eq_bind, bind_some]
  rw [if_neg hpage, htemp, bind_some, if_neg (by omega), hshows.zeroMemory]
  change (Virt.copyEntries (va * 4096) (k * 4096) (kernelEnd - kernelStart)
    kernelStart (s₂.withRow page fun _ => 0)).bind _ = _
  rw [h.copyEntries hmem (by omega) hshows hk (by decide), bind_some,
    (h.shows_withRow hmem (by omega) hshows _).load (by omega), bind_some, hfirst, bind_some,
    hstore _ _ (by omega), bind_some, Nat.or_assoc, frame_or page (by decide)]
  have hrow : update (update (fun j =>
      if kernelStart ≤ j ∧ j < kernelStart + (kernelEnd - kernelStart) then
        s₂.mem k j else 0) 0 ((s₂.withRow page fun j =>
      if kernelStart ≤ j ∧ j < kernelStart + (kernelEnd - kernelStart) then
        s₂.mem k j else 0).mem page 768)) 1023
      (page * 4096 + (pagePresent ||| pageRw)) = newDirectory s₂.mem k page := by
    funext i
    rw [newDirectory, VirtState.withRow]
    dsimp only
    rw [update_self]
    by_cases hlast : i = 1023
    · rw [hlast, if_pos rfl]
      rfl
    · rw [update_of_ne hlast, if_neg hlast]
      by_cases hzero : i = 0
      · rw [hzero, update_self, if_pos rfl, if_pos (by decide)]
      · rw [update_of_ne hzero, if_neg hzero]
        rfl
  rw [hrow, map_eq_bind]
  rfl

theorem Layout.virtMemManagerInit (h : Layout k [] [] s) (hk : k < 1024)
    (hinit : virtMemManagerInit k fuel s = some (err, s')) : Layout k [] [] s' := by
  have hcall := hinit
  rw [Virt.virtMemManagerInit] at hcall
  simp only [bind_eq_bind, bind_eq_some_iff] at hcall
  obtain ⟨⟨page, s₁⟩, halloc, hcall⟩ := hcall
  have h₁ := h.reserve halloc
  split_ifs at hcall with hzero
  · cases hcall
    exact h₁.unreserve
  simp only [bind_eq_some_iff] at hcall
  obtain ⟨⟨va, s₂⟩, htemp, hcall⟩ := hcall
  rcases MapSpec.allocateTemp (virtMemMapPage_spec k fuel) h₁ htemp with
    ⟨rfl, rfl, -⟩ | ⟨va, rfl, hva, h₂, -, hshows⟩
  · rw [if_pos rfl] at hcall
    cases hcall
    exact h₁.unreserve
  clear hcall
  have hentry := hva.entry
  have hpage : page ∈ [page] := mem_singleton_self page
  have h₃ := h₂.withRow hpage (newDirectory s₂.mem k page)
  rw [Layout.virtMemManagerInit_eq hk halloc hzero htemp h₂ hva (hshows page rfl)] at hinit
  obtain ⟨s₄, hunmap, hresult⟩ := map_eq_some_iff.mp hinit
  cases hresult
  obtain ⟨h₄, hevolves, -, hkept⟩ := h₃.virtUnmapPhysPage
    (by rw [pageTablesVa]; omega) (by rw [KernelPage]; omega) hunmap
  apply h₄.addManager
  have hkernel : k ≠ page := by
    rintro rfl
    exact h₂.reserved_notMem hpage h₂.kernel
  have hsame : s₄.mem k = s₂.mem k :=
    (hkept k (Layout.manager_mem_frames h₃.kernel)).trans (update_of_ne hkernel _ _)
  rw [hkept page (Layout.reserved_mem_frames hpage), VirtState.withRow]
  dsimp only
  rw [update_self]
  funext i
  rw [newDirectory, newDirectory, hsame]

/-! ## Destroying an address space -/

theorem putPageTables_eq {n i : ℕ} {s : VirtState} (hshows : Shows s va m) (hi : i + n ≤ 1024)
    (hdistinct : ∀ j j', i ≤ j → j < j' → j' < i + n → s.mem m j % 2 = 1 →
      s.mem m j' % 2 = 1 → s.mem m j / 4096 ≠ s.mem m j' / 4096) :
      ∃ tables : List ℕ, tables.Nodup ∧ (∀ f ∈ tables, ∃ j, i ≤ j ∧ j < i + n ∧ s.mem m j % 2 = 1 ∧
          f = s.mem m j / 4096) ∧
        putPageTables (va * 4096) n i s = some { s with pages := tables ++ s.pages } := by
  induction n generalizing i s with
  | zero => exact ⟨[], nodup_nil, nofun, rfl⟩
  | succ n ih =>
    have hload := hshows.load (i := i) (by omega)
    rw [putPageTables, hload]
    simp only [bind_eq_bind, bind_some]
    have hrest : ∀ j j', i + 1 ≤ j → j < j' → j' < i + 1 + n →
        s.mem m j % 2 = 1 → s.mem m j' % 2 = 1 → s.mem m j / 4096 ≠ s.mem m j' / 4096 :=
      fun j j' hj hlt hj' => hdistinct j j' (by omega) hlt (by omega)
    by_cases hpresent : s.mem m i % 2 = 1
    · obtain ⟨tables, hnodup, htables, hput⟩ := ih
        (s := { s with pages := s.mem m i / 4096 :: s.pages }) hshows
        (by omega) hrest
      refine ⟨tables ++ [s.mem m i / 4096], ?_, ?_, ?_⟩
      · rw [nodup_append]
        refine ⟨hnodup, nodup_singleton _, ?_⟩
        rintro f hf g hg rfl
        obtain ⟨j, hle, hlt, hodd, hframe⟩ := htables f hf
        rw [mem_singleton] at hg
        exact hdistinct i j (le_refl i) (by omega) (by omega) hpresent hodd (hg.symm.trans hframe)
      · refine forall_mem_append.mpr ⟨fun f hf => ?_,
          forall_mem_singleton.mpr ⟨i, le_refl i, by omega, hpresent, rfl⟩⟩
        obtain ⟨j, hle, hlt, hodd, hframe⟩ := htables f hf
        exact ⟨j, by omega, by omega, hodd, hframe⟩
      · rw [if_pos hpresent, hput, append_assoc]
        rfl
    · obtain ⟨tables, hnodup, htables, hput⟩ := ih hshows (by omega) hrest
      refine ⟨tables, hnodup, fun f hf => ?_, ?_⟩
      · obtain ⟨j, hle, hlt, hodd, hframe⟩ := htables f hf
        exact ⟨j, by omega, by omega, hodd, hframe⟩
      · rw [if_neg hpresent, hput]

theorem virtUnmapPhysPage_pages (s : VirtState) (pages : List ℕ) (va : ℕ) :
    virtUnmapPhysPage { s with pages } va =
      (virtUnmapPhysPage s va).map fun t => { t with pages } := by
  rw [virtUnmapPhysPage, virtUnmapPhysPage]
  have hused : notUsed { s with pages } va = notUsed s va := rfl
  rw [hused]
  cases notUsed s va with
  | none => rfl
  | some free =>
    cases free with
    | true => rfl
    | false =>
      show VirtState.store _ _ _ = (VirtState.store _ _ _).map _
      rw [VirtState.store, VirtState.store, Option.map_map]
      rfl

theorem Layout.removeManager (h : Layout k [] [] s) {tables : List ℕ} (hkernel : k ≠ m)
    (hcurrent : s.cr3 ≠ m) (hm : m ∈ s.managerList) (hnodup : tables.Nodup)
    (htables : ∀ f ∈ tables, ∃ j, 0 < j ∧ j < 768 ∧ s.mem m j ≠ 0 ∧ f = s.mem m j / 4096) :
    Layout k [] [] { s with
      managerList := s.managerList.erase m
      pages := tables ++ s.pages } := by
  have hsub : ∀ d ∈ s.managerList.erase m, d ∈ s.managerList :=
    fun d hd => mem_of_mem_erase hd
  have hmanagers : s.managerList.Nodup :=
    (nodup_append.mp (nodup_append.mp h.distinct).1).1
  have hne : ∀ d ∈ s.managerList.erase m, d ≠ m :=
    fun d hd => (hmanagers.mem_erase_iff.mp hd).1
  have hfresh : ∀ f ∈ tables, f ∉ s.frames [] := by
    intro f hf
    obtain ⟨j, hlow, hhigh, hnonzero, rfl⟩ := htables f hf
    exact h.table m hm j (by omega) hnonzero
  have hsublist : (s.managerList.erase m ++ s.pages).Sublist (s.frames []) := by
    rw [VirtState.frames, append_nil]
    exact List.Sublist.append_right erase_sublist _
  refine { h with
    current := (mem_erase_of_ne hcurrent).mpr h.current
    kernel := (mem_erase_of_ne hkernel).mpr h.kernel
    distinct := ?_
    self := fun d hd => h.self d (hsub d hd)
    first := fun d hd => h.first d (hsub d hd)
    agree := fun d hd => h.agree d (hsub d hd)
    present := fun d hd => h.present d (hsub d hd)
    table := fun d hd i hi hnonzero hmem => ?_
    owned := fun d hd i hi e he j hj =>
      h.owned d (hsub d hd) i hi e (hsub e he) j hj }
  · rw [VirtState.frames, append_nil]
    rw [(perm_append_comm_assoc _ _ _).nodup_iff, nodup_append]
    refine ⟨hnodup, h.distinct.sublist hsublist, ?_⟩
    rintro f hf g hg rfl
    exact hfresh f hf (hsublist.subset hg)
  · dsimp only [VirtState.frames] at hmem
    rw [append_nil, mem_append, mem_append] at hmem
    rcases hmem with hmanager | htable | hpage
    · exact h.table d (hsub d hd) i hi hnonzero (Layout.manager_mem_frames (hsub _ hmanager))
    · obtain ⟨j, hlow, hhigh, hnonzero', hframe⟩ := htables _ htable
      have howner := h.owned d (hsub d hd) i hi m hm j (by omega) hnonzero hnonzero' hframe
      rw [owner, owner, if_neg (by omega : ¬ j = 0)] at howner
      split_ifs at howner
      · exact hkernel (congrArg fst howner)
      · exact hne d hd (congrArg fst howner)
      · exact hkernel (congrArg fst howner)
    · exact h.table d (hsub d hd) i hi hnonzero (hsublist.subset (mem_append_right _ hpage))

theorem Layout.virtDestroyMemManager (h : Layout k [] [] s) {current : Option ℕ}
    (hm : m ∈ s.managerList) (hkernel : m ≠ k) (hcurrent : current = some m ∨ s.cr3 ≠ m)
    (htemp : TempFree s) (hdestroy : virtDestroyMemManager k fuel s current m = some (err, s')) :
    Layout k [] [] s' := by
  rw [Virt.virtDestroyMemManager] at hdestroy
  simp only [bind_eq_bind, bind_eq_some_iff] at hdestroy
  obtain ⟨⟨va, s₁⟩, halloc, s₂, hput, s₃, hunmap, hresult⟩ := hdestroy
  cases hresult
  -- The address space that is destroyed is not the current one any more.
  obtain ⟨s₀, hs₀, h₀, hm₀, hcurrent₀, htemp₀⟩ : ∃ s₀,
      (if some m = current then (virtSetCurrent s k).2 else s) = s₀ ∧
        Layout k [] [] s₀ ∧ m ∈ s₀.managerList ∧ s₀.cr3 ≠ m ∧ TempFree s₀ := by
    split_ifs with hsame
    · exact ⟨_, rfl, h.setCurrent h.kernel, hm, Ne.symm hkernel,
        h.tempFree_setCurrent h.kernel htemp⟩
    · exact ⟨_, rfl, h, hm, hcurrent.resolve_left (Ne.symm hsame), htemp⟩
  rw [hs₀] at halloc
  rcases MapSpec.allocateTemp (virtMemMapPage_spec k fuel) h₀ halloc with
    ⟨-, -, hfull⟩ | ⟨page, rfl, hpage, h₁, hevolves₁, hshows⟩
  · exact absurd htemp₀ hfull
  have hentry := hpage.entry
  have hm₁ : m ∈ s₁.managerList := hevolves₁.managerList ▸ hm₀
  obtain ⟨tables, hnodup, htables, hput'⟩ := putPageTables_eq (n := 766)
    (i := 2) (hshows m rfl) (by omega) (by
      intro j j' hj hlt hj' hpresent hpresent' hsame
      have howner := h₁.owned m hm₁ j (by omega) m hm₁ j' (by omega) (by omega) (by omega) hsame
      rw [owner, owner, if_neg (by omega), if_pos (by omega),
        if_neg (by omega), if_pos (by omega)] at howner
      have heq := congrArg snd howner
      omega)
  rw [hput', some.injEq] at hput
  rw [← hput, virtUnmapPhysPage_pages, map_eq_some_iff] at hunmap
  obtain ⟨s₄, hunmap, rfl⟩ := hunmap
  obtain ⟨h₄, hevolves₄, -, hkept⟩ := h₁.virtUnmapPhysPage
    (by rw [pageTablesVa]; omega) (by rw [KernelPage]; omega) hunmap
  have hmem : s₄.mem m = s₁.mem m :=
    hkept m (Layout.manager_mem_frames hm₁)
  have hpages : s₄.pages = s₁.pages := by
    have hsame : Virt.virtUnmapPhysPage s₁ (page * 4096) = _ :=
      virtUnmapPhysPage_pages s₁ s₁.pages (page * 4096)
    rw [hunmap, map_some, some.injEq] at hsame
    have hkeptPages := congrArg VirtState.pages hsame
    exact hkeptPages
  rw [← hpages]
  apply h₄.removeManager hkernel.symm _ (hevolves₄.managerList ▸ hm₁) hnodup
  · intro f hf
    obtain ⟨j, hlow, hhigh, hpresent, hframe⟩ := htables f hf
    rw [hmem]
    exact ⟨j, by omega, by omega, by omega, hframe⟩
  · rw [hevolves₄.cr3, hevolves₁.cr3]
    exact hcurrent₀

end Whitix.Virt
