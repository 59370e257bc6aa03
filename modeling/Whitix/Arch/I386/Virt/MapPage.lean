import Whitix.Arch.I386.Virt.Invariant

/-!
# Mapping a page

`VirtMemMapPage` keeps the layout.  When it adds a page table to the kernel's
part, it enters it in every page directory through a temporary mapping, and the
temporary mapping may need a new page table itself.  The layout with stale
entries is what holds at every level of this recursion.
-/

namespace Whitix.Virt

open Support Function List Option Nat

/-! ## How a call changes the state -/

def TempPage (page : ℕ) : Prop :=
  tempStart / 4096 ≤ page ∧ page < tempEnd / 4096

variable {page : ℕ}

theorem TempPage.entry (h : TempPage page) : 960 ≤ page / 1024 ∧ page / 1024 < 992 := by
  rw [TempPage, tempStart, tempEnd] at h
  omega

def TempFree (s : VirtState) : Prop :=
  ∃ page, TempPage page ∧ s.FreePage page

/-- What mapping a page leaves alone: entries change only where the current page
directory has none, or to its value, and temporary pages stay free with at most
one exception. -/
structure Evolves (mapped : Option ℕ) (s s' : VirtState) : Prop where
  cr3 : s'.cr3 = s.cr3
  managerList : s'.managerList = s.managerList
  entry : ∀ d ∈ s.managerList, ∀ i, s.mem s.cr3 i ≠ 0 →
    s'.mem d i = s.mem d i ∨ s'.mem d i = s.mem s.cr3 i
  free : ∀ page, TempPage page → some page ≠ mapped → s.FreePage page → s'.FreePage page

variable {i flags e d phys frame virt va perms fuel : ℕ} {pages : List ℕ}

namespace Evolves

variable {mapped : Option ℕ} {s s' s'' : VirtState}

theorem refl (mapped : Option ℕ) (s : VirtState) : Evolves mapped s s :=
  ⟨rfl, rfl, fun _ _ _ _ => .inl rfl, fun _ _ _ hfree => hfree⟩

theorem weaken (h : Evolves none s s') (mapped : Option ℕ) : Evolves mapped s s' :=
  ⟨h.cr3, h.managerList, h.entry, fun page htemp _ hfree => h.free page htemp (by simp) hfree⟩

theorem current (h : Evolves mapped s s') (hcurrent : s.cr3 ∈ s.managerList)
    (hne : s.mem s.cr3 i ≠ 0) : s'.mem s'.cr3 i = s.mem s.cr3 i := by
  rw [h.cr3]
  exact (h.entry s.cr3 hcurrent i hne).elim id id

theorem trans (hcurrent : s.cr3 ∈ s.managerList) (h : Evolves mapped s s')
    (h' : Evolves mapped s' s'') : Evolves mapped s s'' where
  cr3 := h'.cr3.trans h.cr3
  managerList := h'.managerList.trans h.managerList
  entry d hd i hne := by
    have hsame := h.current hcurrent hne
    rcases h'.entry d (h.managerList ▸ hd) i (hsame ▸ hne) with hkept | hset
    · rw [hkept]
      exact h.entry d hd i hne
    · exact .inr (hset.trans hsame)
  free page htemp hmapped hfree :=
    h'.free page htemp hmapped (h.free page htemp hmapped hfree)

theorem freed (h : Evolves (some page) s s') (hpage : s'.FreePage page) : Evolves none s s' :=
  { h with
    free := fun p hp _ hfree => by
      by_cases heq : p = page
      · rw [heq]
        exact hpage
      · exact h.free p hp (fun hsome => heq (some.inj hsome)) hfree }

theorem tempFree (h : Evolves none s s') (hfree : TempFree s) : TempFree s' := by
  obtain ⟨page, htemp, hpage⟩ := hfree
  exact ⟨page, htemp, h.free page htemp (by simp) hpage⟩

end Evolves

/-! ## Single changes -/

section Changes

variable {k : ℕ} {stale reserved : List ℕ} {s : VirtState}

theorem pageEntry_setPage (x : ℕ) (hdir : s.cr3 ≠ s.mem s.cr3 (page / 1024) / 4096) :
    pageEntry (s.setPage page x).mem s.cr3 page = x := by
  rw [pageEntry, VirtState.setPage]
  dsimp only
  rw [setWord_frame_of_ne _ _ _ hdir]
  exact setWord_self _ _ _ _

section

variable (h : Layout k stale reserved s)
include h

theorem Layout.tempPage_eq {p : ℕ} (hp : TempPage p) (hpage : page / 1024 < 1023)
    (hne : s.mem s.cr3 (p / 1024) ≠ 0) (hne' : s.mem s.cr3 (page / 1024) ≠ 0)
    (hframe : s.mem s.cr3 (p / 1024) / 4096 = s.mem s.cr3 (page / 1024) / 4096)
    (hword : p % 1024 = page % 1024) : p = page := by
  have hentry := hp.entry
  have howner := congrArg Prod.snd (h.owned s.cr3 h.current _ (by omega) s.cr3
    h.current _ hpage hne hne' hframe)
  rw [owner_snd, owner_snd, if_neg (by omega)] at howner
  split_ifs at howner
  · omega
  · omega

section

variable (hpage : page / 1024 < 1023) (hne : s.mem s.cr3 (page / 1024) ≠ 0)
include hpage hne

theorem Layout.evolves_setPage (x : ℕ) : Evolves (some page) s (s.setPage page x) := by
  have hdirs : ∀ d ∈ s.managerList, (s.setPage page x).mem d = s.mem d :=
    fun d hd => setWord_frame_of_ne _ _ _
      (h.table_ne h.current hpage hne (Layout.manager_mem_frames hd))
  refine ⟨rfl, rfl, fun d hd i _ => .inl (by rw [hdirs d hd]), ?_⟩
  intro p hp hother hfree
  have hdir : (s.setPage page x).mem s.cr3 = s.mem s.cr3 :=
    hdirs s.cr3 h.current
  by_cases hzero : s.mem s.cr3 (p / 1024) = 0
  · exact .inl ((congrFun hdir _).trans hzero)
  · have hentry : pageEntry s.mem s.cr3 p = 0 := hfree.resolve_left hzero
    right
    rw [← hentry]
    show (s.setPage page x).mem ((s.setPage page x).mem s.cr3 (p / 1024) / 4096) (p % 1024) = _
    rw [hdir]
    apply setWord_of_ne
    by_contra hsame
    rw [not_or, not_not, not_not] at hsame
    exact hother (congrArg some (h.tempPage_eq hp hpage hzero hne hsame.1 hsame.2))

theorem Layout.evolves_clear :
    Evolves none s (s.setPage page 0) ∧ (s.setPage page 0).FreePage page := by
  have hcleared : (s.setPage page 0).FreePage page :=
    .inr (pageEntry_setPage 0 (h.table_ne h.current hpage hne
      (Layout.manager_mem_frames h.current)))
  exact ⟨(h.evolves_setPage hpage hne 0).freed hcleared, hcleared⟩

end

theorem Layout.copyEntry (hd : d ∈ s.managerList) (hlow : 768 < e) (hhigh : e < 1023)
    (hne : s.mem s.cr3 e ≠ 0) (hstale : e ∈ stale) :
    Layout k stale reserved { s with mem := setWord s.mem d e (s.mem s.cr3 e) } ∧
      Evolves none s { s with mem := setWord s.mem d e (s.mem s.cr3 e) } := by
  have hdirs : ∀ c ∈ s.managerList, ∀ i, setWord s.mem d e (s.mem s.cr3 e) c i =
        if c = d ∧ i = e then s.mem s.cr3 e else s.mem c i := by
    intro c _ i
    split_ifs with hnew
    · rw [hnew.1, hnew.2, setWord_self]
    · rw [not_and_or] at hnew
      exact setWord_of_ne _ _ hnew
  have hframe := h.table s.cr3 h.current e hhigh hne
  have howner : ∀ c, owner k c e = (k, e) := by
    intro c
    rw [owner, if_neg (by omega), if_neg (by omega)]
  have hlayout : Layout k (e :: stale) reserved
      { s with mem := setWord s.mem d e (s.mem s.cr3 e) } := by
    apply h.setDirEntry hhigh (by omega) (by omega) hdirs
    · apply setWord_of_ne
      left
      intro heq
      exact h.first_notMem_frames (heq ▸ Layout.manager_mem_frames hd)
    · exact List.Sublist.refl _
    · exact h.present s.cr3 h.current e hhigh hne
    · exact hframe
    · intro c hc i hi hci heq
      rw [h.owned c hc i hi s.cr3 h.current e hhigh hci hne heq, howner, howner]
  have hcurrent : setWord s.mem d e (s.mem s.cr3 e) s.cr3 = s.mem s.cr3 := by
    funext i
    rw [hdirs s.cr3 h.current]
    split_ifs with hnew
    · rw [hnew.2]
    · rfl
  refine ⟨hlayout.weaken (forall_mem_cons.mpr ⟨hstale, fun _ hi => hi⟩), rfl, rfl,
    fun c hc i _ => ?_, ?_⟩
  · dsimp only
    rw [hdirs c hc]
    split_ifs with hnew
    · exact .inr (by rw [hnew.2])
    · exact .inl rfl
  · intro page htemp _ hfree
    rw [VirtState.FreePage, pageEntry] at hfree ⊢
    dsimp only
    rw [hcurrent]
    by_cases hzero : s.mem s.cr3 (page / 1024) = 0
    · exact .inl hzero
    · right
      have hentry := htemp.entry
      rw [setWord_frame_of_ne _ _ _ (Ne.symm (h.table_ne h.current (by omega)
        hzero (Layout.manager_mem_frames hd)))]
      exact hfree.resolve_left hzero

end

/-- An empty page table for the entry `e` of the current page directory. -/
def VirtState.addTable (s : VirtState) (e page flags : ℕ) (pages : List ℕ) : VirtState :=
  { s with
    mem := update (setWord s.mem s.cr3 e (page * 4096 + flags)) page fun _ => 0
    pages }

section

variable (h : Layout k stale reserved s)
include h

theorem Layout.entry_ne_first (hnone : s.mem s.cr3 e = 0) : e ≠ 0 ∧ e ≠ 768 := by
  have hfirst := h.first s.cr3 h.current
  constructor
  · rintro rfl
    omega
  · rintro rfl
    omega

theorem Layout.page_notMem (hpages : s.pages = page :: pages) :
    page ∉ s.managerList ++ pages ++ reserved := by
  have hdistinct := h.distinct
  rw [VirtState.frames, hpages, append_assoc, cons_append, nodup_middle] at hdistinct
  rw [append_assoc]
  exact (nodup_cons.mp hdistinct).1

theorem Layout.addTable (he : e < 1023) (hnone : s.mem s.cr3 e = 0)
    (hpages : s.pages = page :: pages) (hflags : flags < 4096) (hodd : flags % 2 = 1) :
    Layout k (e :: stale) reserved (s.addTable e page flags pages) ∧
      Evolves none s (s.addTable e page flags pages) := by
  have hpage := h.page_notMem hpages
  have hpageFrames : page ∈ s.frames reserved := by
    rw [VirtState.frames, hpages]
    simp
  have hmanager : ∀ c ∈ s.managerList, c ≠ page := by
    rintro c hc rfl
    exact hpage (mem_append_left _ (mem_append_left _ hc))
  have hframe : (page * 4096 + flags) / 4096 = page := by omega
  have hdirs : ∀ c ∈ s.managerList, ∀ i, (s.addTable e page flags pages).mem c i =
        if c = s.cr3 ∧ i = e then page * 4096 + flags else s.mem c i := by
    intro c hc i
    rw [VirtState.addTable]
    dsimp only
    rw [update_of_ne (hmanager c hc)]
    split_ifs with hnew
    · rw [hnew.1, hnew.2, setWord_self]
    · rw [not_and_or] at hnew
      exact setWord_of_ne _ _ hnew
  obtain ⟨hzero, hfirst⟩ := h.entry_ne_first hnone
  constructor
  · apply h.setDirEntry he hzero hfirst hdirs
    · have hne : k + 1 ≠ page := fun heq =>
        h.first_notMem_frames (heq ▸ hpageFrames)
      have hne' : k + 1 ≠ s.cr3 := fun heq =>
        h.first_notMem_frames (heq ▸ Layout.manager_mem_frames h.current)
      rw [VirtState.addTable]
      dsimp only
      rw [update_of_ne hne, setWord_frame_of_ne _ _ _ hne']
    · rw [hpages]
      exact sublist_cons_self page pages
    · omega
    · rw [hframe]
      exact hpage
    · intro c hc i hi hne heq
      rw [hframe] at heq
      exact absurd (heq ▸ hpageFrames) (h.table c hc i hi hne)
  · refine ⟨rfl, rfl, fun c hc i hne => ?_, fun p htemp _ hfree => ?_⟩
    · left
      rw [hdirs c hc, if_neg]
      rintro ⟨-, rfl⟩
      exact hne hnone
    · have hentry := htemp.entry
      show (s.addTable e page flags pages).mem s.cr3 (p / 1024) = 0 ∨
        pageEntry (s.addTable e page flags pages).mem s.cr3 p = 0
      rw [pageEntry, hdirs s.cr3 h.current]
      split_ifs with hnew
      · -- The page lies in the new table, which is empty.
        right
        rw [hframe, VirtState.addTable]
        dsimp only
        rw [update_self]
      · rcases hfree with hdir | htable
        · exact .inl hdir
        · by_cases hdir : s.mem s.cr3 (p / 1024) = 0
          · exact .inl hdir
          · right
            have hne := h.table_ne h.current (by omega) hdir hpageFrames
            have hne' := h.table_ne h.current (by omega) hdir (Layout.manager_mem_frames h.current)
            rw [VirtState.addTable]
            dsimp only
            rw [update_of_ne hne.symm, setWord_frame_of_ne _ _ _ hne'.symm]
            exact htable

end

end Changes

/-! ## Temporary mappings -/

section Temporary

variable {k : ℕ} {stale reserved : List ℕ} {s s' : VirtState}

theorem pageAlloc_eq_some (h : pageAlloc s = some (page, s')) :
    ∃ pages, s.pages = page :: pages ∧ s' = { s with pages } := by
  rw [pageAlloc] at h
  split at h
  · cases h
  · case h_2 pages hpages =>
      cases h
      exact ⟨pages, hpages, rfl⟩

theorem frame_or (frame : ℕ) (h : flags < 4096) :
    frame * 4096 ||| flags = frame * 4096 + flags := by
  have hor := two_pow_add_eq_or_of_lt (i := 12) h frame
  rw [mul_comm]
  exact hor.symm

def Shows (s : VirtState) (page frame : ℕ) : Prop :=
  s.mem s.cr3 (page / 1024) % 2 = 1 ∧ pageEntry s.mem s.cr3 page = frame * 4096 + 3

section

variable (h : Shows s page frame)
include h

theorem Shows.translate (hi : i < 1024) :
    translate s.mem s.cr3 (page * 4096 + 4 * i) = some (frame, i) := by
  have hentry := h.2
  rw [translate_page hi h.1, hentry, if_neg (by omega)]
  congr 2
  omega

theorem Shows.load (hi : i < 1024) : s.load (page * 4096 + 4 * i) = some (s.mem frame i) := by
  rw [VirtState.load, h.translate hi]
  rfl

theorem Shows.store (hi : i < 1024) (x : ℕ) :
    s.store (page * 4096 + 4 * i) x = some { s with mem := setWord s.mem frame i x } := by
  rw [VirtState.store, h.translate hi]
  rfl

theorem Shows.zeroMemory :
    s.zeroMemory (page * 4096) = some { s with mem := update s.mem frame fun _ => 0 } := by
  have htranslate := h.translate (i := 0) (by omega)
  rw [mul_zero, add_zero] at htranslate
  rw [VirtState.zeroMemory, htranslate]
  rfl

end

section

variable (h : Layout k stale reserved s)
include h

theorem Layout.virtUnmapPhysPage_eq (hvirt : virt < 4294967296) :
    virtUnmapPhysPage s virt = some (if s.FreePage (virt / 4096) then s
      else s.setPage (virt / 4096) 0) := by
  rw [virtUnmapPhysPage, h.notUsed_eq hvirt]
  simp only [bind_eq_bind, bind_some, decide_eq_true_eq]
  split_ifs with hfree
  · rfl
  · rw [VirtState.FreePage, not_or] at hfree
    rw [pgTableEnt, store_pageTable h.self_current (by omega)
      (h.present_current (by omega) hfree.1)]

theorem Layout.virtUnmapPhysPage (hvirt : virt < pageTablesVa)
    (hkernel : ¬ KernelPage k (virt / 4096)) (hunmap : virtUnmapPhysPage s virt = some s') :
    Layout k stale reserved s' ∧ Evolves none s s' ∧ s'.FreePage (virt / 4096) ∧
      ∀ f ∈ s.frames reserved, s'.mem f = s.mem f := by
  rw [pageTablesVa] at hvirt
  rw [h.virtUnmapPhysPage_eq (by omega)] at hunmap
  cases hunmap
  split_ifs with hfree
  · exact ⟨h, Evolves.refl none s, hfree, fun _ _ => rfl⟩
  · have hne : s.mem s.cr3 (virt / 4096 / 1024) ≠ 0 := fun hzero =>
      hfree (.inl hzero)
    obtain ⟨hevolves, hcleared⟩ := h.evolves_clear (by omega) hne
    refine ⟨h.setPage (by omega) hne hkernel 0, hevolves, hcleared, ?_⟩
    intro f hf
    exact setWord_frame_of_ne _ _ _ (h.table_ne h.current (by omega) hne hf)

theorem Layout.findTemp_cases {n page : ℕ} (hend : page + n ≤ tempEnd / 4096)
    (hfind : findTemp s n (page * 4096) = some i) :
      (i = 0 ∧ ∀ p, page ≤ p → p < page + n → ¬ s.FreePage p) ∨
        ∃ p, i = p * 4096 ∧ page ≤ p ∧ p < page + n ∧ s.FreePage p := by
  induction n generalizing page with
  | zero =>
    cases hfind
    exact .inl ⟨rfl, fun p hle hlt => by omega⟩
  | succ n ih =>
    have hbound : tempEnd / 4096 = 1015808 := rfl
    have hpage : page * 4096 / 4096 = page := by omega
    rw [findTemp, h.notUsed_eq (by omega), hpage] at hfind
    simp only [bind_eq_bind, bind_some, decide_eq_true_eq] at hfind
    split_ifs at hfind with hfree
    · cases hfind
      exact .inr ⟨page, rfl, le_rfl, by omega, hfree⟩
    · rw [show page * 4096 + 4096 = (page + 1) * 4096 by omega] at hfind
      rcases ih (by omega) hfind with ⟨hi, hnone⟩ | ⟨p, hi, hle, hlt, hp⟩
      · refine .inl ⟨hi, fun p hle hlt => ?_⟩
        by_cases heq : p = page
        · rw [heq]
          exact hfree
        · exact hnone p (by omega) (by omega)
      · exact .inr ⟨p, hi, by omega, by omega, hp⟩

end

def MapSpec (k : ℕ) (memMapPage : VirtState → ℕ → ℕ → ℕ → Option (ℤ × VirtState)) : Prop :=
  ∀ {stale reserved : List ℕ} {s s' : VirtState} {virt phys perms : ℕ}
    {err : ℤ}, Layout k stale reserved s → virt < pageTablesVa →
      perms < 4096 → ¬ KernelPage k (virt / 4096) →
      (768 ≤ pgDirEnt virt → TempFree s) →
      memMapPage s virt phys perms = some (err, s') →
        Layout k stale reserved s' ∧ Evolves (some (virt / 4096)) s s' ∧
          s'.mem s'.cr3 (virt / 4096 / 1024) ≠ 0 ∧
          pageEntry s'.mem s'.cr3 (virt / 4096) = phys ||| perms

theorem MapSpec.allocateTemp {memMapPage : VirtState → ℕ → ℕ → ℕ → Option (ℤ × VirtState)}
    (hspec : MapSpec k memMapPage) (h : Layout k stale reserved s)
    (halloc : allocateTempWith memMapPage s phys = some (va, s')) :
    (va = 0 ∧ s' = s ∧ ¬ TempFree s) ∨ ∃ page, va = page * 4096 ∧ TempPage page ∧
      Layout k stale reserved s' ∧ Evolves (some page) s s' ∧
        ∀ frame, phys = frame * 4096 → Shows s' page frame := by
  rw [allocateTempWith] at halloc
  simp only [bind_eq_bind, bind_eq_some_iff] at halloc
  obtain ⟨i, hfind, halloc⟩ := halloc
  have hpages : tempStart / 4096 + tempPages = tempEnd / 4096 := rfl
  rcases h.findTemp_cases hpages.le hfind with
    ⟨rfl, hnone⟩ | ⟨page, rfl, hle, hlt, hfree⟩
  · cases halloc
    refine .inl ⟨rfl, rfl, ?_⟩
    rintro ⟨p, hp, hfree⟩
    exact hnone p hp.1 (hpages ▸ hp.2) hfree
  · have htemp : TempPage page := ⟨hle, hpages ▸ hlt⟩
    have hentry := htemp.entry
    have hpage : page * 4096 / 4096 = page := by omega
    rw [if_neg (by omega)] at halloc
    simp only [bind_eq_some_iff] at halloc
    obtain ⟨⟨err, s₁⟩, hmap, hresult⟩ := halloc
    cases hresult
    obtain ⟨hlayout, hevolves, hne, hmapped⟩ := hspec h (by rw [pageTablesVa]; omega) (by decide)
      (by rw [hpage, KernelPage]; omega) (fun _ => ⟨page, htemp, hfree⟩) hmap
    rw [hpage] at hevolves hne hmapped
    refine .inr ⟨page, rfl, htemp, hlayout, hevolves, fun frame hphys => ?_⟩
    rw [hphys, frame_or frame (by decide)] at hmapped
    exact ⟨hlayout.present_current (by omega) hne, hmapped⟩

end Temporary

/-! ## The recursion -/

section Recursion

variable {k : ℕ} {stale reserved : List ℕ} {s s' : VirtState}
  {memMapPage : VirtState → ℕ → ℕ → ℕ → Option (ℤ × VirtState)}

theorem propagate_cons {alloc : VirtState → ℕ → Option (ℕ × VirtState)}
    {ds : List ℕ} (h : propagate alloc e (d :: ds) s = some s') :
    ∃ virtDir s₁ dirEntry s₂ s₃, alloc s (d * 4096) = some (virtDir, s₁) ∧
      s₁.load (pageDir e) = some dirEntry ∧
      s₁.store (virtDir + 4 * e) dirEntry = some s₂ ∧
      virtUnmapPhysPage s₂ virtDir = some s₃ ∧
      propagate alloc e ds s₃ = some s' := by
  rw [propagate] at h
  simp only [bind_eq_bind, bind_eq_some_iff] at h
  obtain ⟨⟨virtDir, s₁⟩, halloc, dirEntry, hload, s₂, hstore, s₃, hunmap, hrest⟩ := h
  exact ⟨virtDir, s₁, dirEntry, s₂, s₃, halloc, hload, hstore, hunmap, hrest⟩

section

variable (hspec : MapSpec k memMapPage)
include hspec

theorem MapSpec.propagate_step (h : Layout k stale reserved s) {virtDir dirEntry : ℕ}
    {s₁ s₂ : VirtState} (hd : d ∈ s.managerList) (hlow : 768 < e) (hhigh : e < 1023)
    (hne : s.mem s.cr3 e ≠ 0) (hstale : e ∈ stale) (htemp : TempFree s)
    (halloc : allocateTempWith memMapPage s (d * 4096) = some (virtDir, s₁))
    (hload : s₁.load (pageDir e) = some dirEntry)
    (hstore : s₁.store (virtDir + 4 * e) dirEntry = some s₂)
    (hunmap : virtUnmapPhysPage s₂ virtDir = some s') :
    Layout k stale reserved s' ∧ Evolves none s s' ∧ s'.mem d e = s.mem s.cr3 e := by
  rcases hspec.allocateTemp h halloc with
    ⟨-, -, hfull⟩ | ⟨page, rfl, hpage, h₁, hevolves₁, hshows⟩
  · exact absurd htemp hfull
  replace hshows := hshows d rfl
  have hentry := hpage.entry
  have hpageEq : page * 4096 / 4096 = page := by omega
  rw [load_pageDir h₁.self_current (by omega)] at hload
  cases hload
  rw [hshows.store (by omega)] at hstore
  cases hstore
  have hsame : s₁.mem s₁.cr3 e = s.mem s.cr3 e :=
    hevolves₁.current h.current hne
  have hd₁ : d ∈ s₁.managerList := hevolves₁.managerList ▸ hd
  obtain ⟨h₂, hevolves₂⟩ := h₁.copyEntry hd₁ hlow hhigh (hsame ▸ hne) hstale
  obtain ⟨h₃, hevolves₃, hfree₃, -⟩ := h₂.virtUnmapPhysPage
    (by rw [pageTablesVa]; omega) (by rw [hpageEq, KernelPage]; omega) hunmap
  rw [hpageEq] at hfree₃
  have hevolves := (hevolves₁.trans h.current (hevolves₂.weaken _)).trans
    h.current (hevolves₃.weaken _)
  refine ⟨h₃, hevolves.freed hfree₃, ?_⟩
  have hset : setWord s₁.mem d e (s₁.mem s₁.cr3 e) d e = s.mem s.cr3 e := by
    rw [setWord_self, hsame]
  have hcurrent := (hevolves₂.current h₁.current (hsame ▸ hne)).trans hsame
  rcases hevolves₃.entry d hd₁ e (hcurrent ▸ hne) with hkept | hkept
  · exact hkept.trans hset
  · exact hkept.trans hcurrent

theorem MapSpec.propagate (hlow : 768 < e) (hhigh : e < 1023) (hstale : e ∈ stale) {ds : List ℕ}
    {s : VirtState} (h : Layout k stale reserved s) (hds : ∀ d ∈ ds, d ∈ s.managerList)
    (hne : s.mem s.cr3 e ≠ 0) (htemp : TempFree s)
    (hrun : propagate (allocateTempWith memMapPage) e ds s = some s') :
      Layout k stale reserved s' ∧ Evolves none s s' ∧ ∀ d ∈ ds, s'.mem d e = s'.mem s'.cr3 e := by
  induction ds generalizing s with
  | nil =>
    obtain rfl := some.inj hrun
    exact ⟨h, Evolves.refl none s, nofun⟩
  | cons d ds ih =>
    obtain ⟨hd, hds⟩ := forall_mem_cons.mp hds
    obtain ⟨virtDir, s₁, dirEntry, s₂, s₃, halloc, hload, hstore, hunmap,
      hrest⟩ := propagate_cons hrun
    obtain ⟨h₃, hevolves₃, hset⟩ := hspec.propagate_step h hd hlow hhigh hne hstale htemp halloc
      hload hstore hunmap
    have hsame := hevolves₃.current h.current hne
    rw [← hevolves₃.managerList] at hd hds
    obtain ⟨h', hevolves', hrestSet⟩ := ih h₃ hds (hsame ▸ hne) (hevolves₃.tempFree htemp) hrest
    refine ⟨h', hevolves₃.trans h.current hevolves', forall_mem_cons.mpr ⟨?_, hrestSet⟩⟩
    rw [hevolves'.current h₃.current (hsame ▸ hne), hsame]
    rcases hevolves'.entry d hd e (hsame ▸ hne) with hkept | hkept
    · exact hkept.trans hset
    · exact hkept.trans hsame

/-- Adding a page table keeps the layout: the new entry is stale while it is
entered in the other page directories. -/
theorem MapSpec.addPageTable (h : Layout k stale reserved s) (he : e < 1023) (hperms : perms < 4096)
    (hnone : s.mem s.cr3 e = 0) (htemp : 768 ≤ e → TempFree s)
    (hadd : addPageTable (allocateTempWith memMapPage) s e perms = some s') :
    Layout k stale reserved s' ∧ Evolves none s s' ∧ s'.mem s'.cr3 e ≠ 0 := by
  rw [Virt.addPageTable] at hadd
  simp only [bind_eq_bind, bind_eq_some_iff] at hadd
  obtain ⟨⟨page, s₁⟩, halloc, s₂, hstore, s₃, hzero, hadd⟩ := hadd
  obtain ⟨pages, hpages, rfl⟩ := pageAlloc_eq_some halloc
  have hflags : perms ||| pageRw < 4096 :=
    or_lt_two_pow (n := 12) hperms (by decide)
  change VirtState.store { s with pages } (pageDir e)
    (page * 4096 ||| perms ||| pageRw) = some s₂ at hstore
  rw [store_pageDir (s := { s with pages }) h.self_current (by omega),
    Nat.or_assoc, frame_or page hflags] at hstore
  cases hstore
  have hset : setWord s.mem s.cr3 e (page * 4096 + (perms ||| pageRw)) s.cr3 e =
      page * 4096 + (perms ||| pageRw) := setWord_self _ _ _ _
  have hself : SelfMapped (setWord s.mem s.cr3 e (page * 4096 + (perms ||| pageRw))) s.cr3 := by
    rw [SelfMapped, setWord_of_ne _ _ (.inr (by omega))]
    exact h.self_current
  rw [zeroMemory_pageTable hself (by omega)] at hzero
  simp only [hset] at hzero
  split_ifs at hzero with heven
  cases hzero
  obtain ⟨h₃, hevolves₃⟩ := h.addTable he hnone hpages hflags (by omega)
  rw [show (page * 4096 + (perms ||| pageRw)) / 4096 = page by omega] at hadd
  change (if 768 ≤ e then
    Virt.propagate (allocateTempWith memMapPage) e s.managerList
      (s.addTable e page (perms ||| pageRw) pages)
    else some (s.addTable e page (perms ||| pageRw) pages)) = some s' at hadd
  have hentry : (s.addTable e page (perms ||| pageRw) pages).mem s.cr3 e ≠ 0 := by
    have hne : s.cr3 ≠ page := fun heq => h.page_notMem hpages
      (heq ▸ mem_append_left _ (mem_append_left _ h.current))
    rw [VirtState.addTable]
    dsimp only
    rw [update_of_ne hne, hset]
    omega
  split_ifs at hadd with hkernel
  · have hne := (h.entry_ne_first hnone).2
    obtain ⟨h', hevolves', hagree⟩ := hspec.propagate (by omega) he
      (mem_cons_self ..) h₃ (fun d hd => hd) hentry
      (hevolves₃.tempFree (htemp hkernel)) hadd
    refine ⟨h'.refresh fun _ d hd => ?_, hevolves₃.trans h.current hevolves', ?_⟩
    · exact hagree d (hevolves'.managerList ▸ hd)
    · rw [hevolves'.current h₃.current hentry]
      exact hentry
  · cases hadd
    exact ⟨h₃.refresh fun hlow => absurd hlow hkernel, hevolves₃, hentry⟩

end

theorem virtMemMapPage_spec (k : ℕ) : ∀ fuel, MapSpec k (virtMemMapPage fuel) := by
  intro fuel
  induction fuel with
  | zero =>
    intro stale reserved s s' virt phys perms err _ _ _ _ _ hmap
    cases hmap
  | succ fuel ih =>
    intro stale reserved s s' virt phys perms err h hvirt hperms hkernel htemp hmap
    have hentry : virt / 4096 / 1024 = pgDirEnt virt :=
      Nat.div_div_eq_div_mul ..
    have hlast : pgDirEnt virt < 1023 := by
      rw [pageTablesVa] at hvirt
      omega
    rw [virtMemMapPage, if_neg (by omega), load_pageDir h.self_current (by omega)] at hmap
    simp only [bind_eq_bind, bind_some] at hmap
    have hadded : ∃ s₁, (Layout k stale reserved s₁ ∧ Evolves none s s₁ ∧
        s₁.mem s₁.cr3 (pgDirEnt virt) ≠ 0) ∧
        (s₁.store (pageTable (pgTableEnt virt)) (phys ||| perms)).bind
          (fun s => some ((0 : ℤ), s)) = some (err, s') := by
      split_ifs at hmap with hnone
      · obtain ⟨s₁, hadd, hmap⟩ := bind_eq_some_iff.mp hmap
        exact ⟨s₁, ih.addPageTable h hlast hperms hnone htemp hadd, hmap⟩
      · exact ⟨s, ⟨h, Evolves.refl none s, hnone⟩, hmap⟩
    obtain ⟨s₁, ⟨h₁, hevolves₁, hne⟩, hmap⟩ := hadded
    obtain ⟨s₂, hstore, hresult⟩ := bind_eq_some_iff.mp hmap
    cases hresult
    rw [pgTableEnt, store_pageTable h₁.self_current (by omega)
      (hentry ▸ h₁.present_current (by omega) hne)] at hstore
    cases hstore
    have hne' : s₁.mem s₁.cr3 (virt / 4096 / 1024) ≠ 0 := hentry ▸ hne
    have htable := h₁.table_ne h₁.current (hentry ▸ hlast) hne'
      (Layout.manager_mem_frames h₁.current)
    refine ⟨h₁.setPage (hentry ▸ hlast) hne' hkernel _, ?_, ?_, ?_⟩
    · exact (hevolves₁.weaken _).trans h.current (h₁.evolves_setPage (hentry ▸ hlast) hne' _)
    · show setWord _ _ _ _ s₁.cr3 _ ≠ 0
      rw [setWord_frame_of_ne _ _ _ htable]
      exact hne'
    · exact pageEntry_setPage _ htable

theorem Layout.virtMemMapPage (h : Layout k stale reserved s) {err : ℤ} (hperms : perms < 4096)
    (hkernel : ¬ KernelPage k (virt / 4096)) (htemp : 768 ≤ pgDirEnt virt → TempFree s)
    (hmap : virtMemMapPage fuel s virt phys perms = some (err, s')) :
    Layout k stale reserved s' ∧ Evolves (some (virt / 4096)) s s' := by
  by_cases hvirt : virt < pageTablesVa
  · obtain ⟨h', hevolves, -⟩ :=
      virtMemMapPage_spec k fuel h hvirt hperms hkernel htemp hmap
    exact ⟨h', hevolves⟩
  · cases fuel with
    | zero => cases hmap
    | succ fuel =>
      rw [Virt.virtMemMapPage, if_pos (by omega)] at hmap
      cases hmap
      exact ⟨h, Evolves.refl _ s⟩

end Recursion

end Whitix.Virt
