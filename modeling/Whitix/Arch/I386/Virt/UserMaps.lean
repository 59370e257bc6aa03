import Whitix.Arch.I386.Virt.Run

/-!
# The user part of the address spaces

Every address space maps the pages of its user part on its own.  Mapping and
unmapping pages there changes one value of a function of the address space and
the page, however the calls of several address spaces are interleaved.
-/

namespace Whitix.Virt

open Support List Option Function

/-- The table entry of a page in an address space, or zero without a table. -/
def VirtState.entry (s : VirtState) (d page : ℕ) : ℕ :=
  if s.mem d (page / 1024) = 0 then 0 else pageEntry s.mem d page

/-- The page table of the page belongs to the address space alone. -/
def UserPage (page : ℕ) : Prop :=
  0 < page / 1024 ∧ page / 1024 < 768

/-- A call that maps or unmaps a page of the user part, or switches. -/
def VirtOp.User : VirtOp → Prop
  | .memMapPage virt _ _ | .unmapPhysPage virt => UserPage (virt / 4096)
  | .setCurrent _ => True
  | _ => False

/-- What a call in address space `d` does to the mappings. -/
def VirtOp.apply (d : ℕ) (maps : ℕ → ℕ → ℕ) : VirtOp → ℕ → ℕ → ℕ
  | .memMapPage virt phys perms => fun e p =>
    if e = d ∧ p = virt / 4096 then phys ||| perms else maps e p
  | .unmapPhysPage virt => fun e p => if e = d ∧ p = virt / 4096 then 0 else maps e p
  | _ => maps

def mapsStep (k fuel : ℕ) (st : VirtState × (ℕ → ℕ → ℕ)) (op : VirtOp) :
    Option (VirtState × (ℕ → ℕ → ℕ)) :=
  (virtStep k fuel st.1 op).map fun s => (s, op.apply st.1.cr3 st.2)

def Holds (s : VirtState) (maps : ℕ → ℕ → ℕ) : Prop :=
  ∀ d ∈ s.managerList, ∀ p, p / 1024 < 1023 → s.entry d p = maps d p

variable {k d e p page flags virt phys perms fuel : ℕ} {pages : List ℕ} {s s' : VirtState}
  {op : VirtOp} {maps : ℕ → ℕ → ℕ} {alloc : VirtState → ℕ → Option (ℕ × VirtState)}

/-- Only one entry of one page directory owns a page table of the user part. -/
theorem eq_of_owner {i j : ℕ} (hlow : 0 < i) (hhigh : i < 768) (h : owner k e j = owner k d i) :
    e = d ∧ j = i := by
  simp only [owner, if_neg hlow.ne', if_pos hhigh] at h
  split_ifs at h
  · have hentry := (Prod.mk.inj h).2
    omega
  · exact Prod.mk.inj h
  · have hentry := (Prod.mk.inj h).2
    omega

section

variable (h : Layout k [] [] s)
include h

theorem Layout.entry_addTable (hnone : s.mem s.cr3 e = 0) (hpages : s.pages = page :: pages)
    (hd : d ∈ s.managerList) (hp : p / 1024 < 1023) (hflags : flags < 4096) :
    (s.addTable e page flags pages).entry d p = s.entry d p := by
  have hdir : (s.addTable e page flags pages).mem d =
      setWord s.mem s.cr3 e (page * 4096 + flags) d := by
    refine update_of_ne ?_ _ _
    rintro rfl
    exact h.page_notMem hpages (mem_append_left _ (mem_append_left _ hd))
  rw [VirtState.entry, VirtState.entry, pageEntry, hdir]
  by_cases hnew : d = s.cr3 ∧ p / 1024 = e
  · obtain ⟨rfl, rfl⟩ := hnew
    rw [if_pos hnone, setWord_self, show (page * 4096 + flags) / 4096 = page by omega,
      VirtState.addTable]
    dsimp only
    rw [update_self, ite_self]
  · rw [setWord_of_ne _ _ (not_and_or.mp hnew)]
    split_ifs with hzero
    · rfl
    · have htable : ∀ f ∈ s.frames [], s.mem d (p / 1024) / 4096 ≠ f :=
        fun f hf => (h.table_ne hd hp hzero hf).symm
      rw [VirtState.addTable]
      dsimp only
      rw [update_of_ne (htable page (by simp [VirtState.frames, hpages])),
        setWord_frame_of_ne _ _ _ (htable _ (Layout.manager_mem_frames h.current))]
      rfl

theorem Layout.addPageTable_user (he : e < 768) (hperms : perms < 4096)
    (hadd : addPageTable alloc s e perms = some s') :
    ∃ page flags pages, s.pages = page :: pages ∧ flags < 4096 ∧ flags % 2 = 1 ∧
      s' = s.addTable e page flags pages := by
  rw [addPageTable] at hadd
  simp only [bind_eq_bind, bind_eq_some_iff] at hadd
  obtain ⟨⟨page, s₁⟩, halloc, s₂, hstore, s₃, hzero, hadd⟩ := hadd
  obtain ⟨pages, hpages, rfl⟩ := pageAlloc_eq_some halloc
  have hflags : perms ||| pageRw < 4096 := Nat.or_lt_two_pow (n := 12) hperms (by decide)
  rw [store_pageDir (s := { s with pages }) h.self_current (by omega), Nat.or_assoc,
    frame_or page hflags] at hstore
  cases hstore
  have hself : SelfMapped (setWord s.mem s.cr3 e (page * 4096 + (perms ||| pageRw))) s.cr3 := by
    rw [SelfMapped, setWord_of_ne _ _ (.inr (by omega))]
    exact h.self_current
  rw [zeroMemory_pageTable hself (by omega)] at hzero
  simp only [setWord_self] at hzero
  split_ifs at hzero with heven
  cases hzero
  rw [if_neg (by omega), show (page * 4096 + (perms ||| pageRw)) / 4096 = page by omega] at hadd
  exact ⟨page, perms ||| pageRw, pages, hpages, hflags, by omega, (some.inj hadd).symm⟩

variable (hholds : Holds s maps)
include hholds

/-- Writing a table entry of the current address space changes this entry only. -/
theorem Layout.holds_setPage (hpage : UserPage page) (hne : s.mem s.cr3 (page / 1024) ≠ 0) (x : ℕ) :
    Holds (s.setPage page x) fun e p => if e = s.cr3 ∧ p = page then x else maps e p := by
  intro d hd p hp
  dsimp only
  obtain ⟨hlow, hhigh⟩ := hpage
  have hdir : (s.setPage page x).mem d = s.mem d := setWord_frame_of_ne _ _ _
    (h.table_ne h.current (by omega) hne (Layout.manager_mem_frames hd))
  rw [← hholds d hd p hp, VirtState.entry, VirtState.entry, pageEntry, hdir]
  by_cases hzero : s.mem d (p / 1024) = 0
  · rw [if_pos hzero, if_pos hzero, if_neg]
    rintro ⟨rfl, rfl⟩
    exact hne hzero
  rw [if_neg hzero, if_neg hzero]
  split_ifs with hsame
  · obtain ⟨rfl, rfl⟩ := hsame
    exact setWord_self _ _ _ _
  · apply setWord_of_ne
    by_contra hword
    rw [not_or, not_not, not_not] at hword
    -- The page table has one owner, so it is the same page.
    obtain ⟨hspace, htable⟩ := eq_of_owner hlow hhigh
      (h.owned d hd _ hp s.cr3 h.current _ (by omega) hzero hne hword.1)
    exact hsame ⟨hspace, by omega⟩

theorem Layout.holds_addPageTable (he : e < 768) (hnone : s.mem s.cr3 e = 0)
    (hperms : perms < 4096) (hadd : addPageTable alloc s e perms = some s') :
    Layout k [] [] s' ∧ Holds s' maps ∧ s'.cr3 = s.cr3 ∧ s'.mem s'.cr3 e ≠ 0 := by
  obtain ⟨page, flags, pages, hpages, hflags, hodd, rfl⟩ := h.addPageTable_user he hperms hadd
  obtain ⟨h₁, -⟩ := h.addTable (by omega) hnone hpages hflags hodd
  refine ⟨h₁.refresh fun hkernel => absurd hkernel (by rw [kernelStart]; omega), ?_, rfl, ?_⟩
  · intro d hd p hp
    rw [h.entry_addTable hnone hpages hd hp hflags, hholds d hd p hp]
  · have hne : s.cr3 ≠ page := fun heq => h.page_notMem hpages
      (heq ▸ mem_append_left _ (mem_append_left _ h.current))
    rw [VirtState.addTable]
    dsimp only
    rw [update_of_ne hne, setWord_self]
    omega

theorem Layout.holds_memMapPage {err : ℤ} (hvirt : UserPage (virt / 4096)) (hperms : perms < 4096)
    (hmap : Virt.virtMemMapPage fuel s virt phys perms = some (err, s')) :
    Holds s' (VirtOp.apply s.cr3 maps (.memMapPage virt phys perms)) := by
  obtain ⟨hlow, hhigh⟩ := id hvirt
  have hentry : pgDirEnt virt = virt / 4096 / 1024 := by rw [pgDirEnt, Nat.div_div_eq_div_mul]
  cases fuel with
  | zero => cases hmap
  | succ fuel =>
    rw [Virt.virtMemMapPage, if_neg (by rw [pageTablesVa]; omega), hentry,
      load_pageDir h.self_current (by omega)] at hmap
    simp only [bind_eq_bind, bind_some] at hmap
    have hadded : ∃ s₁, (Layout k [] [] s₁ ∧ Holds s₁ maps ∧ s₁.cr3 = s.cr3 ∧
        s₁.mem s₁.cr3 (virt / 4096 / 1024) ≠ 0) ∧
        (s₁.store (pageTable (pgTableEnt virt)) (phys ||| perms)).bind
          (fun s => some ((0 : ℤ), s)) = some (err, s') := by
      split_ifs at hmap with hnone
      · obtain ⟨s₁, hs₁, hmap⟩ := bind_eq_some_iff.mp hmap
        exact ⟨s₁, h.holds_addPageTable hholds hhigh hnone hperms hs₁, hmap⟩
      · exact ⟨s, ⟨h, hholds, rfl, hnone⟩, hmap⟩
    obtain ⟨s₁, ⟨h₁, hholds₁, hcr3, hne⟩, hmap⟩ := hadded
    obtain ⟨s₂, hstore, hresult⟩ := bind_eq_some_iff.mp hmap
    cases hresult
    rw [pgTableEnt, store_pageTable h₁.self_current (by omega)
      (h₁.present_current (by omega) hne)] at hstore
    cases hstore
    rw [VirtOp.apply, ← hcr3]
    exact h₁.holds_setPage hholds₁ hvirt hne _

theorem Layout.holds_unmapPhysPage (hvirt : UserPage (virt / 4096))
    (hunmap : Virt.virtUnmapPhysPage s virt = some s') :
    Holds s' (VirtOp.apply s.cr3 maps (.unmapPhysPage virt)) := by
  obtain ⟨hlow, hhigh⟩ := id hvirt
  rw [h.virtUnmapPhysPage_eq (by omega)] at hunmap
  cases hunmap
  split_ifs with hfree
  · intro d hd p hp
    rw [hholds d hd p hp]
    dsimp only [VirtOp.apply]
    split_ifs with hsame
    · obtain ⟨rfl, rfl⟩ := hsame
      rw [← hholds _ hd _ hp, VirtState.entry, ite_eq_left_iff]
      exact fun hne => hfree.resolve_left hne
    · rfl
  · exact h.holds_setPage hholds hvirt (fun hzero => hfree (.inl hzero)) 0

theorem Layout.holds_step (hlegal : op.Legal k s) (huser : op.User)
    (hstep : Virt.virtStep k fuel s op = some s') :
    Layout k [] [] s' ∧ Holds s' (op.apply s.cr3 maps) := by
  have hkernel : ∀ page, UserPage page → ¬ KernelPage k page := by
    rintro page ⟨hlow, hhigh⟩ ⟨-, hpage⟩
    omega
  cases op with
  | setCurrent manager =>
    cases hstep
    cases manager with
    | none => exact ⟨h, hholds⟩
    | some manager => exact ⟨h.setCurrent (hlegal manager rfl), hholds⟩
  | memMapPage virt phys perms =>
    obtain ⟨⟨err, t⟩, hcall, rfl⟩ := map_eq_some_iff.mp hstep
    have hentry : pgDirEnt virt = virt / 4096 / 1024 := by rw [pgDirEnt, Nat.div_div_eq_div_mul]
    refine ⟨(h.virtMemMapPage hlegal.2 (hkernel _ huser) ?_ hcall).1,
      h.holds_memMapPage hholds huser hlegal.2 hcall⟩
    exact fun hhigh => absurd (hentry ▸ huser.2) (by omega)
  | unmapPhysPage virt =>
    have hhigh := huser.2
    exact ⟨(h.virtUnmapPhysPage (by rw [pageTablesVa]; omega) (hkernel _ huser) hstep).1,
      h.holds_unmapPhysPage hholds huser hstep⟩
  | _ => cases huser

end

section

variable (mem : Frames) (himage : BootImage k pages)
  (hreach : Reach (virtStep k fuel) (fun s op => op.Legal k s ∧ op.Safe k s)
    (bootState k mem pages) s)
include himage hreach

/-- After safe calls, no frame in use as a page table is handed out again or is
a page directory, and no other entry names a page table of a user part. -/
theorem page_tables_private :
    (∀ d ∈ s.managerList, ∀ i < 1023, s.mem d i ≠ 0 →
      s.mem d i / 4096 ∉ s.pages ∧ s.mem d i / 4096 ∉ s.managerList) ∧
    ∀ d ∈ s.managerList, ∀ i, 0 < i → i < 768 → s.mem d i ≠ 0 →
      ∀ e ∈ s.managerList, ∀ j < 1023, s.mem e j ≠ 0 → s.mem e j / 4096 = s.mem d i / 4096 →
        e = d ∧ j = i := by
  have h := layout_of_reach mem himage hreach
  constructor
  · intro d hd i hi hne
    have htable := h.table d hd i hi hne
    simp only [VirtState.frames, mem_append, not_or] at htable
    exact ⟨htable.1.2, htable.1.1⟩
  · intro d hd i hlow hhigh hne e he j hj hne' hframe
    exact eq_of_owner hlow hhigh (h.owned e he j hj d hd i (by omega) hne' hne hframe)

/-- In every state reached by safe calls, and after any further calls on the
user parts, each address space has exactly the mappings that were made in it:
a call changes one entry of the current address space and nothing elsewhere. -/
theorem user_mappings_refine {t : VirtState}
    (hrun : Reach (mapsStep k fuel) (fun st op => op.Legal k st.1 ∧ op.User) (s, s.entry)
      (t, maps)) : Holds t maps := by
  suffices hinv : ∀ st, Reach (mapsStep k fuel) (fun st op => op.Legal k st.1 ∧ op.User)
      (s, s.entry) st → Layout k [] [] st.1 ∧ Holds st.1 st.2 from (hinv _ hrun).2
  intro st hst
  induction hst with
  | refl => exact ⟨layout_of_reach mem himage hreach, fun _ _ _ _ => rfl⟩
  | tail op _ hguard hstep ih =>
    obtain ⟨s', hs', rfl⟩ := map_eq_some_iff.mp hstep
    exact ih.1.holds_step ih.2 hguard.1 hguard.2 hs'

end

/-- A second address space is made, and a page is mapped in it at 4 MB, in a new page
table. -/
theorem exampleState_mapped :
    ∃ s₁ s₂ t, virtStep 300 8 exampleState (.memManagerSetup true) = some s₁ ∧
      virtStep 300 8 s₁ (.setCurrent (some 6000)) = some s₂ ∧
      virtStep 300 8 s₂ (.memMapPage 0x400000 0x500000 7) = some t ∧
      (s₁.managerList, t.managerList, t.mem 6000 1, t.entry 6000 1024, t.entry 300 1024) =
        ([300, 6000], [300, 6000], 6002 * 4096 + 7, 0x500007, 0) := by
  have hrun : ((virtStep 300 8 exampleState (.memManagerSetup true)).bind fun s₁ =>
      (virtStep 300 8 s₁ (.setCurrent (some 6000))).bind fun s₂ =>
        (virtStep 300 8 s₂ (.memMapPage 0x400000 0x500000 7)).map fun t =>
          (s₁.managerList, t.managerList, t.mem 6000 1, t.entry 6000 1024, t.entry 300 1024)) =
      some ([300, 6000], [300, 6000], 6002 * 4096 + 7, 0x500007, 0) := by decide +kernel
  obtain ⟨s₁, h₁, hrun⟩ := bind_eq_some_iff.mp hrun
  obtain ⟨s₂, h₂, hrun⟩ := bind_eq_some_iff.mp hrun
  obtain ⟨t, h₃, hvalues⟩ := map_eq_some_iff.mp hrun
  exact ⟨s₁, s₂, t, h₁, h₂, h₃, hvalues⟩

theorem page_tables_private_two :
    ∃ t, Reach (virtStep 300 8) (fun s op => op.Legal 300 s ∧ op.Safe 300 s) exampleState t ∧
      t.mem 6000 1 / 4096 = 6002 ∧ 6002 ∉ t.pages ∧ 6002 ∉ t.managerList := by
  obtain ⟨s₁, s₂, t, h₁, h₂, h₃, hvalues⟩ := exampleState_mapped
  simp only [Prod.mk.injEq] at hvalues
  obtain ⟨hlist, hlist', hentry, -⟩ := hvalues
  have hreach : Reach (virtStep 300 8) (fun s op => op.Legal 300 s ∧ op.Safe 300 s)
      exampleState t :=
    .tail (.memMapPage 0x400000 0x500000 7)
      (.tail (.setCurrent (some 6000)) (.tail (.memManagerSetup true) .refl ⟨trivial, trivial⟩ h₁)
        ⟨by simp [VirtOp.Legal, hlist], trivial⟩ h₂)
      ⟨⟨by decide, by decide⟩, by unfold KernelPage; decide, fun h => absurd h (by decide)⟩ h₃
  have htable := (page_tables_private _ exampleState_image hreach).1 6000 (by simp [hlist'])
    1 (by decide) (by rw [hentry]; decide)
  rw [hentry] at htable
  exact ⟨t, hreach, by rw [hentry], htable⟩

/-- The page is mapped in the second address space alone. -/
theorem user_mappings_refine_two :
    ∃ s t maps, Reach (mapsStep 300 8) (fun st op => op.Legal 300 st.1 ∧ op.User)
        (s, s.entry) (t, maps) ∧ t.managerList = [300, 6000] ∧
      t.entry 6000 1024 = 0x500007 ∧ t.entry 300 1024 = 0 ∧ Holds t maps := by
  obtain ⟨s₁, s₂, t, h₁, h₂, h₃, hvalues⟩ := exampleState_mapped
  simp only [Prod.mk.injEq] at hvalues
  obtain ⟨hlist, hlist', -, hmapped, hother⟩ := hvalues
  have hreach : Reach (virtStep 300 8) (fun s op => op.Legal 300 s ∧ op.Safe 300 s)
      exampleState s₁ := .tail (.memManagerSetup true) .refl ⟨trivial, trivial⟩ h₁
  have hswitch : mapsStep 300 8 (s₁, s₁.entry) (.setCurrent (some 6000)) = some (s₂, s₁.entry) := by
    rw [mapsStep, h₂]
    rfl
  have hmap := congrArg (Option.map fun t => (t,
    (VirtOp.memMapPage 0x400000 0x500000 7).apply s₂.cr3 s₁.entry)) h₃
  have hrun : Reach (mapsStep 300 8) (fun st op => op.Legal 300 st.1 ∧ op.User)
      (s₁, s₁.entry) _ :=
    .tail (.memMapPage 0x400000 0x500000 7)
      (.tail (.setCurrent (some 6000)) .refl ⟨by simp [VirtOp.Legal, hlist], trivial⟩ hswitch)
      ⟨⟨by decide, by decide⟩, by decide, by decide⟩ hmap
  exact ⟨s₁, t, _, hrun, hlist', hmapped, hother,
    user_mappings_refine (fun _ _ => 0) exampleState_image hreach hrun⟩

end Whitix.Virt
