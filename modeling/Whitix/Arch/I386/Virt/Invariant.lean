import Mathlib.Data.List.Nodup
import Whitix.Arch.I386.Virt.Model

/-!
# The layout of the address spaces

All page directories of `managerList` share the page tables of the kernel, have
page tables of their own for the lower part, and map themselves.  While a new
kernel page table is being entered in the directories, its entry is *stale* in
some of them; entering it may need another page table, so that there can be
several such entries.
-/

namespace Whitix.Virt

open Support List Option

/-- Who owns the page table of an entry: the kernel, or one page directory.
Entry 0 shows the first page table of the kernel. -/
def owner (k d i : ℕ) : ℕ × ℕ :=
  if i = 0 then (k, 768) else if i < 768 then (d, i) else (k, i)

theorem owner_snd (k d i : ℕ) : (owner k d i).2 = if i = 0 then 768 else i := by
  rw [owner]
  split_ifs
  · rfl
  · rfl
  · rfl

/-- All frames whose use is known, apart from page tables: page directories,
frames to hand out, and reserved ones. -/
def VirtState.frames (s : VirtState) (reserved : List ℕ) : List ℕ :=
  s.managerList ++ s.pages ++ reserved

/-- The layout, with the page directory `k` of the kernel, the entries that are
stale and the frames that are reserved. -/
structure Layout (k : ℕ) (stale reserved : List ℕ) (s : VirtState) : Prop where
  current : s.cr3 ∈ s.managerList
  kernel : k ∈ s.managerList
  distinct : (s.frames reserved).Nodup
  self : ∀ d ∈ s.managerList, SelfMapped s.mem d
  first : ∀ d ∈ s.managerList, s.mem d 0 = (k + 1) * 4096 + 3 ∧ s.mem d 768 = (k + 1) * 4096 + 3
  /-- The kernel's page directory is visible at its physical address. -/
  identity : s.mem (k + 1) k = k * 4096 + 3
  agree : ∀ d ∈ s.managerList, ∀ i, kernelStart ≤ i → i < kernelEnd →
    i ∉ stale → s.mem d i = s.mem s.cr3 i
  present : ∀ d ∈ s.managerList, ∀ i < 1023, s.mem d i ≠ 0 → s.mem d i % 2 = 1
  table : ∀ d ∈ s.managerList, ∀ i < 1023, s.mem d i ≠ 0 → s.mem d i / 4096 ∉ s.frames reserved
  owned : ∀ d ∈ s.managerList, ∀ i < 1023, ∀ e ∈ s.managerList, ∀ j < 1023,
    s.mem d i ≠ 0 → s.mem e j ≠ 0 → s.mem d i / 4096 = s.mem e j / 4096 → owner k d i = owner k e j

/-- The pages that show the kernel's page directory through the first page
table of the kernel. -/
def KernelPage (k page : ℕ) : Prop :=
  page % 1024 = k ∧ (page / 1024 = 0 ∨ page / 1024 = 768)

def VirtState.FreePage (s : VirtState) (page : ℕ) : Prop :=
  s.mem s.cr3 (page / 1024) = 0 ∨ pageEntry s.mem s.cr3 page = 0
  deriving Decidable

def VirtState.setPage (s : VirtState) (page x : ℕ) : VirtState :=
  { s with
    mem := setWord s.mem (s.mem s.cr3 (page / 1024) / 4096) (page % 1024) x }

/-! ## Access to the current page directory and its tables -/

variable {i page d e : ℕ}

section Access

variable {s : VirtState}

section

variable (hself : SelfMapped s.mem s.cr3)
include hself

theorem load_pageDir (hi : i < 1024) : s.load (pageDir i) = some (s.mem s.cr3 i) := by
  rw [VirtState.load, pageDir, pageDirVa, hself.translate_dir hi]
  rfl

theorem store_pageDir (hi : i < 1024) (x : ℕ) :
    s.store (pageDir i) x = some { s with mem := setWord s.mem s.cr3 i x } := by
  rw [VirtState.store, pageDir, pageDirVa, hself.translate_dir hi]
  rfl

section

variable (hpage : page < 1048576) (hpresent : s.mem s.cr3 (page / 1024) % 2 = 1)
include hpage hpresent

theorem load_pageTable : s.load (pageTable page) = some (pageEntry s.mem s.cr3 page) := by
  rw [VirtState.load, pageTable, pageTablesVa, hself.translate_table hpage, if_neg (by omega)]
  rfl

theorem store_pageTable (x : ℕ) : s.store (pageTable page) x = some (s.setPage page x) := by
  rw [VirtState.store, pageTable, pageTablesVa, hself.translate_table hpage, if_neg (by omega)]
  rfl

end

theorem zeroMemory_pageTable (hi : i < 1024) :
    s.zeroMemory (pageTable (i * 1024)) = if s.mem s.cr3 i % 2 = 0 then none
      else
        some { s with
          mem := Function.update s.mem (s.mem s.cr3 i / 4096) fun _ => 0 } := by
  have hentry : i * 1024 / 1024 = i := by omega
  rw [VirtState.zeroMemory, pageTable, pageTablesVa, hself.translate_table (by omega), hentry]
  split_ifs
  · rfl
  · rfl

end

end Access

/-! ## Facts about the layout -/

namespace Layout

variable {k : ℕ} {stale reserved : List ℕ} {s : VirtState}

section

variable (h : Layout k stale reserved s)
include h

theorem self_current : SelfMapped s.mem s.cr3 :=
  h.self s.cr3 h.current

theorem present_current (hi : i < 1024) (hne : s.mem s.cr3 i ≠ 0) : s.mem s.cr3 i % 2 = 1 := by
  by_cases hlast : i = 1023
  · rw [hlast]
    exact h.self_current.present
  · exact h.present s.cr3 h.current i (by omega) hne

theorem notUsed_eq {va : ℕ} (hva : va < 4294967296) :
    notUsed s va = some (decide (s.FreePage (va / 4096))) := by
  have hentry : va / 4096 / 1024 = va / 4194304 := Nat.div_div_eq_div_mul ..
  rw [notUsed, pgDirEnt, load_pageDir h.self_current (by omega)]
  simp only [bind_eq_bind, bind_some]
  by_cases hzero : s.mem s.cr3 (va / 4194304) = 0
  · have hfree : s.FreePage (va / 4096) := .inl (by rw [hentry]; exact hzero)
    rw [if_pos hzero, decide_eq_true hfree]
  · have hpresent := h.present_current (by omega) hzero
    rw [if_neg hzero, pgTableEnt, load_pageTable h.self_current (by omega)
      (by rw [hentry]; exact hpresent)]
    simp only [bind_some, VirtState.FreePage, hentry, hzero, false_or]

theorem table_ne (hd : d ∈ s.managerList) (hi : i < 1023) (hne : s.mem d i ≠ 0)
    (he : e ∈ s.frames reserved) : e ≠ s.mem d i / 4096 := by
  intro heq
  exact h.table d hd i hi hne (heq ▸ he)

end

theorem manager_mem_frames (hd : d ∈ s.managerList) : d ∈ s.frames reserved := by
  exact mem_append_left _ (mem_append_left _ hd)

theorem reserved_mem_frames {f : ℕ} (hf : f ∈ reserved) : f ∈ s.frames reserved := by
  exact mem_append_right _ hf

theorem congr_dirs (h : Layout k stale reserved s) (mem : Frames)
    (hdirs : ∀ d ∈ s.managerList, mem d = s.mem d) (hidentity : mem (k + 1) k = s.mem (k + 1) k) :
    Layout k stale reserved { s with mem } := { h with
  self d hd := by
    rw [SelfMapped]
    dsimp only
    rw [hdirs d hd]
    exact h.self d hd
  first d hd := by
    dsimp only
    rw [hdirs d hd]
    exact h.first d hd
  identity := hidentity.trans h.identity
  agree d hd := by
    dsimp only
    rw [hdirs d hd, hdirs s.cr3 h.current]
    exact h.agree d hd
  present d hd := by
    dsimp only
    rw [hdirs d hd]
    exact h.present d hd
  table d hd := by
    dsimp only
    rw [hdirs d hd]
    exact h.table d hd
  owned d hd i hi e he j hj := by
    dsimp only
    rw [hdirs d hd, hdirs e he]
    exact h.owned d hd i hi e he j hj }

theorem weaken (h : Layout k stale reserved s) {stale' : List ℕ}
    (hsub : ∀ i ∈ stale, i ∈ stale') : Layout k stale' reserved s :=
  { h with
    agree := fun d hd i hlow hhigh hstale =>
      h.agree d hd i hlow hhigh fun hi => hstale (hsub i hi) }

theorem refresh (h : Layout k (e :: stale) reserved s)
    (he : kernelStart ≤ e → ∀ d ∈ s.managerList, s.mem d e = s.mem s.cr3 e) :
    Layout k stale reserved s :=
  { h with
    agree := fun d hd i hlow hhigh hstale => by
      by_cases hie : i = e
      · rw [hie]
        exact he (hie ▸ hlow) d hd
      · exact h.agree d hd i hlow hhigh (by simp [hie, hstale]) }

section

variable (h : Layout k stale reserved s)
include h

theorem entry_of_first (hd : d ∈ s.managerList) (hi : i < 1023) (hne : s.mem d i ≠ 0)
    (hframe : s.mem d i / 4096 = k + 1) : i = 0 ∨ i = 768 := by
  have hfirst := (h.first k h.kernel).2
  have howner := h.owned d hd i hi k h.kernel 768 (by omega) hne (by omega) (by omega)
  have hentry := congrArg Prod.snd howner
  rw [owner_snd, owner_snd, if_neg (by omega : ¬ 768 = 0)] at hentry
  split_ifs at hentry with hzero
  · exact .inl hzero
  · exact .inr hentry

theorem first_notMem_frames : k + 1 ∉ s.frames reserved := by
  have hfirst := (h.first k h.kernel).2
  have htable := h.table k h.kernel 768 (by omega) (by omega)
  rwa [hfirst, show ((k + 1) * 4096 + 3) / 4096 = k + 1 by omega] at htable

theorem setPage (hpage : page / 1024 < 1023) (hne : s.mem s.cr3 (page / 1024) ≠ 0)
    (hkernel : ¬ KernelPage k page) (x : ℕ) : Layout k stale reserved (s.setPage page x) := by
  apply h.congr_dirs
  · intro d hd
    exact setWord_frame_of_ne _ _ _ (h.table_ne h.current hpage hne (manager_mem_frames hd))
  · apply setWord_of_ne
    by_cases hframe : k + 1 = s.mem s.cr3 (page / 1024) / 4096
    · have hentry := h.entry_of_first h.current hpage hne hframe.symm
      exact .inr fun hword => hkernel ⟨hword.symm, hentry⟩
    · exact .inl hframe

/-- An entry of one page directory changes.  It becomes stale, and the page
table it names belongs to this entry. -/
theorem setDirEntry {x : ℕ} {mem : Frames} {pages : List ℕ} (he : e < 1023) (hzero : e ≠ 0)
    (hkernel : e ≠ 768)
    (hdirs : ∀ c ∈ s.managerList, ∀ i, mem c i = if c = d ∧ i = e then x else s.mem c i)
    (hidentity : mem (k + 1) k = s.mem (k + 1) k)
    (hpages : pages.Sublist s.pages) (hpresent : x % 2 = 1)
    (htable : x / 4096 ∉ s.managerList ++ pages ++ reserved)
    (howned : ∀ c ∈ s.managerList, ∀ i < 1023, s.mem c i ≠ 0 →
      s.mem c i / 4096 = x / 4096 → owner k c i = owner k d e) :
    Layout k (e :: stale) reserved { s with mem, pages } := by
  have hsub : (s.managerList ++ pages ++ reserved).Sublist (s.frames reserved) :=
    List.Sublist.append_right (List.Sublist.append_left hpages _) _
  have hother : ∀ c ∈ s.managerList, ∀ i, i ≠ e → mem c i = s.mem c i := by
    intro c hc i hie
    rw [hdirs c hc, if_neg fun hand => hie hand.2]
  refine { h with
    distinct := h.distinct.sublist hsub
    self := fun c hc => ?_
    first := fun c hc => ?_
    identity := hidentity.trans h.identity
    agree := fun c hc i hlow hhigh hstale => ?_
    present := fun c hc i hi hne => ?_
    table := fun c hc i hi hne => ?_
    owned := fun c hc i hi c' hc' j hj hne hne' heq => ?_ }
  · rw [SelfMapped]
    dsimp only
    rw [hother c hc 1023 (by omega)]
    exact h.self c hc
  · dsimp only
    rw [hother c hc 0 hzero.symm, hother c hc 768 hkernel.symm]
    exact h.first c hc
  · have hie : i ≠ e := fun hie => hstale (by simp [hie])
    dsimp only
    rw [hother c hc i hie, hother s.cr3 h.current i hie]
    exact h.agree c hc i hlow hhigh fun hi => hstale (by simp [hi])
  · dsimp only at hne ⊢
    rw [hdirs c hc] at hne ⊢
    split_ifs at hne ⊢
    · exact hpresent
    · exact h.present c hc i hi hne
  · dsimp only [VirtState.frames] at hne ⊢
    rw [hdirs c hc] at hne ⊢
    split_ifs at hne ⊢
    · exact htable
    · exact fun hmem => h.table c hc i hi hne (hsub.subset hmem)
  · dsimp only at hne hne' heq
    rw [hdirs c hc] at hne heq
    rw [hdirs c' hc'] at hne' heq
    split_ifs at hne hne' heq with hnew hnew' hnew'
    · rw [hnew.1, hnew.2, hnew'.1, hnew'.2]
    · rw [hnew.1, hnew.2]
      exact (howned c' hc' j hj hne' heq.symm).symm
    · rw [hnew'.1, hnew'.2]
      exact howned c hc i hi hne heq
    · exact h.owned c hc i hi c' hc' j hj hne hne' heq

end

end Layout

end Whitix.Virt
