import Whitix.Arch.I386.Virt.Spaces
import Whitix.Support.Run

/-!
# Runs of the address space functions

The page directories of all address spaces agree on the kernel's part after any
sequence of calls, as long as no call takes away the means by which new page
tables are entered everywhere: the page directories themselves, the page that
shows the kernel's page directory, and a page for temporary mappings.
-/

namespace Whitix.Virt

open Support List Option Prod

/-! ## The boot state -/

variable {i k : ℕ} {s : VirtState}

section

variable (k : ℕ) (mem : Frames) (s : VirtState)

/-- The words of the boot page directory and its five page tables, which map
the first 20 megabytes but for the first page.  They lie in consecutive
frames. -/
def bootMem : Frames := fun frame i =>
  if frame = k then
    if i = 0 then (k + 1) * 4096 + 3
    else if 768 ≤ i ∧ i < 773 then (k + 1 + (i - 768)) * 4096 + 3
    else if i = 1023 then k * 4096 + 3
    else 0
  else if k < frame ∧ frame ≤ k + 5 then
    if frame = k + 1 ∧ i = 0 then 0
    else ((frame - (k + 1)) * 1024 + i) * 4096 + 3
  else mem frame i

def bootState (pages : List ℕ) : VirtState where
  mem := bootMem k mem
  cr3 := k
  managerList := [k]
  pages := pages

/-- The kernel image lies in the first four megabytes, and its frames are not
handed out. -/
structure BootImage (k : ℕ) (pages : List ℕ) : Prop where
  low : 0 < k ∧ k + 5 < 1024
  nodup : pages.Nodup
  image : ∀ page ∈ pages, page < k ∨ k + 5 < page

theorem bootMem_dir (hi : i < 1023) (hne : bootMem k mem k i ≠ 0) :
    ∃ j, j < 5 ∧ bootMem k mem k i = (k + 1 + j) * 4096 + 3 ∧ owner k k i = (k, 768 + j) := by
  rw [bootMem, if_pos rfl] at hne ⊢
  by_cases hzero : i = 0
  · refine ⟨0, by omega, ?_, ?_⟩
    · rw [if_pos hzero]
    · rw [owner, if_pos hzero]
  · rw [if_neg hzero] at hne ⊢
    by_cases htable : 768 ≤ i ∧ i < 773
    · refine ⟨i - 768, by omega, if_pos htable, ?_⟩
      rw [owner, if_neg hzero, if_neg (by omega), show 768 + (i - 768) = i by omega]
    · rw [if_neg htable, if_neg (by omega)] at hne
      exact absurd rfl hne

theorem boot_layout {k : ℕ} {pages : List ℕ} (himage : BootImage k pages)
    (mem : Frames) : Layout k [] [] (bootState k mem pages) := by
  have hlow := himage.low
  have hframes : ∀ f ∈ (bootState k mem pages).frames [], f ≤ k ∨ k + 5 < f := by
    intro f hf
    rw [VirtState.frames, append_nil] at hf
    rcases mem_append.mp hf with hf | hf
    · obtain rfl : f = k := by simpa [bootState] using hf
      exact .inl (le_refl f)
    · exact (himage.image f hf).imp_left le_of_lt
  have honly : ∀ d ∈ (bootState k mem pages).managerList, d = k :=
    fun d hd => by simpa [bootState] using hd
  refine {
    current := mem_singleton_self k
    kernel := mem_singleton_self k
    distinct := ?_
    self := fun d hd => ?_
    first := fun d hd => ?_
    identity := ?_
    agree := fun d hd i _ _ _ => ?_
    present := fun d hd i hi hne => ?_
    table := fun d hd i hi hne hmem => ?_
    owned := fun d hd i hi e he j hj hne hne' heq => ?_ }
  · rw [VirtState.frames, append_nil]
    refine nodup_cons.mpr ⟨fun hk => ?_, himage.nodup⟩
    have hout := himage.image k hk
    omega
  · rw [honly d hd, SelfMapped]
    simp [bootState, bootMem]
  · rw [honly d hd]
    simp [bootState, bootMem]
  · show bootMem k mem (k + 1) k = _
    rw [bootMem, if_neg (by omega), if_pos (by omega), if_neg (by omega)]
    omega
  · rw [honly d hd]
    rfl
  · obtain rfl := honly d hd
    obtain ⟨l, hl, heq, -⟩ := bootMem_dir d mem hi hne
    show bootMem d mem d i % 2 = 1
    omega
  · obtain rfl := honly d hd
    obtain ⟨l, hl, heq, -⟩ := bootMem_dir d mem hi hne
    have hout := hframes _ hmem
    change bootMem d mem d i / 4096 ≤ d ∨ d + 5 < bootMem d mem d i / 4096 at hout
    omega
  · obtain rfl := honly d hd
    obtain rfl := honly e he
    obtain ⟨l, hl, hentry, howner⟩ := bootMem_dir e mem hi hne
    obtain ⟨l', hl', hentry', howner'⟩ := bootMem_dir e mem hj hne'
    change bootMem e mem e i / 4096 = bootMem e mem e j / 4096 at heq
    rw [howner, howner']
    congr 1
    omega

/-! ## Operations -/

inductive VirtOp where
  | memManagerSetup (allocated : Bool)
  | destroyMemManager (current : Option ℕ) (manager : ℕ)
  | setCurrent (manager : Option ℕ)
  | memMapPage (virt phys perms : ℕ)
  | mapPhysPage (virt endVirt perms : ℕ)
  | mapPhysRange (virt endVirt numPages perms : ℕ)
  | allocateTemp (phys : ℕ)
  | unmapPhysPage (virt : ℕ)

/-- A call that returns, with a bound on its loops and its depth. -/
def virtStep (k fuel : ℕ) (s : VirtState) : VirtOp → Option VirtState
  | .memManagerSetup allocated =>
    (virtMemManagerSetup k fuel s allocated).map snd
  | .destroyMemManager current manager =>
    (virtDestroyMemManager k fuel s current manager).map snd
  | .setCurrent manager => some (virtSetCurrent s manager).2
  | .memMapPage virt phys perms =>
    (virtMemMapPage fuel s virt phys perms).map snd
  | .mapPhysPage virt endVirt perms =>
    (virtMapPhysPage fuel s virt endVirt perms).map snd
  | .mapPhysRange virt endVirt numPages perms =>
    (virtMapPhysRange fuel s virt endVirt numPages perms).map snd
  | .allocateTemp phys => (virtAllocateTemp fuel s phys).map snd
  | .unmapPhysPage virt => virtUnmapPhysPage s virt

/-- Addresses are double words, permissions are the flags of an entry, and a
manager is in the list.  The kernel's own is never destroyed. -/
def VirtOp.Legal : VirtOp → Prop
  | .memManagerSetup _ => True
  | .destroyMemManager _ manager => manager ∈ s.managerList ∧ manager ≠ k
  | .setCurrent manager => ∀ m ∈ manager, m ∈ s.managerList
  | .memMapPage virt _ perms => virt < 4294967296 ∧ perms < 4096
  | .mapPhysPage virt _ perms => virt < 4294967296 ∧ perms < 4096
  | .mapPhysRange virt _ _ perms => virt < 4294967296 ∧ perms < 4096
  | .allocateTemp _ => True
  | .unmapPhysPage virt => virt < 4294967296

/-- The call leaves the page directories and the way to reach them alone. -/
def VirtOp.Safe : VirtOp → Prop
  | .memManagerSetup _ => True
  | .destroyMemManager current manager =>
    TempFree s ∧ (current = some manager ∨ s.cr3 ≠ manager)
  | .setCurrent _ => True
  | .memMapPage virt _ _ =>
    ¬ KernelPage k (virt / 4096) ∧ (768 ≤ pgDirEnt virt → TempFree s)
  | .mapPhysPage _ _ _ => TempFree s
  | .mapPhysRange virt endVirt _ _ => TempFree s ∧ OutsideTemp virt endVirt
  | .allocateTemp _ => True
  | .unmapPhysPage virt =>
    virt < pageTablesVa ∧ ¬ KernelPage k (virt / 4096)

theorem Layout.virtStep {k fuel : ℕ} {s s' : VirtState} (hk : k < 1024) (h : Layout k [] [] s)
    {op : VirtOp} (hlegal : op.Legal k s) (hsafe : op.Safe k s)
    (hstep : virtStep k fuel s op = some s') : Layout k [] [] s' := by
  cases op with
  | memManagerSetup allocated =>
    obtain ⟨⟨err, t⟩, hcall, rfl⟩ := map_eq_some_iff.mp hstep
    rw [virtMemManagerSetup] at hcall
    split_ifs at hcall
    · exact h.virtMemManagerInit hk hcall
    · cases hcall
      exact h
  | destroyMemManager current manager =>
    obtain ⟨⟨err, t⟩, hcall, rfl⟩ := map_eq_some_iff.mp hstep
    exact h.virtDestroyMemManager hlegal.1 hlegal.2 hsafe.2 hsafe.1 hcall
  | setCurrent manager =>
    cases hstep
    cases manager with
    | none => exact h
    | some manager => exact h.setCurrent (hlegal manager rfl)
  | memMapPage virt phys perms =>
    obtain ⟨⟨err, t⟩, hcall, rfl⟩ := map_eq_some_iff.mp hstep
    exact (h.virtMemMapPage hlegal.2 hsafe.1 hsafe.2 hcall).1
  | mapPhysPage virt endVirt perms =>
    obtain ⟨⟨va, t⟩, hcall, rfl⟩ := map_eq_some_iff.mp hstep
    exact h.virtMapPhysPage hlegal.1 hlegal.2 hsafe hcall
  | mapPhysRange virt endVirt numPages perms =>
    obtain ⟨⟨va, t⟩, hcall, rfl⟩ := map_eq_some_iff.mp hstep
    exact h.virtMapPhysRange hlegal.1 hlegal.2 hsafe.1 hsafe.2 hcall
  | allocateTemp phys =>
    obtain ⟨⟨va, t⟩, hcall, rfl⟩ := map_eq_some_iff.mp hstep
    rcases MapSpec.allocateTemp (virtMemMapPage_spec k fuel) h hcall with
      ⟨-, rfl, -⟩ | ⟨page, -, -, h', -, -⟩
    · exact h
    · exact h'
  | unmapPhysPage virt => exact (h.virtUnmapPhysPage hsafe.1 hsafe.2 hstep).1

/-! ## The result -/

/-- The page directories of all managers have the kernel's entries 768 to
1019. -/
def KernelHalfAgrees : Prop :=
  ∀ d ∈ s.managerList, ∀ i, 768 ≤ i → i < 1020 → s.mem d i = s.mem k i

end

theorem Layout.kernelHalfAgrees (h : Layout k [] [] s) : KernelHalfAgrees k s := by
  intro d hd i hlow hhigh
  rw [h.agree d hd i hlow hhigh (by simp), h.agree k h.kernel i hlow hhigh (by simp)]

theorem layout_of_reach {fuel : ℕ} {pages : List ℕ} (mem : Frames) (himage : BootImage k pages)
    (hreach : Reach (virtStep k fuel) (fun s op => op.Legal k s ∧ op.Safe k s)
      (bootState k mem pages) s) : Layout k [] [] s := by
  have hlow := himage.low
  apply hreach.invariant (boot_layout himage mem)
  intro t op t' ht hguard hstep
  exact ht.virtStep (by omega) hguard.1 hguard.2 hstep

/-- All address spaces agree on the kernel's part after every sequence of safe
calls. -/
theorem kernel_half_agrees (k fuel : ℕ) (mem : Frames) (pages : List ℕ)
    (himage : BootImage k pages) (s : VirtState)
    (hreach : Reach (virtStep k fuel)
      (fun s op => op.Legal k s ∧ op.Safe k s) (bootState k mem pages) s) :
    KernelHalfAgrees k s :=
  (layout_of_reach mem himage hreach).kernelHalfAgrees

/-! ## Two runs -/

def exampleState : VirtState :=
  bootState 300 (fun _ _ => 0) [6000, 6001, 6002]

theorem exampleState_image : BootImage 300 [6000, 6001, 6002] :=
  ⟨by decide, by decide, by decide⟩

theorem exampleState_setup :
    ∃ s, virtStep 300 8 exampleState (.memManagerSetup true) = some s ∧
      s.managerList = [300, 6000] := by
  have hsetup : (virtStep 300 8 exampleState (.memManagerSetup true)).map VirtState.managerList =
      some [300, 6000] := by decide +kernel
  exact map_eq_some_iff.mp hsetup

theorem kernel_half_agrees_two :
    ∃ s, Reach (virtStep 300 8) (fun s op => op.Legal 300 s ∧ op.Safe 300 s) exampleState s ∧
      s.managerList = [300, 6000] ∧ s.cr3 = 6000 ∧ KernelHalfAgrees 300 s := by
  obtain ⟨s, hsetup, hlist⟩ := exampleState_setup
  have hreach : Reach (virtStep 300 8) (fun s op => op.Legal 300 s ∧ op.Safe 300 s) exampleState
      { s with cr3 := 6000 } := by
    refine Reach.tail (.setCurrent (some 6000))
      (Reach.tail (.memManagerSetup true) Reach.refl ⟨trivial, trivial⟩ hsetup)
      ⟨?_, trivial⟩ rfl
    simp [VirtOp.Legal, hlist]
  exact ⟨_, hreach, hlist, rfl, kernel_half_agrees 300 8 _ _ exampleState_image _ hreach⟩

/-- A page of the space where the page tables are visible is unmapped: the page table of
the kernel's first four megabytes disappears from the second address space only. -/
theorem unmap_page_table_disagrees :
    ∃ s, Reach (virtStep 300 8) (fun s op => op.Legal 300 s) exampleState s ∧
      ¬ KernelHalfAgrees 300 s := by
  have hrun : ((virtStep 300 8 exampleState (.memManagerSetup true)).bind fun s =>
      (virtStep 300 8 { s with cr3 := 6000 } (.unmapPhysPage (pageTablesVa + 768 * 4096))).map
        fun s' => (s.managerList, s'.managerList, s'.mem 6000 768, s'.mem 300 768 == 0)) =
      some ([300, 6000], [300, 6000], 0, false) := by decide +kernel
  obtain ⟨s, hsetup, hrun⟩ := bind_eq_some_iff.mp hrun
  obtain ⟨s', hunmap, hvalues⟩ := map_eq_some_iff.mp hrun
  simp only [mk.injEq, beq_eq_false_iff_ne] at hvalues
  obtain ⟨hlist, hlist', hgone, hkept⟩ := hvalues
  refine ⟨s', Reach.tail (.unmapPhysPage (pageTablesVa + 768 * 4096))
    (Reach.tail (.setCurrent (some 6000))
      (Reach.tail (.memManagerSetup true) Reach.refl trivial hsetup) ?_ rfl) ?_ hunmap, fun h => ?_⟩
  · simp [VirtOp.Legal, hlist]
  · exact show pageTablesVa + 768 * 4096 < 4294967296 by decide
  · exact hkept ((h 6000 (by simp [hlist']) 768 le_rfl (by decide)).symm.trans hgone)

end Whitix.Virt
