import Whitix.Arch.I386.Virt.MapPage

/-!
# Mapping pages in a range

`VirtMapPhysPage` and `VirtMapPhysRange` look for pages that are not used.  So
they never touch the page that shows the kernel's page directory.
-/

namespace Whitix.Virt

open Support Option Nat

variable {k : ℕ} {stale reserved : List ℕ} {s s' : VirtState}

variable {fuel page endVirt perms : ℕ}

section

variable (h : Layout k stale reserved s)
include h

theorem Layout.shows_kernel (hpage : KernelPage k page) : Shows s page k := by
  have hfirst := h.first s.cr3 h.current
  have hdir : s.mem s.cr3 (page / 1024) = (k + 1) * 4096 + 3 := by
    rcases hpage.2 with hentry | hentry
    · rw [hentry]
      exact hfirst.1
    · rw [hentry]
      exact hfirst.2
  constructor
  · omega
  · rw [pageEntry, hdir, hpage.1, show ((k + 1) * 4096 + 3) / 4096 = k + 1 by omega]
    exact h.identity

theorem Layout.not_kernelPage (hfree : s.FreePage page) : ¬ KernelPage k page := by
  intro hpage
  obtain ⟨hdir, hentry⟩ := h.shows_kernel hpage
  rcases hfree with hzero | hzero
  · omega
  · omega

theorem Layout.pageAlloc (halloc : pageAlloc s = some (page, s')) :
    Layout k stale reserved s' ∧ Evolves none s s' := by
  obtain ⟨pages, hpages, rfl⟩ := pageAlloc_eq_some halloc
  have hsub : (s.managerList ++ pages ++ reserved).Sublist (s.frames reserved) := by
    rw [VirtState.frames, hpages]
    exact List.Sublist.append_right
      (List.Sublist.append_left (List.sublist_cons_self page pages) _) _
  constructor
  · exact { h with
      distinct := h.distinct.sublist hsub
      table := fun d hd i hi hne hmem =>
        h.table d hd i hi hne (hsub.subset hmem) }
  · exact ⟨rfl, rfl, fun _ _ _ _ => .inl rfl, fun _ _ _ hfree => hfree⟩

/-! ## `VirtMapPhysPage` -/

theorem Layout.mapPhysPageLoop {i : ℕ} (hperms : perms < 4096) (htemp : TempFree s) :
    ∀ {n va : ℕ}, va < 4294967296 → mapPhysPageLoop fuel page endVirt perms n s va = some (i, s') →
      Layout k stale reserved s' := by
  intro n
  induction n with
  | zero => intro va _ hloop; cases hloop
  | succ n ih =>
    intro va hva hloop
    rw [Virt.mapPhysPageLoop] at hloop
    split_ifs at hloop with hend
    · rw [h.notUsed_eq hva] at hloop
      simp only [bind_eq_bind, bind_some, decide_eq_true_eq] at hloop
      split_ifs at hloop with hfree
      · obtain ⟨⟨err, s₁⟩, hmap, hresult⟩ := bind_eq_some_iff.mp hloop
        cases hresult
        exact (h.virtMemMapPage hperms (h.not_kernelPage hfree) (fun _ => htemp) hmap).1
      · exact ih (mod_lt _ (by decide)) hloop
    · cases hloop
      exact h

end

section

variable {numPages va virt : ℕ} {scan : RangeScan}

theorem Layout.virtMapPhysPage (h : Layout k stale reserved s) (hvirt : virt < 4294967296)
    (hperms : perms < 4096) (htemp : TempFree s)
    (hmap : virtMapPhysPage fuel s virt endVirt perms = some (va, s')) :
    Layout k stale reserved s' := by
  rw [Virt.virtMapPhysPage] at hmap
  simp only [bind_eq_bind, bind_eq_some_iff] at hmap
  obtain ⟨⟨page, s₁⟩, halloc, hloop⟩ := hmap
  obtain ⟨h₁, hevolves₁⟩ := h.pageAlloc halloc
  exact h₁.mapPhysPageLoop hperms (hevolves₁.tempFree htemp) hvirt hloop

/-! ## `VirtMapPhysRange` -/

structure Passed (s : VirtState) (virt endVirt va : ℕ) : Prop where
  free : s.FreePage (va / 4096)
  below : va < endVirt
  /-- The search only gets below its start by wrapping around. -/
  above : virt ≤ va ∨ 4294963200 < endVirt

/-- What holds at the head of the search loop: all pages since `start` were
free, and they are as many as have been counted. -/
structure ScanInv (s : VirtState) (virt endVirt numPages : ℕ) (scan : RangeScan) : Prop where
  pos : 0 < scan.currNum
  le : scan.currNum ≤ numPages
  bound : scan.i < 4294967296
  above : virt ≤ scan.i ∨ 4294963200 < endVirt
  passed : ∀ j < numPages - scan.currNum, Passed s virt endVirt (dword (scan.start + j * 4096))
  next : scan.currNum < numPages → scan.i = dword (scan.start + (numPages - scan.currNum) * 4096)

theorem dword_step (a j : ℕ) :
    dword (dword (a + j * 4096) + 4096) = dword (a + (j + 1) * 4096) := by
  rw [dword, dword, dword, mod_add_mod]
  congr 1
  omega

section

variable (hinv : ScanInv s virt endVirt numPages scan)
include hinv

theorem ScanInv.above_next (hend : scan.i < endVirt) :
    virt ≤ dword (scan.i + 4096) ∨ 4294963200 < endVirt := by
  rcases hinv.above with habove | hwrap
  · by_cases hlast : 4294963200 < endVirt
    · exact .inr hlast
    · rw [dword]
      exact .inl (by omega)
  · exact .inr hwrap

theorem ScanInv.free (hend : scan.i < endVirt) (hfree : s.FreePage (scan.i / 4096)) :
    ∀ j < numPages - (scan.currNum - 1), Passed s virt endVirt
      (dword ((if scan.currNum = numPages then scan.i else scan.start) + j * 4096)) := by
  have hcurrent : Passed s virt endVirt scan.i :=
    ⟨hfree, hend, hinv.above⟩
  intro j hj
  split_ifs with hstart
  · have hj : j = 0 := by omega
    have hsame : dword scan.i = scan.i := mod_eq_of_lt hinv.bound
    rw [hj, zero_mul, add_zero, hsame]
    exact hcurrent
  · by_cases hlast : j = numPages - scan.currNum
    · rw [hlast, ← hinv.next (by omega)]
      exact hcurrent
    · exact hinv.passed j (by omega)

theorem ScanInv.next_free (hmore : 1 < scan.currNum) :
    dword (scan.i + 4096) = dword ((if scan.currNum = numPages then scan.i else scan.start) +
      (numPages - (scan.currNum - 1)) * 4096) := by
  have hle := hinv.le
  split_ifs with hstart
  · rw [show numPages - (scan.currNum - 1) = 1 by omega]
  · rw [hinv.next (by omega), dword_step,
      show numPages - scan.currNum + 1 = numPages - (scan.currNum - 1) by
        omega]

end

theorem Layout.scanRange (h : Layout k stale reserved s) {virt numPages : ℕ} {out : RangeScan} :
    ∀ {n : ℕ} {scan : RangeScan}, ScanInv s virt endVirt numPages scan →
      scanRange s endVirt numPages n scan = some out → out.currNum ≠ 0 ∨ ∀ j < numPages,
        Passed s virt endVirt (dword (out.start + j * 4096)) := by
  intro n
  induction n with
  | zero => intro scan _ hscan; cases hscan
  | succ n ih =>
    intro scan hinv hscan
    have hpos := hinv.pos
    have hle := hinv.le
    rw [Virt.scanRange] at hscan
    by_cases hend : scan.i < endVirt
    · rw [if_pos hend, h.notUsed_eq hinv.bound] at hscan
      simp only [bind_eq_bind, bind_some, decide_eq_true_eq,
        dwordSub, if_pos (show 1 ≤ scan.currNum from hpos)] at hscan
      have hnext : dword (scan.i + 4096) < 4294967296 :=
        mod_lt _ (by decide)
      have habove := hinv.above_next hend
      by_cases hfree : s.FreePage (scan.i / 4096)
      · rw [if_pos hfree] at hscan
        by_cases hdone : scan.currNum - 1 = 0
        · rw [if_pos hdone] at hscan
          cases hscan
          right
          intro j hj
          exact hinv.free hend hfree j (by omega)
        · rw [if_neg hdone] at hscan
          apply ih _ hscan
          exact {
            pos := by dsimp only; omega
            le := by dsimp only; omega
            bound := hnext
            above := habove
            passed := hinv.free hend hfree
            next := fun _ => hinv.next_free (by omega) }
      · rw [if_neg hfree] at hscan
        apply ih _ hscan
        exact {
          pos := by dsimp only; omega
          le := le_rfl
          bound := hnext
          above := habove
          passed := fun j hj => by dsimp only at hj; omega
          next := fun hlt => by dsimp only at hlt; omega }
    · rw [if_neg hend] at hscan
      cases hscan
      exact .inl (by omega)

/-- The pages that are mapped must leave the temporary mappings alone. -/
theorem Layout.mapRange {bound : ℕ} (hperms : perms < 4096) (hbound : bound < 4294967296) :
    ∀ {n i : ℕ} {s : VirtState}, Layout k stale reserved s → TempFree s → bound % 4096 = i % 4096 →
      (∀ va, i ≤ va → va < bound → va % 4096 = i % 4096 →
        ¬ KernelPage k (va / 4096) ∧ ¬ TempPage (va / 4096)) →
      mapRange fuel bound perms n s i = some s' → Layout k stale reserved s' := by
  intro n
  induction n with
  | zero => intro i s _ _ _ _ hmap; cases hmap
  | succ n ih =>
    intro i s h htemp haligned hpages hmap
    rw [Virt.mapRange] at hmap
    split_ifs at hmap with hend
    · simp only [bind_eq_bind, bind_eq_some_iff] at hmap
      obtain ⟨⟨page, s₁⟩, halloc, ⟨err, s₂⟩, hpage, hrest⟩ := hmap
      obtain ⟨hkernel, houtside⟩ := hpages i (le_refl i) hend rfl
      obtain ⟨h₁, hevolves₁⟩ := h.pageAlloc halloc
      have htemp₁ := hevolves₁.tempFree htemp
      obtain ⟨h₂, hevolves₂⟩ :=
        h₁.virtMemMapPage hperms hkernel (fun _ => htemp₁) hpage
      have htemp₂ : TempFree s₂ := by
        obtain ⟨p, hp, hfree⟩ := htemp₁
        refine ⟨p, hp, hevolves₂.free p hp ?_ hfree⟩
        intro heq
        exact houtside (some.inj heq ▸ hp)
      have hnext : dword (i + 4096) = i + 4096 :=
        mod_eq_of_lt (by omega)
      rw [hnext] at hrest
      apply ih h₂ htemp₂ (by omega) _ hrest
      intro va hle hlt hmod
      exact hpages va (by omega) hlt (by omega)
    · cases hmap
      exact h

/-- The range lies outside the space for temporary mappings. -/
def OutsideTemp (virt endVirt : ℕ) : Prop :=
  endVirt ≤ tempStart ∨ (tempEnd ≤ virt ∧ endVirt ≤ 4294963200)

theorem Passed.not_tempPage (hpassed : Passed s virt endVirt va)
    (houtside : OutsideTemp virt endVirt) : ¬ TempPage (va / 4096) := by
  have hbelow := hpassed.below
  have habove := hpassed.above
  rw [OutsideTemp, tempStart, tempEnd] at houtside
  rw [TempPage, tempStart, tempEnd]
  omega

theorem Layout.virtMapPhysRange (h : Layout k stale reserved s) (hvirt : virt < 4294967296)
    (hperms : perms < 4096) (htemp : TempFree s)
    (houtside : OutsideTemp virt endVirt)
    (hmap : virtMapPhysRange fuel s virt endVirt numPages perms =
      some (va, s')) : Layout k stale reserved s' := by
  rw [Virt.virtMapPhysRange] at hmap
  simp only [bind_eq_bind, bind_eq_some_iff] at hmap
  obtain ⟨scan, hscan, hmap⟩ := hmap
  split_ifs at hmap with hfail henough
  · cases hmap
    exact h
  · cases hmap
    exact h
  · simp only [bind_eq_some_iff] at hmap
    obtain ⟨s₁, hrange, hresult⟩ := hmap
    cases hresult
    have hbound : dword (scan.start + dword (numPages * 4096)) < 4294967296 :=
      mod_lt _ (by decide)
    have hmod : dword (scan.start + dword (numPages * 4096)) % 4096 = scan.start % 4096 := by
      rw [dword, dword]
      omega
    have hle : dword (scan.start + dword (numPages * 4096)) ≤ scan.start + numPages * 4096 := by
      refine (mod_le _ _).trans ?_
      exact Nat.add_le_add_left (mod_le _ _) _
    apply h.mapRange hperms hbound htemp hmod _ hrange
    intro x hx hlt haligned
    -- The address is one of those the search has passed.
    have hindex : (x - scan.start) / 4096 < numPages := by omega
    have haddress : dword (scan.start + (x - scan.start) / 4096 * 4096) = x := by
      rw [show scan.start + (x - scan.start) / 4096 * 4096 = x by omega]
      exact mod_eq_of_lt (by omega)
    have hstart : ScanInv s virt endVirt numPages ⟨virt, numPages, 0⟩ := {
      pos := by dsimp only; omega
      le := le_rfl
      bound := hvirt
      above := .inl le_rfl
      passed := fun j hj => by dsimp only at hj; omega
      next := fun hlt => by dsimp only at hlt; omega }
    have hpassed := (h.scanRange hstart hscan).resolve_left henough _ hindex
    rw [haddress] at hpassed
    exact ⟨h.not_kernelPage hpassed.free, hpassed.not_tempPage houtside⟩

end

end Whitix.Virt
