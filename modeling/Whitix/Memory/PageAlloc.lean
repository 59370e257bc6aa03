import Whitix.Support.Run
import Whitix.Support.Word
import Mathlib.Data.List.Perm.Basic
import Mathlib.Data.List.Range

/-!
# The physical page allocator

`memory/pg_alloc.c` keeps the free frames on two stacks: the frames below
16 MB, which ISA DMA can reach, and all others.  `PageInit` sorts the frames by
`i < 4096`, while `PageFree` takes a frame for a normal one only if its number
is larger than 4096.  Frame 4096 itself is handed out from the normal stack,
but returned to the ISA stack, which refuses it.

Frame numbers in `PageFree` are recovered from the 32-bit physical address, so
that on a machine with more than 4 GB they are known modulo `2 ^ 20` only.
-/

namespace Whitix.PageAlloc

open Support List Option Bool

/-! ## The code -/

/-- `struct PageStack`; the frames on the list are given by their indices in
the page array. -/
structure PageStack where
  numPages : ℕ
  maxPages : ℕ
  list : List ℕ
deriving DecidableEq, Repr

structure PageStacks where
  isa : PageStack
  normal : PageStack
deriving DecidableEq, Repr

def pageListPutPage (stack : PageStack) (page : ℕ) : PageStack :=
  { stack with
    numPages := dword (stack.numPages + 1)
    list := page :: stack.list }

/-- On an empty list, `PageListGetHead` would take the list head itself for a
page. -/
def pageListGetHead (stack : PageStack) : Option (ℕ × PageStack) :=
  match stack.list with
  | [] => none
  | page :: rest =>
    some (page, { stack with numPages := dwordSub stack.numPages 1, list := rest })

/-- The loops of `PageInit`: push every frame that `free` selects. -/
def pageInitStack (maxPages : ℕ) (free : ℕ → Bool) (frames : List ℕ) : PageStack :=
  frames.foldl (fun stack i => if free i then pageListPutPage stack i else stack) ⟨0, maxPages, []⟩

section

variable (maxPfn : ℕ) (s : PageStacks) (allocatedBitmap : ℕ → Bool)

/-- `PageInit`, where `allocatedBitmap` holds the reserved frames.  Without
memory above 16 MB the normal stack keeps its zero initialisation. -/
def pageInit : PageStacks :=
  let isaMax := if 4096 < maxPfn then 4096 else maxPfn
  { isa := pageInitStack isaMax (fun i => !allocatedBitmap i)
      (range isaMax)
    normal :=
      if isaMax < maxPfn then
        pageInitStack (maxPfn - 4096) (fun i => decide (5120 ≤ i) ||
            (decide (i < 5120) && !allocatedBitmap i))
          (range' 4096 (maxPfn - 4096))
      else ⟨0, 0, []⟩ }

/-- `none` is the kernel panic. -/
def pageAllocLow : Option (ℕ × PageStacks) :=
  if s.isa.numPages < 5 then none
  else (pageListGetHead s.isa).map fun r => (r.1, { s with isa := r.2 })

def pageAlloc : Option (ℕ × PageStacks) :=
  if s.normal.numPages ≠ 0 then
    (pageListGetHead s.normal).map fun r => (r.1, { s with normal := r.2 })
  else pageAllocLow s

def physAddr (page : ℕ) : ℕ := dword (page * 2 ^ 12)

def pageFree (page : ℕ) : PageStacks :=
  let pagePfn := physAddr page / 2 ^ 12
  if 4096 < pagePfn then
    if dword (s.normal.maxPages + 4096) ≤ pagePfn then s
    else { s with normal := pageListPutPage s.normal page }
  else
    if s.isa.maxPages ≤ pagePfn then s
    else { s with isa := pageListPutPage s.isa page }

/-! ## The allocator and the pages handed out -/

structure PageSystem where
  pages : PageStacks
  handedOut : List ℕ

def PageSystem.initial : PageSystem where
  pages := pageInit maxPfn allocatedBitmap
  handedOut := []

inductive PageOp where
  | alloc
  | allocLow
  | free (page : ℕ)
deriving DecidableEq, Repr

def pageStep (s : PageSystem) : PageOp → Option PageSystem
  | .alloc => (pageAlloc s.pages).map fun r => ⟨r.2, r.1 :: s.handedOut⟩
  | .allocLow =>
    (pageAllocLow s.pages).map fun r => ⟨r.2, r.1 :: s.handedOut⟩
  | .free page =>
    some ⟨pageFree s.pages page, s.handedOut.erase page⟩

/-- Only pages handed out are freed. -/
def PageOp.Legal (s : PageSystem) : PageOp → Prop
  | .alloc => True
  | .allocLow => True
  | .free page => page ∈ s.handedOut

/-- `PageFree` sorts the page as `PageInit` did. -/
def PageOp.Classified : PageOp → Prop
  | .alloc => True
  | .allocLow => True
  | .free page => page < 4096 ∨ 4096 < page % 2 ^ 20

instance (s : PageSystem) : (op : PageOp) → Decidable (op.Legal s)
  | .alloc | .allocLow => isTrue trivial
  | .free _ => inferInstanceAs (Decidable (_ ∈ _))

instance : (op : PageOp) → Decidable op.Classified
  | .alloc | .allocLow => isTrue trivial
  | .free _ => inferInstanceAs (Decidable (_ ∨ _))

def InitiallyFree (i : ℕ) : Prop :=
  i < maxPfn ∧ (5120 ≤ i ∨ allocatedBitmap i = false)

/-- The stacks hold exactly the initially free frames that are not handed out,
each once and on its own stack, and know how many they hold. -/
structure NoLoss (maxPfn : ℕ) (allocatedBitmap : ℕ → Bool) (s : PageSystem) : Prop where
  isa_nodup : s.pages.isa.list.Nodup
  normal_nodup : s.pages.normal.list.Nodup
  mem_isa : ∀ i, i ∈ s.pages.isa.list ↔
    InitiallyFree maxPfn allocatedBitmap i ∧ i < 4096 ∧ i ∉ s.handedOut
  mem_normal : ∀ i, i ∈ s.pages.normal.list ↔
    InitiallyFree maxPfn allocatedBitmap i ∧ 4096 ≤ i ∧ i ∉ s.handedOut
  isa_numPages : s.pages.isa.numPages = s.pages.isa.list.length
  normal_numPages : s.pages.normal.numPages = s.pages.normal.list.length

/-! ## Initialisation -/

def freeFrames : List ℕ :=
  (range maxPfn).filter fun i => decide (5120 ≤ i) || !allocatedBitmap i

theorem mem_freeFrames {maxPfn : ℕ} {allocatedBitmap : ℕ → Bool} {i : ℕ} :
    i ∈ freeFrames maxPfn allocatedBitmap ↔ InitiallyFree maxPfn allocatedBitmap i := by
  simp [freeFrames, InitiallyFree]

theorem nodup_freeFrames : (freeFrames maxPfn allocatedBitmap).Nodup :=
  nodup_range.filter _

end

theorem pageInitStack_eq {maxPages : ℕ} {free : ℕ → Bool} {frames : List ℕ}
    (hlen : frames.length < 2 ^ 32) :
    pageInitStack maxPages free frames = ⟨(frames.filter free).length, maxPages,
      (frames.filter free).reverse⟩ := by
  suffices hgen : ∀ (n : ℕ) (list : List ℕ), n + frames.length < 2 ^ 32 → frames.foldl
        (fun stack i => if free i then pageListPutPage stack i else stack)
        ⟨n, maxPages, list⟩ =
      ⟨n + (frames.filter free).length, maxPages, (frames.filter free).reverse ++ list⟩ by
    simpa [pageInitStack] using hgen 0 [] (by simpa using hlen)
  clear hlen
  induction frames with
  | nil => simp
  | cons i frames ih =>
    intro n list hn
    rw [length_cons] at hn
    by_cases hfree : free i = true
    · have hcount : dword (n + 1) = n + 1 := dword_of_lt (by omega)
      rw [foldl_cons, if_pos hfree, pageListPutPage, hcount,
        ih (n + 1) (i :: list) (by omega), filter_cons_of_pos hfree]
      simp only [length_cons, reverse_cons, append_assoc, singleton_append, add_assoc, add_comm 1]
    · rw [foldl_cons, if_neg hfree, ih n list (by omega), filter_cons_of_neg hfree]

section Init

variable {maxPfn : ℕ} (allocatedBitmap : ℕ → Bool)

def isaFrames (maxPfn : ℕ) : List ℕ :=
  (range (min maxPfn 4096)).filter fun i => !allocatedBitmap i

def normalFrames (maxPfn : ℕ) : List ℕ :=
  (range' 4096 (maxPfn - 4096)).filter fun i =>
    decide (5120 ≤ i) || (decide (i < 5120) && !allocatedBitmap i)

theorem pageInit_isa (hmax : maxPfn < 2 ^ 32) :
    (pageInit maxPfn allocatedBitmap).isa =
      ⟨(isaFrames allocatedBitmap maxPfn).length, min maxPfn 4096,
        (isaFrames allocatedBitmap maxPfn).reverse⟩ := by
  have hmin : (if 4096 < maxPfn then 4096 else maxPfn) = min maxPfn 4096 := by split <;> omega
  simp only [pageInit, hmin]
  exact pageInitStack_eq (by rw [length_range]; omega)

theorem pageInit_normal (hmax : maxPfn < 2 ^ 32) :
    (pageInit maxPfn allocatedBitmap).normal =
      ⟨(normalFrames allocatedBitmap maxPfn).length, maxPfn - 4096,
        (normalFrames allocatedBitmap maxPfn).reverse⟩ := by
  by_cases hlarge : 4096 < maxPfn
  · simp only [pageInit, if_pos hlarge]
    exact pageInitStack_eq (by rw [length_range']; omega)
  · have hnone : maxPfn - 4096 = 0 := by omega
    simp [pageInit, hlarge, normalFrames, hnone]

theorem initial_perm :
    (isaFrames allocatedBitmap maxPfn ++ normalFrames allocatedBitmap maxPfn).Perm
      (freeFrames maxPfn allocatedBitmap) := by
  have hmemIsa : ∀ i, i ∈ isaFrames allocatedBitmap maxPfn ↔
      (i < maxPfn ∧ i < 4096) ∧ allocatedBitmap i = false := by simp [isaFrames]
  have hmemNormal : ∀ i, i ∈ normalFrames allocatedBitmap maxPfn ↔
      (4096 ≤ i ∧ i < maxPfn) ∧ (5120 ≤ i ∨ allocatedBitmap i = false) := by
    intro i
    simp only [normalFrames, mem_filter, mem_range'_1,
      or_eq_true, and_eq_true, decide_eq_true_eq, not_eq_true']
    cases allocatedBitmap i <;> simp <;> omega
  rw [perm_ext_iff_of_nodup]
  · intro i
    rw [mem_append, hmemIsa, hmemNormal, mem_freeFrames, InitiallyFree]
    cases allocatedBitmap i <;> simp <;> omega
  · refine nodup_append.mpr ⟨nodup_range.filter _, (nodup_range' ..).filter _, ?_⟩
    rintro i hisa j hnormal rfl
    have hlt := ((hmemIsa i).mp hisa).1.2
    have hge := ((hmemNormal i).mp hnormal).1.1
    omega
  · exact nodup_freeFrames maxPfn allocatedBitmap

end Init

/-! ## The invariant -/

/-- The two stacks and the pages handed out partition the initially free
frames. -/
structure PageInv (maxPfn : ℕ) (allocatedBitmap : ℕ → Bool) (s : PageSystem) : Prop where
  perm : (s.pages.isa.list ++ s.pages.normal.list ++ s.handedOut).Perm
    (freeFrames maxPfn allocatedBitmap)
  isa_lt : ∀ i ∈ s.pages.isa.list, i < 4096
  normal_ge : ∀ i ∈ s.pages.normal.list, 4096 ≤ i
  isa_numPages : s.pages.isa.numPages = s.pages.isa.list.length
  normal_numPages : s.pages.normal.numPages = s.pages.normal.list.length
  isa_maxPages : s.pages.isa.maxPages = min maxPfn 4096
  normal_maxPages : s.pages.normal.maxPages = maxPfn - 4096

variable {stack' : PageStack} {s' : PageSystem} {r : ℕ × PageStacks} {op : PageOp} {page : ℕ}

section Invariant

variable {maxPfn : ℕ} {allocatedBitmap : ℕ → Bool} {s : PageSystem}

theorem PageInv.noLoss (h : PageInv maxPfn allocatedBitmap s) :
    NoLoss maxPfn allocatedBitmap s := by
  have hnodup := h.perm.nodup_iff.mpr (nodup_freeFrames _ _)
  obtain ⟨hstacks, -, hout⟩ := nodup_append.mp hnodup
  obtain ⟨hisa, hnormal, -⟩ := nodup_append.mp hstacks
  have hmem : ∀ i, InitiallyFree maxPfn allocatedBitmap i ↔
      (i ∈ s.pages.isa.list ∨ i ∈ s.pages.normal.list) ∨ i ∈ s.handedOut := by
    intro i
    rw [← mem_freeFrames, ← h.perm.mem_iff, mem_append, mem_append]
  have hdisjoint : ∀ i, i ∈ s.pages.isa.list ∨ i ∈ s.pages.normal.list → i ∉ s.handedOut := by
    intro i hi hhanded
    exact hout i (mem_append.mpr hi) i hhanded rfl
  refine { h with
    isa_nodup := hisa
    normal_nodup := hnormal
    mem_isa := fun i => ?_
    mem_normal := fun i => ?_ }
  · constructor
    · intro hi
      exact ⟨(hmem i).mpr (.inl (.inl hi)), h.isa_lt i hi, hdisjoint i (.inl hi)⟩
    · rintro ⟨hfree, hlt, hnot⟩
      rcases (hmem i).mp hfree with (hi | hi) | hi
      · exact hi
      · exact absurd (h.normal_ge i hi) hlt.not_ge
      · exact absurd hi hnot
  · constructor
    · intro hi
      exact ⟨(hmem i).mpr (.inl (.inr hi)), h.normal_ge i hi, hdisjoint i (.inr hi)⟩
    · rintro ⟨hfree, hge, hnot⟩
      rcases (hmem i).mp hfree with (hi | hi) | hi
      · exact absurd (h.isa_lt i hi) hge.not_gt
      · exact hi
      · exact absurd hi hnot

theorem pageInv_initial (hmax : maxPfn < 2 ^ 32) :
    PageInv maxPfn allocatedBitmap (PageSystem.initial maxPfn allocatedBitmap) := by
  have hisa := pageInit_isa allocatedBitmap hmax
  have hnormal := pageInit_normal allocatedBitmap hmax
  refine {
    perm := ?_
    isa_lt := fun i hi => ?_
    normal_ge := fun i hi => ?_
    isa_numPages := ?_
    normal_numPages := ?_
    isa_maxPages := ?_
    normal_maxPages := ?_ }
  all_goals simp only [PageSystem.initial, hisa, hnormal] at *
  · rw [append_nil]
    exact ((reverse_perm _).append (reverse_perm _)).trans (initial_perm allocatedBitmap)
  · have hmem : i < min maxPfn 4096 ∧ allocatedBitmap i = false := by simpa [isaFrames] using hi
    omega
  · rw [mem_reverse, normalFrames, mem_filter, mem_range'_1] at hi
    exact hi.1.1
  · rw [length_reverse]
  · rw [length_reverse]

theorem pageListGetHead_spec {stack : PageStack} (hnum : stack.numPages = stack.list.length)
    (h : pageListGetHead stack = some (page, stack')) :
    stack.list = page :: stack'.list ∧ stack'.numPages = stack'.list.length ∧
      stack'.maxPages = stack.maxPages := by
  unfold pageListGetHead at h
  cases hlist : stack.list with
  | nil => simp [hlist] at h
  | cons top rest =>
    simp only [hlist, some.injEq, Prod.mk.injEq] at h
    obtain ⟨rfl, rfl⟩ := h
    refine ⟨rfl, ?_, rfl⟩
    simp [dwordSub, hnum, hlist]

section

variable (h : PageInv maxPfn allocatedBitmap s)
include h

theorem PageInv.takeIsa (hget : pageListGetHead s.pages.isa = some (page, stack')) :
    PageInv maxPfn allocatedBitmap ⟨{ s.pages with isa := stack' }, page :: s.handedOut⟩ := by
  obtain ⟨hlist, hnum, hmax⟩ := pageListGetHead_spec h.isa_numPages hget
  have hperm := h.perm
  have hlt := h.isa_lt
  rw [hlist] at hperm hlt
  refine { h with
    perm := ?_
    isa_lt := (forall_mem_cons.mp hlt).2
    isa_numPages := hnum
    isa_maxPages := hmax.trans h.isa_maxPages }
  exact perm_middle.trans hperm

theorem PageInv.takeNormal (hget : pageListGetHead s.pages.normal = some (page, stack')) :
    PageInv maxPfn allocatedBitmap ⟨{ s.pages with normal := stack' }, page :: s.handedOut⟩ := by
  obtain ⟨hlist, hnum, hmax⟩ := pageListGetHead_spec h.normal_numPages hget
  have hperm := h.perm
  have hge := h.normal_ge
  rw [hlist] at hperm hge
  refine { h with
    perm := ?_
    normal_ge := (forall_mem_cons.mp hge).2
    normal_numPages := hnum
    normal_maxPages := hmax.trans h.normal_maxPages }
  refine perm_middle.trans (List.Perm.trans ?_ hperm)
  exact (perm_middle.symm).append_right s.handedOut

theorem PageInv.allocLow (hr : pageAllocLow s.pages = some r) :
    PageInv maxPfn allocatedBitmap ⟨r.2, r.1 :: s.handedOut⟩ := by
  unfold pageAllocLow at hr
  split at hr
  · cases hr
  · obtain ⟨⟨page, stack'⟩, hget, rfl⟩ := map_eq_some_iff.mp hr
    exact h.takeIsa hget

theorem PageInv.alloc (hr : pageAlloc s.pages = some r) :
    PageInv maxPfn allocatedBitmap ⟨r.2, r.1 :: s.handedOut⟩ := by
  unfold pageAlloc at hr
  split at hr
  · obtain ⟨⟨page, stack'⟩, hget, rfl⟩ := map_eq_some_iff.mp hr
    exact h.takeNormal hget
  · exact h.allocLow hr

end

/-! ## Freeing -/

theorem pagePfn_eq (page : ℕ) : physAddr page / 2 ^ 12 = page % 2 ^ 20 := by
  unfold physAddr dword
  omega

section

variable (h : PageInv maxPfn allocatedBitmap s)
include h

theorem PageInv.pageFree_eq (hmax : maxPfn < 2 ^ 32) (hpage : page ∈ s.handedOut) :
    pageFree s.pages page = if 4096 < page % 2 ^ 20 then
      { s.pages with normal := pageListPutPage s.pages.normal page }
      else if page % 2 ^ 20 = 4096 then s.pages
      else { s.pages with isa := pageListPutPage s.pages.isa page } := by
  have hlt : page < maxPfn := by
    have hmem : page ∈ freeFrames maxPfn allocatedBitmap :=
      h.perm.mem_iff.mp (mem_append_right _ hpage)
    exact (mem_freeFrames.mp hmem).1
  unfold pageFree
  rw [pagePfn_eq, h.isa_maxPages, h.normal_maxPages]
  by_cases hnormal : 4096 < page % 2 ^ 20
  · have hbound : ¬ dword (maxPfn - 4096 + 4096) ≤ page % 2 ^ 20 := by
      rw [dword_of_lt (by omega)]
      omega
    rw [if_pos hnormal, if_pos hnormal, if_neg hbound]
  · rw [if_neg hnormal, if_neg hnormal]
    by_cases hlost : page % 2 ^ 20 = 4096
    · rw [if_pos hlost, if_pos (by omega)]
    · rw [if_neg hlost, if_neg (by omega)]

theorem PageInv.nodup_handedOut : s.handedOut.Nodup :=
  (nodup_append.mp (h.perm.nodup_iff.mpr (nodup_freeFrames _ _))).2.1

section

variable (hmax : maxPfn < 2 ^ 32)
include hmax

section

variable (hpage : page ∈ s.handedOut)
include hpage

theorem PageInv.length_lt :
    s.pages.isa.list.length + 1 < 2 ^ 32 ∧ s.pages.normal.list.length + 1 < 2 ^ 32 := by
  have hlen := h.perm.length_eq
  have hle : (freeFrames maxPfn allocatedBitmap).length ≤ (range maxPfn).length :=
    length_filter_le _ _
  have hpos := length_pos_of_mem hpage
  rw [length_append, length_append] at hlen
  rw [length_range] at hle
  omega

theorem PageInv.free (hclass : page < 4096 ∨ 4096 < page % 2 ^ 20) :
    PageInv maxPfn allocatedBitmap ⟨pageFree s.pages page, s.handedOut.erase page⟩ := by
  have hfree := h.pageFree_eq hmax hpage
  obtain ⟨hroomIsa, hroomNormal⟩ := h.length_lt hmax hpage
  have hout : (page :: s.handedOut.erase page).Perm s.handedOut :=
    (perm_cons_erase hpage).symm
  by_cases hnormal : 4096 < page % 2 ^ 20
  · rw [if_pos hnormal] at hfree
    have hge : 4096 ≤ page :=
      le_trans hnormal.le (Nat.mod_le page (2 ^ 20))
    rw [hfree]
    refine { h with
      perm := ?_
      normal_ge := forall_mem_cons.mpr ⟨hge, h.normal_ge⟩
      normal_numPages := ?_ }
    · refine List.Perm.trans ?_ h.perm
      refine List.Perm.trans ?_ (hout.append_left _)
      exact (perm_middle.append_right _).trans perm_middle.symm
    · simp only [pageListPutPage, length_cons, h.normal_numPages]
      exact dword_of_lt hroomNormal
  · have hlt : page < 4096 := hclass.resolve_right hnormal
    rw [if_neg hnormal, if_neg (by omega)] at hfree
    rw [hfree]
    refine { h with
      perm := ?_
      isa_lt := forall_mem_cons.mpr ⟨hlt, h.isa_lt⟩
      isa_numPages := ?_ }
    · refine List.Perm.trans ?_ h.perm
      refine List.Perm.trans ?_ (hout.append_left _)
      exact perm_middle.symm
    · simp only [pageListPutPage, length_cons, h.isa_numPages]
      exact dword_of_lt hroomIsa

theorem PageInv.free_loses (hclass : ¬ (page < 4096 ∨ 4096 < page % 2 ^ 20)) :
    ¬ NoLoss maxPfn allocatedBitmap ⟨pageFree s.pages page, s.handedOut.erase page⟩ := by
  intro hloss
  obtain ⟨hge, hmod⟩ := not_or.mp hclass
  have hnormal : (pageFree s.pages page).normal = s.pages.normal := by
    rw [h.pageFree_eq hmax hpage, if_neg hmod]
    split <;> rfl
  have hfree : InitiallyFree maxPfn allocatedBitmap page :=
    mem_freeFrames.mp (h.perm.mem_iff.mp (mem_append_right _ hpage))
  have hback : page ∈ (pageFree s.pages page).normal.list :=
    (hloss.mem_normal page).mpr ⟨hfree, not_lt.mp hge, h.nodup_handedOut.not_mem_erase⟩
  rw [hnormal] at hback
  exact ((h.noLoss.mem_normal page).mp hback).2.2 hpage

end

theorem PageInv.step (hlegal : op.Legal s) (hclass : op.Classified)
    (hs' : pageStep s op = some s') : PageInv maxPfn allocatedBitmap s' := by
  cases op with
  | alloc =>
    obtain ⟨r, hr, rfl⟩ := map_eq_some_iff.mp hs'
    exact h.alloc hr
  | allocLow =>
    obtain ⟨r, hr, rfl⟩ := map_eq_some_iff.mp hs'
    exact h.allocLow hr
  | free page =>
    cases hs'
    exact h.free hmax hlegal hclass

theorem PageInv.noLoss_iff_classified (hlegal : op.Legal s) (hs' : pageStep s op = some s') :
    NoLoss maxPfn allocatedBitmap s' ↔ op.Classified := by
  constructor
  · intro hloss
    by_contra hclass
    cases op with
    | alloc | allocLow => exact hclass trivial
    | free page =>
      cases hs'
      exact h.free_loses hmax hlegal hclass hloss
  · intro hclass
    exact (h.step hmax hlegal hclass hs').noLoss

end

end

theorem pageInv_of_reach (hmax : maxPfn < 2 ^ 32)
    (h : Reach pageStep (fun s op => op.Legal s ∧ op.Classified)
      (PageSystem.initial maxPfn allocatedBitmap) s) :
    PageInv maxPfn allocatedBitmap s :=
  h.invariant (pageInv_initial hmax) fun _ _ _ hs hop hs' => hs.step hmax hop.1 hop.2 hs'

end Invariant

/-! ## The frame that can be lost -/

section Lost

variable {maxPfn : ℕ} {allocatedBitmap : ℕ → Bool} {s : PageSystem}

/-- The frames on the stacks, and those handed out. -/
def PageSystem.held (s : PageSystem) : List ℕ :=
  s.pages.isa.list ++ s.pages.normal.list ++ s.handedOut

theorem freeFrames_erase {pfn : ℕ} (hpfn : pfn < 5120) :
    (freeFrames maxPfn allocatedBitmap).erase pfn =
      freeFrames maxPfn (Function.update allocatedBitmap pfn true) := by
  rw [(nodup_freeFrames _ _).erase_eq_filter, freeFrames, List.filter_filter]
  refine filter_congr fun i _ => ?_
  by_cases hi : i = pfn
  · subst hi
    simp [hpfn]
  · simp [hi]

variable (hmax : maxPfn ≤ 2 ^ 20)
include hmax

theorem PageInv.classified_or (h : PageInv maxPfn allocatedBitmap s) (hlegal : op.Legal s) :
    op.Classified ∨ op = .free 4096 ∧ 4096 ∈ s.handedOut := by
  cases op with
  | alloc => exact .inl trivial
  | allocLow => exact .inl trivial
  | free page =>
    have hlt := (mem_freeFrames.mp (h.perm.mem_iff.mp (mem_append_right _ hlegal))).1
    rcases eq_or_ne page 4096 with rfl | hne
    · exact .inr ⟨rfl, hlegal⟩
    · left
      unfold PageOp.Classified
      omega

theorem PageInv.free_4096 (h : PageInv maxPfn allocatedBitmap s) (hpage : 4096 ∈ s.handedOut) :
    PageInv maxPfn (Function.update allocatedBitmap 4096 true)
      ⟨pageFree s.pages 4096, s.handedOut.erase 4096⟩ := by
  have hfree : pageFree s.pages 4096 = s.pages := h.pageFree_eq (by omega) hpage
  rw [hfree]
  refine { h with perm := ?_ }
  have hstacks : 4096 ∉ s.pages.isa.list ++ s.pages.normal.list := fun hin =>
    (nodup_append.mp (h.perm.nodup_iff.mpr (nodup_freeFrames _ _))).2.2 4096 hin 4096 hpage rfl
  rw [← freeFrames_erase (by decide), ← erase_append_right _ hstacks]
  exact h.perm.erase 4096

theorem pageInv_or_of_reach
    (h : Reach pageStep (fun s op => op.Legal s) (PageSystem.initial maxPfn allocatedBitmap) s) :
    PageInv maxPfn allocatedBitmap s ∨
      PageInv maxPfn (Function.update allocatedBitmap 4096 true) s := by
  induction h with
  | refl => exact .inl (pageInv_initial (by omega))
  | tail op _ hlegal hs' ih =>
    rcases ih with hinv | hinv
    · rcases hinv.classified_or hmax hlegal with hclass | ⟨rfl, hpage⟩
      · exact .inl (hinv.step (by omega) hlegal hclass hs')
      · cases hs'
        exact .inr (hinv.free_4096 hmax hpage)
    · refine .inr (hinv.step (by omega) hlegal ?_ hs')
      refine (hinv.classified_or hmax hlegal).resolve_right fun hfree => ?_
      have hlost := mem_freeFrames.mp (hinv.perm.mem_iff.mp (mem_append_right _ hfree.2))
      simp [InitiallyFree] at hlost

theorem held_of_reach
    (h : Reach pageStep (fun s op => op.Legal s) (PageSystem.initial maxPfn allocatedBitmap) s) :
    s.held.Nodup ∧ (∀ i ∈ s.held, InitiallyFree maxPfn allocatedBitmap i) ∧
      ∀ i ≠ 4096, InitiallyFree maxPfn allocatedBitmap i → i ∈ s.held := by
  simp only [← mem_freeFrames]
  rcases pageInv_or_of_reach hmax h with hinv | hinv
  · exact ⟨hinv.perm.nodup_iff.mpr (nodup_freeFrames _ _), fun i => hinv.perm.mem_iff.mp,
      fun i _ => hinv.perm.mem_iff.mpr⟩
  · have hperm := hinv.perm
    rw [← freeFrames_erase (by decide)] at hperm
    exact ⟨hperm.nodup_iff.mpr ((nodup_freeFrames _ _).erase 4096),
      fun i hi => mem_of_mem_erase (hperm.mem_iff.mp hi),
      fun i hne hi => hperm.mem_iff.mpr ((mem_erase_of_ne hne).mpr hi)⟩

end Lost

/-! ## Runs -/

/-- In every run that frees only handed-out pages on which `PageInit` and
`PageFree` agree, no page is lost or duplicated.  The next operation keeps this
up exactly when the two agree on its page. -/
theorem page_alloc_no_loss {maxPfn : ℕ} (hmax : maxPfn < 2 ^ 32)
    (allocatedBitmap : ℕ → Bool) {s : PageSystem}
    (h : Reach pageStep (fun s op => op.Legal s ∧ op.Classified)
      (PageSystem.initial maxPfn allocatedBitmap) s) :
    NoLoss maxPfn allocatedBitmap s ∧
      (∀ page s', page ∈ s.handedOut → (PageOp.free page).Classified →
        pageStep s (.free page) = some s' →
        page ∈ s'.pages.isa.list ++ s'.pages.normal.list) ∧
      ∀ op s', op.Legal s → pageStep s op = some s' →
        (NoLoss maxPfn allocatedBitmap s' ↔ op.Classified) := by
  have hinv := pageInv_of_reach hmax h
  refine ⟨hinv.noLoss, ?_, ?_⟩
  · intro page s' hpage hclass hs'
    cases hs'
    have hinv' := hinv.free hmax hpage hclass
    have hfree : page ∈ freeFrames maxPfn allocatedBitmap :=
      hinv.perm.mem_iff.mp (mem_append_right _ hpage)
    rcases mem_append.mp (hinv'.perm.mem_iff.mpr hfree) with hin | hout
    · exact hin
    · exact absurd hout hinv.nodup_handedOut.not_mem_erase
  · intro op s' hlegal hs'
    exact hinv.noLoss_iff_classified hmax hlegal hs'

/-- Eight frames, the first two of them reserved; two are taken and one is
given back. -/
theorem page_alloc_no_loss_eight :
    ∃ s, Reach pageStep (fun s op => op.Legal s ∧ op.Classified) (PageSystem.initial 8 (· < 2)) s ∧
      s.handedOut = [6] ∧ NoLoss 8 (· < 2) s := by
  obtain ⟨s, hreach, hout⟩ := exists_reach pageStep (fun s op => op.Legal s ∧ op.Classified)
    (PageSystem.initial 8 (· < 2)) [.alloc, .allocLow, .free 7] (fun s => s.handedOut = [6]) rfl
  exact ⟨s, hreach, hout, (page_alloc_no_loss (by norm_num) (· < 2) hreach).1⟩

/-- With one frame above 16 MB, that frame is handed out first and is lost
when it is freed. -/
theorem page_free_4096_lost :
    ∃ s s', Reach pageStep (fun s op => op.Legal s) (PageSystem.initial 4097 fun _ => false) s ∧
      (PageOp.free 4096).Legal s ∧
      pageStep s (.free 4096) = some s' ∧
      ¬ NoLoss 4097 (fun _ => false) s' := by
  obtain ⟨s, hreach, hmem⟩ := exists_reach pageStep (fun s op => op.Legal s ∧ op.Classified)
    (PageSystem.initial 4097 fun _ => false) [.alloc] (fun s => 4096 ∈ s.handedOut) rfl
  refine ⟨s, _, hreach.mono fun _ _ hop => hop.1, hmem, rfl, ?_⟩
  exact (pageInv_of_reach (by norm_num) hreach).free_loses (by norm_num) hmem (by norm_num)

end Whitix.PageAlloc
