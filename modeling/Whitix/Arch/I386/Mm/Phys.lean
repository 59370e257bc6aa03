import Whitix.Arch.I386.Mm.E820
import Whitix.Include.Page
import Whitix.Memory.PageAlloc

/-!
# The memory that is given to the page allocator

`PhysInit` reduces the map of the memory to the end of its highest usable area, and
gives all page frames below it to the allocator but those it reserves itself.  The
areas that are not usable below that end are not reserved.
-/

namespace Whitix.Mm

open Support List Nat Function
open PageAlloc

/-! ## The code -/

/-- The image of the kernel, which is linked to 1 MB.  It ends in front of
`BITMAP_START_ADDRESS`. -/
structure KernelImage where
  size : ℕ
  fits : 0x100000 + size ≤ 0x180000

/-- The body of the loop of `GetMaxPfn`; 0 stands for the entries it skips. -/
def currEndPfn (entry : E820Entry) : ℕ :=
  let start := pageAlign ((entry.base + (pageSize - 1)) % 2 ^ 64)
  let stop := pageAlign ((entry.base + entry.length) % 2 ^ 64)
  if entry.rangeType ≠ 1 ∧ entry.rangeType ≠ 3 then 0
  else if 0x100000000 < stop then 0
  else if stop ≤ start then 0
  else dword (stop / pageSize)

def getMaxPfn (entries : List E820Entry) : ℕ :=
  entries.foldl (fun retVal entry =>
    if retVal < currEndPfn entry then currEndPfn entry else retVal) 0

/-- `maxPfn` in `PhysInit`, which is less than `PFN_MAX`. -/
def limitedPfn (maxPfn : ℕ) : ℕ := if 0x100000 ≤ maxPfn then 0x100000 - 1 else maxPfn

def pageReserveArea (allocatedBitmap : ℕ → Bool) (area : ℕ × ℕ) : ℕ → Bool :=
  let start := pageAlign area.1
  let size := pageAlignUp area.2
  (range (size / pageSize)).foldl (fun bitmap i =>
    update bitmap (dword (start + i * pageSize) / pageSize) true)
    allocatedBitmap

variable (image : KernelImage)

section

variable (maxPfn : ℕ) (entries : List E820Entry)

/-- The areas that `PageEarlyInit` reserves: the first page, the kernel, the page
stack, whose elements have 16 bytes, and the wait queues, which have 12. -/
def earlyAreas : List (ℕ × ℕ) :=
  [(0, pageSize), (0x100000, image.size), (0x200000, maxPfn * 16),
    (dwordSub (pageAlignUp (0xC0200000 + maxPfn * 16)) 0xC0000000, (maxPfn + 1023) / 2 ^ 10 * 12)]

def biosAreas : List (ℕ × ℕ) := [(0, pageSize), (0xA0000, 0x100000 - 0xA0000)]

def pageEarlyInit : ℕ → Bool :=
  (earlyAreas image maxPfn).foldl pageReserveArea fun _ => false

def doReserveAreas (allocatedBitmap : ℕ → Bool) : ℕ → Bool :=
  biosAreas.foldl pageReserveArea allocatedBitmap

/-- The kernel panics with less than 8 MB. -/
def physInit (memoryMap : List MbMemoryMap) : Option PageStacks :=
  (physReadMemoryMap memoryMap).bind fun entries =>
    let maxPfn := limitedPfn (getMaxPfn entries)
    let bitmap := pageEarlyInit image maxPfn
    if maxPfn / 2 ^ 8 < 8 then none
    else some (pageInit maxPfn (doReserveAreas bitmap))

/-! ## Usable and reserved memory -/

/-- A page frame lies wholly inside a free area, or one that ACPI gives back. -/
def Usable (pfn : ℕ) : Prop :=
  ∃ e ∈ entries, (e.rangeType = 1 ∨ e.rangeType = 3) ∧ e.base ≤ pfn * pageSize ∧
    (pfn + 1) * pageSize ≤ e.base + e.length

def areas : List (ℕ × ℕ) :=
  earlyAreas image maxPfn ++ biosAreas

/-- An address of the page frame is in the area. -/
def Touches (area : ℕ × ℕ) (pfn : ℕ) : Prop :=
  ∃ address, address / pageSize = pfn ∧ area.1 ≤ address ∧ address < area.1 + area.2

def Reserved (maxPfn pfn : ℕ) : Prop :=
  ∃ area ∈ areas image maxPfn, Touches area pfn

/-- Only usable memory that is not reserved has been given to the allocator. -/
def OnlyUsable (pages : PageStacks) : Prop :=
  ∀ pfn, pfn ∈ pages.isa.list ∨ pfn ∈ pages.normal.list → Usable entries pfn ∧
      ¬ Reserved image (limitedPfn (getMaxPfn entries)) pfn

/-- Below the last usable page frame there are only usable and reserved ones. -/
def NoHoles : Prop :=
  ∀ top, IsGreatest {pfn | pfn < 0x100000 ∧ Usable entries pfn} top →
    ∀ pfn < top, Usable entries pfn ∨ Reserved image (min (top + 1) 0xFFFFF) pfn

end

/-! ## The end of the memory -/

variable {e : E820Entry} {pfn : ℕ}

theorem lt_currEndPfn (haside : e.Aside) (hpfn : pfn < 0x100000)
    (htype : e.rangeType = 1 ∨ e.rangeType = 3) (hbase : e.base ≤ pfn * pageSize)
    (hend : (pfn + 1) * pageSize ≤ e.base + e.length) : pfn < currEndPfn e := by
  unfold currEndPfn pageAlign
  unfold pageSize at *
  unfold E820Entry.Aside at haside
  rw [if_neg (by omega), if_neg (by omega), if_neg (by omega), dword_of_lt (by omega)]
  omega

theorem currEndPfn_pos (haside : e.Aside) (h : 0 < currEndPfn e) :
    currEndPfn e ≤ 0x100000 ∧ (e.rangeType = 1 ∨ e.rangeType = 3) ∧
      e.base ≤ (currEndPfn e - 1) * pageSize ∧
      currEndPfn e * pageSize ≤ e.base + e.length := by
  unfold currEndPfn pageAlign at *
  unfold pageSize at *
  unfold E820Entry.Aside at haside
  dsimp only at *
  split_ifs at h ⊢ with htype hhigh hempty
  · exact absurd h (lt_irrefl 0)
  · exact absurd h (lt_irrefl 0)
  · exact absurd h (lt_irrefl 0)
  · rw [dword_of_lt (by omega)] at h ⊢
    omega

section Top

variable {entries : List E820Entry} (haside : ∀ e ∈ entries, e.Aside)

include haside

theorem Usable.lt_getMaxPfn (h : Usable entries pfn)
    (hpfn : pfn < 0x100000) : pfn < getMaxPfn entries := by
  obtain ⟨e, he, htype, hbase, hend⟩ := h
  exact lt_of_lt_of_le (lt_currEndPfn (haside e he) hpfn htype hbase hend)
    ((foldl_larger currEndPfn entries 0).2.1 e he)

theorem usable_getMaxPfn (h : getMaxPfn entries ≠ 0) :
    getMaxPfn entries ≤ 0x100000 ∧ Usable entries (getMaxPfn entries - 1) := by
  obtain ⟨e, he, heq⟩ := (foldl_larger currEndPfn entries 0).2.2.resolve_left h
  change currEndPfn e = getMaxPfn entries at heq
  have hpos : 0 < currEndPfn e := pos_of_ne_zero (heq ▸ h)
  obtain ⟨hle, htype, hbase, hend⟩ := currEndPfn_pos (haside e he) hpos
  rw [heq] at hpos hle hbase hend
  exact ⟨hle, e, he, htype, hbase, by rwa [Nat.sub_add_cancel hpos]⟩

theorem isGreatest_getMaxPfn (h : getMaxPfn entries ≠ 0) :
    IsGreatest {pfn | pfn < 0x100000 ∧ Usable entries pfn} (getMaxPfn entries - 1) := by
  obtain ⟨hle, husable⟩ := usable_getMaxPfn haside h
  refine ⟨⟨by omega, husable⟩, ?_⟩
  rintro pfn ⟨hpfn, husable'⟩
  have hlt := husable'.lt_getMaxPfn haside hpfn
  omega

end Top

/-! ## Reserved page frames -/

theorem foldl_update_iff {ι : Type*} (f : ι → ℕ) (l : List ι) (bitmap : ℕ → Bool) (pfn : ℕ) :
    l.foldl (fun bitmap i => update bitmap (f i) true) bitmap pfn = true ↔
      bitmap pfn = true ∨ ∃ i ∈ l, f i = pfn := by
  induction l generalizing bitmap with
  | nil => simp
  | cons i l ih =>
    rw [foldl_cons, ih, exists_mem_cons_iff, ← or_assoc]
    refine or_congr_left ?_
    by_cases hi : f i = pfn
    · subst hi
      simp
    · rw [update_of_ne (Ne.symm hi)]
      exact ⟨.inl, fun h => h.resolve_right hi⟩

def Early (area : ℕ × ℕ) : Prop := pageSize ∣ area.1 ∧ area.1 + area.2 ≤ 0x1400000

theorem pageReserveArea_iff {bitmap : ℕ → Bool} {area : ℕ × ℕ} (h : Early area) :
    pageReserveArea bitmap area pfn = true ↔ bitmap pfn = true ∨ Touches area pfn := by
  obtain ⟨hstart, hend⟩ := h
  unfold pageReserveArea Touches
  rw [foldl_update_iff]
  refine or_congr_right ?_
  rw [pageAlign_of_dvd hstart]
  obtain ⟨k, hk⟩ := hstart
  rw [hk] at hend ⊢
  have hpages : pageAlignUp area.2 / pageSize = (area.2 + 4095) / 4096 := by
    unfold pageAlignUp pageAlign pageSize
    rw [dword_of_lt (by omega)]
    omega
  unfold pageSize at *
  constructor
  · rintro ⟨i, hi, rfl⟩
    rw [mem_range] at hi
    rw [dword_of_lt (by omega)]
    exact ⟨4096 * k + i * 4096, rfl, by omega, by omega⟩
  · rintro ⟨address, rfl, hge, hlt⟩
    refine ⟨address / 4096 - k, mem_range.mpr (by omega), ?_⟩
    rw [dword_of_lt (by omega)]
    omega

theorem foldl_pageReserveArea_iff {l : List (ℕ × ℕ)} (h : ∀ area ∈ l, Early area)
    (bitmap : ℕ → Bool) (pfn : ℕ) :
    l.foldl pageReserveArea bitmap pfn = true ↔
      bitmap pfn = true ∨ ∃ area ∈ l, Touches area pfn := by
  induction l generalizing bitmap with
  | nil => simp
  | cons area l ih =>
    obtain ⟨harea, hl⟩ := forall_mem_cons.mp h
    rw [foldl_cons, ih hl, pageReserveArea_iff harea, exists_mem_cons_iff, or_assoc]

variable {maxPfn : ℕ}

section

variable (hmax : maxPfn < 0x100000)
include hmax

theorem early_of_mem_areas : ∀ area ∈ areas image maxPfn, Early area := by
  have hfits := image.fits
  have halign : pageAlignUp (0xC0200000 + maxPfn * 16) =
      (0xC0200000 + maxPfn * 16 + 4095) / 4096 * 4096 := by
    unfold pageAlignUp pageAlign pageSize
    rw [dword_of_lt (by omega)]
  unfold areas earlyAreas biosAreas Early
  rw [dwordSub_of_le (by omega)]
  unfold pageSize
  simp only [cons_append, nil_append, forall_mem_cons]
  refine ⟨?_, ?_, ?_, ?_, ?_, ?_, nofun⟩
  all_goals omega

theorem reserved_iff (pfn : ℕ) :
    doReserveAreas (pageEarlyInit image maxPfn) pfn = true ↔ Reserved image maxPfn pfn := by
  unfold doReserveAreas pageEarlyInit
  rw [← foldl_append, ← areas, foldl_pageReserveArea_iff (early_of_mem_areas image hmax)]
  exact or_iff_right Bool.false_ne_true

theorem Reserved.lt {image : KernelImage} (h : Reserved image maxPfn pfn) : pfn < 5120 := by
  obtain ⟨area, harea, address, rfl, -, hlt⟩ := h
  have hend := (early_of_mem_areas image hmax area harea).2
  unfold pageSize
  omega

/-! ## The page stacks -/

theorem mem_pageInit_iff (pfn : ℕ) :
    (pfn ∈ (pageInit maxPfn (doReserveAreas (pageEarlyInit image maxPfn))).isa.list ∨
      pfn ∈ (pageInit maxPfn (doReserveAreas (pageEarlyInit image maxPfn))).normal.list) ↔
      pfn < maxPfn ∧ ¬ Reserved image maxPfn pfn := by
  generalize hbitmap : doReserveAreas (pageEarlyInit image maxPfn) = bitmap
  have hnoLoss : NoLoss maxPfn bitmap (PageSystem.initial maxPfn bitmap) :=
    (pageInv_initial (by omega)).noLoss
  have hreserved : bitmap pfn = false ↔ ¬ Reserved image maxPfn pfn := by
    rw [← reserved_iff image hmax, hbitmap, Bool.not_eq_true]
  have hisa := hnoLoss.mem_isa pfn
  have hnormal := hnoLoss.mem_normal pfn
  change pfn ∈ (pageInit maxPfn bitmap).isa.list ↔ _ ∧ _ ∧ pfn ∉ [] at hisa
  change pfn ∈ (pageInit maxPfn bitmap).normal.list ↔ _ ∧ _ ∧ pfn ∉ [] at hnormal
  rw [hisa, hnormal, InitiallyFree, hreserved]
  constructor
  · rintro (⟨⟨hlt, hfree⟩, -⟩ | ⟨⟨hlt, hfree⟩, -⟩)
    all_goals
      refine ⟨hlt, fun hres => ?_⟩
      have hbelow := hres.lt hmax
      exact hfree.elim (fun hge => by omega) (fun hnot => hnot hres)
  · rintro ⟨hlt, hnot⟩
    rcases lt_or_ge pfn 4096 with hpfn | hpfn
    · exact .inl ⟨⟨hlt, .inr hnot⟩, hpfn, not_mem_nil⟩
    · exact .inr ⟨⟨hlt, .inr hnot⟩, hpfn, not_mem_nil⟩

end

theorem limitedPfn_lt (maxPfn : ℕ) : limitedPfn maxPfn < 0x100000 := by
  unfold limitedPfn
  split_ifs <;> omega

/-- What `PhysInit` gives to the allocator, on a machine with 8 MB. -/
theorem physInit_eq {memoryMap : List MbMemoryMap} {entries : List E820Entry}
    (hentries : physReadMemoryMap memoryMap = some entries) (hsize : 2048 ≤ getMaxPfn entries) :
    ∃ pages, physInit image memoryMap = some pages ∧
      ∀ pfn, (pfn ∈ pages.isa.list ∨ pfn ∈ pages.normal.list) ↔
        pfn < limitedPfn (getMaxPfn entries) ∧
          ¬ Reserved image (limitedPfn (getMaxPfn entries)) pfn := by
  have hpanic : ¬ limitedPfn (getMaxPfn entries) / 2 ^ 8 < 8 := by
    unfold limitedPfn
    split_ifs <;> omega
  unfold physInit
  rw [hentries, Option.bind_some]
  rw [if_neg hpanic]
  exact ⟨_, rfl, mem_pageInit_iff image (limitedPfn_lt _)⟩

/-- Only usable memory is given to the allocator if and only if the memory has no
holes but the reserved areas. -/
theorem physInit_onlyUsable_iff (image : KernelImage) (memoryMap : List MbMemoryMap)
    (entries : List E820Entry)
    (hbelow : ∀ entry ∈ memoryMap, entry.baseAddr + entry.length ≤ 2 ^ 32)
    (hentries : physReadMemoryMap memoryMap = some entries)
    (hsize : ∃ pfn, 2047 ≤ pfn ∧ pfn < 0x100000 ∧ Usable entries pfn) :
    ∃ pages, physInit image memoryMap = some pages ∧
      (OnlyUsable image entries pages ↔ NoHoles image entries) := by
  have haside := physReadMemoryMap_spec hbelow hentries
  obtain ⟨large, hlarge, hlimit, husable⟩ := hsize
  have hmax := husable.lt_getMaxPfn haside hlimit
  obtain ⟨pages, hpages, hmem⟩ := physInit_eq image hentries (by omega)
  have hgreatest := isGreatest_getMaxPfn haside (by omega)
  have hle := (usable_getMaxPfn haside (by omega)).1
  have hlimited : min (getMaxPfn entries - 1 + 1) 0xFFFFF = limitedPfn (getMaxPfn entries) := by
    unfold limitedPfn
    split_ifs <;> omega
  refine ⟨pages, hpages, ?_, ?_⟩
  · intro honly top htop pfn hpfn
    rw [htop.unique hgreatest] at hpfn ⊢
    rw [hlimited]
    by_cases hreserved : Reserved image (limitedPfn (getMaxPfn entries)) pfn
    · exact .inr hreserved
    · exact .inl (honly pfn ((hmem pfn).mpr ⟨by omega, hreserved⟩)).1
  · intro hholes pfn hpfn
    obtain ⟨hlt, hnot⟩ := (hmem pfn).mp hpfn
    refine ⟨?_, hnot⟩
    rcases lt_or_ge pfn (getMaxPfn entries - 1) with hlower | htop
    · refine (hholes _ hgreatest pfn hlower).resolve_right ?_
      rwa [hlimited]
    · obtain rfl : pfn = getMaxPfn entries - 1 := by omega
      exact hgreatest.1.2

/-! ## Two maps -/

def smallImage : KernelImage := ⟨0x40000, by decide⟩

def biosMap : List MbMemoryMap := [⟨0x100000, 0xF00000, 1⟩, ⟨0, 0xA0000, 1⟩]

theorem physReadMemoryMap_biosMap :
    physReadMemoryMap biosMap = some [⟨0, 0xA0000, 1⟩, ⟨0x100000, 0xF00000, 1⟩] := by decide

theorem physInit_onlyUsable_bios :
    ∃ pages, physInit smallImage biosMap = some pages ∧
      OnlyUsable smallImage [⟨0, 0xA0000, 1⟩, ⟨0x100000, 0xF00000, 1⟩] pages := by
  obtain ⟨pages, hpages, hiff⟩ := physInit_onlyUsable_iff smallImage biosMap _
    (by decide) physReadMemoryMap_biosMap
    ⟨4095, by decide, by decide, _, mem_cons_of_mem _ mem_cons_self,
      by decide, by decide, by decide⟩
  refine ⟨pages, hpages, hiff.mpr fun top htop pfn hpfn => ?_⟩
  have hlimit : top < 0x1000 := by
    obtain ⟨e, he, -, -, hend⟩ := htop.1.2
    have hsum : ∀ e ∈ ([⟨0, 0xA0000, 1⟩, ⟨0x100000, 0xF00000, 1⟩] : List E820Entry),
        e.base + e.length ≤ 0x1000000 := by decide
    have hle := hsum e he
    unfold pageSize at hend
    omega
  unfold Usable Reserved Touches pageSize
  rcases lt_or_ge pfn 0xA0 with hlow | hlow
  · exact .inl ⟨_, mem_cons_self, by decide, by dsimp only; omega,
      by dsimp only; omega⟩
  rcases lt_or_ge pfn 0x100 with hbios | hbios
  · refine .inr ⟨(0xA0000, 0x60000), ?_, pfn * 4096, by omega, by dsimp only; omega,
      by dsimp only; omega⟩
    exact mem_append_right _ (mem_cons_of_mem _ mem_cons_self)
  · exact .inl ⟨_, mem_cons_of_mem _ mem_cons_self, by decide,
      by dsimp only; omega, by dsimp only; omega⟩

/-- The same memory, with a megabyte that is reserved at 9 MB. -/
def holeMap : List MbMemoryMap :=
  [⟨0, 0xA0000, 1⟩, ⟨0x100000, 0xF00000, 1⟩, ⟨0x900000, 0x100000, 2⟩]

/-- The reserved page frame 0x900 is given to the allocator. -/
theorem physInit_not_onlyUsable :
    ∃ entries pages, physReadMemoryMap holeMap = some entries ∧
      physInit smallImage holeMap = some pages ∧
      (0x900 ∈ pages.isa.list ∨ 0x900 ∈ pages.normal.list) ∧
      ¬ Usable entries 0x900 := by
  have hentries : physReadMemoryMap holeMap = some [⟨0, 0xA0000, 1⟩,
      ⟨0x100000, 0x800000, 1⟩, ⟨0x900000, 0x100000, 2⟩, ⟨0xA00000, 0x600000, 1⟩] := by decide
  obtain ⟨pages, hpages, hmem⟩ := physInit_eq smallImage hentries (by decide)
  refine ⟨_, pages, hentries, hpages, (hmem 0x900).mpr ⟨by decide, ?_⟩, ?_⟩
  · rintro ⟨area, harea, address, haddress, -, hlt⟩
    have hlow : ∀ area ∈ areas smallImage 0x1000, area.1 + area.2 ≤ 0x900000 := by decide
    have hle := hlow area harea
    unfold pageSize at haddress
    omega
  · unfold Usable
    decide

/-! ## Runs after the boot -/

theorem initiallyFree_iff (hmax : maxPfn < 0x100000) :
    InitiallyFree maxPfn (doReserveAreas (pageEarlyInit image maxPfn)) pfn ↔
      pfn < maxPfn ∧ ¬ Reserved image maxPfn pfn := by
  rw [InitiallyFree, ← Bool.not_eq_true, reserved_iff image hmax]
  refine and_congr_right fun _ => or_iff_right_of_imp fun hge hres => ?_
  exact absurd (hres.lt hmax) (not_lt.mpr hge)

/-- A map of at most 32 entries is read.  If it has 8 MB, then in every run that frees only
pages that were handed out, a frame is on one of the stacks or handed out, once, and no
reserved frame is.  Frame 4096 alone may be lost. -/
theorem frames_conserved (image : KernelImage) (memoryMap : List MbMemoryMap)
    (hlength : memoryMap.length ≤ 32) :
    ∃ entries, physReadMemoryMap memoryMap = some entries ∧
      (2048 ≤ getMaxPfn entries → ∃ pages, physInit image memoryMap = some pages ∧
        ∀ s, Reach pageStep (fun s op => op.Legal s) ⟨pages, []⟩ s →
          let maxPfn := limitedPfn (getMaxPfn entries)
          s.held.Nodup ∧ (∀ pfn ∈ s.held, pfn < maxPfn ∧ ¬ Reserved image maxPfn pfn) ∧
            ∀ pfn ≠ 4096, pfn < maxPfn → ¬ Reserved image maxPfn pfn → pfn ∈ s.held) := by
  obtain ⟨entries, hentries⟩ := physReadMemoryMap_returns hlength
  refine ⟨entries, hentries, fun hsize => ?_⟩
  have hpanic : ¬ limitedPfn (getMaxPfn entries) / 2 ^ 8 < 8 := by
    unfold limitedPfn
    split_ifs <;> omega
  have hmax := limitedPfn_lt (getMaxPfn entries)
  unfold physInit
  rw [hentries, Option.bind_some, if_neg hpanic]
  refine ⟨_, rfl, fun s hreach => ?_⟩
  have hheld := held_of_reach (by omega) hreach
  simp only [initiallyFree_iff image hmax, and_imp] at hheld
  exact hheld

theorem frames_conserved_bios :
    ∃ pages, physInit smallImage biosMap = some pages ∧
      ∀ s, Reach pageStep (fun s op => op.Legal s) ⟨pages, []⟩ s →
        s.held.Nodup ∧ ∀ pfn ∈ s.held, pfn < 4096 ∧ ¬ Reserved smallImage 4096 pfn := by
  obtain ⟨entries, hentries, hheld⟩ := frames_conserved smallImage biosMap (by decide)
  cases Option.some.inj (hentries.symm.trans physReadMemoryMap_biosMap)
  obtain ⟨pages, hpages, hrun⟩ := hheld (by decide)
  exact ⟨pages, hpages, fun s hreach => ⟨(hrun s hreach).1, (hrun s hreach).2.1⟩⟩

end Whitix.Mm
