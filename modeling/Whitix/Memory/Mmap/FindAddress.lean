import Mathlib.Order.Bounds.Basic
import Whitix.Memory.Mmap.Calls

/-!
# Finding room for a mapping

`MMapFindAddress` takes the first gap between the areas that is long enough.  It does
not ask whether the length fits between the last area and `MMAP_END`, the length of
a mapping may wrap to 0 when it is rounded to pages, and behind an area that lies below
`MMAP_BASE` the search goes on below it.
-/

namespace Whitix.Mmap

open Support List Nat

/-! ## Room for a mapping -/

/-- The length in whole pages. -/
def roundedLength (length : ℕ) : ℕ := (length + (pageSize - 1)) / pageSize * pageSize

/-- There is room for a mapping of the length at the address. -/
structure FitsAt (areaList : List VMArea) (length address : ℕ) : Prop where
  aligned : pageSize ∣ address
  base_le : mmapBase ≤ address
  le_end : address + roundedLength length ≤ mmapEnd
  free : ∀ area ∈ areaList, area.finish ≤ address ∨ address + roundedLength length ≤ area.start

/-- `MMapFindAddress` returns an address with room, or 0 if there is none; and where
`MMapDo` goes on at the address it has chosen, it unmaps nothing. -/
structure FindsRoom (areaList : List VMArea) (length : ℕ) : Prop where
  sound : mmapFindAddress areaList length ≠ 0 →
    FitsAt areaList length (mmapFindAddress areaList length)
  complete : mmapFindAddress areaList length = 0 → ¬ ∃ address, FitsAt areaList length address
  unmaps : ∀ alloc args, args.flags &&& mmapFixed = 0 → args.length = length →
    mmapBase ≤ mmapDoAddress areaList args →
    ∃ err, mmapUnmap alloc areaList (mmapDoAddress areaList args)
      (pageAlignUp args.length) = some (areaList, err)

/-! ## Gaps -/

/-- Where the gap behind the area begins: its end, with the length in whole pages.  This
is not wrapped to 32 bits. -/
def VMArea.stop (area : VMArea) : ℕ := area.start + roundedLength area.length

/-- A gap begins at the start of the region, if no area starts in front of it, and
behind every area. -/
def GapStart (areaList : List VMArea) (address : ℕ) : Prop :=
  (address = mmapBase ∧ ∀ area ∈ areaList, mmapBase ≤ area.start) ∨
    ∃ area ∈ areaList, area.stop = address

/-- From the address on there are `length` bytes in front of the next area.  Behind the
last page of the address space nothing follows. -/
def Clear (areaList : List VMArea) (length address : ℕ) : Prop :=
  2 ^ 32 ≤ address ∨ ∀ area ∈ areaList, area.stop ≤ address ∨ address + length ≤ area.start

/-- The first gap that is long enough; the last one counts as such. -/
def FirstFit (areaList : List VMArea) (length address : ℕ) : Prop :=
  IsLeast {a | GapStart areaList a ∧ Clear areaList (pageAlignUp length) a} address

/-- The first gap that is long enough lies on page boundaries in the region; or it is the
one behind an area that ends with the region or the address space, and the length
fits nowhere. -/
def FirstFitServes (areaList : List VMArea) (length : ℕ) : Prop :=
  ∃ address, FirstFit areaList length address ∧
    (pageSize ∣ address ∧ mmapBase ≤ address ∧ address + roundedLength length ≤ mmapEnd ∨
      (address = 2 ^ 32 ∨ address = mmapEnd ∧ ∀ area ∈ areaList, area.stop ≤ address) ∧
        ¬ ∃ a, FitsAt areaList length a)

variable {length address : ℕ} {args : MapArgs} {xs : List VMArea} {area : VMArea}

theorem roundedLength_bounds (length : ℕ) :
    length ≤ roundedLength length ∧ roundedLength length < length + pageSize := by
  unfold roundedLength pageSize
  omega

theorem pageSize_le_roundedLength (hpos : 0 < length) : pageSize ≤ roundedLength length := by
  unfold roundedLength pageSize
  omega

theorem pageAlignUp_eq_dword (length : ℕ) :
    pageAlignUp length = dword (roundedLength length) := by
  unfold pageAlignUp pageAlign roundedLength dword pageSize
  omega

theorem pageAlignUp_le (length : ℕ) : pageAlignUp length ≤ 2 ^ 32 - pageSize := by
  unfold pageAlignUp pageAlign dword pageSize
  omega

theorem pageAlignUp_eq_rounded (h : roundedLength length ≤ mmapEnd) :
    pageAlignUp length = roundedLength length := by
  rw [pageAlignUp_eq_dword length]
  apply dword_of_lt
  unfold mmapEnd at h
  omega

theorem VMArea.dword_stop (area : VMArea) :
    dword (area.start + pageAlignUp area.length) = dword area.stop := by
  rw [pageAlignUp_eq_dword]
  unfold VMArea.stop dword
  omega

/-! ## The walk along the areas -/

/-- The starts of gaps of which the walk takes the least one; `first` says which address
in front of the areas is one. -/
def gaps (first : ℕ → Prop) (length : ℕ) (xs : List VMArea) : Set ℕ :=
  {a | (first a ∨ ∃ area ∈ xs, area.stop = a) ∧ Clear xs length a}

/-- The areas are in order, disjoint, nonempty and end in the address space.  They may lie
anywhere in it, also off page boundaries. -/
structure AreasOrdered (xs : List VMArea) : Prop where
  intervals : IntervalList VMArea.start VMArea.finish xs
  finish_le : ∀ area ∈ xs, area.finish ≤ 2 ^ 32

theorem AreasOrdered.tail {curr : VMArea} {rest : List VMArea} (h : AreasOrdered (curr :: rest)) :
    AreasOrdered rest :=
  ⟨h.intervals.sublist (sublist_cons_self _ _), (forall_mem_cons.mp h.finish_le).2⟩

theorem AreasOrdered.stop_ge (h : AreasOrdered xs) (harea : area ∈ xs) :
    area.start + pageSize ≤ area.stop := by
  have hnonempty := h.intervals.nonempty area harea
  apply Nat.add_le_add_left
  apply pageSize_le_roundedLength
  unfold VMArea.finish at hnonempty
  omega

theorem AreasOrdered.stop_lt {curr : VMArea} {rest : List VMArea}
    (h : AreasOrdered (curr :: rest)) (harea : area ∈ rest) :
    curr.stop < area.start + pageSize := by
  have hnext : curr.finish ≤ area.start :=
    (pairwise_cons.mp h.intervals.ordered).1 area harea
  have hbound := (roundedLength_bounds curr.length).2
  unfold VMArea.finish at hnext
  unfold VMArea.stop
  omega

theorem AreasOrdered.stop_lt_pow (h : AreasOrdered xs) (harea : area ∈ xs) :
    area.stop < 2 ^ 32 + pageSize := by
  have hfinish := h.finish_le area harea
  have hbound := (roundedLength_bounds area.length).2
  unfold VMArea.finish at hfinish
  unfold VMArea.stop
  omega

theorem AreasOrdered.stop_le_of_gap {curr : VMArea} {rest : List VMArea}
    (h : AreasOrdered (curr :: rest)) (hgap : address ∈ gaps (· = curr.stop) length rest) :
    curr.stop ≤ address := by
  rcases hgap.1 with rfl | ⟨area, harea, rfl⟩
  · exact le_rfl
  · exact (lt_of_lt_of_le (h.stop_lt harea) (h.tail.stop_ge harea)).le

theorem AreasOrdered.firstFit_bounds (h : AreasOrdered xs) (hfirst : FirstFit xs length address) :
    0 < address ∧ address < 2 ^ 32 + pageSize := by
  rcases hfirst.1.1 with ⟨rfl, -⟩ | ⟨area, harea, rfl⟩
  · decide
  · have hstop := h.stop_ge harea
    exact ⟨lt_of_lt_of_le (by unfold pageSize; omega) hstop, h.stop_lt_pow harea⟩

/-- If no gap in front of an area is clear, the walk is about the areas behind it. -/
theorem gaps_cons {first : ℕ → Prop} {curr : VMArea} {rest : List VMArea}
    (h : AreasOrdered (curr :: rest))
    (hfirst : ∀ a, first a → ¬ Clear (curr :: rest) length a) :
    gaps first length (curr :: rest) = gaps (· = curr.stop) length rest := by
  ext a
  constructor
  · rintro ⟨hstart | ⟨area, harea, rfl⟩, hclear⟩
    · exact absurd hclear (hfirst a hstart)
    · refine ⟨?_, hclear.imp_right fun hall => (forall_mem_cons.mp hall).2⟩
      rcases mem_cons.mp harea with rfl | harea
      · exact .inl rfl
      · exact .inr ⟨area, harea, rfl⟩
  · rintro ⟨hstart, hclear⟩
    have hle := h.stop_le_of_gap ⟨hstart, hclear⟩
    refine ⟨.inr ?_, hclear.imp_right fun hall => forall_mem_cons.mpr ⟨.inl hle, hall⟩⟩
    rcases hstart with rfl | ⟨area, harea, rfl⟩
    · exact ⟨curr, mem_cons_self, rfl⟩
    · exact ⟨area, mem_cons_of_mem _ harea, rfl⟩

/-- The address that the walk returns when `a` is where the gap begins that it takes. -/
def WalkResult (xs : List VMArea) (a r : ℕ) : Prop :=
  (a = mmapEnd ∧ (∀ area ∈ xs, area.stop ≤ a)) ∧ r = 0 ∨
    ¬ (a = mmapEnd ∧ ∀ area ∈ xs, area.stop ≤ a) ∧ r = dword a

theorem WalkResult.cons {curr : VMArea} {rest : List VMArea} {r : ℕ}
    (h : WalkResult rest address r) (hle : curr.stop ≤ address) :
    WalkResult (curr :: rest) address r := by
  unfold WalkResult
  rw [forall_mem_cons, and_iff_right hle]
  exact h

/-- The loop of `MMapFindAddress` from an address in front of the areas.  The address
may be past the address space, where the loop has it wrapped. -/
theorem mmapFindWalk_least (h : AreasOrdered xs) (hlength : length ≤ 2 ^ 32 - pageSize)
    {mapStart : ℕ} (hlt : mapStart < 2 ^ 32 + pageSize)
    (hnext : ∀ area ∈ xs, mapStart < area.start + pageSize) :
    ∃ a, IsLeast (gaps (· = mapStart) length xs) a ∧
      WalkResult xs a (mmapFindWalk length (dword mapStart) xs) := by
  induction xs generalizing mapStart with
  | nil =>
    refine ⟨mapStart, ⟨⟨.inl rfl, .inr (by simp)⟩, ?_⟩, ?_⟩
    · rintro a ⟨rfl | ⟨area, harea, -⟩, -⟩
      · exact le_rfl
      · simp at harea
    · have hend : dword mapStart = mmapEnd ↔ mapStart = mmapEnd := by
        unfold dword mmapEnd
        unfold pageSize at hlt
        omega
      by_cases hmap : mapStart = mmapEnd
      · exact .inl ⟨⟨hmap, by simp⟩, if_pos (hend.mpr hmap)⟩
      · exact .inr ⟨fun h => hmap h.1, if_neg (mt hend.mp hmap)⟩
  | cons curr rest ih =>
    have hcurr := hnext curr mem_cons_self
    have hcurrStop := h.stop_ge mem_cons_self
    have hstart := h.intervals.nonempty curr mem_cons_self
    have hrest := (pairwise_cons.mp h.intervals.ordered).1
    rw [mmapFindWalk]
    by_cases hfits : dword mapStart ≤ curr.start ∧ length ≤ curr.start - dword mapStart
    · rw [if_pos hfits]
      refine ⟨mapStart, ⟨⟨.inl rfl, ?_⟩, ?_⟩, .inr ⟨?_, rfl⟩⟩
      · by_cases hwrapped : 2 ^ 32 ≤ mapStart
        · exact .inl hwrapped
        · rw [dword_of_lt (Nat.lt_of_not_le hwrapped)] at hfits
          refine .inr (forall_mem_cons.mpr ⟨.inr (by omega), fun area harea => .inr ?_⟩)
          have hlater := hrest area harea
          omega
      · rintro a ⟨rfl | ⟨area, harea, rfl⟩, -⟩
        · exact le_rfl
        · have hafter := hnext area harea
          have hstop := h.stop_ge harea
          omega
      · rintro ⟨-, hall⟩
        have hle := hall curr mem_cons_self
        omega
    · -- A wrapped start would have fitted, for the next area is in the last page.
      have hinside : mapStart < 2 ^ 32 := by
        by_contra hwrapped
        apply hfits
        unfold dword
        unfold pageSize at *
        omega
      rw [if_neg hfits, VMArea.dword_stop]
      rw [dword_of_lt hinside] at hfits
      have hblocked : ∀ a, a = mapStart → ¬ Clear (curr :: rest) length a := by
        rintro a rfl (hwrapped | hall)
        · omega
        · have hclear := hall curr mem_cons_self
          omega
      obtain ⟨a, hleast, hresult⟩ :=
        ih h.tail (h.stop_lt_pow mem_cons_self) fun area harea => h.stop_lt harea
      rw [gaps_cons h hblocked]
      exact ⟨a, hleast, hresult.cons (h.stop_le_of_gap hleast.1)⟩

/-- `MMapFindAddress` takes the first gap that is long enough. -/
theorem mmapFindAddress_firstFit (h : AreasOrdered xs) (length : ℕ) :
    ∃ a, FirstFit xs length a ∧ WalkResult xs a (mmapFindAddress xs length) := by
  have hlength := pageAlignUp_le length
  change ∃ a, IsLeast (gaps (fun a => a = mmapBase ∧ ∀ area ∈ xs, mmapBase ≤ area.start)
    (pageAlignUp length) xs) a ∧ _
  by_cases hbase : ∀ area ∈ xs, mmapBase ≤ area.start
  · have hnext : ∀ area ∈ xs, mmapBase < area.start + pageSize := fun area harea =>
      lt_of_le_of_lt (hbase area harea) (Nat.lt_add_of_pos_right (by decide))
    obtain ⟨a, hleast, hresult⟩ := mmapFindWalk_least h hlength (by decide) hnext
    have hfirst : (fun a => a = mmapBase ∧ ∀ area ∈ xs, mmapBase ≤ area.start) =
        (· = mmapBase) := by
      funext a
      exact propext (and_iff_left hbase)
    rw [hfirst]
    exact ⟨a, hleast, hresult⟩
  · cases xs with
    | nil => simp at hbase
    | cons curr rest =>
      -- The list is ordered, so its first area starts below the region and is skipped.
      have hbelow : curr.start < mmapBase := by
        by_contra hge
        refine hbase (forall_mem_cons.mpr ⟨Nat.le_of_not_lt hge, fun area harea => ?_⟩)
        have hnonempty := h.intervals.nonempty curr mem_cons_self
        have hlater := (pairwise_cons.mp h.intervals.ordered).1 area harea
        omega
      rw [gaps_cons h fun a hfirst _ => hbase hfirst.2, mmapFindAddress, mmapFindWalk,
        if_neg fun hfits => absurd hfits.1 (Nat.not_le_of_lt hbelow), VMArea.dword_stop]
      obtain ⟨a, hleast, hresult⟩ := mmapFindWalk_least h.tail hlength
        (h.stop_lt_pow mem_cons_self) fun area harea => h.stop_lt harea
      exact ⟨a, hleast, hresult.cons (h.stop_le_of_gap hleast.1)⟩

/-! ## The search -/

theorem mmapUnmap_of_free (alloc : ℕ → ℕ → Bool)
    (hfree : ∀ area ∈ xs, length = 0 ∨ address < area.start ∨ area.finish ≤ address) :
    ∃ err, mmapUnmap alloc xs address length = some (xs, err) := by
  rw [mmapUnmap]
  split_ifs with hrejected
  · exact ⟨_, rfl⟩
  · cases hlookup : vmLookupAddress xs address with
    | none => exact ⟨_, rfl⟩
    | some i =>
      obtain ⟨front, area, back, rfl, -, hle, hlt⟩ := vmLookupAddress_some hlookup
      have hout := hfree area (by simp)
      have hlength : length ≠ 0 := fun hzero => hrejected (by simp [UnmapRejected, hzero])
      omega

/-- Where the search is sound, `MMapDo` unmaps nothing. -/
theorem mmapUnmap_of_sound (hsound : mmapFindAddress xs length ≠ 0 →
      FitsAt xs length (mmapFindAddress xs length)) (alloc : ℕ → ℕ → Bool)
    (hfixed : args.flags &&& mmapFixed = 0) (hargs : args.length = length)
    (hbase : mmapBase ≤ mmapDoAddress xs args) :
    ∃ err, mmapUnmap alloc xs (mmapDoAddress xs args) (pageAlignUp args.length) =
      some (xs, err) := by
  have haddress : mmapDoAddress xs args = pageAlign (mmapFindAddress xs length) := by
    rw [mmapDoAddress, if_pos hfixed, mmapFindAddress, pageAlignUp_idem, hargs, mmapFindAddress]
  have hne : mmapFindAddress xs length ≠ 0 := by
    intro hzero
    rw [haddress, hzero] at hbase
    exact absurd hbase (by decide)
  have hfits := hsound hne
  rw [haddress, pageAlign_of_dvd hfits.aligned]
  apply mmapUnmap_of_free
  intro area harea
  have hpos : length = 0 ∨ 0 < roundedLength length := by
    have hbounds := roundedLength_bounds length
    omega
  rcases hpos with hzero | hpos
  · left
    rw [hargs, hzero]
    decide
  · have hout := hfits.free area harea
    omega

/-- In a list of areas that are in order and disjoint, the search finds room if and only
if the first gap that is long enough serves. -/
theorem mmapFindAddress_iff (areaList : List VMArea) (h : AreasOrdered areaList)
    (length : ℕ) (hpos : 1 ≤ length) : FindsRoom areaList length ↔
      FirstFitServes areaList length := by
  obtain ⟨a, hfirst, hresult⟩ := mmapFindAddress_firstFit h length
  have hsmall := h.firstFit_bounds hfirst
  constructor
  · intro hfinds
    refine ⟨a, hfirst, ?_⟩
    by_cases hzero : mmapFindAddress areaList length = 0
    · refine .inr ⟨?_, hfinds.complete hzero⟩
      rcases hresult with ⟨hlast, -⟩ | ⟨-, hr⟩
      · exact .inr hlast
      · left
        rw [hzero] at hr
        unfold dword at hr
        unfold pageSize at hsmall
        omega
    · have hfits := hfinds.sound hzero
      rcases hresult with ⟨-, hr⟩ | ⟨-, hr⟩
      · exact absurd hr hzero
      · have ha : mmapFindAddress areaList length = a := by
          have hbase := hfits.base_le
          unfold dword mmapBase at *
          unfold pageSize at hsmall
          omega
        rw [ha] at hfits
        exact .inl ⟨hfits.aligned, hfits.base_le, hfits.le_end⟩
  · rintro ⟨b, hb, hserves⟩
    obtain rfl := hb.unique hfirst
    suffices hboth : (mmapFindAddress areaList length ≠ 0 →
        FitsAt areaList length (mmapFindAddress areaList length)) ∧
        (mmapFindAddress areaList length = 0 → ¬ ∃ address, FitsAt areaList length address) from
      ⟨hboth.1, hboth.2, fun alloc args hfixed hargs =>
        mmapUnmap_of_sound hboth.1 alloc hfixed hargs⟩
    rcases hserves with ⟨hdvd, hbase, hend⟩ | ⟨hfull, hnone⟩
    · have hlong := pageSize_le_roundedLength hpos
      have hinside : b < mmapEnd ∧ b < 2 ^ 32 := by
        unfold mmapEnd pageSize at *
        omega
      have haddress : mmapFindAddress areaList length = b := by
        rcases hresult with ⟨⟨hend', -⟩, -⟩ | ⟨-, hr⟩
        · omega
        · rw [hr, dword_of_lt hinside.2]
      have hclear := hfirst.1.2.resolve_left (Nat.not_le_of_lt hinside.2)
      rw [pageAlignUp_eq_rounded (le_trans (Nat.le_add_left _ _) hend)] at hclear
      rw [haddress]
      refine ⟨fun _ => ⟨hdvd, hbase, hend, fun area harea => ?_⟩, fun hzero => ?_⟩
      · refine (hclear area harea).imp_left fun hstop => ?_
        have hbound := (roundedLength_bounds area.length).1
        unfold VMArea.finish
        unfold VMArea.stop at hstop
        omega
      · omega
    · have hzero : mmapFindAddress areaList length = 0 := by
        rcases hresult with ⟨-, hr⟩ | ⟨hnot, hr⟩
        · exact hr
        · rw [hr, hfull.resolve_right hnot]
          rfl
      exact ⟨fun hne => absurd hzero hne, fun _ => hnone⟩

/-- A gap at the start of the region, in front of an area that reaches out of it. -/
theorem mmapFindAddress_two :
    FindsRoom [⟨0x900000, 0x1000, 0, 8, 7, 1, 0⟩, ⟨0xBFFFF000, 0x2000, 0, 8, 7, 1, 0⟩]
      0x1000 := by
  refine (mmapFindAddress_iff _ ⟨⟨by decide, by decide⟩, by decide⟩ _ (by decide)).mpr
    ⟨mmapBase, ⟨⟨.inl ⟨rfl, by decide⟩, .inr (by decide)⟩, ?_⟩,
      .inl ⟨by decide, le_rfl, by decide⟩⟩
  rintro a ⟨⟨rfl, -⟩ | ⟨area, harea, rfl⟩, -⟩
  · exact le_rfl
  · simp only [mem_cons, not_mem_nil, or_false] at harea
    rcases harea with rfl | rfl <;> decide

/-- One page is left behind the last area, and two are asked for. -/
theorem mmapFindAddress_beyond : ¬ FindsRoom [⟨0x800000, 0xBF7FF000, 0, 8, 7, 1, 0⟩] 0x2000 := by
  intro h
  have hend := (h.sound (by decide)).le_end
  exact absurd hend (by decide)

end Whitix.Mmap
