import Whitix.Include.Page
import Whitix.Support.IntervalList

/-!
# Memory areas

Every process has a list of memory areas, ordered by start address.  This
module contains the data of `memory/mmap.c` and the functions that search the
list or insert into it.  Addresses and lengths are `DWORD` values, and a
position in the list plays the part of a pointer to an area.
-/

namespace Whitix.Mmap

open Support List

/-! ## The code -/

def mmapBase : ℕ := 0x800000

def mmapEnd : ℕ := 0xC0000000

def mmapFixed : ℕ := 2

def mmapGrowdown : ℕ := 4

def mmapAnon : ℕ := 8

/-- `struct VMArea` without the list pointers and the process.  Nodes and
operations are named by their addresses. -/
structure VMArea where
  start : ℕ
  length : ℕ
  offset : ℕ
  flags : ℕ
  protection : ℕ
  vNode : ℕ
  areaOps : ℕ
deriving DecidableEq, Repr

/-- `VmLookupAddress`, with the position of the area found. -/
def vmLookupAddress : List VMArea → ℕ → Option ℕ
  | [], _ => none
  | curr :: rest, address =>
    if address < curr.start then none
    else if address < dword (curr.start + curr.length) then some 0
    else (vmLookupAddress rest address).map (· + 1)

variable (areaList : List VMArea) (area : VMArea)

def mmapAddArea : List VMArea :=
  insertOrdered VMArea.start area areaList

def mmapFindWalk (length : ℕ) : ℕ → List VMArea → ℕ
  | mapStart, [] => if mapStart = mmapEnd then 0 else mapStart
  | mapStart, curr :: rest =>
    if mapStart ≤ curr.start ∧ length ≤ curr.start - mapStart then mapStart
    else mmapFindWalk length (dword (curr.start + pageAlignUp curr.length)) rest

def mmapFindAddress (length : ℕ) : ℕ :=
  mmapFindWalk (pageAlignUp length) mmapBase areaList

def Mergeable (first second : VMArea) : Prop :=
  dword (first.start + first.length) = second.start ∧
    first.vNode = second.vNode ∧ first.areaOps = second.areaOps ∧
    first.flags = second.flags ∧ first.protection = second.protection ∧
    (first.flags &&& mmapAnon ≠ 0 ∨ second.offset = dword (first.offset + first.length))
  deriving Decidable

def mmapMerge (first second : VMArea) : VMArea :=
  { first with length := dword (first.length + second.length) }

def mmapMergeNext : List VMArea → List VMArea
  | [] => [area]
  | next :: back =>
    if Mergeable area next then mmapMerge area next :: back
    else area :: next :: back

/-- `MMapMergeMappings` for the area between `front` and `back`. -/
def mmapMergeMappings (front : List VMArea) (area : VMArea) (back : List VMArea) : List VMArea :=
  let rest := mmapMergeNext area back
  match front.getLast?, rest with
  | some prev, area' :: back' =>
    if Mergeable prev area' then
      front.dropLast ++ mmapMerge prev area' :: back'
    else front ++ rest
  | _, _ => front ++ rest

/-! ## The invariant -/

def VMArea.finish : ℕ := area.start + area.length

/-- Start and length are multiples of the page size, and the area lies in the
region for mappings. -/
structure VMArea.Wellformed : Prop where
  start_dvd : pageSize ∣ area.start
  length_dvd : pageSize ∣ area.length
  base_le : mmapBase ≤ area.start
  finish_le : area.finish ≤ mmapEnd

/-- The areas are well formed, nonempty, in order and disjoint. -/
structure AreasInv : Prop where
  intervals : IntervalList VMArea.start VMArea.finish areaList
  wellformed : ∀ area ∈ areaList, area.Wellformed

variable {area : VMArea} {xs : List VMArea}

theorem VMArea.Wellformed.dword_finish (h : area.Wellformed) :
    dword (area.start + area.length) = area.finish := by
  have hfinish := h.finish_le
  apply dword_of_lt
  unfold VMArea.finish mmapEnd at hfinish
  omega

theorem VMArea.Wellformed.pageAlignUp_length (h : area.Wellformed) :
    pageAlignUp area.length = area.length := by
  apply pageAlignUp_of_dvd h.length_dvd
  have hfinish := h.finish_le
  unfold VMArea.finish mmapEnd at hfinish
  unfold pageSize
  omega

theorem areasInv_nil : AreasInv [] :=
  ⟨intervalList_nil, by simp⟩

theorem AreasInv.sublist {ys : List VMArea} (h : AreasInv xs)
    (hsub : ys.Sublist xs) : AreasInv ys :=
  ⟨h.intervals.sublist hsub, fun area ha => h.wellformed area (hsub.subset ha)⟩

theorem AreasInv.add (h : AreasInv xs) (hwell : area.Wellformed) (hpos : 0 < area.length)
    (hapart : ∀ a ∈ xs, a.finish ≤ area.start ∨ area.finish ≤ a.start) :
    AreasInv (mmapAddArea xs area) := by
  constructor
  · exact h.intervals.insert (by unfold VMArea.finish; omega) hapart
  · intro a ha
    rcases mem_insertOrdered.mp ha with rfl | ha
    · exact hwell
    · exact h.wellformed a ha

/-! ## Searching -/

theorem vmLookupAddress_some {address i : ℕ} (h : vmLookupAddress xs address = some i) :
    ∃ front area back, xs = front ++ area :: back ∧ front.length = i ∧
      area.start ≤ address ∧ address < area.finish := by
  induction xs generalizing i with
  | nil => simp [vmLookupAddress] at h
  | cons curr rest ih =>
    have hfinish : dword (curr.start + curr.length) ≤ curr.finish := Nat.mod_le _ _
    rw [vmLookupAddress] at h
    split at h
    · cases h
    · split at h
      · cases h
        exact ⟨[], curr, rest, rfl, rfl, by omega, by omega⟩
      · obtain ⟨j, hj, rfl⟩ := Option.map_eq_some_iff.mp h
        obtain ⟨front, area, back, rfl, hlen, hin⟩ := ih hj
        exact ⟨curr :: front, area, back, rfl, by simp [hlen], hin⟩

/-- Some gap between the areas from `mapStart` on, or behind the last one, has
the given length. -/
def HasGap (length : ℕ) : ℕ → List VMArea → Prop
  | mapStart, [] => mapStart + length ≤ mmapEnd
  | mapStart, curr :: rest =>
    mapStart + length ≤ curr.start ∨ HasGap length curr.finish rest

def lastFinish (mapStart : ℕ) (areaList : List VMArea) : ℕ :=
  (areaList.getLast?.map VMArea.finish).getD mapStart

instance decidableHasGap (length : ℕ) :
    (mapStart : ℕ) → (xs : List VMArea) → Decidable (HasGap length mapStart xs)
  | mapStart, [] => inferInstanceAs (Decidable (mapStart + length ≤ mmapEnd))
  | mapStart, curr :: rest =>
    have := decidableHasGap length curr.finish rest
    inferInstanceAs (Decidable (mapStart + length ≤ curr.start ∨ HasGap length curr.finish rest))

theorem lastFinish_cons (mapStart : ℕ) (curr : VMArea) (rest : List VMArea) :
    lastFinish mapStart (curr :: rest) = lastFinish curr.finish rest := by
  unfold lastFinish
  rw [getLast?_cons]
  cases rest.getLast? with
  | none | some last => rfl

/-- The loop of `MMapFindAddress` returns a free address, at which the length
fits if there is room for it at all. -/
theorem mmapFindWalk_spec (length : ℕ) {mapStart : ℕ} (h : AreasInv xs)
    (hstart : ∀ area ∈ xs, mapStart ≤ area.start) (hdvd : pageSize ∣ mapStart) :
    let address := mmapFindWalk length mapStart xs
    address = 0 ∨ (mapStart ≤ address ∧ pageSize ∣ address ∧
        (∀ area ∈ xs, area.finish ≤ address ∨ address + length ≤ area.start) ∧
        (HasGap length mapStart xs ∨ lastFinish mapStart xs = mmapEnd →
          address + length ≤ mmapEnd)) := by
  induction xs generalizing mapStart with
  | nil =>
    dsimp only [mmapFindWalk]
    split
    · left
      rfl
    · next hne =>
      right
      refine ⟨le_rfl, hdvd, by simp, ?_⟩
      rintro (hgap | hlast)
      · exact hgap
      · exact absurd hlast hne
  | cons curr rest ih =>
    have hwell := h.wellformed curr (by simp)
    have hle := hstart curr (by simp)
    have hne := h.intervals.nonempty curr (by simp)
    have hrest : ∀ area ∈ rest, curr.finish ≤ area.start :=
      (pairwise_cons.mp h.intervals.ordered).1
    dsimp only [mmapFindWalk]
    by_cases hfits : mapStart ≤ curr.start ∧ length ≤ curr.start - mapStart
    · rw [if_pos hfits]
      right
      refine ⟨le_rfl, hdvd, ?_, ?_⟩
      · refine forall_mem_cons.mpr ⟨.inr (by omega), fun area harea => .inr ?_⟩
        have := hrest area harea
        omega
      · intro _
        have hfinish := hwell.finish_le
        omega
    · rw [if_neg hfits, hwell.pageAlignUp_length, hwell.dword_finish]
      have hdvd' : pageSize ∣ curr.finish :=
        Nat.dvd_add hwell.start_dvd hwell.length_dvd
      rcases ih (h.sublist (sublist_cons_self _ _)) hrest hdvd' with
        hzero | ⟨hge, hdvd'', hfree, hroom⟩
      · left
        exact hzero
      · right
        refine ⟨by omega, hdvd'', ?_, ?_⟩
        · exact forall_mem_cons.mpr ⟨.inl hge, hfree⟩
        · rintro (hgap | hlast)
          · rcases hgap with hhere | hlater
            · omega
            · exact hroom (.inl hlater)
          · rw [lastFinish_cons] at hlast
            exact hroom (.inr hlast)

end Whitix.Mmap
