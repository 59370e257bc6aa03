import Whitix.Include.Error
import Whitix.Memory.Mmap.Area

/-!
# Checking user buffers

`VirtCheckArea` of `memory/vmm.c` walks along the areas that a buffer of a system call
covers.  A buffer that lies in the area of its first byte is accepted without a look at
`PAGE_USER`.
-/

namespace Whitix.Vmm

open Support List Nat
open Mmap

/-! ## The code -/

def verWrite : ℕ := 1

def Writable (mask : ℕ) (area : VMArea) : Prop :=
  mask &&& verWrite ≠ 0 → area.protection &&& pageRw ≠ 0
  deriving Decidable

def User (area : VMArea) : Prop := area.protection &&& pageUser ≠ 0
  deriving Decidable

def EndsIn (start size : ℕ) (area : VMArea) : Prop :=
  size ≤ dwordSub (dword (area.start + area.length)) start
  deriving Decidable

/-- The tests in the loop of `VirtCheckArea`; `more` is what it does when the buffer
goes on behind the area. -/
def virtCheckOne (start size mask : ℕ) (area : VMArea) (more : ℤ) : ℤ :=
  if ¬ Writable mask area then -EFAULT
  else if ¬ User area then -EFAULT
  else if EndsIn start size area then 0
  else more

/-- The loop of `VirtCheckArea`, at an area with others behind it. -/
def virtCheckLoop (start size mask : ℕ) : VMArea → List VMArea → ℤ
  | area, [] => virtCheckOne start size mask area (-EFAULT)
  | area, next :: rest =>
    virtCheckOne start size mask area (if next.start ≠ dword (area.start + area.length) then -EFAULT
      else virtCheckLoop start size mask next rest)

/-- `VirtCheckArea` at the area that has been found, with those behind it. -/
def virtCheckFrom (start size mask : ℕ) : List VMArea → ℤ
  | [] => -EFAULT
  | area :: rest =>
    if ¬ Writable mask area then -EFAULT
    else if EndsIn start size area then 0
    else virtCheckLoop start size mask area rest

section

variable (areaList : List VMArea)

def virtCheckArea (start size mask : ℕ) : ℤ :=
  if size = 0 then 0
  else
    match vmLookupAddress areaList start with
    | none => -EFAULT
    | some i => virtCheckFrom start size mask (areaList.drop i)

/-! ## Accessible buffers -/

/-- The areas are in order and apart, and lie in the address space. -/
structure Areas (areaList : List VMArea) : Prop where
  ordered : areaList.Pairwise fun a b => a.finish ≤ b.start
  start_lt : ∀ area ∈ areaList, area.start < 2 ^ 32
  finish_le : ∀ area ∈ areaList, area.finish ≤ 2 ^ 32

def Accessible (mask x : ℕ) : Prop :=
  ∃ area ∈ areaList, area.start ≤ x ∧ x < area.finish ∧ User area ∧ Writable mask area

def AllAccessible (start size mask : ℕ) : Prop :=
  ∀ x, start ≤ x → x < start + size → Accessible areaList mask x

end

/-- The buffers for which the check is right: if one area holds all of the buffer, this
is not an area of the kernel with the access asked for; and if all bytes may be
accessed, no empty area without the access lies between them, and an area that ends
with the address space is reached neither by the lookup nor from the address 0. -/
structure Checkable (areaList : List VMArea) (start size mask : ℕ) : Prop where
  user : ∀ area ∈ areaList, area.start ≤ start → start + size ≤ area.finish →
    area.finish < 2 ^ 32 → Writable mask area → User area
  empty : ∀ area ∈ areaList, area.length = 0 → start < area.start →
    area.start < start + size → AllAccessible areaList start size mask →
    User area ∧ Writable mask area
  top : ∀ area ∈ areaList, area.finish = 2 ^ 32 → area.start < start + size →
    area.start ≤ start ∨ start = 0 → ¬ AllAccessible areaList start size mask

/-! ## Looking up an address -/

section

variable {xs : List VMArea} {area : VMArea}

theorem vmLookupAddress_cases (address : ℕ) (hsorted : xs.Pairwise fun a b => a.start ≤ b.start) :
    (∃ front area back, xs = front ++ area :: back ∧
      vmLookupAddress xs address = some front.length ∧ area.start ≤ address ∧
      address < dword (area.start + area.length)) ∨
    vmLookupAddress xs address = none ∧ ∀ area ∈ xs, area.start ≤ address →
      dword (area.start + area.length) ≤ address := by
  induction xs with
  | nil => exact .inr ⟨rfl, nofun⟩
  | cons curr rest ih =>
    obtain ⟨hfirst, hrest⟩ := pairwise_cons.mp hsorted
    rw [vmLookupAddress]
    by_cases hbefore : address < curr.start
    · rw [if_pos hbefore]
      refine .inr ⟨rfl, fun area harea hle => ?_⟩
      rcases mem_cons.mp harea with rfl | harea
      · exact absurd hle hbefore.not_ge
      · have hstart := hfirst area harea
        omega
    · rw [if_neg hbefore]
      by_cases hin : address < dword (curr.start + curr.length)
      · rw [if_pos hin]
        exact .inl ⟨[], curr, rest, rfl, rfl, Nat.le_of_not_lt hbefore, hin⟩
      · rw [if_neg hin]
        rcases ih hrest with ⟨front, area, back, rfl, hfound, hat⟩ | ⟨hnone, hout⟩
        · refine .inl ⟨curr :: front, area, back, rfl, ?_, hat⟩
          rw [hfound]
          rfl
        · refine .inr ⟨by rw [hnone]; rfl, fun area harea hle => ?_⟩
          rcases mem_cons.mp harea with rfl | harea
          · exact Nat.le_of_not_lt hin
          · exact hout area harea hle

theorem Areas.starts (h : Areas xs) : xs.Pairwise fun a b => a.start ≤ b.start :=
  h.ordered.imp fun hab => le_trans (le_add_right _ _) hab

theorem Areas.drop {front : List VMArea} (h : Areas (front ++ xs)) : Areas xs :=
  ⟨(pairwise_append.mp h.ordered).2.1, fun a ha => h.start_lt a (mem_append_right _ ha),
    fun a ha => h.finish_le a (mem_append_right _ ha)⟩

theorem Areas.tail (h : Areas (area :: xs)) : Areas xs := @Areas.drop xs [area] h

theorem Areas.after (h : Areas (area :: xs)) : ∀ a ∈ xs, area.finish ≤ a.start :=
  (pairwise_cons.mp h.ordered).1

end

/-! ## The chain of areas -/

/-- What the loop finds out about the buffer from an address on. -/
structure Chained (areaList : List VMArea) (start size mask lower : ℕ) : Prop where
  accessible : ∀ x, lower ≤ x → start ≤ x → x < start + size → Accessible areaList mask x
  empty : ∀ area ∈ areaList, area.length = 0 → area.start < start + size →
    User area ∧ Writable mask area
  top : ∀ area ∈ areaList, area.finish = 2 ^ 32 → area.start < start + size → start ≠ 0

section

variable {start size mask : ℕ} {rest : List VMArea} {area : VMArea}

theorem Accessible.head {x : ℕ}
    (h : Accessible (area :: rest) mask x) (hrest : ∀ a ∈ rest, x < a.start) :
    area.start ≤ x ∧ x < area.finish ∧ User area ∧ Writable mask area := by
  obtain ⟨a, ha, hfacts⟩ := h
  rcases mem_cons.mp ha with rfl | ha
  · exact hfacts
  · exact absurd hfacts.1 (not_le.mpr (hrest a ha))

theorem chained_of_ends
    (hareas : Areas (area :: rest)) (huser : User area) (hwrite : Writable mask area)
    (hends : start + size ≤ area.finish ∧ (area.finish = 2 ^ 32 → start ≠ 0)) :
    Chained (area :: rest) start size mask area.start := by
  have hrest : ∀ a ∈ rest, ¬ a.start < start + size := fun a ha hlt => by
    have hafter := hareas.after a ha
    omega
  refine ⟨fun x hx _ hlt => ?_, forall_mem_cons.mpr ⟨fun _ _ => ⟨huser, hwrite⟩, ?_⟩,
    forall_mem_cons.mpr ⟨fun htop _ => hends.2 htop, ?_⟩⟩
  · exact ⟨area, mem_cons_self, hx, by omega, huser, hwrite⟩
  · exact fun a ha _ hlt => absurd hlt (hrest a ha)
  · exact fun a ha _ hlt => absurd hlt (hrest a ha)

theorem chained_cons_iff {area next : VMArea} (hareas : Areas (area :: next :: rest))
    (hbefore : start < area.finish) (hmore : area.finish < start + size)
    (hnext : next.start = area.finish) (huser : User area) (hwrite : Writable mask area) :
    Chained (area :: next :: rest) start size mask area.start ↔
      Chained (next :: rest) start size mask next.start := by
  constructor
  · intro h
    refine ⟨fun x hx hle hlt => ?_, (forall_mem_cons.mp h.empty).2, (forall_mem_cons.mp h.top).2⟩
    obtain ⟨a, ha, hfacts⟩ := h.accessible x
      (le_trans (le_trans (le_add_right _ _) (le_of_eq hnext.symm)) hx)
      hle hlt
    rcases mem_cons.mp ha with rfl | ha
    · omega
    · exact ⟨a, ha, hfacts⟩
  · intro h
    refine ⟨fun x hx hle hlt => ?_, fun a ha hempty hlt => ?_, fun a ha htop hlt => ?_⟩
    · by_cases hin : x < area.finish
      · exact ⟨area, mem_cons_self, hx, hin, huser, hwrite⟩
      · obtain ⟨a, ha, hfacts⟩ := h.accessible x (by omega) hle hlt
        exact ⟨a, mem_cons_of_mem _ ha, hfacts⟩
    · rcases mem_cons.mp ha with rfl | ha
      · exact ⟨huser, hwrite⟩
      · exact h.empty a ha hempty hlt
    · rcases mem_cons.mp ha with rfl | ha
      · have hstart := hareas.start_lt next (by simp)
        omega
      · exact h.top a ha htop hlt

theorem virtCheckOne_eq_zero {more : ℤ} :
    virtCheckOne start size mask area more = 0 ↔
      User area ∧ Writable mask area ∧ (EndsIn start size area ∨ more = 0) := by
  have hfault : -EFAULT ≠ 0 := by decide
  unfold virtCheckOne
  by_cases hwrite : Writable mask area
  · rw [if_neg (not_not_intro hwrite)]
    by_cases huser : User area
    · rw [if_neg (not_not_intro huser)]
      by_cases hends : EndsIn start size area
      · rw [if_pos hends]
        exact iff_of_true rfl ⟨huser, hwrite, .inl hends⟩
      · rw [if_neg hends]
        exact ⟨fun h => ⟨huser, hwrite, .inr h⟩, fun h => h.2.2.resolve_left hends⟩
    · rw [if_pos huser]
      exact iff_of_false hfault fun h => huser h.1
  · rw [if_pos hwrite]
    exact iff_of_false hfault fun h => hwrite h.2.1

variable (hsize : 0 < size)
include hsize

theorem Chained.head (hareas : Areas (area :: rest)) (hbefore : start < area.finish)
    (hreach : area.start < start + size) (h : Chained (area :: rest) start size mask area.start) :
    User area ∧ Writable mask area := by
  by_cases hempty : area.length = 0
  · exact h.empty area mem_cons_self hempty hreach
  · have hfinish : area.finish = area.start + area.length := rfl
    have hfirst := h.accessible (max start area.start) (le_max_right _ _)
      (le_max_left _ _) (by omega)
    obtain ⟨-, -, hfacts⟩ := hfirst.head fun a ha => by
      have hafter := hareas.after a ha
      omega
    exact hfacts

variable (hend : start + size ≤ 2 ^ 32)
include hend

theorem endsIn_iff (hbefore : start < area.finish) (hfinish : area.finish ≤ 2 ^ 32) :
    EndsIn start size area ↔ start + size ≤ area.finish ∧ (area.finish = 2 ^ 32 → start ≠ 0) := by
  have heq : area.start + area.length = area.finish := rfl
  unfold EndsIn dwordSub dword
  rw [heq]
  rcases lt_or_eq_of_le hfinish with hlt | htop
  · rw [mod_eq_of_lt hlt, if_pos hbefore.le]
    omega
  · split_ifs
    · omega
    · omega

theorem virtCheckLoop_eq_zero {area : VMArea} (hareas : Areas (area :: rest))
    (hbefore : start < area.finish) (hreach : area.start < start + size) :
      (virtCheckLoop start size mask area rest = 0 ↔
        Chained (area :: rest) start size mask area.start) := by
  induction rest generalizing area with
  | nil =>
    have hends := endsIn_iff hsize hend hbefore (hareas.finish_le area (by simp))
    rw [virtCheckLoop, virtCheckOne_eq_zero, hends]
    constructor
    · rintro ⟨huser, hwrite, hin | hfault⟩
      · exact chained_of_ends hareas huser hwrite hin
      · cases hfault
    · intro h
      obtain ⟨huser, hwrite⟩ := h.head hsize hareas hbefore hreach
      refine ⟨huser, hwrite, .inl ⟨?_, fun htop =>
        h.top area mem_cons_self htop hreach⟩⟩
      by_contra hmore
      obtain ⟨-, hlt, -⟩ := (h.accessible area.finish (le_add_right _ _)
        hbefore.le (Nat.lt_of_not_le hmore)).head nofun
      exact lt_irrefl _ hlt
  | cons next rest ih =>
    have hends := endsIn_iff hsize hend hbefore (hareas.finish_le area (by simp))
    have hafter := hareas.after next (by simp)
    have hnextStart := hareas.start_lt next (by simp)
    have hnextFinish : next.start ≤ next.finish := le_add_right _ _
    have hdword : dword (area.start + area.length) = area.finish :=
      dword_of_lt (hafter.trans_lt hnextStart)
    have hloop := @ih next hareas.tail (by omega)
    rw [virtCheckLoop, virtCheckOne_eq_zero, hends, hdword]
    constructor
    · rintro ⟨huser, hwrite, hin | hmore⟩
      · exact chained_of_ends hareas huser hwrite hin
      · by_cases hin : start + size ≤ area.finish
        · exact chained_of_ends hareas huser hwrite ⟨hin, by omega⟩
        · by_cases hadjacent : next.start = area.finish
          · rw [if_neg (not_not_intro hadjacent), hloop (by omega)] at hmore
            exact (chained_cons_iff hareas hbefore (by omega) hadjacent huser hwrite).mpr hmore
          · rw [if_pos hadjacent] at hmore
            cases hmore
    · intro h
      obtain ⟨huser, hwrite⟩ := h.head hsize hareas hbefore hreach
      refine ⟨huser, hwrite, ?_⟩
      by_cases hin : start + size ≤ area.finish
      · exact .inl ⟨hin, by omega⟩
      · right
        -- the first byte behind the area is in the next one
        have hadjacent : next.start = area.finish := by
          by_contra hgap
          obtain ⟨-, hlt, -⟩ := (h.accessible area.finish (le_add_right _ _)
            hbefore.le (Nat.lt_of_not_le hin)).head fun a ha => by
              rcases mem_cons.mp ha with rfl | ha
              · omega
              · have hrest := hareas.tail.after a ha
                omega
          exact lt_irrefl _ hlt
        rw [if_neg (not_not_intro hadjacent), hloop (by omega)]
        exact (chained_cons_iff hareas hbefore (by omega) hadjacent huser hwrite).mp h

end

/-! ## The check -/

section

variable {start size mask : ℕ}

theorem check_none {areaList : List VMArea} (hsize : 0 < size) (hareas : Areas areaList)
    (hnone : ∀ area ∈ areaList, area.start ≤ start → dword (area.start + area.length) ≤ start) :
    ¬ AllAccessible areaList start size mask ↔ Checkable areaList start size mask := by
  constructor
  · intro hnot
    refine ⟨fun area harea hle hin hlt _ => ?_, fun _ _ _ _ _ hall => absurd hall hnot,
      fun _ _ _ _ _ => hnot⟩
    have hout := hnone area harea hle
    have heq : dword (area.start + area.length) = area.finish := dword_of_lt hlt
    omega
  · intro h hall
    obtain ⟨area, harea, hle, hlt, -⟩ := hall start le_rfl (by omega)
    have hout := hnone area harea hle
    have htop : area.finish = 2 ^ 32 := by
      by_contra hne
      have hfinish := hareas.finish_le area harea
      have heq : dword (area.start + area.length) = area.finish :=
        dword_of_lt (lt_of_le_of_ne hfinish hne)
      omega
    exact h.top area harea htop (by omega) (.inl hle) hall

/-- The area in which a buffer begins has been found. -/
structure Found (front : List VMArea) (area : VMArea) (back : List VMArea) (start : ℕ) : Prop where
  areas : Areas (front ++ area :: back)
  start_le : area.start ≤ start
  lt_finish : start < area.finish
  finish_lt : area.finish < 2 ^ 32

variable {front back : List VMArea} {area : VMArea} (h : Found front area back start)
include h

theorem Found.before : ∀ a ∈ front, a.finish ≤ area.start := fun a ha =>
  (pairwise_append.mp h.areas.ordered).2.2 a ha area mem_cons_self

theorem Found.unique {a : VMArea} (ha : a ∈ front ++ area :: back) (hle : a.start ≤ start)
    (hlt : start < a.finish) : a = area := by
  have hstart := h.start_le
  have hfinish := h.lt_finish
  rcases mem_append.mp ha with ha | ha
  · have hout := h.before a ha
    omega
  · rcases mem_cons.mp ha with rfl | ha
    · rfl
    · have hout := h.areas.drop.after a ha
      omega

theorem Found.mem_of_lt {a : VMArea}
    (ha : a ∈ front ++ area :: back) (hlt : area.start < a.finish) : a ∈ area :: back := by
  rcases mem_append.mp ha with ha | ha
  · have hout := h.before a ha
    omega
  · exact ha

theorem Found.allAccessible_iff :
    AllAccessible (front ++ area :: back) start size mask ↔
      ∀ x, area.start ≤ x → start ≤ x → x < start + size → Accessible (area :: back) mask x := by
  have hle := h.start_le
  constructor
  · intro hall x hx hstart hlt
    obtain ⟨a, ha, hfacts⟩ := hall x hstart hlt
    exact ⟨a, h.mem_of_lt ha (by omega), hfacts⟩
  · intro hall x hstart hlt
    obtain ⟨a, ha, hfacts⟩ := hall x (hle.trans hstart) hstart hlt
    exact ⟨a, mem_append_right _ ha, hfacts⟩

variable (hsize : 0 < size)
include hsize

theorem Found.access (hall : AllAccessible (front ++ area :: back) start size mask) :
    User area ∧ Writable mask area := by
  obtain ⟨a, ha, hstart, hin, hfacts⟩ := hall start le_rfl (by omega)
  obtain rfl := h.unique ha hstart hin
  exact hfacts

theorem Found.check_refused (hwrite : ¬ Writable mask area) :
    ¬ AllAccessible (front ++ area :: back) start size mask ∧
      Checkable (front ++ area :: back) start size mask := by
  have hnot : ¬ AllAccessible (front ++ area :: back) start size mask := fun hall =>
    hwrite (h.access hsize hall).2
  refine ⟨hnot, fun a ha hstart hrange _ hok => ?_, fun _ _ _ _ _ hall => absurd hall hnot,
    fun _ _ _ _ _ => hnot⟩
  obtain rfl := h.unique ha hstart (by omega)
  exact absurd hok hwrite

theorem Found.check_inside (hwrite : Writable mask area) (hrange : start + size ≤ area.finish) :
    AllAccessible (front ++ area :: back) start size mask ↔
      Checkable (front ++ area :: back) start size mask := by
  have hle := h.start_le
  have hfinish := h.finish_lt
  constructor
  · intro hall
    refine ⟨fun a ha hstart hin _ _ => ?_, fun a ha _ hlow hhigh _ => ?_,
      fun a ha htop hreach _ => ?_⟩
    · obtain rfl := h.unique ha hstart (by omega)
      exact (h.access hsize hall).1
    · have heq : a.start ≤ a.finish := le_add_right _ _
      rcases mem_cons.mp (h.mem_of_lt ha (by omega)) with rfl | ha
      · omega
      · have hout := h.areas.drop.after a ha
        omega
    · rcases mem_cons.mp (h.mem_of_lt ha (by omega)) with rfl | ha
      · omega
      · have hout := h.areas.drop.after a ha
        omega
  · intro hcheck x hx hlt
    have huser := hcheck.user area (by simp) hle hrange hfinish hwrite
    exact ⟨area, by simp, by omega, by omega, huser, hwrite⟩

theorem Found.check_beyond (hmore : area.finish < start + size) :
    (Chained (area :: back) start size mask area.start ↔
        AllAccessible (front ++ area :: back) start size mask) ↔
      Checkable (front ++ area :: back) start size mask := by
  have hle := h.start_le
  have hlt := h.lt_finish
  have hfinish := h.finish_lt
  constructor
  · intro hiff
    refine ⟨fun a ha hstart hin _ _ => ?_, fun a ha hempty hlow hhigh hall => ?_,
      fun a ha htop hreach hfrom hall => ?_⟩
    · obtain rfl := h.unique ha hstart (by omega)
      omega
    · have heq : a.start ≤ a.finish := le_add_right _ _
      exact (hiff.mpr hall).empty a (h.mem_of_lt ha (by omega)) hempty hhigh
    · have hne := (hiff.mpr hall).top a (h.mem_of_lt ha (by omega)) htop hreach
      rcases hfrom with hstart | hzero
      · obtain rfl := h.unique ha hstart (by omega)
        omega
      · exact hne hzero
  · intro hcheck
    refine ⟨fun hchain => h.allAccessible_iff.mpr hchain.accessible, fun hall => ?_⟩
    refine ⟨h.allAccessible_iff.mp hall, fun a ha hempty hhigh => ?_,
      fun a ha htop hreach hzero => ?_⟩
    · rcases mem_cons.mp ha with rfl | hback
      · exact h.access hsize hall
      · have hout := h.areas.drop.after a hback
        exact hcheck.empty a (mem_append_right _ ha) hempty (by omega) hhigh hall
    · exact hcheck.top a (mem_append_right _ ha) htop hreach (.inr hzero) hall

theorem Found.check (hend : start + size ≤ 2 ^ 32) :
    (virtCheckFrom start size mask (area :: back) = 0 ↔
        AllAccessible (front ++ area :: back) start size mask) ↔
      Checkable (front ++ area :: back) start size mask := by
  have hends := endsIn_iff hsize hend h.lt_finish (le_of_lt h.finish_lt)
  have hfinish := h.finish_lt
  rw [virtCheckFrom]
  by_cases hwrite : Writable mask area
  · rw [if_neg (not_not_intro hwrite)]
    by_cases hin : EndsIn start size area
    · rw [if_pos hin, iff_true_left rfl]
      exact h.check_inside hsize hwrite (hends.mp hin).1
    · have hmore : area.finish < start + size := by
        by_contra hle
        exact hin (hends.mpr ⟨by omega, by omega⟩)
      rw [if_neg hin, virtCheckLoop_eq_zero hsize hend h.areas.drop h.lt_finish
        (lt_of_le_of_lt (le_add_right _ _) hmore)]
      exact h.check_beyond hsize hmore
  · rw [if_pos hwrite]
    obtain ⟨hnot, hcheck⟩ := h.check_refused hsize hwrite
    exact iff_of_true (iff_of_false (by decide) hnot) hcheck

end

/-- `VirtCheckArea` accepts a buffer if and only if all its bytes may be
accessed, except for the buffers that are not checkable. -/
theorem virtCheckArea_exact_iff (areaList : List VMArea) (hareas : Areas areaList)
    (start size mask : ℕ) (hsize : 0 < size) (hend : start + size ≤ 2 ^ 32) :
    (virtCheckArea areaList start size mask = 0 ↔ AllAccessible areaList start size mask) ↔
      Checkable areaList start size mask := by
  rw [virtCheckArea, if_neg hsize.ne']
  rcases vmLookupAddress_cases start hareas.starts with
    ⟨front, area, back, rfl, hfound, hle, hlt⟩ | ⟨hnone, hout⟩
  · rw [hfound]
    have hfinish : area.finish < 2 ^ 32 := by
      by_contra hge
      have htop : area.start + area.length = 2 ^ 32 :=
        le_antisymm (hareas.finish_le area (by simp)) (not_lt.mp hge)
      rw [htop, dword] at hlt
      exact not_lt_zero _ hlt
    have hdword : dword (area.start + area.length) = area.finish := dword_of_lt hfinish
    rw [hdword] at hlt
    dsimp only
    rw [drop_left]
    exact Found.check ⟨hareas, hle, hlt, hfinish⟩ hsize hend
  · have hfault : ¬ -EFAULT = 0 := by decide
    rw [hnone, ← check_none hsize hareas hout]
    exact iff_false_left hfault

def userAreas : List VMArea :=
  [⟨0x800000, 0x1000, 0, 0, 7, 1, 0⟩, ⟨0x801000, 0x1000, 0x1000, 0, 7, 2, 0⟩]

theorem virtCheckArea_exact_two :
    virtCheckArea userAreas 0x800800 0x1000 1 = 0 ↔ AllAccessible userAreas 0x800800 0x1000 1 := by
  have hlength : ∀ area ∈ userAreas, area.length ≠ 0 ∧ area.finish ≠ 2 ^ 32 := by decide
  refine (virtCheckArea_exact_iff _ ⟨by decide, by decide, by decide⟩ _ _ _ (by decide)
    (by decide)).mpr ⟨by decide, ?_, ?_⟩
  · exact fun area harea hempty => absurd hempty (hlength area harea).1
  · exact fun area harea htop => absurd htop (hlength area harea).2

/-- A buffer of one byte in an area of the kernel is accepted. -/
theorem virtCheckArea_kernel :
    ¬ (virtCheckArea [⟨0x800000, 0x1000, 0, 0, 3, 1, 0⟩] 0x800000 1 1 = 0 ↔
      AllAccessible [⟨0x800000, 0x1000, 0, 0, 3, 1, 0⟩] 0x800000 1 1) := by
  intro h
  obtain ⟨area, harea, -, -, huser, -⟩ :=
    h.mp (by decide) 0x800000 le_rfl (by decide)
  rw [mem_singleton.mp harea] at huser
  exact absurd huser (by decide)

end Whitix.Vmm
