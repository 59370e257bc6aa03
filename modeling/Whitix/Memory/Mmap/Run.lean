import Whitix.Memory.Mmap.Calls
import Whitix.Support.Run

/-!
# Runs of memory mappings

The area list of a process stays ordered and disjoint as long as the calls
avoid the places where `memory/mmap.c` goes wrong: `MMapUnmapArea` and
`MMapProtectionFixStart` give the part of an area behind a removed or changed
range the length of the whole area, `MMapUnmap` miscounts once a range
continues behind the first area, and does nothing at all when the first page of
the range is not mapped, and `MMapDo` does not check the end of the range.
-/

namespace Whitix.Mmap

open Support List Option Prod Nat

/-! ## Conditions on the calls -/

variable (areaList : List VMArea)

/-- Nothing lies between area number `i` and the address `finish`, which is
not behind the end of the region either. -/
def RoomBehind (i finish : ℕ) : Prop :=
  finish ≤ mmapEnd ∧ ∀ area ∈ areaList.drop (i + 1), finish ≤ area.start
  deriving Decidable

/-- A range that starts in area number `i` ends with it, or the area is the
last one. -/
def EndsWith (i : ℕ) (area : VMArea) (finish : ℕ) : Prop :=
  finish = area.finish ∨ (area.finish < finish ∧ i + 1 = areaList.length)
  deriving Decidable

/-- A range that starts in area number `i` ends inside it, and there is room
for the rest of the area with the length of all of it. -/
def EndsInside (i : ℕ) (area : VMArea) (finish : ℕ) : Prop :=
  finish < area.finish ∧ RoomBehind areaList i (finish + area.length)
  deriving Decidable

/-- The arguments are rejected, or the range starts in no area, or it ends in
a way that `MMapUnmap` deals with. -/
def UnmapFits (start len : ℕ) : Prop :=
  UnmapRejected start len ∨ ∀ i ∈ vmLookupAddress areaList start, ∀ area ∈ areaList[i]?,
      EndsWith areaList i area (start + len) ∨
        (pageSize ∣ len ∧ EndsInside areaList i area (start + len))
  deriving Decidable

/-- The range is free, or it starts in an area and `MMapUnmap` clears it. -/
def TargetFits (start len : ℕ) : Prop :=
  (∀ area ∈ areaList, area.finish ≤ start ∨ start + len ≤ area.start) ∨
    ((vmLookupAddress areaList start).isSome ∧
      ∀ i ∈ vmLookupAddress areaList start, ∀ area ∈ areaList[i]?,
        EndsWith areaList i area (start + len) ∨
          (start = area.start ∧ EndsInside areaList i area (start + len)))
  deriving Decidable

/-- `MMapDo` gets as far as the area list. -/
def MapAccepted (env : MapEnv) (args : MapArgs) : Prop :=
  env.area = true ∧ args.length ≠ 0 ∧ (mmapDoNode env args).isSome
  deriving Decidable

/-- The aligned length is not zero, and there is a gap for it, or the target of
a fixed mapping is a range inside the region that can be cleared.  A full
region, whose last area ends with it, is noticed by `MMapFindAddress`, and a
fixed address outside of the region by `MMapDo`. -/
def MapFits (env : MapEnv) (areaList : List VMArea) (args : MapArgs) : Prop :=
  MapAccepted env args → if args.flags &&& mmapFixed = 0 then
      0 < pageAlignUp args.length ∧ (HasGap (pageAlignUp args.length) mmapBase areaList ∨
          lastFinish mmapBase areaList = mmapEnd)
    else
      pageAlign args.address < mmapBase ∨ mmapEnd ≤ pageAlign args.address ∨
        (0 < pageAlignUp args.length ∧ pageAlign args.address + pageAlignUp args.length ≤ mmapEnd ∧
          TargetFits areaList (pageAlign args.address) (pageAlignUp args.length))
  deriving Decidable

/-- The protection of the area is not changed from its start to a page inside
it, unless there is room for the rest with the length of all of it. -/
def ProtectFits (start length protection : ℕ) : Prop :=
  ∀ i ∈ vmLookupAddress areaList start, ∀ area ∈ areaList[i]?,
    start = area.start → protection ||| pageUser ≠ area.protection → 0 < pageAlignUp length →
      start + pageAlignUp length < area.finish →
      RoomBehind areaList i (start + pageAlignUp length + area.length)
  deriving Decidable

/-! ## One iteration of unmapping -/

variable {finish protection : ℕ} {args : MapArgs}

section Unmap

variable {front back : List VMArea} {area : VMArea} {start len : ℕ}

theorem not_unmapRejected_iff :
    ¬ UnmapRejected start len ↔ pageSize ∣ start ∧ 0 < len ∧ start + len ≤ mmapEnd := by
  rw [UnmapRejected]
  omega

theorem AreasInv.middle (h : AreasInv (front ++ area :: back)) : area.Wellformed :=
  h.wellformed area (by simp)

theorem eraseIdx_middle : (front ++ area :: back).eraseIdx front.length = front ++ back := by
  rw [eraseIdx_append_of_length_le le_rfl, Nat.sub_self]
  rfl

theorem last_iff : front.length + 1 = (front ++ area :: back).length ↔ back = [] := by
  rw [length_append, length_cons, ← length_eq_zero_iff]
  omega

section

variable (alloc : ℕ → ℕ → Bool)

/-- When the range ends in the area it starts in, or that area is the last
one, `MMapUnmap` treats this area only. -/
theorem mmapUnmap_once (h : AreasInv (front ++ area :: back)) (hok : ¬ UnmapRejected start len)
    (hlookup : vmLookupAddress (front ++ area :: back) start = some front.length)
    (hstart : area.start ≤ start ∧ start < area.finish)
    (hlast : start + len ≤ area.finish ∨ back = []) :
    mmapUnmap alloc (front ++ area :: back) start len =
      some ((mmapUnmapArea (alloc 0) (front ++ back, front.length) area start
        (min (start + len) area.finish - start)).1,
        if back = [] then -EINVAL else 0) := by
  have hwell := h.middle
  obtain ⟨-, hpos, hbound⟩ := not_unmapRejected_iff.mp hok
  have hword : dword (start + len) = start + len := by
    apply dword_of_lt
    unfold mmapEnd at hbound
    omega
  have hget : (front ++ area :: back)[front.length]? = some area := by simp
  have hcurr : (if start < area.start then area.start else start) = start :=
    if_neg (by omega)
  have hsub : dwordSub (min (start + len) area.finish) start =
      min (start + len) area.finish - start :=
    dwordSub_of_le (by omega)
  have hentry : ¬ start + len ≤ area.start := by omega
  rw [mmapUnmap, if_neg hok, hlookup]
  simp only [hget, hword]
  rw [if_neg hentry, mmapUnmapLoop, if_neg (by omega)]
  simp only [hget, hword, hwell.dword_finish, hcurr, hsub, eraseIdx_middle]
  by_cases hend : back = []
  · rw [if_pos (last_iff.mpr hend), if_pos hend]
  · have hlen : min (start + len) area.finish - start = len := by
      have hle := hlast.resolve_right hend
      omega
    have hzero : dwordSub len len = 0 := by rw [dwordSub_of_le le_rfl, Nat.sub_self]
    obtain ⟨fuel, hfuel⟩ : ∃ fuel, (front ++ area :: back).length =
        fuel + 1 := ⟨front.length + back.length, by simp; omega⟩
    rw [if_neg (fun hlength => hend (last_iff.mp hlength)), hlen, hzero, hfuel,
      mmapUnmapLoop, if_pos rfl, if_neg hend]

theorem Cursor.add_fst (s : Cursor) (area : VMArea) : (s.add area).1 = mmapAddArea s.1 area := rfl

theorem mmapReadd_fst (ok : Bool) (s : Cursor) (area : VMArea) :
    (mmapReadd ok s area).1 = if ok then mmapAddArea s.1 area else s.1 := by
  cases ok with
  | false | true => rfl

theorem mmapUnmapArea_tail (alloc : ℕ → Bool) (s : Cursor) (hwell : area.Wellformed)
    (hstart : area.start ≤ start ∧ start < area.finish) :
    (mmapUnmapArea alloc s area start (area.finish - start)).1 =
      if area.start < start ∧ alloc 0 = true then
        mmapAddArea s.1 { area with length := start - area.start }
      else s.1 := by
  have hfinish := hwell.finish_le
  have hend : dword (start + (area.finish - start)) = area.finish := by
    rw [Nat.add_sub_cancel' hstart.2.le]
    apply dword_of_lt
    unfold mmapEnd at hfinish
    omega
  unfold mmapUnmapArea
  simp only [hend, hwell.dword_finish]
  by_cases hwhole : area.start = start
  · have hlen : area.start = start ∧ area.length = area.finish - start :=
      ⟨hwhole, by unfold VMArea.finish; omega⟩
    rw [if_pos hlen, if_neg (by omega)]
  · have hlen : ¬ (area.start = start ∧ area.length = area.finish - start) :=
      fun hboth => hwhole hboth.1
    have hrest : dwordSub area.length (dwordSub area.finish start) = start - area.start := by
      have hsum : area.finish = area.start + area.length := rfl
      rw [dwordSub_of_le hstart.2.le, dwordSub_of_le (by omega)]
      omega
    have hlt : area.start < start := by omega
    rw [if_neg hlen, if_pos ⟨hstart.1, trivial⟩, hrest, mmapReadd_fst]
    simp only [hlt, true_and]

/-- The area with its start moved to `finish`, which keeps its length. -/
def VMArea.upper (area : VMArea) (finish : ℕ) : VMArea :=
  { area with
    offset := dword (area.offset + dwordSub finish area.start)
    start := finish }

theorem mmapUnmapArea_inside (alloc : ℕ → Bool) (s : Cursor) (hwell : area.Wellformed)
    (hstart : area.start ≤ start) (hlen : 0 < len) (hinside : start + len < area.finish) :
    (mmapUnmapArea alloc s area start len).1 = if start = area.start then
        if alloc 0 = true then mmapAddArea s.1 (area.upper (start + len))
        else s.1
      else if alloc 0 = true then
        if alloc 1 = true then
          mmapAddArea (mmapAddArea s.1 (area.upper (start + len)))
            { area with length := start + len - area.start }
        else mmapAddArea s.1 (area.upper (start + len))
      else s.1 := by
  have hfinish := hwell.finish_le
  have hend : dword (start + len) = start + len := by
    apply dword_of_lt
    unfold mmapEnd at hfinish
    omega
  have hwhole : ¬ (area.start = start ∧ area.length = len) := by
    unfold VMArea.finish at hinside
    omega
  have htail : ¬ (area.start ≤ start ∧ start + len = area.finish) := by omega
  unfold mmapUnmapArea
  simp only [hend, hwell.dword_finish]
  rw [if_neg hwhole, if_neg htail]
  by_cases hhead : start = area.start
  · rw [if_pos ⟨hhead, hinside.le⟩, if_pos hhead, mmapReadd_fst]
    rfl
  · have hlower : dwordSub (start + len) area.start = start + len - area.start :=
      dwordSub_of_le (by omega)
    rw [if_neg (fun hboth => hhead hboth.1), if_neg hhead, if_pos ⟨by omega, hinside⟩]
    cases alloc 0 with
    | false => rfl
    | true =>
      simp only [if_true, mmapReadd_fst, Cursor.add_fst, hlower, VMArea.upper]

theorem VMArea.Wellformed.upper (hwell : area.Wellformed) (hdvd : pageSize ∣ finish)
    (hbase : mmapBase ≤ finish) (hroom : finish + area.length ≤ mmapEnd) :
    (area.upper finish).Wellformed :=
  ⟨hdvd, hwell.length_dvd, hbase, hroom⟩

theorem VMArea.finish_lower (hle : area.start ≤ finish) :
    ({ area with length := finish - area.start } : VMArea).finish = finish :=
  Nat.add_sub_cancel' hle

theorem VMArea.Wellformed.lower (hwell : area.Wellformed) (hdvd : pageSize ∣ finish)
    (hle : area.start ≤ finish) (hroom : finish ≤ area.finish) :
    ({ area with length := finish - area.start } : VMArea).Wellformed := by
  refine ⟨hwell.start_dvd, dvd_sub hdvd hwell.start_dvd, hwell.base_le, ?_⟩
  rw [VMArea.finish_lower hle]
  exact hroom.trans hwell.finish_le

section

variable (h : AreasInv (front ++ area :: back)) (hok : ¬ UnmapRejected start len)
  (hlookup : vmLookupAddress (front ++ area :: back) start = some front.length)
  (hstart : area.start ≤ start ∧ start < area.finish)
include h hok hlookup hstart

theorem mmapUnmap_endsWith
    (hwith : EndsWith (front ++ area :: back) front.length area (start + len)) :
    ∃ r, mmapUnmap alloc (front ++ area :: back) start len = some r ∧ AreasInv r.1 ∧
      ∀ a ∈ r.1, a.finish ≤ start ∨ start + len ≤ a.start := by
  have hwell := h.middle
  obtain ⟨hfront, hback⟩ := h.intervals.split
  have hend := hwith.imp_right fun hlast => hlast.imp_right fun hlength : _ = _ =>
    show back = [] by simpa using hlength
  have hrun := mmapUnmap_once alloc h hok hlookup hstart (hend.imp (fun heq => heq.le) And.right)
  have hmin : min (start + len) area.finish = area.finish := by omega
  rw [hmin, mmapUnmapArea_tail _ _ hwell hstart] at hrun
  have hrest : AreasInv (front ++ back) := h.sublist ((sublist_cons_self _ _).append_left _)
  have hapart : ∀ a ∈ front ++ back, a.finish ≤ start ∨ start + len ≤ a.start := by
    refine forall_mem_append.mpr ⟨fun a ha => .inl (le_trans (hfront a ha) hstart.1), ?_⟩
    rcases hend with heq | ⟨-, rfl⟩
    · exact fun a ha => .inr (heq ▸ hback a ha)
    · nofun
  refine ⟨_, hrun, ?_⟩
  by_cases hpart : area.start < start ∧ alloc 0 0 = true
  · rw [if_pos hpart]
    have hlower := hwell.lower (not_unmapRejected_iff.mp hok).1 hstart.1 hstart.2.le
    have hfinish := @VMArea.finish_lower start area hstart.1
    constructor
    · refine hrest.add hlower (Nat.sub_pos_of_lt hpart.1) (forall_mem_append.mpr
        ⟨fun a ha => .inl (hfront a ha), fun a ha => .inr ?_⟩)
      exact hfinish.trans_le (hstart.2.le.trans (hback a ha))
    · intro a ha
      rcases mem_insertOrdered.mp ha with rfl | ha
      · exact .inl hfinish.le
      · exact hapart a ha
  · rw [if_neg hpart]
    exact ⟨hrest, hapart⟩

/-- The range starts in an area and ends inside it, and there is room for the
rest of the area with its whole length. -/
theorem mmapUnmap_endsInside (hdvd : pageSize ∣ len)
    (hends : EndsInside (front ++ area :: back) front.length area (start + len)) :
    ∃ r, mmapUnmap alloc (front ++ area :: back) start len = some r ∧ AreasInv r.1 ∧
      (start = area.start → ∀ a ∈ r.1, a.finish ≤ start ∨ start + len ≤ a.start) := by
  have hwell := h.middle
  obtain ⟨hfront, hback⟩ := h.intervals.split
  obtain ⟨hinside, hend, hroom⟩ := hends
  have hsum : area.finish = area.start + area.length := rfl
  obtain ⟨hfirst, hlen, -⟩ := not_unmapRejected_iff.mp hok
  have hdvd' := Nat.dvd_add hfirst hdvd
  have hrun := mmapUnmap_once alloc h hok hlookup hstart (.inl hinside.le)
  have hmin : min (start + len) area.finish - start = len := by omega
  rw [hmin, mmapUnmapArea_inside _ _ hwell hstart.1 hlen hinside] at hrun
  have hrest : AreasInv (front ++ back) := h.sublist ((sublist_cons_self _ _).append_left _)
  have hupper : AreasInv (mmapAddArea (front ++ back) (area.upper (start + len))) := by
    refine hrest.add (hwell.upper hdvd' ?_ hend) ?_ (forall_mem_append.mpr
      ⟨fun a ha => .inl ?_, fun a ha => .inr (hroom a (by simpa using ha))⟩)
    · have := hwell.base_le
      omega
    · change 0 < area.length
      omega
    · have := hfront a ha
      change a.finish ≤ start + len
      omega
  have hapart : ∀ a ∈ front ++ back, a.finish ≤ start ∨ start + len ≤ a.start := by
    refine forall_mem_append.mpr ⟨fun a ha => .inl (le_trans (hfront a ha) hstart.1),
      fun a ha => .inr ?_⟩
    have := hback a ha
    omega
  refine ⟨_, hrun, ?_⟩
  by_cases hhead : start = area.start
  · rw [if_pos hhead]
    split
    · refine ⟨hupper, fun _ a ha => ?_⟩
      rcases mem_insertOrdered.mp ha with rfl | ha
      · exact .inr le_rfl
      · exact hapart a ha
    · exact ⟨hrest, fun _ => hapart⟩
  · rw [if_neg hhead]
    refine ⟨?_, fun heq => absurd heq hhead⟩
    split
    · split
      · -- Both parts of the area are back, and the lower one ends where the
        -- upper one starts.
        refine hupper.add (hwell.lower hdvd' (by omega) hinside.le)
          (by dsimp only; omega) fun a ha => ?_
        rw [VMArea.finish_lower (by omega)]
        rcases mem_insertOrdered.mp ha with rfl | ha
        · exact .inr le_rfl
        · rcases mem_append.mp ha with ha | ha
          · exact .inl (hfront a ha)
          · right
            have := hback a ha
            omega
      · exact hupper
    · exact hrest

end

end

end Unmap

/-! ## Merging -/

variable {front back xs : List VMArea} {area : VMArea} {start len : ℕ} {r : List VMArea × ℤ}

theorem AreasInv.wellformed_replace {back' : List VMArea} {area' : VMArea}
    (h : AreasInv (front ++ area :: back)) (hnew : area'.Wellformed) (hback : back' ⊆ back) :
    ∀ a ∈ front ++ area' :: back', a.Wellformed := by
  obtain ⟨hfront, hrest⟩ := forall_mem_append.mp h.wellformed
  exact forall_mem_append.mpr ⟨hfront, forall_mem_cons.mpr
    ⟨hnew, fun a ha => (forall_mem_cons.mp hrest).2 a (hback ha)⟩⟩

theorem AreasInv.merge {first second : VMArea} (h : AreasInv (front ++ first :: second :: back))
    (hmerge : Mergeable first second) : AreasInv (front ++ mmapMerge first second :: back) := by
  have hfirst := h.wellformed first (by simp)
  have hsecond := h.wellformed second (by simp)
  have hadj : first.finish = second.start := by
    rw [← hfirst.dword_finish]
    exact hmerge.1
  have hle := hsecond.finish_le
  have hlength : (mmapMerge first second).length = first.length + second.length := by
    apply dword_of_lt
    unfold VMArea.finish mmapEnd at *
    omega
  have hfinish : (mmapMerge first second).finish = second.finish := by
    unfold VMArea.finish at *
    rw [hlength]
    change first.start + (first.length + second.length) = _
    omega
  constructor
  · exact h.intervals.merge rfl hfinish
  · refine h.wellformed_replace ⟨hfirst.start_dvd, ?_, hfirst.base_le, hfinish ▸ hle⟩
      (subset_cons_self _ _)
    rw [hlength]
    exact Nat.dvd_add hfirst.length_dvd hsecond.length_dvd

theorem AreasInv.mergeNext (h : AreasInv (front ++ area :: back)) :
    AreasInv (front ++ mmapMergeNext area back) := by
  cases back with
  | nil => exact h
  | cons next back =>
    by_cases hmerge : Mergeable area next
    · rw [mmapMergeNext, if_pos hmerge]
      exact h.merge hmerge
    · rw [mmapMergeNext, if_neg hmerge]
      exact h

theorem AreasInv.mergeMappings (h : AreasInv (front ++ area :: back)) :
    AreasInv (mmapMergeMappings front area back) := by
  have hnext := h.mergeNext
  unfold mmapMergeMappings
  generalize mmapMergeNext area back = rest at hnext ⊢
  dsimp only
  split
  · next prev area' back' hlast =>
    have hfront : front.dropLast ++ [prev] = front :=
      dropLast_append_getLast? prev hlast
    split
    · next hmerge =>
      rw [← hfront, append_assoc] at hnext
      exact hnext.merge hmerge
    · exact hnext
  · exact hnext

/-! ## What one call keeps -/

section Calls

section

variable (h : AreasInv xs)
include h

theorem AreasInv.unmap (alloc : ℕ → ℕ → Bool) (hfits : UnmapFits xs start len) :
    ∃ r, mmapUnmap alloc xs start len = some r ∧ AreasInv r.1 := by
  by_cases hok : UnmapRejected start len
  · exact ⟨(xs, -EINVAL), by rw [mmapUnmap, if_pos hok], h⟩
  cases hlookup : vmLookupAddress xs start with
  | none => exact ⟨(xs, -EFAULT), by rw [mmapUnmap, if_neg hok, hlookup], h⟩
  | some i =>
    obtain ⟨front, area, back, rfl, rfl, hstart⟩ :=
      vmLookupAddress_some hlookup
    have hcase := hfits.resolve_left hok front.length hlookup area (by simp)
    rcases hcase with hwith | ⟨hdvd, hinside⟩
    · obtain ⟨r, hrun, hinv, -⟩ := mmapUnmap_endsWith alloc h hok hlookup hstart hwith
      exact ⟨r, hrun, hinv⟩
    · obtain ⟨r, hrun, hinv, -⟩ := mmapUnmap_endsInside alloc h hok hlookup hstart hdvd hinside
      exact ⟨r, hrun, hinv⟩

theorem AreasInv.clear (alloc : ℕ → ℕ → Bool) (hok : ¬ UnmapRejected start len)
    (hdvd : pageSize ∣ len) (hfits : TargetFits xs start len) :
    ∃ r, mmapUnmap alloc xs start len = some r ∧ AreasInv r.1 ∧
      ∀ a ∈ r.1, a.finish ≤ start ∨ start + len ≤ a.start := by
  cases hlookup : vmLookupAddress xs start with
  | none =>
    have hfree := hfits.resolve_right (by simp [hlookup])
    exact ⟨(xs, -EFAULT), by rw [mmapUnmap, if_neg hok, hlookup], h, hfree⟩
  | some i =>
    obtain ⟨front, area, back, rfl, rfl, hstart⟩ :=
      vmLookupAddress_some hlookup
    have hcase : EndsWith (front ++ area :: back) front.length area (start + len) ∨
        (start = area.start ∧ EndsInside (front ++ area :: back)
          front.length area (start + len)) := by
      rcases hfits with hfree | ⟨-, hcase⟩
      · have hlen := (not_unmapRejected_iff.mp hok).2.1
        have := hfree area (by simp)
        omega
      · exact hcase front.length hlookup area (by simp)
    rcases hcase with hwith | ⟨hhead, hinside⟩
    · exact mmapUnmap_endsWith alloc h hok hlookup hstart hwith
    · obtain ⟨r, hrun, hinv, hapart⟩ := mmapUnmap_endsInside alloc h hok hlookup hstart hdvd hinside
      exact ⟨r, hrun, hinv, hapart hhead⟩

theorem AreasInv.mapTarget {env : MapEnv}
    (haccept : MapAccepted env args) (hfits : MapFits env xs args)
    (haddress : mmapBase ≤ mmapDoAddress xs args ∧ mmapDoAddress xs args < mmapEnd) :
    0 < pageAlignUp args.length ∧ mmapDoAddress xs args + pageAlignUp args.length ≤ mmapEnd ∧
      TargetFits xs (mmapDoAddress xs args) (pageAlignUp args.length) := by
  have hcase := hfits haccept
  by_cases hfixed : args.flags &&& mmapFixed = 0
  · have hspec := mmapFindWalk_spec (pageAlignUp args.length) h
      (fun area ha => (h.wellformed area ha).base_le)
      (show pageSize ∣ mmapBase by decide)
    have hfind : mmapFindAddress xs (pageAlignUp args.length) =
        mmapFindWalk (pageAlignUp args.length) mmapBase xs := by
      rw [mmapFindAddress, pageAlignUp_idem]
    rw [if_pos hfixed] at hcase
    rcases hspec with hzero | ⟨-, hdvd, hfree, hroom⟩
    · have : mmapDoAddress xs args = 0 := by
        rw [mmapDoAddress, if_pos hfixed, hfind, hzero]
        rfl
      unfold mmapBase at haddress
      omega
    · have heq : mmapDoAddress xs args = mmapFindWalk (pageAlignUp args.length) mmapBase xs := by
        rw [mmapDoAddress, if_pos hfixed, hfind, pageAlign_of_dvd hdvd]
      rw [heq]
      exact ⟨hcase.1, hroom hcase.2, .inl hfree⟩
  · have heq : mmapDoAddress xs args = pageAlign args.address := by
      rw [mmapDoAddress, if_neg hfixed]
    rw [if_neg hfixed, ← heq] at hcase
    rcases hcase with hlow | hhigh | hok
    · omega
    · omega
    · exact hok

theorem AreasInv.map (env : MapEnv) (hfits : MapFits env xs args) :
    ∃ r, mmapDo env xs args = some r ∧ AreasInv r.1 := by
  unfold mmapDo
  by_cases hnone : env.area = false ∨ args.length = 0
  · exact ⟨(xs, 0), by rw [if_pos hnone], h⟩
  rw [if_neg hnone]
  by_cases hrange : mmapDoAddress xs args < mmapBase ∨ mmapEnd ≤ mmapDoAddress xs args
  · exact ⟨(xs, 0), by rw [if_pos hrange], h⟩
  rw [if_neg hrange]
  cases hnode : mmapDoNode env args with
  | none => exact ⟨(xs, 0), rfl, h⟩
  | some node =>
    obtain ⟨vNode, flags⟩ := node
    have haccept : MapAccepted env args := by
      refine ⟨?_, fun hzero => hnone (.inr hzero), by simp [hnode]⟩
      cases harea : env.area with
      | false => exact absurd (.inl harea) hnone
      | true => rfl
    obtain ⟨hpos, hend, htarget⟩ := h.mapTarget haccept hfits (by omega)
    have hdvd : pageSize ∣ mmapDoAddress xs args :=
      pageSize_dvd_pageAlign _
    have hok := not_unmapRejected_iff.mpr ⟨hdvd, hpos, hend⟩
    obtain ⟨r, hrun, hinv, hapart⟩ := h.clear env.alloc hok (pageSize_dvd_pageAlignUp _) htarget
    have hwell : VMArea.Wellformed
        { start := mmapDoAddress xs args
          length := pageAlignUp args.length
          offset := args.offset
          flags := flags
          protection := args.protection
          vNode := vNode
          areaOps := args.areaOps } :=
      ⟨hdvd, pageSize_dvd_pageAlignUp _, not_lt.mp fun hlow => hrange (.inl hlow), hend⟩
    simp only [hrun, map_some]
    exact ⟨_, rfl, (hinv.add hwell hpos hapart).mergeMappings⟩

end

section

variable (h : AreasInv (front ++ area :: back))
include h

theorem AreasInv.setProtection (protection : ℕ) :
    AreasInv (front ++ { area with protection := protection } :: back) := by
  constructor
  · exact h.intervals.shrink (h.intervals.nonempty area (by simp)) le_rfl le_rfl
  · exact h.wellformed_replace { h.middle with } (fun _ => id)

theorem AreasInv.fixStart (protection : ℕ) (hdvd : pageSize ∣ finish) (hstart : area.start < finish)
    (hinside : finish < area.finish) (hend : finish + area.length ≤ mmapEnd)
    (hroom : ∀ a ∈ back, finish + area.length ≤ a.start) (offset : ℕ) :
    AreasInv (mmapAddArea
      (front ++ { area with
        length := finish - area.start
        protection := protection } :: back)
      { area with offset := offset, start := finish }) := by
  have hwell := h.middle
  have hsum : area.finish = area.start + area.length := rfl
  have hlower := hwell.lower hdvd hstart.le hinside.le
  have hlow : ({ area with
      length := finish - area.start
      protection := protection } : VMArea).finish = finish := Nat.add_sub_cancel' hstart.le
  have hinv : AreasInv (front ++ { area with
      length := finish - area.start
      protection := protection } :: back) := by
    constructor
    · refine h.intervals.shrink ?_ le_rfl ?_
      · rw [hlow]
        exact hstart
      · rw [hlow]
        exact hinside.le
    · exact h.wellformed_replace { hlower with } (fun _ => id)
  have hbase := hwell.base_le
  refine hinv.add ⟨hdvd, hwell.length_dvd, ?_, hend⟩ ?_ fun a ha => ?_
  · dsimp only
    omega
  · dsimp only
    omega
  · rcases mem_append.mp ha with ha | ha
    · left
      have := h.intervals.split.1 a ha
      dsimp only
      omega
    · rcases mem_cons.mp ha with rfl | ha
      · exact .inl hlow.le
      · exact .inr (hroom a ha)

theorem AreasInv.protectionChange (alloc : Bool) (hdvd : pageSize ∣ finish)
    (hstart : start < finish) (hinside : finish ≤ area.finish)
    (hfits : start = area.start → protection ≠ area.protection → finish < area.finish →
      RoomBehind (front ++ area :: back) front.length (finish + area.length))
    (hr : mmapProtectionChange alloc (front ++ area :: back) front.length area
      start finish protection = some r) : AreasInv r.1 := by
  have hset : ∀ a : VMArea, (front ++ area :: back).set front.length a =
      front ++ a :: back := by simp
  have hwell := h.middle
  unfold mmapProtectionChange at hr
  by_cases hprot : protection = area.protection
  · rw [if_pos hprot] at hr
    exact some.inj hr ▸ h
  by_cases hhead : start = area.start
  · rw [if_neg hprot, if_pos hhead, hwell.dword_finish] at hr
    by_cases hall : finish = area.finish
    · rw [if_pos hall, hset] at hr
      exact some.inj hr ▸ h.setProtection protection
    · obtain ⟨hend, hroom⟩ := hfits hhead hprot (by omega)
      rw [if_neg hall, mmapProtectionFixStart] at hr
      split at hr
      · rw [hset, dwordSub_of_le (by omega)] at hr
        exact some.inj hr ▸ h.fixStart protection hdvd (by omega)
          (by omega) hend (fun a ha => hroom a (by simpa using ha)) _
      · cases hr
  · rw [if_neg hprot, if_neg hhead] at hr
    split at hr
    · cases hr
    · exact some.inj hr ▸ h

end

theorem AreasInv.protect (h : AreasInv xs) (alloc : Bool) {length : ℕ}
    (hfits : ProtectFits xs start length protection)
    (hr : sysMemoryProtect alloc xs start length protection = some r) : AreasInv r.1 := by
  unfold sysMemoryProtect at hr
  dsimp only at hr
  split_ifs at hr with halign hwrap hempty
  · exact some.inj hr ▸ h
  · exact some.inj hr ▸ h
  · exact some.inj hr ▸ h
  cases hlookup : vmLookupAddress xs start with
  | none =>
    rw [hlookup] at hr
    exact some.inj hr ▸ h
  | some i =>
    obtain ⟨front, area, back, rfl, rfl, hstart⟩ :=
      vmLookupAddress_some hlookup
    have hget : (front ++ area :: back)[front.length]? = some area := by simp
    have hwell := h.middle
    -- The check against wrapping leaves no carry.
    have hword : dword (start + pageAlignUp length) = start + pageAlignUp length := by
      have hlt := dword_lt (length + (pageSize - 1))
      have hle : pageAlignUp length ≤ dword (length + (pageSize - 1)) :=
        div_mul_le_self _ _
      unfold dword at hwrap ⊢
      omega
    rw [hword] at hr hempty
    simp only [hlookup, hget, hwell.dword_finish] at hr
    obtain ⟨hinside, hr⟩ := ite_none_right_eq_some.mp hr
    have hdvd : pageSize ∣ start + pageAlignUp length :=
      Nat.dvd_add (Nat.dvd_of_mod_eq_zero (not_not.mp halign)) (pageSize_dvd_pageAlignUp _)
    refine h.protectionChange alloc hdvd (by omega) hinside ?_ hr
    intro hhead hprot hlt
    exact hfits front.length hlookup area hget hhead hprot (by omega) hlt

end Calls

/-! ## Runs -/

inductive MmapOp where
  | map (env : MapEnv) (args : MapArgs)
  | sysMap (env : MapEnv) (file : Option (Option (ℕ × Bool)))
      (address length protection offset flags : ℕ)
  | unmap (alloc : ℕ → ℕ → Bool) (start len : ℕ)
  | sysUnmap (alloc : ℕ → ℕ → Bool) (address length : ℕ)
  | protect (alloc : Bool) (start length protection : ℕ)

def mmapStep : MmapOp → Option (List VMArea)
  | .map env args => (mmapDo env areaList args).map fst
  | .sysMap env file address length protection offset flags =>
    (sysMemoryMap env areaList file address length protection offset flags).map fst
  | .unmap alloc start len => (mmapUnmap alloc areaList start len).map fst
  | .sysUnmap alloc address length =>
    (sysMemoryUnmap alloc areaList address length).map fst
  | .protect alloc start length protection =>
    (sysMemoryProtect alloc areaList start length protection).map fst

/-- The call does not reach one of the places described above. -/
def MmapOp.Fits : MmapOp → Prop
  | .map env args => MapFits env areaList args
  | .sysMap env file address length protection offset flags =>
    ∀ vNode ∈ file, MapFits env areaList
      ⟨vNode, pageAlign address, pageAlignUp length, protection ||| pageUser, offset, flags, 0⟩
  | .unmap _ start len => UnmapFits areaList start len
  | .sysUnmap _ address length =>
    UnmapFits areaList address (pageAlignUp length)
  | .protect _ start length protection =>
    ProtectFits areaList start length protection

instance (areaList : List VMArea) : (op : MmapOp) → Decidable (op.Fits areaList)
  | .map _ _ => inferInstanceAs (Decidable (MapFits ..))
  | .sysMap _ file .. => inferInstanceAs (Decidable (∀ vNode ∈ file, MapFits ..))
  | .unmap .. | .sysUnmap .. => inferInstanceAs (Decidable (UnmapFits ..))
  | .protect .. => inferInstanceAs (Decidable (ProtectFits ..))

/-- The list is strictly ordered by start, the areas do not overlap, starts
and lengths are positive multiples of the page size, and every area lies in
the region for mappings. -/
structure AreaListOk (areaList : List VMArea) : Prop where
  sorted : areaList.Pairwise fun a b => a.start < b.start
  disjoint : areaList.Pairwise fun a b => a.start + a.length ≤ b.start
  aligned : ∀ a ∈ areaList, 0 < a.start ∧ pageSize ∣ a.start ∧ 0 < a.length ∧ pageSize ∣ a.length
  inside : ∀ a ∈ areaList, mmapBase ≤ a.start ∧ a.start + a.length ≤ mmapEnd

theorem AreasInv.areaListOk (h : AreasInv xs) : AreaListOk xs := by
  have hlength : ∀ a ∈ xs, 0 < a.length := by
    intro a ha
    have hne := h.intervals.nonempty a ha
    unfold VMArea.finish at hne
    omega
  refine
    { sorted := ?_
      disjoint := h.intervals.ordered
      aligned := fun a ha => ?_
      inside := fun a ha =>
        ⟨(h.wellformed a ha).base_le, (h.wellformed a ha).finish_le⟩ }
  · refine h.intervals.ordered.imp_of_mem fun {a b} ha _ hab => ?_
    have hpos := hlength a ha
    unfold VMArea.finish at hab
    omega
  · have hwell := h.wellformed a ha
    have hbase := hwell.base_le
    refine ⟨?_, hwell.start_dvd, hlength a ha, hwell.length_dvd⟩
    unfold mmapBase at hbase
    omega

theorem AreasInv.step (h : AreasInv xs) {op : MmapOp} (hfits : op.Fits xs) {xs' : List VMArea}
    (hs' : mmapStep xs op = some xs') : AreasInv xs' := by
  cases op with
  | map env args =>
    obtain ⟨r, hrun, hinv⟩ := h.map env hfits
    rw [mmapStep, hrun] at hs'
    exact some.inj hs' ▸ hinv
  | sysMap env file address length protection offset flags =>
    cases file with
    | none => exact some.inj hs' ▸ h
    | some vNode =>
      obtain ⟨r, hrun, hinv⟩ := h.map env (hfits vNode rfl)
      rw [mmapStep, sysMemoryMap, hrun] at hs'
      exact some.inj hs' ▸ hinv
  | unmap alloc start len =>
    obtain ⟨r, hrun, hinv⟩ := h.unmap alloc hfits
    rw [mmapStep, hrun] at hs'
    exact some.inj hs' ▸ hinv
  | sysUnmap alloc address length =>
    obtain ⟨r, hrun, hinv⟩ := h.unmap alloc hfits
    rw [mmapStep, sysMemoryUnmap, hrun] at hs'
    exact some.inj hs' ▸ hinv
  | protect alloc start length protection =>
    obtain ⟨r, hr, rfl⟩ := map_eq_some_iff.mp hs'
    exact h.protect alloc hfits hr

/-- In every run of calls that fit, the area list is in order. -/
theorem area_list_ok {areaList : List VMArea}
    (h : Reach mmapStep (fun s op => op.Fits s) [] areaList) : AreaListOk areaList :=
  (h.invariant areasInv_nil fun _ _ _ hs hop hs' => hs.step hop hs').areaListOk

def plentyEnv : MapEnv where
  area := true
  alloc := fun _ _ => true
  zero := some 1

/-- A page is mapped, a fixed mapping of two pages follows, its second page is
unmapped and the protection of the first one is changed. -/
theorem area_list_ok_two :
    ∃ areaList, Reach mmapStep (fun s op => op.Fits s) [] areaList ∧ AreaListOk areaList ∧
      areaList.map (fun a => (a.start, a.length, a.protection)) =
        [(0x800000, 4096, 6), (0x900000, 4096, 7)] := by
  obtain ⟨areaList, hreach, hlist⟩ := exists_reach mmapStep (fun s op => op.Fits s) []
    [.sysMap plentyEnv (some none) 0 100 2 0 0, .sysMap plentyEnv (some none) 0x900000 8192 0 0 2,
      .sysUnmap (fun _ _ => true) 0x901000 4096, .protect true 0x900000 4096 3]
    (fun areaList => areaList.map (fun a => (a.start, a.length, a.protection)) =
      [(0x800000, 4096, 6), (0x900000, 4096, 7)]) (by decide)
  exact ⟨areaList, hreach, area_list_ok hreach, hlist⟩

/-- Two pages and a third one behind them with another protection: unmapping
the first page moves the first area on top of the second one. -/
theorem unmap_first_page_overlaps :
    ∃ areaList, Reach mmapStep (fun _ _ => True) [] areaList ∧ ¬ AreaListOk areaList := by
  have hrun : runGuarded mmapStep (fun _ _ => True) []
      [.sysMap plentyEnv (some none) 0x900000 8192 2 0 2,
        .sysMap plentyEnv (some none) 0x902000 4096 0 0 2,
        .sysUnmap (fun _ _ => true) 0x900000 4096] =
      some [⟨0x901000, 8192, 4096, 10, 6, 1, 0⟩, ⟨0x902000, 4096, 0, 10, 4, 1, 0⟩] := by rfl
  refine ⟨_, reach_of_runGuarded hrun, fun hok => ?_⟩
  have hdisjoint := hok.disjoint
  simp at hdisjoint

end Whitix.Mmap
