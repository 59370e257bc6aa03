import Mathlib.Algebra.Order.BigOperators.Group.List
import Whitix.Support.BubbleSort
import Whitix.Support.Word

/-!
# The map of the physical memory

The boot loader passes a list of areas that may overlap and are in no order.
`arch/i386/mm/init.c` sorts the addresses at which an area begins or ends, and
creates a new map from them, in which the area with the highest type wins.
-/

namespace Whitix.Mm

open Support List

/-! ## The code -/

structure MbMemoryMap where
  baseAddr : ℕ
  length : ℕ
  type : ℕ
deriving DecidableEq, Repr

structure E820Entry where
  base : ℕ
  length : ℕ
  rangeType : ℕ
deriving DecidableEq, Repr

/-- The entry `pBios` points to, and its index, which stands for the pointer. -/
structure ChangeMember where
  pBios : MbMemoryMap × ℕ
  addr : ℕ
deriving DecidableEq, Repr

def ChangeMember.begins (c : ChangeMember) : Bool := c.addr == c.pBios.1.baseAddr

def setupE820Sort (memEntries : List MbMemoryMap) : List ChangeMember :=
  memEntries.zipIdx.flatMap fun entry =>
    if entry.1.length ≠ 0 then
      [⟨entry, entry.1.baseAddr⟩, ⟨entry, (entry.1.baseAddr + entry.1.length) % 2 ^ 64⟩]
    else []

/-- The condition under which `E820Sort` exchanges `b` with `a` in front of it. -/
def changesBefore (b a : ChangeMember) : Bool :=
  decide (b.addr < a.addr) || (b.addr == a.addr && b.begins && !a.begins)

/-- As many passes as there are pairs are enough. -/
def e820Sort (changePoint : List ChangeMember) : Option (List ChangeMember) :=
  bubbleSort changesBefore (changePoint.length * changePoint.length + 1) changePoint

/-- The variables of `E820CreateMap`; `current` is the entry at `entryCount`, and
`stopped` is set by the `break`. -/
structure MapState where
  overlapList : List (MbMemoryMap × ℕ)
  lastType : ℕ
  lastAddr : ℕ
  entries : List E820Entry
  current : E820Entry
  stopped : Bool

/-- The areas that cover what follows a change point.  An area has begun before it
ends, so that the list is not empty there. -/
def overlap (overlapList : List (MbMemoryMap × ℕ)) (c : ChangeMember) : List (MbMemoryMap × ℕ) :=
  if c.begins then overlapList ++ [c.pBios]
  else
    (overlapList.map fun entry =>
      if entry = c.pBios then overlapList.getLastD entry else entry).dropLast

def currentType (overlapList : List (MbMemoryMap × ℕ)) : ℕ :=
  overlapList.foldl (fun type entry => if type < entry.1.type then entry.1.type
    else type) 0

def beginEntry (s : MapState) (addr type : ℕ) : MapState :=
  if type ≠ 0 then
    { s with
      current := { s.current with base := addr, rangeType := type }
      lastAddr := dword addr
      lastType := type }
  else { s with lastType := type }

/-- The body of the loop of `E820CreateMap`. -/
def createStep (s : MapState) (c : ChangeMember) : MapState :=
  if s.stopped then s
  else
    let s : MapState := { s with overlapList := overlap s.overlapList c }
    let type := currentType s.overlapList
    if type = s.lastType then s
    else if s.lastType = 0 then beginEntry s c.addr type
    else
      let entry : E820Entry :=
        { s.current with length := qwordSub c.addr s.lastAddr }
      if entry.length = 0 then beginEntry { s with current := entry } c.addr type
      else
        let s : MapState :=
          { s with entries := s.entries ++ [entry], current := ⟨0, 0, 0⟩ }
        if 32 ≤ s.entries.length then { s with stopped := true }
        else beginEntry s c.addr type

def e820CreateMap (changePoint : List ChangeMember) : List E820Entry :=
  (changePoint.foldl createStep ⟨[], 0, 0, [], ⟨0, 0, 0⟩, false⟩).entries

def e820CheckEntries (memEntries : List MbMemoryMap) : Bool :=
  memEntries.any fun entry =>
    decide ((entry.baseAddr + entry.length) % 2 ^ 64 < entry.baseAddr)

/-- `entries` after `PhysReadMemoryMap`.  There are none if the boot loader has
passed a single one; the arrays of change points have 64 elements each, and writing
past them has no result. -/
def physReadMemoryMap (memoryMap : List MbMemoryMap) : Option (List E820Entry) :=
  if memoryMap.length ≤ 1 then some []
  else if e820CheckEntries memoryMap then some []
  else if 64 < (setupE820Sort memoryMap).length then none
  else (e820Sort (setupE820Sort memoryMap)).map e820CreateMap

theorem foldl_larger {α : Type*} (f : α → ℕ) (l : List α) (m : ℕ) :
    let r := l.foldl (fun m a => if m < f a then f a else m) m
    m ≤ r ∧ (∀ a ∈ l, f a ≤ r) ∧ (r = m ∨ ∃ a ∈ l, f a = r) := by
  induction l generalizing m with
  | nil => exact ⟨le_refl m, nofun, .inl rfl⟩
  | cons a l ih =>
    obtain ⟨hge, hall, hfrom⟩ := ih (if m < f a then f a else m)
    refine ⟨?_, ?_, ?_⟩
    · exact le_trans (by split_ifs <;> omega) hge
    · refine forall_mem_cons.mpr ⟨?_, hall⟩
      exact le_trans (by split_ifs <;> omega) hge
    · rcases hfrom with hfrom | ⟨b, hb, hfrom⟩
      · rw [foldl_cons, hfrom]
        split_ifs
        · exact .inr ⟨a, mem_cons_self, rfl⟩
        · exact .inl rfl
      · exact .inr ⟨b, mem_cons_of_mem a hb, hfrom⟩

/-! ## Sorting -/

section

variable {a b c : ChangeMember} {memoryMap : List MbMemoryMap} {s : MapState}

theorem changesBefore_iff :
    changesBefore b a = true ↔
      b.addr < a.addr ∨ b.addr = a.addr ∧ b.begins = true ∧ a.begins = false := by
  simp [changesBefore, and_assoc]

theorem changesBefore_asymm (h : changesBefore a b = true) : changesBefore b a = false := by
  rw [← Bool.not_eq_true, changesBefore_iff]
  rw [changesBefore_iff] at h
  grind

theorem changesBefore_trans (hab : changesBefore b a = false)
    (hbc : changesBefore c b = false) : changesBefore c a = false := by
  rw [← Bool.not_eq_true, changesBefore_iff] at *
  grind

theorem e820Sort_spec (changePoint : List ChangeMember) :
    ∃ sorted, e820Sort changePoint = some sorted ∧ sorted.Perm changePoint ∧
      sorted.Pairwise (fun a b => changesBefore b a = false) :=
  bubbleSort_spec (fun a b => @changesBefore_asymm a b) (fun a b c => @changesBefore_trans a b c)
    (Nat.lt_succ_of_le (inversions_le changePoint))

/-! ## Maps below 4 GB -/

/-- All of an area is below 4 GB, or nothing of it. -/
def E820Entry.Aside (e : E820Entry) : Prop :=
  e.base + e.length ≤ 2 ^ 32 ∨ e.base = 2 ^ 32 ∧ e.length ≤ 2 ^ 32

/-- The state of `E820CreateMap` after a change point at `addr`.  An address of 4 GB
does not fit in `lastAddr`. -/
structure CreateInv (addr : ℕ) (s : MapState) : Prop where
  entries : ∀ e ∈ s.entries, e.Aside
  current : s.stopped = false → s.lastType ≠ 0 → s.current.base = s.lastAddr ∧ s.lastAddr ≤ addr ∨
      s.current.base = 2 ^ 32 ∧ s.lastAddr = 0

theorem CreateInv.beginEntry {addr type : ℕ} (hbelow : addr ≤ 2 ^ 32)
    (hentries : ∀ e ∈ s.entries, e.Aside) : CreateInv addr (beginEntry s addr type) := by
  unfold Mm.beginEntry
  split_ifs with htype
  · refine ⟨hentries, fun _ _ => ?_⟩
    dsimp only
    by_cases haddr : addr < 2 ^ 32
    · rw [dword_of_lt haddr]
      exact .inl ⟨rfl, le_rfl⟩
    · obtain rfl : addr = 2 ^ 32 := le_antisymm hbelow (not_lt.mp haddr)
      exact .inr ⟨rfl, rfl⟩
  · exact ⟨hentries, fun _ hlast => absurd hlast htype⟩

theorem CreateInv.createStep {addr : ℕ} (h : CreateInv addr s) (haddr : addr ≤ c.addr)
    (hbelow : c.addr ≤ 2 ^ 32) : CreateInv c.addr (createStep s c) := by
  unfold Mm.createStep
  by_cases hstopped : s.stopped = true
  · rw [if_pos hstopped]
    exact ⟨h.entries, fun hnot => absurd hstopped (by rw [hnot]; decide)⟩
  have hcurrent := h.current (Bool.eq_false_iff.mpr hstopped)
  have hpushed (hlast : s.lastType ≠ 0) : ∀ e ∈ s.entries ++
      [{ s.current with length := qwordSub c.addr s.lastAddr }], e.Aside := by
    refine forall_mem_append.mpr ⟨h.entries, forall_mem_singleton.mpr ?_⟩
    rcases hcurrent hlast with ⟨hbase, hle⟩ | ⟨hbase, hzero⟩
    · left
      dsimp only
      rw [hbase, qwordSub_of_le (hle.trans haddr)]
      omega
    · right
      dsimp only
      rw [hzero, qwordSub_of_le (Nat.zero_le _)]
      exact ⟨hbase, hbelow⟩
  rw [if_neg hstopped]
  dsimp only
  split_ifs with htype hlast hlength hfull
  · exact ⟨h.entries, fun _ hlast => (hcurrent hlast).imp_left fun hbase =>
      ⟨hbase.1, le_trans hbase.2 haddr⟩⟩
  · exact .beginEntry hbelow h.entries
  · exact .beginEntry hbelow h.entries
  · exact ⟨hpushed hlast, nofun⟩
  · exact .beginEntry hbelow (hpushed hlast)

theorem CreateInv.foldl {changePoint : List ChangeMember} {addr : ℕ} {s : MapState}
    (h : CreateInv addr s) (hpoints : ∀ c ∈ changePoint, addr ≤ c.addr ∧ c.addr ≤ 2 ^ 32)
    (hsorted : changePoint.Pairwise (fun a b => changesBefore b a = false)) :
    ∀ e ∈ (changePoint.foldl Mm.createStep s).entries, e.Aside := by
  induction changePoint generalizing addr s with
  | nil => exact h.entries
  | cons c changePoint ih =>
    obtain ⟨hfirst, hrest⟩ := pairwise_cons.mp hsorted
    obtain ⟨haddr, hbelow⟩ := hpoints c mem_cons_self
    refine ih (h.createStep haddr hbelow) (fun d hd => ⟨?_, ?_⟩) hrest
    · have hbefore := hfirst d hd
      rw [← Bool.not_eq_true, changesBefore_iff] at hbefore
      omega
    · exact (hpoints d (mem_cons_of_mem c hd)).2

theorem length_setupE820Sort_le (memoryMap : List MbMemoryMap) :
    (setupE820Sort memoryMap).length ≤ 2 * memoryMap.length := by
  unfold setupE820Sort
  rw [length_flatMap]
  refine le_trans (sum_le_card_nsmul _ 2 fun n hn => ?_) (by simp [Nat.mul_comm])
  obtain ⟨entry, -, rfl⟩ := mem_map.mp hn
  split_ifs
  · exact le_rfl
  · exact Nat.zero_le 2

/-- A map of at most 32 entries fits in the arrays. -/
theorem physReadMemoryMap_returns (h : memoryMap.length ≤ 32) :
    ∃ entries, physReadMemoryMap memoryMap = some entries := by
  have hle := length_setupE820Sort_le memoryMap
  unfold physReadMemoryMap
  split_ifs
  · exact ⟨_, rfl⟩
  · exact ⟨_, rfl⟩
  · omega
  · obtain ⟨sorted, hsort, -⟩ := e820Sort_spec (setupE820Sort memoryMap)
    rw [hsort]
    exact ⟨_, rfl⟩

section

variable (hbelow : ∀ entry ∈ memoryMap, entry.baseAddr + entry.length ≤ 2 ^ 32)
include hbelow

theorem addr_le_of_mem_setup (hc : c ∈ setupE820Sort memoryMap) : c.addr ≤ 2 ^ 32 := by
  obtain ⟨entry, hentry, hmem⟩ := mem_flatMap.mp hc
  have hle := hbelow entry.1 (fst_mem_of_mem_zipIdx hentry)
  split_ifs at hmem with hlength
  · simp only [mem_cons, not_mem_nil, or_false] at hmem
    rcases hmem with rfl | rfl
    · dsimp only
      omega
    · dsimp only
      omega
  · cases hmem

theorem physReadMemoryMap_spec {entries : List E820Entry}
    (h : physReadMemoryMap memoryMap = some entries) : ∀ e ∈ entries, e.Aside := by
  unfold physReadMemoryMap at h
  split_ifs at h
  · cases h
    exact nofun
  · cases h
    exact nofun
  · obtain ⟨sorted, hsort, hperm, hsorted⟩ := e820Sort_spec (setupE820Sort memoryMap)
    rw [hsort, Option.map_some] at h
    cases h
    refine @CreateInv.foldl sorted 0 _ ⟨nofun, fun _ hlast => absurd rfl hlast⟩
      (fun c hc => ⟨Nat.zero_le _, ?_⟩) hsorted
    exact addr_le_of_mem_setup hbelow (hperm.mem_iff.mp hc)

end

end

end Whitix.Mm
