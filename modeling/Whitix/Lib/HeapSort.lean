import Mathlib.Logic.Equiv.Basic
import Whitix.Support.Memory
import Whitix.Support.Word

/-!
# Heap sort

`Sort` of `lib/heapsort.c` works on offsets in bytes: the children of the element at `r`
are at `2 * r + size` and behind it.
-/

namespace Whitix.HeapSort

open Support Function Nat

/-! ## The source -/

abbrev Bytes := ℕ → UInt8

def u32Swap (a b : ℕ) (mem : Bytes) : Bytes :=
  overwrite (overwrite mem a (extract mem b 4)) b (extract mem a 4)

/-- The loop ends behind its body, so that it exchanges at least one byte. -/
def genericSwap : ℕ → ℕ → ℕ → Bytes → Bytes
  | 0, a, b, mem | 1, a, b, mem => update (update mem a (mem b)) b (mem a)
  | size + 2, a, b, mem =>
    genericSwap (size + 1) (a + 1) (b + 1) (update (update mem a (mem b)) b (mem a))

section

variable (size num : ℕ) (compare : (Fin size → UInt8) → (Fin size → UInt8) → ℤ)

def defaultSwap (a b : ℕ) (mem : Bytes) : Bytes :=
  if size = 4 then u32Swap a b mem else genericSwap (int32 size).toNat a b mem

def element (mem : Bytes) (a : ℕ) : Fin size → UInt8 := fun t => mem (a + t)

abbrev Inside (a : ℕ) : Prop := a % size = 0 ∧ a + size ≤ num * size

/-- The loop over `r`, for the elements in front of the offset `n`.  There is no result
after `fuel` iterations, or if an offset is not one of the array. -/
def siftLoop (n : ℕ) : ℕ → ℕ → Bytes → Option Bytes
  | 0, _, _ => none
  | fuel + 1, r, mem =>
    let c := dword (r * 2 + size)
    if c < n then
      if Inside size num r ∧ Inside size num c ∧
          (c < dwordSub n size → Inside size num (c + size)) then
        let c := if c < dwordSub n size ∧
          compare (element size mem c) (element size mem (c + size)) < 0 then c + size else c
        if 0 ≤ compare (element size mem r) (element size mem c) then some mem
        else siftLoop n fuel c (defaultSwap size r c mem)
      else none
    else some mem

def heapifyLoop (n : ℕ) : ℕ → ℕ → Bytes → Option Bytes
  | 0, _, _ => none
  | fuel + 1, i, mem =>
    if 0 ≤ int32 i then
      (siftLoop size num compare n fuel i mem).bind (heapifyLoop n fuel (dwordSub i size))
    else some mem

def sortLoop : ℕ → ℕ → Bytes → Option Bytes
  | 0, _, _ => none
  | fuel + 1, i, mem =>
    if 0 < int32 i then
      if Inside size num 0 ∧ Inside size num i then
        (siftLoop size num compare i fuel 0 (defaultSwap size 0 i mem)).bind
          (sortLoop fuel (dwordSub i size))
      else none
    else some mem

def sort (fuel : ℕ) (base : Bytes) : Option Bytes :=
  let n := dword (num * size)
  (heapifyLoop size num compare n fuel (dword (dwordSub (num / 2) 1 * size)) base).bind
    (sortLoop size num compare fuel (dwordSub n size))

end

/-! ## Heaps -/

section Heaps

variable {α : Type*} {compare : α → α → ℤ} {f : ℕ → α} {lo n r c m : ℕ}

/-- The function compares by a total preorder. -/
structure Compares (compare : α → α → ℤ) : Prop where
  flip : ∀ x y, compare x y ≤ 0 ↔ 0 ≤ compare y x
  trans : ∀ x y z, compare x y ≤ 0 → compare y z ≤ 0 → compare x z ≤ 0

theorem Compares.refl (h : Compares compare) (x : α) : compare x x ≤ 0 :=
  (le_total (compare x x) 0).elim id (h.flip x x).mpr

abbrev Child (p c : ℕ) : Prop := c = 2 * p + 1 ∨ c = 2 * p + 2

/-- From `lo` on, no child is larger than its parent. -/
def Heap (compare : α → α → ℤ) (f : ℕ → α) (lo n : ℕ) : Prop :=
  ∀ p c, lo ≤ p → Child p c → c < n → compare (f c) (f p) ≤ 0

/-- The children of `r` may be larger than `r`, but not than its parent. -/
structure HeapBut (compare : α → α → ℤ) (f : ℕ → α) (lo n r : ℕ) : Prop where
  order : ∀ p c, lo ≤ p → p ≠ r → Child p c → c < n → compare (f c) (f p) ≤ 0
  grand : ∀ p c, lo ≤ p → Child p r → Child r c → c < n → compare (f c) (f p) ≤ 0

def largest (compare : α → α → ℤ) (f : ℕ → α) (n r : ℕ) : ℕ :=
  if 2 * r + 2 < n ∧ compare (f (2 * r + 1)) (f (2 * r + 2)) < 0 then 2 * r + 2 else 2 * r + 1

theorem largest_spec (hcompare : Compares compare) (hchild : 2 * r + 1 < n) :
    Child r (largest compare f n r) ∧ largest compare f n r < n ∧
      ∀ d, Child r d → d < n → compare (f d) (f (largest compare f n r)) ≤ 0 := by
  have hflip := hcompare.flip
  have hrefl := hcompare.refl
  unfold largest
  grind

theorem HeapBut.stop (h : HeapBut compare f lo n r)
    (hr : ∀ c, Child r c → c < n → compare (f c) (f r) ≤ 0) : Heap compare f lo n := by
  intro p c hp hc hlt
  by_cases hpr : p = r
  · subst hpr
    exact hr c hc hlt
  · exact h.order p c hp hpr hc hlt

theorem HeapBut.move (h : HeapBut compare f lo n r) (hlo : lo ≤ r) (hc : Child r c) (hlt : c < n)
    (hmax : ∀ d, Child r d → d < n → compare (f d) (f c) ≤ 0) (hle : compare (f r) (f c) ≤ 0) :
    HeapBut compare (f ∘ Equiv.swap r c) lo n c := by
  obtain ⟨horder, hgrand⟩ := h
  constructor
  all_goals
    intro p d hp hpc hd hdn
    simp only [comp_apply, Equiv.swap_apply_def]
    grind

theorem Heap.swap_root (h : Heap compare f 0 (n + 1)) :
    HeapBut compare (f ∘ Equiv.swap 0 n) 0 n 0 := by
  refine ⟨fun p c hp hpz hc hlt => ?_, fun p c hp hc => by omega⟩
  simp only [comp_apply, Equiv.swap_apply_def]
  grind [Heap]

theorem Heap.extend (h : Heap compare f (r + 1) n) : HeapBut compare f r n r := by
  exact ⟨fun p c hp hpr => h p c (lt_of_le_of_ne hp hpr.symm), fun p c hp hr => by omega⟩

theorem Heap.le_root (h : Heap compare f 0 n) (hcompare : Compares compare) (hm : m < n) :
    compare (f m) (f 0) ≤ 0 := by
  induction m using Nat.strongRecOn with
  | ind m ih =>
    by_cases hzero : m = 0
    · rw [hzero]
      exact hcompare.refl _
    · refine hcompare.trans _ _ _ (h ((m - 1) / 2) m (zero_le _) ?_ hm) (ih _ (by omega) (by omega))
      omega

end Heaps

/-! ## Elements -/

variable {k size num a b c p q m n t r fuel : ℕ} {mem mem' : Bytes}

def item (size : ℕ) (mem : Bytes) (m : ℕ) : Fin size → UInt8 := element size mem (m * size)

/-- The first `n` elements have been moved as a whole, and nothing else has changed. -/
def Moved (n size : ℕ) (mem mem' : Bytes) : Prop :=
  ∃ σ : Equiv.Perm ℕ, (∀ m, n ≤ m → σ m = m) ∧ item size mem' = item size mem ∘ σ

theorem Moved.refl (n : ℕ) (mem : Bytes) : Moved n size mem mem :=
  ⟨Equiv.refl ℕ, fun _ _ => rfl, rfl⟩

theorem Moved.trans {mem'' : Bytes} (h : Moved n size mem mem')
    (h' : Moved n size mem' mem'') : Moved n size mem mem'' := by
  obtain ⟨σ, hσ, hmem⟩ := h
  obtain ⟨τ, hτ, hmem'⟩ := h'
  refine ⟨τ.trans σ, fun m hm => ?_, ?_⟩
  · rw [Equiv.trans_apply, hτ m hm, hσ m hm]
  · rw [hmem', hmem]
    rfl

theorem Moved.eq_of_le (h : Moved n size mem mem') (hq : n ≤ q) :
    item size mem' q = item size mem q := by
  obtain ⟨σ, hσ, hmem⟩ := h
  rw [hmem, comp_apply, hσ q hq]

theorem Moved.exists_lt (h : Moved n size mem mem') (hp : p < q) (hq : n ≤ q) :
    ∃ p' < q, item size mem' p = item size mem p' := by
  obtain ⟨σ, hσ, hmem⟩ := h
  refine ⟨σ p, ?_, congrFun hmem p⟩
  by_contra hle
  have hfix := σ.injective (hσ (σ p) (by omega))
  omega

theorem Moved.mono (h : Moved n size mem mem') (hn : n ≤ num) : Moved num size mem mem' := by
  obtain ⟨σ, hσ, hmem⟩ := h
  exact ⟨σ, fun m hm => hσ m (hn.trans hm), hmem⟩

def exchanged (size a b : ℕ) (mem : Bytes) : Bytes := fun p =>
  if a ≤ p ∧ p < a + size then mem (p + (b - a))
  else if b ≤ p ∧ p < b + size then mem (p - (b - a)) else mem p

theorem genericSwap_eq (h : a + (k + 1) ≤ b) :
    genericSwap (k + 1) a b mem = exchanged (k + 1) a b mem := by
  induction k generalizing a b mem with
  | zero =>
    funext p
    simp only [genericSwap, exchanged, update_apply]
    split_ifs <;> grind
  | succ k ih =>
    funext p
    rw [genericSwap, ih (by omega)]
    simp only [exchanged, update_apply]
    split_ifs <;> grind

theorem u32Swap_eq (h : a + 4 ≤ b) : u32Swap a b mem = exchanged 4 a b mem := by
  funext p
  simp only [u32Swap, exchanged, overwrite, List.getD_eq_getElem?_getD, extract, List.getElem?_map]
  split_ifs <;> grind

theorem defaultSwap_eq (hpos : 0 < size) (hlt : size < 2 ^ 31) (h : a + size ≤ b) :
    defaultSwap size a b mem = exchanged size a b mem := by
  unfold defaultSwap
  split_ifs with hfour
  · subst hfour
    exact u32Swap_eq h
  · obtain ⟨k, rfl⟩ := Nat.exists_eq_add_of_le' hpos
    rw [int32_of_range (by omega) (by omega)]
    exact genericSwap_eq h

theorem mem_block_iff (ht : t < size) :
    p * size ≤ m * size + t ∧ m * size + t < p * size + size ↔ m = p := by
  rw [← Nat.add_one_mul, ← Nat.le_div_iff_mul_le (by omega), ← Nat.div_lt_iff_lt_mul (by omega),
    Nat.mul_comm m, mul_add_div (by omega), div_eq_of_lt ht]
  omega

theorem item_exchanged (hpq : p < q) :
    item size (exchanged size (p * size) (q * size) mem) = item size mem ∘ Equiv.swap p q := by
  have hle : (p + 1) * size ≤ q * size := Nat.mul_le_mul_right size hpq
  rw [Nat.add_one_mul] at hle
  funext m t
  simp only [item, element, exchanged, mem_block_iff t.isLt, comp_apply]
  split_ifs with hp hq
  · rw [hp, Equiv.swap_apply_left]
    congr 1
    omega
  · rw [hq, Equiv.swap_apply_right]
    congr 1
    omega
  · rw [Equiv.swap_apply_of_ne_of_ne hp hq]

theorem Moved.exchanged (hpq : p < q) (hq : q < n) (mem : Bytes) :
    Moved n size mem (exchanged size (p * size) (q * size) mem) :=
  ⟨Equiv.swap p q, fun _ hm => Equiv.swap_apply_of_ne_of_ne (by omega) (by omega),
    item_exchanged hpq⟩

/-! ## The loops -/

theorem int32_before_neg (hpos : 0 < size) (hsize : size ≤ 2 ^ 31) :
    int32 (dwordSub (0 * size) size) < 0 := by
  rw [Nat.zero_mul, dwordSub, if_neg (by omega), int32, Int.bmod_def]
  omega

theorem inside_iff (hpos : 0 < size) : Inside size num (m * size) ↔ m < num := by
  rw [Inside, mul_mod_left, ← Nat.add_one_mul, Nat.mul_le_mul_right_iff hpos]
  exact and_iff_right rfl

variable {compare : (Fin size → UInt8) → (Fin size → UInt8) → ℤ}

section

variable (hnum : num * size < 2 ^ 30)
include hnum

theorem child_offset (hr : r < num) : dword (r * size * 2 + size) = (2 * r + 1) * size := by
  have hle : (r + 1) * size ≤ num * size := Nat.mul_le_mul_right size hr
  rw [Nat.add_one_mul] at hle
  rw [dword_of_lt (by omega)]
  ring

variable (hpos : 0 < size)
include hpos

theorem siftLoop_succ (hr : r < n) (hn : n ≤ num) (hchild : 2 * r + 1 < n)
    (hc : largest compare (item size mem) n r = c) :
    siftLoop size num compare (n * size) (fuel + 1) (r * size) mem =
      if 0 ≤ compare (item size mem r) (item size mem c) then some mem
      else siftLoop size num compare (n * size) fuel (c * size)
        (exchanged size (r * size) (c * size) mem) := by
  have hle : n * size ≤ num * size := Nat.mul_le_mul_right size hn
  have hsize : 1 * size ≤ n * size := Nat.mul_le_mul_right size (by omega)
  have hlast : (2 * r + 1) * size < n * size - size ↔ 2 * r + 2 < n := by
    rw [← Nat.sub_one_mul, Nat.mul_lt_mul_right hpos]
    omega
  unfold largest at hc
  have hrc : (r + 1) * size ≤ c * size := Nat.mul_le_mul_right size (by split_ifs at hc <;> omega)
  rw [Nat.add_one_mul] at hrc
  rw [← defaultSwap_eq hpos (by omega) hrc, siftLoop]
  simp only [child_offset hnum (hr.trans_le hn), Nat.mul_lt_mul_right hpos, if_pos hchild,
    dwordSub_of_le (show size ≤ n * size by omega), hlast, ← Nat.add_one_mul, inside_iff hpos]
  rw [if_pos (by omega), ← ite_mul, ← hc]
  rfl

variable (hcompare : Compares compare)
include hcompare

/-- The loop ends, and leaves a heap if all but the element at `r` were in order. -/
theorem siftLoop_spec (hr : r < n) (hn : n ≤ num) (hfuel : n < fuel + r) (mem : Bytes) :
    ∃ mem', siftLoop size num compare (n * size) fuel (r * size) mem = some mem' ∧
      Moved n size mem mem' ∧ ∀ lo ≤ r, HeapBut compare (item size mem) lo n r →
        Heap compare (item size mem') lo n := by
  induction fuel generalizing r mem with
  | zero => omega
  | succ fuel ih =>
    by_cases hchild : 2 * r + 1 < n
    · obtain ⟨hc, hcn, hmax⟩ := @largest_spec _ _ (item size mem) _ _ hcompare hchild
      generalize hlargest : largest compare (item size mem) n r = c at hc hcn hmax
      have hrc : r < c := by omega
      rw [siftLoop_succ hnum hpos hr hn hchild hlargest]
      split_ifs with hle
      · refine ⟨mem, rfl, Moved.refl n mem, fun lo _ h => h.stop fun d hd hdn => ?_⟩
        exact hcompare.trans _ _ _ (hmax d hd hdn) ((hcompare.flip _ _).mpr hle)
      · obtain ⟨mem', hsift, hmoved, hheap⟩ :=
          ih hcn (by omega) (exchanged size (r * size) (c * size) mem)
        refine ⟨mem', hsift, (Moved.exchanged hrc hcn mem).trans hmoved, fun lo hlo h => ?_⟩
        refine hheap lo (by omega) ?_
        rw [item_exchanged hrc]
        exact h.move hlo hc hcn hmax (not_le.mp hle).le
    · refine ⟨mem, ?_, Moved.refl n mem, fun lo _ h => h.stop fun d hd hdn => by omega⟩
      rw [siftLoop, child_offset hnum (hr.trans_le hn)]
      exact if_neg (mt (lt_of_mul_lt_mul_right · (zero_le size)) hchild)

theorem heapifyLoop_spec (hsize : size ≤ 2 ^ 31) (hk : k ≤ num / 2) (hfuel : num + k < fuel)
    (hheap : Heap compare (item size mem) k num) :
    ∃ mem', heapifyLoop size num compare (num * size) fuel (dwordSub (k * size) size) mem =
        some mem' ∧ Moved num size mem mem' ∧ Heap compare (item size mem') 0 num := by
  induction fuel generalizing k mem with
  | zero => omega
  | succ fuel ih =>
    rw [heapifyLoop]
    rcases k with _ | k
    · exact ⟨mem, if_neg (int32_before_neg hpos hsize).not_ge, Moved.refl num mem, hheap⟩
    have hlt : k * size < num * size := Nat.mul_lt_mul_of_pos_right (by omega) hpos
    obtain ⟨mem', hsift, hmoved, hheap'⟩ :=
      siftLoop_spec hnum hpos hcompare (show k < num by omega) le_rfl
        (show num < fuel + k by omega) mem
    obtain ⟨mem'', hloop, hmoved', hheap''⟩ :=
      ih (by omega) (by omega) (hheap' k le_rfl hheap.extend)
    refine ⟨mem'', ?_, hmoved.trans hmoved', hheap''⟩
    rw [Nat.add_one_mul, dwordSub_of_le (Nat.le_add_left _ _), Nat.add_sub_cancel,
      if_pos (by rw [int32_of_range (by omega) (by omega)]; omega), hsift]
    exact hloop

theorem sortLoop_spec (hsize : size ≤ 2 ^ 31) (hn : n ≤ num) (hfuel : num + n < fuel)
    (hheap : Heap compare (item size mem) 0 n)
    (hsorted : ∀ p q, p < q → n ≤ q → q < num → compare (item size mem p) (item size mem q) ≤ 0) :
    ∃ mem', sortLoop size num compare fuel (dwordSub (n * size) size) mem = some mem' ∧
      Moved n size mem mem' ∧
      ∀ p q, p < q → q < num → compare (item size mem' p) (item size mem' q) ≤ 0 := by
  induction fuel generalizing n mem with
  | zero => omega
  | succ fuel ih =>
    rw [sortLoop]
    match n with
    | 0 =>
      exact ⟨mem, if_neg (int32_before_neg hpos hsize).asymm, Moved.refl 0 mem,
        fun p q hpq => hsorted p q hpq (zero_le q)⟩
    | 1 =>
      refine ⟨mem, ?_, Moved.refl 1 mem, fun p q hpq => hsorted p q hpq (by omega)⟩
      rw [Nat.one_mul, dwordSub_of_le le_rfl, Nat.sub_self]
      rfl
    | n + 2 =>
      rw [Nat.add_one_mul, dwordSub_of_le (Nat.le_add_left _ _), Nat.add_sub_cancel]
      have hlt : (n + 1) * size < num * size := Nat.mul_lt_mul_of_pos_right hn hpos
      have hle : 1 * size ≤ num * size := Nat.mul_le_mul_right size (by omega)
      -- The largest element goes behind the heap.
      have hswap : defaultSwap size 0 ((n + 1) * size) mem =
          exchanged size (0 * size) ((n + 1) * size) mem := by
        rw [Nat.zero_mul]
        exact defaultSwap_eq hpos (by omega) (by rw [Nat.add_one_mul]; omega)
      have hitem := @item_exchanged size _ _ mem (Nat.zero_lt_succ n)
      obtain ⟨mem', hsift, hmoved, hheap'⟩ := siftLoop_spec hnum hpos hcompare (Nat.zero_lt_succ n)
        (by omega) (show n + 1 < fuel + 0 by omega)
        (exchanged size (0 * size) ((n + 1) * size) mem)
      have hmoved' := (Moved.exchanged (Nat.zero_lt_succ n) (lt_succ_self (n + 1)) mem).trans
        (hmoved.mono (le_succ (n + 1)))
      obtain ⟨mem'', hloop, hmoved'', hsorted'⟩ := ih (by omega) (by omega)
        (hheap' 0 le_rfl (hitem ▸ hheap.swap_root)) fun p q hpq hq hqn => by
          by_cases hlast : n + 2 ≤ q
          · obtain ⟨p', hp', hp⟩ := hmoved'.exists_lt hpq hlast
            rw [hp, hmoved'.eq_of_le hlast]
            exact hsorted p' q hp' hlast hqn
          · obtain rfl : q = n + 1 := by omega
            obtain ⟨p', hp', hp⟩ := hmoved'.exists_lt (hpq.trans (lt_succ_self _)) le_rfl
            rw [hp, hmoved.eq_of_le le_rfl, hitem, comp_apply, Equiv.swap_apply_right]
            exact hheap.le_root hcompare hp'
      refine ⟨mem'', ?_, hmoved'.trans (hmoved''.mono (le_succ _)), hsorted'⟩
      have hinside : Inside size num 0 ∧ Inside size num ((n + 1) * size) :=
        ⟨⟨zero_mod size, by omega⟩, (inside_iff hpos).mpr (by omega)⟩
      rw [Nat.zero_mul] at hsift
      rw [if_pos (by rw [int32_of_range (by omega) (by omega)]; positivity), if_pos hinside,
        hswap, Nat.zero_mul, hsift]
      exact hloop

end

theorem dword_pred_mul (hpos : 0 < size) (hsize : size ≤ 2 ^ 31) (hlt : n * size < 2 ^ 30) :
    dword (dwordSub n 1 * size) = dwordSub (n * size) size := by
  cases n with
  | zero =>
    rw [Nat.zero_mul, dwordSub, dwordSub, if_neg (by omega), if_neg (by omega), dword]
    omega
  | succ n =>
    rw [Nat.add_one_mul] at *
    rw [dwordSub_of_le (Nat.le_add_left _ _), dwordSub_of_le (Nat.le_add_left _ _),
      Nat.add_sub_cancel, Nat.add_sub_cancel, dword_of_lt (by omega)]

/-- For elements that have a byte, `Sort` sorts. -/
theorem sort_sorts (hpos : 0 < size) (hempty : num = 0 → size ≤ 2 ^ 31)
    (hnum : num * size < 2 ^ 30) (hcompare : Compares compare) (base : Bytes) :
    ∃ fuel mem, sort size num compare fuel base = some mem ∧ Moved num size base mem ∧
      ∀ p q, p < q → q < num → compare (item size mem p) (item size mem q) ≤ 0 := by
  have hsize : size ≤ 2 ^ 31 := by
    by_cases hzero : num = 0
    · exact hempty hzero
    · have hle : 1 * size ≤ num * size := Nat.mul_le_mul_right size (by omega)
      omega
  have hhalf : num / 2 * size ≤ num * size := Nat.mul_le_mul_right size (div_le_self num 2)
  obtain ⟨mem, hheapify, hmoved, hheap⟩ := heapifyLoop_spec hnum hpos hcompare hsize le_rfl
    (show num + num / 2 < 2 * num + 1 by omega) (fun p c hp hc hlt => by omega :
      Heap compare (item size base) (num / 2) num)
  obtain ⟨mem', hsort, hmoved', hsorted⟩ := sortLoop_spec hnum hpos hcompare hsize le_rfl
    (show num + num < 2 * num + 1 by omega) hheap fun p q _ hq hlt => absurd hlt hq.not_gt
  refine ⟨2 * num + 1, mem', ?_, hmoved.trans hmoved', hsorted⟩
  rw [← dword_of_lt (show num * size < 2 ^ 32 by omega)] at hheapify hsort
  rw [← dword_pred_mul hpos hsize (show num / 2 * size < 2 ^ 30 by omega)] at hheapify
  unfold sort
  refine Option.bind_eq_some_iff.mpr ⟨mem, ?_, ?_⟩
  · exact hheapify
  · exact hsort

/-- Two elements of a byte. -/
theorem sort_sorts_two : ∃ fuel mem, sort 1 2 (fun x y => (x 0).toNat - (y 0).toNat) fuel
    (fun a => if a = 0 then 7 else 3) = some mem ∧ (mem 0).toNat ≤ (mem 1).toNat := by
  obtain ⟨fuel, mem, hsort, -, hsorted⟩ := @sort_sorts 1 2
    (fun x y => (x 0).toNat - (y 0).toNat) (by decide) (by decide) (by decide)
    ⟨fun _ _ => by omega, fun _ _ _ => by omega⟩ fun a => if a = 0 then 7 else 3
  exact ⟨fuel, mem, hsort, by simpa [item, element] using hsorted 0 1 (by decide) (by decide)⟩

/-- The first loop does not end for elements without a byte, and the second one
exchanges elements of an empty array if they are too large. -/
theorem not_sort_size : (¬ ∃ fuel mem, sort 0 2 (fun _ _ => 0) fuel (fun _ => 0) = some mem) ∧
    ¬ ∃ fuel mem, sort (2 ^ 31 + 1) 0 (fun _ _ => 0) fuel (fun _ => 0) = some mem := by
  constructor
  · have hloop : ∀ fuel mem, heapifyLoop 0 2 (fun _ _ => 0) 0 fuel 0 mem = none := by
      intro fuel mem
      induction fuel with
      | zero => rfl
      | succ fuel ih =>
        cases fuel with
        | zero => rfl
        | succ fuel => exact ih
    rintro ⟨fuel, mem, h⟩
    cases (congrArg (Option.bind · _) (hloop fuel _)).symm.trans h
  · rintro ⟨fuel, mem, h⟩
    rcases fuel with _ | _ | fuel
    all_goals cases h

end Whitix.HeapSort
