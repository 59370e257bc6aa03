import Whitix.Memory.Slab.Invariant

/-!
# Changes of the slab allocator

The allocator changes its caches in three ways: it changes the bitmap of one
slab, it links a new slab, and it adds a cache.  Each of them keeps the
invariant.
-/

namespace Whitix.SlabAlloc

open Support List Option

variable {slab : Slab} {back front : List Slab} {allocated' : List (ℕ × ℕ)}

section

variable {caches : List Cache} {cache : Cache} {c : ℕ}

theorem getElem?_set_cases {c d : ℕ}
    {cache cache' : Cache} (h : (caches.set c cache')[d]? = some cache) :
    (d = c ∧ cache = cache') ∨ (d ≠ c ∧ caches[d]? = some cache) := by
  by_cases hdc : d = c
  · subst hdc
    rw [getElem?_set_self'] at h
    obtain ⟨_, -, rfl⟩ := map_eq_some_iff.mp h
    exact .inl ⟨rfl, rfl⟩
  · rw [getElem?_set_ne (Ne.symm hdc)] at h
    exact .inr ⟨hdc, h⟩

theorem forall_set {P : ℕ → Cache → Prop}
    (hnew : P c cache) (hold : ∀ d x, caches[d]? = some x → P d x) :
    ∀ d x, (caches.set c cache)[d]? = some x → P d x := by
  intro d x hx
  rcases getElem?_set_cases hx with ⟨rfl, rfl⟩ | ⟨-, hd⟩
  · exact hnew
  · exact hold d x hd

theorem getElem?_set_of_some (hc : caches[c]? = some cache) (cache' : Cache) :
    (caches.set c cache')[c]? = some cache' := by
  rw [getElem?_set_self', hc]
  rfl

theorem getElem?_concat_cases {α : Type*} {xs : List α} {x y : α} {i : ℕ}
    (h : (xs ++ [x])[i]? = some y) : xs[i]? = some y ∨ (i = xs.length ∧ y = x) := by
  rcases lt_trichotomy i xs.length with hlt | heq | hgt
  · rw [getElem?_append_left hlt] at h
    exact .inl h
  · subst heq
    rw [getElem?_concat_length] at h
    exact .inr ⟨rfl, (some.inj h).symm⟩
  · rw [getElem?_eq_none (by simp; omega)] at h
    cases h

theorem forall_concat {P : ℕ → Cache → Prop}
    (hnew : P caches.length cache) (hold : ∀ d x, caches[d]? = some x → P d x) :
    ∀ d x, (caches ++ [cache])[d]? = some x → P d x := by
  intro d x hx
  rcases getElem?_concat_cases hx with hd | ⟨rfl, rfl⟩
  · exact hold d x hd
  · exact hnew

end

/-! ## The layout -/

section Layout

variable {caches : List Cache} {runs : List (ℕ × ℕ)}
  (h : SlabLayout caches runs) {c : ℕ} {cache : Cache}

include h

/-- The slabs of one cache are replaced.  The pages of the new ones must be
mapped and apart from all other slabs. -/
theorem SlabLayout.setSlabs (hc : caches[c]? = some cache) {slabs : List Slab}
    (hmapped : ∀ slab ∈ slabs, (slab.page, cache.numPages) ∈ runs)
    (hsame : slabs.Pairwise fun slab slab' =>
      Apart slab.page cache.bytes slab'.page cache.bytes)
    (hother : ∀ d cache', d ≠ c → caches[d]? = some cache' →
      ∀ slab ∈ slabs, ∀ q ∈ cache'.pages, Apart slab.page cache.bytes q cache'.bytes) :
    SlabLayout (caches.set c { cache with slabs := slabs }) runs := { h with
  wellformed := forall_set { h.wellformed c cache hc with } h.wellformed
  low d x hlow hx := by
    rcases getElem?_set_cases hx with ⟨rfl, rfl⟩ | ⟨-, hd⟩
    · exact h.low d cache hlow hc
    · exact h.low d x hlow hd
  header_size x hx := by
    rcases getElem?_set_cases hx with ⟨rfl, rfl⟩ | ⟨-, hd⟩
    · exact h.header_size cache hc
    · exact h.header_size x hd
  mapped := forall_set (forall_mem_map.mpr hmapped) h.mapped
  apart_same := forall_set (pairwise_map.mpr hsame) h.apart_same
  apart_other d e x y hde hx hy p hp q hq := by
    rcases getElem?_set_cases hx with ⟨rfl, rfl⟩ | ⟨hdc, hd⟩
    · rcases getElem?_set_cases hy with ⟨rfl, rfl⟩ | ⟨hec, he⟩
      · exact absurd rfl hde
      · obtain ⟨slab, hslab, rfl⟩ := mem_map.mp hp
        exact hother e y hec he slab hslab q hq
    · rcases getElem?_set_cases hy with ⟨rfl, rfl⟩ | ⟨hec, he⟩
      · obtain ⟨slab, hslab, rfl⟩ := mem_map.mp hq
        exact (hother d x hdc hd slab hslab p hp).symm
      · exact h.apart_other d e x y hde hd he p hp q hq }

theorem SlabLayout.setSlab (hc : caches[c]? = some cache) {slab' : Slab}
    (hslabs : cache.slabs = front ++ slab :: back) (hpage : slab'.page = slab.page) :
    SlabLayout (caches.set c { cache with slabs := front ++ slab' :: back }) runs := by
  have hmap : (front ++ slab' :: back).map Slab.page = cache.pages := by
    simp [Cache.pages, hslabs, hpage]
  have hpages : ∀ x ∈ front ++ slab' :: back, x.page ∈ cache.pages := by
    intro x hx
    rw [← hmap]
    exact mem_map_of_mem hx
  apply h.setSlabs hc
  · intro x hx
    exact h.mapped c cache hc _ (hpages x hx)
  · have hsame := h.apart_same c cache hc
    rw [← hmap] at hsame
    exact pairwise_map.mp hsame
  · intro d cache' hdc hd x hx q hq
    exact h.apart_other c d cache cache' hdc.symm hc hd _ (hpages x hx) q hq

def Unused (caches : List Cache) (p len : ℕ) : Prop :=
  ∀ (d : ℕ) (cache : Cache), caches[d]? = some cache → ∀ q ∈ cache.pages, Apart p len q cache.bytes

theorem SlabLayout.link (hc : caches[c]? = some cache)
    (hmapped : (slab.page, cache.numPages) ∈ runs) (hunused : Unused caches slab.page cache.bytes) :
    SlabLayout (caches.set c { cache with slabs := cache.slabs ++ [slab] }) runs := by
  apply h.setSlabs hc
  · exact forall_mem_append.mpr ⟨fun x hx => h.mapped c cache hc _ (mem_map_of_mem hx),
      forall_mem_singleton.mpr hmapped⟩
  · refine pairwise_append.mpr ⟨pairwise_map.mp (h.apart_same c cache hc),
        pairwise_singleton _ _, ?_⟩
    exact fun x hx => forall_mem_singleton.mpr (hunused c cache hc _ (mem_map_of_mem hx)).symm
  · intro d cache' hdc hd
    exact forall_mem_append.mpr ⟨fun x hx =>
      h.apart_other c d cache cache' hdc.symm hc hd _ (mem_map_of_mem hx),
      forall_mem_singleton.mpr (hunused d cache' hd)⟩

theorem SlabLayout.add {cache : Cache} (hwell : cache.Wellformed) (hslabs : cache.slabs = [])
    (hlow : caches.length < 2 → cache.offslab = false ∧ cache.size = sizeofSlab) :
    SlabLayout (caches ++ [cache]) runs := { h with
  wellformed := forall_concat hwell h.wellformed
  low d x hd2 hx := by
    rcases getElem?_concat_cases hx with hd | ⟨rfl, rfl⟩
    · exact h.low d x hd2 hd
    · exact (hlow hd2).1
  header_size x hx := by
    rcases getElem?_concat_cases hx with hd | ⟨hlen, rfl⟩
    · exact h.header_size x hd
    · exact (hlow (by omega)).2
  mapped := forall_concat (by simp [Cache.pages, hslabs]) h.mapped
  apart_same := forall_concat (by simp [Cache.pages, hslabs]) h.apart_same
  apart_other d e x y hde hx hy p hp q hq := by
    rcases getElem?_concat_cases hx with hd | ⟨-, rfl⟩
    · rcases getElem?_concat_cases hy with he | ⟨-, rfl⟩
      · exact h.apart_other d e x y hde hd he p hp q hq
      · simp [Cache.pages, hslabs] at hq
    · simp [Cache.pages, hslabs] at hp }

end Layout

/-! ## The objects in use -/

section Changes

variable {caches : List Cache} {runs allocated internal : List (ℕ × ℕ)}
  (h : SlabInv caches runs allocated internal) {c : ℕ} {cache : Cache}

include h

theorem SlabInv.perm (hperm : allocated.Perm allocated') :
    SlabInv caches runs allocated' internal :=
  { h with
    bits := fun c cache hc slab hslab i hi =>
      (h.bits c cache hc slab hslab i hi).trans hperm.mem_iff
    owned := fun c a ha => h.owned c a (hperm.mem_iff.mpr ha)
    nodup := hperm.nodup_iff.mp h.nodup
    internal_sub := fun x hx => hperm.mem_iff.mp (h.internal_sub x hx) }

theorem SlabInv.internalise {x : ℕ × ℕ} (hx : x ∈ allocated) :
    SlabInv caches runs allocated (x :: internal) :=
  { h with
    header_off := fun c cache hc hoff slab hslab =>
      mem_cons_of_mem x (h.header_off c cache hc hoff slab hslab)
    internal_sub := by
      exact forall_mem_cons.mpr ⟨hx, h.internal_sub⟩ }

theorem SlabInv.map {p n : ℕ} (hp : 0 < p) : SlabInv caches ((p, n) :: runs) allocated internal :=
  { h with
    runs_pos := by
      exact forall_mem_cons.mpr ⟨hp, h.runs_pos⟩
    mapped := fun c cache hc p hp =>
      mem_cons_of_mem _ (h.mapped c cache hc p hp) }

section

variable (hc : caches[c]? = some cache)
include hc

theorem SlabInv.objAddr_ne_of_split {other : Slab} (hslabs : cache.slabs = front ++ slab :: back)
    (hother : other ∈ front ∨ other ∈ back) {i j : ℕ} (hi : i < cache.numObjs)
    (hj : j < cache.numObjs) : objAddr cache other i ≠ objAddr cache slab j := by
  have hwell := h.wellformed c cache hc
  have hsame := pairwise_map.mp (h.apart_same c cache hc)
  rw [hslabs, pairwise_append, pairwise_cons] at hsame
  obtain ⟨-, ⟨hback, -⟩, hfront⟩ := hsame
  rcases hother with hother | hother
  · exact objAddr_ne_of_apart hwell hi hj (hfront other hother slab mem_cons_self)
  · exact objAddr_ne_of_apart hwell hi hj (hback other hother).symm

theorem SlabInv.setSlab (slab' : Slab) (hslabs : cache.slabs = front ++ slab :: back)
    (hpage : slab'.page = slab.page) (hheader : slab'.header = slab.header)
    (hfull : slab'.isFull = true → ∀ i < cache.numObjs, slab'.bitmap i = true)
    (hbits : ∀ i < cache.numObjs, (slab'.bitmap i = true ↔ (c, objAddr cache slab i) ∈ allocated'))
    (hother : ∀ x, (∀ i < cache.numObjs, x ≠ (c, objAddr cache slab i)) →
      (x ∈ allocated' ↔ x ∈ allocated))
    (hnodup : allocated'.Nodup) (hsub : ∀ x ∈ internal, x ∈ allocated') :
    SlabInv (caches.set c { cache with slabs := front ++ slab' :: back }) runs
      allocated' internal := by
  have hold : slab ∈ cache.slabs := by simp [hslabs]
  have haddr : ∀ i, objAddr cache slab' i = objAddr cache slab i := by
    intro i
    rw [objAddr, objAddr, hpage]
  have hmem : ∀ x ∈ front ++ slab' :: back,
      x = slab' ∨ ((x ∈ front ∨ x ∈ back) ∧ x ∈ cache.slabs) := by
    intro x hx
    simp only [mem_append, mem_cons] at hx
    rcases hx with hx | hx | hx
    · exact .inr ⟨.inl hx, by simp [hslabs, hx]⟩
    · exact .inl hx
    · exact .inr ⟨.inr hx, by simp [hslabs, hx]⟩
  refine { h.toSlabLayout.setSlab hc hslabs hpage with
    header_on := ?_
    header_off := ?_
    full := ?_
    bits := ?_
    owned := ?_
    nodup := hnodup
    internal_sub := hsub }
  · refine forall_set (fun hoff y hy => ?_) h.header_on
    rcases hmem y hy with rfl | ⟨-, hy⟩
    · rw [hheader, hpage, h.header_on c cache hc hoff slab hold]
    · exact h.header_on c cache hc hoff y hy
  · refine forall_set (fun hoff y hy => ?_) h.header_off
    rcases hmem y hy with rfl | ⟨-, hy⟩
    · rw [hheader]
      exact h.header_off c cache hc hoff slab hold
    · exact h.header_off c cache hc hoff y hy
  · refine forall_set (fun y hy => ?_) h.full
    rcases hmem y hy with rfl | ⟨-, hy⟩
    · exact hfull
    · exact h.full c cache hc y hy
  · intro d x hx y hy i hi
    rcases getElem?_set_cases hx with ⟨rfl, rfl⟩ | ⟨hdc, hd⟩
    · rcases hmem y hy with rfl | ⟨hside, hy⟩
      · exact (haddr i).symm ▸ hbits i hi
      · refine (h.bits d cache hc y hy i hi).trans (hother _ ?_).symm
        intro j hj heq
        exact h.objAddr_ne_of_split hc hslabs hside hi hj (congrArg Prod.snd heq)
    · refine (h.bits d x hd y hy i hi).trans (hother _ ?_).symm
      intro j _ heq
      exact hdc (congrArg Prod.fst heq)
  · intro d a ha
    by_cases hobj : ∃ i < cache.numObjs, (d, a) = (c, objAddr cache slab i)
    · obtain ⟨i, hi, heq⟩ := hobj
      cases heq
      exact ⟨_, getElem?_set_of_some hc _, slab', by simp, i, hi, (haddr i).symm⟩
    · push Not at hobj
      obtain ⟨x, hd, y, hy, i, hi, rfl⟩ := h.owned d a ((hother _ hobj).mp ha)
      by_cases hdc : d = c
      · subst hdc
        obtain rfl := some.inj (hc.symm.trans hd)
        refine ⟨_, getElem?_set_of_some hc _, y, ?_, i, hi, rfl⟩
        have hne : y ≠ slab := by
          rintro rfl
          exact hobj i hi rfl
        rw [hslabs] at hy
        simp only [mem_append, mem_cons, hne, false_or] at hy ⊢
        exact hy.imp id .inr
      · refine ⟨x, ?_, y, hy, i, hi, rfl⟩
        rw [getElem?_set_ne (Ne.symm hdc), hd]

theorem SlabInv.link (hmapped : (slab.page, cache.numPages) ∈ runs)
    (hunused : Unused caches slab.page cache.bytes)
    (hempty : slab.isFull = false ∧ ∀ i, slab.bitmap i = false)
    (hon : cache.offslab = false → slab.header = slab.page)
    (hoff : cache.offslab = true → (1, slab.header) ∈ internal) :
    SlabInv (caches.set c { cache with slabs := cache.slabs ++ [slab] }) runs
      allocated internal := by
  have happend : ∀ {P : Slab → Prop}, (∀ y ∈ cache.slabs, P y) → P slab →
      ∀ y ∈ cache.slabs ++ [slab], P y := fun hold hnew =>
    forall_mem_append.mpr ⟨hold, forall_mem_singleton.mpr hnew⟩
  have hfree : ∀ i < cache.numObjs, (c, objAddr cache slab i) ∉ allocated := by
    intro i hi ha
    obtain ⟨_, hc', y, hy, j, hj, heq⟩ := h.owned c _ ha
    obtain rfl := some.inj (hc.symm.trans hc')
    exact objAddr_ne_of_apart (h.wellformed c cache hc) hi hj
      (hunused c cache hc _ (mem_map_of_mem hy)) heq
  refine { h.toSlabLayout.link hc hmapped hunused with
    header_on := forall_set (fun hx => happend (h.header_on c cache hc hx) (hon hx)) h.header_on
    header_off := forall_set (fun hx => happend (h.header_off c cache hc hx) (hoff hx)) h.header_off
    full := forall_set (happend (h.full c cache hc) fun hfull => ?_) h.full
    bits := forall_set (happend (h.bits c cache hc) fun i hi => ?_) h.bits
    owned := ?_
    nodup := h.nodup
    internal_sub := h.internal_sub }
  · rw [hempty.1] at hfull
    cases hfull
  · rw [hempty.2 i]
    exact iff_of_false Bool.false_ne_true (hfree i hi)
  · intro d a ha
    obtain ⟨x, hd, y, hy, i, hi, rfl⟩ := h.owned d a ha
    by_cases hdc : d = c
    · subst hdc
      obtain rfl := some.inj (hc.symm.trans hd)
      exact ⟨_, getElem?_set_of_some hc _, y, mem_append_left _ hy, i, hi, rfl⟩
    · refine ⟨x, ?_, y, hy, i, hi, rfl⟩
      rw [getElem?_set_ne (Ne.symm hdc), hd]

end

theorem SlabInv.add {cache : Cache} (hwell : cache.Wellformed) (hslabs : cache.slabs = [])
    (hlow : caches.length < 2 → cache.offslab = false ∧ cache.size = sizeofSlab) :
    SlabInv (caches ++ [cache]) runs allocated internal := by
  refine { h.toSlabLayout.add hwell hslabs hlow with
    header_on := forall_concat (by simp [hslabs]) h.header_on
    header_off := forall_concat (by simp [hslabs]) h.header_off
    full := forall_concat (by simp [hslabs]) h.full
    bits := forall_concat (by simp [hslabs]) h.bits
    owned := ?_
    nodup := h.nodup
    internal_sub := h.internal_sub }
  intro d a ha
  obtain ⟨x, hd, hx⟩ := h.owned d a ha
  refine ⟨x, ?_, hx⟩
  rw [getElem?_append_left (List.getElem?_eq_some_iff.mp hd).1, hd]

end Changes

end Whitix.SlabAlloc
