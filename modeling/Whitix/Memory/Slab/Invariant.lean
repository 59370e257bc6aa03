import Whitix.Memory.Slab.Model
import Whitix.Support.Blocks
import Mathlib.Data.List.Pairwise

/-!
# The invariant of the slab allocator

Slabs are apart from each other, the bitmaps agree with the objects in use, and
every header is in its place.  The three ways in which the allocator changes
this picture are changing the bitmap of one slab, linking a new slab, and
adding a cache; each of them has one lemma here.
-/

namespace Whitix.SlabAlloc

open Support Option Nat

/-! ## Caches -/

def Cache.bytes (cache : Cache) : ℕ := cache.numPages * pageSize

/-- The objects of a cache fit into its slabs, behind a header that lies in
the same pages. -/
structure Cache.Wellformed (cache : Cache) : Prop where
  size_pos : 0 < cache.size
  numObjs_pos : 0 < cache.numObjs
  fits : cache.offset + cache.numObjs * cache.size ≤ cache.bytes
  header : cache.offslab = false → cache.offset = sizeofSlab
  pages : slabPages cache = cache.numPages

variable {size j d a c : ℕ} {slab' : Slab}

theorem slabPages_of_fits (hlt : size < 2 ^ 32)
    (hlarge : pageSize < size) (hfits : size ≤ size / pageSize * pageSize) :
    pageAlignUp size / pageSize = size / pageSize := by
  have hdvd : pageSize ∣ size :=
    ⟨size / pageSize, by
      rw [mul_comm]
      exact le_antisymm hfits (div_mul_le_self _ _)⟩
  rw [pageAlignUp_of_dvd hdvd]
  unfold pageSize at *
  omega

theorem cacheDescriptor_wellformed {ctor : Option (ℕ → List UInt8)} {offslab : Bool}
    (hobjs : 0 < (cacheDescriptor size ctor offslab).numObjs) :
    (cacheDescriptor size ctor offslab).Wellformed := by
  have hlt : dword (size + 3) / 4 * 4 < 2 ^ 32 :=
    lt_of_le_of_lt (div_mul_le_self _ _) (dword_lt _)
  unfold cacheDescriptor at hobjs ⊢
  dsimp only at hobjs ⊢
  generalize dword (size + 3) / 4 * 4 = size at hlt hobjs ⊢
  generalize hoff : (if (offslab || decide (pageSize / 4 ≤ size)) = true then 0
    else sizeofSlab) = offset at hobjs ⊢
  generalize hpages : (if pageSize < size then size / pageSize else 1) = numPages at hobjs ⊢
  have hsize : 0 < size := by
    rcases Nat.eq_zero_or_pos size with rfl | hpos
    · simp at hobjs
    · exact hpos
  have hroom : size ≤ numPages * pageSize - offset := by
    by_contra hsmall
    rw [div_eq_of_lt (not_le.mp hsmall)] at hobjs
    exact lt_irrefl 0 hobjs
  refine {
    size_pos := hsize
    numObjs_pos := hobjs
    fits := ?_
    header := ?_
    pages := ?_ }
  · have hle := div_mul_le_self (numPages * pageSize - offset) size
    unfold Cache.bytes
    dsimp only
    omega
  · intro hon
    dsimp only at hon ⊢
    rw [← hoff, if_neg (by simp [hon])]
  · unfold slabPages
    by_cases hlarge : pageSize < size
    · have hoffset : offset = 0 := by
        rw [← hoff, if_pos]
        simp only [Bool.or_eq_true, decide_eq_true_eq]
        right
        omega
      rw [if_pos hlarge] at hpages ⊢
      rw [hoffset, Nat.sub_zero, ← hpages] at hroom
      rw [slabPages_of_fits hlt hlarge hroom, hpages]
    · rw [if_neg hlarge] at hpages ⊢
      exact hpages

theorem cacheCache_wellformed : cacheCache.Wellformed where
  size_pos := by decide
  numObjs_pos := by decide
  fits := by decide
  header := fun _ => rfl
  pages := by decide

/-! ## The objects of one slab -/

section Objects

variable {cache : Cache} (hwell : cache.Wellformed) {slab : Slab} {i : ℕ}

include hwell

theorem objAddr_inside (slab : Slab) (hi : i < cache.numObjs) :
    slab.page + cache.offset ≤ objAddr cache slab i ∧
      objAddr cache slab i + cache.size ≤ slab.page + cache.bytes := by
  have hfits := hwell.fits
  have hgrid := grid_le (slab.page + cache.offset) cache.size hi
  unfold objAddr
  omega

theorem objAddr_injective (h : objAddr cache slab i = objAddr cache slab j) : i = j :=
  grid_injective hwell.size_pos h

theorem objAddr_ne_of_apart (hi : i < cache.numObjs) (hj : j < cache.numObjs)
    (hapart : Apart slab.page cache.bytes slab'.page cache.bytes) :
    objAddr cache slab i ≠ objAddr cache slab' j := by
  have hin := objAddr_inside hwell slab hi
  have hin' := objAddr_inside hwell slab' hj
  have hpos := hwell.size_pos
  unfold Apart at hapart
  omega

end Objects

/-! ## The invariant -/

def Cache.pages (cache : Cache) : List ℕ := cache.slabs.map Slab.page

/-- The slabs of all caches lie in mapped runs and are apart.  The first two
caches, `cacheCache` and `slabCache`, keep their headers on the slab. -/
structure SlabLayout (caches : List Cache) (runs : List (ℕ × ℕ)) : Prop where
  wellformed : ∀ (c : ℕ) (cache : Cache), caches[c]? = some cache → cache.Wellformed
  low : ∀ (c : ℕ) (cache : Cache), c < 2 → caches[c]? = some cache → cache.offslab = false
  header_size : ∀ cache : Cache, caches[1]? = some cache → cache.size = sizeofSlab
  runs_pos : ∀ r ∈ runs, 0 < r.1
  mapped : ∀ (c : ℕ) (cache : Cache), caches[c]? = some cache →
    ∀ p ∈ cache.pages, (p, cache.numPages) ∈ runs
  apart_same : ∀ (c : ℕ) (cache : Cache), caches[c]? = some cache →
    cache.pages.Pairwise fun p q => Apart p cache.bytes q cache.bytes
  apart_other : ∀ (c d : ℕ) (cache cache' : Cache), c ≠ d →
    caches[c]? = some cache → caches[d]? = some cache' →
    ∀ p ∈ cache.pages, ∀ q ∈ cache'.pages, Apart p cache.bytes q cache'.bytes

/-- The bitmaps of the slabs say which objects are in use, and the headers of
the slabs are at the start of their pages or are objects of `slabCache` that
are never given back. -/
structure SlabInv (caches : List Cache) (runs allocated internal :
    List (ℕ × ℕ)) : Prop extends SlabLayout caches runs where
  header_on : ∀ (c : ℕ) (cache : Cache), caches[c]? = some cache →
    cache.offslab = false → ∀ slab ∈ cache.slabs, slab.header = slab.page
  header_off : ∀ (c : ℕ) (cache : Cache), caches[c]? = some cache →
    cache.offslab = true → ∀ slab ∈ cache.slabs, (1, slab.header) ∈ internal
  full : ∀ (c : ℕ) (cache : Cache), caches[c]? = some cache →
    ∀ slab ∈ cache.slabs, slab.isFull = true → ∀ i < cache.numObjs, slab.bitmap i = true
  bits : ∀ (c : ℕ) (cache : Cache), caches[c]? = some cache →
    ∀ slab ∈ cache.slabs, ∀ i < cache.numObjs,
      (slab.bitmap i = true ↔ (c, objAddr cache slab i) ∈ allocated)
  owned : ∀ c a, (c, a) ∈ allocated → ∃ cache, caches[c]? = some cache ∧
    ∃ slab ∈ cache.slabs, ∃ i < cache.numObjs, a = objAddr cache slab i
  nodup : allocated.Nodup
  internal_sub : ∀ x ∈ internal, x ∈ allocated

variable {cache' cache : Cache}

section Derived

variable {caches : List Cache} {runs allocated internal : List (ℕ × ℕ)}
  (h : SlabInv caches runs allocated internal)

include h

section

variable (hc : caches[c]? = some cache) (hd : caches[d]? = some cache')
include hc hd

theorem SlabInv.slab_cases
    {slab : Slab} (hslab : slab ∈ cache.slabs) (hslab' : slab' ∈ cache'.slabs) :
    (c = d ∧ slab.page = slab'.page) ∨ Apart slab.page cache.bytes slab'.page cache'.bytes := by
  have hp : slab.page ∈ cache.pages := List.mem_map_of_mem hslab
  have hq : slab'.page ∈ cache'.pages := List.mem_map_of_mem hslab'
  by_cases hcd : c = d
  · subst hcd
    obtain rfl : cache = cache' := some.inj (hc.symm.trans hd)
    by_cases hpage : slab.page = slab'.page
    · exact .inl ⟨rfl, hpage⟩
    · have hsymm : Std.Symm fun p q => Apart p cache.bytes q cache.bytes :=
        ⟨fun p q hpq => hpq.symm⟩
      exact .inr ((h.apart_same c cache hc).forall hp hq hpage)
  · exact .inr (h.apart_other c d cache cache' hcd hc hd _ hp _ hq)

theorem SlabInv.objects_apart {b : ℕ} (ha : (c, a) ∈ allocated) (hb : (d, b) ∈ allocated)
    (hne : (c, a) ≠ (d, b)) : Apart a cache.size b cache'.size := by
  obtain ⟨_, hc', slab, hslab, i, hi, rfl⟩ := h.owned c a ha
  obtain rfl := some.inj (hc.symm.trans hc')
  obtain ⟨_, hd', slab', hslab', j, hj, rfl⟩ := h.owned d b hb
  obtain rfl := some.inj (hd.symm.trans hd')
  rcases h.slab_cases hc hd hslab hslab' with ⟨rfl, hpage⟩ | hapart
  · obtain rfl := some.inj (hc.symm.trans hd)
    have hij : i ≠ j := by
      rintro rfl
      exact hne (by simp [objAddr, hpage])
    unfold objAddr
    rw [hpage]
    exact apart_grid _ _ hij
  · have hin := objAddr_inside (h.wellformed c cache hc) slab hi
    have hin' := objAddr_inside (h.wellformed d cache' hd) slab' hj
    exact hapart.mono ⟨by omega, hin.2⟩ ⟨by omega, hin'.2⟩

theorem SlabInv.header_apart (ha : (c, a) ∈ allocated) (hlive : (c, a) ∉ internal)
    (hslab' : slab' ∈ cache'.slabs) : Apart a cache.size slab'.header sizeofSlab := by
  cases hoff : cache'.offslab with
  | true =>
    -- The header is an object of `slabCache`.
    have hheader := h.header_off d cache' hd hoff slab' hslab'
    have hheader' := h.internal_sub _ hheader
    obtain ⟨slabCache, hone, -⟩ := h.owned 1 _ hheader'
    have hne : (c, a) ≠ (1, slab'.header) := by
      intro heq
      exact hlive (heq ▸ hheader)
    have hsize := h.header_size slabCache hone
    exact (h.objects_apart hc hone ha hheader' hne).mono ⟨le_rfl, le_rfl⟩ ⟨le_rfl, by rw [hsize]⟩
  | false =>
    rw [h.header_on d cache' hd hoff slab' hslab']
    obtain ⟨_, hc', slab, hslab, i, hi, rfl⟩ := h.owned c a ha
    obtain rfl := some.inj (hc.symm.trans hc')
    have hwell' := h.wellformed d cache' hd
    have hheader := hwell'.header hoff
    have hfits := hwell'.fits
    have hin := objAddr_inside (h.wellformed c cache hc) slab hi
    rcases h.slab_cases hc hd hslab hslab' with ⟨rfl, hpage⟩ | hapart
    · obtain rfl := some.inj (hc.symm.trans hd)
      right
      omega
    · exact hapart.mono ⟨by omega, hin.2⟩ ⟨le_rfl, by omega⟩

end

end Derived

end Whitix.SlabAlloc
