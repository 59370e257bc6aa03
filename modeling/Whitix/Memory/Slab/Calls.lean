import Whitix.Memory.Slab.Update

/-!
# The calls of the slab allocator

The specifications of `MemCacheAlloc`, `MemCacheFree` and `MemCacheCreate`.
An allocation is described by `Allocated`: afterwards the invariant holds with
the returned object among those in use.
-/

namespace Whitix.SlabAlloc

open Support List Option Prod

def SlabSystem.Inv (s : SlabSystem) : Prop :=
  SlabInv s.caches s.runs (s.live ++ s.internal) s.internal

/-! ## Taking an object -/

variable {slabs front : List Slab} {header n q : ℕ} {runs internal allocated : List (ℕ × ℕ)}
  {caches : List Cache}

variable {c p a : ℕ} {s : SlabSystem} {page : Option ℕ} {cache : Cache} {slab : Slab}

section

variable {i : ℕ} {s' : SlabSystem}

theorem slabFirstFree_spec (h : slabFirstFree cache slab = some i) :
    slab.isFull = false ∧ i < cache.numObjs ∧ slab.bitmap i = false ∧
      ∀ j < i, slab.bitmap j = true := by
  unfold slabFirstFree at h
  split at h
  · cases h
  · next hfull =>
    rw [find?_range_eq_some] at h
    obtain ⟨hi, hrange, hbefore⟩ := h
    exact ⟨by simpa using hfull, by simpa using hrange, by simpa using hi,
      by simpa using hbefore⟩

theorem slabFirstFree_isSome (hfull : slab.isFull = false) (hi : i < cache.numObjs)
    (hfree : slab.bitmap i = false) : (slabFirstFree cache slab).isSome = true := by
  rw [slabFirstFree, if_neg (by simp [hfull]), find?_isSome]
  exact ⟨i, mem_range.mpr hi, by simp [hfree]⟩

theorem memCacheScan_spec {slabs' : List Slab} (h : memCacheScan cache slabs = some (a, slabs')) :
    ∃ front slab back i, slabs = front ++ slab :: back ∧
      slabFirstFree cache slab = some i ∧ a = objAddr cache slab i ∧
      slabs' = front ++ slabTake cache slab i :: back := by
  induction slabs generalizing slabs' with
  | nil => cases h
  | cons slab rest ih =>
    rw [memCacheScan] at h
    split at h
    · next i hi =>
      cases h
      exact ⟨[], slab, rest, i, rfl, hi, rfl, rfl⟩
    · obtain ⟨⟨b, rest'⟩, hrest, heq⟩ := map_eq_some_iff.mp h
      cases heq
      obtain ⟨front, x, back, i, rfl, hi, ha, rfl⟩ := ih hrest
      exact ⟨slab :: front, x, back, i, rfl, hi, ha, rfl⟩

theorem memCacheScan_isSome
    (hslab : slab ∈ slabs) (hfree : (slabFirstFree cache slab).isSome = true) :
    (memCacheScan cache slabs).isSome = true := by
  induction slabs with
  | nil => cases hslab
  | cons x rest ih =>
    rw [memCacheScan]
    split
    · rfl
    · next hnone =>
      rcases mem_cons.mp hslab with rfl | hrest
      · rw [hnone] at hfree
        cases hfree
      · rw [isSome_map]
        exact ih hrest

theorem slabTake_full (h : slabFirstFree cache slab = some i)
    (hfull : (slabTake cache slab i).isFull = true) :
    ∀ j < cache.numObjs, (slabTake cache slab i).bitmap j = true := by
  obtain ⟨hnot, -, -, hbefore⟩ := slabFirstFree_spec h
  intro j hj
  have hlast : i = cache.numObjs - 1 := by
    by_contra hne
    simp [slabTake, hne, hnot] at hfull
  by_cases hji : j = i
  · simp [slabTake, hji]
  · simp only [slabTake, Function.update_of_ne hji]
    exact hbefore j (by omega)

/-- What `MemCacheAlloc` of cache `c` has done when it returns the object at
`a`. -/
structure Allocated (s s' : SlabSystem) (c a : ℕ) : Prop where
  inv : SlabInv s'.caches s'.runs ((c, a) :: (s'.live ++ s'.internal)) s'.internal
  live : s'.live = s.live
  internal : s.internal ⊆ s'.internal
  length : s'.caches.length = s.caches.length
  zero : ∀ cache, s.caches[c]? = some cache → cache.ctor = none →
    ∀ k < cache.size, s'.mem (a + k) = 0

theorem zeroMemory_zero (mem : ℕ → UInt8) (addr len : ℕ) {k : ℕ}
    (hk : k < len) : zeroMemory mem addr len (addr + k) = 0 := by
  rw [zeroMemory, overwrite_add (by simpa using hk)]
  simp

theorem memCacheTake_spec (h : s.Inv) (hc : s.caches[c]? = some cache)
    (htake : memCacheTake s c cache = some (a, s')) : Allocated s s' c a := by
  obtain ⟨⟨b, slabs'⟩, hscan, heq⟩ := map_eq_some_iff.mp htake
  cases heq
  obtain ⟨front, slab, back, i, hslabs, hfirst, rfl, rfl⟩ :=
    memCacheScan_spec hscan
  obtain ⟨-, hi, hfree, -⟩ := slabFirstFree_spec hfirst
  have hold : slab ∈ cache.slabs := by simp [hslabs]
  have hnew : (c, objAddr cache slab i) ∉ s.live ++ s.internal := by
    intro hmem
    rw [← h.bits c cache hc slab hold i hi, hfree] at hmem
    cases hmem
  refine {
    inv := ?_
    live := rfl
    internal := List.Subset.refl _
    length := length_set
    zero := ?_ }
  · apply h.setSlab hc (slabTake cache slab i) hslabs rfl rfl (slabTake_full hfirst)
    · intro j hj
      by_cases hji : j = i
      · simp [slabTake, hji]
      · have hne : objAddr cache slab j ≠ objAddr cache slab i := by
          intro heq
          exact hji (objAddr_injective (h.wellformed c cache hc) heq)
        simp only [slabTake, Function.update_of_ne hji, mem_cons, mk.injEq, true_and, hne, false_or]
        exact h.bits c cache hc slab hold j hj
    · intro x hx
      simp [hx i hi]
    · exact nodup_cons.mpr ⟨hnew, h.nodup⟩
    · intro x hx
      exact mem_cons_of_mem _ (h.internal_sub x hx)
  · intro cache' hc' hctor k hk
    obtain rfl := some.inj (hc.symm.trans hc')
    simp only [hctor, isNone_none, if_true]
    exact zeroMemory_zero _ _ _ hk

theorem memCacheTake_frame (hc : s.caches[c]? = some cache)
    (htake : memCacheTake s c cache = some (a, s')) :
    s'.runs = s.runs ∧ s'.internal = s.internal ∧ (∀ d, d ≠ c → s'.caches[d]? = s.caches[d]?) ∧
      ∀ p len, Unused s.caches p len → Unused s'.caches p len := by
  obtain ⟨⟨b, slabs'⟩, hscan, heq⟩ := map_eq_some_iff.mp htake
  cases heq
  refine ⟨rfl, rfl, fun d hd => getElem?_set_ne hd.symm, ?_⟩
  intro p len hunused d x hx q hq
  rcases getElem?_set_cases hx with ⟨rfl, rfl⟩ | ⟨-, hd⟩
  · obtain ⟨front, slab, back, i, hslabs, -, -, rfl⟩ := memCacheScan_spec hscan
    refine hunused d cache hc q ?_
    simpa [Cache.pages, hslabs, slabTake] using hq
  · exact hunused d x hd q hq

/-! ## Adding a slab -/

theorem memCacheTake_linked (hwell : cache.Wellformed) (page header : ℕ) :
    (memCacheTake s c { cache with
      slabs := cache.slabs ++ [⟨header, page, false, fun _ => false⟩] }).isSome =
        true := by
  rw [memCacheTake, isSome_map]
  refine memCacheScan_isSome (mem_append_right _ mem_cons_self) ?_
  exact slabFirstFree_isSome rfl hwell.numObjs_pos rfl

/-- What the allocation of a header for a slab of cache `c` at `page` has
done. -/
structure HeaderTaken (s : SlabSystem) (c : ℕ) (cache : Cache)
    (page header : ℕ) (s' : SlabSystem) : Prop where
  inv : s'.Inv
  cache_eq : s'.caches[c]? = some cache
  mapped : (page, cache.numPages) ∈ s'.runs
  unused : Unused s'.caches page cache.bytes
  live : s'.live = s.live
  internal : s.internal ⊆ s'.internal
  length : s'.caches.length = s.caches.length
  header_on : cache.offslab = false → header = page
  header_off : cache.offslab = true → (1, header) ∈ s'.internal

def SlabSystem.mapRun (s : SlabSystem) (page n : ℕ) : SlabSystem :=
  { s with runs := (page, n) :: s.runs }

theorem memCacheLinkSlab_inv {page : ℕ} (h : HeaderTaken s c cache page header s') :
    (memCacheLinkSlab s' c cache page header).Inv :=
  h.inv.link h.cache_eq h.mapped h.unused ⟨rfl, fun _ => rfl⟩ h.header_on h.header_off

end

section AllocWith

variable {getHeader : SlabSystem → ℕ → Option (ℕ × SlabSystem)} {s' : SlabSystem}

/-- The three ways in which `MemCacheAlloc` returns. -/
theorem memCacheAllocWith_cases (hc : s.caches[c]? = some cache) {r : Option ℕ × SlabSystem}
    (halloc : memCacheAllocWith getHeader s c page = some r) :
    (∃ a s', memCacheTake s c cache = some (a, s') ∧ r = (some a, s')) ∨ r = (none, s) ∨
      ∃ p header s₁ cache' a s', page = some p ∧
        getHeader (s.mapRun p (slabPages cache)) p = some (header, s₁) ∧
        (memCacheLinkSlab s₁ c cache p header).caches[c]? = some cache' ∧
        memCacheTake (memCacheLinkSlab s₁ c cache p header) c cache' = some (a, s') ∧
        r = (some a, s') := by
  rw [memCacheAllocWith, hc] at halloc
  dsimp only at halloc
  split at halloc
  · next r' htake =>
    exact .inl ⟨r'.1, r'.2, htake, (some.inj halloc).symm⟩
  · cases page with
    | none =>
      dsimp only at halloc
      split at halloc
      · exact .inr (.inl (some.inj halloc).symm)
      · cases halloc
    | some p =>
      obtain ⟨⟨header, s₁⟩, hheader, hrest⟩ :=
        bind_eq_some_iff.mp halloc
      split at hrest
      · cases hrest
      · next cache' hcache' =>
        obtain ⟨⟨a, s'⟩, htake, heq⟩ := map_eq_some_iff.mp hrest
        exact .inr (.inr ⟨p, header, s₁, cache', a, s', rfl, hheader, hcache', htake, heq.symm⟩)

theorem memCacheAllocWith_spec (h : s.Inv) (hc : s.caches[c]? = some cache)
    (hheader : ∀ p header s₁, page = some p →
      getHeader (s.mapRun p (slabPages cache)) p = some (header, s₁) →
        HeaderTaken s c cache p header s₁)
    (halloc : memCacheAllocWith getHeader s c page = some (some a, s')) :
    Allocated s s' c a := by
  rcases memCacheAllocWith_cases hc halloc with
    ⟨_, _, htake, ⟨⟩⟩ | heq | ⟨p, header, s₁, cache', _, _, hp, hget, hcache', htake, ⟨⟩⟩
  · exact memCacheTake_spec h hc htake
  · cases heq
  · have htaken := hheader p header s₁ hp hget
    have hlinked := memCacheLinkSlab_inv htaken
    have hspec := memCacheTake_spec hlinked hcache' htake
    refine {
      inv := hspec.inv
      live := hspec.live.trans htaken.live
      internal := List.Subset.trans htaken.internal hspec.internal
      length := hspec.length.trans (length_set.trans htaken.length)
      zero := ?_ }
    intro cache'' hc'' hctor k hk
    obtain rfl := some.inj (hc.symm.trans hc'')
    have heq : cache' = _ := some.inj (hcache'.symm.trans (getElem?_set_of_some htaken.cache_eq _))
    exact hspec.zero cache' hcache' (heq ▸ hctor) k (heq ▸ hk)

variable (getHeader) in
theorem memCacheAllocWith_isSome (h : s.Inv) (hc : s.caches[c]? = some cache) {s₁ : SlabSystem}
    (hheader : getHeader (s.mapRun p (slabPages cache)) p = some (header, s₁))
    (htaken : HeaderTaken s c cache p header s₁) :
    ∃ a s', memCacheAllocWith getHeader s c (some p) = some (some a, s') := by
  rw [memCacheAllocWith, hc]
  dsimp only
  cases htake : memCacheTake s c cache with
  | some r => exact ⟨r.1, r.2, rfl⟩
  | none =>
    have hlookup : (memCacheLinkSlab s₁ c cache p header).caches[c]? = _ :=
      getElem?_set_of_some htaken.cache_eq _
    obtain ⟨r, hr⟩ := isSome_iff_exists.mp (memCacheTake_linked (h.wellformed c cache hc) p header
        (s := memCacheLinkSlab s₁ c cache p header) (c := c))
    refine ⟨r.1, r.2, ?_⟩
    change (getHeader (s.mapRun p (slabPages cache)) p).bind _ = _
    rw [hheader]
    simp only [bind_some, hlookup, hr, map_some]

end AllocWith

/-! ## Headers -/

def slabStart : ℕ := 0xC0000000

def slabEnd : ℕ := 0xD0000000

/-- What `VirtMapPhysPage` and `VirtMapPhysRange` promise about the pages they
have mapped: they lie in the range asked for and meet no run mapped earlier. -/
def Fresh (runs : List (ℕ × ℕ)) (p n : ℕ) : Prop :=
  slabStart ≤ p ∧ p + n * pageSize ≤ slabEnd ∧
    ∀ r ∈ runs, Apart p (n * pageSize) r.1 (r.2 * pageSize)
  deriving Decidable

theorem Fresh.pos (h : Fresh runs p n) : 0 < p :=
  lt_of_lt_of_le (by decide) h.1

theorem Fresh.unused (h : Fresh s.runs p n) (hinv : s.Inv) : Unused s.caches p (n * pageSize) := by
  intro d cache hd q hq
  exact h.2.2 _ (hinv.mapped d cache hd q hq)

section Headers

variable {s' : SlabSystem}

section

variable (h : s.Inv) (hc : s.caches[c]? = some cache) (hon : cache.offslab = false)
include h hc hon

theorem headerOnSlab_taken (hfresh : Fresh s.runs p (slabPages cache))
    (hget : headerOnSlab (s.mapRun p (slabPages cache)) p = some (header, s')) :
    HeaderTaken s c cache p header s' := by
  cases hget
  have hpages := (h.wellformed c cache hc).pages
  have hunused := hfresh.unused h
  rw [hpages] at hunused
  refine {
    inv := h.map hfresh.pos
    cache_eq := hc
    mapped := ?_
    unused := hunused
    live := rfl
    internal := List.Subset.refl _
    length := rfl
    header_on := fun _ => rfl
    header_off := ?_ }
  · rw [← hpages]
    exact mem_cons_self
  · intro hoff
    rw [hon] at hoff
    cases hoff

theorem memCacheAllocWith_on (hfresh : ∀ p, page = some p → Fresh s.runs p (slabPages cache))
    (halloc : memCacheAllocWith headerOnSlab s c page = some (some a, s')) : Allocated s s' c a :=
  memCacheAllocWith_spec h hc (fun p _ _ hp hget => headerOnSlab_taken h hc hon (hfresh p hp) hget)
    halloc

end

theorem memCacheAllocWith_on_frame (hc : s.caches[c]? = some cache)
    (halloc : memCacheAllocWith headerOnSlab s c page = some (some a, s')) :
    s.runs ⊆ s'.runs ∧ s'.internal = s.internal ∧ (∀ d, d ≠ c → s'.caches[d]? = s.caches[d]?) ∧
      ∀ p len, Unused s.caches p len → (∀ q, page = some q → Apart p len q cache.bytes) →
        Unused s'.caches p len := by
  rcases memCacheAllocWith_cases hc halloc with
    ⟨_, _, htake, ⟨⟩⟩ | heq | ⟨q, header, s₁, cache', _, _, hq, hget, hcache', htake, ⟨⟩⟩
  · obtain ⟨hruns, hint, hother, hunused⟩ := memCacheTake_frame hc htake
    exact ⟨hruns ▸ List.Subset.refl _, hint, hother, fun p len hp _ => hunused p len hp⟩
  · cases heq
  · cases hget
    obtain ⟨hruns, hint, hother, hunused⟩ := memCacheTake_frame hcache' htake
    refine ⟨?_, hint, ?_, ?_⟩
    · rw [hruns]
      exact subset_cons_self _ _
    · intro d hd
      rw [hother d hd]
      exact getElem?_set_ne hd.symm
    · intro p len hp hapart
      apply hunused
      intro d x hx q' hq'
      rcases getElem?_set_cases hx with ⟨rfl, rfl⟩ | ⟨-, hd⟩
      · simp only [Cache.pages, map_append, map_cons, map_nil, mem_append, mem_singleton] at hq'
        rcases hq' with hq' | rfl
        · exact hp d cache hc q' hq'
        · exact hapart _ hq
      · exact hp d x hd q' hq'

theorem slabCache_numPages (h : s.Inv) {slabCache : Cache}
    (hone : s.caches[1]? = some slabCache) : slabCache.numPages = 1 := by
  have hsize := h.header_size slabCache hone
  rw [← (h.wellformed 1 slabCache hone).pages, slabPages, hsize]
  decide

section

variable (h : s.Inv) (hc : s.caches[c]? = some cache) (hoff : cache.offslab = true)
include h hc hoff

theorem exists_slabCache : c ≠ 1 ∧ ∃ slabCache, s.caches[1]? = some slabCache := by
  have hc2 : 2 ≤ c := by
    by_contra hlt
    rw [h.low c cache (not_le.mp hlt) hc] at hoff
    cases hoff
  obtain ⟨hlen, -⟩ := List.getElem?_eq_some_iff.mp hc
  exact ⟨by omega, _, getElem?_eq_getElem (by omega)⟩

theorem headerOffSlab_taken (hfresh : Fresh s.runs p (slabPages cache)) {headerPage : Option ℕ}
    (hfresh' : ∀ q, headerPage = some q → Fresh ((p, slabPages cache) :: s.runs) q 1)
    (hget : headerOffSlab headerPage (s.mapRun p (slabPages cache)) p = some (header, s')) :
    HeaderTaken s c cache p header s' := by
  obtain ⟨hc1, slabCache, hone⟩ := exists_slabCache h hc hoff
  have hpages := (h.wellformed c cache hc).pages
  have hpages' := (h.wellformed 1 slabCache hone).pages
  have hnum := slabCache_numPages h hone
  have hmap : (s.mapRun p (slabPages cache)).Inv := h.map hfresh.pos
  have hone' : (s.mapRun p (slabPages cache)).caches[1]? = some slabCache :=
    hone
  unfold headerOffSlab at hget
  split at hget
  · next header' s₁ halloc =>
    cases hget
    have hspec := memCacheAllocWith_on hmap hone' (h.low 1 slabCache (by decide) hone)
      (by rw [hpages', hnum]; exact hfresh') halloc
    obtain ⟨hruns, hint, hother, hunused⟩ :=
      memCacheAllocWith_on_frame hone' halloc
    refine { hspec with
      inv := (hspec.inv.internalise mem_cons_self).perm perm_middle.symm
      cache_eq := (hother c hc1).trans hc
      mapped := hruns (hpages ▸ mem_cons_self)
      unused := ?_
      internal := subset_cons_of_subset _ hspec.internal
      header_on := ?_
      header_off := fun _ => mem_cons_self }
    · apply hunused
      · have hfree := hfresh.unused h
        rw [hpages] at hfree
        exact hfree
      · intro q hq
        have hapart := (hfresh' q hq).2.2 _ mem_cons_self
        rw [Cache.bytes, Cache.bytes, hnum, ← hpages]
        exact hapart.symm
    · intro hon
      rw [hoff] at hon
      cases hon
  · cases hget

theorem headerOffSlab_isSome (hfresh : Fresh s.runs p (slabPages cache))
    (hfresh' : Fresh ((p, slabPages cache) :: s.runs) q 1) :
    ∃ header s', headerOffSlab (some q) (s.mapRun p (slabPages cache)) p = some (header, s') := by
  obtain ⟨-, slabCache, hone⟩ := exists_slabCache h hc hoff
  have hmap : (s.mapRun p (slabPages cache)).Inv := h.map hfresh.pos
  have hpages : slabPages slabCache = 1 := by
    rw [(h.wellformed 1 slabCache hone).pages, slabCache_numPages h hone]
  have htaken := headerOnSlab_taken hmap hone
    (h.low 1 slabCache (by decide) hone) (by rw [hpages]; exact hfresh') rfl
  obtain ⟨a, s₁, halloc⟩ :=
    memCacheAllocWith_isSome headerOnSlab hmap hone rfl htaken
  exact ⟨a, _, by rw [headerOffSlab, halloc]⟩

end

end Headers

/-! ## `MemCacheAlloc` -/

/-- The runs of pages that the mapping calls of `MemCacheAlloc` return are
fresh. -/
def PagesFresh (s : SlabSystem) (c : ℕ) (page headerPage : Option ℕ) : Prop :=
  ∀ cache ∈ s.caches[c]?, ∀ p ∈ page, Fresh s.runs p (slabPages cache) ∧
    ∀ q ∈ headerPage, Fresh ((p, slabPages cache) :: s.runs) q 1
  deriving Decidable

section Alloc

variable {s' : SlabSystem} {headerPage : Option ℕ}

theorem memCacheAlloc_spec (h : s.Inv) (hfresh : PagesFresh s c page headerPage)
    (halloc : memCacheAlloc s c page headerPage = some (some a, s')) : Allocated s s' c a := by
  cases hc : s.caches[c]? with
  | none => simp [memCacheAlloc, memCacheAllocWith, hc] at halloc
  | some cache =>
    have hpages := hfresh cache hc
    simp only [memCacheAlloc, hc, map_some, getD_some] at halloc
    split at halloc
    · next hoff =>
      refine memCacheAllocWith_spec h hc ?_ halloc
      intro p header s₁ hp hget
      exact headerOffSlab_taken h hc hoff (hpages p hp).1 (hpages p hp).2 hget
    · next hon =>
      exact memCacheAllocWith_on h hc (by simpa using hon) (fun p hp => (hpages p hp).1) halloc

theorem memCacheAlloc_null (halloc : memCacheAlloc s c page headerPage = some (none, s')) :
    s' = s := by
  have hwith : ∀ getHeader, memCacheAllocWith getHeader s c page = some (none, s') → s' = s := by
    intro getHeader hnull
    cases hc : s.caches[c]? with
    | none =>
      rw [memCacheAllocWith, hc] at hnull
      exact (congrArg snd (some.inj hnull)).symm
    | some cache =>
      rcases memCacheAllocWith_cases hc hnull with
        ⟨_, _, _, heq⟩ | heq | ⟨_, _, _, _, _, _, _, _, _, _, heq⟩
      · cases heq
      · exact congrArg snd heq
      · cases heq
  unfold memCacheAlloc at halloc
  split at halloc
  · exact hwith _ halloc
  · exact hwith _ halloc

theorem memCacheAlloc_returns (h : s.Inv)
    (hc : c < s.caches.length) (hfresh : PagesFresh s c (some p) (some q)) :
    ∃ a s', memCacheAlloc s c (some p) (some q) = some (some a, s') := by
  have hcache := getElem?_eq_getElem hc
  obtain ⟨hp, hq⟩ := hfresh _ hcache p rfl
  rw [memCacheAlloc, hcache]
  split
  · next hoff =>
    obtain ⟨header, s₁, hget⟩ := headerOffSlab_isSome h hcache hoff hp (hq q rfl)
    exact memCacheAllocWith_isSome _ h hcache hget (headerOffSlab_taken h hcache hoff hp hq hget)
  · next hon =>
    exact memCacheAllocWith_isSome _ h hcache rfl
      (headerOnSlab_taken h hcache (by simpa using hon) hp rfl)

end Alloc

/-! ## `MemCacheCreate` -/

theorem memCacheCreate_spec {s' : SlabSystem} {size : ℕ}
    {ctor : Option (ℕ → List UInt8)} {offslab : Bool}
    (h : s.Inv) (hfresh : PagesFresh s 0 page none)
    (hobjs : 0 < (cacheDescriptor (max size slabMinObjectSize) ctor offslab).numObjs)
    (hlow : s.caches.length < 2 →
      (cacheDescriptor (max size slabMinObjectSize) ctor offslab).offslab = false ∧
      (cacheDescriptor (max size slabMinObjectSize) ctor offslab).size = sizeofSlab)
    (hsize : size ≠ 0)
    (hcreate : memCacheCreate s size ctor offslab page = some s') :
    s'.Inv ∧ s'.live = s.live ∧ s'.caches.length = s.caches.length + 1 := by
  rw [memCacheCreate, if_neg hsize] at hcreate
  split at hcreate
  · next descriptor s₁ halloc =>
    cases hcreate
    have hspec := memCacheAlloc_spec h hfresh halloc
    have hinv := (hspec.inv.internalise mem_cons_self).perm perm_middle.symm
    refine ⟨hinv.add (cacheDescriptor_wellformed hobjs) rfl ?_, hspec.live, ?_⟩
    · rw [hspec.length]
      exact hlow
    · rw [← hspec.length]
      exact length_append
  · cases hcreate

/-! ## `MemCacheFree` -/

def IsObject (caches : List Cache) (d b : ℕ) : Prop :=
  ∃ cache, caches[d]? = some cache ∧ ∃ p ∈ cache.pages,
    ∃ i < cache.numObjs, b = p + cache.offset + i * cache.size

/-- Address `b` is that of an object of cache `d` that is not in use. -/
def Available (s : SlabSystem) (d b : ℕ) : Prop :=
  ∃ cache, s.caches[d]? = some cache ∧ ∃ slab ∈ cache.slabs,
    ∃ i < cache.numObjs, slab.bitmap i = false ∧ b = objAddr cache slab i

theorem available_iff (h : SlabInv s.caches runs allocated internal) (d b : ℕ) :
    Available s d b ↔ IsObject s.caches d b ∧ (d, b) ∉ allocated := by
  constructor
  · rintro ⟨cache, hd, slab, hslab, i, hi, hfree, rfl⟩
    refine ⟨⟨cache, hd, slab.page, mem_map_of_mem hslab, i, hi, rfl⟩, ?_⟩
    rw [← h.bits d cache hd slab hslab i hi, hfree]
    exact Bool.false_ne_true
  · rintro ⟨⟨cache, hd, p, hp, i, hi, rfl⟩, hfree⟩
    obtain ⟨slab, hslab, rfl⟩ := mem_map.mp hp
    refine ⟨cache, hd, slab, hslab, i, hi, ?_, rfl⟩
    rw [← Bool.not_eq_true]
    exact mt (h.bits d cache hd slab hslab i hi).mp hfree

theorem isObject_set (hc : caches[c]? = some cache)
    (hpages : slabs.map Slab.page = cache.pages) (d b : ℕ) :
    IsObject (caches.set c { cache with slabs := slabs }) d b ↔ IsObject caches d b := by
  by_cases hdc : d = c
  · subst hdc
    simp only [IsObject, getElem?_set_of_some hc, hc, some.injEq, exists_eq_left']
    rw [← hpages]
    rfl
  · simp only [IsObject, getElem?_set_ne (Ne.symm hdc)]

theorem memCacheFreeWalk_split {addr : ℕ}
    (hslab : slab.page + cache.offset ≤ addr ∧ addr < slab.page + cache.bytes) (back : List Slab)
    (hfront : ∀ x ∈ front, Apart x.page cache.bytes slab.page cache.bytes) :
    memCacheFreeWalk cache addr (front ++ slab :: back) =
      some (front ++ slabFree cache slab addr :: back) := by
  induction front with
  | nil =>
    exact if_pos hslab
  | cons x front ih =>
    have hx : ¬(x.page + cache.offset ≤ addr ∧ addr < x.page + cache.numPages * pageSize) := by
      have hapart := hfront x mem_cons_self
      unfold Apart Cache.bytes at hapart
      unfold Cache.bytes at hslab
      omega
    rw [cons_append, memCacheFreeWalk, if_neg hx, ih (forall_mem_cons.mp hfront).2]
    rfl

theorem SlabInv.free (h : SlabInv caches runs allocated internal) (hc : caches[c]? = some cache)
    {back : List Slab} (hslabs : cache.slabs = front ++ slab :: back) {i : ℕ}
    (hi : i < cache.numObjs) (hfree : (c, objAddr cache slab i) ∉ internal) :
    SlabInv
      (caches.set c { cache with
        slabs := front ++ slabFree cache slab (objAddr cache slab i) :: back })
      runs (allocated.erase (c, objAddr cache slab i)) internal := by
  have hslab : slab ∈ cache.slabs := by simp [hslabs]
  have hwell := h.wellformed c cache hc
  have hindex : (objAddr cache slab i - (slab.page + cache.offset)) / cache.size = i := by
    rw [objAddr, Nat.add_sub_cancel_left, Nat.mul_div_cancel _ hwell.size_pos]
  have hmem : ∀ x, x ∈ allocated.erase (c, objAddr cache slab i) ↔
      x ≠ (c, objAddr cache slab i) ∧ x ∈ allocated :=
    fun x => h.nodup.mem_erase_iff
  apply h.setSlab hc (slabFree cache slab (objAddr cache slab i)) hslabs rfl rfl
  · intro hfull
    cases hfull
  · intro j hj
    rw [hmem]
    by_cases hji : j = i
    · simp [slabFree, hindex, hji]
    · have hne : objAddr cache slab j ≠ objAddr cache slab i := by
        intro heq
        exact hji (objAddr_injective hwell heq)
      simp only [slabFree, hindex, Function.update_of_ne hji, ne_eq,
        mk.injEq, true_and, hne, not_false_eq_true]
      exact h.bits c cache hc slab hslab j hj
  · intro x hx
    rw [hmem]
    exact and_iff_right (hx i hi)
  · exact h.nodup.erase _
  · intro x hx
    rw [hmem]
    refine ⟨?_, h.internal_sub x hx⟩
    rintro rfl
    exact hfree hx

theorem memCacheFree_spec (h : s.Inv) (ha : (c, a) ∈ s.live) :
    ∃ s', memCacheFree s c a = (0, s') ∧
      SlabInv s'.caches s'.runs (s.live.erase (c, a) ++ s'.internal) s'.internal ∧
      s'.live = s.live ∧ s'.caches.length = s.caches.length ∧
      ∀ d b, Available s' d b ↔ Available s d b ∨ (d, b) = (c, a) := by
  have hused : (c, a) ∈ s.live ++ s.internal := mem_append_left _ ha
  obtain ⟨cache, hc, slab, hslab, i, hi, rfl⟩ := h.owned c a hused
  obtain ⟨front, back, hslabs⟩ := append_of_mem hslab
  have hwell := h.wellformed c cache hc
  have hin := objAddr_inside hwell slab hi
  have hpos := hwell.size_pos
  have hmapped := h.runs_pos _ (h.mapped c cache hc slab.page (mem_map_of_mem hslab))
  have hsame := pairwise_map.mp (h.apart_same c cache hc)
  rw [hslabs, pairwise_append] at hsame
  have hwalk : memCacheFreeWalk cache (objAddr cache slab i) cache.slabs =
      some (front ++ slabFree cache slab (objAddr cache slab i) :: back) := by
    rw [hslabs]
    exact memCacheFreeWalk_split ⟨hin.1, by omega⟩ back
      fun x hx => hsame.2.2 x hx slab mem_cons_self
  have hnull : objAddr cache slab i ≠ 0 := by omega
  have hlive : (c, objAddr cache slab i) ∉ s.internal := by
    intro hint
    exact (nodup_append.mp h.nodup).2.2 _ ha _ hint rfl
  have hinv := h.free hc hslabs hi hlive
  refine ⟨{ s with
    caches := s.caches.set c { cache with
      slabs := front ++ slabFree cache slab (objAddr cache slab i) :: back }
    mem := resetMemory cache s.mem (objAddr cache slab i) },
    ?_, ?_, ?_, ?_, ?_⟩
  · simp only [memCacheFree, hc, if_neg hnull, hwalk]
  · rw [← erase_append_left _ ha]
    exact hinv
  · rfl
  · exact length_set
  · intro d b
    have hpages : (front ++ slabFree cache slab (objAddr cache slab i) ::
        back).map Slab.page = cache.pages := by simp [Cache.pages, hslabs, slabFree]
    rw [available_iff hinv, available_iff h, isObject_set hc hpages, h.nodup.mem_erase_iff]
    have hobj : IsObject s.caches c (objAddr cache slab i) :=
      ⟨cache, hc, slab.page, mem_map_of_mem hslab, i, hi, rfl⟩
    by_cases heq : (d, b) = (c, objAddr cache slab i)
    · cases heq
      simp [hobj]
    · simp only [ne_eq, heq, not_false_eq_true, true_and, or_false]

end Whitix.SlabAlloc
