import Whitix.Memory.Slab.Run

/-!
# The kernel heap

`MemAlloc` takes blocks from fourteen caches, one for each size in `cacheSizes`.
`MemFree` is not told the size: it tries to free the block in one cache after the
other, until one of them has a slab with the address in it.
-/

namespace Whitix.SlabAlloc

open Support List Option

/-! ## The code -/

def cacheSizes : List ℕ :=
  [16, 32, 64, 128, 256, 512, 1024, 2048, 4096, 8192, 16384, 32768, 65536, 131072]

/-- The number of the cache for the element of `cacheSizes` at `i`; `cacheCache` and
`slabCache` come before. -/
def mallocCache (i : ℕ) : ℕ := i + 2

/-- `SlabInit`.  The descriptors of all caches fit into the first slab of
`cacheCache`, which is mapped at `page`. -/
def heapInit (mem : ℕ → UInt8) (page : Option ℕ) : Option SlabSystem :=
  (slabInit mem page).bind fun s =>
    cacheSizes.foldlM (fun s size => memCacheCreate s size none false none) s

def sizeIndex (size : ℕ) : ℕ := cacheSizes.findIdx fun n => size ≤ n

/-- `MemAlloc`, with the pages that mapping calls return. -/
def memAlloc (s : SlabSystem) (size : ℕ) (page headerPage : Option ℕ) :
    Option (Option ℕ × SlabSystem) :=
  if sizeIndex size = cacheSizes.length then some (none, s)
  else memCacheAlloc s (mallocCache (sizeIndex size)) page headerPage

/-- The loop of `MemFree` over the caches; behind the last one the machine halts. -/
def memFreeLoop (s : SlabSystem) (p : ℕ) : List ℕ → Option SlabSystem
  | [] => none
  | i :: rest =>
    if (memCacheFree s (mallocCache i) p).1 = 0 then
      some (memCacheFree s (mallocCache i) p).2
    else memFreeLoop (memCacheFree s (mallocCache i) p).2 p rest

def memFree (s : SlabSystem) (p : ℕ) : Option SlabSystem :=
  if p = 0 then some s else memFreeLoop s p (range cacheSizes.length)

/-! ## Descriptors -/

/-- A cache without its slabs, which are all that changes of it. -/
def Cache.blank (cache : Cache) : Cache := { cache with slabs := [] }

def SlabSystem.descriptors (s : SlabSystem) : List Cache := s.caches.map Cache.blank

variable {c : ℕ} {s s' : SlabSystem} {obj headerPage page : Option ℕ} {size a i : ℕ}

section

variable {cache : Cache}

theorem map_blank_set {caches : List Cache}
    (hc : (caches.map Cache.blank)[c]? = some cache.blank) (slabs : List Slab) :
    (caches.set c { cache with slabs := slabs }).map Cache.blank = caches.map Cache.blank := by
  rw [map_set]
  apply ext_getElem?
  intro d
  by_cases hdc : d = c
  · subst hdc
    rw [getElem?_set_self', hc]
    rfl
  · rw [getElem?_set_ne (Ne.symm hdc)]

theorem SlabSystem.descriptors_of_some
    (hc : s.caches[c]? = some cache) : s.descriptors[c]? = some cache.blank := by
  rw [SlabSystem.descriptors, getElem?_map, hc]
  rfl

theorem memCacheTake_descriptors (hc : s.caches[c]? = some cache)
    (htake : memCacheTake s c cache = some (a, s')) : s'.descriptors = s.descriptors := by
  obtain ⟨⟨b, slabs'⟩, -, heq⟩ := map_eq_some_iff.mp htake
  cases heq
  exact map_blank_set (SlabSystem.descriptors_of_some hc) slabs'

theorem memCacheAllocWith_descriptors {getHeader : SlabSystem → ℕ → Option (ℕ × SlabSystem)}
    (hheader : ∀ s p header s', getHeader s p = some (header, s') → s'.descriptors = s.descriptors)
    (halloc : memCacheAllocWith getHeader s c page = some (obj, s')) :
    s'.descriptors = s.descriptors := by
  cases hc : s.caches[c]? with
  | none =>
    rw [memCacheAllocWith, hc] at halloc
    cases halloc
    rfl
  | some cache =>
    rcases memCacheAllocWith_cases hc halloc with
      ⟨_, _, htake, ⟨⟩⟩ | heq | ⟨p, header, s₁, cache', _, _, -, hget, hcache', htake, ⟨⟩⟩
    · exact memCacheTake_descriptors hc htake
    · cases heq
      rfl
    · have hs₁ : s₁.descriptors = s.descriptors :=
        hheader (s.mapRun p (slabPages cache)) p header s₁ hget
      rw [memCacheTake_descriptors hcache' htake, ← hs₁]
      refine map_blank_set ?_ _
      change s₁.descriptors[c]? = _
      rw [hs₁]
      exact SlabSystem.descriptors_of_some hc

theorem headerOnSlab_descriptors (p header : ℕ)
    (hget : headerOnSlab s p = some (header, s')) : s'.descriptors = s.descriptors := by
  cases hget
  rfl

theorem headerOffSlab_descriptors (p header : ℕ)
    (hget : headerOffSlab headerPage s p = some (header, s')) : s'.descriptors = s.descriptors := by
  unfold headerOffSlab at hget
  split at hget
  · next halloc =>
    have hsame := memCacheAllocWith_descriptors
      (fun _ p header _ hget => headerOnSlab_descriptors p header hget) halloc
    cases hget
    exact hsame
  · cases hget

theorem memCacheAlloc_descriptors (halloc : memCacheAlloc s c page headerPage = some (obj, s')) :
    s'.descriptors = s.descriptors := by
  unfold memCacheAlloc at halloc
  split at halloc
  · exact memCacheAllocWith_descriptors
      (fun _ p header _ hget => headerOffSlab_descriptors p header hget) halloc
  · exact memCacheAllocWith_descriptors
      (fun _ p header _ hget => headerOnSlab_descriptors p header hget) halloc

theorem memCacheFree_descriptors (a : ℕ) : (memCacheFree s c a).2.descriptors = s.descriptors := by
  unfold memCacheFree
  split
  · rfl
  · next cache hc =>
    split
    · rfl
    · split
      · rfl
      · exact map_blank_set (SlabSystem.descriptors_of_some hc) _

theorem memCacheCreate_descriptors (hsize : size ≠ 0)
    (hcreate : memCacheCreate s size none false page = some s') :
    s'.descriptors =
      s.descriptors ++ [cacheDescriptor (max size slabMinObjectSize) none false] := by
  rw [memCacheCreate, if_neg hsize] at hcreate
  split at hcreate
  · next descriptor s₁ halloc =>
    cases hcreate
    rw [← memCacheAlloc_descriptors halloc]
    exact map_append
  · cases hcreate

end

/-! ## The invariant of the heap -/

/-- The caches after `SlabInit`, without their slabs. -/
def heapDescriptors : List Cache :=
  cacheCache :: cacheDescriptor (max sizeofSlab slabMinObjectSize) none false ::
    cacheSizes.map fun size => cacheDescriptor (max size slabMinObjectSize) none false

/-- All blocks in use are from the caches of `MemAlloc`. -/
structure HeapInv (s : SlabSystem) : Prop where
  inv : s.Inv
  descriptors : s.descriptors = heapDescriptors
  live : ∀ x ∈ s.live, ∃ i < cacheSizes.length, x.1 = mallocCache i

theorem createAll_spec {sizes : List ℕ} (h : s.Inv) (hlen : 2 ≤ s.caches.length)
    (hsizes : ∀ size ∈ sizes, size ≠ 0 ∧
      0 < (cacheDescriptor (max size slabMinObjectSize) none false).numObjs)
    (hcreate : sizes.foldlM (fun s size => memCacheCreate s size none false none) s = some s') :
    s'.Inv ∧ s'.live = s.live ∧ s'.descriptors = s.descriptors ++
      sizes.map fun size => cacheDescriptor (max size slabMinObjectSize) none false := by
  induction sizes generalizing s with
  | nil =>
    cases hcreate
    exact ⟨h, rfl, (append_nil _).symm⟩
  | cons size sizes ih =>
    obtain ⟨s₁, hs₁, hrest⟩ := bind_eq_some_iff.mp hcreate
    obtain ⟨hsize, hobjs⟩ := hsizes size mem_cons_self
    have hpages : PagesFresh s 0 none none := nofun
    obtain ⟨hinv, hlive, hlen'⟩ := memCacheCreate_spec h hpages hobjs
      (fun hlow => absurd hlow hlen.not_gt) hsize hs₁
    obtain ⟨hinv', hlive', hdesc⟩ := ih hinv (by omega) (forall_mem_cons.mp hsizes).2 hrest
    refine ⟨hinv', hlive'.trans hlive, ?_⟩
    rw [hdesc, memCacheCreate_descriptors hsize hs₁, append_assoc]
    rfl

theorem heapInit_spec {mem : ℕ → UInt8} (hfresh : PagesFresh (SlabSystem.boot mem) 0 page none)
    (hinit : heapInit mem page = some s) : HeapInv s ∧ s.live = [] := by
  obtain ⟨s₀, hs₀, hcreate⟩ := bind_eq_some_iff.mp hinit
  obtain ⟨hinv₀, hlive₀, hlen₀⟩ := memCacheCreate_spec (boot_inv mem) hfresh
    (by decide) (fun _ => ⟨rfl, rfl⟩) (by decide) hs₀
  obtain ⟨hinv, hlive, hdesc⟩ := createAll_spec hinv₀ (hlen₀ ▸ le_rfl) (by decide) hcreate
  have hnone : s.live = [] := hlive.trans hlive₀
  refine ⟨⟨hinv, ?_, fun x hx => ?_⟩, hnone⟩
  · rw [hdesc, memCacheCreate_descriptors (by decide) hs₀]
    rfl
  · rw [hnone] at hx
    cases hx

theorem HeapInv.cache (h : HeapInv s) (hi : i < cacheSizes.length) :
    ∃ cache, s.caches[mallocCache i]? = some cache ∧ cache.size = cacheSizes[i] ∧
      cache.ctor = none := by
  have hsizes : ∀ n ∈ cacheSizes,
      (cacheDescriptor (max n slabMinObjectSize) none false).size = n := by decide
  have hlookup : s.descriptors[mallocCache i]? =
      some (cacheDescriptor (max cacheSizes[i] slabMinObjectSize) none false) := by
    rw [h.descriptors]
    change (cacheSizes.map _)[i]? = _
    rw [getElem?_map, getElem?_eq_getElem hi]
    rfl
  rw [SlabSystem.descriptors, getElem?_map] at hlookup
  obtain ⟨cache, hcache, hblank⟩ := map_eq_some_iff.mp hlookup
  refine ⟨cache, hcache, ?_, congrArg Cache.ctor hblank⟩
  exact (congrArg Cache.size hblank).trans (hsizes _ (getElem_mem hi))

def blockSize (c : ℕ) : ℕ := cacheSizes.getD (c - 2) 0

theorem HeapInv.blockSize_eq (h : HeapInv s) {cache : Cache} (hlive : (c, a) ∈ s.live)
    (hc : s.caches[c]? = some cache) : cache.size = blockSize c ∧ cache.ctor = none := by
  obtain ⟨i, hi, hci⟩ := h.live _ hlive
  obtain ⟨cache', hc', hsize, hctor⟩ := h.cache hi
  subst hci
  obtain rfl := some.inj (hc.symm.trans hc')
  refine ⟨?_, hctor⟩
  rw [hsize, blockSize, mallocCache, Nat.add_sub_cancel, getD_eq_getElem _ _ hi]

/-! ## Allocation -/

theorem sizeIndex_lt (hle : size ≤ 131072) : sizeIndex size < cacheSizes.length := by
  rw [sizeIndex, findIdx_lt_length]
  exact ⟨131072, by decide, by simpa using hle⟩

theorem le_cacheSizes (hlt : sizeIndex size < cacheSizes.length) :
    size ≤ cacheSizes[sizeIndex size] := by
  have hfound := @findIdx_getElem _ (fun n => decide (size ≤ n)) cacheSizes hlt
  exact of_decide_eq_true hfound

structure BlockAllocated (s s' : SlabSystem) (size c a : ℕ) : Prop where
  enough : size ≤ blockSize c
  zero : ∀ k < blockSize c, s'.mem (a + k) = 0
  apart : ∀ d b, (d, b) ∈ s.live → Apart a (blockSize c) b (blockSize d)

theorem HeapInv.memAlloc_returns (h : HeapInv s) {p q : ℕ} (hle : size ≤ 131072)
    (hfresh : PagesFresh s (mallocCache (sizeIndex size)) (some p) (some q)) :
    ∃ a s', memAlloc s size (some p) (some q) = some (some a, s') := by
  have hlt := sizeIndex_lt hle
  obtain ⟨cache, hcache, -⟩ := h.cache hlt
  obtain ⟨hlen, -⟩ := List.getElem?_eq_some_iff.mp hcache
  unfold memAlloc
  rw [if_neg hlt.ne]
  exact memCacheAlloc_returns h.inv hlen hfresh

theorem HeapInv.memAlloc_spec (h : HeapInv s) (hle : size ≤ 131072)
    (hfresh : PagesFresh s (mallocCache (sizeIndex size)) page headerPage)
    (halloc : memAlloc s size page headerPage = some (some a, s')) :
    HeapInv (SlabSystem.record (mallocCache (sizeIndex size)) (some a, s')) ∧
      BlockAllocated s s' size (mallocCache (sizeIndex size)) a := by
  have hlt := sizeIndex_lt hle
  rw [memAlloc, if_neg hlt.ne] at halloc
  have hspec := memCacheAlloc_spec h.inv hfresh halloc
  have hinv : HeapInv (SlabSystem.record (mallocCache (sizeIndex size)) (some a, s')) := by
    refine ⟨hspec.inv, (memCacheAlloc_descriptors halloc).trans h.descriptors, ?_⟩
    exact forall_mem_cons.mpr ⟨⟨sizeIndex size, hlt, rfl⟩, hspec.live ▸ h.live⟩
  refine ⟨hinv, ?_⟩
  obtain ⟨cache', hcache', -⟩ := hinv.cache hlt
  have hnew : (mallocCache (sizeIndex size), a) ∈
      (SlabSystem.record (mallocCache (sizeIndex size)) (some a, s')).live :=
    mem_cons_self
  obtain ⟨cache₀, hcache₀, hsize₀, hctor₀⟩ := h.cache hlt
  have hsize : cacheSizes[sizeIndex size] = blockSize (mallocCache (sizeIndex size)) := by
    rw [blockSize, mallocCache, Nat.add_sub_cancel, getD_eq_getElem _ _ hlt]
  constructor
  · exact hsize ▸ le_cacheSizes hlt
  · intro k hk
    exact hspec.zero cache₀ hcache₀ hctor₀ k (by rw [hsize₀, hsize]; exact hk)
  · intro d b hb
    have hb' : (d, b) ∈ (SlabSystem.record (mallocCache (sizeIndex size)) (some a, s')).live :=
      mem_cons_of_mem _ (hspec.live.symm ▸ hb)
    have hne : (mallocCache (sizeIndex size), a) ≠ (d, b) := by
      intro heq
      have hmem : (mallocCache (sizeIndex size), a) ∈ s'.live ++ s'.internal :=
        mem_append_left _ (hspec.live.symm ▸ heq ▸ hb)
      exact (nodup_cons.mp hspec.inv.nodup).1 hmem
    obtain ⟨j, hj, hdj⟩ := h.live _ hb
    obtain ⟨cache₁, hcache₁, -⟩ := hinv.cache hj
    rw [← (show d = mallocCache j from hdj)] at hcache₁
    rw [← (hinv.blockSize_eq hnew hcache').1, ← (hinv.blockSize_eq hb' hcache₁).1]
    exact hinv.inv.safe.apart _ d a b cache' cache₁ hcache' hcache₁ hnew hb' hne

/-! ## Freeing -/

theorem memCacheFree_other (h : s.Inv) {d : ℕ}
    (ha : (c, a) ∈ s.live) (hne : d ≠ c) : memCacheFree s d a = (-EFAULT, s) := by
  unfold memCacheFree
  split
  · rfl
  · next cache' hd =>
    split
    · rfl
    · have hused : (c, a) ∈ s.live ++ s.internal := mem_append_left _ ha
      obtain ⟨cache, hc, slab, hslab, i, hi, rfl⟩ := h.owned c a hused
      have hin := objAddr_inside (h.wellformed c cache hc) slab hi
      have hpos := (h.wellformed c cache hc).size_pos
      have hwalk : ∀ slabs : List Slab, (∀ x ∈ slabs, x ∈ cache'.slabs) →
          memCacheFreeWalk cache' (objAddr cache slab i) slabs = none := by
        intro slabs
        induction slabs with
        | nil => exact fun _ => rfl
        | cons x rest ih =>
          intro hsub
          -- the pages of the two slabs are apart
          rcases h.slab_cases hd hc (hsub x mem_cons_self) hslab with
            ⟨hdc, -⟩ | hapart
          · exact absurd hdc hne
          · have hout : ¬ (x.page + cache'.offset ≤ objAddr cache slab i ∧
                objAddr cache slab i < x.page + cache'.numPages * pageSize) := by
              unfold Apart at hapart
              unfold Cache.bytes at hapart hin
              omega
            rw [memCacheFreeWalk, if_neg hout, ih (forall_mem_cons.mp hsub).2]
            rfl
      rw [hwalk cache'.slabs fun x hx => hx]

theorem memFreeLoop_found (h : s.Inv) (ha : (mallocCache i, a) ∈ s.live) {front : List ℕ}
    (back : List ℕ) (hfront : i ∉ front) :
    memFreeLoop s a (front ++ i :: back) = some (memCacheFree s (mallocCache i) a).2 := by
  induction front with
  | nil =>
    obtain ⟨s', hfree, -⟩ := memCacheFree_spec h ha
    rw [nil_append, memFreeLoop, hfree, if_pos rfl]
  | cons j front ih =>
    have hj : mallocCache j ≠ mallocCache i := by
      intro heq
      exact hfront (add_right_cancel heq ▸ mem_cons_self)
    rw [cons_append, memFreeLoop, memCacheFree_other h ha hj,
      if_neg (show ¬ (-EFAULT : ℤ) = 0 by decide)]
    exact ih fun hmem => hfront (mem_cons_of_mem j hmem)

theorem HeapInv.memFree_eq (h : HeapInv s)
    (ha : (c, a) ∈ s.live) : memFree s a = some (memCacheFree s c a).2 := by
  obtain ⟨i, hi, hci⟩ := h.live _ ha
  subst hci
  have hnull : a ≠ 0 := by
    rintro rfl
    obtain ⟨s', hfree, -⟩ := memCacheFree_spec h.inv ha
    unfold memCacheFree at hfree
    split at hfree
    · cases hfree
    · cases hfree
  obtain ⟨front, back, hsplit⟩ := append_of_mem (mem_range.mpr hi)
  have hfront : i ∉ front := by
    have hnodup := @nodup_range cacheSizes.length
    rw [hsplit] at hnodup
    exact fun hmem => (nodup_append.mp hnodup).2.2 i hmem i mem_cons_self rfl
  rw [memFree, if_neg hnull, hsplit]
  exact memFreeLoop_found h.inv ha back hfront

theorem memCacheFree_mem {addr : ℕ} {cache : Cache} (hc : s.caches[c]? = some cache)
    (hctor : cache.ctor = none) (hout : addr < a ∨ a + cache.size ≤ addr) :
    (memCacheFree s c a).2.mem addr = s.mem addr := by
  simp only [memCacheFree, hc]
  split
  · rfl
  · split
    · rfl
    · simp only [resetMemory, hctor, zeroMemory]
      rcases hout with hlt | hle
      · exact overwrite_of_lt hlt
      · exact overwrite_of_le (by rwa [length_replicate])

structure BlockFreed (s s' : SlabSystem) (c a : ℕ) : Prop where
  owner : memCacheFree s c a = (0, s')
  available : ∀ d b, Available s' d b ↔ Available s d b ∨ (d, b) = (c, a)
  kept : ∀ d b, (d, b) ∈ s.live → (d, b) ≠ (c, a) →
    ∀ k < blockSize d, s'.mem (b + k) = s.mem (b + k)

theorem HeapInv.memFree_spec (h : HeapInv s) (ha : (c, a) ∈ s.live) :
    ∃ s', memFree s a = some s' ∧ BlockFreed s s' c a ∧
      HeapInv { s' with live := s'.live.erase (c, a) } := by
  obtain ⟨s', hfree, hinv, hlive, -, havailable⟩ := memCacheFree_spec h.inv ha
  have hs' : (memCacheFree s c a).2 = s' := congrArg Prod.snd hfree
  refine ⟨s', hs' ▸ h.memFree_eq ha, ⟨hfree, havailable, ?_⟩, ?_⟩
  · intro d b hb hne k hk
    obtain ⟨i, hi, hci⟩ := h.live _ ha
    obtain ⟨j, hj, hdj⟩ := h.live _ hb
    obtain ⟨cache, hc, -⟩ := h.cache hi
    obtain ⟨cache', hd, -⟩ := h.cache hj
    rw [← (show c = mallocCache i from hci)] at hc
    rw [← (show d = mallocCache j from hdj)] at hd
    have hapart := h.inv.safe.apart d c b a cache' cache hd hc hb ha hne
    obtain ⟨-, hctor⟩ := h.blockSize_eq ha hc
    rw [(h.blockSize_eq hb hd).1] at hapart
    rw [← hs']
    refine memCacheFree_mem hc hctor ?_
    unfold Apart at hapart
    omega
  · refine ⟨?_, ?_, ?_⟩
    · rw [hlive]
      exact hinv
    · rw [← h.descriptors, ← hs']
      exact memCacheFree_descriptors a
    · intro x hx
      rw [hlive] at hx
      exact h.live x (mem_of_mem_erase hx)

/-! ## Runs -/

inductive HeapOp
  | alloc (size : ℕ) (page headerPage : Option ℕ)
  | free (c p : ℕ)
  | write (addr : ℕ) (data : List UInt8)

/-- The cache `c` of a block that is freed is no argument of `MemFree`; it only names
the block that goes out of use. -/
def heapStep (s : SlabSystem) : HeapOp → Option SlabSystem
  | .alloc size page headerPage =>
    (memAlloc s size page headerPage).map (SlabSystem.record (mallocCache (sizeIndex size)))
  | .free c p => (memFree s p).map fun s' => { s' with live := s'.live.erase (c, p) }
  | .write addr data => some { s with mem := overwrite s.mem addr data }

/-- Sizes are no larger than the largest cache, pages can be mapped and are fresh, and
only blocks in use are freed or written to. -/
def HeapOp.Legal (s : SlabSystem) : HeapOp → Prop
  | .alloc size page headerPage =>
    size ≤ 131072 ∧ page ≠ none ∧ headerPage ≠ none ∧
      PagesFresh s (mallocCache (sizeIndex size)) page headerPage
  | .free c p => (c, p) ∈ s.live
  | .write addr data => InLive s addr data.length

instance (s : SlabSystem) : (op : HeapOp) → Decidable (op.Legal s)
  | .alloc _ _ _ => inferInstanceAs (Decidable (_ ∧ _))
  | .free _ _ => inferInstanceAs (Decidable (_ ∈ _))
  | .write _ _ => inferInstanceAs (Decidable (InLive _ _ _))

theorem HeapInv.heapStep {op : HeapOp} (h : HeapInv s)
    (hlegal : op.Legal s) (hstep : heapStep s op = some s') : HeapInv s' := by
  cases op with
  | alloc size page headerPage =>
    obtain ⟨hle, -, -, hfresh⟩ := hlegal
    obtain ⟨⟨obj, s₁⟩, halloc, rfl⟩ := map_eq_some_iff.mp hstep
    cases obj with
    | none =>
      rw [memAlloc, if_neg (ne_of_lt (sizeIndex_lt hle))] at halloc
      obtain rfl := memCacheAlloc_null halloc
      exact h
    | some a => exact (h.memAlloc_spec hle hfresh halloc).1
  | free c p =>
    obtain ⟨s₁, hfree, -, hinv⟩ := h.memFree_spec hlegal
    rw [Whitix.SlabAlloc.heapStep, hfree] at hstep
    exact some.inj hstep ▸ hinv
  | write addr data =>
    cases hstep
    exact ⟨h.inv, h.descriptors, h.live⟩

/-- In every run, an allocation returns a block that is large enough, zeroed and
apart from all blocks in use, and a block in use is freed in its own cache, with
no effect on the others. -/
theorem heap_correct (mem : ℕ → UInt8) (page : Option ℕ) (s₀ s : SlabSystem)
    (hfresh : PagesFresh (SlabSystem.boot mem) 0 page none) (hinit : heapInit mem page = some s₀)
    (h : Reach heapStep (fun s op => HeapOp.Legal s op) s₀ s) :
    (∀ size p q, size ≤ 131072 → PagesFresh s (mallocCache (sizeIndex size)) (some p) (some q) →
        ∃ a s', memAlloc s size (some p) (some q) = some (some a, s') ∧
          BlockAllocated s s' size (mallocCache (sizeIndex size)) a) ∧
      ∀ c a, (c, a) ∈ s.live → ∃ s', memFree s a = some s' ∧ BlockFreed s s' c a := by
  have hinv : HeapInv s := by
    refine Reach.invariant (heapInit_spec hfresh hinit).1 ?_ h
    exact fun _ _ _ hs hlegal hstep => hs.heapStep hlegal hstep
  constructor
  · intro size p q hle hpages
    obtain ⟨a, s', halloc⟩ := hinv.memAlloc_returns hle hpages
    exact ⟨a, s', halloc, (hinv.memAlloc_spec hle hpages halloc).2⟩
  · intro c a ha
    obtain ⟨s', hfree, hfreed, -⟩ := hinv.memFree_spec ha
    exact ⟨s', hfree, hfreed⟩

/-- Blocks of 20 and of 5000 bytes, of which the first is freed. -/
theorem heap_correct_two :
    ∃ s₀ s, heapInit (fun _ => 7) (some 0xC0000000) = some s₀ ∧ s.live = [(11, 0xC0002000)] ∧
      ∃ s', memFree s 0xC0002000 = some s' ∧ BlockFreed s s' 11 0xC0002000 := by
  have hinit : ∃ s₀ s, heapInit (fun _ => 7) (some 0xC0000000) = some s₀ ∧
      runGuarded heapStep (fun s op => HeapOp.Legal s op) s₀
        [.alloc 20 (some 0xC0001000) (some 0xC0005000),
          .alloc 5000 (some 0xC0002000) (some 0xC0005000),
          .write 0xC0002004 [1, 2, 3],
          .free 3 0xC0001030] = some s ∧
      s.live = [(11, 0xC0002000)] := ⟨_, _, rfl, rfl, by decide⟩
  obtain ⟨s₀, s, hinit, hrun, hlive⟩ := hinit
  exact ⟨s₀, s, hinit, hlive, (heap_correct _ _ s₀ s (by decide) hinit
    (reach_of_runGuarded hrun)).2 11 0xC0002000 (by rw [hlive]; exact mem_cons_self)⟩

/-! ## Blocks keep their bytes -/

section Bytes

variable {addr len : ℕ} {cache : Cache}

theorem zeroMemory_apart (mem : ℕ → UInt8) (hout : Apart a len addr 1) :
    zeroMemory mem a len addr = mem addr := by
  rcases hout with hle | hlt
  · exact overwrite_of_le (by rwa [length_replicate])
  · exact overwrite_of_lt hlt

theorem memCacheTake_mem (htake : memCacheTake s c cache = some (a, s'))
    (hout : Apart a cache.size addr 1) : s'.mem addr = s.mem addr := by
  obtain ⟨⟨b, slabs'⟩, -, heq⟩ := map_eq_some_iff.mp htake
  cases heq
  dsimp only
  split
  · exact zeroMemory_apart _ hout
  · rfl

theorem memCacheAllocWith_mem {getHeader : SlabSystem → ℕ → Option (ℕ × SlabSystem)}
    (hc : s.caches[c]? = some cache) (hctor : cache.ctor = none)
    (hpage : ∀ p ∈ page, Apart p cache.bytes addr 1)
    (hheader : ∀ p ∈ page, ∀ header s₁,
      getHeader (s.mapRun p (slabPages cache)) p = some (header, s₁) →
        s₁.caches[c]? = some cache ∧ s₁.mem addr = s.mem addr ∧ Apart header sizeofSlab addr 1)
    (halloc : memCacheAllocWith getHeader s c page = some (some a, s'))
    (hout : Apart a cache.size addr 1) : s'.mem addr = s.mem addr := by
  rcases memCacheAllocWith_cases hc halloc with
    ⟨_, _, htake, ⟨⟩⟩ | heq | ⟨p, header, s₁, cache', _, _, hp, hget, hcache', htake, ⟨⟩⟩
  · exact memCacheTake_mem htake hout
  · cases heq
  · obtain ⟨hcache, hmem, hapart⟩ := hheader p hp header s₁ hget
    obtain rfl : _ = cache' := some.inj ((getElem?_set_of_some hcache _).symm.trans hcache')
    rw [memCacheTake_mem htake hout, ← hmem, ← zeroMemory_apart s₁.mem hapart]
    simp only [memCacheLinkSlab, constructMemory, hctor]
    refine zeroMemory_apart _ ?_
    have hbytes := hpage p hp
    unfold Apart Cache.bytes at *
    omega

section Live

variable {d b k : ℕ} (h : HeapInv s) (hb : (d, b) ∈ s.live) (hk : k < blockSize d)
include h hb

theorem HeapInv.liveCache : ∃ cache, s.caches[d]? = some cache ∧ cache.size = blockSize d := by
  obtain ⟨cache, hd, -⟩ := h.inv.owned d b (mem_append_left _ hb)
  exact ⟨cache, hd, (h.blockSize_eq hb hd).1⟩

include hk

theorem HeapInv.fresh_apart {p n : ℕ} (hfresh : Fresh s.runs p n) :
    Apart p (n * pageSize) (b + k) 1 := by
  obtain ⟨cache, hd, slab, -, hrun, hstart, hend, -⟩ := h.inv.safe.inside d b hb
  rw [(h.blockSize_eq hb hd).1] at hend
  exact (hfresh.2.2 _ hrun).mono ⟨le_rfl, le_rfl⟩ ⟨by omega, by dsimp only; omega⟩

theorem HeapInv.allocWith_on_mem (hc : s.caches[c]? = some cache) (hctor : cache.ctor = none)
    (hon : cache.offslab = false) (hfresh : ∀ p ∈ page, Fresh s.runs p (slabPages cache))
    (halloc : memCacheAllocWith headerOnSlab s c page = some (some a, s'))
    (hout : Apart a cache.size (b + k) 1) : s'.mem (b + k) = s.mem (b + k) := by
  have hwell := h.inv.wellformed c cache hc
  have hpage : ∀ p ∈ page, Apart p cache.bytes (b + k) 1 := by
    intro p hp
    rw [Cache.bytes, ← hwell.pages]
    exact h.fresh_apart hb hk (hfresh p hp)
  refine memCacheAllocWith_mem hc hctor hpage ?_ halloc hout
  intro p hp header s₁ hget
  cases hget
  -- the header is the beginning of the pages
  have hfits := hwell.fits
  rw [hwell.header hon] at hfits
  exact ⟨hc, rfl, (hpage p hp).mono ⟨le_rfl, by omega⟩ ⟨le_rfl, le_rfl⟩⟩

theorem HeapInv.headerOffSlab_mem {p header : ℕ} (hc : s.caches[c]? = some cache)
    (hoff : cache.offslab = true) (hfresh : Fresh s.runs p (slabPages cache))
    (hfresh' : ∀ q ∈ headerPage, Fresh ((p, slabPages cache) :: s.runs) q 1)
    (hget : headerOffSlab headerPage (s.mapRun p (slabPages cache)) p = some (header, s')) :
    s'.caches[c]? = some cache ∧ s'.mem (b + k) = s.mem (b + k) ∧
      Apart header sizeofSlab (b + k) 1 := by
  have htaken := headerOffSlab_taken h.inv hc hoff hfresh hfresh' hget
  obtain ⟨-, slabCache, hone⟩ := exists_slabCache h.inv hc hoff
  have hmap : HeapInv (s.mapRun p (slabPages cache)) :=
    ⟨h.inv.map hfresh.pos, h.descriptors, h.live⟩
  have hctor : slabCache.ctor = none := by
    have hblank := SlabSystem.descriptors_of_some hone
    rw [h.descriptors] at hblank
    exact (congrArg Cache.ctor (some.inj hblank)).symm
  obtain ⟨cache', hd, hsize⟩ := h.liveCache hb
  have hd1 : d ≠ 1 := by
    obtain ⟨j, -, rfl⟩ := h.live _ hb
    exact Nat.succ_ne_zero j ∘ Nat.succ.inj
  unfold headerOffSlab at hget
  split at hget
  · next header' s₁ halloc =>
    cases hget
    -- the header is an object of `slabCache`, which is not the block
    have hother := (memCacheAllocWith_on_frame (s := s.mapRun p _) hone halloc).2.2.1 d hd1
    obtain ⟨slabCache', hone', -⟩ := htaken.inv.owned 1 header (by simp)
    have hne : (1, header) ≠ (d, b) := fun heq => hd1 (congrArg Prod.fst heq).symm
    have hapart := htaken.inv.objects_apart hone' (hother.trans hd)
      (mem_append_right _ mem_cons_self) (mem_append_left _ (htaken.live.symm ▸ hb)) hne
    rw [htaken.inv.header_size slabCache' hone', hsize] at hapart
    have hout : Apart header sizeofSlab (b + k) 1 :=
      hapart.mono ⟨le_rfl, le_rfl⟩ ⟨Nat.le_add_right b k, by omega⟩
    refine ⟨htaken.cache_eq, ?_, hout⟩
    change s₁.mem (b + k) = _
    rw [← h.inv.header_size slabCache hone] at hout
    refine hmap.allocWith_on_mem hb hk hone hctor (h.inv.low 1 slabCache (by decide) hone) ?_
      halloc hout
    rw [(h.inv.wellformed 1 slabCache hone).pages, slabCache_numPages h.inv hone]
    exact hfresh'
  · cases hget

/-- `MemAlloc` leaves all blocks in use as they are. -/
theorem HeapInv.memAlloc_kept (hle : size ≤ 131072)
    (hfresh : PagesFresh s (mallocCache (sizeIndex size)) page headerPage)
    (halloc : memAlloc s size page headerPage = some (some a, s')) :
    s'.mem (b + k) = s.mem (b + k) := by
  have hlt := sizeIndex_lt hle
  obtain ⟨cache, hc, hsize, hctor⟩ := h.cache hlt
  have hout : Apart a cache.size (b + k) 1 := by
    have hapart := (h.memAlloc_spec hle hfresh halloc).2.apart d b hb
    rw [blockSize, mallocCache, Nat.add_sub_cancel, getD_eq_getElem _ _ hlt, ← hsize] at hapart
    exact hapart.mono ⟨le_rfl, le_rfl⟩ ⟨Nat.le_add_right b k, by omega⟩
  have hpages := hfresh cache hc
  rw [memAlloc, if_neg hlt.ne] at halloc
  simp only [memCacheAlloc, hc, map_some, getD_some] at halloc
  split at halloc
  · next hoff =>
    refine memCacheAllocWith_mem hc hctor (fun p hp => ?_) (fun p hp header s₁ hget => ?_)
      halloc hout
    · rw [Cache.bytes, ← (h.inv.wellformed _ cache hc).pages]
      exact h.fresh_apart hb hk (hpages p hp).1
    · exact h.headerOffSlab_mem hb hk hc hoff (hpages p hp).1 (hpages p hp).2 hget
  · next hon =>
    exact h.allocWith_on_mem hb hk hc hctor (by simpa using hon) (fun p hp => (hpages p hp).1)
      halloc hout

end Live

end Bytes

/-- The operation neither frees the block nor writes to it. -/
def HeapOp.Spares (c a : ℕ) : HeapOp → Prop
  | .alloc .. => True
  | .free d p => (d, p) ≠ (c, a)
  | .write addr data => ¬ (a ≤ addr ∧ addr + data.length ≤ a + blockSize c)

instance (c a : ℕ) : (op : HeapOp) → Decidable (op.Spares c a)
  | .alloc .. => inferInstanceAs (Decidable True)
  | .free .. => inferInstanceAs (Decidable (_ ≠ _))
  | .write .. => inferInstanceAs (Decidable (¬ _))

theorem HeapInv.keeps {op : HeapOp} (h : HeapInv s) (hlegal : op.Legal s)
    (hspares : op.Spares c a) (hstep : SlabAlloc.heapStep s op = some s') (ha : (c, a) ∈ s.live) :
    (c, a) ∈ s'.live ∧ ∀ k < blockSize c, s'.mem (a + k) = s.mem (a + k) := by
  cases op with
  | alloc size page headerPage =>
    obtain ⟨hle, -, -, hfresh⟩ := hlegal
    obtain ⟨⟨obj, s₁⟩, halloc, rfl⟩ := map_eq_some_iff.mp hstep
    cases obj with
    | none =>
      rw [memAlloc, if_neg (ne_of_lt (sizeIndex_lt hle))] at halloc
      obtain rfl := memCacheAlloc_null halloc
      exact ⟨ha, fun k _ => rfl⟩
    | some p =>
      refine ⟨mem_cons_of_mem _ ?_, fun k hk => (h.memAlloc_kept ha hk hle hfresh halloc :)⟩
      rw [memAlloc, if_neg (ne_of_lt (sizeIndex_lt hle))] at halloc
      exact (memCacheAlloc_spec h.inv hfresh halloc).live.symm ▸ ha
  | free d p =>
    obtain ⟨s₁, hfree, hfreed, -⟩ := h.memFree_spec hlegal
    rw [SlabAlloc.heapStep, hfree] at hstep
    cases hstep
    have hlive : s₁.live = s.live := by
      obtain ⟨_, hfree', -, hlive, -⟩ := memCacheFree_spec h.inv hlegal
      rw [hfreed.owner] at hfree'
      cases hfree'
      exact hlive
    exact ⟨(mem_erase_of_ne hspares.symm).mpr (hlive.symm ▸ ha), hfreed.kept c a ha hspares.symm⟩
  | write addr data =>
    cases hstep
    refine ⟨ha, fun k hk => ?_⟩
    obtain ⟨⟨d, b⟩, hb, cache, hd, hlow, hhigh⟩ := hlegal
    have hsize := (h.blockSize_eq hb hd).1
    have hne : (d, b) ≠ (c, a) := by
      rintro ⟨⟩
      exact hspares ⟨hlow, hsize ▸ hhigh⟩
    obtain ⟨cache', hc, hsize'⟩ := h.liveCache ha
    have hapart := h.inv.safe.apart d c b a cache cache' hd hc hb ha hne
    rw [hsize'] at hapart
    dsimp only at hlow hhigh
    rcases hapart with hbefore | hbehind
    · exact overwrite_of_le (by omega)
    · exact overwrite_of_lt (by omega)

/-- A block keeps its bytes until it is freed or written to, whatever is allocated, freed
and written in between. -/
theorem heap_block_kept (mem : ℕ → UInt8) (page : Option ℕ) (s₀ s s' : SlabSystem)
    (hfresh : PagesFresh (SlabSystem.boot mem) 0 page none) (hinit : heapInit mem page = some s₀)
    (h : Reach heapStep (fun s op => HeapOp.Legal s op) s₀ s) (c a : ℕ) (ha : (c, a) ∈ s.live)
    (hrun : Reach heapStep (fun s op => HeapOp.Legal s op ∧ op.Spares c a) s s') :
    (c, a) ∈ s'.live ∧ ∀ k < blockSize c, s'.mem (a + k) = s.mem (a + k) := by
  have hinv : HeapInv s := by
    refine Reach.invariant (heapInit_spec hfresh hinit).1 ?_ h
    exact fun _ _ _ hs hlegal hstep => hs.heapStep hlegal hstep
  suffices HeapInv s' ∧ (c, a) ∈ s'.live ∧ ∀ k < blockSize c, s'.mem (a + k) = s.mem (a + k) from
    this.2
  induction hrun with
  | refl => exact ⟨hinv, ha, fun k _ => rfl⟩
  | tail op _ hguard hstep ih =>
    obtain ⟨hinv', ha', hkept⟩ := ih
    obtain ⟨ha'', hkept'⟩ := hinv'.keeps hguard.1 hguard.2 hstep ha'
    exact ⟨hinv'.heapStep hguard.1 hstep, ha'', fun k hk => (hkept' k hk).trans (hkept k hk)⟩

/-- A block of 20 bytes is written, and blocks of 5000 and 64 bytes come and go. -/
theorem heap_block_kept_three :
    ∃ s s' : SlabSystem, s.live = [(3, 0xC0001030)] ∧ s.mem 0xC0001031 = 2 ∧
      s'.live = [(4, 0xC0006030), (3, 0xC0001030)] ∧ s'.mem 0xC0001031 = 2 := by
  have hrun : ∃ s₀ s s', heapInit (fun _ => 7) (some 0xC0000000) = some s₀ ∧
      runGuarded heapStep (fun s op => HeapOp.Legal s op) s₀
        [.alloc 20 (some 0xC0001000) (some 0xC0005000), .write 0xC0001030 [1, 2, 3]] = some s ∧
      runGuarded heapStep (fun s op => HeapOp.Legal s op ∧ op.Spares 3 0xC0001030) s
        [.alloc 5000 (some 0xC0002000) (some 0xC0005000), .write 0xC0002004 [4],
          .alloc 64 (some 0xC0006000) (some 0xC0007000), .free 11 0xC0002000] = some s' ∧
      s.live = [(3, 0xC0001030)] ∧ s.mem 0xC0001031 = 2 ∧
      s'.live = [(4, 0xC0006030), (3, 0xC0001030)] :=
    ⟨_, _, _, rfl, rfl, rfl, by decide, by decide, by decide⟩
  obtain ⟨s₀, s, s', hinit, hrun, hrun', hlive, hbyte, hlive'⟩ := hrun
  refine ⟨s, s', hlive, hbyte, hlive', ?_⟩
  rw [← hbyte]
  exact (heap_block_kept _ _ s₀ s s' (by decide) hinit (reach_of_runGuarded hrun) 3 0xC0001030
    (by rw [hlive]; exact mem_singleton_self _) (reach_of_runGuarded hrun')).2 1 (by decide)

end Whitix.SlabAlloc
