import Whitix.Memory.Slab.Calls
import Whitix.Support.Run

/-!
# Runs of the slab allocator

A run creates caches, allocates and frees objects, and writes to objects in
use.  The pages that mapping calls return are arbitrary, as long as they are
fresh.  In every state of such a run the objects in use are inside their
slabs, apart from each other and apart from the `struct Slab` records.
-/

namespace Whitix.SlabAlloc

open Support List Option

/-! ## Operations -/

/-- The operations of a run.  An allocation comes with the pages which the
mapping of a new slab, and of a new slab of `slabCache`, would return. -/
inductive SlabOp where
  | create (size : ℕ) (ctor : Option (ℕ → List UInt8)) (offslab : Bool)
      (page : Option ℕ)
  | alloc (c : ℕ) (page headerPage : Option ℕ)
  | free (c addr : ℕ)
  | write (addr : ℕ) (data : List UInt8)

def SlabSystem.record (c : ℕ) : Option ℕ × SlabSystem → SlabSystem
  | (none, s) => s
  | (some a, s) => { s with live := (c, a) :: s.live }

def SlabSystem.forget (c a : ℕ) : ℤ × SlabSystem → SlabSystem
  | (ret, s) => if ret = 0 then { s with live := s.live.erase (c, a) } else s

section

variable (s : SlabSystem)

def slabStep : SlabOp → Option SlabSystem
  | .create size ctor offslab page => memCacheCreate s size ctor offslab page
  | .alloc c page headerPage =>
    (memCacheAlloc s c page headerPage).map (SlabSystem.record c)
  | .free c a => some (SlabSystem.forget c a (memCacheFree s c a))
  | .write addr data => some { s with mem := overwrite s.mem addr data }

def InLive (addr len : ℕ) : Prop :=
  ∃ x ∈ s.live, ∃ cache ∈ s.caches[x.1]?, x.2 ≤ addr ∧ addr + len ≤ x.2 + cache.size
  deriving Decidable

/-- What callers and the mapping functions promise: caches have room for an
object, mapped pages are fresh, and only objects in use are freed or written
to. -/
def SlabOp.Legal : SlabOp → Prop
  | .create size ctor offslab page =>
    0 < (cacheDescriptor (max size slabMinObjectSize) ctor offslab).numObjs ∧
      PagesFresh s 0 page none
  | .alloc c page headerPage => PagesFresh s c page headerPage
  | .free c a => (c, a) ∈ s.live
  | .write addr data => InLive s addr data.length

instance (s : SlabSystem) : (op : SlabOp) → Decidable (op.Legal s)
  | .create .. => inferInstanceAs (Decidable (_ ∧ _))
  | .alloc _ _ _ => inferInstanceAs (Decidable (PagesFresh ..))
  | .free _ _ => inferInstanceAs (Decidable (_ ∈ _))
  | .write _ _ => inferInstanceAs (Decidable (InLive _ _ _))

/-! ## The invariant along runs -/

def SlabSystem.Ready : Prop :=
  s.Inv ∧ 2 ≤ s.caches.length

end

theorem boot_inv (mem : ℕ → UInt8) : (SlabSystem.boot mem).Inv := by
  have hcases : ∀ {c : ℕ} {cache : Cache}, (SlabSystem.boot mem).caches[c]? = some cache →
        c = 0 ∧ cache = cacheCache := by
    intro c cache hc
    cases c with
    | zero => exact ⟨rfl, (some.inj hc).symm⟩
    | succ c => cases hc
  constructor
  · constructor
    · intro c cache hc
      obtain ⟨-, rfl⟩ := hcases hc
      exact cacheCache_wellformed
    · intro c cache _ hc
      obtain ⟨-, rfl⟩ := hcases hc
      rfl
    · intro cache hc
      cases (hcases hc).1
    · exact nofun
    · intro c cache hc p hp
      obtain ⟨-, rfl⟩ := hcases hc
      cases hp
    · intro c cache hc
      obtain ⟨-, rfl⟩ := hcases hc
      exact List.Pairwise.nil
    · intro c d cache cache' hne hc hd
      exact absurd ((hcases hc).1.trans (hcases hd).1.symm) hne
  · intro c cache hc _ slab hslab
    obtain ⟨-, rfl⟩ := hcases hc
    cases hslab
  · intro c cache hc _ slab hslab
    obtain ⟨-, rfl⟩ := hcases hc
    cases hslab
  · intro c cache hc slab hslab
    obtain ⟨-, rfl⟩ := hcases hc
    cases hslab
  · intro c cache hc slab hslab
    obtain ⟨-, rfl⟩ := hcases hc
    cases hslab
  · exact nofun
  · exact nodup_nil
  · exact nofun

variable {mem : ℕ → UInt8} {s : SlabSystem} {page : Option ℕ}

theorem slabInit_ready (hfresh : PagesFresh (SlabSystem.boot mem) 0 page none)
    (hinit : slabInit mem page = some s) : s.Ready := by
  obtain ⟨hinv, -, hlen⟩ := memCacheCreate_spec (boot_inv mem) hfresh
    (by decide) (fun _ => ⟨rfl, rfl⟩) (by decide) hinit
  refine ⟨hinv, ?_⟩
  rw [hlen]
  exact le_rfl

theorem slabStep_ready {s' : SlabSystem} {op : SlabOp} (h : s.Ready)
    (hlegal : op.Legal s) (hstep : slabStep s op = some s') : s'.Ready := by
  obtain ⟨hinv, hlen⟩ := h
  cases op with
  | create size ctor offslab page =>
    obtain ⟨hobjs, hfresh⟩ := hlegal
    by_cases hsize : size = 0
    · rw [slabStep, memCacheCreate, if_pos hsize] at hstep
      cases hstep
      exact ⟨hinv, hlen⟩
    · obtain ⟨hinv', -, hlen'⟩ := memCacheCreate_spec hinv hfresh hobjs
        (fun hlow => absurd hlow hlen.not_gt) hsize hstep
      exact ⟨hinv', by omega⟩
  | alloc c page headerPage =>
    obtain ⟨⟨obj, s₁⟩, halloc, rfl⟩ := map_eq_some_iff.mp hstep
    cases obj with
    | none =>
      obtain rfl := memCacheAlloc_null halloc
      exact ⟨hinv, hlen⟩
    | some a =>
      have hspec := memCacheAlloc_spec hinv hlegal halloc
      refine ⟨hspec.inv, ?_⟩
      rw [SlabSystem.record, hspec.length]
      exact hlen
  | free c a =>
    obtain ⟨s₁, hfree, hinv', hlive, hlen', -⟩ := memCacheFree_spec hinv hlegal
    cases hstep
    rw [hfree, SlabSystem.forget, if_pos rfl, hlive]
    exact ⟨hinv', hlen'.symm ▸ hlen⟩
  | write addr data =>
    cases hstep
    exact ⟨hinv, hlen⟩

/-! ## Safety -/

/-- The objects in use are inside their slabs and behind the headers there,
none was handed out twice, none overlaps another one or a `struct Slab`, and
slabs that are marked full are full. -/
structure SlabSafe (s : SlabSystem) : Prop where
  inside : ∀ c a, (c, a) ∈ s.live → ∃ cache, s.caches[c]? = some cache ∧
    ∃ slab ∈ cache.slabs, (slab.page, cache.numPages) ∈ s.runs ∧ slab.page + cache.offset ≤ a ∧
      a + cache.size ≤ slab.page + cache.numPages * pageSize ∧
      (cache.offslab = false → slab.header + sizeofSlab ≤ a)
  once : s.live.Nodup
  apart : ∀ (c d a b : ℕ) (cache cache' : Cache),
    s.caches[c]? = some cache → s.caches[d]? = some cache' →
    (c, a) ∈ s.live → (d, b) ∈ s.live → (c, a) ≠ (d, b) → Apart a cache.size b cache'.size
  header : ∀ (c d a : ℕ) (cache cache' : Cache),
    s.caches[c]? = some cache → s.caches[d]? = some cache' →
    (c, a) ∈ s.live → ∀ slab ∈ cache'.slabs, Apart a cache.size slab.header sizeofSlab
  full : ∀ (c : ℕ) (cache : Cache), s.caches[c]? = some cache →
    ∀ slab ∈ cache.slabs, slab.isFull = true → ∀ i < cache.numObjs, slab.bitmap i = true

theorem SlabSystem.Inv.safe (h : s.Inv) : SlabSafe s := by
  have hused : ∀ x ∈ s.live, x ∈ s.live ++ s.internal :=
    fun x hx => mem_append_left _ hx
  obtain ⟨hnodup, -, hdisjoint⟩ := nodup_append.mp h.nodup
  constructor
  · intro c a ha
    obtain ⟨cache, hc, slab, hslab, i, hi, rfl⟩ := h.owned c a (hused _ ha)
    have hwell := h.wellformed c cache hc
    have hin := objAddr_inside hwell slab hi
    refine ⟨cache, hc, slab, hslab, h.mapped c cache hc _ (mem_map_of_mem hslab), hin.1, hin.2, ?_⟩
    intro hon
    rw [h.header_on c cache hc hon slab hslab, ← hwell.header hon]
    exact hin.1
  · exact hnodup
  · intro c d a b cache cache' hc hd ha hb hne
    exact h.objects_apart hc hd (hused _ ha) (hused _ hb) hne
  · intro c d a cache cache' hc hd ha slab hslab
    refine h.header_apart hc hd (hused _ ha) ?_ hslab
    intro hint
    exact hdisjoint _ ha _ hint rfl
  · exact h.full

/-- In every run the objects in use are safe; an allocation returns an object
that was not in use, zeroed unless there is a constructor, and succeeds when
pages can be mapped; and freeing makes this object available and no other one.
-/
theorem slab_allocator_safe (mem : ℕ → UInt8) (page : Option ℕ) (s₀ s : SlabSystem)
    (hfresh : PagesFresh (SlabSystem.boot mem) 0 page none) (hinit : slabInit mem page = some s₀)
    (h : Reach slabStep (fun s op => SlabOp.Legal s op) s₀ s) :
    SlabSafe s ∧ (∀ c page headerPage a s', PagesFresh s c page headerPage →
        memCacheAlloc s c page headerPage = some (some a, s') → (c, a) ∉ s.live ∧
          ∀ cache, s.caches[c]? = some cache → cache.ctor = none →
            ∀ k < cache.size, s'.mem (a + k) = 0) ∧
      (∀ c p q, c < s.caches.length → PagesFresh s c (some p) (some q) →
        ∃ a s', memCacheAlloc s c (some p) (some q) = some (some a, s')) ∧
      ∀ c a, (c, a) ∈ s.live → ∃ s', memCacheFree s c a = (0, s') ∧
          ∀ d b, Available s' d b ↔ Available s d b ∨ (d, b) = (c, a) := by
  obtain ⟨hinv, -⟩ := h.invariant (slabInit_ready hfresh hinit)
    fun _ _ _ hs hlegal hstep => slabStep_ready hs hlegal hstep
  refine ⟨hinv.safe, ?_, ?_, ?_⟩
  · intro c page headerPage a s' hpages halloc
    have hspec := memCacheAlloc_spec hinv hpages halloc
    refine ⟨?_, hspec.zero⟩
    intro ha
    refine (nodup_cons.mp hspec.inv.nodup).1 (mem_append_left _ ?_)
    rw [hspec.live]
    exact ha
  · intro c p q hc hpages
    exact memCacheAlloc_returns hinv hc hpages
  · intro c a ha
    obtain ⟨s', hfree, -, -, -, havailable⟩ := memCacheFree_spec hinv ha
    exact ⟨s', hfree, havailable⟩

/-- Two caches, one with its headers on the slab and one with its headers off
the slab, three allocations and a free. -/
theorem slab_allocator_safe_two_caches :
    ∃ s₀ s, slabInit (fun _ => 7) (some 0xC0000000) = some s₀ ∧
      s.live = [(3, 0xC0002000), (2, 0xC0001094)] ∧ SlabSafe s := by
  have hinit : ∃ s₀ s, slabInit (fun _ => 7) (some 0xC0000000) = some s₀ ∧
      runGuarded slabStep (fun s op => SlabOp.Legal s op) s₀ [.create 98 none false none,
          .create 2048 none false none,
          .alloc 2 (some 0xC0001000) none,
          .alloc 2 none none,
          .alloc 3 (some 0xC0002000) (some 0xC0003000),
          .write 0xC0001030 [1, 2, 3],
          .free 2 0xC0001030] = some s ∧
      s.live = [(3, 0xC0002000), (2, 0xC0001094)] := ⟨_, _, rfl, rfl, by decide⟩
  obtain ⟨s₀, s, hinit, hrun, hlive⟩ := hinit
  exact ⟨s₀, s, hinit, hlive, (slab_allocator_safe _ _ s₀ s (by decide) hinit
    (reach_of_runGuarded hrun)).1⟩

end Whitix.SlabAlloc
