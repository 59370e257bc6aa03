import Whitix.Memory.Slab.Calls
import Whitix.Support.Fuel

/-!
# Growing caches

The loop of `MemCacheAlloc` as the code has it: it walks along the slabs, adds a slab
when it has come to the last one, and goes on with that, or with the first slab again
when no slab could be added.  Whether the loop ends depends on the sizes that
`MemCacheCreate` has computed, and on whether pages can be mapped.

The memory plays no part here.  The pages that the calls of `VirtMapPhysPage` and
`VirtMapPhysRange` return are a sequence, of which every call takes the next element.
-/

namespace Whitix.SlabAlloc

open Support List Option Nat

variable {τ : Type*}

/-! ## The code -/

def maxObjectsPerSlab : ℕ := pageSize / slabMinObjectSize

def slabCache : Cache := cacheDescriptor sizeofSlab none false

/-- The loop of `MemCacheAlloc` from the slab at `pos` on, with the slabs in the order
of the walk.  `addSlab` is `MemCacheAddSlab` up to the link into the list. -/
def allocLoop (cache : Cache) (addSlab : τ → Outcome (Option Slab × τ)) :
    ℕ → List Slab → ℕ → τ → Outcome (Option ℕ × List Slab × τ)
  | 0, _, _, _ => .running
  | fuel + 1, slabs, pos, t =>
    match slabs[pos]? with
    | none => .done (none, slabs, t)
    | some currSlab =>
      match slabFirstFree cache currSlab with
      | some i =>
        .done (some (objAddr cache currSlab i), slabs.set pos (slabTake cache currSlab i), t)
      | none =>
        if pos + 1 = slabs.length then
          (addSlab t).bind fun r =>
            match r.1 with
            | none => allocLoop cache addSlab fuel slabs 0 r.2
            | some slab =>
              allocLoop cache addSlab fuel (slabs ++ [slab]) (pos + 1) r.2
        else allocLoop cache addSlab fuel slabs (pos + 1) t

section

variable (cache : Cache) (pages : ℕ → Option ℕ)

/-- `MemCacheAlloc`; a cache without slabs is given one first. -/
def allocFrom (addSlab : τ → Outcome (Option Slab × τ)) (fuel : ℕ)
    (slabs : List Slab) (t : τ) : Outcome (Option ℕ × List Slab × τ) :=
  if slabs = [] then
    (addSlab t).bind fun r =>
      match r.1 with
      | none => .done (none, [], r.2)
      | some slab => allocLoop cache addSlab fuel [slab] 0 r.2
  else allocLoop cache addSlab fuel slabs 0 t

def newSlab (header page : ℕ) : Slab := ⟨header, page, false, fun _ => false⟩

/-- `MemCacheAllocSlab` with the header on the slab.  `pages` are the results of the
mappings, and `n` is the number of mappings made so far. -/
def allocSlabOn (n : ℕ) : Outcome (Option Slab × ℕ) :=
  .done ((pages n).map fun page => newSlab page page, n + 1)

/-- `MemCacheAllocSlab` with the header from `slabCache`, whose slabs are the second
part of the state.  A header at `NULL` is written to. -/
def allocSlabOff (fuel : ℕ) (t : ℕ × List Slab) : Outcome (Option Slab × (ℕ × List Slab)) :=
  match pages t.1 with
  | none => .done (none, (t.1 + 1, t.2))
  | some page =>
    (allocFrom slabCache (allocSlabOn pages) fuel t.2 (t.1 + 1)).bind fun r =>
      match r.1 with
      | none => .fault
      | some header => .done (some (newSlab header page), (r.2.2, r.2.1))

/-- `MemCacheAlloc` of a cache, which may have slabs already, with the result. -/
def cacheAlloc (headers slabs : List Slab) (fuel : ℕ) : Outcome (Option ℕ) :=
  if cache.offslab then
    (allocFrom cache (allocSlabOff pages fuel) fuel slabs (0, headers)).bind fun r => .done r.1
  else
    (allocFrom cache (allocSlabOn pages) fuel slabs 0).bind fun r => .done r.1

/-! ## The walk -/

def HasFree (slabs : List Slab) : Prop :=
  ∃ slab ∈ slabs, slab.isFull = false ∧ ∃ i < cache.numObjs, slab.bitmap i = false

end

instance (cache : Cache) (slabs : List Slab) : Decidable (HasFree cache slabs) :=
  inferInstanceAs (Decidable (∃ slab ∈ slabs, _))

variable {slabs : List Slab} {cache : Cache} {fuel pos : ℕ}

theorem hasFree_iff : HasFree cache slabs ↔ (memCacheScan cache slabs).isSome = true := by
  constructor
  · rintro ⟨slab, hmem, hfull, i, hi, hfree⟩
    exact memCacheScan_isSome hmem (slabFirstFree_isSome hfull hi hfree)
  · intro hsome
    obtain ⟨⟨a, slabs'⟩, hscan⟩ := isSome_iff_exists.mp hsome
    obtain ⟨front, slab, back, i, rfl, hfirst, -⟩ := memCacheScan_spec hscan
    obtain ⟨hfull, hi, hfree, -⟩ := slabFirstFree_spec hfirst
    exact ⟨slab, by simp, hfull, i, hi, hfree⟩

theorem slabFirstFree_of_not_hasFree {slab : Slab} (hfull : ¬ HasFree cache slabs)
    (hmem : slab ∈ slabs) : slabFirstFree cache slab = none := by
  cases hfirst : slabFirstFree cache slab with
  | none => rfl
  | some i =>
    obtain ⟨hnot, hi, hfree, -⟩ := slabFirstFree_spec hfirst
    exact absurd ⟨slab, hmem, hnot, i, hi, hfree⟩ hfull

theorem slabFirstFree_newSlab (hobjs : 0 < cache.numObjs)
    (header page : ℕ) : slabFirstFree cache (newSlab header page) = some 0 := by
  rw [slabFirstFree, newSlab, if_neg Bool.false_ne_true, find?_range_eq_some]
  exact ⟨rfl, mem_range.mpr hobjs, fun j hj => absurd hj (not_lt_zero j)⟩

section Walk

variable {addSlab : τ → Outcome (Option Slab × τ)} {t : τ}

section

variable (hfull : ¬ HasFree cache slabs)
include hfull

theorem allocLoop_pass (hlt : pos + 1 < slabs.length) :
    allocLoop cache addSlab (fuel + 1) slabs pos t =
      allocLoop cache addSlab fuel slabs (pos + 1) t := by
  have hpos : pos < slabs.length := lt_of_succ_lt hlt
  have hnone := slabFirstFree_of_not_hasFree hfull (getElem_mem hpos)
  rw [allocLoop, getElem?_eq_getElem hpos]
  simp only [hnone]
  rw [if_neg hlt.ne]

theorem allocLoop_last (hne : slabs ≠ []) :
    allocLoop cache addSlab (fuel + 1) slabs (slabs.length - 1) t = (addSlab t).bind fun r =>
        match r.1 with
        | none => allocLoop cache addSlab fuel slabs 0 r.2
        | some slab =>
          allocLoop cache addSlab fuel (slabs ++ [slab]) slabs.length r.2 := by
  have hlen := length_pos_iff.mpr hne
  have hpos : slabs.length - 1 < slabs.length := by omega
  have hlast : slabs.length - 1 + 1 = slabs.length := by omega
  have hnone := slabFirstFree_of_not_hasFree hfull (getElem_mem hpos)
  rw [allocLoop, getElem?_eq_getElem hpos]
  simp only [hnone]
  rw [if_pos hlast, hlast]

theorem allocLoop_toLast (hpos : pos < slabs.length) :
    allocLoop cache addSlab (fuel + (slabs.length - 1 - pos)) slabs pos t =
      allocLoop cache addSlab fuel slabs (slabs.length - 1) t := by
  induction hgap : slabs.length - 1 - pos generalizing pos with
  | zero =>
    rw [add_zero, show slabs.length - 1 = pos by omega]
  | succ gap ih =>
    rw [show fuel + (gap + 1) = fuel + gap + 1 by omega, allocLoop_pass hfull (by omega)]
    exact ih (by omega) (by omega)

theorem allocLoop_round (hne : slabs ≠ []) :
    allocLoop cache addSlab (fuel + slabs.length) slabs 0 t = (addSlab t).bind fun r =>
        match r.1 with
        | none => allocLoop cache addSlab fuel slabs 0 r.2
        | some slab =>
          allocLoop cache addSlab fuel (slabs ++ [slab]) slabs.length r.2 := by
  have hlen := length_pos_iff.mpr hne
  rw [show fuel + slabs.length = fuel + 1 + (slabs.length - 1 - 0) by omega,
    allocLoop_toLast hfull hlen]
  exact allocLoop_last hfull hne

theorem allocLoop_rounds {next : ℕ → τ} (hne : slabs ≠ []) (n : ℕ)
    (hfail : ∀ k < n, addSlab (next k) = .done (none, next (k + 1))) (fuel : ℕ) :
    allocLoop cache addSlab (fuel + n * slabs.length) slabs 0 (next 0) =
      allocLoop cache addSlab fuel slabs 0 (next n) := by
  induction n generalizing fuel with
  | zero => rw [zero_mul, add_zero]
  | succ n ih =>
    rw [show fuel + (n + 1) * slabs.length = fuel + slabs.length + n * slabs.length by
      rw [succ_mul]
      omega]
    rw [ih (fun k hk => hfail k (lt_succ_of_lt hk)), allocLoop_round hfull hne,
      hfail n (lt_succ_self n)]
    rfl

end

theorem allocLoop_running (next : ℕ → τ) (hfull : ¬ HasFree cache slabs)
    (hfail : ∀ k, addSlab (next k) = .done (none, next (k + 1))) (hpos : pos < slabs.length)
    (fuel k : ℕ) : allocLoop cache addSlab fuel slabs pos (next k) = .running := by
  induction fuel generalizing pos k with
  | zero => rfl
  | succ fuel ih =>
    by_cases hlast : pos + 1 < slabs.length
    · rw [allocLoop_pass hfull hlast]
      exact ih hlast k
    · have hne : slabs ≠ [] := ne_nil_of_length_pos (by omega)
      rw [show pos = slabs.length - 1 by omega, allocLoop_last hfull hne, hfail k]
      exact ih (by omega) (k + 1)

theorem allocFrom_never (next : ℕ → τ) (hfull : ¬ HasFree cache slabs) (hne : slabs ≠ [])
    (hfail : ∀ k, addSlab (next k) = .done (none, next (k + 1))) (fuel : ℕ) :
    allocFrom cache addSlab fuel slabs (next 0) = .running := by
  rw [allocFrom, if_neg hne]
  exact allocLoop_running next hfull hfail (length_pos_iff.mpr hne) fuel 0

theorem allocLoop_scan {r : ℕ × List Slab}
    (hscan : memCacheScan cache (slabs.drop pos) = some r) (hfuel : slabs.length - pos ≤ fuel) :
    allocLoop cache addSlab fuel slabs pos t = .done (some r.1, slabs.take pos ++ r.2, t) := by
  induction hgap : slabs.length - pos generalizing pos fuel r with
  | zero =>
    rw [drop_eq_nil_of_le (by omega)] at hscan
    cases hscan
  | succ gap ih =>
    have hpos : pos < slabs.length := by omega
    obtain ⟨fuel, rfl⟩ := exists_eq_succ_of_ne_zero (show fuel ≠ 0 by omega)
    rw [drop_eq_getElem_cons hpos, memCacheScan] at hscan
    rw [allocLoop, getElem?_eq_getElem hpos]
    cases hfree : slabFirstFree cache slabs[pos] with
    | some i =>
      rw [hfree] at hscan
      cases hscan
      simp only [hfree]
      rw [set_eq_take_append_cons_drop, if_pos hpos]
    | none =>
      rw [hfree] at hscan
      obtain ⟨r', hr', rfl⟩ := map_eq_some_iff.mp hscan
      -- there is a slab behind this one, since the walk finds an object
      have hlt : pos + 1 < slabs.length := by
        by_contra hge
        rw [drop_eq_nil_of_le (by omega)] at hr'
        cases hr'
      simp only [hfree]
      rw [if_neg hlt.ne, ih hr' (by omega) (by omega)]
      rw [take_succ_eq_append_getElem hpos, append_assoc]
      rfl

end Walk

/-! ## What the loop comes to -/

section Grow

def grown (cache : Cache) (slabs : List Slab) (r : Option Slab × τ) :
    Outcome (Option ℕ × List Slab × τ) :=
  match r.1 with
  | none => .running
  | some slab =>
    .done (some (objAddr cache slab 0), slabs ++ [slabTake cache slab 0], r.2)

theorem allocFrom_hasFree (addSlab : ℕ → τ → Outcome (Option Slab × τ)) (t : τ)
    (hfree : HasFree cache slabs) :
    ∃ obj slabs', Eventually (fun fuel => allocFrom cache (addSlab fuel) fuel slabs t)
      (.done (some obj, slabs', t)) := by
  obtain ⟨r, hscan⟩ := isSome_iff_exists.mp (hasFree_iff.mp hfree)
  have hne : slabs ≠ [] := by
    rintro rfl
    cases hscan
  refine ⟨r.1, r.2, slabs.length, fun fuel hfuel => ?_⟩
  simp only [allocFrom, if_neg hne]
  exact allocLoop_scan hscan (by omega)

theorem allocLoop_newSlab {addSlab : τ → Outcome (Option Slab × τ)}
    (hobjs : 0 < cache.numObjs) (header page : ℕ) (t : τ) (hfuel : 1 ≤ fuel) :
    allocLoop cache addSlab fuel (slabs ++ [newSlab header page]) slabs.length t =
      grown cache slabs (some (newSlab header page), t) := by
  have hscan : memCacheScan cache ((slabs ++ [newSlab header page]).drop slabs.length) =
      some (objAddr cache (newSlab header page) 0, [slabTake cache (newSlab header page) 0]) := by
    rw [drop_left, memCacheScan, slabFirstFree_newSlab hobjs]
  rw [allocLoop_scan hscan (by simp; omega), take_left]
  rfl

theorem allocFrom_grow {addSlab : ℕ → τ → Outcome (Option Slab × τ)} (next : ℕ → τ)
    {n : ℕ} {x : Outcome (Option Slab × τ)} (hobjs : 0 < cache.numObjs)
    (hfull : ¬ HasFree cache slabs) (hstart : slabs = [] → n = 0)
    (hfail : ∀ fuel, ∀ k < n, addSlab fuel (next k) = .done (none, next (k + 1)))
    (hadd : Eventually (fun fuel => addSlab fuel (next n)) x)
    (hnew : ∀ r, x = .done r → ∃ header page, r.1 = some (newSlab header page)) :
    Eventually (fun fuel => allocFrom cache (addSlab fuel) fuel slabs (next 0))
      (x.bind (grown cache slabs)) := by
  obtain ⟨least, hleast⟩ := hadd
  refine ⟨max least ((n + 1) * slabs.length + 1), fun fuel hfuel => ?_⟩
  have hx : addSlab fuel (next n) = x :=
    hleast fuel (le_trans (le_max_left _ _) hfuel)
  have henough : (n + 1) * slabs.length + 1 ≤ fuel :=
    le_trans (le_max_right _ _) hfuel
  by_cases hne : slabs = []
  · subst hne
    obtain rfl := hstart rfl
    simp only [allocFrom, if_pos, hx]
    cases x with
    | running | fault => rfl
    | done r =>
      obtain ⟨header, page, hr⟩ := hnew r rfl
      obtain ⟨slab, t⟩ := r
      cases hr
      exact @allocLoop_newSlab τ [] cache fuel _ hobjs header page t (by omega)
  · simp only [allocFrom, if_neg hne]
    obtain ⟨rest, rfl⟩ : ∃ rest, fuel = rest + 1 + slabs.length + n * slabs.length := by
      rw [succ_mul] at henough
      exact ⟨fuel - ((n + 1) * slabs.length + 1), by rw [succ_mul]; omega⟩
    rw [allocLoop_rounds hfull hne n (hfail _), allocLoop_round hfull hne, hx]
    cases x with
    | running | fault => rfl
    | done r =>
      obtain ⟨header, page, hr⟩ := hnew r rfl
      obtain ⟨slab, t⟩ := r
      cases hr
      exact allocLoop_newSlab hobjs header page t (by omega)

/-- The mappings before number `m` fail, and the one with this number succeeds. -/
def FirstPage (pages : ℕ → Option ℕ) (n m : ℕ) : Prop :=
  n ≤ m ∧ pages m ≠ none ∧ ∀ k, n ≤ k → k < m → pages k = none

/-- A cache with its headers on the slabs has an object left, or gets a slab. -/
def Obtains (cache : Cache) (pages : ℕ → Option ℕ) (slabs : List Slab) (n : ℕ) : Prop :=
  HasFree cache slabs ∨ (slabs = [] ∧ pages n ≠ none) ∨ (slabs ≠ [] ∧ ∃ m, n ≤ m ∧ pages m ≠ none)

variable {pages : ℕ → Option ℕ}

section

variable {m n page : ℕ} {headers : List Slab}

theorem exists_firstPage (h : ∃ m, n ≤ m ∧ pages m ≠ none) : ∃ m, FirstPage pages n m := by
  classical
  obtain ⟨hle, hpage⟩ := Nat.find_spec h
  refine ⟨Nat.find h, hle, hpage, fun k hk hlt => ?_⟩
  by_contra hne
  exact Nat.find_min h hlt ⟨hk, hne⟩

theorem allocSlabOn_none (h : pages n = none) : allocSlabOn pages n = .done (none, n + 1) := by
  rw [allocSlabOn, h]
  rfl

theorem allocFrom_first (hobjs : 0 < cache.numObjs) (hfull : ¬ HasFree cache slabs)
    (hstart : slabs = [] → m = n) (hfirst : FirstPage pages n m) :
    ∃ obj slabs', Eventually (fun fuel => allocFrom cache (allocSlabOn pages) fuel slabs n)
      (.done (some obj, slabs', m + 1)) := by
  obtain ⟨hle, hpage, hbefore⟩ := hfirst
  obtain ⟨k, rfl⟩ := Nat.exists_eq_add_of_le hle
  obtain ⟨page, hpage⟩ := ne_none_iff_exists'.mp hpage
  have hadd : Eventually (fun _ => allocSlabOn pages (n + k))
      (.done (some (newSlab page page), n + k + 1)) := by
    refine Eventually.of_forall fun _ => ?_
    rw [allocSlabOn, hpage]
    rfl
  refine ⟨_, _, allocFrom_grow (fun k => n + k) hobjs hfull ?_ ?_ hadd ?_⟩
  · intro hnil
    have heq := hstart hnil
    omega
  · intro _ j hj
    exact allocSlabOn_none (hbefore (n + j) (by omega) (by omega))
  · rintro r hr
    cases hr
    exact ⟨page, page, rfl⟩

theorem allocFrom_obtains (hobjs : 0 < cache.numObjs) (h : Obtains cache pages slabs n) :
    ∃ obj slabs' n', Eventually (fun fuel => allocFrom cache (allocSlabOn pages) fuel slabs n)
      (.done (some obj, slabs', n')) := by
  by_cases hfree : HasFree cache slabs
  · obtain ⟨obj, slabs', hdone⟩ :=
      allocFrom_hasFree (fun _ => allocSlabOn pages) n hfree
    exact ⟨obj, slabs', n, hdone⟩
  · obtain ⟨m, hstart, hfirst⟩ : ∃ m, (slabs = [] → m = n) ∧ FirstPage pages n m := by
      rcases h.resolve_left hfree with ⟨-, hpage⟩ | ⟨hne, hlater⟩
      · exact ⟨n, fun _ => rfl, le_rfl, hpage, fun k hk hlt => absurd hlt (by omega)⟩
      · obtain ⟨m, hfirst⟩ := exists_firstPage hlater
        exact ⟨m, fun hnil => absurd hnil hne, hfirst⟩
    obtain ⟨obj, slabs', hdone⟩ := allocFrom_first hobjs hfree hstart hfirst
    exact ⟨obj, slabs', m + 1, hdone⟩

theorem allocFrom_nil (hpage : pages n = none) (fuel : ℕ) :
    allocFrom cache (allocSlabOn pages) fuel [] n = .done (none, [], n + 1) := by
  rw [allocFrom, allocSlabOn_none hpage]
  rfl

/-! ### Headers from the cache of slabs -/

theorem slabCache_numObjs : 0 < slabCache.numObjs := by decide

theorem allocSlabOff_none (h : pages n = none) (fuel : ℕ) (headers : List Slab) :
    allocSlabOff pages fuel (n, headers) = .done (none, (n + 1, headers)) := by
  unfold allocSlabOff
  simp only [h]

theorem allocSlabOff_obtains
    (hpage : pages n = some page) (h : Obtains slabCache pages headers (n + 1)) :
    ∃ header t, Eventually (fun fuel => allocSlabOff pages fuel (n, headers))
      (.done (some (newSlab header page), t)) := by
  obtain ⟨header, headers', n', least, hleast⟩ :=
    allocFrom_obtains slabCache_numObjs h
  refine ⟨header, (n', headers'), least, fun fuel hfuel => ?_⟩
  have halloc := hleast fuel hfuel
  unfold allocSlabOff
  simp only [hpage, halloc, Outcome.done_bind]

/-- Without a header, the call faults or never returns. -/
theorem allocSlabOff_fails
    (hpage : pages n = some page) (h : ¬ Obtains slabCache pages headers (n + 1)) :
    Eventually (fun fuel => allocSlabOff pages fuel (n, headers)) .running ∨
      Eventually (fun fuel => allocSlabOff pages fuel (n, headers)) .fault := by
  obtain ⟨hfull, hrest⟩ := not_or.mp h
  obtain ⟨hnil, hlater⟩ := not_or.mp hrest
  by_cases hne : headers = []
  · subst hne
    have hnone : pages (n + 1) = none := by
      by_contra hsome
      exact hnil ⟨rfl, hsome⟩
    refine .inr (Eventually.of_forall fun fuel => ?_)
    unfold allocSlabOff
    simp only [hpage, allocFrom_nil hnone, Outcome.done_bind]
  · have hnone : ∀ k, pages (n + 1 + k) = none := by
      intro k
      by_contra hsome
      exact hlater ⟨hne, _, le_add_right _ _, hsome⟩
    refine .inl (Eventually.of_forall fun fuel => ?_)
    unfold allocSlabOff
    simp only [hpage]
    rw [allocFrom_never (fun k => n + 1 + k) hfull hne fun k => allocSlabOn_none (hnone k)]
    rfl

/-! ### The result of `MemCacheAlloc` -/

theorem cacheAlloc_hasFree (pages : ℕ → Option ℕ) (headers : List Slab)
    (hfree : HasFree cache slabs) :
    ∃ obj, Eventually (cacheAlloc cache pages headers slabs) (.done (some obj)) := by
  by_cases hoff : cache.offslab = true
  · rw [funext (f := cacheAlloc cache pages headers slabs) fun _ => if_pos hoff]
    obtain ⟨obj, slabs', hdone⟩ :=
      allocFrom_hasFree (allocSlabOff pages) (0, headers) hfree
    exact ⟨obj, hdone.bind fun r => .done r.1⟩
  · rw [funext (f := cacheAlloc cache pages headers slabs) fun _ => if_neg hoff]
    obtain ⟨obj, slabs', hdone⟩ :=
      allocFrom_hasFree (fun _ => allocSlabOn pages) 0 hfree
    exact ⟨obj, hdone.bind fun r => .done r.1⟩

theorem cacheAlloc_nil (headers : List Slab) (hpage : pages 0 = none) :
    Eventually (cacheAlloc cache pages headers []) (.done none) := by
  refine Eventually.of_forall fun fuel => ?_
  unfold cacheAlloc
  split
  · rw [allocFrom, allocSlabOff_none hpage]
    rfl
  · rw [allocFrom_nil hpage]
    rfl

theorem cacheAlloc_never (headers : List Slab)
    (hfull : ¬ HasFree cache slabs) (hne : slabs ≠ []) (hpages : ∀ n, pages n = none) :
    Eventually (cacheAlloc cache pages headers slabs) .running := by
  refine Eventually.of_forall fun fuel => ?_
  unfold cacheAlloc
  split
  · rw [allocFrom_never (fun k => (k, headers)) hfull hne fun k =>
      allocSlabOff_none (hpages k) fuel headers]
    rfl
  · rw [allocFrom_never (fun k => k) hfull hne fun k => allocSlabOn_none (hpages k)]
    rfl

section

variable (hobjs : 0 < cache.numObjs)
include hobjs

section

variable (hfull : ¬ HasFree cache slabs)
include hfull

section

variable (hstart : slabs = [] → m = 0) (hfirst : FirstPage pages 0 m)
include hstart hfirst

/-- The call of `MemCacheAddSlab` with the first page decides for a cache with its
headers off the slabs. -/
theorem cacheAlloc_grow {x : Outcome (Option Slab × (ℕ × List Slab))} (hoff : cache.offslab = true)
    (hadd : Eventually (fun fuel => allocSlabOff pages fuel (m, headers)) x)
    (hnew : ∀ r, x = .done r → ∃ header page, r.1 = some (newSlab header page)) :
    Eventually (cacheAlloc cache pages headers slabs)
      ((x.bind (grown cache slabs)).bind fun r => .done r.1) := by
  have hfail : ∀ fuel, ∀ k < m, allocSlabOff pages fuel (k, headers) =
      .done (none, (k + 1, headers)) := by
    intro fuel k hk
    exact allocSlabOff_none (hfirst.2.2 k (zero_le k) hk) fuel headers
  rw [funext (f := cacheAlloc cache pages headers slabs) fun _ => if_pos hoff]
  exact (allocFrom_grow (fun k => (k, headers)) hobjs hfull hstart hfail hadd hnew).bind _

theorem cacheAlloc_first
    (hheader : cache.offslab = true → Obtains slabCache pages headers (m + 1)) :
    ∃ obj, Eventually (cacheAlloc cache pages headers slabs) (.done (some obj)) := by
  by_cases hoff : cache.offslab = true
  · obtain ⟨page, hpage⟩ := ne_none_iff_exists'.mp hfirst.2.1
    obtain ⟨header, t, hadd⟩ := allocSlabOff_obtains hpage (hheader hoff)
    refine ⟨_, cacheAlloc_grow hobjs hfull hstart hfirst hoff hadd ?_⟩
    rintro r hr
    cases hr
    exact ⟨header, page, rfl⟩
  · rw [funext (f := cacheAlloc cache pages headers slabs) fun _ => if_neg hoff]
    obtain ⟨obj, slabs', hdone⟩ := allocFrom_first hobjs hfull hstart hfirst
    exact ⟨obj, hdone.bind fun r => .done r.1⟩

theorem cacheAlloc_noHeader
    (hoff : cache.offslab = true) (hheader : ¬ Obtains slabCache pages headers (m + 1)) :
    Eventually (cacheAlloc cache pages headers slabs) .running ∨
      Eventually (cacheAlloc cache pages headers slabs) .fault := by
  obtain ⟨page, hpage⟩ := ne_none_iff_exists'.mp hfirst.2.1
  have hgrow := @cacheAlloc_grow slabs cache pages m headers hobjs hfull hstart hfirst
  rcases allocSlabOff_fails hpage hheader with hadd | hadd
  · exact .inl (hgrow hoff hadd fun r hr => by cases hr)
  · exact .inr (hgrow hoff hadd fun r hr => by cases hr)

end

end

end

end

/-! ## Caches of every size -/

/-- The objects of a cache fit behind the header into the pages that are mapped, and
into those that the rest of the code counts, and the bitmap has a bit for each. -/
structure CacheGeometry (cache : Cache) : Prop where
  numObjs_pos : 1 ≤ cache.numObjs
  mapped : cache.offset + cache.numObjs * cache.size ≤ slabPages cache * pageSize
  counted : cache.offset + cache.numObjs * cache.size ≤ cache.numPages * pageSize
  header : cache.offslab = false → sizeofSlab ≤ cache.offset
  bitmap : cache.numObjs ≤ maxObjectsPerSlab

/-- `MemCacheAlloc` returns, with an object if there is one or a slab can be mapped,
and with `NULL` if no memory can be mapped. -/
structure AllocWorks (cache : Cache) (pages : ℕ → Option ℕ) (headers slabs : List Slab) : Prop where
  returns : ∃ result, Eventually (cacheAlloc cache pages headers slabs) (.done result)
  object : HasFree cache slabs ∨ pages 0 ≠ none →
    ∃ obj, Eventually (cacheAlloc cache pages headers slabs) (.done (some obj))
  null : ¬ HasFree cache slabs → (∀ n, pages n = none) →
    Eventually (cacheAlloc cache pages headers slabs) (.done none)

/-- The cache has an object left; or it has no slabs and none can be mapped; or a
mapping succeeds, at once if it has no slabs, and a header is there if it lies off the
slab. -/
def AllocEnds (cache : Cache) (pages : ℕ → Option ℕ) (headers slabs : List Slab) : Prop :=
  HasFree cache slabs ∨ (slabs = [] ∧ pages 0 = none) ∨
    ∃ m, (slabs = [] → m = 0) ∧ FirstPage pages 0 m ∧
      (cache.offslab = true → Obtains slabCache pages headers (m + 1))

theorem allocWorks_iff (pages : ℕ → Option ℕ) (headers slabs : List Slab)
    (hobjs : 0 < cache.numObjs) :
    AllocWorks cache pages headers slabs ↔ AllocEnds cache pages headers slabs := by
  constructor
  · intro h
    by_contra hends
    obtain ⟨hfull, hrest⟩ := not_or.mp hends
    obtain ⟨hnil, hfirst⟩ := not_or.mp hrest
    obtain ⟨result, hdone⟩ := h.returns
    by_cases hpages : ∃ m, (slabs = [] → m = 0) ∧ FirstPage pages 0 m
    · obtain ⟨m, hstart, hpage⟩ := hpages
      have hheader : ¬ (cache.offslab = true → Obtains slabCache pages headers (m + 1)) :=
        fun hheader => hfirst ⟨m, hstart, hpage, hheader⟩
      obtain ⟨hoff, hheader⟩ := Classical.not_imp.mp hheader
      rcases cacheAlloc_noHeader hobjs hfull hstart hpage hoff hheader with hstuck | hstuck
      · cases hdone.unique hstuck
      · cases hdone.unique hstuck
    · have hne : slabs ≠ [] := by
        rintro rfl
        refine hpages ⟨0, fun _ => rfl, le_rfl, fun hnone => hnil ⟨rfl, hnone⟩, ?_⟩
        exact fun k _ hk => absurd hk (not_lt_zero k)
      have hnone : ∀ n, pages n = none := by
        intro n
        by_contra hsome
        obtain ⟨m, hm⟩ := exists_firstPage ⟨n, zero_le n, hsome⟩
        exact hpages ⟨m, fun hnil => absurd hnil hne, hm⟩
      cases hdone.unique (cacheAlloc_never headers hfull hne hnone)
  · intro h
    by_cases hfree : HasFree cache slabs
    · obtain ⟨obj, hdone⟩ := cacheAlloc_hasFree pages headers hfree
      exact ⟨⟨some obj, hdone⟩, fun _ => ⟨obj, hdone⟩, fun hfull => absurd hfree hfull⟩
    · rcases h.resolve_left hfree with ⟨rfl, hnone⟩ | ⟨m, hstart, hfirst, hheader⟩
      · have hdone : Eventually (cacheAlloc cache pages headers []) (.done none) :=
          cacheAlloc_nil headers hnone
        refine ⟨⟨none, hdone⟩, fun hsome => ?_, fun _ _ => hdone⟩
        exact absurd hnone (hsome.resolve_left hfree)
      · obtain ⟨obj, hdone⟩ := cacheAlloc_first hobjs hfree hstart hfirst hheader
        refine ⟨⟨some obj, hdone⟩, fun _ => ⟨obj, hdone⟩, fun _ hnone => ?_⟩
        exact absurd (hnone m) hfirst.2.1

end Grow

def createdCache (size : ℕ) (ctor : Option (ℕ → List UInt8)) (offslab : Bool) : Cache :=
  cacheDescriptor (max size slabMinObjectSize) ctor offslab

def cacheObjectSize (size : ℕ) : ℕ := (max size slabMinObjectSize + 3) / 4 * 4

/-- An object takes less than a page, or whole pages. -/
def FillsPages (size : ℕ) : Prop :=
  cacheObjectSize size ≤ pageSize ∨ pageSize ∣ cacheObjectSize size

section Sizes

variable {size : ℕ} (ctor : Option (ℕ → List UInt8)) (offslab : Bool)

theorem createdCache_size (hle : size ≤ 131072) :
    (createdCache size ctor offslab).size = cacheObjectSize size := by
  unfold createdCache cacheDescriptor cacheObjectSize slabMinObjectSize
  rw [dword_of_lt (by omega)]

theorem le_cacheObjectSize (size : ℕ) : 16 ≤ cacheObjectSize size := by
  unfold cacheObjectSize slabMinObjectSize
  omega

section

variable (hle : size ≤ 131072)
include hle

theorem createdCache_numPages :
    (createdCache size ctor offslab).numPages =
      if pageSize < cacheObjectSize size then cacheObjectSize size / pageSize else 1 := by
  rw [← createdCache_size ctor offslab hle]
  rfl

theorem createdCache_numObjs :
    (createdCache size ctor offslab).numObjs =
      ((createdCache size ctor offslab).numPages * pageSize -
        (createdCache size ctor offslab).offset) / cacheObjectSize size := by
  rw [← createdCache_size ctor offslab hle]
  rfl

theorem createdCache_offset :
    (createdCache size ctor offslab).offset = 0 ∨
      (createdCache size ctor offslab).offset = 48 ∧ cacheObjectSize size < 1024 := by
  have hsize := createdCache_size ctor offslab hle
  unfold createdCache cacheDescriptor at hsize ⊢
  simp only at hsize ⊢
  rw [hsize]
  split
  · exact .inl rfl
  · next hoff =>
    rw [Bool.or_eq_true, decide_eq_true_eq, not_or] at hoff
    exact .inr ⟨rfl, Nat.lt_of_not_le hoff.2⟩

theorem createdCache_numObjs_pos_iff :
    0 < (createdCache size ctor offslab).numObjs ↔ FillsPages size := by
  have hmin := le_cacheObjectSize size
  have hoffset := createdCache_offset ctor offslab hle
  have hpages := createdCache_numPages ctor offslab hle
  rw [createdCache_numObjs ctor offslab hle, Nat.div_pos_iff]
  unfold FillsPages
  generalize (createdCache size ctor offslab).offset = offset at hoffset ⊢
  generalize (createdCache size ctor offslab).numPages = numPages at hpages ⊢
  generalize cacheObjectSize size = n at hmin hoffset hpages ⊢
  split at hpages
  · next hlarge =>
    -- a large object has its header elsewhere and needs the pages counted for it
    unfold pageSize at *
    omega
  · unfold pageSize at *
    omega

theorem createdCache_numObjs_le : (createdCache size ctor offslab).numObjs ≤ maxObjectsPerSlab := by
  have hmin := le_cacheObjectSize size
  have hpages := createdCache_numPages ctor offslab hle
  rw [createdCache_numObjs ctor offslab hle]
  generalize (createdCache size ctor offslab).offset = offset
  generalize (createdCache size ctor offslab).numPages = numPages at hpages ⊢
  generalize cacheObjectSize size = n at hmin hpages ⊢
  have hbytes : numPages * pageSize - offset ≤ maxObjectsPerSlab * n := by
    unfold maxObjectsPerSlab slabMinObjectSize
    split at hpages <;> unfold pageSize at * <;> omega
  calc (numPages * pageSize - offset) / n ≤ maxObjectsPerSlab * n / n := Nat.div_le_div_right hbytes
    _ = maxObjectsPerSlab := Nat.mul_div_cancel _ (by omega)

theorem createdCache_geometry_iff :
    CacheGeometry (createdCache size ctor offslab) ↔ FillsPages size := by
  constructor
  · intro h
    exact (createdCache_numObjs_pos_iff ctor offslab hle).mp h.numObjs_pos
  · intro h
    have hobjs : 0 < (createdCache size ctor offslab).numObjs :=
      (createdCache_numObjs_pos_iff ctor offslab hle).mpr h
    have hwell := cacheDescriptor_wellformed hobjs
    exact
      { numObjs_pos := hobjs
        mapped := hwell.pages.symm ▸ hwell.fits
        counted := hwell.fits
        header := fun hon => (hwell.header hon).ge
        bitmap := createdCache_numObjs_le ctor offslab hle }

end

end Sizes

/-- A cache of any size works exactly when its objects fill pages without a remainder,
and memory is there when it is needed. -/
theorem cacheWorks_iff (size : ℕ) (ctor : Option (ℕ → List UInt8)) (offslab : Bool)
    (pages : ℕ → Option ℕ) (headers slabs : List Slab) (hle : size ≤ 131072) :
    CacheGeometry (createdCache size ctor offslab) ∧
        AllocWorks (createdCache size ctor offslab) pages headers slabs ↔
      FillsPages size ∧ AllocEnds (createdCache size ctor offslab) pages headers slabs := by
  constructor
  · rintro ⟨hgeometry, hworks⟩
    exact ⟨(createdCache_geometry_iff ctor offslab hle).mp hgeometry,
      (allocWorks_iff pages headers slabs hgeometry.numObjs_pos).mp hworks⟩
  · rintro ⟨hfills, hends⟩
    have hgeometry := (createdCache_geometry_iff ctor offslab hle).mpr hfills
    exact ⟨hgeometry, (allocWorks_iff pages headers slabs hgeometry.numObjs_pos).mpr hends⟩

/-- A fresh cache for objects of 100 bytes. -/
theorem cacheWorks_hundred :
    CacheGeometry (createdCache 100 none false) ∧
      AllocWorks (createdCache 100 none false) (fun n => some (n * 4096)) [] [] := by
  refine (cacheWorks_iff 100 none false _ [] [] (by decide)).mpr
    ⟨.inl (by decide), .inr (.inr ⟨0, fun _ => rfl, ?_, ?_⟩)⟩
  · exact ⟨le_rfl, some_ne_none _, fun k _ hk => absurd hk (not_lt_zero k)⟩
  · exact fun hoff => absurd hoff (by decide)

/-- A cache for objects of 5000 bytes has none, and a cache whose only slab is full never
comes to an end when no page can be mapped. -/
theorem not_cacheWorks :
    ¬ CacheGeometry (createdCache 5000 none false) ∧
      ¬ AllocWorks (createdCache 2048 none false) (fun _ => none) []
        [⟨0, 0, true, fun _ => true⟩] := by
  constructor
  · intro h
    exact absurd h.numObjs_pos (by decide)
  · intro h
    obtain ⟨result, hdone⟩ := h.returns
    have hfull : ¬ HasFree (createdCache 2048 none false) [⟨0, 0, true, fun _ => true⟩] := by decide
    cases hdone.unique (cacheAlloc_never [] hfull nofun fun _ => rfl)

end Whitix.SlabAlloc
