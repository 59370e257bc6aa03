import Whitix.Include.Error
import Whitix.Include.Page
import Whitix.Support.Memory

/-!
# The slab allocator

`memory/slab.c` carves pages into objects of one size.  A cache owns a list of
slabs, and a slab is a run of pages with a bitmap of the objects in use.  The
`struct Slab` of a slab lies at the start of its pages, or, for large objects,
is itself an object of the cache `slabCache`.

The slab lists are circular, and `cache->slabs` points to the slab created
first.  The allocator walks them backwards, while new slabs are linked in
behind the first one: in the order of the walk a new slab comes last.  This is
the order of the lists here.

The contents of the `struct Slab` and `struct Cache` records are kept apart
from the memory of the objects.  The addresses of these records are part of the
model, so that the theorems can say that no object in use overlaps them.
-/

namespace Whitix.SlabAlloc

open Support List

/-! ## Data -/

def sizeofSlab : ℕ := 48

def sizeofCache : ℕ := 68

def slabMinObjectSize : ℕ := 16

structure Slab where
  header : ℕ
  page : ℕ
  isFull : Bool
  bitmap : ℕ → Bool

/-- `struct Cache` without its name, its destructor and its kernel object.  A
constructor is given by the bytes it stores at an object. -/
structure Cache where
  size : ℕ
  numPages : ℕ
  numObjs : ℕ
  offset : ℕ
  offslab : Bool
  ctor : Option (ℕ → List UInt8)
  slabs : List Slab

/-- The static `cacheCache`, from which cache descriptors are allocated. -/
def cacheCache : Cache where
  size := sizeofCache
  numPages := 1
  numObjs := (pageSize - sizeofSlab) / sizeofCache
  offset := sizeofSlab
  offslab := false
  ctor := none
  slabs := []

/-- The caches in order of their creation, `cacheCache` first and `slabCache`
second, the memory, and the page runs mapped so far with their numbers of
pages.

For every object in use there is its cache and its address: in `live` if it was
returned to a caller, in `internal` if it is a slab header or a descriptor. -/
structure SlabSystem where
  caches : List Cache
  mem : ℕ → UInt8
  runs : List (ℕ × ℕ)
  live : List (ℕ × ℕ)
  internal : List (ℕ × ℕ)

section

variable (cache : Cache) (slab : Slab)

def objAddr (i : ℕ) : ℕ :=
  slab.page + cache.offset + i * cache.size

def slabPages : ℕ :=
  if pageSize < cache.size then pageAlignUp cache.size / pageSize else 1

def zeroMemory (mem : ℕ → UInt8) (addr len : ℕ) : ℕ → UInt8 :=
  overwrite mem addr (replicate len 0)

/-! ## Allocation -/

def slabFirstFree : Option ℕ :=
  if slab.isFull then none
  else (range cache.numObjs).find? fun i => !slab.bitmap i

def slabTake (i : ℕ) : Slab :=
  { slab with
    bitmap := Function.update slab.bitmap i true
    isFull := if i = cache.numObjs - 1 then true else slab.isFull }

end

def memCacheScan (cache : Cache) : List Slab → Option (ℕ × List Slab)
  | [] => none
  | slab :: rest =>
    match slabFirstFree cache slab with
    | some i => some (objAddr cache slab i, slabTake cache slab i :: rest)
    | none => (memCacheScan cache rest).map fun r => (r.1, slab :: r.2)

variable (s : SlabSystem) (cache : Cache) (mem : ℕ → UInt8)

def memCacheTake (c : ℕ) (cache : Cache) : Option (ℕ × SlabSystem) :=
  (memCacheScan cache cache.slabs).map fun r =>
    (r.1,
      { s with
        caches := s.caches.set c { cache with slabs := r.2 }
        mem := if cache.ctor.isNone then zeroMemory s.mem r.1 cache.size
          else s.mem })

def constructMemory (page : ℕ) (mem : ℕ → UInt8) : ℕ → UInt8 :=
  match cache.ctor with
  | some ctor =>
    (range cache.numObjs).foldl (fun mem i =>
        let obj := page + cache.offset + i * cache.size
        overwrite mem obj (ctor obj))
      mem
  | none =>
    zeroMemory mem (page + cache.offset) (cache.numPages * pageSize - cache.offset)

/-- `MemCacheAddSlab` once the pages and the header have been allocated. -/
def memCacheLinkSlab (c : ℕ) (cache : Cache) (page header : ℕ) : SlabSystem :=
  { s with
    caches := s.caches.set c
      { cache with slabs := cache.slabs ++ [⟨header, page, false, fun _ => false⟩] }
    mem := constructMemory cache page (zeroMemory s.mem header sizeofSlab) }

/-- `MemCacheAlloc`, given the pages the mapping of a new slab returns, if it
succeeds, and the allocation of a header for it.

When the mapping fails, a cache without slabs returns `NULL`.  Otherwise the
walk starts over again and never ends. -/
def memCacheAllocWith (getHeader : SlabSystem → ℕ → Option (ℕ × SlabSystem)) (s : SlabSystem)
    (c : ℕ) (page : Option ℕ) : Option (Option ℕ × SlabSystem) :=
  match s.caches[c]? with
  | none => some (none, s)
  | some cache =>
    match memCacheTake s c cache with
    | some r => some (some r.1, r.2)
    | none =>
      match page with
      | none => if cache.slabs.length = 0 then some (none, s) else none
      | some page =>
        (getHeader { s with runs := (page, slabPages cache) :: s.runs } page).bind fun r =>
          let s' := memCacheLinkSlab r.2 c cache page r.1
          match s'.caches[c]? with
          | none => none
          | some cache' =>
            (memCacheTake s' c cache').map fun r => (some r.1, r.2)

def headerOnSlab (page : ℕ) : Option (ℕ × SlabSystem) :=
  some (page, s)

/-- The header is an object of `slabCache`; zeroing a header at `NULL`
faults. -/
def headerOffSlab (headerPage : Option ℕ) (s : SlabSystem) (_ : ℕ) : Option (ℕ × SlabSystem) :=
  match memCacheAllocWith headerOnSlab s 1 headerPage with
  | some (some header, s') =>
    some (header, { s' with internal := (1, header) :: s'.internal })
  | _ => none

/-- `MemCacheAlloc` of cache number `c`.  A new slab of the cache is mapped at
`page`, and one of `slabCache` for its header at `headerPage`. -/
def memCacheAlloc (c : ℕ) (page headerPage : Option ℕ) : Option (Option ℕ × SlabSystem) :=
  if (s.caches[c]?.map Cache.offslab).getD false then
    memCacheAllocWith (headerOffSlab headerPage) s c page
  else memCacheAllocWith headerOnSlab s c page

/-! ## Freeing -/

def slabFree (slab : Slab) (addr : ℕ) : Slab :=
  { slab with
    bitmap := Function.update slab.bitmap ((addr - (slab.page + cache.offset)) / cache.size) false
    isFull := false }

/-- `SlabFree` on the memory: the object is constructed anew or zeroed. -/
def resetMemory (addr : ℕ) : ℕ → UInt8 :=
  match cache.ctor with
  | some ctor => overwrite mem addr (ctor addr)
  | none => zeroMemory mem addr cache.size

def memCacheFreeWalk (cache : Cache) (addr : ℕ) : List Slab → Option (List Slab)
  | [] => none
  | slab :: rest =>
    if slab.page + cache.offset ≤ addr ∧ addr < slab.page + cache.numPages * pageSize then
      some (slabFree cache slab addr :: rest)
    else (memCacheFreeWalk cache addr rest).map (slab :: ·)

def memCacheFree (c addr : ℕ) : ℤ × SlabSystem :=
  match s.caches[c]? with
  | none => (-EFAULT, s)
  | some cache =>
    if addr = 0 then (-EFAULT, s)
    else
      match memCacheFreeWalk cache addr cache.slabs with
      | none => (-EFAULT, s)
      | some slabs =>
        (0,
          { s with
            caches := s.caches.set c { cache with slabs := slabs }
            mem := resetMemory cache s.mem addr })

/-! ## Creation of caches -/

/-- The descriptor `MemCacheCreate` fills in, for an object size of at least
`SLAB_MIN_OBJECT_SIZE`. -/
def cacheDescriptor (size : ℕ) (ctor : Option (ℕ → List UInt8)) (offslab : Bool) : Cache :=
  let size := dword (size + 3) / 4 * 4
  let numPages := if pageSize < size then size / pageSize else 1
  let offslab := offslab || decide (pageSize / 4 ≤ size)
  let offset := if offslab then 0 else sizeofSlab
  { size := size
    numPages := numPages
    numObjs := (numPages * pageSize - offset) / size
    offset := offset
    offslab := offslab
    ctor := ctor
    slabs := [] }

/-- A descriptor at `NULL` faults.  A size of zero creates nothing. -/
def memCacheCreate (size : ℕ) (ctor : Option (ℕ → List UInt8)) (offslab : Bool) (page : Option ℕ) :
    Option SlabSystem :=
  if size = 0 then some s
  else
    match memCacheAlloc s 0 page none with
    | some (some descriptor, s') =>
      some { s' with
        caches := s'.caches ++ [cacheDescriptor (max size slabMinObjectSize) ctor offslab]
        internal := (0, descriptor) :: s'.internal }
    | _ => none

def SlabSystem.boot : SlabSystem where
  caches := [cacheCache]
  mem := mem
  runs := []
  live := []
  internal := []

/-- The part of `SlabInit` that creates `slabCache`. -/
def slabInit (page : Option ℕ) : Option SlabSystem :=
  memCacheCreate (SlabSystem.boot mem) sizeofSlab none false page

end Whitix.SlabAlloc
