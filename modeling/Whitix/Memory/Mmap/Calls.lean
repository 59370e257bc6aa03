import Whitix.Include.Error
import Whitix.Memory.Mmap.Area

/-!
# Mapping, unmapping and protecting memory

The calls of `memory/mmap.c` on the area list of one process.  `none` stands
for a call that does not return.

The results of the allocations from the area cache are parameters of the
calls.  `MMapUnmap` walks along the list while `MMapUnmapArea` inserts into
it; the position of the next area is therefore moved whenever something is
inserted in front of it.
-/

namespace Whitix.Mmap

open Support

/-! ## Unmapping -/

/-- The list with a position in it. -/
abbrev Cursor := List VMArea × ℕ

/-- `MMapAddArea`, where the area at the position stays the same one. -/
def Cursor.add (s : Cursor) (area : VMArea) : Cursor :=
  (mmapAddArea s.1 area, if (s.1.takeWhile fun curr => curr.start ≤ area.start).length ≤ s.2 then
      s.2 + 1
    else s.2)

/-- The last lines of `MMapUnmapArea`: add a copy of the area, if there is
memory for it. -/
def mmapReadd (ok : Bool) (s : Cursor) (area : VMArea) : Cursor :=
  if ok then s.add area else s

/-- `MMapUnmapArea` of an area already taken out of the list.  `alloc` tells
which allocations succeed. -/
def mmapUnmapArea (alloc : ℕ → Bool) (s : Cursor) (area : VMArea) (start len : ℕ) : Cursor :=
  let finish := dword (start + len)
  let areaEnd := dword (area.start + area.length)
  -- The upper part keeps the whole length of the area.
  let upper : VMArea :=
    { area with
      offset := dword (area.offset + dwordSub finish area.start)
      start := finish }
  if area.start = start ∧ area.length = len then s
  else if area.start ≤ start ∧ finish = areaEnd then
    mmapReadd (alloc 0) s { area with length := dwordSub area.length (dwordSub areaEnd start) }
  else if start = area.start ∧ finish ≤ areaEnd then
    mmapReadd (alloc 0) s upper
  else if area.start < start ∧ finish < areaEnd then
    if alloc 0 then
      mmapReadd (alloc 1) (s.add upper) { area with length := dwordSub finish area.start }
    else s
  else mmapReadd (alloc 0) s area

/-- The loop of `MMapUnmap`; `alloc n` belongs to its `n`-th iteration. -/
def mmapUnmapLoop (alloc : ℕ → ℕ → Bool) (start len : ℕ) :
    ℕ → ℕ → Cursor → ℕ → Option (List VMArea × ℤ)
  | 0, _, _, _ => none
  | fuel + 1, n, s, currLen =>
    if currLen = 0 then some (s.1, 0)
    else
      match s.1[s.2]? with
      | none => none
      | some area =>
        let currStart := if start < area.start then area.start else start
        let finish := min (dword (start + len)) (dword (area.start + area.length))
        let s' := mmapUnmapArea (alloc n) (s.1.eraseIdx s.2, s.2) area
          currStart (dwordSub finish currStart)
        if s.2 + 1 = s.1.length then some (s'.1, -EINVAL)
        else mmapUnmapLoop alloc start len fuel (n + 1) s'
          (dwordSub currLen (dwordSub finish start))

def UnmapRejected (start len : ℕ) : Prop :=
  start % pageSize ≠ 0 ∨ mmapEnd < start ∨ mmapEnd - start < len ∨ len = 0
  deriving Decidable

/-- Every iteration takes one area off the list, so the number of areas bounds the
number of iterations. -/
def mmapUnmap (alloc : ℕ → ℕ → Bool) (areaList : List VMArea)
    (start len : ℕ) : Option (List VMArea × ℤ) :=
  if UnmapRejected start len then some (areaList, -EINVAL)
  else
    match vmLookupAddress areaList start with
    | none => some (areaList, -EFAULT)
    | some i =>
      match areaList[i]? with
      | none => none
      | some area =>
        if dword (start + len) ≤ area.start then some (areaList, 0)
        else mmapUnmapLoop alloc start len (areaList.length + 1) 0 (areaList, i) len

def sysMemoryUnmap (alloc : ℕ → ℕ → Bool) (areaList : List VMArea)
    (address length : ℕ) : Option (List VMArea × ℤ) :=
  mmapUnmap alloc areaList address (pageAlignUp length)

/-! ## Mapping -/

/-- The arguments of `MMapDo`.  A node is given by its address and whether its
mode says it is a file. -/
structure MapArgs where
  vNode : Option (ℕ × Bool)
  address : ℕ
  length : ℕ
  protection : ℕ
  offset : ℕ
  flags : ℕ
  areaOps : ℕ
deriving DecidableEq, Repr

/-- What the kernel around `MMapDo` answers: whether its own area can be
allocated, the allocations of `MMapUnmap`, and the node of the zero device. -/
structure MapEnv where
  area : Bool
  alloc : ℕ → ℕ → Bool
  zero : Option ℕ

section

variable (env : MapEnv) (alloc : Bool) (areaList : List VMArea) (args : MapArgs)

def mmapDoNode : Option (ℕ × ℕ) :=
  match args.vNode with
  | some (node, isFile) =>
    if args.flags &&& mmapGrowdown ≠ 0 then none
    else if isFile then some (node, args.flags)
    else none
  | none => env.zero.map fun node => (node, args.flags ||| mmapAnon)

def mmapDoAddress : ℕ :=
  pageAlign (if args.flags &&& mmapFixed = 0 then
      mmapFindAddress areaList (pageAlignUp args.length)
    else args.address)

def mmapDo : Option (List VMArea × ℕ) :=
  if env.area = false ∨ args.length = 0 then some (areaList, 0)
  else
    let length := pageAlignUp args.length
    let address := mmapDoAddress areaList args
    if address < mmapBase ∨ mmapEnd ≤ address then some (areaList, 0)
    else
      match mmapDoNode env args with
      | none => some (areaList, 0)
      | some (vNode, flags) =>
        let area : VMArea :=
          { start := address
            length := length
            offset := args.offset
            flags := flags
            protection := args.protection
            vNode := vNode
            areaOps := args.areaOps }
        (mmapUnmap env.alloc areaList address length).map fun r =>
          (mmapMergeMappings (r.1.takeWhile fun curr => curr.start ≤ area.start) area
            (r.1.dropWhile fun curr => curr.start ≤ area.start), address)

/-- `file` is `none` for a bad descriptor and `some none` for the descriptor `-1`. -/
def sysMemoryMap (file : Option (Option (ℕ × Bool))) (address length protection offset flags : ℕ) :
    Option (List VMArea × ℕ) :=
  match file with
  | none => some (areaList, 0)
  | some vNode =>
    mmapDo env areaList
      { vNode := vNode
        address := pageAlign address
        length := pageAlignUp length
        protection := protection ||| pageUser
        offset := offset
        flags := flags
        areaOps := 0 }

/-! ## Protection -/

/-- Copying to a failed allocation faults. -/
def mmapProtectionFixStart (i : ℕ)
    (area : VMArea) (finish protection : ℕ) : Option (List VMArea × ℤ) :=
  if alloc then
    some (mmapAddArea (areaList.set i
        { area with
          length := dwordSub finish area.start
          protection := protection })
      { area with
        offset := dword (area.offset + dwordSub finish area.start / pageSize)
        start := finish }, 0)
  else none

/-- `MMapProtectionChange`, which halts the machine in the case it leaves to
be done. -/
def mmapProtectionChange (i : ℕ) (area : VMArea) (start finish protection : ℕ) :
    Option (List VMArea × ℤ) :=
  if protection = area.protection then some (areaList, 0)
  else if start = area.start then
    if finish = dword (area.start + area.length) then
      some (areaList.set i { area with protection := protection }, 0)
    else mmapProtectionFixStart alloc areaList i area finish protection
  else if protection ≠ 4 then none
  else some (areaList, -ENOTIMPL)

/-- Its loop never ends when the range passes the end of the area. -/
def sysMemoryProtect (start length protection : ℕ) : Option (List VMArea × ℤ) :=
  let finish := dword (start + pageAlignUp length)
  if start % pageSize ≠ 0 then some (areaList, -EINVAL)
  else if finish < start then some (areaList, -EINVAL)
  else if start = finish then some (areaList, 0)
  else
    match vmLookupAddress areaList start with
    | none => some (areaList, -EFAULT)
    | some i =>
      match areaList[i]? with
      | none => none
      | some area =>
        if finish ≤ dword (area.start + area.length) then
          mmapProtectionChange alloc areaList i area start finish (protection ||| pageUser)
        else none

end

end Whitix.Mmap
