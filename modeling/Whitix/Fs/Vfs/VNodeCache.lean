import Whitix.Include.Error
import Whitix.Support.CircularList
import Whitix.Support.RefCount
import Whitix.Support.Run
import Whitix.Support.Word

/-!
# The vnode cache

Every superblock links its vnodes in memory into `vNodeList`.  `VNodeGet` looks
an identifier up in the list and reads the vnode in if it is not there;
`VNodeRelease` frees a vnode with its last reference.

All superblocks are modelled together, since they share the slab cache of
vnodes.  Links are kept for list heads and vnodes alike, and the contents of
a vnode also for objects that are free: the slab constructs an object when it is
freed, not when it is allocated.  Operations are not interleaved, so that a wait
for a locked vnode never ends.  What a filesystem does in `readVNode`, the
object the slab returns and the number of iterations the walk along a list
takes are parameters of an operation.
-/

namespace Whitix.VNodeCache

open Support

/-! ## Data -/

/-- A list head or the link field of a vnode. -/
inductive Node
  | vNodeList (superBlock : ℕ)
  | vNode (addr : ℕ)
  deriving DecidableEq, Repr

/-- `struct VNode`, as far as the cache uses it. -/
structure VNode where
  id : ℕ
  refs : ℕ
  dirty : Bool
  locked : Bool
  superBlock : Option ℕ
  deriving DecidableEq, Repr

/-- The objects of the vnode slab with their links and contents, the ones that
are allocated, and the number of references that callers hold. -/
structure System where
  links : Links Node
  vNodes : ℕ → VNode
  allocated : Finset ℕ
  held : ℕ → ℕ

def vNodeCtor : VNode where
  id := 2 ^ 32 - 1
  refs := 1
  dirty := false
  locked := false
  superBlock := none

variable (s : System)

section

variable (a : ℕ) (vNode superBlock : Option ℕ)

def System.setVNode (v : VNode) : System :=
  { s with vNodes := Function.update s.vNodes a v }

def System.setRefs (a refs : ℕ) : System :=
  s.setVNode a { s.vNodes a with refs := refs }

def memCacheFree : System :=
  { s with
    links := s.links.init (.vNode a)
    vNodes := Function.update s.vNodes a vNodeCtor
    allocated := s.allocated.erase a }

/-! ## Finding and reading -/

/-- The reference it takes is dropped before it returns. -/
def vNodeWaitOn : Option System :=
  if (s.vNodes a).locked then none else some s

/-- The loop of `VNodeFind` for at most `fuel` iterations.  A walk that comes
to the head of another list takes it for a vnode. -/
def vNodeFindLoop (s : System) (superBlock id : ℕ) : ℕ → Node → Option (Option ℕ)
  | 0, _ => none
  | _ + 1, .vNodeList other => if other = superBlock then some none else none
  | fuel + 1, .vNode a =>
    if (s.vNodes a).id = id then some (some a)
    else vNodeFindLoop s superBlock id fuel (s.links.next (.vNode a))

def vNodeFind (superBlock id fuel : ℕ) : Option (Option ℕ × System) :=
  match vNodeFindLoop s superBlock id fuel (s.links.next (.vNodeList superBlock)) with
  | none => none
  | some none => some (none, s)
  | some (some a) =>
    (vNodeWaitOn (s.setRefs a (dword ((s.vNodes a).refs + 1))) a).map fun s => (some a, s)

/-- `VNodeAlloc`, with the object the slab returns.  The slab returns no object
that is in use. -/
def vNodeAlloc (superBlock id : ℕ) (addr : Option ℕ) : Option (Option ℕ × System) :=
  match addr with
  | none => some (none, s)
  | some a =>
    if a ∈ s.allocated ∨ (s.vNodes a).locked then none
    else
      some (some a,
        { s with
          links := s.links.addTail (.vNode a) (.vNodeList superBlock)
          vNodes := Function.update s.vNodes a
            { s.vNodes a with
              id := id, superBlock := some superBlock, locked := true }
          allocated := insert a s.allocated })

/-- What the function of the filesystem returns, `-ENOTIMPL` if it has none, and
whether it marks the vnode as dirty. -/
structure ReadResult where
  ret : ℤ
  dirty : Bool
  deriving DecidableEq, Repr

def vNodeRead (r : ReadResult) : ℤ × System :=
  match vNode with
  | none => (-EFAULT, s)
  | some a =>
    (r.ret, s.setVNode a
      { s.vNodes a with
        dirty := (s.vNodes a).dirty || r.dirty, locked := false })

/-- `VNodeReadWithData` calls another function of the filesystem. -/
def vNodeReadWithData (r : ReadResult) : ℤ × System :=
  vNodeRead s vNode r

/-- The common text of `VNodeGet` and `VNodeGetWithData`. -/
def vNodeGetBy (read : System → Option ℕ → ℤ × System) (s : System) (superBlock : Option ℕ)
    (id fuel : ℕ) (addr : Option ℕ) : Option (Option ℕ × System) :=
  match superBlock with
  | none => some (none, s)
  | some superBlock =>
    match vNodeFind s superBlock id fuel with
    | none => none
    | some (some a, s) => some (some a, s)
    | some (none, s) =>
      (vNodeAlloc s superBlock id addr).map fun (curr, s) =>
        if (read s curr).1 ≠ 0 then
          (none, match curr with
            | none => (read s curr).2
            | some a => memCacheFree (read s curr).2 a)
        else (curr, (read s curr).2)

def vNodeGet (id fuel : ℕ) (addr : Option ℕ) (r : ReadResult) : Option (Option ℕ × System) :=
  vNodeGetBy (fun s vNode => vNodeRead s vNode r) s superBlock id fuel addr

def vNodeGetWithData (id fuel : ℕ)
    (addr : Option ℕ) (r : ReadResult) : Option (Option ℕ × System) :=
  vNodeGetBy (fun s vNode => vNodeReadWithData s vNode r) s superBlock id fuel addr

/-! ## Releasing -/

def vNodeWrite : Option System :=
  if (s.vNodes a).dirty then
    if (s.vNodes a).locked then none
    else some (s.setVNode a { s.vNodes a with dirty := false })
  else some s

/-- The part of `VNodeRelease` from the label `repeat` on. -/
def vNodeReleaseLoop (s : System) (a : ℕ) : ℕ → Option System
  | 0 => none
  | fuel + 1 =>
    if 1 < (s.vNodes a).refs then
      some (s.setRefs a ((s.vNodes a).refs - 1))
    else if (s.vNodes a).dirty then
      (vNodeWrite s a).bind fun s =>
        (vNodeWaitOn s a).bind fun s => vNodeReleaseLoop s a fuel
    else if (s.vNodes a).refs - 1 ≠ 0 then
      some (s.setRefs a ((s.vNodes a).refs - 1))
    else
      some (memCacheFree { s with links := s.links.remove (.vNode a) } a)

/-- `VNodeRelease` of a vnode.  `VNodeWrite` clears the dirty flag, so the loop
is passed twice at most. -/
def vNodeRelease : Option System :=
  (vNodeWaitOn s a).bind fun s =>
    if (s.vNodes a).refs = 0 then some s else vNodeReleaseLoop s a 2

/-! ## Runs -/

inductive Op
  | get (superBlock : Option ℕ) (id fuel : ℕ) (addr : Option ℕ)
      (r : ReadResult)
  | getWithData (superBlock : Option ℕ) (id fuel : ℕ) (addr : Option ℕ)
      (r : ReadResult)
  | release (a : ℕ)
  | setDirty (a : ℕ)
  deriving DecidableEq, Repr

/-- The caller holds the reference it gets. -/
def hold (s : System) : System :=
  match vNode with
  | none => s
  | some a => { s with held := acquire s.held a }

/-- Only a holder of a reference releases a vnode or changes it. -/
def step : Op → Option System
  | .get superBlock id fuel addr r =>
    (vNodeGet s superBlock id fuel addr r).map fun x => hold x.1 x.2
  | .getWithData superBlock id fuel addr r =>
    (vNodeGetWithData s superBlock id fuel addr r).map fun x => hold x.1 x.2
  | .release a =>
    if s.held a = 0 then none
    else (vNodeRelease s a).map fun s =>
      { s with held := release s.held a }
  | .setDirty a =>
    if s.held a = 0 then none
    else some (s.setVNode a { s.vNodes a with dirty := true })

/-- No vnode is allocated, and all lists are empty. -/
def System.boot : System where
  links := ⟨id, id⟩
  vNodes := fun _ => vNodeCtor
  allocated := ∅
  held := fun _ => 0

/-! ## Consistency -/

/-- The list of every superblock is well formed and has exactly its allocated
vnodes, no two of which have the same identifier. -/
structure Listed (s : System) : Prop where
  lists : ∀ superBlock, ∃ addrs : List ℕ,
    Circular s.links (.vNodeList superBlock) (addrs.map .vNode) ∧ ∀ a, a ∈ addrs ↔
        a ∈ s.allocated ∧ (s.vNodes a).superBlock = some superBlock
  listed : ∀ a ∈ s.allocated, ∃ superBlock, (s.vNodes a).superBlock = some superBlock
  ids : ∀ a ∈ s.allocated, ∀ b ∈ s.allocated, (s.vNodes a).superBlock = (s.vNodes b).superBlock →
      (s.vNodes a).id = (s.vNodes b).id → a = b

/-- All allocated vnodes are in use, and no walk along a list leads to a vnode that is
not allocated. -/
structure Consistent (s : System) : Prop extends Listed s where
  refs : ∀ a ∈ s.allocated, 0 < (s.vNodes a).refs
  reachable : ∀ superBlock k a,
    s.links.next^[k] (.vNodeList superBlock) = .vNode a → a ∈ s.allocated

def System.cached (superBlock id : ℕ) : Finset ℕ :=
  s.allocated.filter fun a =>
    (s.vNodes a).superBlock = some superBlock ∧ (s.vNodes a).id = id

/-- On a cached identifier the cached vnode is returned, with one more
reference and nothing else changed, once the walk has had enough
iterations. -/
def GetsCached : Prop :=
  ∀ superBlock id, ∀ a ∈ s.cached superBlock id,
    (s.vNodes a).refs + 1 < 2 ^ 32 → ∃ n, ∀ fuel ≥ n, ∀ addr r,
      vNodeGet s (some superBlock) id fuel addr r =
          some (some a, s.setRefs a ((s.vNodes a).refs + 1)) ∧
        vNodeGetWithData s (some superBlock) id fuel addr r =
          some (some a, s.setRefs a ((s.vNodes a).refs + 1))

/-- A vnode that is not cached and gets an object is read without an error, and
the references to one that is cached can still be counted. -/
def Reads (id : ℕ) (addr : Option ℕ) (r : ReadResult) : Prop :=
  ∀ x ∈ superBlock, (∀ a ∈ s.cached x id, (s.vNodes a).refs + 1 < 2 ^ 32) ∧
      (s.cached x id = ∅ → addr ≠ none → r.ret = 0)
  deriving Decidable

end

def ReadSucceeds : Op → Prop
  | .get superBlock id _ addr r => Reads s superBlock id addr r
  | .getWithData superBlock id _ addr r => Reads s superBlock id addr r
  | _ => True

instance (s : System) : (op : Op) → Decidable (ReadSucceeds s op)
  | .get .. | .getWithData .. => inferInstanceAs (Decidable (Reads ..))
  | .release _ | .setDirty _ => isTrue trivial

end Whitix.VNodeCache
