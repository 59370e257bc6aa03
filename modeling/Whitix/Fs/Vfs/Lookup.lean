import Whitix.Include.Error
import Whitix.Support.RefCount

/-!
# Path resolution

`NameToVNode` of `fs/vfs/vnode.c` finds or creates the vnode of a path.
`DirNameVNode` walks along the directories of the path, and `VfsDoLookup`
looks up one name in one directory, follows mount points and symbolic links,
and drops a reference to the directory.

The filesystems are a parameter: `lookup`, `create` and `followLink` return a
vnode with one more reference, and take no reference when they fail.  Nothing
but the reference counts changes during a call.
-/

namespace Whitix.Vfs

open Support

/-! ## Data -/

def attrDir : ℕ := 2

def attrSoftLink : ℕ := 128

def fileCreateOpen : ℕ := 4

def fileForceCreate : ℕ := 16

def fileDirectory : ℕ := 32

/-- `PATH_MAX` -/
def pathMax : ℕ := 2048

/-- The result of `followLink`.  A failure may clear the pointer to the link
or leave it. -/
inductive LinkResult where
  | target (v : ℕ)
  | failed (e : ErrorCode) (cleared : Bool)

/-- The functions of `struct VNodeOps` that path resolution calls, for one
vnode; any of them may be missing. -/
structure VNodeOps where
  lookup : Option (List Char → Except ErrorCode ℕ)
  create : Option (List Char → Except ErrorCode ℕ)
  followLink : Option LinkResult

/-- The vnodes of the mounted filesystems, and the root and the working
directory of the process.  For a vnode, `mount` is the root of its filesystem
and `covered` the vnode this filesystem is mounted on.  A vnode is `locked`
when `VNODE_LOCKED` is set in its flags. -/
structure Tree where
  mode : ℕ → ℕ
  locked : ℕ → Bool
  ops : ℕ → Option VNodeOps
  mountNode : ℕ → Option ℕ
  mount : ℕ → ℕ
  covered : ℕ → Option ℕ
  root : ℕ
  cwd : ℕ

/-- A return value, the vnode stored at `*ret`, and the reference counts. -/
structure LookupResult where
  err : ℤ
  ret : Option ℕ
  refs : ℕ → ℕ

def Tree.lookup (t : Tree) (dir : ℕ) : Option (List Char → Except ErrorCode ℕ) :=
  (t.ops dir).bind VNodeOps.lookup

def Tree.create (t : Tree) (dir : ℕ) : Option (List Char → Except ErrorCode ℕ) :=
  (t.ops dir).bind VNodeOps.create

def Tree.followLink (t : Tree) (link : ℕ) : Option LinkResult :=
  (t.ops link).bind VNodeOps.followLink

section

variable (t : Tree) (v : ℕ)

def Tree.isDir : Bool := t.mode v &&& attrDir ≠ 0

def Tree.isLink : Bool := t.mode v &&& attrSoftLink ≠ 0

/-! ## Looking up one name -/

def crossMount (refs : ℕ → ℕ) : ℕ × (ℕ → ℕ) :=
  match t.mountNode v with
  | none => (v, refs)
  | some m => (m, acquire (release refs v) m)

/-- The part of `VfsDoLookup` that calls the filesystem.  Calling a missing
function faults. -/
def vfsLookupIn (currName : List Char) (dir : ℕ) (refs : ℕ → ℕ) : Option LookupResult :=
  (t.lookup dir).bind fun lookup =>
    match lookup currName with
    | .error e => some ⟨e, none, release refs dir⟩
    | .ok v =>
      let (v, refs) := crossMount t v (acquire refs v)
      if t.isLink v then
        (t.followLink v).map fun result =>
          match result with
          | .target u => ⟨0, some u, release (acquire refs u) dir⟩
          | .failed e cleared =>
            ⟨e, if cleared then none else some v, release refs dir⟩
      else some ⟨0, some v, release refs dir⟩

/-- `VfsDoLookup`, with the value `*ret` has before. -/
def vfsDoLookup (currName : List Char) (ret : Option ℕ) (dir : ℕ)
    (refs : ℕ → ℕ) : Option LookupResult :=
  if (t.lookup dir).isNone then some ⟨-ENOTIMPL, ret, refs⟩
  else if t.isDir dir = false then some ⟨-ENOTDIR, ret, refs⟩
  else if currName = ['.'] then some ⟨0, some dir, refs⟩
  else if currName = ['.', '.'] then
    if dir = t.root then some ⟨0, some dir, refs⟩
    else if dir = t.mount dir then
      (t.covered dir).bind fun d =>
        vfsLookupIn t currName d (release (acquire refs d) dir)
    else vfsLookupIn t currName dir refs
  else vfsLookupIn t currName dir refs

/-! ## Walking along a path -/

/-- The loop of `DirNameVNode`, with the rest of the path, the name found last
and the current directory.  It ends with a directory and a name, or without a
directory after a failure.  Taking the length of a name that was never set
faults. -/
def dirNameLoop (t : Tree) : ℕ → List Char → Option (List Char) → ℕ →
    (ℕ → ℕ) → Option (Option (ℕ × List Char) × (ℕ → ℕ))
  | 0, _, _, _, _ => none
  | fuel + 1, path, currName, currNode, refs =>
    if path = [] then
      currName.map fun name => (some (currNode, name), refs)
    else
      let currName := path.dropWhile (· = '/')
      match currName.dropWhile (· ≠ '/') with
      | [] => some (some (currNode, currName), refs)
      | _ :: rest =>
        (vfsDoLookup t (currName.takeWhile (· ≠ '/')) none currNode
          (acquire refs currNode)).bind fun r =>
          if r.err ≠ 0 then some (none, r.refs)
          else
            r.ret.bind fun newNode =>
              if t.isDir newNode = false then some (none, r.refs)
              else dirNameLoop t fuel rest (some currName) newNode r.refs

/-- Every round of its loop consumes a character.  For the path `/` the name is `NULL`,
with length zero. -/
def dirNameVNode (path : List Char) (dir : Option ℕ)
    (refs : ℕ → ℕ) : Option (Option (ℕ × List Char) × (ℕ → ℕ)) :=
  if path.head? = some '/' then
    if path.length = 1 then some (some (t.root, []), acquire refs t.root)
    else
      dirNameLoop t (path.length + 1) path.tail none t.root (acquire refs t.root)
  else
    dirNameLoop t (path.length + 1) path none (dir.getD t.cwd) (acquire refs (dir.getD t.cwd))

/-! ## `NameToVNode` -/

/-- The call of `create` after a lookup that failed.  Without `FILE_CREATE_OPEN`
missing `vNodeOps` are not checked for. -/
def nameCreate (checked : Bool) (dir : ℕ) (name : List Char)
    (r : LookupResult) : Option LookupResult :=
  if (t.ops dir).isNone ∧ checked = false then none
  else
    match t.create dir with
    | none => some { r with err := -EROFS }
    | some create =>
      match create name with
      | .error e => some { r with err := e }
      | .ok v => some ⟨0, some v, acquire r.refs v⟩

def nameOpen (flags : ℕ) (ret : Option ℕ) (dir : ℕ)
    (name : List Char) (refs : ℕ → ℕ) : Option LookupResult :=
  if flags &&& fileForceCreate ≠ 0 then
    (vfsDoLookup t name ret dir (acquire refs dir)).bind fun r =>
      if r.err ≠ 0 then nameCreate t false dir name r
      else some ⟨-EEXIST, r.ret, release r.refs dir⟩
  else if flags &&& fileCreateOpen ≠ 0 then
    (vfsDoLookup t name ret dir (acquire refs dir)).bind fun r =>
      if r.err ≠ 0 then nameCreate t true dir name r
      else some { r with refs := release r.refs dir }
  else vfsDoLookup t name ret dir refs

/-- The check at the end of `NameToVNode`, which tests the bit of
`VFS_ATTR_DIR` in the flags of the vnode, where it stands for
`VNODE_LOCKED`. -/
def nameCheckDirectory (flags : ℕ) (r : LookupResult) : LookupResult :=
  match r.ret with
  | none => r
  | some v =>
    if flags &&& fileDirectory ≠ 0 ∧ t.locked v = true then
      ⟨-ENOTDIR, r.ret, release r.refs v⟩
    else r

def stripSlash (path : List Char) : List Char :=
  if path.getLast? = some '/' then path.dropLast else path

/-- `NameToVNode`, with the value `*retVal` has before. -/
def nameToVNode (ret : Option ℕ) (path : List Char) (flags : ℕ)
    (dirAt : Option ℕ) (refs : ℕ → ℕ) : Option LookupResult :=
  if path = ['/'] then some ⟨0, some t.root, acquire refs t.root⟩
  else
    (dirNameVNode t (stripSlash path) dirAt refs).bind fun found =>
      match found with
      | (none, refs) => some ⟨-ENOENT, ret, refs⟩
      | (some (dir, name), refs) =>
        (nameOpen t flags ret dir name refs).map (nameCheckDirectory t flags)

end

end Whitix.Vfs
