import Whitix.Include.Error
import Whitix.Support.RefCount
import Whitix.Support.Run
import Whitix.Support.Word

/-!
# File tables

A descriptor of a process is a slot of its file table that points to a `File`.
`SysOpen` fills a slot, `SysClose` empties one, a new process inherits three
slots of its parent, and a process that exits closes all of its files.  A
`File` counts the slots that refer to it, and it holds references to its vnode.

Allocations for tables and path names succeed, except where a parameter of an
operation says otherwise.  What `NameToVNode` and the functions of a filesystem
return are parameters too; `NameToVNode` takes one reference to the vnode it
returns, and none if it fails.
-/

namespace Whitix.FileTable

open Support Option Function

/-! ## Data -/

/-- `struct File`, as far as it is shared.  `held` is the number of references to
the vnode that have been taken for the `File`. -/
structure File where
  vNode : Option ℕ
  refs : ℤ
  held : ℕ
  deriving DecidableEq, Repr

/-- The file system context of a process: its table, whose length is `numFds`,
and the vnodes it holds itself. -/
structure Process where
  files : List (Option ℕ)
  exec : Option ℕ
  cwd : ℕ
  root : ℕ
  deriving DecidableEq, Repr

/-- The processes by number, those that have exited being gone, the objects of
the slab of `File`s and the ones that are allocated, and the reference counts
of vnodes. -/
structure System where
  processes : List (Option Process)
  files : ℕ → File
  allocated : Finset ℕ
  vNodeRefs : ℕ → ℕ

/-- What the slab leaves in an object it frees. -/
def zeroFile : File := ⟨none, 0, 0⟩

def vNodeAcquire (refs : ℕ → ℕ) (v : ℕ) : ℕ → ℕ :=
  update refs v (dword (refs v + 1))

variable (s : System)

section

variable (pid f : ℕ) (file : File) (p : Process) (fd : ℤ)

def System.setProcess (p : Option Process) : System :=
  { s with processes := s.processes.set pid p }

def System.setFile : System :=
  { s with files := update s.files f file }

/-! ## Opening -/

/-- `VfsGetFreeFd`, with the table it leaves. -/
def vfsGetFreeFd (files : List (Option ℕ)) : ℤ × List (Option ℕ) :=
  match files.findIdx? isNone with
  | some i => (i, files)
  | none =>
    if 100 ≤ files.length then (-EMFILE, files)
    else (files.length, files ++ List.replicate 10 none)

def fileFree : System :=
  { s with
    files := update s.files f zeroFile
    allocated := s.allocated.erase f }

/-- `DoOpenFile`, where `NameToVNode` returns `err` and `vNode` and the function
`open` of the file returns `openRet`, which is zero if there is none. -/
def doOpenFile (err : ℤ) (vNode : Option ℕ) (openRet : ℤ) : ℤ × System :=
  match vNode with
  | none => (err, s.setFile f { s.files f with vNode := none })
  | some v =>
    if err ≠ 0 then (err, s.setFile f { s.files f with vNode := none })
    else
      let s := { s.setFile f ⟨some v, 1, 1⟩ with
        vNodeRefs := vNodeAcquire s.vNodeRefs v }
      if openRet ≠ 0 then
        (openRet, { s with vNodeRefs := release s.vNodeRefs v })
      else (0, s)

/-- What a call of `SysOpen` meets: whether the path can be copied, the object
the slab returns, the result of `NameToVNode` and the one of `open`. -/
structure OpenArgs where
  named : Bool
  addr : Option ℕ
  err : ℤ
  vNode : Option ℕ
  openRet : ℤ
  deriving DecidableEq, Repr

/-- `SysOpen` from the allocation of the `File` on.  The slab returns no object
that is in use. -/
def sysOpenFile (fd : ℕ) (a : OpenArgs) : Option (ℤ × System) :=
  match a.addr with
  | none => some (-EFAULT, s)
  | some f =>
    if f ∈ s.allocated then none
    else
      let r := doOpenFile { s.setFile f zeroFile with allocated := insert f s.allocated }
        f a.err a.vNode a.openRet
      if r.1 ≠ 0 then
        some (if r.1 < 0 then r.1 else fd, fileFree r.2 f)
      else
        some (fd, r.2.setProcess pid (some { p with files := p.files.set fd (some f) }))

def sysOpen (a : OpenArgs) : Option (ℤ × System) :=
  match vfsGetFreeFd p.files with
  | (.negSucc e, _) => some (.negSucc e, s)
  | (.ofNat fd, files) =>
    let p := { p with files := files }
    let s := s.setProcess pid (some p)
    if a.named then sysOpenFile s pid p fd a else some (-EFAULT, s)

/-! ## Sharing -/

def fileGet : Option ℕ :=
  if fd < 0 ∨ (p.files.length : ℤ) ≤ fd then none
  else (p.files[fd.toNat]?).join

/-- A `File` with another descriptor, for which a reference to the vnode has
been taken. -/
def File.share : File :=
  { file with refs := int32 (file.refs + 1), held := file.held + 1 }

/-- There is a fault if the `File` has no vnode. -/
def vfsFileDup : Option System :=
  match (s.files f).vNode with
  | none => none
  | some v =>
    some { s.setFile f (s.files f).share with
      vNodeRefs := vNodeAcquire s.vNodeRefs v }

/-- `ExecSetupFs` for a new process with the executable `exec`, to which
`ExecOpen` has taken a reference.  There is a fault if one of the three
descriptors of the parent `p` is not open. -/
def execSetupFs (fds : ℕ × ℕ × ℕ) (exec : ℕ) : Option System :=
  match (p.files[fds.1]?).join, (p.files[fds.2.1]?).join, (p.files[fds.2.2]?).join with
  | some stdout, some stdin, some stderr =>
    ([stdout, stdin, stderr].foldlM vfsFileDup
      { s with
        vNodeRefs :=
          [exec, p.root, p.cwd].foldl vNodeAcquire s.vNodeRefs }).map
      fun s =>
        { s with
          processes := s.processes ++ [some
              { files := [some stdout, some stdin, some stderr] ++
                  List.replicate 7 none
                exec := some exec
                cwd := p.cwd
                root := p.root }] }
  | _, _, _ => none

/-! ## Closing -/

def File.unshare : File := { file with refs := file.refs - 1 }

/-- A `File` whose last descriptor has been closed and for which a reference to
the vnode has been released. -/
def File.close : File :=
  { file with refs := file.refs - 1, held := file.held - 1 }

/-- `DoCloseFile`, where the function `close` of the file returns
`closeRet`. -/
def doCloseFile (file : Option ℕ) (closeRet : ℤ) : ℤ × System :=
  match file with
  | none => (-EFAULT, s)
  | some f =>
    match (s.files f).vNode with
    | none => (-EFAULT, s)
    | some v =>
      if (s.files f).refs ≤ 0 then (-EINVAL, s)
      else if (s.files f).refs - 1 ≠ 0 then
        (0, s.setFile f (s.files f).unshare)
      else
        (closeRet,
          { s.setFile f (s.files f).close with
            vNodeRefs := release s.vNodeRefs v })

/-- It frees the `File` whenever `DoCloseFile` returns zero. -/
def sysClose (closeRet : ℤ) : ℤ × System :=
  match fileGet p fd with
  | none => (-EBADF, s)
  | some f =>
    let r := doCloseFile s (some f) closeRet
    if r.1 ≠ 0 then r
    else
      (0, (fileFree r.2 f).setProcess pid (some { p with files := p.files.set fd.toNat none }))

def loadReleaseFsContext : System :=
  let s := p.files.foldl (fun s file => (doCloseFile s file 0).2) s
  { s.setProcess pid none with
    vNodeRefs := (p.exec.toList ++ [p.cwd, p.root]).foldl release s.vNodeRefs }

/-! ## Runs -/

inductive Op
  | openFile (pid : ℕ) (a : OpenArgs)
  | dup (pid : ℕ) (fd : ℤ)
  | inherit (pid : ℕ) (fds : ℕ × ℕ × ℕ) (exec : ℕ)
  | close (pid : ℕ) (fd closeRet : ℤ)
  | exit (pid : ℕ)
  deriving DecidableEq, Repr

def System.process : Option Process :=
  (s.processes[pid]?).join

def step : Op → Option System
  | .openFile pid a =>
    (s.process pid).bind fun p => (sysOpen s pid p a).map Prod.snd
  | .dup pid _ => (s.process pid).map fun _ => s
  | .inherit pid fds exec =>
    (s.process pid).bind fun p => execSetupFs s p fds exec
  | .close pid fd closeRet =>
    (s.process pid).map fun p => (sysClose s pid p fd closeRet).2
  | .exit pid => (s.process pid).map fun p => loadReleaseFsContext s pid p

/-! ## Lifetimes -/

def Process.descriptors : List ℕ :=
  p.files.flatMap toList

def Process.context : List ℕ :=
  p.exec.toList ++ [p.cwd, p.root]

end

def System.descriptors (s : System) : List ℕ :=
  s.processes.flatMap fun p => p.toList.flatMap Process.descriptors

def System.contexts : List ℕ :=
  s.processes.flatMap fun p => p.toList.flatMap Process.context

/-- A `File` is allocated exactly as long as a descriptor refers to it, and the
references to a vnode that are left when no descriptor leads to it are those
of the processes and those which `base` counts. -/
structure Lifetime (base : ℕ → ℕ) (s : System) : Prop where
  allocated : ∀ f, f ∈ s.allocated ↔ f ∈ s.descriptors
  vNodes : ∀ v, (∀ f ∈ s.descriptors, (s.files f).vNode ≠ some v) →
    s.vNodeRefs v = base v + s.contexts.count v

/-- No descriptor has been opened yet. -/
structure Idle (base : ℕ → ℕ) (s : System) : Prop where
  allocated : s.allocated = ∅
  descriptors : s.descriptors = []
  vNodes : ∀ v, s.vNodeRefs v = base v + s.contexts.count v

/-- Counts that an operation increments at most `n` times do not wrap. -/
def Countable (n : ℕ) (vNodes files : List ℕ) : Prop :=
  (∀ v ∈ vNodes, s.vNodeRefs v + n < 2 ^ 32) ∧ ∀ f ∈ files, (s.files f).refs + n < 2 ^ 31
  deriving Decidable

/-- `NameToVNode` returns a vnode if it returns no error.  `SysClose` closes
only a descriptor that is the only one that ever referred to its `File`, and
`close` returns no error.  A process exits only if none of its descriptors is
the last one of its `File`. -/
def Unshared : Op → Prop
  | .openFile _ a =>
    (a.err = 0 → a.vNode ≠ none) ∧ Countable s 1 a.vNode.toList []
  | .dup _ _ => True
  | .inherit pid fds exec => ∀ p ∈ s.process pid,
      let files := [fds.1, fds.2.1, fds.2.2].filterMap fun fd =>
        (p.files[fd]?).join
      Countable s 6 ([exec, p.root, p.cwd] ++ files.filterMap fun f => (s.files f).vNode) files
  | .close pid fd closeRet => ∀ p ∈ s.process pid, ∀ f ∈ fileGet p fd,
      (s.files f).refs = 1 ∧ (s.files f).held = 1 ∧ closeRet = 0
  | .exit pid => ∀ p ∈ s.process pid, ∀ f ∈ p.descriptors,
      p.descriptors.count f < (s.files f).refs

instance (s : System) : (op : Op) → Decidable (Unshared s op)
  | .openFile _ _ => inferInstanceAs (Decidable (_ ∧ _))
  | .dup _ _ => isTrue trivial
  | .inherit _ _ _ => inferInstanceAs (Decidable (∀ p ∈ s.process _, _))
  | .close _ fd _ => inferInstanceAs (Decidable (∀ p ∈ s.process _, ∀ f ∈ fileGet p fd, _))
  | .exit _ => inferInstanceAs (Decidable (∀ p ∈ s.process _, ∀ f ∈ p.descriptors, _))

/-- Closing a descriptor empties its slot and no other, and the exit of a
process empties its slots only. -/
def EmptiesSlot : Prop :=
  (∀ pid p fd f closeRet, s.process pid = some p → fileGet p fd = some f →
    Unshared s (.close pid fd closeRet) → (sysClose s pid p fd closeRet).1 = 0 ∧
      (sysClose s pid p fd closeRet).2.processes = s.processes.set pid
        (some { p with files := p.files.set fd.toNat none })) ∧
  ∀ pid p, (loadReleaseFsContext s pid p).processes = s.processes.set pid none

end Whitix.FileTable
