import Whitix.Fs.Vfs.Lookup
import Whitix.Support.Memory

/-!
# Changing the working directory

A process has its working directory twice: as a vnode, and as a string for
`SysGetCurrDir`.  `VfsChangeDir` looks the path up and then has `AddStringPath`
edit the string.

The string lies in a buffer of `PATH_MAX` characters.  `AddStringPath` goes
through the path character by character, and reads what follows the path in
memory if it misses the terminating null character.
-/

namespace Whitix.WorkingDir

open Support
open Vfs

def nul : Char := Char.ofNat 0

/-- What stops the kernel: an index outside of `sCwd`, or an access outside of
the path. -/
inductive Fault where
  | sCwd
  | path
  deriving DecidableEq

abbrev Buffer := ℕ → Char

/-! ## `AddStringPath` -/

section

variable (sCwd : Buffer) (t : Tree)

def readAt (j : ℕ) : Except Fault Char :=
  if j < pathMax then .ok (sCwd j) else .error .sCwd

def writeAt (j : ℕ) (c : Char) : Except Fault Buffer :=
  if j < pathMax then .ok (Function.update sCwd j c) else .error .sCwd

/-- `while (sCwd[j] == '/') --j;` -/
def skipBack (sCwd : Buffer) : ℕ → Except Fault ℕ
  | 0 => do
      let c ← readAt sCwd 0
      if c = '/' then .error .sCwd else .ok 0
  | j + 1 => do
      let c ← readAt sCwd (j + 1)
      if c = '/' then skipBack sCwd j else .ok (j + 1)

/-- The loop that goes back to a slash and zeroes the string. -/
def zeroBack (sCwd : Buffer) : ℕ → Except Fault (Buffer × ℕ)
  | 0 => do
      let c ← readAt sCwd 0
      if c = '/' then .ok (sCwd, 0) else .error .sCwd
  | j + 1 => do
      let c ← readAt sCwd (j + 1)
      if c = '/' then .ok (sCwd, j + 1)
      else zeroBack (Function.update sCwd (j + 1) nul) j

/-- `while (sCwd[j] == '/') ++j;` with the number of characters that are left. -/
def skipForward (sCwd : Buffer) : ℕ → ℕ → Except Fault ℕ
  | 0, _ => .error .sCwd
  | left + 1, j => if sCwd j = '/' then skipForward sCwd left (j + 1) else .ok j

/-- Going back by one component, without the second half of the `..` branch. -/
def goBack : ℕ → Except Fault (Buffer × ℕ)
  -- The character at the index -1 is read next.
  | 0 => .error .sCwd
  | j + 1 => do
      let j ← skipBack sCwd j
      zeroBack sCwd j

/-- The loop that copies a name.  It ends at a slash or at a null character,
after it has copied a first character in any case. -/
def copyName (sCwd : Buffer) (j : ℕ) : List Char → Except Fault (Buffer × ℕ × List Char)
  | [] => .error .path
  | c :: rest => do
      let sCwd ← writeAt sCwd j c
      match rest with
      | [] => .error .path
      | d :: _ =>
        if d ≠ '/' ∧ d ≠ nul then copyName sCwd (j + 1) rest
        else .ok (sCwd, j + 1, rest)

/-- The loop of `AddStringPath`, with the memory from `dirName[i]` on.  Every
round consumes a character. -/
def addStringLoop : ℕ → List Char → Buffer → ℕ → Except Fault (Buffer × ℕ)
  | 0, _, _, _ => .error .path
  | fuel + 1, dirName, sCwd, j =>
    if dirName = [] then .error .path
    else if dirName.head? = some nul then .ok (sCwd, j)
    else
      let dirName := dirName.dropWhile (· = '/')
      if dirName = [] then .error .path
      else if dirName.take 2 = ['.', '.'] then do
        let (sCwd, j) ← goBack sCwd j
        let dirName := (dirName.drop 2).dropWhile (· = '/')
        let j ← skipForward sCwd (pathMax - j) j
        addStringLoop fuel dirName sCwd j
      else if dirName.head? = some '.' then
        addStringLoop fuel (dirName.drop 2) sCwd j
      else do
        let (sCwd, j, dirName) ← copyName sCwd j dirName
        let sCwd ← writeAt sCwd j '/'
        addStringLoop fuel (if dirName.head? = some '/' then dirName.tail else dirName) sCwd (j + 1)

def strlenFrom (str : Buffer) : ℕ → ℕ → ℕ
  | 0, j => j
  | left + 1, j => if str j = nul then j else strlenFrom str left (j + 1)

def strlen : ℕ := strlenFrom sCwd pathMax 0

def string : List Char := extract sCwd 0 (strlen sCwd)

def slashString : Buffer := fun i =>
  if i = 0 then '/' else if i < pathMax then nul else sCwd i

def addStringPath (dirName : List Char) : Except Fault Buffer := do
  let (sCwd, j) ←
    if dirName.head? = some '/' then
      addStringLoop (dirName.length + 1) dirName.tail (slashString sCwd) 1
    else addStringLoop (dirName.length + 1) dirName sCwd (strlen sCwd)
  writeAt sCwd j nul

/-! ## `VfsChangeDir` -/

def fileRead : ℕ := 1

def fileForceOpen : ℕ := 8

structure State where
  sCwd : Buffer
  cwd : ℕ
  refs : ℕ → ℕ

/-- The argument of a call: a string, and the memory behind its terminating null
character. -/
structure DirName where
  path : List Char
  behind : List Char
  noNul : nul ∉ path

/-- The memory at `dirName` after `NameToVNode` has removed a slash at the end
of the path. -/
def DirName.stripped (dirName : DirName) : List Char :=
  if dirName.path.getLast? = some '/' then
    dirName.path.dropLast ++ nul :: nul :: dirName.behind
  else dirName.path ++ nul :: dirName.behind

def treeAt (cwd : ℕ) : Tree := { t with cwd := cwd }

/-- The calls of `VfsChangeDir` that do not look up anything. -/
def changeDirShort (s : State) (path : List Char) : Option State :=
  if strlen s.sCwd = 1 ∧ path.take 2 = ['.', '.'] then some s
  else if path = ['.'] then some s
  else if path = ['/'] then
    some (if s.cwd ≠ t.root then
      ⟨slashString s.sCwd, t.root, acquire (release s.refs s.cwd) t.root⟩
    else { s with sCwd := slashString s.sCwd })
  else none

def vfsChangeDir (s : State) (dirName : DirName) : Except Fault (ℤ × State) :=
  match changeDirShort t s dirName.path with
  | some s => .ok (0, s)
  | none =>
    -- `dirNode` is not initialised, but only read if it has been set.
    match nameToVNode (treeAt t s.cwd) none dirName.path
        (fileRead ||| fileForceOpen) none s.refs with
    | none => .error .path
    | some r =>
      if r.err ≠ 0 then .ok (r.err, { s with refs := r.refs })
      else
        match r.ret with
        | none => .error .path
        | some dirNode =>
          if t.isDir dirNode = false then
            .ok (-ENOTDIR, { s with refs := release r.refs dirNode })
          else do
            let sCwd ← addStringPath s.sCwd dirName.stripped
            .ok (0, ⟨sCwd, dirNode, release r.refs s.cwd⟩)

end

end Whitix.WorkingDir
