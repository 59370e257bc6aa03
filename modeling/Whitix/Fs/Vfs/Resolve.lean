import Whitix.Fs.Vfs.Lookup

/-!
# What a lookup amounts to

The outcome of `VfsDoLookup` depends on the tree alone.  `resolve` names it,
and `vfsDoLookup_eq` says which references each outcome leaves behind when
the call starts with one reference to the directory on top of `refs`.
-/

namespace Whitix.Vfs

open Support

/-- What a name stands for in a directory. -/
inductive Resolution where
  /-- Names cannot be looked up here. -/
  | unsupported (e : ErrorCode)
  /-- The directory itself. -/
  | self
  | missing (e : ErrorCode)
  | found (v : ℕ)
  | followed (link v : ℕ)
  /-- A symbolic link that could not be followed. -/
  | broken (link : ℕ) (e : ErrorCode) (cleared : Bool)
  /-- A missing function is called. -/
  | fault

section

variable (t : Tree) (name : List Char) (ret : Option ℕ) (dir : ℕ)

def resolveIn : Resolution :=
  match t.lookup dir with
  | none => .fault
  | some lookup =>
    match lookup name with
    | .error e => .missing e
    | .ok v =>
      let v := (t.mountNode v).getD v
      if t.isLink v then
        match t.followLink v with
        | none => .fault
        | some (.target u) => .followed v u
        | some (.failed e cleared) => .broken v e cleared
      else .found v

/-- What a name stands for, with the special treatment of `.` and `..`. -/
def resolve : Resolution :=
  if (t.lookup dir).isNone then .unsupported ⟨-ENOTIMPL, by decide⟩
  else if t.isDir dir = false then .unsupported ⟨-ENOTDIR, by decide⟩
  else if name = ['.'] then .self
  else if name = ['.', '.'] then
    if dir = t.root then .self
    else if dir = t.mount dir then
      match t.covered dir with
      | none => .fault
      | some d => resolveIn t name d
    else resolveIn t name dir
  else resolveIn t name dir

section

variable (refs : ℕ → ℕ)

/-- The result of a lookup that starts with one reference to `dir` on top of
`refs`. -/
def Resolution.result : Resolution → Option LookupResult
  | .unsupported e => some ⟨e, ret, acquire refs dir⟩
  | .self => some ⟨0, some dir, acquire refs dir⟩
  | .missing e => some ⟨e, none, refs⟩
  | .found v => some ⟨0, some v, acquire refs v⟩
  | .followed link v => some ⟨0, some v, acquire (acquire refs link) v⟩
  | .broken link e cleared =>
    some ⟨e, if cleared then none else some link, acquire refs link⟩
  | .fault => none

theorem crossMount_acquire (v : ℕ) (refs : ℕ → ℕ) :
    crossMount t v (acquire refs v) =
      ((t.mountNode v).getD v, acquire refs ((t.mountNode v).getD v)) := by
  rw [crossMount]
  cases t.mountNode v with
  | none => rfl
  | some m => simp

@[simp]
theorem release_acquire_acquire (dir v : ℕ) :
    release (acquire (acquire refs dir) v) dir = acquire refs v := by
  rw [acquire_comm, release_acquire]

@[simp]
theorem release_acquire_acquire_acquire (dir v w : ℕ) :
    release (acquire (acquire (acquire refs dir) v) w) dir = acquire (acquire refs v) w := by
  rw [acquire_comm refs, release_acquire_acquire]

theorem vfsLookupIn_eq (dir d : ℕ) (refs : ℕ → ℕ) :
    vfsLookupIn t name d (acquire refs d) = (resolveIn t name d).result ret dir refs := by
  rw [vfsLookupIn, resolveIn]
  cases t.lookup d with
  | none => rfl
  | some lookup =>
    simp only [Option.bind_some]
    cases lookup name with
    | error e => simp [Resolution.result]
    | ok v =>
      simp only [crossMount_acquire]
      cases t.isLink ((t.mountNode v).getD v) with
      | false => simp [Resolution.result]
      | true =>
        cases t.followLink ((t.mountNode v).getD v) with
        | none => rfl
        | some result =>
          cases result with
          | target u | failed e cleared => simp [Resolution.result]

theorem vfsDoLookup_eq :
    vfsDoLookup t name ret dir (acquire refs dir) = (resolve t name dir).result ret dir refs := by
  rw [vfsDoLookup, resolve]
  split_ifs
  · rfl
  · rfl
  · rfl
  · rfl
  · cases t.covered dir with
    | none => rfl
    | some d =>
      simp only [Option.bind_some, release_acquire_acquire]
      exact vfsLookupIn_eq t name ret dir d refs
  · exact vfsLookupIn_eq t name ret dir dir refs
  · exact vfsLookupIn_eq t name ret dir dir refs

end

end

end Whitix.Vfs
