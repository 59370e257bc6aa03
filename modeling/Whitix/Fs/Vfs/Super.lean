import Whitix.Include.Error
import Whitix.Support.RefCount

/-!
# Mounting and unmounting

`VfsMount` puts the root of a filesystem on a directory, and `VfsUnmount` takes
it away again.  A mounted filesystem keeps a reference to the directory it
covers.

The other parts of the kernel are parameters.  `NameToVNode` returns a vnode
with one more reference, or it fails and changes nothing; where a path leads
depends on the mounts.  `readSuper` adds a superblock to the list, with a single
reference to its root, or it fails and changes nothing.
-/

namespace Whitix.Mounts

open Support Function List Option Nat Prod

abbrev Path := List Char

structure State where
  refs : ℕ → ℕ
  mountNode : ℕ → Option ℕ
  sbList : List ℕ
  /-- The root of a superblock's filesystem. -/
  mount : ℕ → ℕ
  coveredId : ℕ → ℕ
  parent : ℕ → Option ℕ

structure NewSuper where
  superBlock : ℕ
  root : ℕ

/-- A registered filesystem.  The device is `none` if there is none to mount. -/
structure FileSystem where
  name : Path
  readSuper : State → Option ℕ → Option NewSuper

/-- The vnodes of all filesystems, and what the rest of the kernel does. -/
structure Kernel where
  superBlock : ℕ → ℕ
  id : ℕ → ℕ
  /-- All vnodes of a filesystem, in memory or not. -/
  vNodes : ℕ → List ℕ
  /-- `mode & VFS_ATTR_BLOCK` -/
  isBlock : ℕ → Bool
  /-- `VNodeRead` of a vnode that is not in memory. -/
  readable : ℕ → Bool
  /-- `current->root` -/
  root : ℕ
  fsList : List FileSystem
  /-- `NameToVNode` for the present mounts. -/
  resolve : (ℕ → Option ℕ) → Path → Except ErrorCode ℕ
  mem_vNodes : ∀ sb v, v ∈ vNodes sb ↔ superBlock v = sb
  id_injective : ∀ v w, superBlock v = superBlock w → id v = id w → v = w
  /-- The superblock is new, and none of its vnodes is in memory. -/
  readSuper_new : ∀ fs ∈ fsList, ∀ s device new, fs.readSuper s device = some new →
      new.superBlock ∉ s.sbList ∧ superBlock new.root = new.superBlock ∧
        ∀ v, superBlock v = new.superBlock → s.refs v = 0

/-! ## The source -/

section

variable (k : Kernel) (s : State) (deviceName : Option Path)

/-- `VNodeRelease`, which accepts a null pointer. -/
def vNodeRelease : Option ℕ → State
  | none => s
  | some v => { s with refs := release s.refs v }

def nameToVNode (path : Path) : Except ErrorCode (ℕ × State) :=
  match k.resolve s.mountNode path with
  | .error e => .error e
  | .ok v => .ok (v, { s with refs := acquire s.refs v })

def vNodeGet (superBlock : Option ℕ) (id : ℕ) : Option (ℕ × State) :=
  match superBlock with
  | none => none
  | some sb =>
    match (k.vNodes sb).find? fun v => k.id v = id with
    | none => none
    | some v =>
      if s.refs v = 0 ∧ k.readable v = false then none
      else some (v, { s with refs := acquire s.refs v })

/-- `VfsResolveDevName`: an error, or the vnode of the device. -/
def vfsResolveDevName (devName : Option Path) : ℤ × Option ℕ × State :=
  match devName with
  | none => (0, none, s)
  | some path =>
    match nameToVNode k s path with
    | .error e => (e, none, s)
    | .ok (device, s) =>
      if k.isBlock device = false then
        (- ENOTIMPL, some device, vNodeRelease s (some device))
      else (0, some device, s)

section

variable (mountPoint : Path) (fsName : Option Path) (v : ℕ)

/-- The loop of `VfsMount` over the filesystems. -/
def readSuperOf (device : Option ℕ) : Option NewSuper :=
  k.fsList.findSome? fun fs =>
    if fsName.any (· ≠ fs.name) then none else fs.readSuper s device

def addSuper (new : NewSuper) : State :=
  { s with
    sbList := new.superBlock :: s.sbList
    mount := update s.mount new.superBlock new.root
    refs := acquire s.refs new.root }

/-- Mounting on the root stops the kernel. -/
def vfsMount : Option (ℤ × State) :=
  if mountPoint = ['/'] then none
  else if deviceName = none ∧ fsName = none then some (- EFAULT, s)
  else
    match nameToVNode k s mountPoint with
    | .error e => some (e, s)
    | .ok (mountNode, s) =>
      if 1 < s.refs mountNode ∨ s.mountNode mountNode ≠ none then
        some (- EBUSY, vNodeRelease s (some mountNode))
      else if mountNode = s.mount (k.superBlock mountNode) then
        some (- EBUSY, vNodeRelease s (some mountNode))
      else
        let (err, deviceNode, s) := vfsResolveDevName k s deviceName
        if err ≠ 0 then some (err, s)
        else
          match readSuperOf k s fsName deviceNode with
          | none =>
            some (- ENOENT, vNodeRelease (vNodeRelease s (some mountNode)) deviceNode)
          | some new =>
            let s := addSuper s new
            let s := { s with
              coveredId := update s.coveredId new.superBlock (k.id mountNode)
              parent := update s.parent new.superBlock (some (k.superBlock mountNode))
              mountNode := update s.mountNode mountNode (some (s.mount new.superBlock)) }
            some (0, vNodeRelease s deviceNode)

def vfsCanUnmount (superBlock : ℕ) : ℤ :=
  if 2 < s.refs (s.mount superBlock) then - EBUSY
  else if (k.vNodes superBlock).any fun v =>
      s.refs v ≠ 0 ∧ v ≠ s.mount superBlock then - EBUSY
  else 0

def vfsUnmount : ℤ × State :=
  match nameToVNode k s mountPoint with
  | .error e => (e, s)
  | .ok (vNode, s) =>
    if vNode = k.root then (- EPERM, s)
    else
      let superBlock := k.superBlock vNode
      if vfsCanUnmount k s superBlock ≠ 0 then (- EBUSY, s)
      else if s.mount superBlock ≠ vNode then (- EPERM, s)
      else
        match vNodeGet k s (s.parent superBlock) (s.coveredId superBlock) with
        | none => (- EFAULT, s)
        | some (coveredNode, s) =>
          let s := { s with
            mountNode := update s.mountNode coveredNode none }
          let s := vNodeRelease s (some coveredNode)
          let s := vNodeRelease s (some coveredNode)
          let s := vNodeRelease s (some (s.mount superBlock))
          (0, { s with sbList := s.sbList.erase superBlock })

/-! ## Balanced calls -/

/-- The references, the mounts and the list of superblocks are the same. -/
structure Same (s s' : State) : Prop where
  refs : s'.refs = s.refs
  mountNode : s'.mountNode = s.mountNode
  sbList : s'.sbList = s.sbList

inductive Call
  | mount (deviceName : Option Path) (mountPoint : Path) (fsName : Option Path)
  | unmount (mountPoint : Path)
  /-- A mount followed by an unmount of the same path. -/
  | mountUnmount (deviceName : Option Path) (mountPoint : Path)
      (fsName : Option Path)

/-- A call that fails changes nothing, a filesystem is only unmounted if no vnode
but its root is referenced, and unmounting undoes a mount. -/
def Balanced : Call → Prop
  | .mount deviceName mountPoint fsName => ∀ err s',
      vfsMount k s deviceName mountPoint fsName = some (err, s') → err ≠ 0 → Same s s'
  | .unmount mountPoint => ∀ err s', vfsUnmount k s mountPoint = (err, s') →
      (err ≠ 0 → Same s s') ∧ (err = 0 → ∃ v, k.resolve s.mountNode mountPoint = .ok v ∧
          ∀ w, k.superBlock w = k.superBlock v → w ≠ s.mount (k.superBlock v) → s.refs w = 0)
  | .mountUnmount deviceName mountPoint fsName => ∀ s' s'',
      vfsMount k s deviceName mountPoint fsName = some (0, s') →
        vfsUnmount k s' mountPoint = (0, s'') → Same s s''

/-- A vnode that a filesystem can be mounted on. -/
structure Acceptable (k : Kernel) (s : State) (mountPoint : Path) (v : ℕ) : Prop where
  notRoot : mountPoint ≠ ['/']
  resolve : k.resolve s.mountNode mountPoint = .ok v
  refs : s.refs v = 0
  mountNode : s.mountNode v = none
  mount : v ≠ s.mount (k.superBlock v)

def DeviceFails : Prop :=
  ∃ path ∈ deviceName, ∀ device, k.resolve s.mountNode path = .ok device → k.isBlock device = false

structure Unmountable (k : Kernel) (s : State) (v : ℕ) : Prop where
  notRoot : v ≠ k.root
  mount : s.mount (k.superBlock v) = v
  refs : s.refs v ≤ 1
  others : ∀ w, k.superBlock w = k.superBlock v → w ≠ v → s.refs w = 0
  covered : ∃ c, s.parent (k.superBlock v) = some (k.superBlock c) ∧
    k.id c = s.coveredId (k.superBlock v) ∧ (acquire s.refs v c ≠ 0 ∨ k.readable c = true)

/-- The state when the mount point and the device have been found. -/
def Found (device : Option ℕ) (s' : State) : Prop :=
  vfsResolveDevName k { s with refs := acquire s.refs v } deviceName = (0, device, s')

def afterMount (new : NewSuper) : State where
  refs := acquire (acquire s.refs v) new.root
  mountNode := update s.mountNode v (some new.root)
  sbList := new.superBlock :: s.sbList
  mount := update s.mount new.superBlock new.root
  coveredId := update s.coveredId new.superBlock (k.id v)
  parent := update s.parent new.superBlock (some (k.superBlock v))

def Mountable (new : NewSuper) : Prop :=
  (deviceName ≠ none ∨ fsName ≠ none) ∧ Acceptable k s mountPoint v ∧
    ∃ device s', Found k s deviceName v device s' ∧ readSuperOf k s' fsName device = some new

end

/-- When a call is balanced. -/
def Condition : Call → Prop
  | .mount deviceName mountPoint _ =>
    (∃ v, Acceptable k s mountPoint v) → ¬ DeviceFails k s deviceName
  | .unmount mountPoint => ∀ v, k.resolve s.mountNode mountPoint = .ok v →
      Unmountable k s v
  | .mountUnmount deviceName mountPoint fsName => ∀ v new w,
      Mountable k s deviceName mountPoint fsName v new →
        k.resolve (update s.mountNode v (some new.root)) mountPoint = .ok w →
          ¬ Unmountable k (afterMount k s v new) w

end

variable {k : Kernel} {s s' : State}

/-! ## References -/

theorem same_refl (s : State) : Same s s := ⟨rfl, rfl, rfl⟩

variable {v c : ℕ} {fsName : Option Path}

theorem not_same_acquire (hrefs : s'.refs = acquire s.refs v) : ¬ Same s s' := by
  intro h
  have hcount := congrFun (hrefs.symm.trans h.refs) v
  rw [acquire_self] at hcount
  exact succ_ne_self _ hcount

theorem vNodeRelease_acquire (s : State) (v : ℕ) :
    vNodeRelease { s with refs := acquire s.refs v } (some v) = s := by
  unfold vNodeRelease
  dsimp only
  rw [release_acquire]

theorem vfsResolveDevName_cases (k : Kernel) (s : State) (deviceName : Option Path) :
    (deviceName = none ∧ vfsResolveDevName k s deviceName = (0, none, s)) ∨
      (DeviceFails k s deviceName ∧ ∃ err device, err ≠ 0 ∧
        vfsResolveDevName k s deviceName = (err, device, s)) ∨
      (¬ DeviceFails k s deviceName ∧ ∃ device, vfsResolveDevName k s deviceName =
          (0, some device, { s with refs := acquire s.refs device })) := by
  cases deviceName with
  | none => exact .inl ⟨rfl, rfl⟩
  | some path =>
    right
    cases hresolve : k.resolve s.mountNode path with
    | error e =>
      left
      refine ⟨⟨path, rfl, fun device hdevice => ?_⟩, e, none, e.2, ?_⟩
      · rw [hresolve] at hdevice
        cases hdevice
      · unfold vfsResolveDevName nameToVNode
        dsimp only
        rw [hresolve]
    | ok device =>
      cases hblock : k.isBlock device with
      | false =>
        left
        refine ⟨⟨path, rfl, fun device' hdevice => ?_⟩, - ENOTIMPL, some device, by decide, ?_⟩
        · rw [hresolve] at hdevice
          cases hdevice
          exact hblock
        · unfold vfsResolveDevName nameToVNode
          dsimp only
          rw [hresolve]
          dsimp only
          rw [if_pos hblock, vNodeRelease_acquire]
      | true =>
        right
        refine ⟨?_, device, ?_⟩
        · rintro ⟨path', hpath, hfails⟩
          cases hpath
          rw [hfails device hresolve] at hblock
          cases hblock
        · unfold vfsResolveDevName nameToVNode
          dsimp only
          rw [hresolve]
          dsimp only
          rw [if_neg (by rw [hblock]; nofun)]

/-! ## Mounting -/

def mounted (k : Kernel) (s : State) (v : ℕ) (new : NewSuper) : State :=
  { addSuper s new with
    coveredId := update s.coveredId new.superBlock (k.id v)
    parent := update s.parent new.superBlock (some (k.superBlock v))
    mountNode := update s.mountNode v (some new.root) }

def mountOn (k : Kernel) (s : State) (v : ℕ) (deviceName fsName : Option Path) : ℤ × State :=
  let r := vfsResolveDevName k { s with refs := acquire s.refs v } deviceName
  if r.1 ≠ 0 then (r.1, r.2.2)
  else
    match readSuperOf k r.2.2 fsName r.2.1 with
    | none =>
      (- ENOENT, vNodeRelease (vNodeRelease r.2.2 (some v)) r.2.1)
    | some new => (0, vNodeRelease (mounted k r.2.2 v new) r.2.1)

variable {mountPoint : Path} {deviceName : Option Path}

theorem vfsMount_acceptable (h : Acceptable k s mountPoint v)
    (hnames : deviceName ≠ none ∨ fsName ≠ none) :
    vfsMount k s deviceName mountPoint fsName = some (mountOn k s v deviceName fsName) := by
  have hboth : ¬ (deviceName = none ∧ fsName = none) :=
    fun hnone => hnames.elim (fun h => h hnone.1) fun h => h hnone.2
  have hbusy : ¬ (1 < acquire s.refs v v ∨ s.mountNode v ≠ none) := by
    rw [acquire_self, h.refs]
    exact fun hor => hor.elim (lt_irrefl 1) fun hne => hne h.mountNode
  unfold vfsMount nameToVNode mountOn
  rw [if_neg h.notRoot, if_neg hboth, h.resolve]
  dsimp only
  rw [if_neg hbusy, if_neg h.mount]
  split
  · rfl
  · split
    · next hnone => rw [hnone]
    · next new hsome =>
      rw [hsome]
      unfold mounted addSuper
      dsimp only
      rw [update_self]

theorem vfsMount_refused
    (h : (deviceName ≠ none ∨ fsName ≠ none) → ∀ v, ¬ Acceptable k s mountPoint v) {err : ℤ}
    (hs : vfsMount k s deviceName mountPoint fsName = some (err, s')) : err ≠ 0 ∧ Same s s' := by
  unfold vfsMount nameToVNode at hs
  split at hs
  · cases hs
  · next hroot =>
    split at hs
    · cases hs
      exact ⟨by decide, same_refl s⟩
    · next hnames =>
      have hnames : deviceName ≠ none ∨ fsName ≠ none :=
        Classical.not_and_iff_not_or_not.mp hnames
      cases hresolve : k.resolve s.mountNode mountPoint with
      | error e =>
        rw [hresolve] at hs
        cases hs
        exact ⟨e.2, same_refl s⟩
      | ok v =>
        rw [hresolve] at hs
        dsimp only at hs
        rw [vNodeRelease_acquire] at hs
        split at hs
        · cases hs
          exact ⟨by decide, same_refl s⟩
        · next hbusy =>
          split at hs
          · cases hs
            exact ⟨by decide, same_refl s⟩
          · next hmount =>
            rw [not_or, acquire_self] at hbusy
            refine absurd ⟨hroot, hresolve, ?_, ?_, hmount⟩ (h hnames v)
            · exact lt_one_iff.mp (Nat.lt_of_not_le fun hle =>
                hbusy.1 (succ_lt_succ hle))
            · exact Classical.not_not.mp hbusy.2

def holding (s : State) (v : ℕ) : Option ℕ → State
  | none => { s with refs := acquire s.refs v }
  | some device => { s with refs := acquire (acquire s.refs v) device }

theorem release_holding (s : State) (v : ℕ) (device : Option ℕ) :
    vNodeRelease (vNodeRelease (holding s v device) (some v)) device = s := by
  cases device with
  | none => exact vNodeRelease_acquire s v
  | some device =>
    unfold holding vNodeRelease
    dsimp only
    rw [acquire_comm, release_acquire, release_acquire]

theorem mountOn_found {device : Option ℕ}
    (hfound : Found k s deviceName v device (holding s v device)) :
    readSuperOf k (holding s v device) fsName device = none ∧
        mountOn k s v deviceName fsName = (- ENOENT, s) ∨
      ∃ new, readSuperOf k (holding s v device) fsName device = some new ∧
        mountOn k s v deviceName fsName = (0,
          vNodeRelease (mounted k (holding s v device) v new) device) := by
  unfold mountOn
  rw [hfound]
  rw [if_neg fun h => h rfl]
  cases hnew : readSuperOf k (holding s v device) fsName device with
  | none => exact .inl ⟨rfl, congrArg (mk _) (release_holding s v device)⟩
  | some new => exact .inr ⟨new, rfl, rfl⟩

theorem mountOn_cases (k : Kernel) (s : State) (v : ℕ) (deviceName fsName : Option Path) :
    (DeviceFails k s deviceName ∧
      (∀ device s', ¬ Found k s deviceName v device s') ∧ ∃ err, err ≠ 0 ∧
        mountOn k s v deviceName fsName = (err, { s with refs := acquire s.refs v })) ∨
      (¬ DeviceFails k s deviceName ∧
        ∃ device, Found k s deviceName v device (holding s v device)) := by
  rcases vfsResolveDevName_cases k { s with refs := acquire s.refs v } deviceName
    with ⟨rfl, hnone⟩ | ⟨hfails, err, device, herr, hresult⟩ | ⟨hfails, device, hresult⟩
  · refine .inr ⟨?_, none, hnone⟩
    rintro ⟨path, hpath, -⟩
    cases hpath
  · refine .inl ⟨hfails, fun device' s' hfound => ?_, err, herr, ?_⟩
    · unfold Found at hfound
      rw [hresult] at hfound
      exact herr (mk.inj hfound).1
    · unfold mountOn
      rw [hresult]
      exact if_pos herr
  · exact .inr ⟨hfails, some device, hresult⟩

theorem balanced_mount_iff :
    Balanced k s (.mount deviceName mountPoint fsName) ↔
      Condition k s (.mount deviceName mountPoint fsName) := by
  constructor
  · rintro hbalanced ⟨v, hv⟩ hfails
    have hnames : deviceName ≠ none ∨ fsName ≠ none := by
      obtain ⟨path, hpath, -⟩ := hfails
      left
      rintro rfl
      cases hpath
    rcases mountOn_cases k s v deviceName fsName with
      ⟨-, -, err, herr, hresult⟩ | ⟨hfound, -⟩
    · have hs := vfsMount_acceptable hv hnames
      rw [hresult] at hs
      exact not_same_acquire rfl (hbalanced _ _ hs herr)
    · exact hfound hfails
  · intro hcondition err s' hs herr
    by_cases hv : (deviceName ≠ none ∨ fsName ≠ none) ∧ ∃ v, Acceptable k s mountPoint v
    · obtain ⟨hnames, v, hv⟩ := hv
      rw [vfsMount_acceptable hv hnames] at hs
      rcases mountOn_cases k s v deviceName fsName with
        ⟨hfails, -⟩ | ⟨-, device, hfound⟩
      · exact absurd hfails (hcondition ⟨v, hv⟩)
      rcases mountOn_found hfound with ⟨-, hresult⟩ | ⟨new, -, hresult⟩
      · rw [hresult] at hs
        cases hs
        exact same_refl s
      · rw [hresult] at hs
        exact absurd (mk.inj (some.inj hs)).1.symm herr
    · exact (vfsMount_refused (fun hnames v h => hv ⟨hnames, v, h⟩) hs).2

/-! ## Unmounting -/

theorem vfsCanUnmount_eq_zero_iff {sb : ℕ} :
    vfsCanUnmount k s sb = 0 ↔ s.refs (s.mount sb) ≤ 2 ∧
      ∀ w, k.superBlock w = sb → w ≠ s.mount sb → s.refs w = 0 := by
  unfold vfsCanUnmount
  split
  · next hmany =>
    exact ⟨fun h => absurd h (by decide), fun h => absurd h.1 (by omega)⟩
  · next hfew =>
    split
    · next hany =>
      obtain ⟨w, hw, hrefs⟩ := any_eq_true.mp hany
      have hrefs := of_decide_eq_true hrefs
      refine ⟨fun h => absurd h (by decide), fun h => absurd ?_ hrefs.1⟩
      exact h.2 w ((k.mem_vNodes sb w).mp hw) hrefs.2
    · next hnone =>
      refine ⟨fun _ => ⟨Nat.le_of_not_lt hfew, fun w hw hne => ?_⟩, fun _ => rfl⟩
      by_contra hrefs
      exact hnone (any_eq_true.mpr ⟨w, (k.mem_vNodes sb w).mpr hw, decide_eq_true ⟨hrefs, hne⟩⟩)

theorem vNodeGet_eq_some_iff {sb : Option ℕ} {id : ℕ} :
    vNodeGet k s sb id = some (c, s') ↔ sb = some (k.superBlock c) ∧ k.id c = id ∧
        (s.refs c ≠ 0 ∨ k.readable c = true) ∧
        s' = { s with refs := acquire s.refs c } := by
  cases sb with
  | none => exact ⟨nofun, fun h => nomatch h.1⟩
  | some sb =>
    unfold vNodeGet
    dsimp only
    cases hfind : (k.vNodes sb).find? (fun v => k.id v = id) with
    | none =>
      refine ⟨nofun, fun h => ?_⟩
      have hmem := (k.mem_vNodes sb c).mpr (some.inj h.1).symm
      exact absurd (decide_eq_true h.2.1) (find?_eq_none.mp hfind c hmem)
    | some v =>
      have hid : k.id v = id := of_decide_eq_true (find?_some (p := fun v => k.id v = id) hfind)
      have hsb := (k.mem_vNodes sb v).mp (mem_of_find?_eq_some hfind)
      dsimp only
      constructor
      · intro h
        obtain ⟨hmem, h⟩ := ite_none_left_eq_some.mp h
        cases h
        refine ⟨congrArg some hsb.symm, hid, ?_, rfl⟩
        rw [Classical.not_and_iff_not_or_not, Bool.not_eq_false] at hmem
        exact hmem
      · rintro ⟨hc, hidc, hmem, rfl⟩
        obtain rfl : v = c := k.id_injective v c (hsb.trans (some.inj hc)) (hid.trans hidc.symm)
        rw [if_neg]
        rintro ⟨hzero, hunreadable⟩
        rcases hmem with hrefs | hreadable
        · exact hrefs hzero
        · rw [hunreadable] at hreadable
          cases hreadable

def unmounted (s : State) (superBlock v c : ℕ) : State :=
  { s with
    mountNode := update s.mountNode c none
    refs := release (release (release (acquire (acquire s.refs v) c) c) c) v
    sbList := s.sbList.erase superBlock }

theorem vfsUnmount_cases (hresolve : k.resolve s.mountNode mountPoint = .ok v) :
    (Unmountable k s v ∧ ∃ c, s.parent (k.superBlock v) = some (k.superBlock c) ∧
      k.id c = s.coveredId (k.superBlock v) ∧
      vfsUnmount k s mountPoint = (0, unmounted s (k.superBlock v) v c)) ∨
      (¬ Unmountable k s v ∧ ∃ err, err ≠ 0 ∧ vfsUnmount k s mountPoint =
          (err, { s with refs := acquire s.refs v })) := by
  have hcan : s.mount (k.superBlock v) = v →
      (vfsCanUnmount k { s with refs := acquire s.refs v } (k.superBlock v) = 0 ↔
        s.refs v ≤ 1 ∧ ∀ w, k.superBlock w = k.superBlock v → w ≠ v → s.refs w = 0) := by
    intro hmount
    rw [vfsCanUnmount_eq_zero_iff, hmount]
    dsimp only
    rw [acquire_self]
    refine and_congr succ_le_succ_iff (forall₃_congr fun w _ hne => ?_)
    rw [acquire_of_ne _ hne]
  unfold vfsUnmount nameToVNode
  rw [hresolve]
  dsimp only
  by_cases hroot : v = k.root
  · rw [if_pos hroot]
    exact .inr ⟨fun h => h.notRoot hroot, _, by decide, rfl⟩
  rw [if_neg hroot]
  by_cases hzero : vfsCanUnmount k { s with refs := acquire s.refs v } (k.superBlock v) = 0
  · rw [if_neg fun h => h hzero]
    by_cases hmount : s.mount (k.superBlock v) = v
    · rw [if_neg fun h => h hmount]
      obtain ⟨hrefs, hothers⟩ := (hcan hmount).mp hzero
      cases hget : vNodeGet k { s with refs := acquire s.refs v }
          (s.parent (k.superBlock v)) (s.coveredId (k.superBlock v)) with
      | none =>
        refine .inr ⟨fun h => ?_, _, by decide, rfl⟩
        obtain ⟨c, hparent, hid, hmem⟩ := h.covered
        have hsome := vNodeGet_eq_some_iff
          (s := { s with refs := acquire s.refs v }) |>.mpr ⟨hparent, hid, hmem, rfl⟩
        rw [hget] at hsome
        cases hsome
      | some found =>
        obtain ⟨c, s'⟩ := found
        obtain ⟨hparent, hid, hmem, rfl⟩ := vNodeGet_eq_some_iff.mp hget
        refine .inl ⟨⟨hroot, hmount, hrefs, hothers, c, hparent, hid, hmem⟩, c, hparent, hid, ?_⟩
        unfold vNodeRelease unmounted
        dsimp only
        rw [hmount]
    · rw [if_pos hmount]
      exact .inr ⟨fun h => hmount h.mount, _, by decide, rfl⟩
  · rw [if_pos hzero]
    refine .inr ⟨fun h => hzero ?_, _, by decide, rfl⟩
    exact (hcan h.mount).mpr ⟨h.refs, h.others⟩

theorem balanced_unmount_iff :
    Balanced k s (.unmount mountPoint) ↔ Condition k s (.unmount mountPoint) := by
  constructor
  · intro hbalanced v hresolve
    by_contra hnot
    rcases vfsUnmount_cases hresolve with ⟨h, -⟩ | ⟨-, err, herr, hresult⟩
    · exact hnot h
    · exact not_same_acquire rfl ((hbalanced _ _ hresult).1 herr)
  · intro hcondition err s' hs
    cases hresolve : k.resolve s.mountNode mountPoint with
    | error e =>
      unfold vfsUnmount nameToVNode at hs
      rw [hresolve] at hs
      cases hs
      exact ⟨fun _ => same_refl s, fun herr => absurd herr e.2⟩
    | ok v =>
      have h := hcondition v hresolve
      rcases vfsUnmount_cases hresolve with ⟨-, c, -, -, hresult⟩ | ⟨hnot, -⟩
      · obtain ⟨rfl, -⟩ := mk.inj (hresult.symm.trans hs)
        refine ⟨fun herr => absurd rfl herr, fun _ => ⟨v, rfl, ?_⟩⟩
        rw [h.mount]
        exact h.others
      · exact absurd h hnot

/-! ## Unmounting what was mounted -/

section RoundTrip

variable {device : Option ℕ} {new : NewSuper}

theorem readSuperOf_new (h : readSuperOf k s fsName device = some new) :
    new.superBlock ∉ s.sbList ∧ k.superBlock new.root = new.superBlock ∧
      ∀ w, k.superBlock w = new.superBlock → s.refs w = 0 := by
  obtain ⟨fs, hfs, hread⟩ := exists_of_findSome?_eq_some h
  obtain ⟨-, hread⟩ := ite_none_left_eq_some.mp hread
  exact k.readSuper_new fs hfs s device new hread

theorem sbList_holding (s : State) (v : ℕ) (device : Option ℕ) :
    (holding s v device).sbList = s.sbList := by
  cases device with
  | none | some device => rfl

theorem release_mounted (k : Kernel) (s : State) (v : ℕ) (device : Option ℕ) (new : NewSuper) :
    vNodeRelease (mounted k (holding s v device) v new) device = afterMount k s v new := by
  cases device with
  | none => rfl
  | some device =>
    unfold vNodeRelease mounted addSuper holding afterMount
    dsimp only
    rw [acquire_comm _ device, release_acquire]

theorem refs_unmounted_afterMount (k : Kernel) (s : State) (v : ℕ)
    (new : NewSuper) (superBlock : ℕ) :
    (unmounted (afterMount k s v new) superBlock new.root v).refs = acquire s.refs new.root := by
  show release (release (release (acquire (acquire (acquire (acquire s.refs v)
    new.root) new.root) v) v) v) new.root = acquire s.refs new.root
  rw [release_acquire, acquire_comm s.refs, acquire_comm (acquire s.refs new.root),
    release_acquire, release_acquire]

theorem vfsMount_eq_zero (hs : vfsMount k s deviceName mountPoint fsName = some (0, s')) :
    ∃ v new, Mountable k s deviceName mountPoint fsName v new ∧ s' = afterMount k s v new := by
  by_cases hv : (deviceName ≠ none ∨ fsName ≠ none) ∧ ∃ v, Acceptable k s mountPoint v
  · obtain ⟨hnames, v, hv⟩ := hv
    rw [vfsMount_acceptable hv hnames] at hs
    rcases mountOn_cases k s v deviceName fsName with
      ⟨-, -, err, herr, hresult⟩ | ⟨-, device, hfound⟩
    · rw [hresult] at hs
      exact absurd (mk.inj (some.inj hs)).1 herr
    rcases mountOn_found hfound with ⟨-, hresult⟩ | ⟨new, hnew, hresult⟩
    · rw [hresult] at hs
      exact absurd (mk.inj (some.inj hs)).1 (by decide)
    · rw [hresult, release_mounted] at hs
      exact ⟨v, new, ⟨hnames, hv, device, _, hfound, hnew⟩, (mk.inj (some.inj hs)).2.symm⟩
  · exact absurd rfl (vfsMount_refused (fun hnames v h => hv ⟨hnames, v, h⟩) hs).1

theorem Mountable.vfsMount (h : Mountable k s deviceName mountPoint fsName v new) :
    Mounts.vfsMount k s deviceName mountPoint fsName = some (0, afterMount k s v new) ∧
      ∃ device, readSuperOf k (holding s v device) fsName device = some new := by
  obtain ⟨hnames, hv, device, s', hfound, hnew⟩ := h
  have hs := vfsMount_acceptable hv hnames
  rcases mountOn_cases k s v deviceName fsName with
    ⟨-, hnone, -⟩ | ⟨-, device', hfound'⟩
  · exact absurd hfound (hnone device s')
  · obtain ⟨rfl, rfl⟩ := mk.inj (mk.inj (hfound.symm.trans hfound')).2
    rcases mountOn_found hfound' with ⟨hfails, -⟩ | ⟨new', hnew', hresult⟩
    · exact nomatch hfails.symm.trans hnew
    · obtain rfl := some.inj (hnew.symm.trans hnew')
      rw [hresult, release_mounted] at hs
      exact ⟨hs, device, hnew⟩

/-- Whatever filesystem is unmounted after the mount, the state is not the one
from before. -/
theorem not_same_unmounted {w : ℕ}
    (hnew : readSuperOf k (holding s v device) fsName device = some new)
    (hw : Unmountable k (afterMount k s v new) w)
    (hparent : (afterMount k s v new).parent (k.superBlock w) = some (k.superBlock c))
    (hid : k.id c = (afterMount k s v new).coveredId (k.superBlock w)) :
    ¬ Same s (unmounted (afterMount k s v new) (k.superBlock w) w c) := by
  have hmount := hw.mount
  obtain ⟨hfresh, -⟩ := readSuperOf_new hnew
  rw [sbList_holding] at hfresh
  unfold afterMount at hparent hid hmount
  dsimp only at hparent hid hmount
  by_cases hsb : k.superBlock w = new.superBlock
  · -- The directory below is found again by its number.
    rw [hsb, update_self] at hparent hid hmount
    obtain rfl := hmount
    obtain rfl : c = v :=
      k.id_injective c v (some.inj hparent).symm hid
    exact not_same_acquire (refs_unmounted_afterMount k s c new _)
  · intro hsame
    have hmem : new.superBlock ∈ (new.superBlock :: s.sbList).erase (k.superBlock w) :=
      (mem_erase_of_ne (Ne.symm hsb)).mpr mem_cons_self
    have hlist : (new.superBlock :: s.sbList).erase (k.superBlock w) = s.sbList :=
      hsame.sbList
    rw [hlist] at hmem
    exact hfresh hmem

theorem balanced_mountUnmount_iff :
    Balanced k s (.mountUnmount deviceName mountPoint fsName) ↔
      Condition k s (.mountUnmount deviceName mountPoint fsName) := by
  constructor
  · intro hbalanced v new w hmountable hresolve hw
    obtain ⟨hs, device, hnew⟩ := hmountable.vfsMount
    rcases vfsUnmount_cases (s := afterMount k s v new) hresolve with
      ⟨-, c, hparent, hid, hunmount⟩ | ⟨hnot, -⟩
    · exact not_same_unmounted hnew hw hparent hid (hbalanced _ _ hs hunmount)
    · exact hnot hw
  · intro hcondition s' s'' hs hunmount
    obtain ⟨v, new, hmountable, rfl⟩ := vfsMount_eq_zero hs
    cases hresolve : k.resolve (update s.mountNode v (some new.root)) mountPoint with
    | error e =>
      have hresolve' : k.resolve (afterMount k s v new).mountNode mountPoint = .error e := hresolve
      unfold vfsUnmount nameToVNode at hunmount
      rw [hresolve'] at hunmount
      exact absurd (mk.inj hunmount).1 e.2
    | ok w =>
      rcases vfsUnmount_cases (s := afterMount k s v new) hresolve with
        ⟨hw, -⟩ | ⟨-, err, herr, hresult⟩
      · exact absurd hw (hcondition v new w hmountable hresolve)
      · exact absurd (mk.inj (hresult.symm.trans hunmount)).1 herr

end RoundTrip

/-- When calls of `VfsMount` and `VfsUnmount` are balanced. -/
theorem mount_balanced_iff (k : Kernel) (s : State) (call : Call) :
    Balanced k s call ↔ Condition k s call := by
  cases call with
  | mount deviceName mountPoint fsName => exact balanced_mount_iff
  | unmount mountPoint => exact balanced_unmount_iff
  | mountUnmount deviceName mountPoint fsName => exact balanced_mountUnmount_iff

def smallKernel : Kernel where
  superBlock v := v - 1
  id v := v
  vNodes sb := if sb = 0 then [0, 1] else [sb + 1]
  isBlock _ := false
  readable _ := true
  root := 0
  fsList := [{
    name := "DevFs".toList
    readSuper := fun s _ =>
      if 1 ∉ s.sbList ∧ s.refs 2 = 0 then some ⟨1, 2⟩ else none }]
  resolve mountNode path :=
    if path = "/".toList then .ok 0
    else if path = "/mnt".toList then .ok ((mountNode 1).getD 1)
    else .error ⟨- ENOENT, neg_ENOENT_ne_zero⟩
  mem_vNodes sb v := by
    by_cases hsb : sb = 0
    · rw [if_pos hsb, mem_cons, mem_singleton]
      omega
    · rw [if_neg hsb, mem_singleton]
      omega
  id_injective _ _ _ hid := hid
  readSuper_new fs hfs s device new hnew := by
    obtain rfl := mem_singleton.mp hfs
    obtain ⟨⟨hlist, hrefs⟩, hnew⟩ := ite_none_right_eq_some.mp hnew
    cases hnew
    refine ⟨hlist, rfl, fun v hv => ?_⟩
    obtain rfl : v = 2 := by
      dsimp only at hv
      omega
    exact hrefs

def smallState : State where
  refs v := if v = 0 then 2 else 0
  mountNode _ := none
  sbList := [0]
  mount _ := 0
  coveredId _ := 0
  parent _ := none

/-- A device that does not exist, the root of the process, and a filesystem that
is mounted and unmounted. -/
theorem mount_not_balanced :
    ¬ Balanced smallKernel smallState (.mount (some "/disk".toList) "/mnt".toList none) ∧
      ¬ Balanced smallKernel smallState (.unmount "/".toList) ∧
      ¬ Balanced smallKernel smallState
        (.mountUnmount none "/mnt".toList (some "DevFs".toList)) := by
  refine ⟨fun h => ?_, fun h => ?_, fun h => ?_⟩
  · have hsame := h _ _ rfl (by decide)
    cases congrFun hsame.refs 1
  · have hsame := (h _ _ rfl).1 (by decide)
    cases congrFun hsame.refs 0
  · have hsame := h _ _ rfl rfl
    cases congrFun hsame.refs 2

end Whitix.Mounts
