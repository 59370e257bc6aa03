import Whitix.Fs.Vfs.StringPath
import Whitix.Fs.Vfs.Walk
import Whitix.Support.Run

/-!
# The working directory and its string

The lookup of a path goes from directory to directory, and `AddStringPath` goes
along with it in the string.  As long as it can follow the paths, the string
names the directory that the lookup has found.
-/

namespace Whitix.WorkingDir

open Support List Option Function Bool
open Vfs

/-! ## Directory trees -/

/-- A tree of directories without mount points below the root.  The entry `..`
of a directory is its parent, and the links can be followed. -/
structure DirectoryTree where
  tree : Tree
  mountNode : ∀ v, tree.mountNode v = none
  mount : ∀ v, tree.mount v = v → v = tree.root
  followLink : ∀ v, tree.isLink v = true → tree.followLink v ≠ none
  notLink : ∀ v, tree.isDir v = true → tree.isLink v = false
  names : NamesValid tree
  parent : ∀ dir lookup name v, tree.lookup dir = some lookup →
    name ≠ ['.'] → name ≠ ['.', '.'] → lookup name = .ok v →
    tree.isDir v = true → v ≠ tree.root ∧
      ∀ lookup', tree.lookup v = some lookup' → lookup' ['.', '.'] = .ok dir

structure Proper (name : Name) : Prop where
  ne_nil : name ≠ []
  noSlash : '/' ∉ name
  noNul : nul ∉ name
  ne_dot : name ≠ ['.']
  ne_dots : name ≠ ['.', '.']

/-- The directory with the given names below the root, the innermost one
first. -/
inductive Located (t : Tree) : List Name → ℕ → Prop
  | root : Located t [] t.root
  | child {names : List Name} {dir v : ℕ} {name : Name}
      {lookup : List Char → Except ErrorCode ℕ} :
      Located t names dir → t.isDir dir = true → t.lookup dir = some lookup →
        lookup name = .ok v → t.isDir v = true → Proper name → Located t (name :: names) v

def NoLinks (t : Tree) : ℕ → List Name → Prop
  | _, [] => True
  | dir, name :: names =>
    (∀ link v, resolve t name dir ≠ .followed link v) ∧
      ∀ v, (resolve t name dir).target dir = some v → NoLinks t v names

variable {lookup : List Char → Except ErrorCode ℕ} {dirName : DirName}

section Tree

variable {t : DirectoryTree} {name : Name} {names : List Name} {dir v : ℕ}

theorem resolveIn_ne_fault (hlookup : (t.tree.lookup dir).isNone = false) :
    resolveIn t.tree name dir ≠ .fault := by
  obtain ⟨lookup, hlookup⟩ := isSome_iff_exists.mp (isNone_eq_false_iff.mp hlookup)
  unfold resolveIn
  rw [hlookup]
  dsimp only
  cases lookup name with
  | error e => nofun
  | ok v =>
    dsimp only
    split_ifs with hlink
    · cases hfollow : t.tree.followLink ((t.tree.mountNode v).getD v) with
      | none => exact absurd hfollow (t.followLink _ hlink)
      | some result =>
        cases result with
        | target u | failed e cleared => nofun
    · nofun

theorem resolve_ne_fault (t : DirectoryTree) (name : Name) (dir : ℕ) :
    resolve t.tree name dir ≠ .fault := by
  unfold resolve
  split_ifs with hlookup hdir hdot hdots hroot hmount
  · nofun
  · nofun
  · nofun
  · nofun
  · exact absurd (t.mount dir hmount.symm) hroot
  · exact resolveIn_ne_fault (not_eq_true _ ▸ hlookup)
  · exact resolveIn_ne_fault (not_eq_true _ ▸ hlookup)

theorem resolveIn_dir (hlookup : t.tree.lookup dir = some lookup) (hname : lookup name = .ok v)
    (hdir : t.tree.isDir v = true) : resolveIn t.tree name dir = .found v := by
  have hlink := t.notLink v hdir
  unfold resolveIn
  rw [hlookup]
  dsimp only
  rw [hname]
  dsimp only
  rw [t.mountNode v, getD_none, if_neg (by rw [hlink]; nofun)]

theorem resolve_dir (hdir : t.tree.isDir dir = true) (hlookup : t.tree.lookup dir = some lookup)
    (hdot : name ≠ ['.']) (hroot : name = ['.', '.'] → dir ≠ t.tree.root)
    (hname : lookup name = .ok v) (hv : t.tree.isDir v = true) :
    resolve t.tree name dir = .found v := by
  have hfound := resolveIn_dir hlookup hname hv
  unfold resolve
  rw [if_neg (by rw [hlookup]; nofun), if_neg (by rw [hdir]; nofun), if_neg hdot]
  by_cases hdots : name = ['.', '.']
  · have hmount : dir ≠ t.tree.mount dir := fun h =>
      hroot hdots (t.mount dir h.symm)
    rw [if_pos hdots, if_neg (hroot hdots), if_neg hmount]
    exact hfound
  · rw [if_neg hdots]
    exact hfound

theorem entry_of_target (hdot : name ≠ ['.']) (hdots : name ≠ ['.', '.'])
    (hlink : ∀ link u, resolve t.tree name dir ≠ .followed link u)
    (htarget : (resolve t.tree name dir).target dir = some v) :
    t.tree.isDir dir = true ∧ ∃ lookup, t.tree.lookup dir = some lookup ∧ lookup name = .ok v := by
  unfold resolve at htarget hlink
  split_ifs at htarget hlink with hlookup hdir
  · cases htarget
  · cases htarget
  refine ⟨not_eq_false _ ▸ hdir, ?_⟩
  unfold resolveIn at htarget hlink
  cases hsome : t.tree.lookup dir with
  | none =>
    rw [hsome] at htarget
    cases htarget
  | some lookup =>
    rw [hsome] at htarget hlink
    dsimp only at htarget hlink
    refine ⟨lookup, rfl, ?_⟩
    cases hname : lookup name with
    | error e =>
      rw [hname] at htarget
      cases htarget
    | ok u =>
      rw [hname] at htarget hlink
      dsimp only at htarget hlink
      rw [t.mountNode u, getD_none] at htarget hlink
      split_ifs at htarget hlink
      · cases hfollow : t.tree.followLink u with
        | none =>
          rw [hfollow] at htarget
          cases htarget
        | some result =>
          cases result with
          | target w =>
            rw [hfollow] at hlink
            exact absurd rfl (hlink u w)
          | failed e cleared =>
            rw [hfollow] at htarget
            cases htarget
      · rw [some.inj htarget]

theorem target_dot (hdot : name = ['.'])
    (htarget : (resolve t.tree name dir).target dir = some v) : v = dir := by
  unfold resolve at htarget
  split_ifs at htarget
  · cases htarget
  · cases htarget
  · exact (some.inj htarget).symm

theorem Located.target_parent (h : Located t.tree (name :: names) dir)
    (htarget : (resolve t.tree ['.', '.'] dir).target dir = some v) : Located t.tree names v := by
  cases h with
  | @child _ p _ _ lookup hlocated hp hlookup hname hdir hproper =>
    obtain ⟨hroot, hparent⟩ := t.parent p lookup name dir hlookup hproper.ne_dot
      hproper.ne_dots hname hdir
    cases hlookup' : t.tree.lookup dir with
    | none =>
      unfold resolve at htarget
      rw [hlookup'] at htarget
      cases htarget
    | some lookup' =>
      rw [resolve_dir hdir hlookup' (by decide) (fun _ => hroot)
        (hparent lookup' hlookup') hp] at htarget
      cases htarget
      exact hlocated

section

variable (h : Located t.tree names dir)
include h

theorem Located.enter (hlink : ∀ link u, resolve t.tree name dir ≠ .followed link u)
    (htarget : (resolve t.tree name dir).target dir = some v)
    (hv : t.tree.isDir v = true) (hparent : name = ['.', '.'] → names ≠ [])
    (hnul : nul ∉ name) : Located t.tree (enter names name) v := by
  unfold WorkingDir.enter
  split_ifs with hdot hdots
  · rw [target_dot hdot htarget]
    exact h
  · obtain ⟨n, names, rfl⟩ := exists_cons_of_ne_nil (hparent hdots)
    rw [hdots] at htarget
    exact h.target_parent htarget
  · obtain ⟨hdir, lookup, hlookup, hname⟩ :=
      entry_of_target hdot hdots hlink htarget
    obtain ⟨hne, hslash⟩ := t.names dir lookup name v hlookup hname
    exact .child h hdir hlookup hname hv ⟨hne, hslash, hnul, hdot, hdots⟩

theorem Located.descend {path : List Name} (hfollows : Follows names path)
    (hlinks : NoLinks t.tree dir path) (hnul : ∀ n ∈ path, nul ∉ n)
    (hdescend : Vfs.descend t.tree dir path = some v) :
    Located t.tree (path.foldl WorkingDir.enter names) v := by
  induction path generalizing names dir with
  | nil =>
    cases hdescend
    exact h
  | cons name path ih =>
    obtain ⟨-, -, hparent, -, hfollows⟩ := hfollows
    obtain ⟨hlink, hlinks⟩ := hlinks
    obtain ⟨u, hu, hdescend⟩ := bind_eq_some_iff.mp hdescend
    obtain ⟨hdir, hdescend⟩ := ite_none_right_eq_some.mp hdescend
    exact ih (h.enter hlink hu hdir hparent (hnul name mem_cons_self))
      hfollows (hlinks u hu) (forall_mem_cons.mp hnul).2
      hdescend

theorem Located.descend_root : Vfs.descend t.tree t.tree.root names.reverse = some dir := by
  induction h with
  | root => rfl
  | @child names p v name lookup hlocated hp hlookup hname hv hproper ih =>
    have hresolve := resolve_dir hp hlookup hproper.ne_dot
      (fun hdots => absurd hdots hproper.ne_dots) hname hv
    rw [reverse_cons, descend_append, ih, bind_some, Vfs.descend, hresolve]
    exact if_pos hv

theorem Located.proper : ∀ n ∈ names, Proper n := by
  induction h with
  | root => exact nofun
  | child _ _ _ _ _ hproper ih =>
    exact forall_mem_cons.mpr ⟨hproper, ih⟩

end

end Tree

/-! ## Calls -/

def changeDirFlags : ℕ := fileRead ||| fileForceOpen

theorem opensOnly_changeDirFlags : OpensOnly changeDirFlags := by
  unfold OpensOnly
  decide

/-- The string is an absolute path, without `.`, `..` or empty components, that
leads to the working directory. -/
structure Agrees (t : Tree) (s : State) : Prop where
  names : ∃ names, (∀ n ∈ names, Proper n) ∧ string s.sCwd = rooted '/' names
  resolves : ∀ ret refs, ∃ r,
    nameToVNode (treeAt t s.cwd) ret (string s.sCwd) changeDirFlags none refs =
      some r ∧ r.err = 0 ∧ r.ret = some s.cwd

def cwdNames (s : State) : List Name := (components '/' (string s.sCwd)).reverse

/-- A call that `AddStringPath` can follow: the path is not empty and, if it has
to be looked up and leads to a directory, it leads there without links and
`AddStringPath` can follow its components. -/
structure Followable (t : Tree) (s : State) (dirName : DirName) : Prop where
  ne_nil : dirName.path ≠ []
  follows : changeDirShort t s dirName.path = none →
    ∀ v, descend t (startDir (treeAt t s.cwd) (stripSlash dirName.path) none)
        (components '/' (stripSlash dirName.path)) = some v →
      Follows (startNames (cwdNames s) (stripSlash dirName.path))
          (components '/' (stripSlash dirName.path)) ∧
        NoLinks t (startDir (treeAt t s.cwd) (stripSlash dirName.path) none)
          (components '/' (stripSlash dirName.path))

/-- The string is written from the names of the working directory. -/
def Inv (t : Tree) (s : State) : Prop :=
  ∃ names, Located t names s.cwd ∧ Contains s.sCwd (written names)

variable {name path : List Char}

section Calls

variable {t : DirectoryTree} {s s' : State} {names : List Name}

theorem descend_treeAt (t : Tree) (cwd dir : ℕ) (path : List Name) :
    descend (treeAt t cwd) dir path = descend t dir path := by
  induction path generalizing dir with
  | nil => rfl
  | cons name path ih =>
    have hresolve : resolve (treeAt t cwd) name dir = resolve t name dir := rfl
    rw [descend, hresolve]
    congr 1
    funext v
    rw [ih]
    rfl

theorem noNul_written (h : ∀ n ∈ names, Proper n) : nul ∉ written names := by
  intro hmem
  rcases mem_cons.mp hmem with heq | hmem
  · cases heq
  · obtain ⟨n, hn, hmem⟩ := mem_flatMap.mp hmem
    rcases mem_append.mp hmem with hmem | hmem
    · exact (h n (mem_reverse.mp hn)).noNul hmem
    · cases mem_singleton.mp hmem

theorem valid_of_proper (h : ∀ n ∈ names, Proper n) : ∀ n ∈ names, n ≠ [] ∧ '/' ∉ n :=
  fun n hn => ⟨(h n hn).ne_nil, (h n hn).noSlash⟩

theorem Inv.agrees (h : Inv t.tree s) : Agrees t.tree s := by
  obtain ⟨names, hlocated, hcontains⟩ := h
  have hproper : ∀ n ∈ names.reverse, Proper n := fun n hn =>
    hlocated.proper n (mem_reverse.mp hn)
  refine ⟨⟨names.reverse, hproper, hcontains.string⟩, fun ret refs => ?_⟩
  rw [hcontains.string]
  apply nameToVNode_rooted opensOnly_changeDirFlags (valid_of_proper hproper)
  rw [descend_treeAt]
  exact hlocated.descend_root

theorem cwdNames_eq (hlocated : Located t.tree names s.cwd)
    (hcontains : Contains s.sCwd (written names)) : cwdNames s = names := by
  unfold cwdNames
  rw [hcontains.string, written, components_rooted, reverse_reverse]
  exact fun n hn => valid_of_proper hlocated.proper n (mem_reverse.mp hn)

theorem contains_slashString (sCwd : Buffer) : Contains (slashString sCwd) (written []) :=
  ⟨holds_slashString sCwd, by decide, rfl, by decide⟩

theorem Inv.changeDirShort (h : Inv t.tree s)
    (hs : changeDirShort t.tree s path = some s') : Inv t.tree s' := by
  unfold WorkingDir.changeDirShort at hs
  split_ifs at hs with hdots hdot hslash hroot
  · cases hs
    exact h
  · cases hs
    exact h
  · cases hs
    exact ⟨[], .root, contains_slashString s.sCwd⟩
  · cases hs
    have hcwd : s.cwd = t.tree.root := not_not.mp hroot
    refine ⟨[], ?_, contains_slashString s.sCwd⟩
    rw [hcwd]
    exact .root

theorem stripped_eq (dirName : DirName) :
    ∃ behind, dirName.stripped = stripSlash dirName.path ++ nul :: behind := by
  unfold DirName.stripped stripSlash
  split_ifs
  · exact ⟨nul :: dirName.behind, rfl⟩
  · exact ⟨dirName.behind, rfl⟩

theorem noNul_stripSlash (dirName : DirName) : nul ∉ stripSlash dirName.path := by
  unfold stripSlash
  split_ifs
  · exact fun hmem => dirName.noNul (mem_of_mem_dropLast hmem)
  · exact dirName.noNul

theorem endsInName_of_suffix (hsuffix : name <:+ path)
    (hne : name ≠ []) (hname : '/' ∉ name) : EndsInName path := by
  obtain ⟨front, rfl⟩ := hsuffix
  intro c hc heq
  rw [getLast?_append_of_ne_nil _ hne] at hc
  exact hname (heq ▸ mem_of_getLast? hc)

theorem Located.start (h : Located t.tree names s.cwd) (path : List Char) :
    Located t.tree (startNames names path) (startDir (treeAt t.tree s.cwd) path none) := by
  unfold startNames startDir
  split_ifs
  · exact .root
  · exact h

theorem Inv.addStringPath {v : ℕ} (h : Inv t.tree s) (hpath : stripSlash dirName.path ≠ [])
    (hends : EndsInName (stripSlash dirName.path))
    (hfollows : Follows (startNames (cwdNames s) (stripSlash dirName.path))
      (components '/' (stripSlash dirName.path)))
    (hlinks : NoLinks t.tree (startDir (treeAt t.tree s.cwd) (stripSlash dirName.path) none)
      (components '/' (stripSlash dirName.path)))
    (hdescend : descend t.tree (startDir (treeAt t.tree s.cwd) (stripSlash dirName.path) none)
      (components '/' (stripSlash dirName.path)) = some v) :
    ∃ sCwd', addStringPath s.sCwd dirName.stripped = .ok sCwd' ∧
      ∀ refs, Inv t.tree ⟨sCwd', v, refs⟩ := by
  obtain ⟨names, hlocated, hcontains⟩ := h
  have hnul := noNul_stripSlash dirName
  obtain ⟨behind, hstripped⟩ := stripped_eq dirName
  rw [cwdNames_eq hlocated hcontains] at hfollows
  obtain ⟨sCwd', names', hnames', hadd, hholds, hend, hlt⟩ :=
    @addStringPath_follows s.sCwd names _ behind hcontains
      (valid_of_proper hlocated.proper) hpath hnul hends hfollows
  have hlocated' : Located t.tree names' v := by
    rw [hnames']
    exact (hlocated.start _).descend hfollows hlinks
      (fun n hn hmem => hnul (mem_of_mem_components hn hmem)) hdescend
  refine ⟨sCwd', by rw [hstripped, hadd], fun refs => ⟨names', hlocated', ?_⟩⟩
  exact ⟨hholds, noNul_written hlocated'.proper, hend, hlt⟩

/-- What a call does that meets the condition: it returns, it keeps the string
and the vnode together, and if it fails it changes neither. -/
theorem Inv.vfsChangeDir (h : Inv t.tree s) (hfollowable : Followable t.tree s dirName) :
    ∃ err s', vfsChangeDir t.tree s dirName = .ok (err, s') ∧ Inv t.tree s' ∧
      (err ≠ 0 → s'.sCwd = s.sCwd ∧ s'.cwd = s.cwd) := by
  unfold WorkingDir.vfsChangeDir
  cases hshort : WorkingDir.changeDirShort t.tree s dirName.path with
  | some s' =>
    exact ⟨0, s', rfl, h.changeDirShort hshort, fun h => absurd rfl h⟩
  | none =>
    have hroot : dirName.path ≠ ['/'] := by
      intro hpath
      unfold WorkingDir.changeDirShort at hshort
      rw [hpath] at hshort
      split_ifs at hshort
      exact absurd rfl ‹_›
    obtain ⟨r, hr⟩ := @nameToVNode_isSome (treeAt t.tree s.cwd) dirName.path
      changeDirFlags none none s.refs opensOnly_changeDirFlags
      (resolve_ne_fault t) hfollowable.ne_nil
    unfold changeDirFlags at hr
    rw [hr]
    dsimp only
    by_cases herr : r.err ≠ 0
    · rw [if_pos herr]
      exact ⟨_, _, rfl, h, fun _ => ⟨rfl, rfl⟩⟩
    rw [if_neg herr]
    obtain ⟨dirs, name, d, v, hcomponents, hdescend, htarget, hret, hsuffix, hne,
      hname⟩ := nameToVNode_found (t := treeAt t.tree s.cwd)
        opensOnly_changeDirFlags t.names hroot hr (not_not.mp herr)
    rw [hret]
    dsimp only
    by_cases hdir : t.tree.isDir v = false
    · rw [if_pos hdir]
      exact ⟨_, _, rfl, h, fun _ => ⟨rfl, rfl⟩⟩
    rw [if_neg hdir]
    have hwhole : descend t.tree (startDir (treeAt t.tree s.cwd) (stripSlash dirName.path) none)
        (components '/' (stripSlash dirName.path)) = some v := by
      rw [descend_treeAt] at hdescend
      rw [hcomponents, descend_append, hdescend, bind_some, descend]
      have htarget' : (resolve t.tree name d).target d = some v := htarget
      rw [htarget', bind_some]
      exact if_pos (not_eq_false _ ▸ hdir)
    obtain ⟨hfollows, hlinks⟩ := hfollowable.follows hshort v hwhole
    obtain ⟨sCwd', hadd, hinv⟩ := h.addStringPath (stripSlash_ne_nil hfollowable.ne_nil hroot)
      (endsInName_of_suffix hsuffix hne hname) hfollows hlinks hwhole
    rw [hadd]
    exact ⟨0, _, rfl, hinv _, fun hzero => absurd rfl hzero⟩

end Calls

/-! ## Runs -/

def step (t : Tree) (s : State) (dirName : DirName) : Option State :=
  match vfsChangeDir t s dirName with
  | .error _ => none
  | .ok (_, s') => some s'

/-- A process that works in the root, with the string `/` and whatever was in the
buffer before. -/
def initial (t : Tree) (memory : Buffer) (refs : ℕ → ℕ) : State where
  sCwd := update (update memory 0 '/') 1 nul
  cwd := t.root
  refs := refs

theorem inv_initial (t : Tree) (memory : Buffer) (refs : ℕ → ℕ) :
    Inv t (initial t memory refs) := by
  refine ⟨[], .root, ?_, by decide, rfl, by decide⟩
  intro i c hc
  cases i with
  | zero => exact some.inj hc
  | succ i => cases hc

theorem Inv.step {t : DirectoryTree} {s s' : State}
    (h : Inv t.tree s) (hfollowable : Followable t.tree s dirName)
    (hs : step t.tree s dirName = some s') : Inv t.tree s' := by
  obtain ⟨err, s'', hcall, hinv, -⟩ := h.vfsChangeDir hfollowable
  unfold WorkingDir.step at hs
  rw [hcall] at hs
  cases hs
  exact hinv

/-- While `AddStringPath` can follow the paths, the string leads to the working
directory, and the next call returns without leaving the string, and without a
change if it fails. -/
theorem cwd_agrees (t : DirectoryTree) (memory : Buffer) (refs : ℕ → ℕ) (s : State)
    (hreach : Reach (step t.tree) (Followable t.tree) (initial t.tree memory refs) s) :
    Agrees t.tree s ∧ ∀ dirName, Followable t.tree s dirName →
      ∃ err s', vfsChangeDir t.tree s dirName = .ok (err, s') ∧
        (err ≠ 0 → s'.sCwd = s.sCwd ∧ s'.cwd = s.cwd) := by
  have hinv : Inv t.tree s := hreach.invariant (inv_initial t.tree memory refs)
    fun s dirName s' h hfollowable hs => h.step hfollowable hs
  refine ⟨hinv.agrees, fun dirName hfollowable => ?_⟩
  obtain ⟨err, s', hcall, -, hfailed⟩ := hinv.vfsChangeDir hfollowable
  exact ⟨err, s', hcall, hfailed⟩

def exampleTree : Tree where
  mode v := if v ≤ 2 then attrDir else 0
  locked _ := false
  ops v := some
    { lookup := some fun name =>
        if v = 0 ∧ name = ['a'] then .ok 1
        else if v = 1 ∧ name = ['.', '.'] then .ok 0
        else if v = 1 ∧ name = ['.', 'b'] then .ok 2
        else if v = 2 ∧ name = ['.', '.'] then .ok 1
        else .error ⟨-ENOENT, neg_ENOENT_ne_zero⟩
      create := none
      followLink := none }
  mountNode _ := none
  mount _ := 0
  covered _ := none
  root := 0
  cwd := 0

theorem exampleTree_lookup {dir v : ℕ} (hlookup : exampleTree.lookup dir = some lookup)
    (hname : lookup name = .ok v) :
    dir = 0 ∧ name = ['a'] ∧ v = 1 ∨ dir = 1 ∧ name = ['.', '.'] ∧ v = 0 ∨
      dir = 1 ∧ name = ['.', 'b'] ∧ v = 2 ∨ dir = 2 ∧ name = ['.', '.'] ∧ v = 1 := by
  cases hlookup
  dsimp only at hname
  split_ifs at hname with h₁ h₂ h₃ h₄
  · exact .inl ⟨h₁.1, h₁.2, (Except.ok.inj hname).symm⟩
  · exact .inr (.inl ⟨h₂.1, h₂.2, (Except.ok.inj hname).symm⟩)
  · exact .inr (.inr (.inl ⟨h₃.1, h₃.2, (Except.ok.inj hname).symm⟩))
  · exact .inr (.inr (.inr ⟨h₄.1, h₄.2, (Except.ok.inj hname).symm⟩))

theorem exampleTree_isLink (v : ℕ) : exampleTree.isLink v = false := by
  unfold Tree.isLink exampleTree
  dsimp only
  split_ifs
  · rfl
  · rfl

def exampleDirectories : DirectoryTree where
  tree := exampleTree
  mountNode _ := rfl
  mount v hv := hv.symm
  followLink v hlink := by
    rw [exampleTree_isLink] at hlink
    cases hlink
  notLink v _ := exampleTree_isLink v
  names dir lookup name v hlookup hname := by
    rcases exampleTree_lookup hlookup hname with
      ⟨-, rfl, -⟩ | ⟨-, rfl, -⟩ | ⟨-, rfl, -⟩ | ⟨-, rfl, -⟩ <;> decide
  parent dir lookup name v hlookup hdot hdots hname hdir := by
    rcases exampleTree_lookup hlookup hname with
      ⟨rfl, rfl, rfl⟩ | ⟨-, rfl, -⟩ | ⟨rfl, rfl, rfl⟩ | ⟨-, rfl, -⟩
    · refine ⟨by decide, fun lookup' hlookup' => ?_⟩
      cases hlookup'
      rfl
    · exact absurd rfl hdots
    · refine ⟨by decide, fun lookup' hlookup' => ?_⟩
      cases hlookup'
      rfl
    · exact absurd rfl hdots

def exampleStart : State := initial exampleTree (fun _ => 'x') fun _ => 1

def nameA : DirName := ⟨['a'], [], by decide⟩

def nameDotB : DirName := ⟨['.', 'b'], [], by decide⟩

def nameAbove : DirName := ⟨['/', '.', '.'], [], by decide⟩

theorem followable_nameA : Followable exampleTree exampleStart nameA := by
  refine ⟨by decide, fun _ v _ => ⟨?_, ?_⟩⟩
  · show Follows [] [['a']]
    exact ⟨by decide, by decide, by decide, by decide, trivial⟩
  · show NoLinks exampleTree 0 [['a']]
    exact ⟨nofun, fun _ _ => trivial⟩

/-- After changing to `a` the string is `/a/`. -/
theorem cwd_agrees_a : ∃ s, Reach (step exampleTree) (Followable exampleTree) exampleStart s ∧
    string s.sCwd = ['/', 'a', '/'] ∧ s.cwd = 1 ∧ Agrees exampleTree s := by
  have hstep : (step exampleTree exampleStart nameA).map
      (fun s => (string s.sCwd, s.cwd)) = some (['/', 'a', '/'], 1) := by decide
  obtain ⟨s, hs, hend⟩ := map_eq_some_iff.mp hstep
  have hreach := Reach.tail nameA Reach.refl followable_nameA hs
  obtain ⟨hstring, hcwd⟩ := Prod.mk.inj hend
  exact ⟨s, hreach, hstring, hcwd, (cwd_agrees exampleDirectories _ _ s hreach).1⟩

/-- After changing to `a` and to `.b` the string is still `/a/`, and changing to
`/..` goes below the first character of the string. -/
theorem cwd_disagrees :
    (∃ s, Reach (step exampleTree) (fun _ _ => True) exampleStart s ∧ ¬ Agrees exampleTree s) ∧
      vfsChangeDir exampleTree exampleStart nameAbove = .error .sCwd := by
  obtain ⟨s, hs, hstring, hcwd⟩ := exists_reach (step exampleTree) (fun _ _ => True) exampleStart
    [nameA, nameDotB] (fun s => string s.sCwd = ['/', 'a', '/'] ∧ s.cwd = 2) (by decide)
  refine ⟨⟨s, hs, fun h => ?_⟩, rfl⟩
  obtain ⟨r, hr, -, hret⟩ := h.resolves none (fun _ => 1)
  rw [hstring, hcwd] at hr
  rw [hcwd] at hret
  have hone : (nameToVNode (treeAt exampleTree 2) none ['/', 'a', '/']
      changeDirFlags none fun _ => 1).bind LookupResult.ret = some 1 := by decide
  rw [hr, bind_some, hret] at hone
  cases hone

end Whitix.WorkingDir
