import Whitix.Fs.Vfs.Path
import Whitix.Support.Components

/-!
# The vnode a path leads to

The walk of `DirNameVNode` follows the components of a path: every component
but the last one leads from a directory to a directory.  What `NameToVNode`
returns for a path depends on the tree and the components alone, not on the
reference counts.
-/

namespace Whitix.Vfs

open Support List Nat Option

def Resolution.target (dir : ℕ) : Resolution → Option ℕ
  | .self => some dir
  | .found v => some v
  | .followed _ v => some v
  | .unsupported _ | .missing _ | .broken _ _ _ | .fault => none

/-- The directory that names lead to, through directories. -/
def descend (t : Tree) : ℕ → List (List Char) → Option ℕ
  | dir, [] => some dir
  | dir, name :: names =>
    ((resolve t name dir).target dir).bind fun v =>
      if t.isDir v then descend t v names else none

section

variable {resolution : Resolution}

theorem result_target {ret : Option ℕ} {dir : ℕ} {refs : ℕ → ℕ} {r : LookupResult}
    (h : resolution.result ret dir refs = some r) (herr : r.err = 0) :
    ∃ v under, resolution.target dir = some v ∧ r.ret = some v ∧ r.refs = acquire under v := by
  cases resolution with
  | unsupported e | missing e | broken link e cleared => cases h; exact absurd herr e.2
  | self => cases h; exact ⟨dir, refs, rfl, rfl, rfl⟩
  | found v => cases h; exact ⟨v, refs, rfl, rfl, rfl⟩
  | followed link v => cases h; exact ⟨v, acquire refs link, rfl, rfl, rfl⟩
  | fault => cases h

theorem result_of_target {dir v : ℕ}
    (h : resolution.target dir = some v) (ret : Option ℕ) (refs : ℕ → ℕ) :
    ∃ under, resolution.result ret dir refs = some ⟨0, some v, acquire under v⟩ := by
  cases resolution with
  | unsupported e | missing e | broken link e cleared | fault => cases h
  | self | found u => cases h; exact ⟨refs, rfl⟩
  | followed link u => cases h; exact ⟨acquire refs link, rfl⟩

theorem result_isSome (h : resolution ≠ .fault) (ret : Option ℕ) (dir : ℕ) (refs : ℕ → ℕ) :
    ∃ r, resolution.result ret dir refs = some r := by
  cases resolution with
  | fault => exact absurd rfl h
  | unsupported e | self | missing e | found v | followed link v => exact ⟨_, rfl⟩
  | broken link e cleared => exact ⟨_, rfl⟩

end

theorem descend_append (t : Tree) (dir : ℕ) (names names' : List (List Char)) :
    descend t dir (names ++ names') = (descend t dir names).bind (descend t · names') := by
  induction names generalizing dir with
  | nil => rfl
  | cons name names ih =>
    rw [cons_append, descend, descend, bind_assoc]
    congr 1
    funext v
    split_ifs
    · exact ih v
    · rfl

/-! ## Rounds of the walk -/

section Loop

variable {t : Tree} {fuel dir d : ℕ} {path name : List Char}
  {currName : Option (List Char)} {under refs' : ℕ → ℕ}

theorem dirNameLoop_round {slash : Char} {rest : List Char}
    (hrest : (path.dropWhile (· = '/')).dropWhile (· ≠ '/') = slash :: rest) :
    dirNameLoop t (fuel + 1) path currName dir (acquire under dir) =
      ((resolve t ((path.dropWhile (· = '/')).takeWhile (· ≠ '/')) dir).result
        none dir (acquire under dir)).bind fun r =>
          if r.err ≠ 0 then some (none, r.refs)
          else
            r.ret.bind fun newNode =>
              if t.isDir newNode = false then some (none, r.refs)
              else dirNameLoop t fuel rest (some (path.dropWhile (· = '/'))) newNode r.refs := by
  have hpath : path ≠ [] := by
    rintro rfl
    cases hrest
  rw [dirNameLoop, if_neg hpath]
  dsimp only
  rw [hrest, vfsDoLookup_eq]

theorem dirNameLoop_found
    (h : dirNameLoop t fuel path currName dir (acquire under dir) = some (some (d, name), refs'))
    (hcurr : ∀ n ∈ currName, '/' ∈ n) (hname : '/' ∉ name) (hne : name ≠ []) :
    ∃ dirs, components '/' path = dirs ++ [name] ∧ descend t dir dirs = some d ∧ name <:+ path := by
  induction fuel generalizing path currName dir under with
  | zero => cases h
  | succ fuel ih =>
    by_cases hpath : path = []
    · rw [dirNameLoop, if_pos hpath] at h
      obtain ⟨n, hn, heq⟩ := map_eq_some_iff.mp h
      cases heq
      exact absurd (hcurr _ hn) hname
    cases hrest : (path.dropWhile (· = '/')).dropWhile (· ≠ '/') with
    | nil =>
      have hlast := dropWhile_eq_nil_iff_notMem.mp hrest
      rw [dirNameLoop_stop t fuel currName dir _ hpath hlast] at h
      cases h
      refine ⟨[], ?_, rfl, dropWhile_suffix _⟩
      rw [← components_dropWhile, components_of_notMem hne hlast, nil_append]
    | cons slash rest =>
      have hcut := eq_takeWhile_append hrest
      rw [dirNameLoop_round hrest] at h
      obtain ⟨r, hresult, h⟩ := bind_eq_some_iff.mp h
      obtain ⟨herr, h⟩ | ⟨herr, h⟩ := ite_eq_iff.mp h
      · cases h
      obtain ⟨v, under', hv, hret, hrefs⟩ :=
        result_target hresult (not_not.mp herr)
      rw [hret, hrefs] at h
      obtain ⟨hdir, h⟩ | ⟨hdir, h⟩ := ite_eq_iff.mp h
      · cases h
      have hslash : '/' ∈ path.dropWhile (· = '/') := by
        rw [hcut]
        exact mem_append_right _ mem_cons_self
      obtain ⟨dirs, hcomponents, hdescend, hsuffix⟩ := ih h (fun n hn => some.inj hn ▸ hslash)
      refine ⟨(path.dropWhile (· = '/')).takeWhile (· ≠ '/') :: dirs, ?_, ?_, hsuffix.trans ?_⟩
      · rw [← components_dropWhile, hcut, components_append (takeWhile_dropWhile_ne_nil hrest)
            (notMem_takeWhile _ _), hcomponents, ← hcut]
        rfl
      · rw [descend, hv, bind_some, if_pos (Bool.not_eq_false _ ▸ hdir), hdescend]
      · have hrest' : rest <:+ path.dropWhile (· = '/') := by
          rw [hcut]
          exact (suffix_cons _ _).trans (suffix_append _ _)
        exact hrest'.trans (dropWhile_suffix _)

theorem dirNameLoop_of_descend {names : List (List Char)} (hnames : ∀ n ∈ names, n ≠ [] ∧ '/' ∉ n)
    (hname : '/' ∉ name) (hne : name ≠ []) (hdescend : descend t dir names = some d)
    (hfuel : names.length < fuel) :
    ∃ under', dirNameLoop t fuel (names.flatMap (· ++ ['/']) ++ name) currName
      dir (acquire under dir) = some (some (d, name), acquire under' d) := by
  induction names generalizing fuel dir currName under with
  | nil =>
    obtain ⟨fuel, rfl⟩ := exists_eq_succ_of_ne_zero (ne_of_gt (zero_lt_of_lt hfuel))
    cases hdescend
    have hkept := dropWhile_append_of_notMem hne hname []
    rw [append_nil] at hkept
    refine ⟨under, ?_⟩
    rw [flatMap_nil, nil_append,
      dirNameLoop_stop t fuel currName _ _ hne (hkept.symm ▸ hname), hkept]
  | cons n names ih =>
    obtain ⟨fuel, rfl⟩ := exists_eq_succ_of_ne_zero (ne_of_gt (zero_lt_of_lt hfuel))
    obtain ⟨hn, hslash⟩ := hnames n mem_cons_self
    obtain ⟨v, hv, h⟩ := bind_eq_some_iff.mp hdescend
    obtain ⟨hdir, h⟩ := ite_none_right_eq_some.mp h
    -- The path behind the first name.
    generalize hrest : names.flatMap (· ++ ['/']) ++ name = rest at ih
    have hpath : (n :: names).flatMap (· ++ ['/']) ++ name = n ++ '/' :: rest := by
      rw [flatMap_cons, append_assoc, hrest, append_assoc]
      rfl
    have hkept := dropWhile_append_of_notMem hn hslash ('/' :: rest)
    obtain ⟨htake, hdrop⟩ := takeWhile_append_sep hslash rest
    have hround : ((n ++ '/' :: rest).dropWhile (· = '/')).dropWhile (· ≠ '/') =
        '/' :: rest := by rw [hkept, hdrop]
    obtain ⟨under', hresult⟩ := result_of_target hv none (acquire under dir)
    have hloop : ∃ under'', dirNameLoop t fuel rest (some (n ++ '/' :: rest)) v
        (acquire under' v) = some (some (d, name), acquire under'' d) :=
      ih (forall_mem_cons.mp hnames).2 h (lt_of_succ_lt_succ hfuel)
    obtain ⟨under'', hloop⟩ := hloop
    refine ⟨under'', ?_⟩
    rw [hpath, dirNameLoop_round hround, hkept, htake, hresult]
    dsimp only [bind_some]
    rw [if_neg (fun hzero => hzero rfl), if_neg (by rw [hdir]; nofun), hloop]

theorem dirNameLoop_isSome (hfault : ∀ name dir, resolve t name dir ≠ .fault)
    (hpath : path ≠ [] ∨ currName ≠ none) (hfuel : path.length < fuel) :
    ∃ outcome, dirNameLoop t fuel path currName dir (acquire under dir) = some outcome := by
  induction fuel generalizing path currName dir under with
  | zero => exact absurd hfuel (not_lt_zero _)
  | succ fuel ih =>
    by_cases hnil : path = []
    · obtain ⟨n, hn⟩ := ne_none_iff_exists.mp (hpath.resolve_left (not_not.mpr hnil))
      rw [dirNameLoop, if_pos hnil, ← hn]
      exact ⟨_, rfl⟩
    cases hrest : (path.dropWhile (· = '/')).dropWhile (· ≠ '/') with
    | nil =>
      have hlast := dropWhile_eq_nil_iff_notMem.mp hrest
      rw [dirNameLoop_stop t fuel currName dir _ hnil hlast]
      exact ⟨_, rfl⟩
    | cons slash rest =>
      have hshorter : rest.length < fuel := by
        have hdrop := (dropWhile_suffix (· = '/') (l := path)).length_le
        have hcut := congrArg length (eq_takeWhile_append hrest)
        rw [length_append, length_cons] at hcut
        omega
      rw [dirNameLoop_round hrest]
      obtain ⟨r, hr⟩ := result_isSome (hfault _ dir) none dir (acquire under dir)
      rw [hr, bind_some]
      split_ifs with herr
      · exact ⟨_, rfl⟩
      obtain ⟨v, under', -, hret, hrefs⟩ := result_target hr (not_not.mp herr)
      rw [hret, bind_some, hrefs]
      split_ifs with hdir
      · exact ⟨_, rfl⟩
      · exact ih (.inr (some_ne_none _)) hshorter

end Loop

/-! ## `NameToVNode` -/

def OpensOnly (flags : ℕ) : Prop :=
  flags &&& fileForceCreate = 0 ∧ flags &&& fileCreateOpen = 0 ∧ flags &&& fileDirectory = 0

def NamesValid (t : Tree) : Prop :=
  ∀ dir lookup name v, t.lookup dir = some lookup → lookup name = .ok v → name ≠ [] ∧ '/' ∉ name

section NameToVNode

variable {t : Tree} {path name : List Char} {flags dir v : ℕ}
  {ret dirAt : Option ℕ} {refs : ℕ → ℕ} {r : LookupResult}

theorem resolveIn_target_valid (hvalid : NamesValid t) {d : ℕ}
    (h : (resolveIn t name d).target dir = some v) : name ≠ [] ∧ '/' ∉ name := by
  unfold resolveIn at h
  cases hlookup : t.lookup d with
  | none =>
    rw [hlookup] at h
    cases h
  | some lookup =>
    rw [hlookup] at h
    dsimp only at h
    cases hname : lookup name with
    | error e =>
      rw [hname] at h
      cases h
    | ok u => exact hvalid d lookup name u hlookup hname

theorem resolve_target_valid (hvalid : NamesValid t)
    (h : (resolve t name dir).target dir = some v) : name ≠ [] ∧ '/' ∉ name := by
  unfold resolve at h
  by_cases hdot : name = ['.']
  · rw [hdot]
    decide
  by_cases hdots : name = ['.', '.']
  · rw [hdots]
    decide
  split_ifs at h
  · cases h
  · cases h
  · exact resolveIn_target_valid hvalid h

theorem nameToVNode_of_opensOnly (hflags : OpensOnly flags) (hroot : path ≠ ['/']) :
    nameToVNode t ret path flags dirAt refs =
      (dirNameVNode t (stripSlash path) dirAt refs).bind fun found =>
        match found with
        | (none, refs) => some ⟨-ENOENT, ret, refs⟩
        | (some (dir, name), refs) => vfsDoLookup t name ret dir refs := by
  obtain ⟨hcreate, hopen, hdirectory⟩ := hflags
  have hcheck : nameCheckDirectory t flags = id := by
    funext r
    unfold nameCheckDirectory
    cases r.ret with
    | none => rfl
    | some v =>
      dsimp only
      rw [if_neg fun h => h.1 hdirectory]
      rfl
  rw [nameToVNode, if_neg hroot, hcheck]
  congr 1
  funext found
  obtain ⟨found, refs'⟩ := found
  cases found with
  | none => rfl
  | some found =>
    unfold nameOpen
    dsimp only
    rw [if_neg (not_not.mpr hcreate), if_neg (not_not.mpr hopen), Option.map_id]
    rfl

theorem dirNameVNode_eq_loop (hroot : path ≠ ['/']) :
    dirNameVNode t path dirAt refs = dirNameLoop t (path.length + 1)
      (if path.head? = some '/' then path.tail else path) none
      (startDir t path dirAt) (acquire refs (startDir t path dirAt)) := by
  unfold dirNameVNode startDir
  by_cases habsolute : path.head? = some '/'
  · obtain ⟨rest, rfl⟩ := head?_eq_some_iff.mp habsolute
    have hlength : ('/' :: rest).length ≠ 1 := by
      intro hone
      obtain rfl := length_eq_zero_iff.mp (succ.inj hone)
      exact hroot rfl
    rw [if_pos habsolute, if_neg hlength, if_pos habsolute, if_pos habsolute]
  · rw [if_neg habsolute, if_neg habsolute, if_neg habsolute]

theorem components_skip_slash (path : List Char) :
    components '/' (if path.head? = some '/' then path.tail else path) = components '/' path := by
  split_ifs with habsolute
  · obtain ⟨rest, rfl⟩ := head?_eq_some_iff.mp habsolute
    exact (components_cons_sep '/' rest).symm
  · rfl

theorem skip_slash_suffix (path : List Char) :
    (if path.head? = some '/' then path.tail else path) <:+ path := by
  split_ifs
  · exact tail_suffix path
  · exact suffix_refl path

/-- A path that is found leads there through the directories on it, and does not
end in a slash, apart from the one that is taken away. -/
theorem nameToVNode_found (hflags : OpensOnly flags) (hvalid : NamesValid t) (hroot : path ≠ ['/'])
    (h : nameToVNode t ret path flags dirAt refs = some r) (herr : r.err = 0) :
    ∃ dirs name d v, components '/' (stripSlash path) = dirs ++ [name] ∧
      descend t (startDir t (stripSlash path) dirAt) dirs = some d ∧
      (resolve t name d).target d = some v ∧ r.ret = some v ∧
      name <:+ stripSlash path ∧ name ≠ [] ∧ '/' ∉ name := by
  rw [nameToVNode_of_opensOnly hflags hroot] at h
  obtain ⟨⟨found, refs'⟩, hdir, h⟩ := bind_eq_some_iff.mp h
  cases found with
  | none =>
    cases h
    exact absurd herr (show -ENOENT ≠ 0 by decide)
  | some found =>
    obtain ⟨d, name⟩ := found
    dsimp only at h
    by_cases hslash : stripSlash path = ['/']
    · -- The name is empty, and there is no such entry.
      rw [hslash] at hdir
      cases hdir
      rw [vfsDoLookup_eq] at h
      obtain ⟨v, -, hv, -⟩ := result_target h herr
      exact absurd rfl (resolve_target_valid hvalid hv).1
    · rw [dirNameVNode_eq_loop hslash] at hdir
      obtain ⟨under, -, rfl, -⟩ :=
        dirNameLoop_walked le_rfl (held_acquire refs _) hdir
      rw [vfsDoLookup_eq] at h
      obtain ⟨v, -, hv, hret, -⟩ := result_target h herr
      obtain ⟨hne, hname⟩ := resolve_target_valid hvalid hv
      obtain ⟨dirs, hcomponents, hdescend, hsuffix⟩ :=
        dirNameLoop_found hdir nofun hname hne
      rw [components_skip_slash] at hcomponents
      exact ⟨dirs, name, d, v, hcomponents, hdescend, hv, hret,
        hsuffix.trans (skip_slash_suffix _), hne, hname⟩

theorem stripSlash_ne_nil (hpath : path ≠ []) (hroot : path ≠ ['/']) : stripSlash path ≠ [] := by
  unfold stripSlash
  split_ifs with hlast
  · intro hnil
    obtain ⟨rest, rfl⟩ := getLast?_eq_some_iff.mp hlast
    rw [dropLast_concat] at hnil
    rw [hnil] at hroot
    exact hroot rfl
  · exact hpath

theorem nameToVNode_isSome (hflags : OpensOnly flags)
    (hfault : ∀ name dir, resolve t name dir ≠ .fault) (hpath : path ≠ []) :
    ∃ r, nameToVNode t ret path flags dirAt refs = some r := by
  by_cases hroot : path = ['/']
  · rw [nameToVNode, if_pos hroot]
    exact ⟨_, rfl⟩
  rw [nameToVNode_of_opensOnly hflags hroot]
  by_cases hslash : stripSlash path = ['/']
  · rw [hslash]
    have hdir : dirNameVNode t ['/'] dirAt refs =
      some (some (t.root, []), acquire refs t.root) := rfl
    rw [hdir, bind_some]
    dsimp only
    rw [vfsDoLookup_eq]
    exact result_isSome (hfault _ _) _ _ _
  have hrest : (if (stripSlash path).head? = some '/' then (stripSlash path).tail
      else stripSlash path) ≠ [] := by
    split_ifs with habsolute
    · obtain ⟨rest, hrest⟩ := head?_eq_some_iff.mp habsolute
      rw [hrest] at hslash ⊢
      exact fun hnil => hslash (congrArg (cons '/') hnil)
    · exact stripSlash_ne_nil hpath hroot
  have hlength := (skip_slash_suffix (stripSlash path)).length_le
  rw [dirNameVNode_eq_loop hslash]
  obtain ⟨⟨found, refs'⟩, houtcome⟩ :=
    @dirNameLoop_isSome t _ (startDir t (stripSlash path) dirAt) _ none refs hfault
      (.inl hrest) (lt_succ_of_le hlength)
  rw [houtcome, bind_some]
  cases found with
  | none => exact ⟨_, rfl⟩
  | some found =>
    obtain ⟨under, -, rfl, -⟩ :=
      dirNameLoop_walked le_rfl (held_acquire refs _) houtcome
    dsimp only
    rw [vfsDoLookup_eq]
    exact result_isSome (hfault _ _) _ _ _

theorem nameToVNode_rooted (hflags : OpensOnly flags) {names : List (List Char)}
    (hnames : ∀ n ∈ names, n ≠ [] ∧ '/' ∉ n) (hdescend : descend t t.root names = some v)
    (ret : Option ℕ) (refs : ℕ → ℕ) :
    ∃ r, nameToVNode t ret (rooted '/' names) flags dirAt refs = some r ∧
      r.err = 0 ∧ r.ret = some v := by
  rcases eq_nil_or_concat names with rfl | ⟨dirs, name, rfl⟩
  · cases hdescend
    exact ⟨_, rfl, rfl, rfl⟩
  rw [concat_eq_append] at hnames hdescend ⊢
  obtain ⟨hne, hname⟩ := hnames name (mem_append_right _ (mem_singleton_self name))
  have hrooted : rooted '/' (dirs ++ [name]) =
      '/' :: (dirs.flatMap (· ++ ['/']) ++ name) ++ ['/'] := by
    rw [rooted_append_singleton, ← append_assoc]
    rfl
  have hroot : rooted '/' (dirs ++ [name]) ≠ ['/'] := by
    intro heq
    rw [hrooted] at heq
    have hlength := congrArg length heq
    simp at hlength
  have hstrip : stripSlash (rooted '/' (dirs ++ [name])) =
      '/' :: (dirs.flatMap (· ++ ['/']) ++ name) := by
    unfold stripSlash
    rw [hrooted, if_pos getLast?_concat, dropLast_concat]
  have hslash : '/' :: (dirs.flatMap (· ++ ['/']) ++ name) ≠ ['/'] := by
    intro heq
    exact hne (append_eq_nil_iff.mp (cons.inj heq).2).2
  rw [descend_append] at hdescend
  obtain ⟨d, hd, hlast⟩ := bind_eq_some_iff.mp hdescend
  obtain ⟨u, hu, hlast⟩ := bind_eq_some_iff.mp hlast
  obtain ⟨-, hlast⟩ := ite_none_right_eq_some.mp hlast
  cases hlast
  rw [nameToVNode_of_opensOnly hflags hroot, hstrip, dirNameVNode_eq_loop hslash]
  have hfuel : dirs.length < ('/' :: (dirs.flatMap (· ++ ['/']) ++ name)).length + 1 := by
    have hle := length_le_length_flatMap '/' dirs
    rw [length_cons, length_append]
    omega
  obtain ⟨under, hloop⟩ := @dirNameLoop_of_descend t _ _ _ _ none refs _
    (fun n hn => hnames n (mem_append_left _ hn)) hname hne hd hfuel
  have hstart : startDir t ('/' :: (dirs.flatMap (· ++ ['/']) ++ name)) dirAt = t.root := rfl
  rw [if_pos head?_cons, tail_cons, hstart, hloop, bind_some]
  dsimp only
  rw [vfsDoLookup_eq]
  obtain ⟨under', hresult⟩ := result_of_target hu ret under
  exact ⟨_, hresult, rfl, rfl⟩

end NameToVNode

end Whitix.Vfs
