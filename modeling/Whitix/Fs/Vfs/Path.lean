import Mathlib.Data.List.TakeWhile
import Whitix.Fs.Vfs.Balance

/-!
# Balance along a path

The walk of `DirNameVNode` keeps one reference to the directory it has reached,
and leaves one more behind in every directory it has passed.  With what opening
a vnode in its directory does to the balance, this decides which calls of
`NameToVNode` are balanced.
-/

namespace Whitix.Vfs

open Support List Option

/-! ## The walk -/

/-- `v` is held by a reference, on top of at least `m` others that were taken
since `refs₀`. -/
def Held (refs₀ : ℕ → ℕ) (m : ℤ) (refs : ℕ → ℕ) (v : ℕ) : Prop :=
  ∃ under n, refs = acquire under v ∧ NetChange refs₀ under n ∧ m ≤ n

variable {refs refs₀ : ℕ → ℕ} {m : ℤ} {v currNode fuel : ℕ} {path : List Char}
  {currName : Option (List Char)} {t : Tree}

theorem Held.mono {k : ℤ} (hkm : k ≤ m) (h : Held refs₀ m refs v) : Held refs₀ k refs v := by
  obtain ⟨under, n, hrefs, hnet, hn⟩ := h
  exact ⟨under, n, hrefs, hnet, hkm.trans hn⟩

theorem held_acquire (refs : ℕ → ℕ) (v : ℕ) : Held refs 0 (acquire refs v) v :=
  ⟨refs, 0, rfl, NetChange.refl refs, le_refl 0⟩

theorem Held.netChange (h : Held refs₀ m refs v) : ∃ n, NetChange refs₀ refs n ∧ m + 1 ≤ n := by
  obtain ⟨under, n, rfl, hnet, hn⟩ := h
  exact ⟨n + 1, hnet.acquire v, by omega⟩

theorem result_held {resolution : Resolution} {ret : Option ℕ} {dir : ℕ} {n : ℤ} {r : LookupResult}
    (hnet : NetChange refs₀ refs n) (hm : m ≤ n) (h : resolution.result ret dir refs = some r)
    (herr : r.err = 0) (hret : r.ret = some v) : Held refs₀ m r.refs v := by
  cases resolution with
  | unsupported e | missing e | broken link e cleared => cases h; exact absurd herr e.2
  | self | found u =>
    cases h
    cases hret
    exact ⟨refs, n, rfl, hnet, hm⟩
  | followed link u =>
    cases h
    cases hret
    exact ⟨_, n + 1, rfl, hnet.acquire link, by omega⟩
  | fault => cases h

/-- Where the walk ends: either it holds a directory, on top of `m` references,
or it has failed and has left one behind. -/
def Walked (refs₀ : ℕ → ℕ) (m : ℤ) : Option (ℕ × List Char) × (ℕ → ℕ) → Prop
  | (none, refs) => ∃ n, NetChange refs₀ refs n ∧ 1 ≤ n
  | (some (dir, _), refs) => Held refs₀ m refs dir

theorem dropWhile_eq_nil_iff_notMem {name : List Char} :
    name.dropWhile (· ≠ '/') = [] ↔ '/' ∉ name := by
  rw [dropWhile_eq_nil_iff]
  constructor
  · intro hall hmem
    simpa using hall '/' hmem
  · rintro hmem c hc
    have hne : c ≠ '/' := fun heq => hmem (heq ▸ hc)
    simpa using hne

theorem dirNameLoop_stop (t : Tree) (fuel : ℕ) (currName : Option (List Char)) (currNode : ℕ)
    (refs : ℕ → ℕ) (hpath : path ≠ []) (hlast : '/' ∉ path.dropWhile (· = '/')) :
    dirNameLoop t (fuel + 1) path currName currNode refs =
      some (some (currNode, path.dropWhile (· = '/')), refs) := by
  rw [dirNameLoop, if_neg hpath]
  simp only [dropWhile_eq_nil_iff_notMem.mpr hlast]

variable {outcome : Option (ℕ × List Char) × (ℕ → ℕ)}

theorem dirNameLoop_step (hm : 0 ≤ m) (hheld : Held refs₀ m refs currNode)
    (hmore : '/' ∈ path.dropWhile (· = '/'))
    (h : dirNameLoop t (fuel + 1) path currName currNode refs = some outcome) :
    (∀ k, Walked refs₀ k outcome) ∨ ∃ rest name newNode refs', Held refs₀ (m + 1) refs' newNode ∧
      dirNameLoop t fuel rest name newNode refs' = some outcome := by
  have hpath : path ≠ [] := by
    rintro rfl
    cases hmore
  obtain ⟨n, hnet, hn⟩ := hheld.netChange
  rw [dirNameLoop, if_neg hpath] at h
  dsimp only at h
  split at h
  case h_1 hnil => exact absurd hmore (dropWhile_eq_nil_iff_notMem.mp hnil)
  case h_2 slash rest hcons =>
    rw [vfsDoLookup_eq] at h
    obtain ⟨r, hresult, h⟩ := bind_eq_some_iff.mp h
    obtain ⟨k, hnetk, hk, -⟩ := result_netChange hnet hresult
    have hfailed : ∀ j, Walked refs₀ j (none, r.refs) :=
      fun _ => ⟨k, hnetk, by omega⟩
    split_ifs at h with herr
    · cases h
      exact .inl hfailed
    · obtain ⟨newNode, hret, h⟩ := bind_eq_some_iff.mp h
      split_ifs at h with hdir
      · cases h
        exact .inl hfailed
      · exact .inr ⟨rest, _, newNode, r.refs, result_held hnet hn hresult (not_not.mp herr) hret, h⟩

theorem dirNameLoop_walked (hm : 0 ≤ m) :
    ∀ {fuel : ℕ} {path : List Char} {currName : Option (List Char)}
      {currNode : ℕ} {refs : ℕ → ℕ}, Held refs₀ m refs currNode →
        dirNameLoop t fuel path currName currNode refs = some outcome → Walked refs₀ m outcome := by
  intro fuel
  induction fuel with
  | zero => intro path currName currNode refs _ h; cases h
  | succ fuel ih =>
    intro path currName currNode refs hheld h
    by_cases hmore : '/' ∈ path.dropWhile (· = '/')
    · rcases dirNameLoop_step hm hheld hmore h with
        hfailed | ⟨rest, name, newNode, refs', hheld', h'⟩
      · exact hfailed m
      · exact ih (hheld'.mono (by omega)) h'
    · by_cases hpath : path = []
      · rw [dirNameLoop, if_pos hpath] at h
        obtain ⟨name, -, rfl⟩ := map_eq_some_iff.mp h
        exact hheld
      · rw [dirNameLoop_stop t fuel currName currNode refs hpath hmore] at h
        cases h
        exact hheld

theorem dirNameLoop_walked_of_mem (hheld : Held refs₀ 0 refs currNode)
    (hmore : '/' ∈ path.dropWhile (· = '/'))
    (h : dirNameLoop t fuel path currName currNode refs = some outcome) :
    Walked refs₀ 1 outcome := by
  cases fuel with
  | zero => cases h
  | succ fuel =>
    rcases dirNameLoop_step le_rfl hheld hmore h with
      hfailed | ⟨rest, name, newNode, refs', hheld', h'⟩
    · exact hfailed 1
    · exact dirNameLoop_walked (by omega) hheld' h'

/-! ## `DirNameVNode` -/

def startDir (t : Tree) (path : List Char) (dirAt : Option ℕ) : ℕ :=
  if path.head? = some '/' then t.root else dirAt.getD t.cwd

theorem dirNameVNode_of_notMem (t : Tree) (dirAt : Option ℕ) (refs : ℕ → ℕ) (hpath : path ≠ [])
    (hlast : '/' ∉ path.dropWhile (· = '/')) :
    dirNameVNode t path dirAt refs = some (some (startDir t path dirAt, path.dropWhile (· = '/')),
      acquire refs (startDir t path dirAt)) := by
  rw [dirNameVNode, startDir]
  split_ifs with habsolute hroot
  · obtain ⟨c, hc⟩ := length_eq_one_iff.mp hroot
    rw [hc, head?_cons, some.injEq] at habsolute
    rw [hc, habsolute]
    rfl
  · obtain ⟨rest, rfl⟩ := head?_eq_some_iff.mp habsolute
    have hrest : rest ≠ [] := by
      rintro rfl
      exact hroot rfl
    exact dirNameLoop_stop t _ none _ _ hrest hlast
  · exact dirNameLoop_stop t _ none _ _ hpath hlast

theorem dirNameVNode_walked {dirAt : Option ℕ} (hmore : '/' ∈ path.dropWhile (· = '/'))
    (h : dirNameVNode t path dirAt refs = some outcome) : Walked refs 1 outcome := by
  rw [dirNameVNode] at h
  split_ifs at h with habsolute hroot
  · obtain ⟨c, hc⟩ := length_eq_one_iff.mp hroot
    rw [hc, head?_cons, some.injEq] at habsolute
    rw [hc, habsolute] at hmore
    cases hmore
  · obtain ⟨rest, rfl⟩ := head?_eq_some_iff.mp habsolute
    rw [dropWhile_cons_of_pos (by decide)] at hmore
    exact dirNameLoop_walked_of_mem (held_acquire refs t.root) hmore h
  · exact dirNameLoop_walked_of_mem (held_acquire refs _) hmore h

/-! ## `NameToVNode` -/

def trimSlashes (path : List Char) : List Char :=
  (stripSlash path).dropWhile (· = '/')

/-- A call balances its references exactly when the path is `/`, or has a
single component and what this stands for is balanced by the final lookup. -/
theorem nameToVNode_balanced_iff (t : Tree) (ret : Option ℕ)
    (path : List Char) (flags : ℕ) (dirAt : Option ℕ) (refs : ℕ → ℕ)
    (r : LookupResult) (h : nameToVNode t ret path flags dirAt refs = some r) :
    Balanced refs r ↔ path = ['/'] ∨ ('/' ∉ trimSlashes path ∧ (resolve t (trimSlashes path)
      (startDir t (stripSlash path) dirAt)).Balances t flags ret
        (startDir t (stripSlash path) dirAt)) := by
  rw [nameToVNode] at h
  split_ifs at h with hroot
  · cases h
    exact iff_of_true rfl (.inl hroot)
  rw [or_iff_right hroot]
  obtain ⟨outcome, hdir, h⟩ := bind_eq_some_iff.mp h
  by_cases hmore : '/' ∈ trimSlashes path
  · refine iff_of_false ?_ (fun hone => hone.1 hmore)
    have hwalked := dirNameVNode_walked hmore hdir
    obtain ⟨found, refs'⟩ := outcome
    cases found with
    | none =>
      cases h
      obtain ⟨n, hnet, hn⟩ := hwalked
      have hleaks : Leaks refs ⟨-ENOENT, ret, refs'⟩ :=
        ⟨n, hnet, .inr ⟨hn, show -ENOENT ≠ 0 by decide⟩⟩
      exact hleaks.not_balanced
    | some found =>
      obtain ⟨under, n, rfl, hnet, hn⟩ := hwalked
      obtain ⟨opened, hopen, rfl⟩ := map_eq_some_iff.mp h
      exact (nameOpen_leaks hnet hn hopen).not_balanced
  · rw [and_iff_right hmore]
    have hpath : stripSlash path ≠ [] := by
      intro hnil
      rw [hnil] at hdir
      exact absurd hdir (by simp [dirNameVNode, dirNameLoop])
    rw [dirNameVNode_of_notMem t dirAt refs hpath hmore] at hdir
    cases hdir
    obtain ⟨opened, hopen, rfl⟩ := map_eq_some_iff.mp h
    exact nameOpen_balanced_iff hopen

def smallTree : Tree where
  mode v := if v ≤ 1 then attrDir else 0
  locked _ := false
  ops v := some
    { lookup := some fun name =>
        if v = 0 ∧ name = ['a'] then .ok 1
        else if v = 1 ∧ name = ['b'] then .ok 2
        else .error ⟨-ENOENT, by decide⟩
      create := none
      followLink := none }
  mountNode _ := none
  mount _ := 0
  covered _ := none
  root := 0
  cwd := 0

theorem nameToVNode_balanced_iff_a :
    ∃ r, nameToVNode smallTree none ['a', '/'] 0 none (fun _ => 1) = some r ∧
      r.ret = some 1 ∧ Balanced (fun _ => 1) r := by
  refine ⟨_, rfl, rfl, ?_⟩
  apply (nameToVNode_balanced_iff smallTree none ['a', '/'] 0 none _ _ rfl).mpr
  exact .inr ⟨by decide, trivial⟩

/-- Opening `a/b` leaves a reference to the root behind. -/
theorem nameToVNode_leaks_root :
    ∃ r, nameToVNode smallTree none ['a', '/', 'b'] 0 none (fun _ => 1) = some r ∧
      r.err = 0 ∧ r.ret = some 2 ∧ r.refs 2 = 2 ∧ r.refs 0 = 2 ∧ ¬ Balanced (fun _ => 1) r := by
  refine ⟨_, rfl, rfl, rfl, rfl, rfl, ?_⟩
  intro hbalanced
  have hroot := congrFun hbalanced 0
  cases hroot

end Whitix.Vfs
