import Whitix.Fs.Vfs.Resolve

/-!
# Balance of references

A call of `NameToVNode` is balanced when it leaves every reference count as it
was, except for one more reference to the vnode it returns.  The directory
`DirNameVNode` ends in carries one reference that `VfsDoLookup` drops, but the
walk takes a second reference to every directory before it looks up the next
component, and of these only one is dropped.  So a path of a single component
can be balanced, and a longer one never is.
-/

namespace Whitix.Vfs

open Support Option

/-! ## Balanced calls -/

/-- The counts are as before, but for one reference to a vnode that is
returned. -/
def Balanced (refs : ℕ → ℕ) (r : LookupResult) : Prop :=
  r.refs = match r.err, r.ret with
    | 0, some v => acquire refs v
    | _, _ => refs

theorem balanced_zero_iff (refs : ℕ → ℕ) (v : ℕ) (refs' : ℕ → ℕ) :
    Balanced refs ⟨0, some v, refs'⟩ ↔ refs' = acquire refs v :=
  Iff.rfl

variable {r : LookupResult}

variable {refs : ℕ → ℕ} {v flags : ℕ} {t : Tree}

theorem balanced_iff_of_err (herr : r.err ≠ 0) : Balanced refs r ↔ r.refs = refs := by
  rw [Balanced]
  split
  · exact absurd (by assumption) herr
  · exact Iff.rfl

/-- The references taken on balance are more than the result accounts for. -/
def Leaks (refs : ℕ → ℕ) (r : LookupResult) : Prop :=
  ∃ n, NetChange refs r.refs n ∧ (2 ≤ n ∨ (1 ≤ n ∧ r.err ≠ 0))

theorem Leaks.not_balanced (h : Leaks refs r) : ¬ Balanced refs r := by
  intro hbalanced
  obtain ⟨n, hnet, hn⟩ := h
  rw [Balanced] at hbalanced
  split at hbalanced
  case h_1 v herr hret =>
    rw [hbalanced] at hnet
    have hone := hnet.unique ((NetChange.refl refs).acquire v)
    rcases hn with hn | hn
    · omega
    · exact hn.2 herr
  case h_2 =>
    rw [hbalanced] at hnet
    have hzero := hnet.unique (NetChange.refl refs)
    omega

/-! ## The check at the end -/

variable {e n : ℤ} {r' : LookupResult} {name : List Char} {checked : Bool}

section

variable (t : Tree) (flags : ℕ)

/-- The check at the end of `NameToVNode` rejects `v`. -/
def Rejected (flags v : ℕ) : Prop :=
  flags &&& fileDirectory ≠ 0 ∧ t.locked v = true

theorem nameCheckDirectory_cases (r : LookupResult) :
    (nameCheckDirectory t flags r = r ∧ ∀ v, r.ret = some v → ¬ Rejected t flags v) ∨
      ∃ v, r.ret = some v ∧ Rejected t flags v ∧ nameCheckDirectory t flags r =
        ⟨-ENOTDIR, some v, release r.refs v⟩ := by
  rw [nameCheckDirectory]
  split
  case h_1 hret =>
    refine .inl ⟨rfl, fun v hv => ?_⟩
    rw [hret] at hv
    cases hv
  case h_2 v hret =>
    by_cases h : Rejected t flags v
    · refine .inr ⟨v, hret, h, ?_⟩
      rw [← hret]
      exact if_pos h
    · refine .inl ⟨if_neg h, fun w hw => ?_⟩
      rw [hret, some.injEq] at hw
      exact hw ▸ h

theorem neg_ENOTDIR_ne_zero : -ENOTDIR ≠ 0 := by decide

theorem leaks_nameCheckDirectory {t : Tree} {flags : ℕ} (hnet : NetChange refs r.refs n)
    (hn : 2 ≤ n ∨ (1 ≤ n ∧ r.err ≠ 0 ∧ r.ret = none)) :
    Leaks refs (nameCheckDirectory t flags r) := by
  rcases nameCheckDirectory_cases t flags r with
    ⟨hsame, -⟩ | ⟨v, hret, -, hcheck⟩
  · rw [hsame]
    exact ⟨n, hnet, hn.imp_right fun h => ⟨h.1, h.2.1⟩⟩
  · have htwo : 2 ≤ n := by
      rcases hn with hn | hn
      · exact hn
      · rw [hn.2.2] at hret
        cases hret
    obtain ⟨m, hm, hnetm⟩ := hnet.exists_release v
    rw [hcheck]
    exact ⟨m, hnetm, .inr ⟨by omega, neg_ENOTDIR_ne_zero⟩⟩

theorem balanced_nameCheckDirectory (refs : ℕ → ℕ) (v : ℕ) :
    Balanced refs (nameCheckDirectory t flags ⟨0, some v, acquire refs v⟩) := by
  rcases nameCheckDirectory_cases t flags ⟨0, some v, acquire refs v⟩ with
    ⟨hsame, -⟩ | ⟨w, hret, -, hcheck⟩
  · rw [hsame, balanced_zero_iff]
  · obtain rfl : v = w := some.inj hret
    rw [hcheck]
    exact release_acquire refs v

/-- A failure that leaves one reference behind is balanced when the check
happens to drop it. -/
theorem balanced_nameCheckDirectory_iff {t : Tree} {flags : ℕ} {ret : Option ℕ} (he : e ≠ 0) :
    Balanced refs (nameCheckDirectory t flags ⟨e, ret, acquire refs v⟩) ↔
      ret = some v ∧ Rejected t flags v := by
  rcases nameCheckDirectory_cases t flags ⟨e, ret, acquire refs v⟩ with
    ⟨hsame, hkept⟩ | ⟨w, hret, hrejected, hcheck⟩
  · rw [hsame]
    constructor
    · intro hbalanced
      have hleaks : Leaks refs ⟨e, ret, acquire refs v⟩ :=
        ⟨_, (NetChange.refl refs).acquire v, .inr ⟨by omega, he⟩⟩
      exact absurd hbalanced hleaks.not_balanced
    · rintro ⟨hret, hrejected⟩
      exact absurd hrejected (hkept v hret)
  · rw [hcheck, balanced_iff_of_err neg_ENOTDIR_ne_zero]
    constructor
    · intro hrefs
      dsimp only at hrefs
      by_cases hvw : v = w
      · exact hvw ▸ ⟨hret, hrejected⟩
      · have hcount := congrFun hrefs v
        rw [release_of_ne _ hvw, acquire_self] at hcount
        omega
    · rintro ⟨hret', -⟩
      obtain rfl : w = v := some.inj (hret.symm.trans hret')
      exact release_acquire refs w

/-! ## Opening a vnode in its directory -/

def Resolution.BalancesLookup (ret : Option ℕ) (dir : ℕ) : Resolution → Prop
  | .unsupported _ => ret = some dir ∧ Rejected t flags dir
  | .self => True
  | .missing _ => True
  | .found _ => True
  | .followed _ _ => False
  | .broken link _ cleared => cleared = false ∧ Rejected t flags link
  | .fault => False

/-- The outcomes a call with `FILE_CREATE_OPEN` balances: the file exists. -/
def Resolution.BalancesCreateOpen : Resolution → Prop
  | .self => True
  | .found _ => True
  | _ => False

/-- The outcomes a call with `FILE_FORCE_CREATE` balances: the file exists,
and the check at the end drops the reference to it. -/
def Resolution.BalancesForceCreate (flags dir : ℕ) : Resolution → Prop
  | .self => Rejected t flags dir
  | .found v => Rejected t flags v
  | _ => False

/-- The outcomes a call with the given flags balances. -/
def Resolution.Balances (ret : Option ℕ) (dir : ℕ) (resolution : Resolution) : Prop :=
  if flags &&& fileForceCreate ≠ 0 then
    resolution.BalancesForceCreate t flags dir
  else if flags &&& fileCreateOpen ≠ 0 then resolution.BalancesCreateOpen
  else resolution.BalancesLookup t flags ret dir

end

variable {resolution : Resolution}

section

variable {refs₀ : ℕ → ℕ} {ret : Option ℕ} {dir : ℕ}

theorem result_netChange (hnet : NetChange refs₀ refs n)
    (h : resolution.result ret dir refs = some r) :
    ∃ m, NetChange refs₀ r.refs m ∧ n ≤ m ∧ (r.err = 0 ∨ r.ret ≠ none → n + 1 ≤ m) := by
  cases resolution with
  | missing e =>
    cases h
    refine ⟨n, hnet, le_refl n, ?_⟩
    rintro (herr | hret)
    · exact absurd herr e.2
    · exact absurd rfl hret
  | followed link v =>
    cases h
    exact ⟨_, (hnet.acquire link).acquire v, by omega, fun _ => by omega⟩
  | fault => cases h
  | _ =>
    cases h
    exact ⟨_, hnet.acquire _, by omega, fun _ => by omega⟩

theorem nameCreate_cases (h : nameCreate t checked dir name r = some r') :
    (∃ e : ℤ, e ≠ 0 ∧ r' = { r with err := e }) ∨ ∃ v, r' = ⟨0, some v, acquire r.refs v⟩ := by
  rw [nameCreate] at h
  split at h
  · cases h
  · split at h
    · exact .inl ⟨-EROFS, by decide, (some.inj h).symm⟩
    · split at h
      case h_1 e _ => exact .inl ⟨e, e.2, (some.inj h).symm⟩
      case h_2 v _ => exact .inr ⟨v, (some.inj h).symm⟩

/-- Before a file is created, the directory is held twice, and the lookup
drops only one of the references. -/
theorem nameCreate_leaks (hnet : NetChange refs₀ refs n) (hn : 0 ≤ n)
    (hresult : resolution.result ret dir (acquire refs dir) = some r)
    (h : nameCreate t checked dir name r = some r') :
    Leaks refs₀ (nameCheckDirectory t flags r') := by
  obtain ⟨m, hnetm, hm, hm'⟩ := result_netChange (hnet.acquire dir) hresult
  rcases nameCreate_cases h with ⟨e, he, rfl⟩ | ⟨v, rfl⟩
  · by_cases hret : r.ret = none
    · exact leaks_nameCheckDirectory hnetm (.inr ⟨by omega, he, hret⟩)
    · have htwo := hm' (.inr hret)
      exact leaks_nameCheckDirectory hnetm (.inl (by omega))
  · exact leaks_nameCheckDirectory (hnetm.acquire v) (.inl (by omega))

theorem nameOpen_leaks (hnet : NetChange refs₀ refs n) (hn : 1 ≤ n)
    (h : nameOpen t flags ret dir name (acquire refs dir) = some r) :
    Leaks refs₀ (nameCheckDirectory t flags r) := by
  have hopened : ∀ (r₁ : LookupResult) (e : ℤ), r₁.err = 0 →
      (resolve t name dir).result ret dir (acquire refs dir) = some r₁ →
        Leaks refs₀ (nameCheckDirectory t flags ⟨e, r₁.ret, release r₁.refs dir⟩) := by
    intro r₁ e herr hresult
    obtain ⟨m, hnetm, -, hm⟩ := result_netChange (hnet.acquire dir) hresult
    obtain ⟨k, hk, hnetk⟩ := hnetm.exists_release dir
    exact leaks_nameCheckDirectory hnetk (.inl (by omega))
  rw [nameOpen, vfsDoLookup_eq, vfsDoLookup_eq] at h
  split_ifs at h
  · obtain ⟨r₁, hresult, h⟩ := bind_eq_some_iff.mp h
    split_ifs at h with herr
    · exact nameCreate_leaks hnet (by omega) hresult h
    · cases h
      exact hopened r₁ _ (not_not.mp herr) hresult
  · obtain ⟨r₁, hresult, h⟩ := bind_eq_some_iff.mp h
    split_ifs at h with herr
    · exact nameCreate_leaks hnet (by omega) hresult h
    · cases h
      exact hopened r₁ _ (not_not.mp herr) hresult
  · obtain ⟨m, hnetm, hm, hm'⟩ := result_netChange hnet h
    by_cases hret : r.err = 0 ∨ r.ret ≠ none
    · have htwo := hm' hret
      exact leaks_nameCheckDirectory hnetm (.inl (by omega))
    · rw [not_or, not_not] at hret
      exact leaks_nameCheckDirectory hnetm (.inr ⟨by omega, hret⟩)

theorem not_balanced_two {w : ℕ} :
    ¬ Balanced refs (nameCheckDirectory t flags ⟨e, ret, acquire (acquire refs v) w⟩) := by
  have hnet := ((NetChange.refl refs).acquire v).acquire w
  exact (leaks_nameCheckDirectory hnet (.inl (by omega))).not_balanced

end

variable {ret : Option ℕ} {dir : ℕ}

theorem lookup_balanced_iff (h : resolution.result ret dir refs = some r) :
    Balanced refs (nameCheckDirectory t flags r) ↔ resolution.BalancesLookup t flags ret dir := by
  cases resolution with
  | unsupported e =>
    cases h
    exact balanced_nameCheckDirectory_iff e.2
  | self =>
    cases h
    exact iff_of_true (balanced_nameCheckDirectory t flags refs dir) trivial
  | missing e =>
    cases h
    exact iff_of_true ((balanced_iff_of_err e.2).mpr rfl) trivial
  | found v =>
    cases h
    exact iff_of_true (balanced_nameCheckDirectory t flags refs v) trivial
  | followed link v =>
    cases h
    exact iff_of_false not_balanced_two id
  | broken link e cleared =>
    cases h
    rw [balanced_nameCheckDirectory_iff e.2]
    cases cleared with
    | false | true => simp [Resolution.BalancesLookup]
  | fault => cases h

section

variable (h : resolution.result ret dir (acquire refs dir) = some r) (herr : r.err = 0)
include h herr

theorem createOpen_balanced_iff :
    Balanced refs (nameCheckDirectory t flags { r with refs := release r.refs dir }) ↔
      resolution.BalancesCreateOpen := by
  cases resolution with
  | unsupported e | missing e | broken link e cleared => cases h; exact absurd herr e.2
  | self =>
    cases h
    rw [release_acquire]
    exact iff_of_true (balanced_nameCheckDirectory t flags refs dir) trivial
  | found v =>
    cases h
    rw [release_acquire_acquire]
    exact iff_of_true (balanced_nameCheckDirectory t flags refs v) trivial
  | followed link v =>
    cases h
    rw [release_acquire_acquire_acquire]
    exact iff_of_false not_balanced_two id
  | fault => cases h

theorem forceCreate_balanced_iff :
    Balanced refs (nameCheckDirectory t flags ⟨-EEXIST, r.ret, release r.refs dir⟩) ↔
      resolution.BalancesForceCreate t flags dir := by
  have hexist : -EEXIST ≠ 0 := by decide
  cases resolution with
  | unsupported e | missing e | broken link e cleared => cases h; exact absurd herr e.2
  | self =>
    cases h
    rw [release_acquire, balanced_nameCheckDirectory_iff hexist]
    exact and_iff_right rfl
  | found v =>
    cases h
    rw [release_acquire_acquire, balanced_nameCheckDirectory_iff hexist]
    exact and_iff_right rfl
  | followed link v =>
    cases h
    rw [release_acquire_acquire_acquire]
    exact iff_of_false not_balanced_two id
  | fault => cases h

end

theorem not_balances_of_err (t : Tree) (flags : ℕ) (h : resolution.result ret dir refs = some r)
    (herr : r.err ≠ 0) :
    ¬ resolution.BalancesForceCreate t flags dir ∧ ¬ resolution.BalancesCreateOpen := by
  cases resolution with
  | self | found v => cases h; exact absurd rfl herr
  | _ => exact ⟨id, id⟩

/-- Which vnodes can be opened in balance when only the reference for the
lookup is held. -/
theorem nameOpen_balanced_iff (h : nameOpen t flags ret dir name (acquire refs dir) = some r) :
    Balanced refs (nameCheckDirectory t flags r) ↔
      (resolve t name dir).Balances t flags ret dir := by
  have hcreate : ∀ {checked : Bool} {r₁ : LookupResult},
      (resolve t name dir).result ret dir (acquire refs dir) = some r₁ →
        nameCreate t checked dir name r₁ = some r →
          ¬ Balanced refs (nameCheckDirectory t flags r) :=
    fun hresult h =>
      (nameCreate_leaks (NetChange.refl refs) le_rfl hresult h).not_balanced
  rw [nameOpen, vfsDoLookup_eq, vfsDoLookup_eq] at h
  rw [Resolution.Balances]
  split_ifs at h ⊢
  · obtain ⟨r₁, hresult, h⟩ := bind_eq_some_iff.mp h
    split_ifs at h with herr
    · have hnot := not_balances_of_err t flags hresult herr
      exact iff_of_false (hcreate hresult h) hnot.1
    · cases h
      exact forceCreate_balanced_iff hresult (not_not.mp herr)
  · obtain ⟨r₁, hresult, h⟩ := bind_eq_some_iff.mp h
    split_ifs at h with herr
    · have hnot := not_balances_of_err t flags hresult herr
      exact iff_of_false (hcreate hresult h) hnot.2
    · cases h
      exact createOpen_balanced_iff hresult (not_not.mp herr)
  · exact lookup_balanced_iff h

end Whitix.Vfs
