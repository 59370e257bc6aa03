import Whitix.Fs.Vfs.FileTable

/-!
# Lifetimes of open files

The counts are kept in step with a list of descriptors and a list of vnodes held
by processes.  Every elementary action adds one entry to one of the lists or
takes one away, so its effect on the counts is stated for arbitrary lists; the
system calls are sequences of such actions.
-/

namespace Whitix.FileTable

open Support Function List Option Prod

variable {s s' : System} {base : ℕ → ℕ} {ds cs : List ℕ} {f v n : ℕ}

/-- The references that the allocated `File`s hold to a vnode. -/
def System.heldOn (s : System) (v : ℕ) : ℕ :=
  ∑ f ∈ s.allocated, if (s.files f).vNode = some v then (s.files f).held else 0

/-- The counts agree with the descriptors `ds` and the vnodes `cs` held by
processes. -/
structure Balanced (base : ℕ → ℕ) (s : System) (ds cs : List ℕ) : Prop where
  alive : ∀ f, f ∈ s.allocated ↔ f ∈ ds
  refs : ∀ f ∈ ds, (s.files f).refs = ds.count f
  vNode : ∀ f ∈ ds, ∃ v, (s.files f).vNode = some v
  counted : ∀ v, s.vNodeRefs v = base v + cs.count v + s.heldOn v

section

variable (h : Balanced base s ds cs)
include h

theorem Balanced.perm {ds' cs' : List ℕ}
    (hds : ds.Perm ds') (hcs : cs.Perm cs') : Balanced base s ds' cs' := by
  constructor
  · intro f
    rw [h.alive f, hds.mem_iff]
  · intro f hf
    rw [← hds.count_eq]
    exact h.refs f (hds.mem_iff.mpr hf)
  · intro f hf
    exact h.vNode f (hds.mem_iff.mpr hf)
  · intro v
    rw [← hcs.count_eq]
    exact h.counted v

theorem Balanced.congr {t : System} (hallocated : t.allocated = s.allocated)
    (hfiles : ∀ f ∈ ds, t.files f = s.files f)
    (hrefs : t.vNodeRefs = s.vNodeRefs) : Balanced base t ds cs := by
  have hheld : ∀ v, t.heldOn v = s.heldOn v := by
    intro v
    unfold System.heldOn
    rw [hallocated]
    apply Finset.sum_congr rfl
    intro f hf
    rw [hfiles f ((h.alive f).mp hf)]
  constructor
  · rw [hallocated]
    exact h.alive
  · intro f hf
    rw [hfiles f hf]
    exact h.refs f hf
  · intro f hf
    rw [hfiles f hf]
    exact h.vNode f hf
  · intro v
    rw [hrefs, hheld]
    exact h.counted v

/-! ## References to vnodes -/

theorem Balanced.acquire (hv : s.vNodeRefs v + 1 < 2 ^ 32) :
    Balanced base { s with vNodeRefs := vNodeAcquire s.vNodeRefs v } ds (v :: cs) := by
  refine ⟨h.alive, h.refs, h.vNode, fun w => ?_⟩
  change vNodeAcquire s.vNodeRefs v w = base w + (v :: cs).count w + s.heldOn w
  have hcounted := h.counted w
  unfold vNodeAcquire
  by_cases hw : w = v
  · subst hw
    rw [update_self, dword_of_lt hv, count_cons_self]
    omega
  · rw [update_of_ne hw, count_cons_of_ne (Ne.symm hw)]
    exact hcounted

end

theorem release_vNodeAcquire {refs : ℕ → ℕ} (hv : refs v + 1 < 2 ^ 32) :
    release (vNodeAcquire refs v) v = refs := by
  unfold vNodeAcquire
  rw [dword_of_lt hv]
  exact release_acquire refs v

theorem Balanced.release (h : Balanced base s ds (v :: cs)) :
    Balanced base { s with vNodeRefs := release s.vNodeRefs v } ds cs := by
  refine ⟨h.alive, h.refs, h.vNode, fun w => ?_⟩
  change Support.release s.vNodeRefs v w = base w + cs.count w + s.heldOn w
  have hcounted := h.counted w
  by_cases hw : w = v
  · subst hw
    rw [count_cons_self] at hcounted
    rw [release_self]
    omega
  · rw [count_cons_of_ne (Ne.symm hw)] at hcounted
    rw [release_of_ne _ hw]
    exact hcounted

variable {vs fs ws : List ℕ} {r : ℤ} {files : List (Option ℕ)} {fd : ℕ} {a : OpenArgs}

theorem Balanced.releases (h : Balanced base s ds (vs ++ cs)) :
    Balanced base { s with vNodeRefs := vs.foldl Support.release s.vNodeRefs } ds cs := by
  induction vs generalizing s with
  | nil => exact h
  | cons v vs ih => exact ih (s := { s with vNodeRefs := _ }) h.release

theorem Countable.acquire (h : Countable s (n + 1) vs fs) :
    Countable { s with vNodeRefs := vNodeAcquire s.vNodeRefs v } n vs fs := by
  constructor
  · intro w hw
    have hroom := h.1 w hw
    change vNodeAcquire s.vNodeRefs v w + n < 2 ^ 32
    unfold vNodeAcquire
    by_cases hwv : w = v
    · subst hwv
      rw [update_self]
      unfold dword
      omega
    · rw [update_of_ne hwv]
      omega
  · intro f hf
    have hroom := h.2 f hf
    change (s.files f).refs + n < 2 ^ 31
    omega

theorem Balanced.acquires (vs : List ℕ) (h : Balanced base s ds cs)
    (hroom : Countable s (n + vs.length) ws fs) (hvs : ∀ v ∈ vs, v ∈ ws) :
    Balanced base { s with vNodeRefs := vs.foldl vNodeAcquire s.vNodeRefs } ds (vs ++ cs) ∧
      Countable { s with vNodeRefs := vs.foldl vNodeAcquire s.vNodeRefs } n ws
        fs := by
  induction vs generalizing s cs with
  | nil => exact ⟨h, hroom⟩
  | cons v vs ih =>
    have hlt := hroom.1 v (hvs v mem_cons_self)
    have hacquire := h.acquire (v := v) (by
      rw [length_cons] at hlt
      omega)
    obtain ⟨hbalanced, hleft⟩ :=
      ih (s := { s with vNodeRefs := _ }) hacquire hroom.acquire (forall_mem_cons.mp hvs).2
    exact ⟨hbalanced.perm (List.Perm.refl ds) perm_middle, hleft⟩

/-! ## Descriptors -/

theorem heldOn_erase (hf : f ∈ s.allocated) (hv : (s.files f).vNode = some v)
    (w : ℕ) : s.heldOn w = (if w = v then (s.files f).held else 0) + ∑ g ∈ s.allocated.erase f,
      if (s.files g).vNode = some w then (s.files g).held else 0 := by
  unfold System.heldOn
  rw [← Finset.add_sum_erase _ _ hf, hv]
  by_cases hw : w = v
  · subst hw
    simp
  · have hvw : ¬ some v = some w := fun h => hw (some.inj h).symm
    simp only [hvw, hw, if_false]

theorem heldOn_setFile (file : File) (hf : f ∈ s.allocated)
    (hv : (s.files f).vNode = some v) (hsame : file.vNode = some v) (w : ℕ) :
    (s.setFile f file).heldOn w + (if w = v then (s.files f).held else 0) =
      s.heldOn w + if w = v then file.held else 0 := by
  have hrest : (s.setFile f file).heldOn w = (if w = v then file.held else 0) +
      ∑ g ∈ s.allocated.erase f, if (s.files g).vNode = some w then (s.files g).held else 0 := by
    rw [heldOn_erase (s := s.setFile f file) (v := v) hf (by simp [System.setFile, hsame])]
    congr 1
    · simp [System.setFile]
    · apply Finset.sum_congr rfl
      intro g hg
      simp [System.setFile, (Finset.mem_erase.mp hg).1]
  rw [hrest, heldOn_erase hf hv]
  omega

theorem Balanced.setFile {ds' : List ℕ} {file : File} {refs : ℕ → ℕ} (h : Balanced base s ds cs)
    (hf : f ∈ ds) (hv : (s.files f).vNode = some v) (hsame : file.vNode = some v)
    (hmem : ∀ g, g ∈ ds' ↔ g ∈ ds) (hcount : ∀ g ≠ f, ds'.count g = ds.count g)
    (hrefs : file.refs = ds'.count f) (hheld : ∀ w, refs w +
      (if w = v then (s.files f).held else 0) = s.vNodeRefs w + if w = v then file.held else 0) :
    Balanced base { s.setFile f file with vNodeRefs := refs } ds' cs := by
  refine ⟨fun g => (h.alive g).trans (hmem g).symm, fun g hg => ?_, fun g hg => ?_, fun w => ?_⟩
  · by_cases hgf : g = f
    · subst hgf
      simp [System.setFile, hrefs]
    · simp [System.setFile, hgf, hcount g hgf, h.refs g ((hmem g).mp hg)]
  · by_cases hgf : g = f
    · subst hgf
      exact ⟨v, by simp [System.setFile, hsame]⟩
    · obtain ⟨w, hw⟩ := h.vNode g ((hmem g).mp hg)
      exact ⟨w, by simp [System.setFile, hgf, hw]⟩
  · have hsum := heldOn_setFile file ((h.alive f).mpr hf) hv hsame w
    have hcounted := h.counted w
    have := hheld w
    change refs w = base w + cs.count w + (s.setFile f file).heldOn w
    omega

theorem mem_cons_iff_of_mem (hf : f ∈ ds) (g : ℕ) : g ∈ f :: ds ↔ g ∈ ds := by
  rw [mem_cons]
  exact or_iff_right_of_imp (· ▸ hf)

theorem int32_succ (hlow : 0 ≤ r) (hhigh : r + 1 < 2 ^ 31) : int32 (r + 1) = r + 1 :=
  int32_of_range (by omega) hhigh

theorem Balanced.vfsFileDup (h : Balanced base s ds cs) (hf : f ∈ ds)
    (hv : (s.files f).vNode = some v) (hvroom : s.vNodeRefs v + 1 < 2 ^ 32)
    (hfroom : (s.files f).refs + 1 < 2 ^ 31) :
    ∃ s', vfsFileDup s f = some s' ∧ s'.processes = s.processes ∧
      (∀ g, (s'.files g).vNode = (s.files g).vNode) ∧ Balanced base s' (f :: ds) cs := by
  have hrefs := h.refs f hf
  have hint : int32 ((s.files f).refs + 1) = (s.files f).refs + 1 :=
    int32_succ (by omega) hfroom
  unfold FileTable.vfsFileDup
  rw [hv]
  refine ⟨_, rfl, rfl, fun g => ?_, h.setFile hf hv hv (mem_cons_iff_of_mem hf)
    (fun g hg => count_cons_of_ne hg.symm) ?_ fun w => ?_⟩
  · by_cases hg : g = f
    · subst hg
      simp [System.setFile, File.share]
    · simp [System.setFile, hg]
  · rw [count_cons_self]
    simp only [File.share, hint]
    push_cast
    rw [hrefs]
  · unfold vNodeAcquire
    by_cases hw : w = v
    · subst hw
      rw [update_self, dword_of_lt hvroom]
      simp only [if_true, File.share]
      omega
    · rw [update_of_ne hw]
      simp only [hw, if_false]

theorem processes_doCloseFile (s : System) (file : Option ℕ) (closeRet : ℤ) :
    (doCloseFile s file closeRet).2.processes = s.processes := by
  unfold doCloseFile
  split
  · rfl
  · split
    · rfl
    · split
      · rfl
      · split
        · rfl
        · rfl

theorem Balanced.doCloseFile_shared (h : Balanced base s (f :: ds) cs) (hf : f ∈ ds)
    (closeRet : ℤ) : Balanced base (doCloseFile s (some f) closeRet).2 ds cs := by
  obtain ⟨v, hv⟩ := h.vNode f mem_cons_self
  have hrefs := h.refs f mem_cons_self
  have hpos := count_pos_iff.mpr hf
  rw [count_cons_self] at hrefs
  have hclose : doCloseFile s (some f) closeRet = (0, s.setFile f (s.files f).unshare) := by
    simp only [doCloseFile, hv]
    rw [if_neg (by omega), if_pos (by omega)]
  rw [hclose]
  refine h.setFile mem_cons_self hv hv (fun g => (mem_cons_iff_of_mem hf g).symm)
    (fun g hg => (count_cons_of_ne hg.symm).symm) ?_ fun _ => rfl
  simp [File.unshare, hrefs]

theorem Countable.vfsFileDup (h : Countable s (n + 1) ws fs) (hrefs : 0 ≤ (s.files f).refs)
    (hs : vfsFileDup s f = some s') : Countable s' n ws fs := by
  unfold FileTable.vfsFileDup at hs
  split at hs
  · cases hs
  · next v hv =>
    cases hs
    refine ⟨h.acquire.1, fun g hg => ?_⟩
    have hroom := h.2 g hg
    by_cases hgf : g = f
    · subst hgf
      have hint := int32_succ hrefs (by omega)
      simp only [System.setFile, update_self, File.share, hint]
      omega
    · simp only [System.setFile, update_of_ne hgf]
      omega

theorem Balanced.vfsFileDups (fs : List ℕ) {gs : List ℕ} (h : Balanced base s ds cs)
    (hfs : ∀ f ∈ fs, f ∈ ds ∧ f ∈ gs ∧ ∀ v ∈ (s.files f).vNode, v ∈ ws)
    (hroom : Countable s (n + fs.length) ws gs) :
    ∃ s', fs.foldlM FileTable.vfsFileDup s = some s' ∧
      s'.processes = s.processes ∧ Balanced base s' (fs ++ ds) cs := by
  induction fs generalizing s ds with
  | nil => exact ⟨s, rfl, rfl, h⟩
  | cons f fs ih =>
    obtain ⟨hf, hfg, hfw⟩ := hfs f mem_cons_self
    obtain ⟨v, hv⟩ := h.vNode f hf
    have hvroom := hroom.1 v (hfw v hv)
    have hfroom := hroom.2 f hfg
    rw [length_cons] at hvroom hfroom
    obtain ⟨s₁, hs₁, hprocesses, hvNodes, hbalanced⟩ :=
      h.vfsFileDup hf hv (by omega) (by omega)
    have hroom₁ : Countable s₁ (n + fs.length) ws gs := by
      apply Countable.vfsFileDup hroom _ hs₁
      rw [h.refs f hf]
      exact Int.natCast_nonneg _
    obtain ⟨s', hs', hprocesses', hbalanced'⟩ := ih hbalanced (fun g hg => by
      obtain ⟨hgd, hgg, hgw⟩ := hfs g (mem_cons_of_mem f hg)
      refine ⟨mem_cons_of_mem f hgd, hgg, ?_⟩
      rw [hvNodes g]
      exact hgw) hroom₁
    refine ⟨s', ?_, hprocesses'.trans hprocesses, ?_⟩
    · rw [foldlM_cons, hs₁]
      exact hs'
    · exact hbalanced'.perm perm_middle (List.Perm.refl cs)

theorem Balanced.doCloseFiles (h : Balanced base s (files.flatMap toList ++ ds) cs)
    (hmore : ∀ f ∈ files.flatMap toList, f ∈ ds) :
    Balanced base (files.foldl (fun s file => (doCloseFile s file 0).2) s) ds cs := by
  induction files generalizing s with
  | nil => exact h
  | cons file files ih =>
    cases file with
    | none => exact ih h hmore
    | some f =>
      have hf : f ∈ files.flatMap toList ++ ds :=
        mem_append_right _ (hmore f mem_cons_self)
      apply ih (h.doCloseFile_shared hf 0)
      intro g hg
      exact hmore g (mem_cons_of_mem f hg)

theorem Balanced.close_last (h : Balanced base s (f :: ds) cs) (hf : f ∉ ds)
    (hheld : (s.files f).held = 1) :
    (doCloseFile s (some f) 0).1 = 0 ∧
      Balanced base (fileFree (doCloseFile s (some f) 0).2 f) ds cs := by
  obtain ⟨v, hv⟩ := h.vNode f mem_cons_self
  have hrefs := h.refs f mem_cons_self
  rw [count_cons_self, count_eq_zero.mpr hf] at hrefs
  have hclose : doCloseFile s (some f) 0 =
      (0, { s.setFile f (s.files f).close with
        vNodeRefs := Support.release s.vNodeRefs v }) := by
    simp only [doCloseFile, hv]
    rw [if_neg (by omega), if_neg (by omega)]
  have hne : ∀ g ∈ ds, g ≠ f := by
    rintro g hg rfl
    exact hf hg
  have hin := (h.alive f).mpr mem_cons_self
  rw [hclose]
  refine ⟨rfl, fun g => ?_, fun g hg => ?_, fun g hg => ?_, fun w => ?_⟩
  · refine Finset.mem_erase.trans ?_
    change g ≠ f ∧ g ∈ s.allocated ↔ g ∈ ds
    rw [h.alive g, mem_cons]
    constructor
    · rintro ⟨hgf, hg⟩
      exact hg.resolve_left hgf
    · intro hg
      exact ⟨hne g hg, .inr hg⟩
  · have := h.refs g (mem_cons_of_mem f hg)
    rw [count_cons_of_ne (hne g hg).symm] at this
    simp [fileFree, System.setFile, hne g hg, this]
  · obtain ⟨w, hw⟩ := h.vNode g (mem_cons_of_mem f hg)
    exact ⟨w, by simp [fileFree, System.setFile, hne g hg, hw]⟩
  · have hcounted := h.counted w
    rw [heldOn_erase hin hv w, hheld] at hcounted
    have hsum : (fileFree { s.setFile f (s.files f).close with
        vNodeRefs := Support.release s.vNodeRefs v } f).heldOn w = ∑ g ∈ s.allocated.erase f,
            if (s.files g).vNode = some w then (s.files g).held else 0 := by
      apply Finset.sum_congr rfl
      intro g hg
      have hgf := (Finset.mem_erase.mp hg).1
      simp [fileFree, System.setFile, hgf]
    rw [hsum]
    change Support.release s.vNodeRefs v w = _
    by_cases hw : w = v
    · subst hw
      rw [release_self, hcounted]
      simp only [if_true]
      omega
    · rw [release_of_ne _ hw, hcounted]
      simp only [hw, if_false]
      omega

theorem Balanced.openFile (h : Balanced base s ds cs) (hf : f ∉ s.allocated)
    (hv : s.vNodeRefs v + 1 < 2 ^ 32) :
    Balanced base
      { s with
        files := update s.files f ⟨some v, 1, 1⟩
        allocated := insert f s.allocated
        vNodeRefs := vNodeAcquire s.vNodeRefs v } (f :: ds) cs := by
  have hnot : f ∉ ds := fun hin => hf ((h.alive f).mpr hin)
  have hne : ∀ g ∈ ds, g ≠ f := by
    rintro g hg rfl
    exact hnot hg
  refine ⟨fun g => ?_, fun g hg => ?_, fun g hg => ?_, fun w => ?_⟩
  · rw [mem_cons, ← h.alive g]
    exact Finset.mem_insert
  · rcases mem_cons.mp hg with rfl | hg
    · simp [count_eq_zero.mpr hnot]
    · simp [hne g hg, (hne g hg).symm, h.refs g hg]
  · rcases mem_cons.mp hg with rfl | hg
    · exact ⟨v, by simp⟩
    · obtain ⟨w, hw⟩ := h.vNode g hg
      exact ⟨w, by simp [hne g hg, hw]⟩
  · have hcounted := h.counted w
    have hsum : System.heldOn
        { s with
          files := update s.files f ⟨some v, 1, 1⟩
          allocated := insert f s.allocated
          vNodeRefs := vNodeAcquire s.vNodeRefs v } w =
          (if v = w then 1 else 0) + s.heldOn w := by
      change (∑ g ∈ insert f s.allocated, _) = _
      rw [Finset.sum_insert hf]
      congr 1
      · simp
      · apply Finset.sum_congr rfl
        intro g hg
        simp [hne g ((h.alive g).mp hg)]
    rw [hsum]
    change vNodeAcquire s.vNodeRefs v w = _
    unfold vNodeAcquire
    by_cases hw : w = v
    · subst hw
      rw [update_self, dword_of_lt hv, if_pos rfl]
      omega
    · rw [update_of_ne hw, if_neg (Ne.symm hw)]
      omega

/-! ## The lists of the system -/

theorem perm_flatMap_set {α β : Type} (g : α → List β) {l : List α} {i : ℕ} {x : α}
    (hx : l[i]? = some x) (y : α) : (g x ++ (l.set i y).flatMap g).Perm (g y ++ l.flatMap g) := by
  induction l generalizing i with
  | nil => cases hx
  | cons z l ih =>
    cases i with
    | zero =>
      obtain rfl : z = x := some.inj hx
      exact perm_append_comm_assoc (g z) (g y) (l.flatMap g)
    | succ i =>
      have hrest := ih (i := i) hx
      refine (perm_append_comm_assoc _ _ _).trans ?_
      refine (hrest.append_left (g z)).trans ?_
      exact perm_append_comm_assoc _ _ _

variable {pid : ℕ} {p : Process}

theorem process_eq_some : s.process pid = some p ↔ s.processes[pid]? = some (some p) :=
  join_eq_some_iff

theorem descriptors_setProcess (hp : s.process pid = some p) (p' : Option Process) :
    (p.descriptors ++ (s.setProcess pid p').descriptors).Perm
      (p'.toList.flatMap Process.descriptors ++ s.descriptors) := by
  have hperm := perm_flatMap_set (fun p : Option Process => p.toList.flatMap Process.descriptors)
    (process_eq_some.mp hp) p'
  simpa [System.descriptors, System.setProcess] using hperm

theorem contexts_setProcess (hp : s.process pid = some p) (p' : Option Process) :
    (p.context ++ (s.setProcess pid p').contexts).Perm
      (p'.toList.flatMap Process.context ++ s.contexts) := by
  have hperm := perm_flatMap_set (fun p : Option Process => p.toList.flatMap Process.context)
    (process_eq_some.mp hp) p'
  simpa [System.contexts, System.setProcess] using hperm

/-- The counts agree with the descriptors and the contexts of the processes. -/
def Inv (base : ℕ → ℕ) (s : System) : Prop :=
  Balanced base s s.descriptors s.contexts

theorem Idle.inv (h : Idle base s) : Inv base s := by
  unfold Inv
  rw [h.descriptors]
  refine ⟨?_, ?_, ?_, ?_⟩
  · simp [h.allocated]
  · simp
  · simp
  · intro v
    rw [h.vNodes v]
    simp [System.heldOn, h.allocated]

theorem Inv.lifetime (h : Inv base s) : Lifetime base s := by
  refine ⟨h.alive, fun v hv => ?_⟩
  have hnone : s.heldOn v = 0 := by
    apply Finset.sum_eq_zero
    intro f hf
    exact if_neg (hv f ((h.alive f).mp hf))
  rw [h.counted v, hnone, add_zero]

/-- An operation that changes one process has kept the counts if its lists are
the old ones with the entries of that process exchanged. -/
theorem inv_of_setProcess {p' : Option Process} (hp : s.process pid = some p)
    (hprocesses : s'.processes = s.processes.set pid p') (hbalanced : Balanced base s' ds cs)
    (hds : (p.descriptors ++ ds).Perm (p'.toList.flatMap Process.descriptors ++ s.descriptors))
    (hcs : (p.context ++ cs).Perm (p'.toList.flatMap Process.context ++ s.contexts)) :
    Inv base s' := by
  have hdescriptors : s'.descriptors = (s.setProcess pid p').descriptors := by
    unfold System.descriptors
    rw [hprocesses]
    rfl
  have hcontexts : s'.contexts = (s.setProcess pid p').contexts := by
    unfold System.contexts
    rw [hprocesses]
    rfl
  unfold Inv
  rw [hdescriptors, hcontexts]
  apply hbalanced.perm
  · exact (perm_append_left_iff _).mp (hds.trans (descriptors_setProcess hp p').symm)
  · exact (perm_append_left_iff _).mp (hcs.trans (contexts_setProcess hp p').symm)

theorem inv_of_append
    (h : Balanced base s (p.descriptors ++ s.descriptors) (p.context ++ s.contexts)) :
    Inv base { s with processes := s.processes ++ [some p] } := by
  have hcongr := h.congr (t := { s with processes := s.processes ++ [some p] })
    rfl (fun _ _ => rfl) rfl
  apply hcongr.perm
  · simpa [System.descriptors] using perm_append_comm
  · simpa [System.contexts] using perm_append_comm

/-! ## System calls -/

theorem vfsGetFreeFd_spec {files' : List (Option ℕ)}
    (h : vfsGetFreeFd files = (.ofNat fd, files')) :
    files'[fd]? = some none ∧ files'.flatMap toList = files.flatMap toList := by
  unfold vfsGetFreeFd at h
  split at h
  · next i hi =>
    obtain ⟨hfd, rfl⟩ := mk.inj h
    obtain rfl : i = fd := Int.ofNat.inj hfd
    obtain ⟨hlt, hnone, -⟩ := findIdx?_eq_some_iff_getElem.mp hi
    refine ⟨?_, rfl⟩
    rw [getElem?_eq_getElem hlt, isNone_iff_eq_none.mp hnone]
  · split at h
    · have := (mk.inj h).1
      cases this
    · obtain ⟨hfd, rfl⟩ := mk.inj h
      obtain rfl : files.length = fd := Int.ofNat.inj hfd
      constructor
      · simp
      · simp

theorem process_setProcess (hp : s.process pid = some p) (p' : Process) :
    (s.setProcess pid (some p')).process pid = some p' := by
  rw [process_eq_some] at hp ⊢
  have hlt := (List.getElem?_eq_some_iff.mp hp).1
  simp [System.setProcess, hlt]

theorem mem_descriptors (hp : s.process pid = some p) (hf : (p.files[fd]?).join = some f) :
    f ∈ s.descriptors := by
  have hfile := mem_of_getElem? (join_eq_some_iff.mp hf)
  have hprocess := mem_of_getElem? (process_eq_some.mp hp)
  apply mem_flatMap.mpr
  refine ⟨some p, hprocess, ?_⟩
  simp only [toList_some, flatMap_cons, flatMap_nil, append_nil]
  exact mem_flatMap.mpr ⟨some f, hfile, by simp⟩

theorem descriptors_empty (h : p.files[fd]? = some (some f)) :
    (f :: (p.files.set fd none).flatMap toList).Perm p.descriptors :=
  perm_flatMap_set toList h none

theorem fileGet_eq_some {fd : ℤ} (h : fileGet p fd = some f) :
    p.files[fd.toNat]? = some (some f) := by
  unfold fileGet at h
  split at h
  · cases h
  · exact join_eq_some_iff.mp h

theorem processes_doCloseFiles (s : System) (files : List (Option ℕ)) :
    (files.foldl (fun s file => (doCloseFile s file 0).2) s).processes = s.processes := by
  induction files generalizing s with
  | nil => rfl
  | cons file files ih =>
    exact (ih _).trans (processes_doCloseFile s file 0)

theorem processes_loadReleaseFsContext (s : System) (pid : ℕ) (p : Process) :
    (loadReleaseFsContext s pid p).processes = s.processes.set pid none :=
  congrArg (fun l => List.set l pid none) (processes_doCloseFiles s p.files)

section

variable (h : Inv base s) (hp : s.process pid = some p)
include h hp

theorem Inv.setTable (hfiles : files.flatMap toList = p.files.flatMap toList) :
    Inv base (s.setProcess pid (some { p with files := files })) := by
  apply inv_of_setProcess hp rfl (h.congr (t := s.setProcess pid _) rfl (fun _ _ => rfl) rfl)
  · simp [Process.descriptors, hfiles]
  · simp [Process.context]

theorem Inv.opened (hslot : p.files[fd]? = some none)
    (hf : f ∉ s.allocated) (hv : s.vNodeRefs v + 1 < 2 ^ 32)
    (hprocesses : s'.processes = s.processes.set pid
      (some { p with files := p.files.set fd (some f) }))
    (hfiles : s'.files = update s.files f ⟨some v, 1, 1⟩)
    (hallocated : s'.allocated = insert f s.allocated)
    (hrefs : s'.vNodeRefs = vNodeAcquire s.vNodeRefs v) : Inv base s' := by
  have hopened := (h.openFile hf hv).congr (t := s') hallocated (fun g _ => congrFun hfiles g) hrefs
  apply inv_of_setProcess hp hprocesses hopened
  · have hfill := (perm_flatMap_set toList hslot (some f)).append_right s.descriptors
    simpa [Process.descriptors] using perm_middle.trans hfill.symm
  · simp [Process.context]

theorem Inv.sysOpenFile (hslot : p.files[fd]? = some none) (herr : a.err = 0 → a.vNode ≠ none)
    (hroom : ∀ v ∈ a.vNode, s.vNodeRefs v + 1 < 2 ^ 32)
    (hs : sysOpenFile s pid p fd a = some (r, s')) : Inv base s' := by
  unfold FileTable.sysOpenFile at hs
  split at hs
  · cases hs
    exact h
  · next f haddr =>
    split at hs
    · cases hs
    · next hf =>
      -- After an error the object is free again, whatever it holds.
      have hfreed : ∀ file refs, refs = s.vNodeRefs → Inv base (fileFree
            { s with
              files := update (update s.files f zeroFile) f file
              allocated := insert f s.allocated
              vNodeRefs := refs } f) := by
        rintro file refs rfl
        apply h.congr (t := fileFree _ f)
        · exact Finset.erase_insert hf
        · intro g hg
          have hgf : g ≠ f := by
            rintro rfl
            exact hf ((h.alive g).mpr hg)
          simp [fileFree, hgf]
        · rfl
      unfold doOpenFile at hs
      split at hs
      · next hnone =>
        have hne : a.err ≠ 0 := fun h0 => herr h0 hnone
        simp only [hne, ne_eq, not_false_eq_true, if_true] at hs
        cases hs
        exact hfreed _ _ rfl
      · next v hv =>
        have hlt := hroom v hv
        by_cases hne : a.err = 0
        · by_cases hopen : a.openRet = 0
          · simp only [hne, hopen, ne_eq, not_true_eq_false, if_false] at hs
            cases hs
            apply h.opened hp hslot hf hlt rfl _ rfl rfl
            exact update_idem _ _ _
          · simp only [hne, hopen, ne_eq, not_true_eq_false, if_false,
              not_false_eq_true, if_true] at hs
            cases hs
            exact hfreed _ _ (release_vNodeAcquire hlt)
        · simp only [hne, ne_eq, not_false_eq_true, if_true] at hs
          cases hs
          exact hfreed _ _ rfl

theorem Inv.sysOpen (hguard : Unshared s (.openFile pid a))
    (hs : sysOpen s pid p a = some (r, s')) : Inv base s' := by
  obtain ⟨herr, hroom, -⟩ := hguard
  unfold FileTable.sysOpen at hs
  split at hs
  · cases hs
    exact h
  · next fd files hfd =>
    obtain ⟨hslot, hfiles⟩ := vfsGetFreeFd_spec hfd
    have hgrown := h.setTable hp hfiles
    split at hs
    · apply hgrown.sysOpenFile (process_setProcess hp _) hslot herr _ hs
      intro v hv
      exact hroom v (mem_toList.mpr hv)
    · cases hs
      exact hgrown

theorem Inv.execSetupFs {exec : ℕ} {fds : ℕ × ℕ × ℕ} (hguard : Unshared s (.inherit pid fds exec))
    (hs : execSetupFs s p fds exec = some s') : Inv base s' := by
  have hroom := hguard p hp
  unfold FileTable.execSetupFs at hs
  split at hs
  · next stdout stdin stderr hstdout hstdin hstderr =>
    have hfiles : [fds.1, fds.2.1, fds.2.2].filterMap
        (fun fd => (p.files[fd]?).join) = [stdout, stdin, stderr] := by
      simp [hstdout, hstdin, hstderr]
    rw [hfiles] at hroom
    obtain ⟨hbalanced, hleft⟩ := h.acquires (n := 3) [exec, p.root, p.cwd]
      hroom fun v hv => mem_append_left _ hv
    have hopen : ∀ f ∈ [stdout, stdin, stderr], f ∈ s.descriptors := by
      simp only [mem_cons, not_mem_nil, or_false]
      rintro f (rfl | rfl | rfl)
      · exact mem_descriptors hp hstdout
      · exact mem_descriptors hp hstdin
      · exact mem_descriptors hp hstderr
    obtain ⟨s₁, hs₁, hprocesses, hdone⟩ :=
      hbalanced.vfsFileDups (n := 0) [stdout, stdin, stderr]
        (fun f hf => ⟨hopen f hf, hf, fun v hv => mem_append_right _
          (mem_filterMap.mpr ⟨f, hf, hv⟩)⟩) hleft
    rw [hs₁, map_some] at hs
    cases hs
    apply inv_of_append
    simp only [System.descriptors, System.contexts, hprocesses]
    apply hdone.perm (List.Perm.refl _)
    exact ((List.Perm.swap p.cwd p.root []).cons exec).append_right _
  · cases hs

theorem Inv.sysClose_spec {fd : ℤ} (hfd : fileGet p fd = some f) (hrefs : (s.files f).refs = 1)
    (hheld : (s.files f).held = 1) :
    (sysClose s pid p fd 0).1 = 0 ∧ (sysClose s pid p fd 0).2.processes = s.processes.set pid
        (some { p with files := p.files.set fd.toNat none }) ∧
      Inv base (sysClose s pid p fd 0).2 := by
  have hslot := fileGet_eq_some hfd
  have hin : f ∈ s.descriptors :=
    mem_descriptors hp (join_eq_some_iff.mpr hslot)
  have hperm := perm_cons_erase hin
  have hone := h.refs f hin
  rw [hrefs, hperm.count_eq, count_cons_self] at hone
  have hnot : f ∉ s.descriptors.erase f :=
    count_eq_zero.mp (by omega)
  obtain ⟨hret, hbalanced⟩ :=
    (h.perm hperm (List.Perm.refl _)).close_last hnot hheld
  have hclose : sysClose s pid p fd 0 = (0, (fileFree (doCloseFile s (some f) 0).2 f).setProcess pid
        (some { p with files := p.files.set fd.toNat none })) := by
    simp only [sysClose, hfd, hret, ne_eq, not_true_eq_false, if_false]
  have hset : (sysClose s pid p fd 0).2.processes = s.processes.set pid
      (some { p with files := p.files.set fd.toNat none }) := by
    rw [hclose]
    exact congrArg (fun l => List.set l pid _) (processes_doCloseFile s _ 0)
  refine ⟨by rw [hclose], hset, ?_⟩
  have hbalanced' : Balanced base (sysClose s pid p fd 0).2 (s.descriptors.erase f) s.contexts := by
    rw [hclose]
    exact hbalanced.congr rfl (fun _ _ => rfl) rfl
  apply inv_of_setProcess hp hset hbalanced'
  · have hempty := descriptors_empty hslot
    refine (hempty.symm.append_right _).trans ?_
    refine perm_middle.symm.trans ?_
    simpa [Process.descriptors] using hperm.symm.append_left _
  · simp [Process.context]

theorem Inv.sysClose {fd closeRet : ℤ} (hguard : Unshared s (.close pid fd closeRet)) :
    Inv base (sysClose s pid p fd closeRet).2 := by
  cases hfd : fileGet p fd with
  | none =>
    simp only [FileTable.sysClose, hfd]
    exact h
  | some f =>
    obtain ⟨hrefs, hheld, rfl⟩ := hguard p hp f hfd
    exact (h.sysClose_spec hp hfd hrefs hheld).2.2

theorem Inv.loadReleaseFsContext (hguard : Unshared s (.exit pid)) :
    Inv base (loadReleaseFsContext s pid p) := by
  have hds := descriptors_setProcess hp none
  have hcs := contexts_setProcess hp none
  simp only [toList_none, flatMap_nil, nil_append] at hds hcs
  have hmore : ∀ f ∈ p.files.flatMap toList, f ∈ (s.setProcess pid none).descriptors := by
    intro f hf
    have hlt := hguard p hp f hf
    have hin : f ∈ s.descriptors :=
      hds.mem_iff.mp (mem_append_left _ hf)
    rw [h.refs f hin, ← hds.count_eq, count_append] at hlt
    apply count_pos_iff.mp
    omega
  have hclosed := (h.perm hds.symm hcs.symm).doCloseFiles hmore
  have hreleased := hclosed.releases
  apply inv_of_setProcess hp (processes_loadReleaseFsContext s pid p)
    (hreleased.congr rfl (fun _ _ => rfl) rfl)
  · simpa using hds
  · simpa using hcs

end

theorem Inv.step (h : Inv base s) {op : Op} (hguard : Unshared s op)
    (hs : step s op = some s') : Inv base s' := by
  cases op with
  | openFile pid a =>
    obtain ⟨p, hp, hopen⟩ := bind_eq_some_iff.mp hs
    obtain ⟨⟨r, s₁⟩, hs₁, rfl⟩ := map_eq_some_iff.mp hopen
    exact h.sysOpen hp hguard hs₁
  | dup pid fd =>
    obtain ⟨p, -, rfl⟩ := map_eq_some_iff.mp hs
    exact h
  | inherit pid fds exec =>
    obtain ⟨p, hp, hsetup⟩ := bind_eq_some_iff.mp hs
    exact h.execSetupFs hp hguard hsetup
  | close pid fd closeRet =>
    obtain ⟨p, hp, rfl⟩ := map_eq_some_iff.mp hs
    exact h.sysClose hp hguard
  | exit pid =>
    obtain ⟨p, hp, rfl⟩ := map_eq_some_iff.mp hs
    exact h.loadReleaseFsContext hp hguard

theorem Inv.emptiesSlot (h : Inv base s) : EmptiesSlot s := by
  constructor
  · intro pid p fd f closeRet hp hfd hguard
    obtain ⟨hrefs, hheld, rfl⟩ := hguard p hp f hfd
    obtain ⟨hret, hprocesses, -⟩ := h.sysClose_spec hp hfd hrefs hheld
    exact ⟨hret, hprocesses⟩
  · exact processes_loadReleaseFsContext s

/-! ## Runs -/

def oneProcess : System where
  processes := [some ⟨replicate 10 none, none, 1, 2⟩]
  files := fun _ => zeroFile
  allocated := ∅
  vNodeRefs := fun v => 3 + [1, 2].count v

theorem idle_oneProcess : Idle (fun _ => 3) oneProcess :=
  ⟨rfl, rfl, fun _ => rfl⟩

end Whitix.FileTable
