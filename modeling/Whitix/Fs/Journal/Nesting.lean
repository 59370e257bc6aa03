import Whitix.Fs.Journal.Handle

/-!
# Nesting of journal handles

Whatever the order of the calls, `updates` counts the open handles of a
transaction.  The nesting itself is right only until an inner `JournalStop`:
it sets `currHandle` to `NULL` although the outer handle is still open, and
the next nested `JournalStart` gets a handle of its own.
-/

namespace Whitix.Jfs

open Support Function List Option

/-! ## Open handles -/

/-- The handles in use on the transaction at address `t`. -/
def System.openOn (s : System) (t : ℕ) : Set ℕ :=
  { h | ∃ handle, s.handles h = some handle ∧ 0 < handle.refs ∧
    handle.transaction = some t }

/-- Every handle is in use, on the current transaction if on any, and the
updates of a transaction are its open handles. -/
structure Counted (s : System) : Prop where
  live : ∀ h handle, s.handles h = some handle → 0 < handle.refs ∧
    ∀ t, handle.transaction = some t → s.journal.currTransaction = some t
  finite : ∀ t, (s.openOn t).Finite
  updates : ∀ t trans, s.transactions t = some trans → trans.updates = (s.openOn t).ncard

variable {h t : ℕ} {numBlocks : ℤ} {trans : JournalTrans} {handle : JournalHandle} (b : Bracketed)

section Counts

variable {s s' : System}

theorem openOn_congr {s₁ s₂ : System} (h : s₁.handles = s₂.handles) (t : ℕ) :
    s₁.openOn t = s₂.openOn t := by simp only [System.openOn, h]

section

variable (hs : Counted s)
include hs

/-- Changing how often a handle is used, or whether it is to be synchronous,
does not matter as long as it stays in use. -/
theorem Counted.setHandle {handle' : JournalHandle} (hhandle : s.handles h = some handle)
    (hrefs : 0 < handle'.refs) (htrans : handle'.transaction = handle.transaction)
    (curr : Option ℕ) : Counted { s.setHandle h handle' with currHandle := curr } := by
  have hopen : ∀ t, System.openOn
      { s.setHandle h handle' with currHandle := curr } t = s.openOn t := by
    intro t
    ext h₁
    simp only [System.openOn, System.setHandle, Set.mem_ofPred_eq, update_apply]
    split
    · next heq =>
      subst heq
      constructor
      · rintro ⟨_, hsome, -, ht⟩
        cases hsome
        exact ⟨handle, hhandle, (hs.live _ _ hhandle).1, htrans ▸ ht⟩
      · rintro ⟨_, hsome, -, ht⟩
        cases hhandle.symm.trans hsome
        exact ⟨handle', rfl, hrefs, htrans.trans ht⟩
    · exact Iff.rfl
  constructor
  · intro h₁ handle₁ hsome
    simp only [System.setHandle, update_apply] at hsome
    split at hsome
    · cases hsome
      refine ⟨hrefs, ?_⟩
      rw [htrans]
      exact (hs.live _ _ hhandle).2
    · exact hs.live _ _ hsome
  · intro t
    rw [hopen]
    exact hs.finite t
  · intro t trans ht
    rw [hopen]
    exact hs.updates t trans ht

theorem Counted.journalCurrTrans (t : ℕ) :
    Counted (journalCurrTrans s t).2 ∧ (journalCurrTrans s t).2.journal.currTransaction =
      some (journalCurrTrans s t).1 := by
  rw [Jfs.journalCurrTrans]
  split
  · next hcurr => exact ⟨hs, hcurr⟩
  · next hcurr =>
    refine ⟨⟨?_, hs.finite, ?_⟩, rfl⟩
    · intro h handle hhandle
      refine ⟨(hs.live h handle hhandle).1, ?_⟩
      intro t₁ ht₁
      cases hcurr.symm.trans ((hs.live h handle hhandle).2 t₁ ht₁)
    · intro t₁ trans htrans
      have hopen : (journalTransCreate s t).openOn t₁ = s.openOn t₁ :=
        openOn_congr rfl t₁
      rw [hopen]
      simp only [journalTransCreate, update_apply] at htrans
      split at htrans
      · cases htrans
        have hempty : s.openOn t₁ = ∅ := by
          apply Set.eq_empty_of_forall_notMem
          rintro h ⟨handle, hhandle, -, ht₁⟩
          cases hcurr.symm.trans ((hs.live h handle hhandle).2 t₁ ht₁)
        rw [hempty, Set.ncard_empty]
        rfl
      · exact hs.updates t₁ trans htrans

theorem Counted.joined (hcurr : s.journal.currTransaction = some t)
    (htrans : s.transactions t = some trans) (hfresh : s.handles h = none) :
    Counted (s.joined numBlocks h t trans) := by
  have hopen : ∀ t₁, (s.joined numBlocks h t trans).openOn t₁ =
      if t₁ = t then insert h (s.openOn t) else s.openOn t₁ := by
    intro t₁
    ext h₁
    by_cases hh : h₁ = h
    · subst hh
      by_cases ht : t₁ = t
      · subst ht
        simp [System.openOn, System.joined]
      · simp [System.openOn, System.joined, ht, Ne.symm ht, hfresh]
    · by_cases ht : t₁ = t
      · subst ht
        simp [System.openOn, System.joined, hh]
      · simp [System.openOn, System.joined, hh, ht]
  have hnew : h ∉ s.openOn t := by
    rintro ⟨handle, hhandle, -⟩
    rw [hfresh] at hhandle
    cases hhandle
  constructor
  · intro h₁ handle₁ hsome
    simp only [System.joined, update_apply] at hsome
    split at hsome
    · cases hsome
      refine ⟨one_pos, ?_⟩
      intro t₁ ht₁
      cases ht₁
      exact hcurr
    · exact hs.live _ _ hsome
  · intro t₁
    rw [hopen]
    split
    · exact (hs.finite t).insert h
    · exact hs.finite t₁
  · intro t₁ trans₁ hsome
    rw [hopen]
    simp only [System.joined, update_apply] at hsome
    split at hsome
    · next ht =>
      cases hsome
      rw [if_pos ht, Set.ncard_insert_of_notMem hnew (hs.finite t)]
      push_cast
      rw [hs.updates t trans htrans]
    · next ht =>
      rw [if_neg ht]
      exact hs.updates t₁ trans₁ hsome

theorem Counted.left (hhandle : s.handles h = some handle) (ht : handle.transaction = some t)
    (htrans : s.transactions t = some trans) : Counted (s.left h t handle trans) := by
  have hopen : ∀ t₁, (s.left h t handle trans).openOn t₁ = s.openOn t₁ \ {h} := by
    intro t₁
    ext h₁
    by_cases hh : h₁ = h
    · subst hh
      simp [System.openOn, System.left]
    · simp [System.openOn, System.left, hh]
  have hmem : h ∈ s.openOn t := ⟨handle, hhandle, (hs.live h _ hhandle).1, ht⟩
  constructor
  · intro h₁ handle₁ hsome
    simp only [System.left, update_apply] at hsome
    split at hsome
    · cases hsome
    · exact hs.live _ _ hsome
  · intro t₁
    rw [hopen]
    exact (hs.finite t₁).sdiff
  · intro t₁ trans₁ hsome
    rw [hopen]
    simp only [System.left, update_apply] at hsome
    split at hsome
    · next heq =>
      subst heq
      cases hsome
      have hcard := Set.ncard_sdiff_singleton_add_one hmem (hs.finite t₁)
      have hupdates := hs.updates t₁ trans htrans
      simp only
      omega
    · next hne =>
      have hnot : h ∉ s.openOn t₁ := by
        rintro ⟨handle₁, hhandle₁, -, ht₁⟩
        cases hhandle.symm.trans hhandle₁
        exact hne (some.inj (ht₁.symm.trans ht))
      rw [Set.sdiff_singleton_eq_self hnot]
      exact hs.updates t₁ trans₁ hsome

theorem Counted.journalCommitBegin (h : journalCommitBegin s = some s') : Counted s' := by
  obtain ⟨t, trans, ht, htrans, hupdates, rfl⟩ := journalCommitBegin_cases h
  have hempty : s.openOn t = ∅ := by
    have hcard := hs.updates t trans htrans
    rw [hupdates] at hcard
    exact (Set.ncard_eq_zero (hs.finite t)).mp (by omega)
  refine ⟨?_, hs.finite, ?_⟩
  · intro h handle hhandle
    refine ⟨(hs.live h handle hhandle).1, ?_⟩
    intro t₁ ht₁
    have hcurr := (hs.live h handle hhandle).2 t₁ ht₁
    rw [ht] at hcurr
    cases hcurr
    have hmem : h ∈ s.openOn t :=
      ⟨handle, hhandle, (hs.live h handle hhandle).1, ht₁⟩
    rw [hempty] at hmem
    exact hmem.elim
  · intro t₁ trans₁ hsome
    simp only [System.setTrans, update_apply] at hsome
    split at hsome
    · next heq =>
      subst heq
      cases hsome
      exact hs.updates t₁ trans htrans
    · exact hs.updates t₁ trans₁ hsome

theorem Counted.asksCommit (h : AsksCommit s s') : Counted s' := by
  obtain ⟨request, rfl | h⟩ := h
  · exact { hs with }
  · have hs₁ : Counted { s with journal :=
        { s.journal with commitRequest := request } } := { hs with }
    exact hs₁.journalCommitBegin h

theorem Counted.journalStop (hstop : journalStop s h = some s') : Counted s' := by
  obtain ⟨handle, t, trans, hhandle, ht, htrans, hcases⟩ :=
    journalStop_cases hstop
  rcases hcases with ⟨hrefs, rfl⟩ | ⟨-, hasks⟩
  · have hpos : 0 < ({ handle with refs := handle.refs - 1 } : JournalHandle).refs := by
      change 0 < handle.refs - 1
      omega
    exact hs.setHandle hhandle hpos rfl none
  · exact (hs.left hhandle ht htrans).asksCommit hasks

end

end Counts

/-! ## Bracketed calls -/

/-- A thread with its calls of `JournalStart` that are still open.  The stack
holds the handles they returned, the innermost first. -/
structure Bracketed where
  sys : System
  stack : List ℕ

/-- What may happen next: a successful `JournalStart`, which finds the given
addresses free, the `JournalStop` of the innermost open bracket, setting
`sync` as `JournalForceCommit` does, a turn of the committer thread, and the
passing of time. -/
inductive Op
  | start (numBlocks : ℤ) (h t : ℕ)
  | stop
  | setSync
  | commit
  | tick (seconds : ℕ)

def step : Op → Option Bracketed
  | .start numBlocks h t =>
    if b.sys.handles h = none ∧ b.sys.transactions t = none then
      match journalStart b.sys numBlocks h t with
      | some (some r, s) => some ⟨s, r :: b.stack⟩
      | _ => none
    else none
  | .stop =>
    match b.stack with
    | [] => none
    | h :: rest => (journalStop b.sys h).map fun s => ⟨s, rest⟩
  | .setSync => do
      let h ← b.stack.head?
      let handle ← b.sys.handles h
      some ⟨b.sys.setHandle h { handle with sync := 1 }, b.stack⟩
  | .commit => (journalCommitter b.sys).map fun s => ⟨s, b.stack⟩
  | .tick seconds => some ⟨{ b.sys with seconds }, b.stack⟩

/-- The open brackets form one unit: all of them have the handle of the
thread, which is used as often as they are deep and is the only one there
is, and transactions count their handles. -/
structure OneUnit : Prop where
  outer : ∀ h ∈ b.stack, b.sys.currHandle = some h
  idle : b.stack = [] → b.sys.currHandle = none
  depth : ∀ h ∈ b.stack, ∃ handle, b.sys.handles h = some handle ∧ handle.refs = b.stack.length
  live : ∀ h, b.sys.handles h ≠ none ↔ h ∈ b.stack
  updates : ∀ t trans, b.sys.transactions t = some trans → trans.updates = (b.sys.openOn t).ncard

structure Idle : Prop where
  stack : b.stack = []
  currHandle : b.sys.currHandle = none
  handles : ∀ h, b.sys.handles h = none
  updates : ∀ t trans, b.sys.transactions t = some trans → trans.updates = 0

/-- Every `JournalStop` is the only open use of its handle. -/
def StopsLastUse : Op → Prop
  | .stop => ∀ h ∈ b.stack.head?, ∀ handle ∈ b.sys.handles h, handle.refs = 1
  | _ => True

instance : (op : Op) → Decidable (StopsLastUse b op)
  | .stop => inferInstanceAs (Decidable (∀ h ∈ b.stack.head?,
      ∀ handle ∈ b.sys.handles h, handle.refs = 1))
  | .start _ _ _ | .setSync | .commit | .tick _ => isTrue trivial

/-! ## Runs -/

/-- The invariant of runs in which every stop ends the last use. -/
def Nested : Prop :=
  Counted b.sys ∧ OneUnit b

theorem Idle.nested {b : Bracketed} (h : Idle b) : Nested b := by
  obtain ⟨sys, stack⟩ := b
  obtain rfl : stack = [] := h.stack
  have hopen : ∀ t, sys.openOn t = ∅ := by
    intro t
    apply Set.eq_empty_of_forall_notMem
    rintro a ⟨handle, hhandle, -⟩
    rw [h.handles a] at hhandle
    cases hhandle
  have hupdates : ∀ t trans, sys.transactions t = some trans →
      trans.updates = (sys.openOn t).ncard := by
    intro t trans ht
    rw [hopen, Set.ncard_empty, h.updates t trans ht]
    rfl
  refine ⟨⟨?_, ?_, hupdates⟩, nofun, fun _ => h.currHandle, nofun, ?_, hupdates⟩
  · intro a handle hhandle
    rw [h.handles a] at hhandle
    cases hhandle
  · intro t
    rw [hopen]
    exact Set.finite_empty
  · intro a
    rw [h.handles a]
    simp

section Steps

variable {b b' : Bracketed}

theorem AsksCommit.handles {s s' : System} (h : AsksCommit s s') :
    s'.handles = s.handles ∧ s'.currHandle = s.currHandle := by
  obtain ⟨request, rfl | h⟩ := h
  · exact ⟨rfl, rfl⟩
  · obtain ⟨t, trans, -, -, -, rfl⟩ := journalCommitBegin_cases h
    exact ⟨rfl, rfl⟩

theorem OneUnit.congr {s' : System} (hb : OneUnit b) (hcounted : Counted s')
    (hhandles : s'.handles = b.sys.handles)
    (hcurr : s'.currHandle = b.sys.currHandle) : OneUnit ⟨s', b.stack⟩ := by
  constructor
  · rw [hcurr]
    exact hb.outer
  · rw [hcurr]
    exact hb.idle
  · rw [hhandles]
    exact hb.depth
  · rw [hhandles]
    exact hb.live
  · exact hcounted.updates

theorem OneUnit.stack_eq_nil (hb : OneUnit b) (h : b.sys.currHandle = none) : b.stack = [] := by
  apply eq_nil_iff_forall_not_mem.mpr
  intro a ha
  cases h.symm.trans (hb.outer a ha)

section

variable (hb : Nested b)
include hb

theorem Nested.start_nested {curr : ℕ} (hcurr : b.sys.currHandle = some curr)
    (hhandle : b.sys.handles curr = some handle) :
    Nested ⟨b.sys.setHandle curr { handle with refs := handle.refs + 1 }, curr :: b.stack⟩ := by
  have hmem : curr ∈ b.stack := by
    rw [← hb.2.live, hhandle]
    exact some_ne_none handle
  have hrefs : handle.refs = b.stack.length := by
    obtain ⟨handle', hhandle', hrefs⟩ := hb.2.depth curr hmem
    cases hhandle.symm.trans hhandle'
    exact hrefs
  have hpos : 0 < ({ handle with refs := handle.refs + 1 } : JournalHandle).refs := by
    change 0 < handle.refs + 1
    omega
  have hcounted := hb.1.setHandle hhandle hpos rfl b.sys.currHandle
  have houter : ∀ a ∈ curr :: b.stack, a = curr :=
    forall_mem_cons.mpr ⟨rfl, fun a ha => some.inj ((hb.2.outer a ha).symm.trans hcurr)⟩
  refine ⟨hcounted, ?_, nofun, ?_, ?_, hcounted.updates⟩
  · intro a ha
    rw [houter a ha]
    exact hcurr
  · intro a ha
    rw [houter a ha]
    refine ⟨_, update_self .., ?_⟩
    simp only [length_cons]
    omega
  · intro a
    simp only [System.setHandle, update_apply, mem_cons]
    split
    · next heq => simp [heq]
    · next hne =>
      rw [hb.2.live]
      simp [hne]

theorem Nested.start_outermost (hcurr : b.sys.currHandle = none) (hfresh : b.sys.handles h = none)
    (htrans : (journalCurrTrans b.sys t).2.transactions (journalCurrTrans b.sys t).1 = some trans) :
    Nested ⟨(journalCurrTrans b.sys t).2.joined numBlocks h
      (journalCurrTrans b.sys t).1 trans, h :: b.stack⟩ := by
  have hstack := hb.2.stack_eq_nil hcurr
  have hhandles : (journalCurrTrans b.sys t).2.handles = b.sys.handles := by
    rw [journalCurrTrans]
    split <;> rfl
  have hcounted : Counted ((journalCurrTrans b.sys t).2.joined numBlocks h
      (journalCurrTrans b.sys t).1 trans) := by
    apply (hb.1.journalCurrTrans t).1.joined (hb.1.journalCurrTrans t).2 htrans
    rw [hhandles]
    exact hfresh
  rw [hstack]
  refine ⟨hcounted, ?_, ?_, ?_, ?_, hcounted.updates⟩
  · exact forall_mem_singleton.mpr rfl
  · intro hnil
    cases hnil
  · exact forall_mem_singleton.mpr ⟨_, update_self .., rfl⟩
  · intro a
    simp only [System.joined, hhandles, update_apply, mem_singleton]
    split
    · next heq => simp [heq]
    · next hne =>
      rw [hb.2.live, hstack]
      simp [hne]

theorem Nested.stop_last {rest : List ℕ} {s' : System} (hstack : b.stack = h :: rest)
    (hlast : ∀ handle ∈ b.sys.handles h, handle.refs = 1)
    (hstop : journalStop b.sys h = some s') : Nested ⟨s', rest⟩ := by
  have hcounted := hb.1.journalStop hstop
  obtain ⟨handle, t, trans, hhandle, -, -, hcases⟩ := journalStop_cases hstop
  have hrefs := hlast handle hhandle
  have hrest : rest = [] := by
    obtain ⟨handle', hhandle', hdepth⟩ := hb.2.depth h (by simp [hstack])
    cases hhandle.symm.trans hhandle'
    rw [hrefs, hstack, length_cons] at hdepth
    exact length_eq_zero_iff.mp (by omega)
  rcases hcases with ⟨hmore, -⟩ | ⟨-, hasks⟩
  · omega
  · obtain ⟨hhandles, hcurr⟩ := hasks.handles
    rw [hrest]
    refine ⟨hcounted, nofun, fun _ => hcurr, nofun, fun a => ?_, hcounted.updates⟩
    rw [hhandles]
    simp only [System.left, update_apply]
    split
    · simp
    · next hne =>
      rw [hb.2.live, hstack, hrest]
      simp [hne]

theorem Nested.step {op : Op} (hguard : StopsLastUse b op)
    (hstep : step b op = some b') : Nested b' := by
  cases op with
  | start numBlocks h t =>
    simp only [Jfs.step] at hstep
    obtain ⟨hfresh, hstep⟩ := ite_none_right_eq_some.mp hstep
    split at hstep
    · next r s hstart =>
      cases hstep
      cases hcurr : b.sys.currHandle with
      | some curr =>
        obtain ⟨handle, hhandle, hr, rfl⟩ :=
          journalStart_nested hcurr hstart
        cases hr
        exact hb.start_nested hcurr hhandle
      | none =>
        rcases journalStart_outermost hcurr hstart with
          ⟨hr, -⟩ | ⟨hr, trans, htrans, rfl⟩
        · cases hr
        · cases hr
          exact hb.start_outermost hcurr hfresh.1 htrans
    · cases hstep
  | stop =>
    simp only [Jfs.step] at hstep
    split at hstep
    · cases hstep
    · next h rest hstack =>
      obtain ⟨s', hstop, rfl⟩ := map_eq_some_iff.mp hstep
      exact hb.stop_last hstack (hguard h (by simp [hstack])) hstop
  | setSync =>
    simp only [Jfs.step, bind_eq_bind, bind_eq_some_iff] at hstep
    obtain ⟨h, hhead, handle, hhandle, hstep⟩ := hstep
    cases hstep
    have hpos := (hb.1.live h handle hhandle).1
    have hcounted := hb.1.setHandle (s := b.sys) hhandle
      (show 0 < ({ handle with sync := 1 } : JournalHandle).refs from hpos)
      rfl b.sys.currHandle
    refine ⟨hcounted, hb.2.outer, hb.2.idle, ?_, ?_, hcounted.updates⟩
    · intro a ha
      obtain ⟨handle', hhandle', hrefs⟩ := hb.2.depth a ha
      simp only [System.setHandle, update_apply]
      split
      · next heq =>
        subst heq
        cases hhandle.symm.trans hhandle'
        exact ⟨_, rfl, hrefs⟩
      · exact ⟨handle', hhandle', hrefs⟩
    · intro a
      simp only [System.setHandle, update_apply]
      split
      · next heq =>
        subst heq
        simp [mem_of_mem_head? hhead]
      · exact hb.2.live a
  | commit =>
    obtain ⟨s', hcommit, rfl⟩ := map_eq_some_iff.mp hstep
    have hasks := journalCommitter_asks hcommit
    have hcounted := hb.1.asksCommit hasks
    exact ⟨hcounted, hb.2.congr hcounted hasks.handles.1 hasks.handles.2⟩
  | tick seconds =>
    cases hstep
    have hcounted : Counted { b.sys with seconds } := { hb.1 with }
    exact ⟨hcounted, hb.2.congr hcounted rfl rfl⟩

/-- Ending a use that is not the last one leaves brackets open without a
handle for the thread. -/
theorem Nested.not_oneUnit_of_stop (hstep : Jfs.step b .stop = some b')
    (hinner : ¬ StopsLastUse b .stop) : ¬ OneUnit b' := by
  intro hb'
  apply hinner
  simp only [Jfs.step] at hstep
  split at hstep
  · cases hstep
  · next h rest hstack =>
    obtain ⟨s', hstop, rfl⟩ := map_eq_some_iff.mp hstep
    intro a ha handle hhandle
    simp only [hstack, head?_cons, mem_def, some.injEq] at ha
    subst ha
    obtain ⟨handle₁, hhandle₁, hdepth⟩ := hb.2.depth h (by simp [hstack])
    cases hhandle₁.symm.trans hhandle
    obtain ⟨handle₂, _, _, hhandle₂, -, -, hcases⟩ := journalStop_cases hstop
    cases hhandle₁.symm.trans hhandle₂
    rcases hcases with ⟨-, hs'⟩ | ⟨hlast, -⟩
    · have hrest := hb'.stack_eq_nil (by rw [hs']; rfl)
      rw [hdepth, hstack, show rest = [] from hrest]
      rfl
    · rw [hstack, length_cons] at hdepth
      omega

end

end Steps

/-- While each `JournalStop` ends the last use of its handle, the open brackets
form one unit, and the next stop keeps it so exactly if it does the same. -/
theorem nested_handles_form_one_unit {b₀ b : Bracketed}
    (hidle : Idle b₀) (h : Reach step StopsLastUse b₀ b) :
    OneUnit b ∧ ∀ b', step b .stop = some b' → (OneUnit b' ↔ StopsLastUse b .stop) := by
  have hb : Nested b :=
    h.invariant hidle.nested fun _ _ _ hnested hguard hstep =>
      hnested.step hguard hstep
  refine ⟨hb.2, ?_⟩
  intro b' hstep
  constructor
  · intro hunit
    by_contra hinner
    exact hb.not_oneUnit_of_stop hstep hinner hunit
  · intro hlast
    exact (hb.step hlast hstep).2

def newJournal : Bracketed where
  sys := {
    journal :=
      { maxTransactionBuffers := 256
        transSequence := 1
        commitSequence := 0
        tailSequence := 1
        commitRequest := 0
        head := 1
        tail := 1
        free := 1023
        checkpointTrans := []
        currTransaction := none
        committingTrans := none }
    transactions := fun _ => none
    handles := fun _ => none
    currHandle := none
    seconds := 0 }
  stack := []

theorem newJournal_idle : Idle newJournal where
  stack := rfl
  currHandle := rfl
  handles := fun _ => rfl
  updates t trans ht := by
    cases ht

/-- An update, and two nested starts of the next one. -/
theorem nested_handles_form_one_unit_twice :
    ∃ b, Reach step StopsLastUse newJournal b ∧ b.stack = [2, 2] ∧ OneUnit b := by
  obtain ⟨b, hreach, hstack⟩ := exists_reach step StopsLastUse newJournal
    [.start 4 1 0, .stop, .start 8 2 1, .start 1 3 1] (fun b => b.stack = [2, 2]) rfl
  exact ⟨b, hreach, hstack, (nested_handles_form_one_unit newJournal_idle hreach).1⟩

/-- After a nested start and its stop, a second nested start inside the same
outer bracket returns a new handle. -/
theorem second_nested_start_returns_new_handle :
    ∃ b, Idle newJournal ∧ Reach step (fun _ _ => True) newJournal b ∧
      b.stack = [2, 1] ∧ ¬ OneUnit b := by
  obtain ⟨b, hb, hstack⟩ := exists_reach step (fun _ _ => True) newJournal
    [.start 8 1 0, .start 4 2 1, .stop, .start 4 2 1] (fun b => b.stack = [2, 1]) rfl
  refine ⟨b, newJournal_idle, hb, hstack, ?_⟩
  intro hunit
  have hone := hunit.outer 1 (by simp [hstack])
  have htwo := hunit.outer 2 (by simp [hstack])
  cases some.inj (hone.symm.trans htwo)

end Whitix.Jfs
