import Mathlib.Data.Int.Notation
import Mathlib.Data.Nat.Basic
import Whitix.Include.Task
import Whitix.Support.Best

/-!
# The scheduler

Every thread has a number of quantums.  The timer takes one quantum from the
current thread at each tick, and the scheduler chooses a runnable thread with
the most quantums.  When no runnable thread has any quantums left, it
recalculates the quantums of all threads from their priorities.

Threads may be suspended and resumed at any time, and the scheduler may be
called at any time, but a thread that is chosen with quantums left runs for at
least one tick before it is suspended or replaced.
-/

namespace Whitix.Sched

open Function List Option Nat

/-- The threads on the list, in its order, and their priorities.  The idle task
is not one of them. -/
structure Threads where
  threadList : List ℕ
  priority : ℕ → ℕ
  priority_pos : ∀ t ∈ threadList, 1 ≤ priority t
  priority_le : ∀ t ∈ threadList, priority t ≤ 32

structure System where
  quantums : ℕ → ℕ
  state : ℕ → ThreadState
  /-- The current thread, or `none` for the idle task. -/
  currThread : Option ℕ
  /-- The current thread has been chosen with quantums left, and there has been
  no tick since. -/
  fresh : Bool

/-! ## The source -/

section

variable (threads : Threads) (s : System)

def better (best : ℤ × Option ℕ) (curr : ℕ) : ℤ × Option ℕ :=
  if best.1 < s.quantums curr ∧ s.state curr = .running then
    (s.quantums curr, some curr)
  else best

/-- The loop of `ThrChooseNewThread`: the largest number of quantums and the
first thread that has it. -/
def best : ℤ × Option ℕ :=
  threads.threadList.foldl (better s) (-1, none)

/-- No runnable thread has quantums left. -/
def Recalculates : Prop :=
  (best threads s).1 = 0
  deriving Decidable

def recalculate : ℕ → ℕ := fun t =>
  if t ∈ threads.threadList then threads.priority t + s.quantums t / 4
  else s.quantums t

def thrChooseNewThread : System :=
  let quantums :=
    if Recalculates threads s then recalculate threads s else s.quantums
  { s with
    quantums := quantums
    currThread := (best threads s).2
    fresh := (best threads s).2.any fun t => 0 < quantums t }

def pitInterrupt : System :=
  match s.currThread with
  | none => s
  | some t =>
    { s with
      quantums := update s.quantums t (s.quantums t - 1)
      fresh := false }

/-- The thread gives up the rest of its tick, so that it may be replaced. -/
def sysYield : System :=
  match s.currThread with
  | none => s
  | some t => { s with quantums := update s.quantums t 0, fresh := false }

inductive Op
  | tick
  | choose
  | suspend (t : ℕ)
  | resume (t : ℕ)
  | yield
  deriving DecidableEq, Repr

/-- A thread that has been chosen with quantums left is not suspended or replaced
before the next tick. -/
def step : Op → Option System
  | .tick => some (pitInterrupt s)
  | .choose => if s.fresh then none else some (thrChooseNewThread threads s)
  | .suspend t =>
    if s.fresh ∧ s.currThread = some t then none
    else some { s with state := update s.state t .paused }
  | .resume t => some { s with state := update s.state t .running }
  | .yield => some (sysYield s)

/-! ## Runs -/

/-- A run in which all states have a property.  The list has the threads that are
chosen, with a mark if the quantums are recalculated. -/
inductive Run (threads : Threads) (P : System → Prop) :
    System → List (Option ℕ × Bool) → System → Prop
  | nil {s : System} : P s → Run threads P s [] s
  | choose {s s' s'' : System} {log : List (Option ℕ × Bool)} : P s →
      step threads s .choose = some s' → Run threads P s' log s'' → Run threads P s
          ((s'.currThread, decide (Recalculates threads s)) :: log) s''
  | other {s s' s'' : System} {log : List (Option ℕ × Bool)} (op : Op) : P s →
      op ≠ .choose → step threads s op = some s' → Run threads P s' log s'' →
        Run threads P s log s''

def Runnable (t : ℕ) (s : System) : Prop := s.state t = .running

/-- A thread that stays runnable is chosen again after a number of choices. -/
def ChosenAgain : Prop :=
  ∀ t ∈ threads.threadList, ∃ bound, ∀ log s',
    Run threads (Runnable t) s log s' → bound < log.length → ∃ mark, (some t, mark) ∈ log

/-- A thread that is runnable from one recalculation to the next is chosen by the
first of the two calls or between them. -/
def ChosenBetween : Prop :=
  ∀ t ∈ threads.threadList, ∀ first log s', Run threads (Runnable t) s ((first, true) :: log) s' →
    (∀ choice ∈ log, choice.2 = false) → Recalculates threads s' →
      ∃ mark, (some t, mark) ∈ (first, true) :: log

/-- Once all threads have at most 42 quantums, they always do. -/
def StaysBounded : Prop :=
  (∀ t ∈ threads.threadList, s.quantums t ≤ 42) → ∀ log s',
    Run threads (fun _ => True) s log s' → ∀ t ∈ threads.threadList, s'.quantums t ≤ 42

end

/-! ## The choice -/

variable {threads : Threads} {s s' : System} {t : ℕ}

/-- The number of quantums that the loop keeps is that of the thread it keeps. -/
def Counted (s : System) (r : ℤ × Option ℕ) : Prop :=
  r.1 = match r.2 with
    | none => -1
    | some t => (s.quantums t : ℤ)

theorem improves_better {r : ℤ × Option ℕ} (hr : Counted s r) (curr : ℕ) :
    Counted s (better s r curr) ∧
      Support.Improves (Runnable · s) s.quantums r.2 curr (better s r curr).2 := by
  unfold better
  obtain ⟨most, choice⟩ := r
  split
  · next hmore =>
    refine ⟨rfl, .takes hmore.2 fun b hb => ?_⟩
    obtain ⟨rfl⟩ : choice = some b := hb
    cases hr
    exact Int.ofNat_le.mp (Int.le_of_lt hmore.1)
  · next hless =>
    refine ⟨hr, .keeps fun hrunning => ?_⟩
    have hle := Int.not_lt.mp fun hlt => hless ⟨hlt, hrunning⟩
    cases choice with
    | none =>
      cases hr
      omega
    | some b =>
      cases hr
      exact ⟨b, rfl, Int.ofNat_le.mp hle⟩

theorem bestOf_best (threads : Threads) (s : System) :
    Counted s (best threads s) ∧
      Support.BestOf (Runnable · s) s.quantums threads.threadList (best threads s).2 :=
  Support.bestOf_foldl Prod.snd (Counted s) (fun _ curr hr => improves_better hr curr)
    (show Counted s (-1, none) from rfl) rfl _

/-- The best thread has as many quantums as the loop has found, and no runnable thread
has more. -/
theorem exists_best (ht : t ∈ threads.threadList) (hrunning : Runnable t s) :
    ∃ u ∈ threads.threadList, (best threads s).2 = some u ∧ (best threads s).1 = s.quantums u ∧
      s.quantums t ≤ s.quantums u := by
  obtain ⟨hmost, hbest⟩ := bestOf_best threads s
  cases hchosen : (best threads s).2 with
  | none =>
    rw [hchosen] at hbest
    exact absurd hrunning (hbest t ht)
  | some u =>
    rw [Counted, hchosen] at hmost
    rw [hchosen] at hbest
    exact ⟨u, hbest.1, rfl, hmost, hbest.2.2 t ht hrunning⟩

theorem recalculate_pos (ht : t ∈ threads.threadList) (s : System) :
    0 < recalculate threads s t := by
  have hprio := threads.priority_pos t ht
  unfold recalculate
  rw [if_pos ht]
  omega

/-- The current thread has quantums left, and there has been no tick since it has
been chosen. -/
def AtStart (s : System) : Prop :=
  s.fresh = true ∧ ∃ u ∈ s.currThread, 0 < s.quantums u
  deriving Decidable

/-- What `ThrChooseNewThread` does when a thread is runnable: it chooses one
with the most quantums, and recalculates them only if no runnable thread had
any. -/
theorem choose_cases (ht : t ∈ threads.threadList) (hrunning : Runnable t s)
    (hs : step threads s .choose = some s') :
    s.fresh = false ∧ ((¬ Recalculates threads s ∧ s'.quantums = s.quantums ∧ AtStart s') ∨
      (Recalculates threads s ∧ s.quantums t = 0 ∧ s'.quantums = recalculate threads s)) := by
  obtain ⟨hfresh, hs⟩ := ite_none_left_eq_some.mp hs
  obtain ⟨u, -, hchosen, hquantums, hle⟩ := exists_best ht hrunning
  refine ⟨Bool.eq_false_iff.mpr hfresh, ?_⟩
  cases hs
  unfold thrChooseNewThread
  rw [hchosen]
  by_cases hzero : Recalculates threads s
  · right
    have hbest : (best threads s).1 = 0 := hzero
    rw [if_pos hzero]
    exact ⟨hzero, by omega, rfl⟩
  · left
    have hbest : (best threads s).1 ≠ 0 := hzero
    have hpos : 0 < s.quantums u := by omega
    rw [if_neg hzero]
    exact ⟨hzero, rfl, decide_eq_true hpos, u, rfl, hpos⟩

theorem pitInterrupt_cases (s : System) :
    pitInterrupt s = s ∨ ∃ u, s.currThread = some u ∧
      pitInterrupt s = { s with
        quantums := update s.quantums u (s.quantums u - 1)
        fresh := false } := by
  unfold pitInterrupt
  split
  · exact .inl rfl
  · next u hcurr => exact .inr ⟨u, hcurr, rfl⟩

theorem sysYield_cases (s : System) :
    sysYield s = s ∨ ∃ u, s.currThread = some u ∧
      sysYield s = { s with quantums := update s.quantums u 0, fresh := false } := by
  unfold sysYield
  split
  · exact .inl rfl
  · next u hcurr => exact .inr ⟨u, hcurr, rfl⟩

/-- The current thread stays, and it alone may lose quantums.  If it is no longer
at its start, it has lost one. -/
structure Spends (s s' : System) : Prop where
  curr : s'.currThread = s.currThread
  fresh : s'.fresh = true → s.fresh = true
  le : ∀ u, s'.quantums u ≤ s.quantums u
  others : ∀ u, s.currThread ≠ some u → s'.quantums u = s.quantums u
  spent : AtStart s → ¬ AtStart s' → ∀ u ∈ s.currThread, s'.quantums u < s.quantums u

theorem spends_same (hcurr : s'.currThread = s.currThread) (hquantums : s'.quantums = s.quantums)
    (hfresh : s'.fresh = s.fresh) : Spends s s' := by
  refine ⟨hcurr, fun h => hfresh ▸ h, fun u => Nat.le_of_eq (congrFun hquantums u),
    fun u _ => congrFun hquantums u, fun hstart hnot => ?_⟩
  unfold AtStart at hnot
  rw [hcurr, hquantums, hfresh] at hnot
  exact absurd hstart hnot

theorem spends_update {fresh : Bool} {u n : ℕ} (hu : s.currThread = some u)
    (hfresh : fresh = true → s.fresh = true) (hn : n ≤ s.quantums u - 1) :
    Spends s { s with
      quantums := update s.quantums u n, fresh := fresh } := by
  have hself := update_self u n s.quantums
  refine ⟨rfl, hfresh, fun v => ?_, fun v hv => ?_, fun hstart _ v hv => ?_⟩
  · by_cases hv : v = u
    · rw [hv]
      exact Nat.le_trans (Nat.le_of_eq hself) (Nat.le_trans hn (sub_le _ _))
    · exact Nat.le_of_eq (update_of_ne hv _ _)
  · apply update_of_ne
    rintro rfl
    exact hv hu
  · obtain ⟨-, w, hw, hpos⟩ := hstart
    obtain rfl := some.inj (hu.symm.trans hv)
    obtain rfl := some.inj (hu.symm.trans hw)
    exact Nat.lt_of_le_of_lt (Nat.le_of_eq hself) (by omega)

theorem spends_other {op : Op} (hop : op ≠ .choose)
    (hs : step threads s op = some s') : Spends s s' := by
  cases op with
  | choose => exact absurd rfl hop
  | tick =>
    cases hs
    rcases pitInterrupt_cases s with hidle | ⟨u, hcurr, heq⟩
    · rw [hidle]
      exact spends_same rfl rfl rfl
    · rw [heq]
      exact spends_update hcurr nofun (Nat.le_refl _)
  | suspend v =>
    obtain ⟨-, hs⟩ := ite_none_left_eq_some.mp hs
    cases hs
    exact spends_same rfl rfl rfl
  | resume v =>
    cases hs
    exact spends_same rfl rfl rfl
  | yield =>
    cases hs
    rcases sysYield_cases s with hidle | ⟨u, hcurr, heq⟩
    · rw [hidle]
      exact spends_same rfl rfl rfl
    · rw [heq]
      exact spends_update hcurr nofun (zero_le _)

/-! ## The quantums that are left -/

def total (quantums : ℕ → ℕ) : List ℕ → ℕ
  | [] => 0
  | t :: l => quantums t + total quantums l

section Total

variable {q q' : ℕ → ℕ} {l : List ℕ}

theorem total_le (h : ∀ u, q' u ≤ q u) : total q' l ≤ total q l := by
  induction l with
  | nil => exact Nat.le_refl _
  | cons u l ih => exact Nat.add_le_add (h u) ih

theorem total_lt (h : ∀ u, q' u ≤ q u) {u : ℕ} (hu : u ∈ l)
    (hlt : q' u < q u) : total q' l < total q l := by
  induction l with
  | nil => cases hu
  | cons v l ih =>
    have hrest := total_le (l := l) h
    have hhead := h v
    unfold total
    rcases mem_cons.mp hu with rfl | hmem
    · omega
    · have htail := ih hmem
      omega

theorem total_recalculate_le (threads : Threads) (s : System)
    (h : ∀ t ∈ l, t ∈ threads.threadList) :
    total (recalculate threads s) l ≤ 32 * l.length + total s.quantums l := by
  induction l with
  | nil => exact Nat.le_refl _
  | cons u l ih =>
    have hmem := h u mem_cons_self
    have hprio := threads.priority_le u hmem
    have hrest := ih (forall_mem_cons.mp h).2
    have hhead : recalculate threads s u = threads.priority u + s.quantums u / 4 := if_pos hmem
    unfold total
    rw [hhead, length_cons]
    omega

end Total

def Listed (threads : Threads) (s : System) : Prop :=
  s.fresh = true → ∀ u ∈ s.currThread, u ∈ threads.threadList

theorem listed_choose (hs : step threads s .choose = some s') : Listed threads s' := by
  intro _ u hu
  obtain ⟨-, hs⟩ := ite_none_left_eq_some.mp hs
  rw [← some.inj hs] at hu
  have hbest := (bestOf_best threads s).2
  rw [show (best threads s).2 = some u from hu] at hbest
  exact hbest.1

theorem Listed.spends (h : Listed threads s) (hs : Spends s s') : Listed threads s' := by
  intro hfresh
  rw [hs.curr]
  exact h (hs.fresh hfresh)

/-- A bound for the number of choices until a thread is chosen.  While the thread
has no quantums, the next recalculation is counted in. -/
def rank (threads : Threads) (s : System) (t : ℕ) : ℕ :=
  2 * total s.quantums threads.threadList + (if AtStart s then 0 else 1) + if s.quantums t = 0 then
      2 * (32 * threads.threadList.length + total s.quantums threads.threadList) + 2
    else 0

theorem rank_choose (ht : t ∈ threads.threadList) (hrunning : Runnable t s)
    (hs : step threads s .choose = some s') : rank threads s' t < rank threads s t := by
  obtain ⟨hfresh, hcases⟩ := choose_cases ht hrunning hs
  have hnot : ¬ AtStart s := fun h => Bool.eq_false_iff.mp hfresh h.1
  unfold rank
  rcases hcases with ⟨-, hquantums, hstart⟩ | ⟨-, hzero, hquantums⟩
  · rw [hquantums, if_neg hnot, if_pos hstart]
    omega
  · have htotal := total_recalculate_le threads s (fun t (ht : t ∈ threads.threadList) => ht)
    have hself := Nat.ne_of_gt (recalculate_pos ht s)
    have hone : (if AtStart s' then 0 else 1) ≤ 1 := by
      split
      · exact zero_le _
      · exact Nat.le_refl _
    rw [hquantums, if_neg hself, if_pos hzero]
    omega

theorem rank_spends (hlisted : Listed threads s) (hcurr : s.currThread ≠ some t)
    (hs : Spends s s') : rank threads s' t ≤ rank threads s t := by
  have htotal := total_le (l := threads.threadList) hs.le
  -- The part of the rank that waits for a recalculation does not grow.
  have hwait : (if s.quantums t = 0 then 2 * (32 * threads.threadList.length +
        total s'.quantums threads.threadList) + 2 else 0) ≤
      if s.quantums t = 0 then 2 * (32 * threads.threadList.length +
        total s.quantums threads.threadList) + 2 else 0 := by
    split
    · omega
    · exact Nat.le_refl _
  unfold rank
  rw [hs.others t hcurr]
  by_cases hstart : AtStart s
  · by_cases hstart' : AtStart s'
    · rw [if_pos hstart']
      omega
    · -- The current thread has lost one of the quantums in the total.
      obtain ⟨u, hu, -⟩ := hstart.2
      have hlt := total_lt hs.le (hlisted hstart.1 u hu) (hs.spent hstart hstart' u hu)
      rw [if_neg hstart']
      omega
  · rw [if_neg hstart]
    have hone : (if AtStart s' then 0 else 1) ≤ 1 := by
      split
      · exact zero_le _
      · exact Nat.le_refl _
    omega

theorem quantums_choose (hs : step threads s .choose = some s') :
    s'.quantums = s.quantums ∨ s'.quantums = recalculate threads s := by
  obtain ⟨-, hs⟩ := ite_none_left_eq_some.mp hs
  cases hs
  unfold thrChooseNewThread
  split
  · exact .inr rfl
  · exact .inl rfl

theorem rank_choose_le (hs : step threads s .choose = some s') :
    rank threads s' t ≤ 192 * threads.threadList.length +
      4 * total s.quantums threads.threadList + 3 := by
  have htotal : total s'.quantums threads.threadList ≤ 32 * threads.threadList.length +
        total s.quantums threads.threadList := by
    rcases quantums_choose hs with hsame | hnew
    · rw [hsame]
      exact le_add_left _ _
    · rw [hnew]
      exact total_recalculate_le threads s fun _ ht => ht
  unfold rank
  split
  · split
    · omega
    · omega
  · split
    · omega
    · omega

/-! ## Runs -/

section Runs

variable {log : List (Option ℕ × Bool)}

theorem not_chosen_cons {first : Option ℕ} {mark : Bool}
    (hlog : ∀ mark', (some t, mark') ∉ (first, mark) :: log) :
    first ≠ some t ∧ ∀ mark', (some t, mark') ∉ log := by
  constructor
  · rintro rfl
    exact hlog mark mem_cons_self
  · exact fun mark' hmem => hlog mark' (mem_cons_of_mem _ hmem)

theorem Run.last {P : System → Prop} (hrun : Run threads P s log s') : P s' := by
  induction hrun with
  | nil hP => exact hP
  | choose _ _ _ ih | other _ _ _ _ _ ih => exact ih

section

variable (ht : t ∈ threads.threadList) (hrun : Run threads (Runnable t) s log s')
include ht hrun

theorem Run.length_le_rank (hlisted : Listed threads s) (hcurr : s.currThread ≠ some t)
    (hlog : ∀ mark, (some t, mark) ∉ log) : log.length ≤ rank threads s t := by
  induction hrun with
  | nil _ => exact zero_le _
  | choose hrunning hs _ ih =>
    obtain ⟨hfirst, hlog⟩ := not_chosen_cons hlog
    have hdown := rank_choose ht hrunning hs
    have hrest := ih (listed_choose hs) hfirst hlog
    rw [length_cons]
    omega
  | other op _ hop hs _ ih =>
    have hspends := spends_other hop hs
    refine Nat.le_trans (ih (hlisted.spends hspends) ?_ hlog) ?_
    · rw [hspends.curr]
      exact hcurr
    · exact rank_spends hlisted hcurr hspends

/-- While a thread is runnable and not chosen, there is a bound for the number of
choices. -/
theorem Run.length_le (hlog : ∀ mark, (some t, mark) ∉ log) :
    log.length ≤ 192 * threads.threadList.length + 4 * total s.quantums threads.threadList + 4 := by
  induction hrun with
  | nil _ => exact zero_le _
  | choose _ hs hrest _ =>
    -- The rank bounds the choices from the first one on.
    obtain ⟨hfirst, hlog⟩ := not_chosen_cons hlog
    have hlength := hrest.length_le_rank ht (listed_choose hs) hfirst hlog
    have hrank := rank_choose_le (t := t) hs
    rw [length_cons]
    omega
  | other op _ hop hs _ ih =>
    have hlength := ih hlog
    have htotal := total_le (l := threads.threadList) (spends_other hop hs).le
    omega

end

theorem chosenAgain (threads : Threads) (s : System) : ChosenAgain threads s := by
  intro t ht
  refine ⟨192 * threads.threadList.length +
    4 * total s.quantums threads.threadList + 4, fun log s' hrun hlong => ?_⟩
  by_contra hnot
  have hlength := hrun.length_le ht fun mark hmem => hnot ⟨mark, hmem⟩
  exact absurd hlong (Nat.not_lt.mpr hlength)

theorem Run.quantums_eq (ht : t ∈ threads.threadList) (hrun : Run threads (Runnable t) s log s')
    (hcurr : s.currThread ≠ some t) (hlog : ∀ mark, (some t, mark) ∉ log)
    (hmarks : ∀ choice ∈ log, choice.2 = false) : s'.quantums t = s.quantums t := by
  induction hrun with
  | nil _ => rfl
  | choose hrunning hs _ ih =>
    obtain ⟨hfirst, hlog⟩ := not_chosen_cons hlog
    have hrest := ih hfirst hlog (forall_mem_cons.mp hmarks).2
    obtain ⟨-, hcases⟩ := choose_cases ht hrunning hs
    rcases hcases with ⟨-, hsame, -⟩ | ⟨hrecalculates, -⟩
    · rw [hrest, hsame]
    · have hmark := hmarks _ mem_cons_self
      exact absurd hrecalculates (of_decide_eq_false hmark)
  | other op _ hop hs _ ih =>
    have hspends := spends_other hop hs
    rw [ih _ hlog hmarks, hspends.others t hcurr]
    rw [hspends.curr]
    exact hcurr

theorem chosenBetween (threads : Threads) (s : System) : ChosenBetween threads s := by
  intro t ht first log s' hrun hmarks hagain
  generalize hl : (first, true) :: log = l at hrun
  induction hrun with
  | nil _ => cases hl
  | choose hrunning hs hrest _ =>
    obtain ⟨hhead, rfl⟩ := cons.inj hl
    obtain ⟨rfl, hmark⟩ := Prod.mk.inj hhead
    have hrecalculates := of_decide_eq_true hmark.symm
    by_contra hnot
    have hlog := not_chosen_cons fun mark hmem => hnot ⟨mark, hmem⟩
    have hkeep := hrest.quantums_eq ht hlog.1 hlog.2 hmarks
    obtain ⟨-, hcases⟩ := choose_cases ht hrunning hs
    rcases hcases with ⟨hnever, -⟩ | ⟨-, -, hnew⟩
    · exact hnever hrecalculates
    · -- The thread still has the quantums of the first recalculation at the
      -- second one.
      obtain ⟨u, -, -, hmost, hle⟩ := exists_best ht hrest.last
      rw [hkeep, hnew] at hle
      have hzero : (best threads _).1 = 0 := hagain
      have hpos := (recalculate_pos ht _).trans_le hle
      omega
  | other op _ _ _ _ ih => exact ih hagain hl

/-! ## The bound of the quantums -/

theorem recalculate_le (ht : t ∈ threads.threadList)
    (hle : s.quantums t ≤ 42) : recalculate threads s t ≤ 42 := by
  have hprio := threads.priority_le t ht
  unfold recalculate
  rw [if_pos ht]
  omega

theorem staysBounded (threads : Threads) (s : System) : StaysBounded threads s := by
  intro hbound log s' hrun
  induction hrun with
  | nil _ => exact hbound
  | choose _ hs _ ih =>
    apply ih
    intro t ht
    rcases quantums_choose hs with hsame | hnew
    · rw [hsame]
      exact hbound t ht
    · rw [hnew]
      exact recalculate_le ht (hbound t ht)
  | other op _ hop hs _ ih =>
    apply ih
    intro t ht
    exact Nat.le_trans ((spends_other hop hs).le t) (hbound t ht)

end Runs

/-- The runs do not get stuck: after a tick a choice is possible. -/
theorem exists_run (hrunning : Runnable t s) (hidle : s.currThread = none → s.fresh = false)
    (n : ℕ) : ∃ log s', Run threads (Runnable t) s log s' ∧ log.length = n := by
  induction n generalizing s with
  | zero => exact ⟨[], s, .nil hrunning, rfl⟩
  | succ n ih =>
    have htick : (pitInterrupt s).fresh = false ∧ Runnable t (pitInterrupt s) := by
      unfold pitInterrupt
      split
      · next hcurr => exact ⟨hidle hcurr, hrunning⟩
      · exact ⟨rfl, hrunning⟩
    have hchoose : step threads (pitInterrupt s) .choose =
        some (thrChooseNewThread threads (pitInterrupt s)) :=
      if_neg (Bool.eq_false_iff.mp htick.1)
    obtain ⟨log, s', hrun, hlength⟩ := @ih (thrChooseNewThread threads (pitInterrupt s)) htick.2
      fun hnone => by rw [thrChooseNewThread, show (best threads _).2 = none from hnone]; rfl
    exact ⟨_, s', .other .tick hrunning nofun rfl (.choose htick.2 hchoose hrun),
      congrArg (· + 1) hlength⟩

/-- In every state, whatever the quantums are, the scheduler chooses a thread
that stays runnable again, chooses it between any two recalculations, and keeps
the bound of the quantums. -/
theorem scheduler_fair (threads : Threads) (s : System) :
    ChosenAgain threads s ∧ ChosenBetween threads s ∧ StaysBounded threads s := by
  exact ⟨chosenAgain threads s, chosenBetween threads s, staysBounded threads s⟩

end Whitix.Sched
