import Whitix.Devices.Storage.Ata.Controller

/-!
# Every request is ended

In an infinite run every command is answered, the timer keeps ticking, no request takes
`2 ^ 32` ticks, and the low half of the clock does not wrap between the time at which a
waiting drive has gone to sleep and the end of a request.  The current request is ended
because each interrupt leaves it one sector fewer.  A drive that waits is chosen because
the other one goes to sleep whenever one of its requests is ended, and the two can
only have gone to sleep at the same tick until the next tick.
-/

namespace Whitix.AtaControllers

open Support Storage List Option Nat Function Prod

/-- An infinite run of clean events. -/
structure FairRun (l : Layout) where
  state : ℕ → Controller
  event : ℕ → Op
  starts : Idle (state 0)
  steps : ∀ n, step l (state n) (event n) = some (state (n + 1))
  clean : ∀ n, Clean (event n)
  /-- Every command is answered. -/
  answered : ∀ n, (state n).unanswered ≠ [] → ∃ k, (event (n + k)).IsInterrupt
  /-- The timer keeps ticking. -/
  ticks : ∀ n, ∃ k, event (n + k) = .tick
  /-- No request takes `2 ^ 32` ticks. -/
  prompt : ∀ n k, (state n).busy = true → (state (n + k)).ended = (state n).ended →
      (state (n + k)).clock < (state n).clock + 2 ^ 32
  /-- The `sleepTime` of a waiting drive, half as wide as the clock, is in the past when a
  request of the other drive is ended. -/
  unwrapped : ∀ n, (state (n + 1)).ended ≠ (state n).ended → ∀ d ∈ l.driveList,
      (state n).requestList d ≠ [] → (state n).currDrive ≠ some d →
      (state n).sleepTime d ≤ dword (state n).clock

variable {i n b left drive : ℕ} {s' s : Controller}

namespace FairRun

variable {l : Layout} (run : FairRun l)

theorem inv (n : ℕ) : Inv l (run.state n) := by
  induction n with
  | zero => exact inv_idle run.starts
  | succ n ih => exact ih.step (run.clean n) (run.steps n)

theorem busyStep (hbusy : (run.state n).busy = true) :
    BusyStep l (run.state n) (run.state (n + 1)) (run.event n) := by
  obtain ⟨s', hs, -, hstep⟩ := (run.inv n).step_busy hbusy (run.clean n)
    (enabled_of_step (run.steps n))
  rw [some.inj ((run.steps n).symm.trans hs)]
  exact hstep

theorem grows (n : ℕ) :
    (∀ d, (run.state n).ended d <+: (run.state (n + 1)).ended d) ∧
      (∀ d, (run.state n).submitted d <+: (run.state (n + 1)).submitted d) ∧
      (run.state n).clock ≤ (run.state (n + 1)).clock := by
  cases hbusy : (run.state n).busy with
  | false =>
    obtain ⟨s', hs, -, hgrows⟩ := (run.inv n).step_idle hbusy (run.clean n)
      (enabled_of_step (run.steps n))
    rw [some.inj ((run.steps n).symm.trans hs)]
    exact hgrows
  | true =>
    obtain ⟨drive, -, -, q, rest, -, hstep⟩ := run.busyStep hbusy
    rcases hstep with ⟨-, htransfers | hends⟩ | ⟨-, hkeeps⟩
    · refine ⟨fun d => ?_, fun d => ?_, htransfers.clock.ge⟩
      · exact htransfers.ended ▸ prefix_rfl
      · exact htransfers.submitted ▸ prefix_rfl
    · refine ⟨hends.ended, fun d => ?_, hends.clock.ge⟩
      exact hends.submitted ▸ prefix_rfl
    · refine ⟨fun d => ?_, hkeeps.submitted, hkeeps.clock⟩
      exact hkeeps.ended ▸ prefix_rfl

theorem ended_grows (n k d : ℕ) : (run.state n).ended d <+: (run.state (n + k)).ended d := by
  induction k with
  | zero => exact ⟨[], append_nil _⟩
  | succ k ih => exact ih.trans ((run.grows (n + k)).1 d)

theorem submitted_grows (n k d : ℕ) :
    (run.state n).submitted d <+: (run.state (n + k)).submitted d := by
  induction k with
  | zero => exact ⟨[], append_nil _⟩
  | succ k ih => exact ih.trans ((run.grows (n + k)).2.1 d)

theorem ended_lt {k d : ℕ} (h : (run.state (n + k)).ended d ≠ (run.state n).ended d) :
    ((run.state n).ended d).length < ((run.state (n + k)).ended d).length := by
  have hgrows := run.ended_grows n k d
  apply Nat.lt_of_not_le
  intro hle
  exact h (hgrows.eq_of_length_le hle).symm

theorem clock_le (n k : ℕ) : (run.state n).clock ≤ (run.state (n + k)).clock := by
  induction k with
  | zero => exact le_rfl
  | succ k ih => exact ih.trans (run.grows (n + k)).2.2

/-! ## The current request -/

def Serving (n drive left : ℕ) : Prop :=
  (run.state n).busy = true ∧ (run.state n).currDrive = some drive ∧
    ∃ q rest, (run.state n).requestList drive = q :: rest ∧ q.request.numSectors = left

theorem serving_step (h : run.Serving n drive left) :
    (run.state (n + 1)).ended drive ≠ (run.state n).ended drive ∨
      (run.state (n + 1)).ended drive = (run.state n).ended drive ∧
        ((run.event n).IsInterrupt ∧ (∃ less < left, run.Serving (n + 1) drive less) ∨
          ¬ (run.event n).IsInterrupt ∧ run.Serving (n + 1) drive left) := by
  obtain ⟨hbusy, hcurr, q, rest, hlist, rfl⟩ := h
  obtain ⟨d, hd, hcurr', q', rest', hlist', hstep⟩ := run.busyStep hbusy
  obtain rfl := some.inj (hcurr.symm.trans hcurr')
  obtain ⟨rfl, rfl⟩ := cons.inj (hlist.symm.trans hlist')
  rcases hstep with ⟨hinterrupt, htransfers | hends⟩ | ⟨hother, hkeeps⟩
  · have hvalid := (run.inv n).valid drive hd q (hlist ▸ mem_cons_self)
    refine .inr ⟨by rw [htransfers.ended], .inl ⟨hinterrupt, _, ?_,
      htransfers.busy, htransfers.currDrive.trans hcurr, q.advance, rest, ?_,
      rfl⟩⟩
    · exact sub_lt hvalid.pos one_pos
    · rw [htransfers.requestList, update_self]
  · exact .inl hends.ended_ne
  · obtain ⟨more, hmore⟩ := hkeeps.requestList drive
    refine .inr ⟨by rw [hkeeps.ended], .inr ⟨hother, hkeeps.busy,
      hkeeps.currDrive.trans hcurr, q, rest ++ more, ?_, rfl⟩⟩
    rw [← hmore, hlist]
    rfl

theorem serving_next (k n : ℕ) (hserving : run.Serving n drive left)
    (hinterrupt : (run.event (n + k)).IsInterrupt) :
    ∃ i, (run.state (n + i)).ended drive ≠ (run.state n).ended drive ∨
      ∃ less < left, run.Serving (n + i) drive less := by
  induction k generalizing n with
  | zero =>
    refine ⟨1, ?_⟩
    rcases run.serving_step hserving with hended | ⟨-, hless | hsame⟩
    · exact .inl hended
    · exact .inr hless.2
    · exact absurd hinterrupt hsame.1
  | succ k ih =>
    rcases run.serving_step hserving with hended | ⟨hsame, hless | hkeep⟩
    · exact ⟨1, .inl hended⟩
    · exact ⟨1, .inr hless.2⟩
    · rw [add_comm k 1, ← add_assoc] at hinterrupt
      obtain ⟨i, hi⟩ := ih (n + 1) hkeep.2 hinterrupt
      refine ⟨1 + i, ?_⟩
      rw [← add_assoc, ← hsame]
      exact hi

theorem serving_ended (left n : ℕ) (hserving : run.Serving n drive left) :
    ∃ i, ((run.state n).ended drive).length < ((run.state (n + i)).ended drive).length := by
  induction left using Nat.strongRecOn generalizing n with
  | ind left ih =>
    obtain ⟨d, -, -, q, rest, -, hunanswered⟩ := (run.inv n).busy hserving.1
    obtain ⟨k, hk⟩ := run.answered n (by
      rw [hunanswered]
      exact cons_ne_nil _ _)
    obtain ⟨i, hended | ⟨less, hless, hserving'⟩⟩ :=
      run.serving_next k n hserving hk
    · exact ⟨i, run.ended_lt hended⟩
    · obtain ⟨j, hj⟩ := ih less hless (n + i) hserving'
      refine ⟨i + j, ?_⟩
      rw [← add_assoc]
      exact lt_of_le_of_lt (run.ended_grows n i drive).length_le hj

/-! ## The other drive -/

def EndsAt (n : ℕ) : Prop := (run.state (n + 1)).ended ≠ (run.state n).ended

theorem exists_endsAt (hbusy : (run.state n).busy = true) : ∃ k, run.EndsAt (n + k) := by
  obtain ⟨drive, -, hcurr, q, rest, hlist, -⟩ := (run.inv n).busy hbusy
  obtain ⟨i, hi⟩ := run.serving_ended _ n ⟨hbusy, hcurr, q, rest, hlist, rfl⟩
  by_contra hnever
  have hsame : ∀ k, (run.state (n + k)).ended = (run.state n).ended := by
    intro k
    induction k with
    | zero => rfl
    | succ k ih =>
      rw [← ih]
      by_contra hne
      exact hnever ⟨k, hne⟩
  rw [hsame i] at hi
  exact lt_irrefl _ hi

/-- A drive waits from a time on, and none of its requests is ended. -/
def Starves (n b : ℕ) : Prop :=
  b ∈ l.driveList ∧ (run.state n).requestList b ≠ [] ∧
    ∀ k, (run.state (n + k)).ended b = (run.state n).ended b

variable {run}

section

variable (h : run.Starves n b)
include h

theorem Starves.busy : (run.state n).busy = true := by
  rw [← Bool.not_eq_false]
  exact fun hidle => h.2.1 ((run.inv n).idle hidle b h.1)

theorem Starves.currDrive_ne : (run.state n).currDrive ≠ some b := by
  intro hcurr
  obtain ⟨q, rest, hlist⟩ := exists_cons_of_ne_nil h.2.1
  obtain ⟨i, hi⟩ := run.serving_ended _ n ⟨h.busy, hcurr, q, rest, hlist, rfl⟩
  rw [h.2.2 i] at hi
  exact lt_irrefl _ hi

theorem Starves.succ :
    run.Starves (n + 1) b ∧ (run.state (n + 1)).sleepTime b = (run.state n).sleepTime b := by
  have hended := h.2.2 1
  have hlater : ∀ k, (run.state (n + 1 + k)).ended b = (run.state (n + 1)).ended b := by
    intro k
    rw [hended, add_assoc]
    exact h.2.2 _
  obtain ⟨drive, -, -, q, rest, hlist, hstep⟩ := run.busyStep h.busy
  rcases hstep with ⟨-, htransfers | hends⟩ | ⟨-, hkeeps⟩
  · refine ⟨⟨h.1, ?_, hlater⟩, by rw [htransfers.sleepTime]⟩
    rw [htransfers.requestList]
    by_cases heq : b = drive
    · rw [heq, update_self]
      exact cons_ne_nil _ _
    · rw [update_of_ne heq]
      exact h.2.1
  · obtain ⟨hsame, hsleep⟩ := hends.same b hended
    refine ⟨⟨h.1, ?_, hlater⟩, hsleep⟩
    rw [hsame]
    exact h.2.1
  · refine ⟨⟨h.1, ?_, hlater⟩, by rw [hkeeps.sleepTime]⟩
    obtain ⟨more, hmore⟩ := hkeeps.requestList b
    rw [← hmore]
    exact append_ne_nil_of_left_ne_nil h.2.1 _

theorem Starves.add (k : ℕ) :
    run.Starves (n + k) b ∧ (run.state (n + k)).sleepTime b = (run.state n).sleepTime b := by
  induction k with
  | zero => exact ⟨h, rfl⟩
  | succ k ih =>
    obtain ⟨hstarves, hsleep⟩ := ih
    obtain ⟨hstarves', hsleep'⟩ := hstarves.succ
    exact ⟨hstarves', hsleep'.trans hsleep⟩

/-- A request of the other drive is only ended at the tick at which the waiting
drive went to sleep. -/
theorem Starves.endsAt (hends : run.EndsAt n) :
    (run.state n).sleepTime b = dword (run.state n).clock ∧
      (run.state (n + 1)).clock = (run.state n).clock := by
  obtain ⟨drive, hdrive, hcurr, q, rest, hlist, hstep⟩ := run.busyStep h.busy
  rcases hstep with ⟨-, htransfers | hends'⟩ | ⟨-, hkeeps⟩
  · exact absurd htransfers.ended hends
  · refine ⟨?_, hends'.clock⟩
    have hpast := run.unwrapped n hends b h.1 h.2.1 h.currDrive_ne
    have hlow : dword (pitGetQuantums (run.state n)) = dword (run.state n).clock :=
      mod_mod_of_dvd _ (pow_dvd_pow 2 (by decide))
    by_contra hdiffers
    have hasleep := lt_of_le_of_ne hpast hdiffers
    rw [← hlow] at hasleep
    have hne : b ≠ drive := by
      rintro rfl
      exact h.currDrive_ne hcurr
    have hturn := hends'.fair b h.1 hne h.2.1 (fun d hd hdb hdd => ?_) hasleep
    · rcases hturn with hchosen | hended
      · exact h.succ.1.currDrive_ne hchosen
      · exact hended (h.2.2 1)
    · -- There is no third drive.
      have hlt := l.lt_two d hd
      have hlt' := l.lt_two b h.1
      have hlt'' := l.lt_two drive hdrive
      omega
  · exact absurd hkeeps.ended hends

end

theorem Starves.clock_of_endsAt {j : ℕ} (h : run.Starves (i + j) b) (hends : run.EndsAt (i + j))
    (hbusy : (run.state i).busy = true) (hsame : (run.state (i + j)).ended = (run.state i).ended)
    (hsleep : dword (run.state i).clock = (run.state (i + j)).sleepTime b) :
    (run.state (i + j)).clock = (run.state i).clock := by
  have hnow := (h.endsAt hends).1
  have hbound := run.prompt i j hbusy hsame
  have hle := run.clock_le i j
  rw [← hsleep] at hnow
  unfold dword at hnow
  omega

theorem Starves.clock_eq (h : run.Starves n b) (hends : run.EndsAt n) (k : ℕ) :
    ∃ i j, n + 1 + k = i + j ∧ (run.state i).busy = true ∧
      (run.state (i + j)).ended = (run.state i).ended ∧
      dword (run.state i).clock = (run.state (i + j)).sleepTime b ∧
      (run.state i).clock = (run.state n).clock := by
  induction k with
  | zero =>
    obtain ⟨hsleep, hclock⟩ := h.endsAt hends
    refine ⟨n + 1, 0, rfl, h.succ.1.busy, rfl, ?_, hclock⟩
    rw [hclock, ← hsleep]
    exact h.succ.2.symm
  | succ k ih =>
    obtain ⟨i, j, hj, hbusy, hsame, hsleep, hclock⟩ := ih
    have hstarves : run.Starves (i + j) b := by
      rw [← hj, add_assoc]
      exact (h.add (1 + k)).1
    have hnext : n + 1 + (k + 1) = i + j + 1 := by rw [← add_assoc, hj]
    by_cases hlater : run.EndsAt (i + j)
    · have heq := hstarves.clock_of_endsAt hlater hbusy hsame hsleep
      have hkeep := (hstarves.endsAt hlater).2
      refine ⟨i + j + 1, 0, hnext, hstarves.succ.1.busy, rfl, ?_, hkeep.trans (heq.trans hclock)⟩
      rw [hkeep, heq, hsleep]
      exact hstarves.succ.2.symm
    · refine ⟨i, j + 1, hnext, hbusy, ?_, ?_, hclock⟩
      · exact (Classical.not_not.mp hlater).trans hsame
      · exact hsleep.trans hstarves.succ.2.symm

/-- No drive waits forever. -/
theorem not_starves : ¬ run.Starves n b := by
  intro h
  obtain ⟨k, hends⟩ := run.exists_endsAt h.busy
  have h := (h.add k).1
  generalize n + k = n at h hends
  -- After the next tick another request is ended, but at the same tick.
  obtain ⟨m, htick⟩ := run.ticks (n + 1)
  obtain ⟨k', hends'⟩ := run.exists_endsAt (h.add (1 + m + 1)).1.busy
  obtain ⟨i, j, hj, hbusy, hsame, hsleep, hclock⟩ := h.clock_eq hends (m + 1 + k')
  have hindex : n + (1 + m + 1) + k' = i + j := by omega
  have hstarves := (h.add (1 + m + 1 + k')).1
  rw [← add_assoc, hindex] at hstarves
  rw [hindex] at hends'
  have heq := hstarves.clock_of_endsAt hends' hbusy hsame hsleep
  have hticked : (run.state (n + 1 + m + 1)).clock = (run.state (n + 1 + m)).clock + 1 := by
    have hs := run.steps (n + 1 + m)
    rw [htick] at hs
    rw [← some.inj hs]
  have hbefore := run.clock_le n (1 + m)
  have hafter := run.clock_le (n + 1 + m + 1) k'
  rw [← add_assoc] at hbefore
  rw [show n + 1 + m + 1 + k' = i + j by omega] at hafter
  omega

/-! ## All requests -/

theorem exists_ended_lt (run : FairRun l) (hb : b ∈ l.driveList)
    (hi : i < ((run.state n).submitted b).length) (hended : i ≤ ((run.state n).ended b).length) :
    ∃ k, i < ((run.state (n + k)).ended b).length := by
  by_cases hlt : i < ((run.state n).ended b).length
  · exact ⟨0, hlt⟩
  · by_contra hnever
    have hstarves : run.Starves n b := by
      refine ⟨hb, fun hnil => ?_, fun k => ?_⟩
      · have horder := congrArg length ((run.inv n).order b hb)
        rw [hnil, length_append, length_map] at horder
        exact hlt (lt_of_lt_of_eq hi horder.symm)
      · by_contra hne
        exact hnever ⟨k, hended.trans_lt (run.ended_lt hne)⟩
    exact not_starves hstarves

theorem eventually_ended (run : FairRun l) (hb : b ∈ l.driveList)
    (i : ℕ) (hi : i < ((run.state n).submitted b).length) :
    ∃ k, i < ((run.state (n + k)).ended b).length := by
  induction i with
  | zero => exact run.exists_ended_lt hb hi (zero_le _)
  | succ i ih =>
    obtain ⟨k, hk⟩ := ih (lt_of_succ_lt hi)
    have hlater := (run.submitted_grows n k b).length_le
    obtain ⟨k', hk'⟩ := run.exists_ended_lt hb (hi.trans_le hlater) hk
    exact ⟨k + k', by rwa [← add_assoc]⟩

end FairRun

/-! ## The controller -/

/-- A clean controller returns from every event, waits for an answer while it is
busy and has no request otherwise, and ends every request once. -/
theorem ata_never_stuck (l : Layout) {s₀ : Controller} (hstart : Idle s₀) :
    (∀ s, Reach (step l) (fun _ op => Clean op) s₀ s → Progress l s ∧ Once l s ∧
        ∀ op, Clean op → Enabled l s op → (step l s op).isSome = true) ∧
      ∀ run : FairRun l, run.state 0 = s₀ → ∀ n, ∀ d ∈ l.driveList,
        ∀ i < ((run.state n).submitted d).length,
          ∃ k, i < ((run.state (n + k)).ended d).length := by
  constructor
  · intro s hreach
    have hinv : Inv l s := hreach.invariant (inv_idle hstart) fun _ _ _ h hclean => h.step hclean
    refine ⟨hinv.toProgress, hinv.toOnce, fun op hclean henabled => ?_⟩
    obtain ⟨s', hs, -⟩ := hinv.step_enabled hclean henabled
    rw [hs]
    rfl
  · intro run _ n d hd i hi
    exact run.eventually_ended hd i hi

/-! ## A drive with one request -/

def oneDrive : Layout := ⟨[0], by decide, by decide, fun _ => 100⟩

def quiet : Controller where
  requestList _ := []
  sleepTime _ := 0
  interrupt _ := false
  currDrive := none
  busy := false
  clock := 0
  unanswered := []
  submitted _ := []
  ended _ := []

theorem idle_quiet : Idle quiet :=
  ⟨fun _ => rfl, fun _ => rfl, fun _ => rfl, rfl, rfl⟩

def oneSector : Op := .request 0 ⟨.read, 0, 5, 1⟩ []

def oneRequest : ℕ → Controller
  | 0 => quiet
  | 1 => (step oneDrive quiet oneSector).getD quiet
  | 2 => (step oneDrive (oneRequest 1) (.interrupt 0x50 [])).getD quiet
  | n + 3 => { oneRequest (n + 2) with clock := (oneRequest (n + 2)).clock + 1 }

theorem oneRequest_ended (n : ℕ) :
    (oneRequest (n + 2)).busy = false ∧ (oneRequest (n + 2)).unanswered = [] ∧
      ((oneRequest (n + 2)).ended 0).length = 1 := by
  induction n with
  | zero => decide
  | succ n ih => exact ih

def oneRequestRun : FairRun oneDrive where
  state := oneRequest
  event
    | 0 => oneSector
    | 1 => .interrupt 0x50 []
    | _ + 2 => .tick
  starts := idle_quiet
  steps
    | 0 => rfl
    | 1 => rfl
    | _ + 2 => rfl
  clean
    | 0 => by decide
    | 1 => by decide
    | _ + 2 => trivial
  answered
    | 0, h => absurd rfl h
    | 1, _ => ⟨0, trivial⟩
    | n + 2, h => absurd (oneRequest_ended n).2.1 h
  ticks n := ⟨2, rfl⟩
  prompt
    | 0, _, hbusy, _ => by cases hbusy
    | 1, 0, _, _ => by decide
    | 1, k + 1, _, hsame => by
      have hlength := (oneRequest_ended k).2.2
      rw [add_comm k 2, show 2 + k = 1 + (k + 1) by omega, hsame] at hlength
      cases hlength
    | n + 2, _, hbusy, _ => by
      rw [(oneRequest_ended n).1] at hbusy
      cases hbusy
  unwrapped
    | 0, _, 0, _, hpending, _ => absurd rfl hpending
    | 1, _, 0, _, _, hother => absurd rfl hother
    | _ + 2, hends, _, _, _, _ => absurd rfl hends
    | 0, _, d + 1, hd, _, _ => absurd hd (by simp [oneDrive])
    | 1, _, d + 1, hd, _, _ => absurd hd (by simp [oneDrive])

theorem ata_never_stuck_one_request :
    oneRequestRun.state 0 = quiet ∧ ∃ k, 0 < ((oneRequestRun.state (1 + k)).ended 0).length :=
  ⟨rfl, (ata_never_stuck oneDrive idle_quiet).2 oneRequestRun rfl 1 0 (by decide) 0 (by decide)⟩

/-! ## A drive with an error -/

def Stuck (s : Controller) : Prop := s.busy = true ∧ s.unanswered = []

theorem Stuck.step {l : Layout} (h : Stuck s) {op : Op}
    (hs : step l s op = some s') : Stuck s' ∧ s'.ended = s.ended := by
  cases op with
  | request drive request timeouts =>
    obtain ⟨-, hs⟩ := ite_none_right_eq_some.mp hs
    rw [storageDoRequest_busy timeouts h.1] at hs
    cases hs
    exact ⟨h, rfl⟩
  | interrupt status timeouts => exact absurd h.2 (enabled_of_step hs)
  | tick =>
    cases hs
    exact ⟨h, rfl⟩

theorem Stuck.reach {l : Layout} (h : Stuck s)
    (hreach : Reach (AtaControllers.step l) (fun _ _ => True) s s') : s'.ended = s.ended := by
  have hinv : Stuck s' ∧ s'.ended = s.ended := by
    apply @Reach.invariant _ _ _ _ _ _ (fun t => Stuck t ∧ t.ended = s.ended) ⟨h, rfl⟩ _ hreach
    intro t op t' ih _ hs
    obtain ⟨hstuck, hended⟩ := ih.1.step hs
    exact ⟨hstuck, hended.trans ih.2⟩
  exact hinv.2

/-- After a single interrupt that reports an error the controller is busy without
an unanswered command, and the request is never ended. -/
theorem ata_gets_stuck :
    ∃ s, Reach (step oneDrive) (fun _ _ => True) quiet s ∧
      s.busy = true ∧ s.unanswered = [] ∧ (s.submitted 0).length = 1 ∧
      ∀ s', Reach (step oneDrive) (fun _ _ => True) s s' → s'.ended 0 = [] := by
  obtain ⟨s, hs, hbusy, hunanswered, hlength, hended⟩ := exists_reach (step oneDrive)
    (fun _ _ => True) quiet [oneSector, .interrupt 0x51 []] (fun s => s.busy = true ∧
      s.unanswered = [] ∧ (s.submitted 0).length = 1 ∧ s.ended 0 = []) (by decide)
  refine ⟨s, hs, hbusy, hunanswered, hlength, ?_⟩
  intro s' hreach
  have hsame := Stuck.reach ⟨hbusy, hunanswered⟩ hreach
  rw [hsame]
  exact hended

end Whitix.AtaControllers
