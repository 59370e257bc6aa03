import Whitix.Devices.Storage.Request
import Whitix.Include.Error
import Whitix.Support.Best
import Whitix.Support.Run

/-!
# An ATA controller

A controller has up to two drives and works on one request at a time.  It sends
a command for each sector of a request, and the drive answers each command with
an interrupt.  When the last sector has been transferred or there is an error,
the request is ended and the drive that has waited longest is chosen.

All drives are disks.  An event is a call of the driver that runs to its end: a
new request, an interrupt, or a tick of the timer whose quantums the driver
reads.
-/

namespace Whitix.AtaControllers

open Support Storage Function List Nat Option Bool

/-! ## The source -/

/-- The drives of a controller, in the order of its list. -/
structure Layout where
  driveList : List ℕ
  nodup : driveList.Nodup
  lt_two : ∀ d ∈ driveList, d < 2
  totalSectors : ℕ → ℕ

/-- A request in the queue of a drive.  The driver changes the request as it
transfers sectors, so that the original request is kept beside it. -/
structure Queued where
  original : Request
  request : Request
  transferred : ℕ
  deriving DecidableEq

structure AtaCommand where
  driveNum : ℕ
  command : RequestType
  block : ℕ
  deriving DecidableEq

structure Controller where
  requestList : ℕ → List Queued
  sleepTime : ℕ → ℕ
  /-- The interrupt function of a drive is `AtaRwInterrupt`. -/
  interrupt : ℕ → Bool
  currDrive : Option ℕ
  busy : Bool
  /-- The number of ticks of the timer. -/
  clock : ℕ
  /-- The commands that were issued and not answered. -/
  unanswered : List AtaCommand
  /-- All requests so far, by drive. -/
  submitted : ℕ → List Request
  /-- The requests that were ended, by drive, with their status. -/
  ended : ℕ → List (Queued × ℤ)

/-- A wait for a state of a drive, numbered within an event. -/
inductive Wait
  /-- The waits of `AtaSendCommand`. -/
  | command (n : ℕ)
  /-- The wait of `AtaReadWrite` for data to write. -/
  | write (n : ℕ)
  /-- The wait of `AtaRwInterrupt` for data to read. -/
  | read
  deriving DecidableEq

section

variable (l : Layout) (timeouts : List Wait) (s : Controller)

/-- A `QWORD`, of which a drive keeps the low half as its `sleepTime`. -/
def pitGetQuantums : ℕ := s.clock % 2 ^ 64

def chooseBetter (best : Option ℕ) (drive : ℕ) : Option ℕ :=
  if s.requestList drive = [] then best
  else
    match best with
    | none => some drive
    | some b =>
      if qwordSub (pitGetQuantums s) (s.sleepTime b) <
          qwordSub (pitGetQuantums s) (s.sleepTime drive) then some drive
      else some b

def ataChooseDrive : Option ℕ :=
  l.driveList.foldl (chooseBetter s) none

/-- `AtaReadWrite` without the calls of `AtaFinishRequest`.  The result is
`true` for `-SIOPENDING` and `false` for an error. -/
def ataReadWrite (n : ℕ) (s : Controller) (q : Queued) (drive : ℕ) : Controller × Bool :=
  if l.totalSectors drive < q.request.sector then (s, false)
  else
    let s := { s with interrupt := update s.interrupt drive true }
    if Wait.command n ∈ timeouts then (s, false)
    else
      let s := { s with
        unanswered := s.unanswered ++ [⟨drive, q.request.type, q.request.sector⟩] }
      if q.request.type = .write ∧ Wait.write n ∈ timeouts then (s, false)
      else (s, true)

section

variable (drive : ℕ) (status : UInt8)

/-- `AtaFinishRequest` up to the call of `AtaControllerRequest`. -/
def endRequest (status : ℤ) : Controller :=
  { s with
    requestList := update s.requestList drive (s.requestList drive).tail
    ended := update s.ended drive
      (s.ended drive ++ (s.requestList drive).head?.toList.map (·, status))
    busy := false
    interrupt := update s.interrupt drive false
    sleepTime := update s.sleepTime drive (dword (pitGetQuantums s)) }

/-- It is called again whenever a request fails at once, and `fuel` bounds the number of
calls. -/
def ataControllerRequest (l : Layout) (timeouts : List Wait) : ℕ → Controller → Option Controller
  | 0, _ => none
  | fuel + 1, s =>
    if s.busy then some s
    else
      match ataChooseDrive l s with
      | none => some { s with currDrive := none }
      | some drive =>
        match s.requestList drive with
        | [] => none
        | q :: _ =>
          let r := ataReadWrite l timeouts fuel
            { s with busy := true, currDrive := some drive } q drive
          if r.2 then some r.1
          else ataControllerRequest l timeouts fuel (endRequest r.1 drive (- EIO))

def queued : ℕ :=
  (l.driveList.flatMap s.requestList).length

/-- Each further call is for a request fewer. -/
def ataRequest : Option Controller :=
  ataControllerRequest l timeouts (queued l s + 1) s

def Queued.advance (q : Queued) : Queued :=
  { q with
    request := { q.request with
      data := q.request.data + 512
      sector := dword (q.request.sector + 1)
      numSectors := q.request.numSectors - 1 }
    transferred := q.transferred + 1 }

def failed : Bool :=
  status &&& 0x01 ≠ 0 || status &&& 0x20 ≠ 0

/-- Without a request it reads through a null pointer. -/
def ataRwInterrupt : Option Controller :=
  match s.requestList drive with
  | [] => none
  | q :: rest =>
    if failed status then ataRequest l timeouts s
    else if q.request.type = .read ∧ Wait.read ∈ timeouts then
      ataRequest l timeouts s
    else
      let s := { s with
        requestList := update s.requestList drive (q.advance :: rest) }
      if 0 < q.advance.request.numSectors then
        let r := ataReadWrite l timeouts (queued l s + 1) s q.advance drive
        if r.2 then some r.1
        else ataRequest l timeouts (endRequest r.1 drive (- EIO))
      else ataRequest l timeouts (endRequest s drive 0)

def ataInterrupt : Option Controller :=
  match s.currDrive with
  | none => some s
  | some drive =>
    if s.interrupt drive then ataRwInterrupt l timeouts s drive status
    else some s

def storageDoRequest (request : Request) : Option Controller :=
  let s' := { s with
    requestList := update s.requestList drive (s.requestList drive ++ [⟨request, request, 0⟩])
    submitted := update s.submitted drive (s.submitted drive ++ [request]) }
  if s.requestList drive = [] then ataRequest l timeouts s' else some s'

end

/-- An event, with the waits during it that time out. -/
inductive Op
  | request (drive : ℕ) (request : Request) (timeouts : List Wait)
  | interrupt (status : UInt8) (timeouts : List Wait)
  | tick

def Op.IsInterrupt : Op → Prop
  | .interrupt _ _ => True
  | _ => False

/-- Requests are for drives of the controller, and every interrupt answers a
command. -/
def step : Op → Option Controller
  | .request drive request timeouts =>
    if drive ∈ l.driveList then storageDoRequest l timeouts s drive request
    else none
  | .interrupt status timeouts =>
    match s.unanswered with
    | [] => none
    | _ :: rest => ataInterrupt l timeouts { s with unanswered := rest } status
  | .tick => some { s with clock := s.clock + 1 }

end

/-! ## What is expected -/

structure Idle (s : Controller) : Prop where
  requestList : ∀ d, s.requestList d = []
  submitted : ∀ d, s.submitted d = []
  ended : ∀ d, s.ended d = []
  unanswered : s.unanswered = []
  busy : s.busy = false

/-- A busy controller waits for the answer to a command for the first request of
its current drive, and the queues are empty otherwise. -/
structure Progress (l : Layout) (s : Controller) : Prop where
  busy : s.busy = true → ∃ drive ∈ l.driveList, s.currDrive = some drive ∧
    ∃ q rest, s.requestList drive = q :: rest ∧
      s.unanswered = [⟨drive, q.request.type, q.request.sector⟩]
  idle : s.busy = false → ∀ drive ∈ l.driveList, s.requestList drive = []

/-- A request is ended after all of its sectors, or with an error. -/
def Done (ending : Queued × ℤ) : Prop :=
  ending.2 = 0 ∧ ending.1.transferred = ending.1.original.numSectors ∨ ending.2 ≠ 0

theorem done_error (q : Queued) : Done (q, - EIO) :=
  .inr (show - EIO ≠ 0 by decide)

/-- The requests of a drive are ended in order, once each. -/
structure Once (l : Layout) (s : Controller) : Prop where
  order : ∀ drive ∈ l.driveList, (s.ended drive).map (·.1.original) ++
      (s.requestList drive).map Queued.original = s.submitted drive
  done : ∀ drive ∈ l.driveList, ∀ ending ∈ s.ended drive, Done ending

/-- Requests have sectors, no interrupt reports an error, and no wait times
out. -/
def Clean : Op → Prop
  | .request _ request timeouts => 0 < request.numSectors ∧ timeouts = []
  | .interrupt status timeouts => failed status = false ∧ timeouts = []
  | .tick => True

instance : DecidablePred Clean
  | .request _ _ _ | .interrupt _ _ => inferInstanceAs (Decidable (_ ∧ _))
  | .tick => isTrue trivial

variable {l : Layout} {s s' : Controller}

/-! ## The choice of a drive -/

def slept (s : Controller) (drive : ℕ) : ℕ :=
  qwordSub (pitGetQuantums s) (s.sleepTime drive)

variable {drives : List ℕ} {op : Op}

theorem improves_chooseBetter (s : Controller) (best : Option ℕ) (drive : ℕ) :
    Improves (s.requestList · ≠ []) (slept s) best drive (chooseBetter s best drive) := by
  unfold chooseBetter
  split
  · next hempty => exact .keeps fun hpending => absurd hempty hpending
  · next hpending =>
    cases best with
    | none => exact .takes hpending nofun
    | some best =>
      dsimp only
      split
      · next hmore => exact .takes hpending fun _ hbest => Option.some.inj hbest ▸ hmore.le
      · next hless => exact .keeps fun _ => ⟨best, rfl, not_lt.mp hless⟩

theorem bestOf_ataChooseDrive (l : Layout) (s : Controller) :
    BestOf (s.requestList · ≠ []) (slept s) l.driveList (ataChooseDrive l s) :=
  (bestOf_foldl id (fun _ => True)
    (fun best drive _ => ⟨trivial, improves_chooseBetter s best drive⟩) trivial rfl _).2

variable {drive : ℕ} {rest : List Queued} {q : Queued} {status : ℤ}

/-! ## Accounting -/

/-- A request in a queue has sectors left. -/
structure Valid (q : Queued) : Prop where
  pos : 0 < q.request.numSectors
  count : q.transferred + q.request.numSectors = q.original.numSectors

structure Sound (l : Layout) (s : Controller) : Prop extends Once l s where
  valid : ∀ d ∈ l.driveList, ∀ q ∈ s.requestList d, Valid q

structure Inv (l : Layout) (s : Controller) : Prop extends Sound l s, Progress l s where
  unanswered : s.busy = false → s.unanswered = []
  interrupt : s.busy = true → ∀ drive, s.currDrive = some drive → s.interrupt drive = true

/-- No command is unanswered, and the controller is not busy. -/
structure Ready (l : Layout) (s : Controller) : Prop extends Sound l s where
  unanswered : s.unanswered = []
  busy : s.busy = false

def afterEnd (s : Controller) (drive : ℕ) (q : Queued) (rest : List Queued)
    (status : ℤ) : Controller :=
  { s with
    requestList := update s.requestList drive rest
    ended := update s.ended drive (s.ended drive ++ [(q, status)])
    busy := false
    interrupt := update s.interrupt drive false
    sleepTime := update s.sleepTime drive (dword (pitGetQuantums s)) }

theorem endRequest_eq (hlist : s.requestList drive = q :: rest) (status : ℤ) :
    endRequest s drive status = afterEnd s drive q rest status := by
  unfold endRequest
  rw [hlist]
  rfl

theorem endRequest_update :
    endRequest { s with requestList := update s.requestList drive (q :: rest) } drive status =
      afterEnd s drive q rest status := by
  unfold endRequest
  dsimp only
  rw [update_self, update_idem]
  rfl

theorem Sound.of_drive (h : Sound l s) {requests : List Queued} {ended : List (Queued × ℤ)}
    {submitted : List Request} {s' : Controller}
    (hrequests : s'.requestList = update s.requestList drive requests)
    (hended : s'.ended = update s.ended drive ended)
    (hsubmitted : s'.submitted = update s.submitted drive submitted)
    (hdrive : drive ∈ l.driveList →
      ended.map (·.1.original) ++ requests.map Queued.original = submitted ∧
        (∀ ending ∈ ended, Done ending) ∧ ∀ q ∈ requests, Valid q) : Sound l s' := by
  refine ⟨⟨fun d hd => ?_, fun d hd => ?_⟩, fun d hd => ?_⟩ <;>
    by_cases heq : d = drive
  · rw [heq, hrequests, hended, hsubmitted, update_self, update_self, update_self]
    exact (hdrive (heq ▸ hd)).1
  · rw [hrequests, hended, hsubmitted, update_of_ne heq, update_of_ne heq, update_of_ne heq]
    exact h.order d hd
  · rw [heq, hended, update_self]
    exact (hdrive (heq ▸ hd)).2.1
  · rw [hended, update_of_ne heq]
    exact h.done d hd
  · rw [heq, hrequests, update_self]
    exact (hdrive (heq ▸ hd)).2.2
  · rw [hrequests, update_of_ne heq]
    exact h.valid d hd

theorem Sound.afterEnd {q' : Queued} (h : Sound l s) (hlist : s.requestList drive = q :: rest)
    (horiginal : q'.original = q.original) (hdone : Done (q', status)) :
    Sound l (afterEnd s drive q' rest status) := by
  refine h.of_drive rfl rfl (update_eq_self _ _).symm fun hd => ⟨?_, ?_, fun q'' hmem =>
    h.valid drive hd q'' (hlist ▸ mem_cons_of_mem _ hmem)⟩
  · refine Eq.trans ?_ (h.order drive hd)
    rw [hlist, map_append, append_assoc, map_singleton, horiginal]
    rfl
  · exact forall_mem_append.mpr ⟨h.done drive hd, forall_mem_singleton.mpr hdone⟩

theorem length_flatMap_lt {f g : ℕ → List Queued} (hle : ∀ d, (g d).length ≤ (f d).length)
    (hdrive : drive ∈ drives) (hlt : (g drive).length < (f drive).length) :
    (drives.flatMap g).length < (drives.flatMap f).length := by
  have hle' : ∀ drives : List ℕ, (drives.flatMap g).length ≤ (drives.flatMap f).length := by
    intro drives
    induction drives with
    | nil => exact le_rfl
    | cons d drives ih =>
      rw [flatMap_cons, flatMap_cons, length_append, length_append]
      exact Nat.add_le_add (hle d) ih
  induction drives with
  | nil => cases hdrive
  | cons d drives ih =>
    rw [flatMap_cons, flatMap_cons, length_append, length_append]
    rcases mem_cons.mp hdrive with rfl | hmem
    · exact add_lt_add_of_lt_of_le hlt (hle' drives)
    · exact add_lt_add_of_le_of_lt (hle d) (ih hmem)

theorem queued_afterEnd (hdrive : drive ∈ l.driveList) (hlist : s.requestList drive = q :: rest)
    (q' : Queued) (status : ℤ) : queued l (afterEnd s drive q' rest status) < queued l s := by
  have hrest : (afterEnd s drive q' rest status).requestList drive = rest :=
    update_self _ _ _
  apply length_flatMap_lt _ hdrive
  · rw [hrest, hlist]
    exact lt_succ_self _
  · intro d
    by_cases heq : d = drive
    · rw [heq, hrest, hlist]
      exact le_succ _
    · exact le_of_eq (congrArg length (update_of_ne heq _ _))

theorem ataReadWrite_nil (n : ℕ) :
    ataReadWrite l [] n s q drive = if l.totalSectors drive < q.request.sector then (s, false)
      else ({ s with
        interrupt := update s.interrupt drive true
        unanswered := s.unanswered ++ [⟨drive, q.request.type, q.request.sector⟩] }, true) := by
  have hcommand : Wait.command n ∉ [] := not_mem_nil
  have hwrite : ¬ (q.request.type = .write ∧ Wait.write n ∈ []) :=
    fun h => not_mem_nil h.2
  unfold ataReadWrite
  rw [if_neg hcommand, if_neg hwrite]

theorem Sound.sent (h : Sound l s) (hbusy : s.busy = true) (hcurr : s.currDrive = some drive)
    (hdrive : drive ∈ l.driveList) (hlist : s.requestList drive = q :: rest)
    (hunanswered : s.unanswered = []) :
    Inv l { s with
      interrupt := update s.interrupt drive true
      unanswered := s.unanswered ++ [⟨drive, q.request.type, q.request.sector⟩] } := by
  refine ⟨{ h with }, ⟨fun _ => ?_, fun hidle => ?_⟩, fun hidle => ?_, fun _ d hd => ?_⟩
  · refine ⟨drive, hdrive, hcurr, q, rest, hlist, ?_⟩
    rw [hunanswered]
    rfl
  · cases hidle.symm.trans hbusy
  · cases hidle.symm.trans hbusy
  · rw [← some.inj (hcurr.symm.trans hd)]
    exact update_self _ _ _

/-! ## Requests that are started -/

/-- What the driver may do to the requests and the clock while it runs. -/
structure Settles (s s' : Controller) : Prop where
  clock : s'.clock = s.clock
  submitted : s'.submitted = s.submitted
  ended : ∀ d, s.ended d <+: s'.ended d
  /-- A drive without an ended request is left alone. -/
  same : ∀ d, s'.ended d = s.ended d →
    s'.requestList d = s.requestList d ∧ s'.sleepTime d = s.sleepTime d

theorem settles_of_eq (hlist : s'.requestList = s.requestList) (hsleep : s'.sleepTime = s.sleepTime)
    (hclock : s'.clock = s.clock) (hsubmitted : s'.submitted = s.submitted)
    (hended : s'.ended = s.ended) : Settles s s' := by
  refine ⟨hclock, hsubmitted, fun d => ?_, fun d _ => ⟨congrFun hlist d, congrFun hsleep d⟩⟩
  exact hended ▸ prefix_rfl

theorem Settles.trans {s'' : Controller} (h : Settles s s')
    (h' : Settles s' s'') : Settles s s'' := by
  refine ⟨h'.clock.trans h.clock, h'.submitted.trans h.submitted,
    fun d => (h.ended d).trans (h'.ended d), fun d hd => ?_⟩
  -- If nothing was added in the end, nothing was added in between.
  have hmid : s'.ended d = s.ended d := by
    apply List.IsPrefix.eq_of_length_le _ _ |>.symm
    · exact h.ended d
    · rw [← hd]
      exact (h'.ended d).length_le
  have hfirst := h.same d hmid
  have hsecond := h'.same d (hd.trans hmid.symm)
  exact ⟨hsecond.1.trans hfirst.1, hsecond.2.trans hfirst.2⟩

theorem ended_afterEnd :
    (afterEnd s drive q rest status).ended drive = s.ended drive ++ [(q, status)] :=
  update_self _ _ _

theorem prefix_update {α : Type*} (f : ℕ → List α) (drive : ℕ) (xs : List α)
    (d : ℕ) : f d <+: update f drive (f drive ++ xs) d := by
  by_cases heq : d = drive
  · rw [heq, update_self]
    exact prefix_append _ _
  · exact ⟨[], (append_nil _).trans (update_of_ne heq _ _).symm⟩

theorem settles_afterEnd : Settles s (afterEnd s drive q rest status) := by
  refine ⟨rfl, rfl, fun d => ?_, fun d hd => ?_⟩
  · exact prefix_update s.ended drive _ d
  · by_cases heq : d = drive
    · rw [heq, ended_afterEnd] at hd
      cases self_eq_append_right.mp hd.symm
    · exact ⟨update_of_ne heq _ _, update_of_ne heq _ _⟩

theorem Settles.ended_ne (h : Settles (afterEnd s drive q rest status) s') :
    s'.ended drive ≠ s.ended drive := by
  intro hsame
  have hlength := (h.ended drive).length_le
  rw [ended_afterEnd, hsame, length_append] at hlength
  exact absurd hlength (not_succ_le_self _)

/-- A waiting drive has its turn when its `sleepTime` is less than those of the others, for
which it is the present time. -/
def Fair (l : Layout) (s s' : Controller) : Prop :=
  ∀ b ∈ l.driveList, s.requestList b ≠ [] →
    (∀ d ∈ l.driveList, d ≠ b → s.sleepTime d = dword (pitGetQuantums s)) →
    s.sleepTime b < dword (pitGetQuantums s) → s'.currDrive = some b ∨ s'.ended b ≠ s.ended b

theorem fair_choice {b : ℕ}
    (hdrive : drive ∈ l.driveList) (hslept : slept s b ≤ slept s drive)
    (hothers : ∀ d ∈ l.driveList, d ≠ b → s.sleepTime d = dword (pitGetQuantums s))
    (hasleep : s.sleepTime b < dword (pitGetQuantums s)) : drive = b := by
  by_contra hne
  have hle : dword (pitGetQuantums s) ≤ pitGetQuantums s := mod_le _ _
  unfold slept at hslept
  rw [hothers drive hdrive hne, qwordSub_of_le hle, qwordSub_of_le (hasleep.le.trans hle)] at hslept
  omega

/-- A waiting drive has its turn when a request of another drive is ended and it
has slept longer than the rest. -/
def FairAfter (l : Layout) (s s' : Controller) (drive : ℕ) : Prop :=
  ∀ b ∈ l.driveList, b ≠ drive → s.requestList b ≠ [] →
    (∀ d ∈ l.driveList, d ≠ b → d ≠ drive → s.sleepTime d = dword (pitGetQuantums s)) →
    s.sleepTime b < dword (pitGetQuantums s) → s'.currDrive = some b ∨ s'.ended b ≠ s.ended b

theorem Fair.fairAfter (h : Fair l (afterEnd s drive q rest status) s') :
    FairAfter l s s' drive := by
  intro b hb heq hpending hothers hasleep
  have hsame : (afterEnd s drive q rest status).ended b = s.ended b :=
    update_of_ne heq _ _
  obtain ⟨hlist', hsleep'⟩ := settles_afterEnd.same b hsame
  rw [← hsame]
  apply h b hb
  · rw [hlist']
    exact hpending
  · intro d hd hne
    by_cases hd' : d = drive
    · rw [hd']
      exact update_self _ _ _
    · exact (update_of_ne hd' _ _).trans (hothers d hd hne hd')
  · rw [hsleep']
    exact hasleep

theorem Fair.of_afterEnd (hsettles : Settles (afterEnd s drive q rest status) s')
    (h : Fair l (afterEnd s drive q rest status) s') : Fair l s s' := by
  intro b hb hpending hothers hasleep
  by_cases heq : b = drive
  · right
    rw [heq]
    exact hsettles.ended_ne
  · exact h.fairAfter b hb heq hpending (fun d hd hne _ => hothers d hd hne) hasleep

theorem ataControllerRequest_spec (fuel : ℕ) (s : Controller) (h : Ready l s)
    (hfuel : queued l s < fuel) :
    ∃ s', ataControllerRequest l [] fuel s = some s' ∧ Inv l s' ∧ Settles s s' ∧ Fair l s s' := by
  induction fuel generalizing s with
  | zero => exact absurd hfuel (not_lt_zero _)
  | succ fuel ih =>
    have hbest := bestOf_ataChooseDrive l s
    rw [ataControllerRequest, if_neg (by rw [h.busy]; exact false_ne_true)]
    cases hchosen : ataChooseDrive l s with
    | none =>
      rw [hchosen] at hbest
      refine ⟨_, rfl, ?_, settles_of_eq rfl rfl rfl rfl rfl, ?_⟩
      · refine ⟨{ h with }, ⟨fun hbusy => ?_, fun _ d hd => not_not.mp (hbest d hd)⟩,
          fun _ => h.unanswered, fun hbusy => ?_⟩
        · cases h.busy.symm.trans hbusy
        · cases h.busy.symm.trans hbusy
      · exact fun b hb hpending => absurd hpending (hbest b hb)
    | some drive =>
      rw [hchosen] at hbest
      obtain ⟨hdrive, hpending, hslept⟩ := hbest
      obtain ⟨q, rest, hlist⟩ := exists_cons_of_ne_nil hpending
      have hcurrent : Sound l { s with busy := true, currDrive := some drive } := { h with }
      have hlist' : { s with busy := true
                             currDrive := some drive }.requestList drive =
          q :: rest := hlist
      dsimp only
      rw [hlist]
      dsimp only
      rw [ataReadWrite_nil]
      by_cases hbehind : l.totalSectors drive < q.request.sector
      · -- The request is ended at once, and another one is chosen.
        rw [if_pos hbehind]
        have hfewer := queued_afterEnd hdrive hlist' q (- EIO)
        rw [endRequest_eq hlist']
        obtain ⟨s', heq, hinv, hsettles, hfair⟩ := ih _
          ⟨hcurrent.afterEnd hlist' rfl (done_error q), h.unanswered, rfl⟩
          (lt_of_lt_of_le hfewer (Nat.lt_succ_iff.mp hfuel))
        have hfirst : Settles s { s with busy := true, currDrive := some drive } :=
          settles_of_eq rfl rfl rfl rfl rfl
        have hfair := Fair.of_afterEnd hsettles hfair
        exact ⟨s', heq, hinv, (hfirst.trans settles_afterEnd).trans hsettles, hfair⟩
      · rw [if_neg hbehind]
        refine ⟨_, rfl, hcurrent.sent rfl rfl hdrive hlist' h.unanswered,
          settles_of_eq rfl rfl rfl rfl rfl, ?_⟩
        intro b hb hpending hothers hasleep
        left
        exact congrArg some (fair_choice hdrive (hslept b hb hpending) hothers hasleep)

structure Ends (l : Layout) (s s' : Controller) (drive : ℕ) : Prop extends Settles s s' where
  ended_ne : s'.ended drive ≠ s.ended drive
  fair : FairAfter l s s' drive

theorem ataRequest_afterEnd {q' : Queued} (h : Sound l s) (hunanswered : s.unanswered = [])
    (hlist : s.requestList drive = q :: rest) (horiginal : q'.original = q.original)
    (hdone : Done (q', status)) :
    ∃ s', ataRequest l [] (afterEnd s drive q' rest status) = some s' ∧ Inv l s' ∧
      Ends l s s' drive := by
  have hready : Ready l (afterEnd s drive q' rest status) :=
    ⟨h.afterEnd hlist horiginal hdone, hunanswered, rfl⟩
  obtain ⟨s', heq, hinv, hsettles, hfair⟩ :=
    ataControllerRequest_spec _ _ hready (lt_succ_self _)
  exact ⟨s', heq, hinv, settles_afterEnd.trans hsettles, hsettles.ended_ne, hfair.fairAfter⟩

/-! ## Events -/

theorem valid_advance (h : Valid q)
    (hmore : 0 < q.advance.request.numSectors) : Valid q.advance := by
  have hpos := h.pos
  have hcount := h.count
  refine ⟨hmore, ?_⟩
  show q.transferred + 1 + (q.request.numSectors - 1) = q.original.numSectors
  omega

theorem done_advance (h : Valid q)
    (hlast : ¬ 0 < q.advance.request.numSectors) : Done (q.advance, 0) := by
  have hpos := h.pos
  have hcount := h.count
  have hlast : ¬ 0 < q.request.numSectors - 1 := hlast
  left
  refine ⟨rfl, ?_⟩
  show q.transferred + 1 = q.original.numSectors
  omega

/-- An event other than an interrupt does not disturb a busy controller. -/
structure Keeps (s s' : Controller) : Prop where
  busy : s'.busy = true
  currDrive : s'.currDrive = s.currDrive
  ended : s'.ended = s.ended
  sleepTime : s'.sleepTime = s.sleepTime
  clock : s.clock ≤ s'.clock
  submitted : ∀ d, s.submitted d <+: s'.submitted d
  requestList : ∀ d, s.requestList d <+: s'.requestList d

/-- A sector of the first request of the current drive has been transferred, and
there are more. -/
structure Transfers (s s' : Controller) (drive : ℕ) (q : Queued) (rest : List Queued) : Prop where
  busy : s'.busy = true
  currDrive : s'.currDrive = s.currDrive
  ended : s'.ended = s.ended
  sleepTime : s'.sleepTime = s.sleepTime
  clock : s'.clock = s.clock
  submitted : s'.submitted = s.submitted
  requestList : s'.requestList = update s.requestList drive (q.advance :: rest)

theorem Sound.advance (h : Sound l s) (hlist : s.requestList drive = q :: rest)
    (hvalid : Valid q.advance) :
    Sound l { s with
      requestList := update s.requestList drive (q.advance :: rest) } := by
  refine h.of_drive rfl (update_eq_self _ _).symm (update_eq_self _ _).symm
    fun hd => ⟨?_, h.done drive hd, forall_mem_cons.mpr ⟨hvalid, fun q' hmem => ?_⟩⟩
  · rw [← h.order drive hd, hlist]
    rfl
  · exact h.valid drive hd q' (hlist ▸ mem_cons_of_mem _ hmem)

theorem ataRwInterrupt_spec {status : UInt8} (h : Sound l s) (hunanswered : s.unanswered = [])
    (hbusy : s.busy = true) (hcurr : s.currDrive = some drive) (hdrive : drive ∈ l.driveList)
    (hlist : s.requestList drive = q :: rest) (hstatus : failed status = false) :
    ∃ s', ataRwInterrupt l [] s drive status = some s' ∧ Inv l s' ∧
      (Transfers s s' drive q rest ∨ Ends l s s' drive) := by
  have hvalid := h.valid drive hdrive q (hlist ▸ mem_cons_self)
  have hread : ¬ (q.request.type = .read ∧ Wait.read ∈ []) :=
    fun h => not_mem_nil h.2
  have horiginal : q.advance.original = q.original := rfl
  unfold ataRwInterrupt
  rw [hlist]
  dsimp only
  rw [hstatus, if_neg hread]
  by_cases hmore : 0 < q.advance.request.numSectors
  · rw [if_pos hmore, ataReadWrite_nil]
    by_cases hbehind : l.totalSectors drive < q.advance.request.sector
    · rw [if_pos hbehind]
      rw [endRequest_update]
      obtain ⟨s', heq, hinv, hends⟩ := ataRequest_afterEnd h hunanswered hlist horiginal
        (done_error _)
      exact ⟨s', heq, hinv, .inr hends⟩
    · -- The command for the next sector is sent.
      rw [if_neg hbehind]
      refine ⟨_, rfl, ?_, .inl ⟨hbusy, rfl, rfl, rfl, rfl, rfl, rfl⟩⟩
      have hsound := h.advance hlist (valid_advance hvalid hmore)
      exact hsound.sent hbusy hcurr hdrive (update_self _ _ _) hunanswered
  · rw [if_neg hmore, endRequest_update]
    obtain ⟨s', heq, hinv, hends⟩ := ataRequest_afterEnd h hunanswered hlist horiginal
      (done_advance hvalid hmore)
    exact ⟨s', heq, hinv, .inr hends⟩

theorem ataInterrupt_eq {timeouts : List Wait} {status : UInt8}
    (hcurr : s.currDrive = some drive) (hset : s.interrupt drive = true) :
    ataInterrupt l timeouts s status = ataRwInterrupt l timeouts s drive status := by
  rw [ataInterrupt, hcurr]
  exact if_pos hset

def afterSubmit (s : Controller) (drive : ℕ) (request : Request) : Controller :=
  { s with
    requestList := update s.requestList drive (s.requestList drive ++ [⟨request, request, 0⟩])
    submitted := update s.submitted drive (s.submitted drive ++ [request]) }

section Submit

variable {request : Request}

theorem Sound.afterSubmit (h : Sound l s) (hpos : 0 < request.numSectors) :
    Sound l (afterSubmit s drive request) := by
  refine h.of_drive rfl (update_eq_self _ _).symm rfl fun hd =>
    ⟨?_, h.done drive hd, forall_mem_append.mpr ⟨h.valid drive hd, ?_⟩⟩
  · rw [← h.order drive hd, map_append, append_assoc]
    rfl
  · exact forall_mem_singleton.mpr ⟨hpos, zero_add _⟩

theorem Inv.afterSubmit (h : Inv l s) (hbusy : s.busy = true)
    (hpos : 0 < request.numSectors) : Inv l (afterSubmit s drive request) := by
  refine ⟨h.toSound.afterSubmit hpos, ⟨fun _ => ?_, fun hidle => ?_⟩,
    fun hidle => ?_, fun _ => h.interrupt hbusy⟩
  · obtain ⟨d, hd, hcurr, q, rest, hlist, hunanswered⟩ := h.busy hbusy
    obtain ⟨more, hmore⟩ := prefix_update s.requestList drive [⟨request, request, 0⟩] d
    refine ⟨d, hd, hcurr, q, rest ++ more, ?_, hunanswered⟩
    exact hmore.symm.trans (congrArg (· ++ more) hlist)
  · cases hidle.symm.trans hbusy
  · cases hidle.symm.trans hbusy

theorem storageDoRequest_busy (timeouts : List Wait) (hbusy : s.busy = true) :
    storageDoRequest l timeouts s drive request = some (afterSubmit s drive request) := by
  unfold storageDoRequest
  split
  · exact if_pos hbusy
  · rfl

theorem storageDoRequest_idle (h : Inv l s) (hidle : s.busy = false)
    (hdrive : drive ∈ l.driveList) (hpos : 0 < request.numSectors) :
    ∃ s', storageDoRequest l [] s drive request = some s' ∧ Inv l s' ∧
      Settles (afterSubmit s drive request) s' := by
  have hready : Ready l (AtaControllers.afterSubmit s drive request) :=
    ⟨h.toSound.afterSubmit hpos, h.unanswered hidle, hidle⟩
  obtain ⟨s', heq, hinv, hsettles, -⟩ :=
    ataControllerRequest_spec _ _ hready (lt_succ_self _)
  refine ⟨s', ?_, hinv, hsettles⟩
  unfold storageDoRequest
  rw [if_pos (h.idle hidle drive hdrive)]
  exact heq

end Submit

theorem Inv.tick (h : Inv l s) : Inv l { s with clock := s.clock + 1 } := { h with }

/-- A clean event of a busy controller: its current request is served by an
interrupt and not disturbed by other events. -/
def BusyStep (l : Layout) (s s' : Controller) (op : Op) : Prop :=
  ∃ drive ∈ l.driveList, s.currDrive = some drive ∧ ∃ q rest, s.requestList drive = q :: rest ∧
      (op.IsInterrupt ∧ (Transfers s s' drive q rest ∨ Ends l s s' drive) ∨
        ¬ op.IsInterrupt ∧ Keeps s s')

/-- An event that can happen: interrupts answer commands, and requests are for
drives of the controller. -/
def Enabled (l : Layout) (s : Controller) : Op → Prop
  | .request drive _ _ => drive ∈ l.driveList
  | .interrupt _ _ => s.unanswered ≠ []
  | .tick => True

theorem enabled_of_step (hs : step l s op = some s') : Enabled l s op := by
  cases op with
  | request drive request timeouts =>
    exact (ite_none_right_eq_some.mp hs).1
  | interrupt status timeouts =>
    intro hnone
    unfold step at hs
    rw [hnone] at hs
    cases hs
  | tick => exact trivial

section

variable (h : Inv l s)
include h

theorem Inv.step_busy (hbusy : s.busy = true) (hclean : Clean op) (henabled : Enabled l s op) :
    ∃ s', step l s op = some s' ∧ Inv l s' ∧ BusyStep l s s' op := by
  obtain ⟨drive, hdrive, hcurr, q, rest, hlist, hunanswered⟩ := h.busy hbusy
  cases op with
  | request d request timeouts =>
    obtain ⟨hpos, rfl⟩ := hclean
    refine ⟨AtaControllers.afterSubmit s d request, ?_,
      h.afterSubmit hbusy hpos, drive, hdrive, hcurr, q, rest, hlist, ?_⟩
    · exact (if_pos henabled).trans (storageDoRequest_busy [] hbusy)
    · exact .inr ⟨id, hbusy, rfl, rfl, rfl, le_rfl,
        prefix_update s.submitted d _, prefix_update s.requestList d _⟩
  | interrupt status timeouts =>
    obtain ⟨hstatus, rfl⟩ := hclean
    have hsound : Sound l { s with unanswered := [] } := { h with }
    obtain ⟨s', heq, hinv, hcases⟩ := ataRwInterrupt_spec hsound rfl hbusy
      hcurr hdrive hlist hstatus
    refine ⟨s', ?_, hinv, drive, hdrive, hcurr, q, rest, hlist, ?_⟩
    · unfold AtaControllers.step
      rw [hunanswered]
      exact (ataInterrupt_eq (s := { s with unanswered := [] }) hcurr
        (h.interrupt hbusy drive hcurr)).trans heq
    · refine .inl ⟨trivial, ?_⟩
      rcases hcases with htransfers | hends
      · exact .inl { htransfers with }
      · exact .inr { hends with }
  | tick =>
    refine ⟨_, rfl, h.tick, drive, hdrive, hcurr, q, rest, hlist, ?_⟩
    exact .inr ⟨id, hbusy, rfl, rfl, rfl, le_succ _,
      fun _ => prefix_rfl, fun _ => prefix_rfl⟩

theorem Inv.step_idle (hidle : s.busy = false) (hclean : Clean op) (henabled : Enabled l s op) :
    ∃ s', step l s op = some s' ∧ Inv l s' ∧ (∀ d, s.ended d <+: s'.ended d) ∧
      (∀ d, s.submitted d <+: s'.submitted d) ∧ s.clock ≤ s'.clock := by
  cases op with
  | request d request timeouts =>
    obtain ⟨hpos, rfl⟩ := hclean
    obtain ⟨s', heq, hinv, hsettles⟩ := storageDoRequest_idle h hidle henabled hpos
    refine ⟨s', (if_pos henabled).trans heq, hinv, hsettles.ended, fun d' => ?_,
      le_of_eq hsettles.clock.symm⟩
    rw [hsettles.submitted]
    exact prefix_update s.submitted d _ d'
  | interrupt status timeouts => exact absurd (h.unanswered hidle) henabled
  | tick =>
    exact ⟨_, rfl, h.tick, fun _ => prefix_rfl, fun _ => prefix_rfl, le_succ _⟩

theorem Inv.step_enabled (hclean : Clean op)
    (henabled : Enabled l s op) : ∃ s', step l s op = some s' ∧ Inv l s' := by
  cases hbusy : s.busy with
  | true =>
    obtain ⟨s', hs, hinv, -⟩ := h.step_busy hbusy hclean henabled
    exact ⟨s', hs, hinv⟩
  | false =>
    obtain ⟨s', hs, hinv, -⟩ := h.step_idle hbusy hclean henabled
    exact ⟨s', hs, hinv⟩

theorem Inv.step (hclean : Clean op) (hs : step l s op = some s') : Inv l s' := by
  obtain ⟨s'', hs'', hinv⟩ := h.step_enabled hclean (enabled_of_step hs)
  rw [← some.inj (hs''.symm.trans hs)]
  exact hinv

end

theorem inv_idle (h : Idle s) : Inv l s := by
  refine ⟨⟨⟨fun d _ => ?_, fun d _ ending hmem => ?_⟩, fun d _ q hmem => ?_⟩,
    ⟨fun hbusy => ?_, fun _ d _ => h.requestList d⟩, fun _ => h.unanswered, fun hbusy => ?_⟩
  · rw [h.ended, h.requestList, h.submitted]
    rfl
  · rw [h.ended] at hmem
    cases hmem
  · rw [h.requestList] at hmem
    cases hmem
  · cases h.busy.symm.trans hbusy
  · cases h.busy.symm.trans hbusy

end Whitix.AtaControllers
