import Whitix.Net.Connection.Model

/-!
# Connections are set up in order

The invariant of the connections has two parts.  The first one is about the
waiting lists: the clients that have connected are those that have been taken,
followed by those that wait.  The second one is about the peers: between the
stores of its state and of its peer a client belongs to the thread that accepts
it.
-/

namespace Whitix.LocalConnection

open Support Function List Option Prod

/-! ## The invariant -/

structure Lists (s : System) : Prop where
  listens : ∀ server ∈ s.localListenSockets, s.state server = .accepting
  order : ∀ server, s.connects server = s.accepts server ++ (s.waitingSocks server).reverse
  used : ∀ server, ∀ client ∈ s.connects server, s.state client ≠ .free
  waiting : ∀ server, ∀ client ∈ s.waitingSocks server, s.state client = .waiting
  once : ∀ server server' client, client ∈ s.waitingSocks server →
    client ∈ s.waitingSocks server' → server = server'

/-- The clients that are being accepted, and those that have a peer. -/
structure Pairs (s : System) : Prop where
  peerless : ∀ socket, s.state socket ≠ .connected → s.peer socket = none
  creating : ∀ thread server client, s.call thread = .creating server client →
    s.state client = .connected ∧ s.peer client = none
  alone : ∀ thread thread' server server' client, s.call thread = .creating server client →
      s.call thread' = .creating server' client → thread = thread'
  accepted : ∀ server, ∀ client ∈ s.accepts server,
    (∃ thread server', s.call thread = .creating server' client) ∨ Paired s client
  connecting : ∀ thread client place, s.call thread = .connecting client place →
      (∃ server, client ∈ s.connects server) ∧ (place = .finishWait → Paired s client)
  returned : ∀ client ∈ s.returned, Paired s client

structure Inv (s : System) : Prop where
  lists : Lists s
  pairs : Pairs s

variable {s : System} {child : Option ℕ} {server client : ℕ}

theorem System.Listening.lists (h : s.Listening) : Lists s where
  listens := h.listens
  order server := by
    obtain ⟨hwaiting, hconnects, haccepts⟩ := h.nobody server
    rw [hwaiting, hconnects, haccepts]
    rfl
  used server client hmem := by
    rw [(h.nobody server).2.1] at hmem
    cases hmem
  waiting server client hmem := by
    rw [(h.nobody server).1] at hmem
    cases hmem
  once server server' client hmem := by
    rw [(h.nobody server).1] at hmem
    cases hmem

theorem System.Listening.pairs (h : s.Listening) : Pairs s where
  peerless := h.peers
  creating thread server client hcall :=
    Call.noConfusion ((h.idle thread).symm.trans hcall)
  alone thread thread' server server' client hcall :=
    Call.noConfusion ((h.idle thread).symm.trans hcall)
  accepted server client hmem := by
    rw [(h.nobody server).2.2] at hmem
    cases hmem
  connecting thread client place hcall :=
    Call.noConfusion ((h.idle thread).symm.trans hcall)
  returned client hmem := by
    rw [h.returns] at hmem
    cases hmem

theorem Inv.sound (h : Inv s) : Sound s where
  order server := h.lists.order server ▸ prefix_append _ _
  paired := h.pairs.returned
  waiting server client hmem hnot := by
    rw [h.lists.order server] at hmem
    have hwaits : client ∈ s.waitingSocks server :=
      mem_reverse.mp ((mem_append.mp hmem).resolve_left hnot)
    exact ⟨hwaits, h.lists.waiting server client hwaits⟩
  queued thread server client s' hcall hstep := by
    unfold threadStep at hstep
    rw [hcall] at hstep
    cases hstep
    rfl

variable {state : SocketState} {queue queue' : Links Node} {condition : Bool}
  {waitEntry head : Node} {c t socket : ℕ} {place : WaitPlace}

section Steps

variable {s' : System} {thread : ℕ}

/-! ## Calls and pairs -/

theorem Lists.other (h : Lists s) (queue : Links Node) (call : ℕ → Call) (returned : List ℕ) :
    Lists { s with queue := queue, call := call, returned := returned } := { h with }

theorem call_of_update {call call' : Call} {thread' : ℕ} (hne : call' ≠ call)
    (h : update s.call thread call thread' = call') :
    s.call thread' = call' ∧ thread' ≠ thread := by
  by_cases heq : thread' = thread
  · rw [heq, update_self] at h
    exact absurd h.symm hne
  · rw [update_of_ne heq] at h
    exact ⟨h, heq⟩

theorem Pairs.setCall (h : Pairs s) (queue : Links Node) {call : Call}
    (hbefore : ∀ server client, s.call thread ≠ .creating server client)
    (hafter : ∀ server client, call ≠ .creating server client)
    (hconnecting : ∀ client place, call = .connecting client place →
      (∃ server, client ∈ s.connects server) ∧ (place = .finishWait → Paired s client)) :
    Pairs { s with
      queue := queue
      call := update s.call thread call } := { h with
  creating thread' server client hcall :=
    h.creating thread' server client (call_of_update (hafter server client).symm hcall).1
  alone thread₁ thread₂ server₁ server₂ client h₁ h₂ :=
    h.alone thread₁ thread₂ server₁ server₂ client
      (call_of_update (hafter server₁ client).symm h₁).1
      (call_of_update (hafter server₂ client).symm h₂).1
  accepted server client hmem := by
    refine (h.accepted server client hmem).imp_left ?_
    rintro ⟨thread', server', hcall⟩
    have hne : thread' ≠ thread := fun heq =>
      hbefore server' client (heq ▸ hcall)
    exact ⟨thread', server', (update_of_ne hne _ _).trans hcall⟩
  connecting thread' client place hcall := by
    by_cases heq : call = .connecting client place
    · exact hconnecting client place heq
    · exact h.connecting thread' client place (call_of_update (Ne.symm heq) hcall).1 }

section

theorem Paired.congr (h : Paired s client)
    (hsame : ∀ socket, s.state socket = .connected → s.peer socket ≠ none →
      s'.state socket = .connected ∧ s'.peer socket = s.peer socket) :
    Paired s' client := by
  obtain ⟨child, hpeer, hback, hstate, hstate'⟩ := h
  have hclient := hsame client hstate (by rw [hpeer]; exact some_ne_none _)
  have hchild := hsame child hstate' (by rw [hback]; exact some_ne_none _)
  exact ⟨child, hclient.2.trans hpeer, hchild.2.trans hback, hclient.1, hchild.1⟩

/-! ## A client connects -/

def registered (s : System) (client server : ℕ) : System :=
  { s with
    state := update s.state client .waiting
    waitingSocks := update s.waitingSocks server (client :: s.waitingSocks server)
    connects := update s.connects server (s.connects server ++ [client]) }

theorem state_registered (hfree : s.state client = .free) (hne : state ≠ .free)
    (hstate : s.state socket = state) : (registered s client server).state socket = state := by
  refine (update_of_ne ?_ _ _).trans hstate
  rintro rfl
  exact hne (hstate.symm.trans hfree)

theorem mem_waitingSocks_registered (hmem : c ∈ (registered s client server).waitingSocks t) :
    c = client ∧ t = server ∨ c ∈ s.waitingSocks t := by
  change c ∈ update s.waitingSocks server _ t at hmem
  by_cases ht : t = server
  · rw [ht, update_self] at hmem
    rcases mem_cons.mp hmem with hc | hc
    · exact .inl ⟨hc, ht⟩
    · exact .inr (ht ▸ hc)
  · rw [update_of_ne ht] at hmem
    exact .inr hmem

theorem mem_connects_registered :
    c ∈ (registered s client server).connects t ↔ c = client ∧ t = server ∨ c ∈ s.connects t := by
  change c ∈ update s.connects server _ t ↔ _
  by_cases ht : t = server
  · rw [ht, update_self, mem_append, or_comm]
    simp
  · simp [ht]

end

theorem Lists.registered (h : Lists s)
    (hfree : s.state client = .free) : Lists (registered s client server) where
  listens t ht :=
    state_registered hfree SocketState.noConfusion (h.listens t ht)
  order t := by
    unfold LocalConnection.registered
    dsimp only
    by_cases ht : t = server
    · subst ht
      rw [update_self, update_self, h.order t, reverse_cons, append_assoc]
    · rw [update_of_ne ht, update_of_ne ht]
      exact h.order t
  used t c hmem := by
    rcases mem_connects_registered.mp hmem with ⟨rfl, -⟩ | hmem
    · change update s.state c .waiting c ≠ .free
      rw [update_self]
      exact nofun
    · have hused := h.used t c hmem
      rwa [state_registered hfree hused rfl]
  waiting t c hmem := by
    rcases mem_waitingSocks_registered hmem with ⟨rfl, -⟩ | hc
    · exact update_self _ _ _
    · exact state_registered hfree SocketState.noConfusion (h.waiting t c hc)
  once t t' c hmem hmem' := by
    have hnew : ∀ t, client ∉ s.waitingSocks t := fun t hmem =>
      SocketState.noConfusion (hfree.symm.trans (h.waiting t client hmem))
    rcases mem_waitingSocks_registered hmem with ⟨rfl, ht⟩ | hc
    · rcases mem_waitingSocks_registered hmem' with ⟨-, ht'⟩ | hc'
      · exact ht.trans ht'.symm
      · exact absurd hc' (hnew t')
    · rcases mem_waitingSocks_registered hmem' with ⟨rfl, -⟩ | hc'
      · exact absurd hc (hnew t)
      · exact h.once t t' c hc hc'

theorem Pairs.registered (h : Pairs s)
    (hfree : s.state client = .free) : Pairs (registered s client server) := by
  have hpaired : ∀ c, Paired s c →
      Paired (LocalConnection.registered s client server) c := fun c hc =>
    hc.congr fun socket hstate _ =>
      ⟨state_registered hfree nofun hstate, rfl⟩
  exact {
    peerless := fun socket hstate => h.peerless socket fun hconnected =>
      hstate (state_registered hfree nofun hconnected)
    creating thread' t c hcall := by
      obtain ⟨hstate, hpeer⟩ := h.creating thread' t c hcall
      exact ⟨state_registered hfree nofun hstate, hpeer⟩
    alone := h.alone
    accepted := fun t c hmem => (h.accepted t c hmem).imp_right (hpaired c)
    connecting thread' c place hcall := by
      obtain ⟨⟨t, ht⟩, hplace⟩ := h.connecting thread' c place hcall
      exact ⟨⟨t, mem_connects_registered.mpr (.inr ht)⟩,
        fun hfinish => hpaired c (hplace hfinish)⟩
    returned := fun c hmem => hpaired c (h.returned c hmem) }

theorem Inv.localConnect (h : Inv s) (hidle : s.call thread = .idle)
    (hfree : s.state client = .free) (family : ℕ) (name : List UInt8) :
    Inv (localConnect s thread client family name).2 := by
  unfold LocalConnection.localConnect
  split
  · exact h
  cases s.localListenSockets.find? fun curr => sameName name (s.name curr) with
  | none => exact h
  | some server =>
    refine ⟨(h.lists.registered hfree).other _ _ _, (h.pairs.registered hfree).setCall _ ?_ ?_ ?_⟩
    · intro server' client' hcall
      exact Call.noConfusion (hidle.symm.trans hcall)
    · exact fun _ _ => nofun
    · intro client' place hcall
      obtain ⟨rfl, rfl⟩ := Call.connecting.inj hcall
      exact ⟨⟨server, mem_connects_registered.mpr (.inl ⟨rfl, rfl⟩)⟩, nofun⟩

/-! ## Waiting -/

theorem waitOn_finishWait (hwait : waitOn condition head waitEntry queue place =
    (some .finishWait, queue')) : condition = true := by
  cases place with
  | test => cases condition <;> cases hwait
  | prepareWait | finishWait => cases hwait
  | testAgain =>
    cases condition with
    | false => cases hwait
    | true => rfl

theorem waitOn_none (hwait : waitOn condition head waitEntry queue place = (none, queue')) :
    condition = true ∨ place = .finishWait := by
  cases place with
  | test =>
    cases condition with
    | false => cases hwait
    | true => exact .inl rfl
  | prepareWait | testAgain => cases hwait
  | finishWait => exact .inr rfl

theorem Inv.paired (h : Inv s) (hmem : client ∈ s.connects server)
    (hstate : s.state client = .connected)
    (hpeer : s.state client = .connected → s.peer client ≠ none) : Paired s client := by
  rw [h.lists.order server] at hmem
  rcases mem_append.mp hmem with hmem | hmem
  · rcases h.pairs.accepted server client hmem with
      ⟨thread, server', hcall⟩ | hpaired
    · exact absurd (h.pairs.creating thread server' client hcall).2 (hpeer hstate)
    · exact hpaired
  · have hwaiting := h.lists.waiting server client (mem_reverse.mp hmem)
    exact SocketState.noConfusion (hstate.symm.trans hwaiting)

theorem Inv.connectingStep (h : Inv s) (hcall : s.call thread = .connecting client place)
    (hpeer : s.state client = .connected → s.peer client ≠ none)
    (hstep : threadStep s thread child = some s') : Inv s' := by
  obtain ⟨⟨server, hmem⟩, hplace⟩ := h.pairs.connecting thread client place hcall
  have hbefore : ∀ server client', s.call thread ≠ .creating server client' :=
    fun _ _ heq => Call.noConfusion (hcall.symm.trans heq)
  unfold threadStep at hstep
  rw [hcall] at hstep
  dsimp only at hstep
  split at hstep
  · next place' queue hwait =>
    cases hstep
    refine ⟨h.lists.other _ _ _, h.pairs.setCall queue hbefore (fun _ _ => nofun) ?_⟩
    intro client' place'' heq
    obtain ⟨rfl, rfl⟩ := Call.connecting.inj heq
    refine ⟨⟨server, hmem⟩, ?_⟩
    rintro rfl
    exact h.paired hmem (of_decide_eq_true (waitOn_finishWait hwait)) hpeer
  · next queue hwait =>
    cases hstep
    have hpaired : Paired s client := by
      rcases waitOn_none hwait with hcondition | hfinish
      · exact h.paired hmem (of_decide_eq_true hcondition) hpeer
      · exact hplace hfinish
    have hidle : Pairs { s with
        queue := queue
        call := update s.call thread .idle } :=
      h.pairs.setCall queue hbefore (fun _ _ => nofun)
        fun _ _ => nofun
    refine ⟨h.lists.other _ _ _, { hidle with returned := ?_ }⟩
    exact forall_mem_append.mpr ⟨h.pairs.returned, forall_mem_singleton.mpr hpaired⟩

theorem Inv.acceptingStep (h : Inv s) (hcall : s.call thread = .accepting server place)
    (hstep : threadStep s thread child = some s') : Inv s' := by
  have hbefore : ∀ server client, s.call thread ≠ .creating server client :=
    fun _ _ heq => Call.noConfusion (hcall.symm.trans heq)
  unfold threadStep at hstep
  rw [hcall] at hstep
  dsimp only at hstep
  split at hstep
  · cases hstep
    exact ⟨h.lists.other _ _ _, h.pairs.setCall _ hbefore (fun _ _ => nofun) fun _ _ => nofun⟩
  · cases hstep
    exact ⟨h.lists.other _ _ _, h.pairs.setCall _ hbefore (fun _ _ => nofun) fun _ _ => nofun⟩

/-! ## A client is taken -/

def taken (s : System) (thread client server : ℕ) : System :=
  { s with
    waitingSocks := update s.waitingSocks server []
    state := update s.state client .connected
    call := update s.call thread (.creating server client)
    accepts := update s.accepts server (s.accepts server ++ [client]) }

section Taken

theorem state_taken (hne : socket ≠ client) :
    (taken s thread client server).state socket = s.state socket :=
  update_of_ne hne _ _

theorem Lists.mem_taken (h : Lists s) (hwaits : s.waitingSocks server = [client])
    (hmem : c ∈ (taken s thread client server).waitingSocks t) :
    c ∈ s.waitingSocks t ∧ c ≠ client := by
  change c ∈ update s.waitingSocks server [] t at hmem
  by_cases ht : t = server
  · rw [ht, update_self] at hmem
    cases hmem
  · rw [update_of_ne ht] at hmem
    refine ⟨hmem, ?_⟩
    rintro rfl
    exact ht (h.once t server c hmem (by rw [hwaits]; exact mem_cons_self))

theorem Lists.taken (h : Lists s) (hwaits : s.waitingSocks server = [client])
    (hwaiting : s.state client = .waiting) : Lists (taken s thread client server) where
  listens t ht := by
    have hstate := h.listens t ht
    refine (state_taken ?_).trans hstate
    rintro rfl
    exact SocketState.noConfusion (hwaiting.symm.trans hstate)
  order t := by
    unfold LocalConnection.taken
    dsimp only
    by_cases ht : t = server
    · subst ht
      rw [update_self, update_self, h.order t, hwaits, reverse_nil, append_nil, reverse_singleton]
    · rw [update_of_ne ht, update_of_ne ht]
      exact h.order t
  used t c hmem := by
    by_cases hc : c = client
    · change update s.state client .connected c ≠ .free
      rw [hc, update_self]
      exact nofun
    · rw [state_taken hc]
      exact h.used t c hmem
  waiting t c hmem := by
    obtain ⟨hmem, hne⟩ := h.mem_taken hwaits hmem
    exact (state_taken hne).trans (h.waiting t c hmem)
  once t t' c hmem hmem' :=
    h.once t t' c (h.mem_taken hwaits hmem).1 (h.mem_taken hwaits hmem').1

theorem Paired.taken (h : Paired s c) : Paired (taken s thread client server) c := by
  refine h.congr fun socket hstate _ => ⟨?_, rfl⟩
  by_cases hsocket : socket = client
  · exact hsocket ▸ update_self _ _ _
  · exact (state_taken hsocket).trans hstate

theorem Pairs.taken (h : Pairs s) (hwaiting : s.state client = .waiting)
    (hcall : s.call thread = .taking server) : Pairs (taken s thread client server) := by
  have hpeer : s.peer client = none :=
    h.peerless client (by rw [hwaiting]; exact nofun)
  -- Nobody else is accepting the client.
  have hself : ∀ thread' t, (LocalConnection.taken s thread client server).call
      thread' = .creating t client → thread' = thread := by
    intro thread' t heq
    by_contra hne
    have hold : s.call thread' = .creating t client :=
      (update_of_ne hne _ _).symm.trans heq
    exact SocketState.noConfusion (hwaiting.symm.trans (h.creating thread' t client hold).1)
  have hold : ∀ thread' t c, c ≠ client →
      (LocalConnection.taken s thread client server).call thread' =
        .creating t c → s.call thread' = .creating t c :=
    fun thread' t c hne heq =>
      (call_of_update (fun hcreating => hne (Call.creating.inj hcreating).2) heq).1
  exact {
    peerless socket hstate := by
      by_cases hsocket : socket = client
      · exact hsocket ▸ hpeer
      · exact h.peerless socket fun hconnected =>
          hstate ((state_taken hsocket).trans hconnected)
    creating thread' t c heq := by
      by_cases hc : c = client
      · subst hc
        exact ⟨update_self _ _ _, hpeer⟩
      · obtain ⟨hstate, hnone⟩ := h.creating thread' t c (hold thread' t c hc heq)
        exact ⟨(state_taken hc).trans hstate, hnone⟩
    alone thread₁ thread₂ t₁ t₂ c h₁ h₂ := by
      by_cases hc : c = client
      · subst hc
        exact (hself thread₁ t₁ h₁).trans (hself thread₂ t₂ h₂).symm
      · exact h.alone thread₁ thread₂ t₁ t₂ c (hold thread₁ t₁ c hc h₁) (hold thread₂ t₂ c hc h₂)
    accepted t c hc := by
      by_cases hcc : c = client
      · exact .inl ⟨thread, server, hcc ▸ update_self _ _ _⟩
      · have hmem : c ∈ s.accepts t := by
          change c ∈ update s.accepts server _ t at hc
          by_cases ht : t = server
          · rw [ht, update_self] at hc
            rw [ht]
            exact (mem_append.mp hc).resolve_right fun hsingle =>
              hcc (mem_singleton.mp hsingle)
          · rwa [update_of_ne ht] at hc
        refine (h.accepted t c hmem).imp ?_ Paired.taken
        rintro ⟨thread', t', heq⟩
        have hne : thread' ≠ thread := by
          rintro rfl
          exact Call.noConfusion (hcall.symm.trans heq)
        exact ⟨thread', t', (update_of_ne hne _ _).trans heq⟩
    connecting thread' c place heq := by
      obtain ⟨hconnects, hplace⟩ := h.connecting thread' c place
        (call_of_update Call.noConfusion heq).1
      exact ⟨hconnects, fun hfinish => (hplace hfinish).taken⟩
    returned := fun c hc => (h.returned c hc).taken }

theorem Inv.takingStep (h : Inv s) (hcall : s.call thread = .taking server)
    (hone : (s.waitingSocks server).length ≤ 1)
    (hstep : threadStep s thread child = some s') : Inv s' := by
  unfold threadStep at hstep
  rw [hcall] at hstep
  dsimp only at hstep
  cases hwaits : s.waitingSocks server with
  | nil =>
    rw [hwaits] at hstep
    cases hstep
  | cons client rest =>
    obtain rfl : rest = [] := by
      rw [hwaits] at hone
      exact length_eq_zero_iff.mp (Nat.le_zero.mp (Nat.le_of_succ_le_succ hone))
    have hwaiting := h.lists.waiting server client (by rw [hwaits]; exact mem_cons_self)
    rw [hwaits] at hstep
    cases hstep
    exact ⟨h.lists.taken hwaits hwaiting, h.pairs.taken hwaiting hcall⟩

end Taken

/-! ## A child is created -/

section Created

variable {child : ℕ}

/-- What the creation of a child for the client changes. -/
structure Created (s s' : System) (thread client child : ℕ) : Prop where
  state : s'.state = update s.state child .connected
  peer : s'.peer = update (update
    (update s.peer child none) child (some client)) client (some child)
  call : s'.call = update s.call thread .idle
  localListenSockets : s'.localListenSockets = s.localListenSockets
  waitingSocks : s'.waitingSocks = s.waitingSocks
  connects : s'.connects = s.connects
  accepts : s'.accepts = s.accepts
  returned : s'.returned = s.returned

theorem created_of_threadStep (hcall : s.call thread = .creating server client)
    (hstep : threadStep s thread (some child) = some s') :
    s.state child = .free ∧ Created s s' thread client child := by
  unfold threadStep at hstep
  rw [hcall] at hstep
  obtain ⟨hfree, hs'⟩ := ite_none_right_eq_some.mp hstep
  cases hs'
  exact ⟨hfree, rfl, rfl, rfl, rfl, rfl, rfl, rfl, rfl⟩

variable (hc : Created s s' thread client child) (hfree : s.state child = .free)

include hc

theorem Created.peer_of_ne (hchild : socket ≠ child)
    (hclient : socket ≠ client) : s'.peer socket = s.peer socket := by
  rw [hc.peer, update_of_ne hclient, update_of_ne hchild, update_of_ne hchild]

include hfree

theorem Created.state_eq (hne : state ≠ .free) (hstate : s.state socket = state) :
    s'.state socket = state := by
  rw [hc.state, update_of_ne, hstate]
  rintro rfl
  exact hne (hstate.symm.trans hfree)

theorem Created.ne_child (hstate : s.state socket = .connected) : socket ≠ child := by
  rintro rfl
  exact SocketState.noConfusion (hstate.symm.trans hfree)

theorem Created.paired (hconnected : s.state client = .connected) : Paired s' client := by
  have hne := hc.ne_child hfree hconnected
  refine ⟨child, ?_, ?_, hc.state_eq hfree nofun hconnected, ?_⟩
  · rw [hc.peer, update_self]
  · rw [hc.peer, update_of_ne hne.symm, update_self]
  · rw [hc.state, update_self]

theorem Lists.created (h : Lists s) : Lists s' where
  listens t ht := hc.state_eq hfree nofun (h.listens t (hc.localListenSockets ▸ ht))
  order t := by
    rw [hc.connects, hc.accepts, hc.waitingSocks]
    exact h.order t
  used t c hmem := by
    have hused := h.used t c (hc.connects ▸ hmem)
    rwa [hc.state_eq hfree hused rfl]
  waiting t c hmem := hc.state_eq hfree nofun (h.waiting t c (hc.waitingSocks ▸ hmem))
  once := by
    rw [hc.waitingSocks]
    exact h.once

theorem Pairs.created (h : Pairs s)
    (hcall : s.call thread = .creating server client) : Pairs s' := by
  obtain ⟨hconnected, hnone⟩ := h.creating thread server client hcall
  have hpaired : ∀ c, Paired s c → Paired s' c := by
    intro c hpair
    refine hpair.congr fun socket hstate hsome =>
      ⟨hc.state_eq hfree nofun hstate, hc.peer_of_ne (hc.ne_child hfree hstate) ?_⟩
    rintro rfl
    exact hsome hnone
  have hold : ∀ thread' call, call ≠ .idle → s'.call thread' = call →
      s.call thread' = call ∧ thread' ≠ thread := by
    intro thread' call hne heq
    rw [hc.call] at heq
    exact call_of_update hne heq
  exact {
    peerless socket hstate := by
      have hstate' : s.state socket ≠ .connected := fun hconn =>
        hstate (hc.state_eq hfree nofun hconn)
      rw [hc.peer_of_ne, h.peerless socket hstate']
      · rintro rfl
        exact hstate (by rw [hc.state, update_self])
      · rintro rfl
        exact hstate' hconnected
    creating thread' t c heq := by
      obtain ⟨heq, hthread⟩ := hold thread' _ Call.noConfusion heq
      obtain ⟨hstate, hpeernone⟩ := h.creating thread' t c heq
      refine ⟨hc.state_eq hfree nofun hstate,
        (hc.peer_of_ne (hc.ne_child hfree hstate) ?_).trans hpeernone⟩
      rintro rfl
      exact hthread (h.alone thread' thread t server c heq hcall)
    alone := fun thread₁ thread₂ t₁ t₂ c h₁ h₂ =>
      h.alone thread₁ thread₂ t₁ t₂ c (hold thread₁ _ Call.noConfusion h₁).1
        (hold thread₂ _ Call.noConfusion h₂).1
    accepted t c hmem := by
      rw [hc.accepts] at hmem
      rcases h.accepted t c hmem with ⟨thread', t', heq⟩ | hpair
      · by_cases hthread : thread' = thread
        · rw [hthread, hcall] at heq
          exact .inr ((Call.creating.inj heq).2 ▸ hc.paired hfree hconnected)
        · refine .inl ⟨thread', t', ?_⟩
          rw [hc.call, update_of_ne hthread, heq]
      · exact .inr (hpaired c hpair)
    connecting thread' c place heq := by
      rw [hc.connects]
      obtain ⟨hconnect, hplace⟩ := h.connecting thread' c place
        (hold thread' _ Call.noConfusion heq).1
      exact ⟨hconnect, fun hfinish => hpaired c (hplace hfinish)⟩
    returned := by
      rw [hc.returned]
      exact fun c hmem => hpaired c (h.returned c hmem) }

end Created

theorem Inv.step (h : Inv s) {op : Op} (horderly : Orderly s op)
    (hstep : step s op = some s') : Inv s' := by
  cases op with
  | connect thread client family name =>
    obtain ⟨⟨hidle, hfree⟩, hs'⟩ := ite_none_right_eq_some.mp hstep
    cases hs'
    exact h.localConnect hidle hfree family name
  | accept thread server =>
    obtain ⟨⟨hidle, -⟩, hs'⟩ := ite_none_right_eq_some.mp hstep
    cases hs'
    exact ⟨h.lists.other _ _ _, h.pairs.setCall s.queue
      (fun _ _ heq => Call.noConfusion (hidle.symm.trans heq))
      (fun _ _ => nofun) fun _ _ => nofun⟩
  | step thread child =>
    have hthread : threadStep s thread child = some s' := hstep
    have hguard : OrderlyStep s child (s.call thread) := horderly
    cases hcall : s.call thread with
    | idle =>
      unfold threadStep at hthread
      rw [hcall] at hthread
      cases hthread
    | connecting client place =>
      rw [hcall] at hguard
      exact h.connectingStep hcall hguard hthread
    | accepting server place => exact h.acceptingStep hcall hthread
    | taking server =>
      rw [hcall] at hguard
      exact h.takingStep hcall hguard hthread
    | creating server client =>
      rw [hcall] at hguard
      obtain ⟨child, rfl⟩ := ne_none_iff_exists'.mp hguard
      obtain ⟨hfree, hcreated⟩ := created_of_threadStep hcall hthread
      exact ⟨h.lists.created hcreated hfree, h.pairs.created hcreated hfree hcall⟩

end Steps

/-- Connections are set up in order and failure-atomically in every orderly run.
-/
theorem connections_sound {s₀ s : System} (hlistening : s₀.Listening)
    (hreach : Reach step Orderly s₀ s) : Sound s :=
  (hreach.invariant (Inv.mk hlistening.lists hlistening.pairs)
    fun _ _ _ h hguard hstep => h.step hguard hstep).sound

def oneServer : System where
  state socket := if socket = 0 then .accepting else .free
  name _ := []
  peer _ := none
  parent _ := none
  waitingSocks _ := []
  childSocks _ := []
  localListenSockets := [0]
  queue := ⟨id, id⟩
  call _ := .idle
  connects _ := []
  accepts _ := []
  returned := []

theorem oneServer_listening : oneServer.Listening where
  listens := forall_mem_singleton.mpr rfl
  peers _ _ := rfl
  nobody _ := ⟨rfl, rfl, rfl⟩
  idle _ := rfl
  returns := rfl

/-- Thread 1 connects the socket 1, and thread 9 accepts it. -/
theorem connections_sound_one :
    ∃ s, Reach step Orderly oneServer s ∧ s.accepts 0 = [1] ∧ s.returned = [1] ∧ Sound s := by
  obtain ⟨s, hreach, haccepts, hreturned⟩ := exists_reach step Orderly oneServer
    [.connect 1 1 pfLocal [], .accept 9 0, .step 9 none, .step 9 none, .step 9 (some 2),
      .step 1 none] (fun s => s.accepts 0 = [1] ∧ s.returned = [1]) (by decide)
  exact ⟨s, hreach, haccepts, hreturned, connections_sound oneServer_listening hreach⟩

/-- The second of two clients is accepted first; a client for which no child can
be created is forgotten, and returns without a peer; and so does a client that
runs before its peer is stored. -/
theorem connections_not_sound :
    (∃ s, Reach step (fun _ _ => True) oneServer s ∧
      s.connects 0 = [1, 3] ∧ s.accepts 0 = [3] ∧ ¬ Sound s) ∧
    (∃ s, Reach step (fun _ _ => True) oneServer s ∧
      s.connects 0 = [1] ∧ s.accepts 0 = [] ∧ s.waitingSocks 0 = [] ∧
      s.returned = [1] ∧ s.peer 1 = none ∧ ¬ Sound s) ∧
    ∃ s, Reach step (fun _ _ => True) oneServer s ∧
      s.call 9 = .creating 0 1 ∧ s.returned = [1] ∧ s.peer 1 = none ∧
      ¬ Sound s := by
  refine ⟨?_, ?_, ?_⟩
  · obtain ⟨s, hs, hconnects, haccepts⟩ := exists_reach step (fun _ _ => True) oneServer
      [.connect 1 1 pfLocal [], .connect 2 3 pfLocal [], .accept 9 0, .step 9 none, .step 9 none]
      (fun s => s.connects 0 = [1, 3] ∧ s.accepts 0 = [3]) (by decide)
    refine ⟨s, hs, hconnects, haccepts, fun hsound => ?_⟩
    have horder := hsound.order 0
    rw [hconnects, haccepts] at horder
    exact absurd horder (by decide)
  · obtain ⟨s, hs, hconnects, haccepts, hwaits, hreturned, hpeer⟩ := exists_reach step
      (fun _ _ => True) oneServer
      [.connect 1 1 pfLocal [], .accept 9 0, .step 9 none, .step 9 none, .step 9 none, .step 1 none]
      (fun s => s.connects 0 = [1] ∧ s.accepts 0 = [] ∧ s.waitingSocks 0 = [] ∧
        s.returned = [1] ∧ s.peer 1 = none) (by decide)
    refine ⟨s, hs, hconnects, haccepts, hwaits, hreturned, hpeer, fun hsound => ?_⟩
    have hwaiting := hsound.waiting 0 1
    rw [hconnects, haccepts, hwaits] at hwaiting
    exact absurd (hwaiting (by decide) (by decide)).1 (by decide)
  · obtain ⟨s, hs, hcall, hreturned, hpeer⟩ := exists_reach step (fun _ _ => True) oneServer
      [.connect 1 1 pfLocal [], .accept 9 0, .step 9 none, .step 9 none, .step 1 none]
      (fun s => s.call 9 = .creating 0 1 ∧ s.returned = [1] ∧ s.peer 1 = none) (by decide)
    refine ⟨s, hs, hcall, hreturned, hpeer, fun hsound => ?_⟩
    obtain ⟨child, hsome, -⟩ := hsound.paired 1 (by rw [hreturned]; exact mem_cons_self)
    rw [hpeer] at hsome
    cases hsome

end Whitix.LocalConnection
