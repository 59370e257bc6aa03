import Mathlib.Data.List.Infix
import Whitix.Include.Error
import Whitix.Include.Wait
import Whitix.Support.Run

/-!
# Connections of local sockets

A client puts its socket on the waiting list of a listening socket and waits
until the state of its socket is `SOCKET_STATE_CONNECTED`.  `LocalAccept` takes
the first socket of the list, creates a child socket for it, and makes the two
each other's peers.

A thread may be preempted between any two steps.  The threads that wait are on
wait queues, which are modelled with their links.  Suspended threads are not
distinguished from others: a thread may be resumed at any time.
-/

namespace Whitix.LocalConnection

open Support Function

inductive SocketState
  | free
  | bound
  | accepting
  | waiting
  | connected
  deriving DecidableEq, Repr

/-- The head of the wait queue of a socket, and the wait queue entry on the stack
of a thread. -/
inductive Node
  | head (socket : ℕ)
  | entry (thread : ℕ)
  deriving DecidableEq, Repr

/-! ## Waiting -/

section

variable (queue : Links Node) (s : System)

def wakeUp (head : Node) : Links Node :=
  if queue.next head = head then queue
  else queue.removeInit (queue.next head)

/-- The places in `WAIT_ON`, each named after the step that comes next. -/
inductive WaitPlace
  | test
  | prepareWait
  | testAgain
  | finishWait
  deriving DecidableEq, Repr

/-- One step of `WAIT_ON`; `none` is the end of it. -/
def waitOn (condition : Bool) (head waitEntry : Node) (queue : Links Node) :
    WaitPlace → Option WaitPlace × Links Node
  | .test =>
    if condition then (none, queue)
    else (some .prepareWait, queue.init waitEntry)
  | .prepareWait => (some .testAgain, waitPrepareWait queue head waitEntry)
  | .testAgain =>
    (some (if condition then .finishWait else .prepareWait), queue)
  | .finishWait => (none, waitFinishWait queue waitEntry)

/-! ## The system -/

inductive Call
  | idle
  /-- In `WAIT_ON` of `LocalConnect`. -/
  | connecting (client : ℕ) (place : WaitPlace)
  /-- In `WAIT_ON` of `LocalAccept`. -/
  | accepting (server : ℕ) (place : WaitPlace)
  /-- Before a client is taken from the waiting list. -/
  | taking (server : ℕ)
  /-- Before `SysSocketCreate` in `SocketDoAccept`. -/
  | creating (server client : ℕ)
  deriving DecidableEq, Repr

/-- The fields of all sockets and their `LocalSockInfo`, the wait queues and the
threads.  The clients that have connected to a server, those that a `LocalAccept`
has taken and not failed for, and the clients whose `LocalConnect` has returned
are recorded. -/
structure System where
  state : ℕ → SocketState
  name : ℕ → List UInt8
  peer : ℕ → Option ℕ
  parent : ℕ → Option ℕ
  waitingSocks : ℕ → List ℕ
  childSocks : ℕ → List ℕ
  localListenSockets : List ℕ
  queue : Links Node
  call : ℕ → Call
  connects : ℕ → List ℕ
  accepts : ℕ → List ℕ
  returned : List ℕ

def pfLocal : ℕ := 0

def socketDataLength : ℕ := 20

/-- Whether `strncmp` of two names over `SOCKET_DATA_LENGTH` bytes is zero. -/
def sameName (a b : List UInt8) : Bool :=
  (a.take socketDataLength).takeWhile (· ≠ 0) = (b.take socketDataLength).takeWhile (· ≠ 0)

/-- `LocalConnect` up to `WAIT_ON`, with the error that it returns. -/
def localConnect (thread client family : ℕ) (name : List UInt8) : Option ℤ × System :=
  if family ≠ pfLocal then (some (-EINVAL), s)
  else
    match s.localListenSockets.find? fun curr => sameName name (s.name curr) with
    | none => (some (-ENOENT), s)
    | some server =>
      (none, { s with
        state := update s.state client .waiting
        waitingSocks := update s.waitingSocks server (client :: s.waitingSocks server)
        queue := wakeUp s.queue (.head server)
        call := update s.call thread (.connecting client .test)
        connects := update s.connects server (s.connects server ++ [client]) })

/-- `LocalCreate`, called by `SysSocketCreate` for a new socket. -/
def localCreate (socket : ℕ) : System :=
  { s with
    peer := update s.peer socket none
    queue := s.queue.init (.head socket) }

def socketSetupChild (parent child : ℕ) : System :=
  { s with
    parent := update s.parent child (some parent)
    name := update s.name child (s.name parent)
    state := update s.state child .connected
    childSocks := update s.childSocks parent (s.childSocks parent ++ [child]) }

def localSetPeer (first second : ℕ) : System :=
  { s with peer := update s.peer first (some second) }

/-- `LocalAccept` from the return of `SysSocketCreate` on, for a new child. -/
def localAcceptChild (server client child : ℕ) : System :=
  let s := socketSetupChild (localCreate s child) server child
  let s := { s with queue := s.queue.init (.head server) }
  let s := localSetPeer (localSetPeer s child client) client child
  { s with queue := wakeUp s.queue (.head client) }

/-- The next step of a thread.  `child` is the socket that `SysSocketCreate`
creates if it is called, or `none` if it fails. -/
def threadStep (thread : ℕ) (child : Option ℕ) : Option System :=
  match s.call thread with
  | .idle => none
  | .connecting client place =>
    match waitOn (s.state client = .connected) (.head client) (.entry thread) s.queue place with
    | (some place, queue) =>
      some { s with
        queue := queue
        call := update s.call thread (.connecting client place) }
    | (none, queue) =>
      some { s with
        queue := queue
        call := update s.call thread .idle
        returned := s.returned ++ [client] }
  | .accepting server place =>
    match waitOn (s.waitingSocks server ≠ []) (.head server) (.entry thread) s.queue place with
    | (some place, queue) =>
      some { s with
        queue := queue
        call := update s.call thread (.accepting server place) }
    | (none, queue) =>
      some { s with
        queue := queue
        call := update s.call thread (.taking server) }
  | .taking server =>
    match s.waitingSocks server with
    -- The head of the list would be used as a socket.
    | [] => none
    | client :: rest =>
      some { s with
        waitingSocks := update s.waitingSocks server rest
        state := update s.state client .connected
        call := update s.call thread (.creating server client)
        accepts := update s.accepts server (s.accepts server ++ [client]) }
  | .creating server client =>
    match child with
    | none =>
      some { s with
        call := update s.call thread .idle
        accepts := update s.accepts server ((s.accepts server).erase client) }
    | some child =>
      if s.state child = .free then
        some (localAcceptChild { s with call := update s.call thread .idle } server client child)
      else none

inductive Op
  | connect (thread client family : ℕ) (name : List UInt8)
  | accept (thread server : ℕ)
  | step (thread : ℕ) (child : Option ℕ)
  deriving DecidableEq, Repr

/-- A client connects with a new socket, and `SysSocketAccept` checks the state of
the server. -/
def step (s : System) : Op → Option System
  | .connect thread client family name =>
    if s.call thread = .idle ∧ s.state client = .free then
      some (localConnect s thread client family name).2
    else none
  | .accept thread server =>
    if s.call thread = .idle ∧ s.state server = .accepting then
      some { s with
        call := update s.call thread (.accepting server .test) }
    else none
  | .step thread child => threadStep s thread child

/-- Some sockets listen, and nobody has connected. -/
structure System.Listening (s : System) : Prop where
  listens : ∀ server ∈ s.localListenSockets, s.state server = .accepting
  peers : ∀ socket, s.state socket ≠ .connected → s.peer socket = none
  nobody : ∀ server, s.waitingSocks server = [] ∧ s.connects server = [] ∧ s.accepts server = []
  idle : ∀ thread, s.call thread = .idle
  returns : s.returned = []

/-! ## What connections are for -/

/-- The client has a child socket, the two are each other's peers, and both are
connected. -/
def Paired (client : ℕ) : Prop :=
  ∃ child, s.peer client = some child ∧ s.peer child = some client ∧
    s.state client = .connected ∧ s.state child = .connected

/-- Clients are accepted in the order in which they connected, they have a peer
when `LocalConnect` returns, those that have not been accepted wait, and a
`LocalAccept` that fails leaves the threads on the wait queues. -/
structure Sound (s : System) : Prop where
  order : ∀ server, s.accepts server <+: s.connects server
  paired : ∀ client ∈ s.returned, Paired s client
  waiting : ∀ server, ∀ client ∈ s.connects server, client ∉ s.accepts server →
      client ∈ s.waitingSocks server ∧ s.state client = .waiting
  queued : ∀ thread server client s', s.call thread = .creating server client →
    threadStep s thread none = some s' → s'.queue = s.queue

/-- A client does not run between the stores of its state and of its peer in
`LocalAccept`, it is taken only when it is the only one that waits, and a child
socket can be created. -/
def OrderlyStep (child : Option ℕ) : Call → Prop
  | .connecting client _ => s.state client = .connected → s.peer client ≠ none
  | .taking server => (s.waitingSocks server).length ≤ 1
  | .creating _ _ => child ≠ none
  | _ => True

def Orderly : Op → Prop
  | .step thread child => OrderlyStep s child (s.call thread)
  | _ => True

end

instance (s : System) (child : Option ℕ) : (call : Call) → Decidable (OrderlyStep s child call)
  | .connecting _ _ => inferInstanceAs (Decidable (_ → _))
  | .taking _ => inferInstanceAs (Decidable (_ ≤ 1))
  | .creating _ _ => inferInstanceAs (Decidable (¬ _))
  | .idle | .accepting _ _ => isTrue trivial

instance (s : System) : (op : Op) → Decidable (Orderly s op)
  | .step _ _ => inferInstanceAs (Decidable (OrderlyStep _ _ _))
  | .connect _ _ _ _ | .accept _ _ => isTrue trivial

end Whitix.LocalConnection
