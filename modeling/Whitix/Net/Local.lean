import Whitix.Include.Error
import Whitix.Support.Run

/-!
# Local sockets

Two connected sockets are each other's peers.  `LocalSend` puts a packet into
the receive queue of the peer, and `LocalReceive` copies bytes out of the
packets at the front of its own queue.  A packet knows how many of its bytes
have been read, and it is destroyed when all of them have been.

The buffer of `LocalReceive` is modelled by the bytes that are written to it from
its start on, so a call that writes more bytes than the buffer has room for is
visible in the model.
-/

namespace Whitix.LocalSocket

open Support Function List Option

/-- `struct SocketBuffer`; the length of the packet is the length of the data. -/
structure SocketBuffer where
  data : List UInt8
  read : ℕ
  read_lt : read < data.length

inductive End
  | client
  | server
  deriving DecidableEq, Repr

def End.other : End → End
  | .client => .server
  | .server => .client

structure Socket where
  connected : Bool
  peer : Option End
  recvPackets : List SocketBuffer

/-- Two sockets, with the bytes that each of them has sent and received. -/
structure System where
  socket : End → Socket
  sent : End → List UInt8
  received : End → List UInt8

section

variable (s : System) (e : End) (length : ℕ)

def System.setSocket (socket : Socket) : System :=
  { s with socket := update s.socket e socket }

/-! ## The operations -/

def socketAllocateBuffer (buffer : List UInt8) (h : buffer ≠ []) : SocketBuffer :=
  ⟨buffer, 0, length_pos_of_ne_nil h⟩

/-- `memory` tells whether the packet can be allocated. -/
def localSend (buffer : List UInt8) (h : buffer ≠ []) (memory : Bool) : ℤ × System :=
  if (s.socket e).connected = false then (-EINVAL, s)
  else
    match (s.socket e).peer with
    | none => (-ECONNRESET, s)
    | some peer =>
      if memory then
        (buffer.length, s.setSocket peer { s.socket peer with
          recvPackets := (s.socket peer).recvPackets ++ [socketAllocateBuffer buffer h] })
      else (-ENOMEM, s)

/-- The loop of `LocalReceive`, with the bytes that have been copied.  If a packet
is not used up, `length` bytes have been copied from it and the loop ends. -/
def receiveLoop (length : ℕ) : List UInt8 → List SocketBuffer → List UInt8 × List SocketBuffer
  | copied, [] => (copied, [])
  | copied, sockBuff :: rest =>
    if copied.length < length then
      let toRead := min (sockBuff.data.length - sockBuff.read) length
      let copied := copied ++ sockBuff.data.take toRead
      if h : sockBuff.read + toRead < sockBuff.data.length then
        (copied, ⟨sockBuff.data, sockBuff.read + toRead, h⟩ :: rest)
      else receiveLoop length copied rest
    else (copied, sockBuff :: rest)

/-- `LocalReceive` returns the bytes it has written to the buffer.  `none` stands
for a call that does not return: the protocol information of the peer is read
through its pointer, and an empty queue is waited for. -/
def localReceive : Option (List UInt8 × System) :=
  if (s.socket e).peer = none ∨ (s.socket e).recvPackets = [] then none
  else
    let r := receiveLoop length [] (s.socket e).recvPackets
    some (r.1, s.setSocket e { s.socket e with recvPackets := r.2 })

def localSetPeer (first : Option End) (second : Option End) : System :=
  match first with
  | none => s
  | some first => s.setSocket first { s.socket first with peer := second }

/-- `LocalClose` of a socket that is not a listening one. -/
def localClose : System :=
  localSetPeer s (s.socket e).peer none

/-! ## Runs -/

inductive Op
  | send (e : End) (buffer : List UInt8) (h : buffer ≠ []) (memory : Bool)
  | receive (e : End) (length : ℕ)
  | close (e : End)

/-- The bytes that have been sent and received are recorded.  `LocalReceive` is
only called with a positive length and when there are packets. -/
def step : Op → Option System
  | .send e buffer h memory =>
    let r := localSend s e buffer h memory
    some { r.2 with
      sent := update s.sent e (s.sent e ++ buffer.take r.1.toNat) }
  | .receive e length =>
    if 0 < length ∧ (s.socket e).recvPackets ≠ [] then
      (localReceive s e length).map fun r =>
        { r.2 with
          received := update s.received e (s.received e ++ r.1) }
    else none
  | .close e => some (localClose s e)

def connected : System where
  socket e := ⟨true, some e.other, []⟩
  sent _ := []
  received _ := []

def unread (packets : List SocketBuffer) : List UInt8 :=
  packets.flatMap fun sockBuff => sockBuff.data.drop sockBuff.read

/-- What has been received and what is still in the queue is what the other end
has sent. -/
def Ordered : Prop :=
  ∀ e, s.received e ++ unread (s.socket e).recvPackets = s.sent e.other

/-- `LocalReceive` returns, and it writes at least one byte and no byte behind the
buffer. -/
def Receives : Prop :=
  ∃ bytes s', localReceive s e length = some (bytes, s') ∧ 1 ≤ bytes.length ∧ bytes.length ≤ length

/-! ## When a packet is read as a whole -/

/-- The packets are used up, or some of them have the length together. -/
def Fits (packets : List SocketBuffer) : Prop :=
  (packets.flatMap SocketBuffer.data).length ≤ length ∨ ∃ k ≤ packets.length,
      ((packets.take k).flatMap SocketBuffer.data).length = length

instance (length : ℕ) (packets : List SocketBuffer) :
    Decidable (Fits length packets) :=
  inferInstanceAs (Decidable (_ ∨ ∃ k ≤ _, _))

/-- No byte of the first packet has been read, and the call ends in the first
packet or at the end of a packet. -/
def ReadsWhole : List SocketBuffer → Prop
  | [] => False
  | first :: rest => first.read = 0 ∧
      (length ≤ first.data.length ∨ Fits length (first :: rest))

instance (length : ℕ) : (packets : List SocketBuffer) → Decidable (ReadsWhole length packets)
  | [] => isFalse id
  | _ :: _ => inferInstanceAs (Decidable (_ ∧ _))

/-- The other end has not been closed, and packets are read as a whole. -/
def Whole : Op → Prop
  | .receive e length => (s.socket e).peer ≠ none ∧
      ReadsWhole length (s.socket e).recvPackets
  | _ => True

end

instance (s : System) : (op : Op) → Decidable (Whole s op)
  | .send _ _ _ _ | .close _ => isTrue trivial
  | .receive _ _ => inferInstanceAs (Decidable (_ ∧ _))

/-! ## The loop -/

variable {length : ℕ} {copied bytes : List UInt8}
  {packets rest : List SocketBuffer} {first b : SocketBuffer}

theorem unread_cons_of_read (h : b.read = 0) : unread (b :: rest) = b.data ++ unread rest := by
  unfold unread
  rw [flatMap_cons, h, drop_zero]

theorem fits_tail {m : ℕ} (h : Fits m (b :: rest)) (hm : 0 < m) :
    b.data.length ≤ m ∧ Fits (m - b.data.length) rest := by
  rcases h with htotal | ⟨k, hk, hsum⟩
  · rw [flatMap_cons, length_append] at htotal
    exact ⟨by omega, .inl (by omega)⟩
  · cases k with
    | zero =>
      exact absurd hsum (Nat.ne_of_lt hm)
    | succ k =>
      rw [take_succ_cons, flatMap_cons, length_append] at hsum
      rw [length_cons] at hk
      exact ⟨by omega, .inr ⟨k, by omega, by omega⟩⟩

theorem receiveLoop_fits (hread : ∀ b ∈ packets, b.read = 0) (hle : copied.length ≤ length)
    (hfits : Fits (length - copied.length) packets) :
    (receiveLoop length copied packets).1 ++ unread (receiveLoop length copied packets).2 =
      copied ++ unread packets ∧
    (receiveLoop length copied packets).1.length ≤ length ∧
    copied.length ≤ (receiveLoop length copied packets).1.length ∧
    ∀ b ∈ (receiveLoop length copied packets).2, b.read = 0 := by
  induction packets generalizing copied with
  | nil => exact ⟨rfl, hle, Nat.le_refl _, hread⟩
  | cons b rest ih =>
    have hb := hread b mem_cons_self
    have hrest := (forall_mem_cons.mp hread).2
    by_cases hmore : copied.length < length
    · obtain ⟨hlen, htail⟩ := fits_tail hfits (by omega)
      have htoRead : min (b.data.length - b.read) length = b.data.length := by omega
      have hdone : ¬ b.read + b.data.length < b.data.length := by omega
      rw [receiveLoop, if_pos hmore, htoRead, dif_neg hdone,
        take_length, unread_cons_of_read hb, ← append_assoc]
      have hcopied : (copied ++ b.data).length = copied.length + b.data.length := length_append
      obtain ⟨hall, hend, hkept, hunread⟩ := @ih (copied ++ b.data) hrest (by omega)
        (by
          rw [hcopied, ← Nat.sub_sub]
          exact htail)
      exact ⟨hall, hend, by omega, hunread⟩
    · rw [receiveLoop, if_neg hmore]
      exact ⟨rfl, hle, Nat.le_refl _, hread⟩

theorem receiveLoop_inside (hpos : 0 < length) (hread : first.read = 0)
    (h : length < first.data.length) :
    receiveLoop length [] (first :: rest) =
      (first.data.take length, ⟨first.data, length, h⟩ :: rest) := by
  have htoRead : min (first.data.length - 0) length = length := by omega
  have hstart : ([] : List UInt8).length < length := hpos
  simp only [receiveLoop, if_pos hstart, hread, htoRead, Nat.zero_add, dif_pos h, nil_append]

theorem receiveLoop_first (hpos : 0 < length) (hread : first.read = 0)
    (h : first.data.length ≤ length) :
    receiveLoop length [] (first :: rest) = receiveLoop length first.data rest := by
  have htoRead : min (first.data.length - first.read) length = first.data.length := by omega
  have hdone : ¬ first.read + first.data.length < first.data.length := by omega
  have hstart : ([] : List UInt8).length < length := hpos
  simp only [receiveLoop, if_pos hstart, htoRead, dif_neg hdone, nil_append, take_length]

theorem receiveLoop_whole (hpos : 0 < length) (h : ReadsWhole length packets)
    (htail : ∀ b ∈ packets.tail, b.read = 0) :
    (receiveLoop length [] packets).1 ++ unread (receiveLoop length [] packets).2 = unread packets ∧
    1 ≤ (receiveLoop length [] packets).1.length ∧
    (receiveLoop length [] packets).1.length ≤ length ∧
    ∀ b ∈ (receiveLoop length [] packets).2.tail, b.read = 0 := by
  cases packets with
  | nil => exact h.elim
  | cons first rest =>
    obtain ⟨hread, hend⟩ := h
    have hfirst := first.read_lt
    rw [unread_cons_of_read hread]
    by_cases hpart : length < first.data.length
    · have hlen : (first.data.take length).length = length :=
        length_take_of_le (Nat.le_of_lt hpart)
      rw [receiveLoop_inside hpos hread hpart]
      dsimp only
      refine ⟨?_, by omega, Nat.le_of_eq hlen, htail⟩
      unfold unread
      rw [flatMap_cons, ← append_assoc, take_append_drop]
    · rw [receiveLoop_first hpos hread (Nat.not_lt.mp hpart)]
      have hfits : Fits (length - first.data.length) rest := by
        rcases hend with hle | hfits
        · have hzero : length - first.data.length = 0 := by omega
          rw [hzero]
          exact .inr ⟨0, Nat.zero_le _, rfl⟩
        · exact (fits_tail hfits hpos).2
      have hrest : ∀ b ∈ rest, b.read = 0 := htail
      obtain ⟨hall, hle, hkept, hunread⟩ :=
        receiveLoop_fits hrest (Nat.not_lt.mp hpart) hfits
      refine ⟨hall, by omega, hle, fun b hb => ?_⟩
      exact hunread b (mem_of_mem_tail hb)

/-! ## Runs -/

/-- The bytes are in order, a packet is sent to the other end, and only the first
packet of a queue may have been read in part. -/
structure Inv (s : System) : Prop where
  ordered : Ordered s
  peers : ∀ e p, (s.socket e).peer = some p → p = e.other
  unread : ∀ e, ∀ b ∈ (s.socket e).recvPackets.tail, b.read = 0

variable {s s' : System} {e e' : End}

theorem inv_connected : Inv connected := by
  refine ⟨fun _ => rfl, fun e p h => (some.inj h).symm, ?_⟩
  intro e b hb
  cases hb

theorem other_other (e : End) : e.other.other = e := by
  cases e with
  | client | server => rfl

theorem other_ne (e : End) : e ≠ e.other := by
  cases e with
  | client | server => exact nofun

theorem eq_or_eq_other (e e' : End) : e' = e ∨ e' = e.other := by
  cases e with
  | client =>
    cases e' with
    | client => exact .inl rfl
    | server => exact .inr rfl
  | server =>
    cases e' with
    | client => exact .inr rfl
    | server => exact .inl rfl

theorem unread_append (packets rest : List SocketBuffer) :
    LocalSocket.unread (packets ++ rest) = LocalSocket.unread packets ++ LocalSocket.unread rest :=
  flatMap_append

theorem localSend_cases (s : System) (e : End) (buffer : List UInt8)
    (h : buffer ≠ []) (memory : Bool) :
    ((localSend s e buffer h memory).1.toNat = 0 ∧ (localSend s e buffer h memory).2 = s) ∨
    ∃ p, (s.socket e).peer = some p ∧ localSend s e buffer h memory = ((buffer.length : ℤ),
      s.setSocket p { s.socket p with
        recvPackets := (s.socket p).recvPackets ++ [socketAllocateBuffer buffer h] }) := by
  unfold localSend
  split
  · exact .inl ⟨rfl, rfl⟩
  · cases hpeer : (s.socket e).peer with
    | none => exact .inl ⟨rfl, rfl⟩
    | some p =>
      cases memory with
      | false => exact .inl ⟨rfl, rfl⟩
      | true => exact .inr ⟨p, rfl, rfl⟩

theorem Inv.update {k : Socket} {sent' received' : End → List UInt8} (h : Inv s)
    (hself : received' e ++ LocalSocket.unread k.recvPackets = sent' e.other)
    (hother : received' e.other ++ LocalSocket.unread (s.socket e.other).recvPackets = sent' e)
    (hpeer : ∀ p, k.peer = some p → p = e.other) (htail : ∀ b ∈ k.recvPackets.tail, b.read = 0) :
    Inv ⟨update s.socket e k, sent', received'⟩ := by
  have hne := (other_ne e).symm
  refine ⟨fun e' => ?_, fun e' => ?_, fun e' => ?_⟩
  · rcases eq_or_eq_other e e' with rfl | rfl
    · dsimp only
      rw [update_self]
      exact hself
    · dsimp only
      rw [update_of_ne hne, other_other]
      exact hother
  · rcases eq_or_eq_other e e' with rfl | rfl
    · dsimp only
      rw [update_self]
      exact hpeer
    · dsimp only
      rw [update_of_ne hne]
      exact h.peers e.other
  · rcases eq_or_eq_other e e' with rfl | rfl
    · dsimp only
      rw [update_self]
      exact htail
    · dsimp only
      rw [update_of_ne hne]
      exact h.unread e.other

theorem tail_append_singleton (packets : List SocketBuffer)
    (h : b ∈ (packets ++ [first]).tail) : b ∈ packets.tail ∨ b = first := by
  cases packets with
  | nil => cases h
  | cons c rest =>
    rcases mem_append.mp h with hrest | hlast
    · exact .inl hrest
    · exact .inr (mem_singleton.mp hlast)

theorem Inv.send {buffer : List UInt8} {hne : buffer ≠ []} {memory : Bool} (h : Inv s)
    (hs : step s (.send e buffer hne memory) = some s') : Inv s' := by
  cases hs
  rcases localSend_cases s e buffer hne memory with
    ⟨hnone, hsame⟩ | ⟨p, hpeer, hsend⟩
  · rw [hnone, hsame, take_zero, append_nil, update_eq_self]
    exact h
  · obtain rfl := h.peers e p hpeer
    have htake : buffer.take (buffer.length : ℤ).toNat = buffer := by
      rw [Int.toNat_natCast, take_length]
    have hqueued : LocalSocket.unread [socketAllocateBuffer buffer hne] =
        buffer := append_nil _
    have hto := h.ordered e.other
    have hfrom := h.ordered e
    rw [other_other] at hto
    rw [hsend, htake]
    refine h.update ?_ ?_ (h.peers e.other) fun b hb => ?_
    · rw [other_other, update_self, unread_append, hqueued, ← hto, append_assoc]
      rfl
    · rw [other_other, update_of_ne (other_ne e).symm]
      exact hfrom
    · rcases tail_append_singleton _ hb with hold | rfl
      · exact h.unread e.other b hold
      · rfl

theorem Inv.receive (h : Inv s) (hguard : Whole s (.receive e length))
    (hs : step s (.receive e length) = some s') : Inv s' := by
  unfold step at hs
  obtain ⟨henabled, hs⟩ := ite_none_right_eq_some.mp hs
  obtain ⟨r, hr, rfl⟩ := map_eq_some_iff.mp hs
  obtain ⟨hall, -, -, htail⟩ :=
    receiveLoop_whole henabled.1 hguard.2 (h.unread e)
  rw [localReceive, if_neg (not_or.mpr ⟨hguard.1, henabled.2⟩)] at hr
  cases hr
  have hfrom := h.ordered e
  have hto := h.ordered e.other
  rw [other_other] at hto
  refine h.update ?_ ?_ (h.peers e) htail
  · rw [update_self, append_assoc, hall]
    exact hfrom
  · rw [update_of_ne (other_ne e).symm]
    exact hto

theorem Inv.close (h : Inv s) (hs : step s (.close e) = some s') : Inv s' := by
  cases hs
  unfold localClose localSetPeer
  cases hpeer : (s.socket e).peer with
  | none => exact h
  | some p =>
    have hto := h.ordered p.other
    rw [other_other] at hto
    exact h.update (h.ordered p) hto nofun (h.unread p)

theorem Inv.step {op : Op} (h : Inv s) (hguard : Whole s op)
    (hs : LocalSocket.step s op = some s') : Inv s' := by
  cases op with
  | send e buffer hne memory => exact h.send hs
  | receive e length => exact h.receive hguard hs
  | close e => exact h.close hs

theorem Inv.receives (h : Inv s) (hguard : Whole s (.receive e length))
    (hpos : 0 < length) : Receives s e length := by
  have hne : (s.socket e).recvPackets ≠ [] := by
    intro hnil
    have hwhole := hguard.2
    rw [hnil] at hwhole
    exact hwhole
  obtain ⟨-, hone, hle, -⟩ := receiveLoop_whole hpos hguard.2 (h.unread e)
  exact ⟨_, _, if_neg (not_or.mpr ⟨hguard.1, hne⟩), hone, hle⟩

/-- In every run in which packets are read as a whole and before the other end is
closed, local sockets are reliable byte streams. -/
theorem local_stream_reliable (hreach : Reach step Whole connected s) :
    Ordered s ∧ ∀ e length, Whole s (.receive e length) → 0 < length → Receives s e length := by
  have hinv : Inv s := hreach.invariant inv_connected fun _ _ _ h => h.step
  exact ⟨hinv.ordered, fun e length hguard hpos => hinv.receives hguard hpos⟩

theorem local_stream_reliable_two_packets :
    ∃ s, Reach step Whole connected s ∧ s.received .server = [1, 2, 3] ∧
      Ordered s ∧ ∀ e length, Whole s (.receive e length) → 0 < length → Receives s e length := by
  obtain ⟨s, hreach, hend⟩ := exists_reach step Whole connected
    [.send .client [1, 2] (by decide) true, .send .client [3] (by decide) true,
      .receive .server 3, .close .client]
    (fun s => s.received .server = [1, 2, 3]) (by decide)
  exact ⟨s, hreach, hend, local_stream_reliable hreach⟩

/-- The second byte of a packet is never received: a packet that has been read in
part is copied from its first byte on again. -/
theorem local_stream_repeats_byte :
    ∃ s, Reach step (fun _ _ => True) connected s ∧
      s.sent .client = [1, 2] ∧ s.received .server = [1, 1] ∧ ¬ Ordered s := by
  obtain ⟨s, hs, hsent, hreceived, hunread⟩ := exists_reach step (fun _ _ => True) connected
    [.send .client [1, 2] (by decide) true, .receive .server 1, .receive .server 1]
    (fun s => s.sent .client = [1, 2] ∧ s.received .server = [1, 1] ∧
      unread (s.socket .server).recvPackets = []) (by decide)
  refine ⟨s, hs, hsent, hreceived, fun hordered => ?_⟩
  have hserver := hordered .server
  have hother : s.sent End.server.other = [1, 2] := hsent
  rw [hreceived, hother] at hserver
  cases hserver

end Whitix.LocalSocket
