import Jlos.Net.Connection

/-!
# The received stream

The bytes of the peer's stream as they reach the handler of a connection, over all orders,
repetitions and losses of the peer's segments.
-/
namespace Jlos.Net.Tcp

open Lib List

/-- The peer: its initial sequence number, and everything it sends before its FIN. -/
structure Peer where
  irs : BitVec 32
  stream : List Byte

def Peer.number (peer : Peer) (i : Nat) : BitVec 32 := peer.irs + 1 + BitVec.ofNat 32 i

/-- A piece of the stream, with the FIN only if it is the last one. -/
def Peer.Piece (peer : Peer) (seg : Segment) (i : Nat) : Prop :=
  seg.sequenceNumber = peer.number i ∧ seg.payload <+: peer.stream.drop i ∧
    (seg.flags.fin → i + seg.payload.length = peer.stream.length)
  deriving Decidable

/-- A segment of the peer: the SYN, or any piece of the stream; it has come in an IPv4 packet. -/
def Peer.Sends (peer : Peer) (seg : Segment) : Prop :=
  seg.payload.length < 65536 ∧
    if seg.flags.syn then seg.sequenceNumber = peer.irs else ∃ i, peer.Piece seg i

/-- A connection, whether the SYN of the peer has reached it, and whether its FIN has. -/
structure Receiver where
  conn : Conn
  synced : Bool
  finReceived : Bool
  deriving DecidableEq, Repr

/-- A segment that the receive function takes as a FIN. -/
def Segment.IsFin (seg : Segment) : Prop := seg.flags.fin ∧ seg.flags.syn = false ∧ seg.flags.rst = false
  deriving Decidable

def Op.isFin : Op → Bool
  | .receive _ seg => seg.IsFin
  | _ => false

/-- The states before the SYN of the peer. -/
def State.Unsynced (state : State) : Prop := state = .listen ∨ state = .synSent
  deriving Decidable

namespace Receiver

def exec (r : Receiver) (op : Op) : Option Receiver := (r.conn.exec op).map fun c =>
  { conn := c
    synced := r.synced || decide (c.socket.state ≠ .closed ∧ ¬c.socket.state.Unsynced)
    finReceived := r.finReceived || op.isFin }

def start (c : Conn) : Receiver := ⟨c, false, false⟩

def done (r : Receiver) : Nat := r.conn.delivered.length - (r.conn.call.map List.length).getD 0

end Receiver

/-- A step in which no one but the peer sends segments. -/
def Peer.step (peer : Peer) (r : Receiver) (op : Op) (r' : Receiver) : Prop :=
  r.exec op = some r' ∧ ∀ alloc seg, op = .receive alloc seg → peer.Sends seg

/-- The acknowledgement number counts the SYN and the bytes delivered, and the FIN only if it was
received and stands there. -/
def Peer.Acknowledged (peer : Peer) (ack : BitVec 32) (n : Nat) (finReceived : Bool) : Prop :=
  ack = peer.number n ∨ (ack = peer.number n + 1 ∧ finReceived ∧ n = peer.stream.length)
  deriving Decidable

/-- What was delivered is what the peer has sent so far, and this is what is acknowledged; before
the SYN of the peer nothing is delivered. -/
structure Peer.InOrder (peer : Peer) (r : Receiver) : Prop where
  ordered : r.conn.delivered <+: peer.stream
  acknowledged : r.synced → peer.Acknowledged r.conn.socket.acknowledgementNumber r.done r.finReceived
  unsynced : r.synced = false → r.conn.delivered = []

/-- Half of the sequence numbers. -/
def halfSpace : Nat := 2 ^ 31

/-- Data comes from less than half of the sequence numbers before or behind what was delivered, and
before the SYN not at the number that the socket happens to hold; a FIN comes without data when the
whole stream was delivered; the handler refuses no data. -/
def Peer.Meets (peer : Peer) (r : Receiver) : Op → Prop
  | .receive _ seg =>
    (seg.payload ≠ [] → seg.flags.syn = false →
      (∃ i < peer.stream.length, peer.Piece seg i ∧
        i < r.conn.delivered.length + halfSpace ∧ r.conn.delivered.length < i + halfSpace) ∧
      (r.synced = false → seg.sequenceNumber ≠ r.conn.socket.acknowledgementNumber)) ∧
    (seg.IsFin → r.synced → seg.payload = [] ∧ r.conn.delivered.length = peer.stream.length)
  | .handled _ accepts => accepts ∨ r.conn.call = some []
  | _ => True

/-- What the state says, in order or not. -/
structure Receiver.Tracks (r : Receiver) : Prop where
  early : r.conn.socket.state.Unsynced → r.synced = false
  late : r.conn.socket.state ≠ .closed → ¬r.conn.socket.state.Unsynced → r.synced
  pending : ∀ payload, r.conn.call = some payload → payload <:+ r.conn.delivered

open Receiver

open Peer

section

variable {alloc accepts : Bool} {socket next : Socket} {seg : Segment} {c c' : Conn} {op : Op} {peer : Peer}
  {r r' : Receiver}

theorem Moves.unsynced (moves : Moves socket seg next) (unsynced : next.state.Unsynced) : socket.state.Unsynced := by
  cases moves with
  | stays => exact unsynced
  | closes next syn fin rst moved =>
    rcases moved with rfl | ⟨was, rfl⟩ | ⟨was, rfl | rfl⟩
    · exact unsynced
    all_goals simp [State.Unsynced] at unsynced
  | acks next moved =>
    rcases moved with ⟨was, rfl⟩ | ⟨was, rfl⟩ | ⟨was, rfl⟩ | ⟨was, rfl⟩ <;> simp [State.Unsynced] at unsynced
  | _ => simp [State.Unsynced] at unsynced

theorem settle_unsynced (unsynced : (settle socket).state.Unsynced) : socket.state.Unsynced := by
  unfold settle at unsynced
  split at unsynced
  · simp [State.Unsynced] at unsynced
  · exact unsynced

theorem Conn.exec_unsynced (taken : c.exec op = some c') (unsynced : c'.socket.state.Unsynced) :
    c.socket.state.Unsynced := by
  cases op with
  | receive alloc seg =>
    obtain ⟨-, -, rfl⟩ := Conn.exec_receive taken
    exact onReceived_moves.unsynced unsynced
  | handled alloc accepts =>
    obtain ⟨payload, -, rfl⟩ := Option.map_eq_some_iff.mp taken
    simp only [Conn.move, onHandled_socket] at unsynced
    have before := settle_unsynced unsynced
    cases accepts <;> exact before
  | send alloc data =>
    cases taken
    cases alloc <;> by_cases state : c.socket.state = .established <;> simp_all [Conn.move, socketSend, providerSend]
  | disconnect alloc =>
    cases taken
    cases state : c.socket.state <;> simp_all [Conn.move, providerDisconnect, sendFin, State.Unsynced]
  | bind bound =>
    cases taken
    exact unsynced

/-- What a step does to the payload that the handler works on and to what was delivered. -/
theorem Conn.exec_call (taken : c.exec op = some c') :
    (c'.call = none ∧ c'.delivered = c.delivered) ∨ (c'.call = c.call ∧ c'.delivered = c.delivered) ∨
    (∃ alloc seg, op = .receive alloc seg ∧ c'.call = some seg.payload ∧
      c'.delivered = c.delivered ++ handed seg.payload) := by
  cases op with
  | receive alloc seg =>
    obtain ⟨-, -, rfl⟩ := Conn.exec_receive taken
    by_cases calls : Calls c.socket seg
    · exact .inr (.inr ⟨alloc, seg, rfl, by simp [onReceived_call, calls]⟩)
    · exact .inl (by simp [onReceived_call, calls])
  | handled alloc accepts =>
    obtain ⟨payload, -, rfl⟩ := Option.map_eq_some_iff.mp taken
    exact .inl ⟨rfl, rfl⟩
  | send alloc data =>
    cases taken
    exact .inr (.inl ⟨rfl, rfl⟩)
  | disconnect alloc =>
    cases taken
    exact .inr (.inl ⟨rfl, rfl⟩)
  | bind bound =>
    cases taken
    exact .inr (.inl ⟨rfl, rfl⟩)

theorem handed_of_lt {payload : List Byte} (lt : payload.length < 65536) : handed payload = payload := by
  rw [handed, Nat.mod_eq_of_lt lt, take_length]

theorem Receiver.Tracks.step (tracks : r.Tracks) (taken : peer.step r op r') : r'.Tracks := by
  obtain ⟨executes, sends⟩ := taken
  obtain ⟨c, taken, rfl⟩ := Option.map_eq_some_iff.mp executes
  constructor
  case early =>
    intro unsynced
    simp [tracks.early (Conn.exec_unsynced taken unsynced), unsynced]
  case late =>
    intro open_ synced
    simp [open_, synced]
  case pending =>
    intro payload call
    rcases Conn.exec_call taken with ⟨none, -⟩ | ⟨same, delivered⟩ | ⟨alloc, seg, op, now, delivered⟩
    · simp [none] at call
    · rw [delivered]
      exact tracks.pending payload (same.symm.trans call)
    · obtain rfl : seg.payload = payload := Option.some.inj (now.symm.trans call)
      rw [delivered, handed_of_lt (sends alloc seg op).1]
      exact suffix_append ..

/-! ### One step -/

theorem Peer.number_add (n k : Nat) : peer.number (n + k) = peer.number n + BitVec.ofNat 32 k := by
  simp [Peer.number, BitVec.ofNat_add, BitVec.add_assoc]

/-- Positions that are less than all sequence numbers apart have different ones. -/
theorem Peer.number_inj {i j : Nat} (before : i < j + 2 ^ 32) (behind : j < i + 2 ^ 32)
    (same : peer.number i = peer.number j) : i = j := by
  have numbers : BitVec.ofNat 32 i = BitVec.ofNat 32 j := by
    simpa [Peer.number] using same
  have values := congrArg BitVec.toNat numbers
  simp only [BitVec.toNat_ofNat] at values
  omega

/-- Data from nearby whose sequence number is the one acknowledged is what comes next. -/
theorem Peer.Piece.comes_next {i n : Nat} {fin : Bool} (piece : peer.Piece seg i)
    (before : i < n + halfSpace) (behind : n < i + halfSpace)
    (acked : peer.Acknowledged seg.sequenceNumber n fin) : seg.payload <+: peer.stream.drop n := by
  obtain ⟨number, carries, -⟩ := piece
  unfold halfSpace at before behind
  rw [number] at acked
  rcases acked with same | ⟨same, -, all⟩
  · obtain rfl : i = n := number_inj (by omega) (by omega) same
    exact carries
  · -- behind the FIN there is no data
    obtain rfl : i = n + 1 := number_inj (by omega) (by omega) (same.trans (number_add n 1).symm)
    rw [drop_eq_nil_of_le (by omega), prefix_nil] at carries
    simp [carries]

theorem Peer.Acknowledged.mono {ack : BitVec 32} {n : Nat} {fin more : Bool} (acked : peer.Acknowledged ack n fin) :
    peer.Acknowledged ack n (fin || more) := by
  rcases acked with right | ⟨right, received, all⟩
  · exact .inl right
  · exact .inr ⟨right, by simp [received], all⟩

theorem settle_acknowledgementNumber : (settle socket).acknowledgementNumber = socket.acknowledgementNumber := by
  unfold settle
  split <;> rfl

theorem onReceived_isFin (fin : seg.IsFin) :
    (onReceived alloc socket seg).1.acknowledgementNumber = seg.sequenceNumber + 1 := by
  obtain ⟨fin, syn, rst⟩ := fin
  have calls : ¬Calls socket seg := fun calls => by simp [calls.2.2.1] at fin
  rw [onReceived_of_not_calls calls rst, finish_socket, settle_acknowledgementNumber]
  cases state : socket.state <;> simp [onFlags, syn, fin, onFin, state]

theorem Moves.acknowledges (moves : Moves socket seg next) :
    ((¬seg.IsFin → next.acknowledgementNumber = socket.acknowledgementNumber) ∧
      (socket.state.Unsynced → next.state = .closed ∨ next.state.Unsynced)) ∨
    (socket.state.Unsynced ∧ seg.flags.syn ∧ next.acknowledgementNumber = seg.sequenceNumber + 1) := by
  cases moves with
  | stays => exact .inl ⟨fun _ => rfl, .inr⟩
  | resets rst => exact .inl ⟨fun _ => rfl, fun _ => .inl rfl⟩
  | accepts listens syn => exact .inr ⟨.inl listens, syn, rfl⟩
  | connects sent syn => exact .inr ⟨.inr sent, syn, rfl⟩
  | confirms received => exact .inl ⟨fun _ => rfl, fun unsynced => by simp [State.Unsynced, received] at unsynced⟩
  | closes next syn fin rst moved =>
    refine .inl ⟨absurd ⟨fin, syn, rst⟩, fun unsynced => ?_⟩
    rcases moved with rfl | ⟨was, -⟩ | ⟨was | was | was, -⟩
    · exact .inr unsynced
    all_goals simp [State.Unsynced, was] at unsynced
  | acks next moved =>
    refine .inl ⟨fun _ => rfl, fun unsynced => ?_⟩
    rcases moved with ⟨was, rfl⟩ | ⟨was, rfl⟩ | ⟨was, rfl⟩ | ⟨was, rfl⟩ <;> simp [State.Unsynced, was] at unsynced

/-- A state that is waiting for a SYN or closed is left by nothing but a segment. -/
theorem synced_of_state (tracks : r.Tracks)
    (state : r.conn.socket.state = .closed ∨ r.conn.socket.state.Unsynced → next.state = .closed ∨
    next.state.Unsynced) :
    (r.synced || decide (next.state ≠ .closed ∧ ¬next.state.Unsynced)) = r.synced := by
  cases known : r.synced
  case true => rfl
  case false =>
    have early : r.conn.socket.state = .closed ∨ r.conn.socket.state.Unsynced := by
      by_contra late
      rw [not_or] at late
      simp [tracks.late late.1 late.2] at known
    rcases state early with closed | unsynced
    · simp [closed]
    · simp [unsynced]

/-- What the receiver looks like behind a segment. -/
structure Received (alloc : Bool) (seg : Segment) (r r' : Receiver) : Prop where
  idle : r.conn.call = none
  alive : r.conn.socket.state ≠ .closed
  socket : r'.conn.socket = (onReceived alloc r.conn.socket seg).1
  call : r'.conn.call = if Calls r.conn.socket seg then some seg.payload else none
  delivered : r'.conn.delivered = r.conn.delivered ++ if Calls r.conn.socket seg then seg.payload else []
  synced : r'.synced = (r.synced || decide (r'.conn.socket.state ≠ .closed ∧ ¬r'.conn.socket.state.Unsynced))
  finReceived : r'.finReceived = (r.finReceived || decide seg.IsFin)

theorem Receiver.received (sends : peer.Sends seg) (taken : r.exec (.receive alloc seg) = some r') :
    Received alloc seg r r' := by
  obtain ⟨c, executes, rfl⟩ := Option.map_eq_some_iff.mp taken
  obtain ⟨idle, matches_, rfl⟩ := Conn.exec_receive executes
  refine ⟨idle, fun closed => ?_, rfl, onReceived_call, ?_, rfl, rfl⟩
  · simp [matchSocket, closed] at matches_
  · rw [onReceived_call]
    split <;> simp [handed_of_lt sends.1]

theorem Received.done (received : Received alloc seg r r') : r'.done = r.conn.delivered.length := by
  unfold Receiver.done
  rw [received.call, received.delivered]
  split <;> simp

section

variable (tracks : r.Tracks) (inOrder : peer.InOrder r)
include tracks inOrder

theorem receive_calls (received : Received alloc seg r r') (calls : Calls r.conn.socket seg)
    (meets : peer.Meets r (.receive alloc seg)) : peer.InOrder r' := by
  have notFin : ¬seg.IsFin := fun fin => by simp [Segment.IsFin, calls.2.2.1] at fin
  have delivered : r'.conn.delivered = r.conn.delivered ++ seg.payload := by
    rw [received.delivered, if_pos calls]
  have socket : r'.conn.socket = r.conn.socket := by rw [received.socket, onReceived_of_calls calls]
  have synced : r'.synced = r.synced := by
    rw [received.synced, socket]
    exact synced_of_state tracks id
  have before : r.done = r.conn.delivered.length := by simp [Receiver.done, received.idle]
  have now : seg.sequenceNumber = r.conn.socket.acknowledgementNumber := calls.2.2.2.2.1
  have acked : r.synced → peer.Acknowledged seg.sequenceNumber r.conn.delivered.length r.finReceived := by
    rw [now, ← before]
    exact inOrder.acknowledged
  have early : r.synced = false → seg.payload = [] := fun unsynced =>
    by_contra fun data => (meets.1 data calls.2.1).2 unsynced now
  have next : seg.payload <+: peer.stream.drop r.conn.delivered.length := by
    by_cases data : seg.payload = []
    · simp [data]
    · obtain ⟨⟨i, -, piece, before, behind⟩, -⟩ := meets.1 data calls.2.1
      have known : r.synced := by simpa using mt early data
      exact piece.comes_next before behind (acked known)
  refine ⟨?_, fun isSynced => ?_, fun unsynced => ?_⟩
  · rw [delivered]
    obtain ⟨rest, whole⟩ := inOrder.ordered
    rw [← whole, drop_left] at next
    rw [← whole, prefix_append_right_inj]
    exact next
  · rw [socket, received.done, received.finReceived, ← now]
    exact (acked (synced.symm.trans isSynced)).mono
  · rw [synced] at unsynced
    rw [delivered, inOrder.unsynced unsynced, early unsynced]
    rfl

theorem receive_other (sends : peer.Sends seg) (received : Received alloc seg r r')
    (calls : ¬Calls r.conn.socket seg) (meets : peer.Meets r (.receive alloc seg)) : peer.InOrder r' := by
  have delivered : r'.conn.delivered = r.conn.delivered := by simp [received.delivered, calls]
  have before : r.done = r.conn.delivered.length := by simp [Receiver.done, received.idle]
  have moves : Moves r.conn.socket seg r'.conn.socket := by
    rw [received.socket]
    exact onReceived_moves
  refine ⟨delivered ▸ inOrder.ordered, fun isSynced => ?_, fun unsynced => ?_⟩
  case refine_2 =>
    rw [received.synced, Bool.or_eq_false_iff] at unsynced
    exact delivered.trans (inOrder.unsynced unsynced.1)
  rw [received.done]
  cases known : r.synced
  case true =>
    have notEarly : ¬r.conn.socket.state.Unsynced := fun early => by simp [tracks.early early] at known
    by_cases fin : seg.IsFin
    case pos =>
      -- the FIN stands behind the stream, and so does what was delivered
      obtain ⟨empty, all⟩ := meets.2 fin known
      obtain ⟨i, number, -, last⟩ : ∃ i, peer.Piece seg i := by simpa [fin.2.1] using sends.2
      obtain rfl : i = peer.stream.length := by simpa [empty] using last fin.1
      rw [received.socket, onReceived_isFin fin, number, all]
      exact .inr ⟨rfl, by simp [received.finReceived, fin], rfl⟩
    case neg =>
      have same := moves.acknowledges.resolve_right fun early => notEarly early.1
      rw [same.1 fin, received.finReceived, ← before]
      exact (inOrder.acknowledged known).mono
  case false =>
    -- only a SYN makes a socket that waits for it one that has received it
    have early : r.conn.socket.state.Unsynced := by
      by_contra late
      simp [tracks.late received.alive late] at known
    have late : r'.conn.socket.state ≠ .closed ∧ ¬r'.conn.socket.state.Unsynced := by
      simpa [received.synced, known] using isSynced
    rcases moves.acknowledges with ⟨-, stays⟩ | ⟨-, syn, ack⟩
    · exact absurd (stays early) (by simp [late.1, late.2])
    · have number : seg.sequenceNumber = peer.irs := by simpa [syn] using sends.2
      left
      rw [ack, number, inOrder.unsynced known]
      simp [Peer.number]

theorem receive_inOrder (taken : peer.step r (.receive alloc seg) r')
    (meets : peer.Meets r (.receive alloc seg)) : peer.InOrder r' := by
  have sends := taken.2 alloc seg rfl
  have received := Receiver.received sends taken.1
  by_cases calls : Calls r.conn.socket seg
  · exact receive_calls tracks inOrder received calls meets
  · exact receive_other tracks inOrder sends received calls meets

end

theorem settle_early (early : socket.state = .closed ∨ socket.state.Unsynced) :
    (settle socket).state = .closed ∨ (settle socket).state.Unsynced := by
  unfold settle
  split
  · exact .inl rfl
  · exact early

theorem Peer.Acknowledged.handled {ack : BitVec 32} {n : Nat} {fin : Bool} {payload : List Byte}
    (acked : peer.Acknowledged ack n fin) (inside : n + payload.length ≤ peer.stream.length)
    (taken : accepts ∨ payload = []) :
    peer.Acknowledged (if accepts then ack + BitVec.ofNat 32 payload.length else ack)
      (n + payload.length) fin := by
  by_cases empty : payload = []
  case pos => cases accepts <;> simpa [empty] using acked
  case neg =>
    have pos : 0 < payload.length := length_pos_iff.mpr empty
    -- the FIN stands behind the stream, so that no data was left when it was counted
    have right : ack = peer.number n := acked.resolve_right fun ⟨_, _, all⟩ => by omega
    left
    rw [if_pos (taken.resolve_right empty), right, number_add]

section

variable (tracks : r.Tracks) (inOrder : peer.InOrder r)
include tracks inOrder

theorem handled_inOrder (taken : r.exec (.handled alloc accepts) = some r')
    (meets : peer.Meets r (.handled alloc accepts)) : peer.InOrder r' := by
  obtain ⟨c, executes, after⟩ := Option.map_eq_some_iff.mp taken
  obtain ⟨payload, call, result⟩ := Option.map_eq_some_iff.mp executes
  have length : r.done + payload.length = r.conn.delivered.length := by
    have le := (tracks.pending payload call).length_le
    simp only [Receiver.done, call, Option.map_some, Option.getD_some]
    omega
  have synced : r'.synced = r.synced := by
    rw [← after]
    apply synced_of_state tracks
    intro early
    simp only [← result, Conn.move, onHandled_socket]
    apply settle_early
    cases accepts <;> exact early
  have delivered : r'.conn.delivered = r.conn.delivered := by
    rw [← after, ← result]
    rfl
  refine ⟨delivered ▸ inOrder.ordered, fun isSynced => ?_, fun unsynced => ?_⟩
  · have accepted : accepts ∨ payload = [] := by simpa [Peer.Meets, call] using meets
    have acked := (inOrder.acknowledged (synced.symm.trans isSynced)).handled
      (length ▸ inOrder.ordered.length_le) accepted
    have ack : r'.conn.socket.acknowledgementNumber =
        if accepts then r.conn.socket.acknowledgementNumber + BitVec.ofNat 32 payload.length
        else r.conn.socket.acknowledgementNumber := by
      simp only [← after, ← result, Conn.move, onHandled_socket, settle_acknowledgementNumber]
      cases accepts <;> rfl
    have done : r'.done = r.done + payload.length := by
      rw [length, ← after, ← result]
      rfl
    have fin : r'.finReceived = r.finReceived := by
      rw [← after]
      exact Bool.or_false _
    rw [ack, done, fin]
    exact acked
  · exact delivered.trans (inOrder.unsynced (synced.symm.trans unsynced))

/-- What the owner of a socket does, or its handler, changes nothing of what was received. -/
theorem owner_inOrder (taken : r.exec op = some r')
    (ack : ∀ c, r.conn.exec op = some c → c.call = r.conn.call ∧ c.delivered = r.conn.delivered ∧
      c.socket.acknowledgementNumber = r.conn.socket.acknowledgementNumber ∧
      (r.conn.socket.state = .closed ∨ r.conn.socket.state.Unsynced → c.socket.state = r.conn.socket.state))
    (notFin : op.isFin = false) : peer.InOrder r' := by
  obtain ⟨c, executes, rfl⟩ := Option.map_eq_some_iff.mp taken
  obtain ⟨call, delivered, number, state⟩ := ack c executes
  have synced : (r.synced || decide (c.socket.state ≠ .closed ∧ ¬c.socket.state.Unsynced)) = r.synced :=
    synced_of_state tracks fun early => state early ▸ early
  constructor
  · exact delivered ▸ inOrder.ordered
  · intro isSynced
    have acked := inOrder.acknowledged (synced.symm.trans isSynced)
    simpa only [Receiver.done, call, delivered, number, notFin, Bool.or_false] using acked
  · intro unsynced
    exact delivered.trans (inOrder.unsynced (synced.symm.trans unsynced))

theorem Peer.InOrder.step (taken : peer.step r op r') (meets : peer.Meets r op) : peer.InOrder r' := by
  cases op with
  | receive alloc seg => exact receive_inOrder tracks inOrder taken meets
  | handled alloc accepts => exact handled_inOrder tracks inOrder taken.1 meets
  | send alloc data =>
    refine owner_inOrder tracks inOrder taken.1 ?_ rfl
    intro c executes
    cases executes
    refine ⟨rfl, rfl, ?_, ?_⟩ <;> unfold socketSend <;> split <;> cases alloc <;> simp [Conn.move, providerSend]
  | disconnect alloc =>
    refine owner_inOrder tracks inOrder taken.1 ?_ rfl
    intro c executes
    cases executes
    cases state : r.conn.socket.state <;> simp [Conn.move, providerDisconnect, sendFin, state, State.Unsynced]
  | bind bound =>
    refine owner_inOrder tracks inOrder taken.1 ?_ rfl
    intro c executes
    cases executes
    exact ⟨rfl, rfl, rfl, fun _ => rfl⟩

end

theorem Conn.Starts.tracks (starts : c.Starts) : (start c).Tracks ∧ peer.InOrder (start c) := by
  cases starts with
  | connect alloc localIp freePort ip port ack =>
    have state : (connectSocket localIp freePort ip port ack).state = .synSent := rfl
    constructor <;> constructor <;> simp [start, Conn.fresh, State.Unsynced, state]
  | listen localIp port memory =>
    have state : (listenSocket localIp port memory).state = .listen := rfl
    constructor <;> constructor <;> simp [start, Conn.fresh, State.Unsynced, state]

end

/-- In every run of a connection that receives segments of one peer and whose steps meet the
condition, what the handler is given is always what the peer has sent so far, and this is what is
acknowledged. -/
theorem delivered_inOrder {peer : Peer} {c₀ : Conn} {r : Receiver} {history : List (Receiver × Op)}
    (starts : c₀.Starts) (run : Run peer.step (.start c₀) history r)
    (meets : ∀ e ∈ history, peer.Meets e.1 e.2) : peer.InOrder r := by
  have initial : (start c₀).Tracks ∧ peer.InOrder (.start c₀) := starts.tracks
  have holds : (r.Tracks ∧ peer.InOrder r) ∧ ∀ e ∈ history, e.1.Tracks ∧ peer.InOrder e.1 :=
    run.invariant_of_guard (I := fun r => r.Tracks ∧ peer.InOrder r) (G := peer.Meets) initial
      (fun _ _ _ holds meets taken => ⟨holds.1.step taken, holds.2.step holds.1 taken meets⟩) meets
  exact holds.1.2

/-! ### Three bytes -/

instance (peer : Peer) (r : Receiver) (op : Op) : Decidable (peer.Meets r op) := by
  induction op using Op.casesOn <;> unfold Peer.Meets <;> infer_instance

def threeBytes : Peer := ⟨1000, [1, 2, 3]⟩

/-- Segments of that peer: its SYN, its first byte, all three bytes, and its FIN with two bytes or
none. -/
def threeBytesSegments : List Segment :=
  [answer 1000 (iss + 1) { syn := true, ack := true } [], answer 1001 (iss + 1) { ack := true } [1],
    answer 1001 (iss + 1) { ack := true } [1, 2, 3], answer 1002 (iss + 1) { fin := true, ack := true } [2, 3],
    answer 1004 (iss + 1) { fin := true, ack := true } []]

theorem threeBytes_sends : ∀ seg ∈ threeBytesSegments, threeBytes.Sends seg := by
  have data : ∀ i seg, seg.payload.length < 65536 ∧ seg.flags.syn = false ∧ seg.sequenceNumber = threeBytes.number i ∧
      seg.payload <+: threeBytes.stream.drop i ∧ (seg.flags.fin → i + seg.payload.length = 3) →
      threeBytes.Sends seg := by
    rintro i seg ⟨short, syn, number, carries, fin⟩
    refine ⟨short, ?_⟩
    rw [if_neg (by simp [syn])]
    exact ⟨i, number, carries, fin⟩
  simp only [threeBytesSegments, forall_mem_cons]
  refine ⟨⟨by decide, rfl⟩, data 0 _ (by decide), data 0 _ (by decide), data 1 _ (by decide), data 3 _ (by decide), ?_⟩
  simp

/-- A step in which only these segments are received. -/
def Op.OfThreeBytes : Op → Prop
  | .receive _ seg => seg ∈ threeBytesSegments
  | _ => True

instance (op : Op) : Decidable op.OfThreeBytes := by
  induction op using Op.casesOn <;> unfold Op.OfThreeBytes <;> infer_instance

theorem threeBytes_run {ops : List Op} {G : Receiver → Op → Prop} [∀ r op, Decidable (G r op)] {r : Receiver}
    (ends : ops.foldlM (guarded (guarded exec fun _ op => op.OfThreeBytes) G) (.start clientStart) = some r) :
    ∃ history, Run threeBytes.step (.start clientStart) history r ∧ ∀ e ∈ history, G e.1 e.2 := by
  obtain ⟨history, run, -, meets⟩ := exists_run_of_foldlM ends
  refine ⟨history, run.mono fun s op s' taken => ?_, meets⟩
  unfold guarded at taken
  split at taken
  case isFalse => cases taken
  case isTrue ours =>
    refine ⟨taken, ?_⟩
    rintro alloc seg rfl
    exact threeBytes_sends seg ours

theorem three_bytes_and_fin : ∃ r history, Run threeBytes.step (.start clientStart) history r ∧
    r.conn.delivered = [1, 2, 3] ∧ r.conn.socket.acknowledgementNumber = 1005 ∧ threeBytes.InOrder r := by
  have values : ([.receive true (answer 1000 (iss + 1) { syn := true, ack := true } []), .bind true,
      .receive true (answer 1001 (iss + 1) { ack := true } [1, 2, 3]), .handled true true,
      .receive true (answer 1004 (iss + 1) { fin := true, ack := true } [])].foldlM
        (guarded (guarded exec fun _ op => op.OfThreeBytes) threeBytes.Meets) (.start clientStart)).map
        (fun r => (r.conn.delivered, r.conn.socket.acknowledgementNumber)) = some ([1, 2, 3], 1005) := by
    decide +kernel
  obtain ⟨r, ends, value⟩ := Option.map_eq_some_iff.mp values
  obtain ⟨history, run, meets⟩ := threeBytes_run ends
  refine ⟨r, history, run, congrArg Prod.fst value, congrArg Prod.snd value, ?_⟩
  exact delivered_inOrder (.connect true 0x0f02000a 1024 0x0202000a 80 0) run meets

/-- The last two bytes come with the FIN: they are not delivered, and the number behind the first of
them is acknowledged. -/
theorem fin_data_lost : ∃ r history, Run threeBytes.step (.start clientStart) history r ∧
    r.conn.delivered = [1] ∧ r.conn.socket.acknowledgementNumber = threeBytes.number 2 ∧ ¬threeBytes.InOrder r := by
  have values : ([.receive true (answer 1000 (iss + 1) { syn := true, ack := true } []), .bind true,
      .receive true (answer 1001 (iss + 1) { ack := true } [1]), .handled true true,
      .receive true (answer 1002 (iss + 1) { fin := true, ack := true } [2, 3])].foldlM
        (guarded (guarded exec fun _ op => op.OfThreeBytes) fun _ _ => True) (.start clientStart)).map
        (fun r => (r.conn.delivered, r.conn.socket.acknowledgementNumber, r.synced, r.done)) =
          some ([1], threeBytes.number 2, true, 1) := by
    decide +kernel
  obtain ⟨r, ends, value⟩ := Option.map_eq_some_iff.mp values
  obtain ⟨history, run, -⟩ := threeBytes_run ends
  simp only [Prod.mk.injEq] at value
  obtain ⟨delivered, ack, synced, done⟩ := value
  refine ⟨r, history, run, delivered, ack, fun inOrder => ?_⟩
  have acked := inOrder.acknowledged synced
  rw [ack, done] at acked
  rcases acked with wrong | ⟨-, -, all⟩
  · exact absurd wrong (by decide)
  · exact absurd all (by decide)

end Jlos.Net.Tcp
