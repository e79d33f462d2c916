import Jlos.Lib.Run
import Jlos.Net.Tcp

/-!
# One TCP connection

A socket from its creation on: segments reach it, its handler works on their payload, and its owner
or its handler sends and disconnects. The segments sent and the bytes handed to the handler are
recorded.
-/
namespace Jlos.Net.Tcp

open Lib List

/-- A connection; `call` is the payload its handler is working on, and `opened` says whether it has
been established. -/
structure Conn where
  socket : Socket
  call : Option (List Byte)
  sent : List Segment
  delivered : List Byte
  opened : Bool
  deriving DecidableEq, Repr

inductive Op
  | receive (alloc : Bool) (seg : Segment)
  | handled (alloc accepts : Bool)
  | send (alloc : Bool) (data : List Byte)
  | disconnect (alloc : Bool)
  | bind (bound : Bool)

namespace Conn

/-- A connection whose socket has changed and that has sent segments. -/
def move (c : Conn) (sends : Socket × List Segment) : Conn :=
  { c with
    socket := sends.1
    sent := c.sent ++ sends.2
    opened := c.opened || decide (sends.1.state = .established) }

/-- A segment that belongs to the socket is received up to the call of the handler; no other one is
received before that call has come back. -/
def exec (c : Conn) : Op → Option Conn
  | .receive alloc seg =>
    if c.call = none ∧ matchSocket seg c.socket then
      let result := onReceived alloc c.socket seg
      some { c.move (result.1, result.2.1) with
        call := result.2.2, delivered := c.delivered ++ (result.2.2.map handed).getD [] }
    else none
  | .handled alloc accepts => c.call.map fun payload =>
    { c.move (onHandled alloc c.socket payload accepts) with call := none }
  | .send alloc data => some (c.move (socketSend alloc c.socket data))
  | .disconnect alloc => some (c.move (providerDisconnect alloc c.socket))
  | .bind bound => some { c with socket := { c.socket with bound := bound } }

def step (c : Conn) (op : Op) (c' : Conn) : Prop := c.exec op = some c'

def fresh (socket : Socket) (sent : List Segment) : Conn := ⟨socket, none, sent, [], false⟩

/-- The connection of a socket that connects or listens. -/
inductive Starts : Conn → Prop
  | connect (alloc : Bool) (localIp : BitVec 32) (freePort : BitVec 16) (ip : BitVec 32) (port : BitVec 16)
      (ack : BitVec 32) :
      Starts (fresh (connectSocket localIp freePort ip port ack)
        (providerSend alloc (connectSocket localIp freePort ip port ack) [] { syn := true }).2)
  | listen (localIp : BitVec 32) (port : BitVec 16) (memory : Socket) :
      Starts (fresh (listenSocket localIp port memory) [])

end Conn

/-! ### The number of the next byte -/

def sentBytes (sent : List Segment) : List Byte := sent.flatMap Segment.payload

def finSent (sent : List Segment) : Bool := sent.any fun seg => seg.flags.fin

namespace Conn

/-- The sequence number counts the SYN, the bytes sent and the FIN. -/
def Numbered (c : Conn) : Prop :=
  c.opened → c.socket.sequenceNumber =
    iss + 1 + BitVec.ofNat 32 (sentBytes c.sent).length + if finSent c.sent then 1 else 0

/-- A connection is only established by a segment that acknowledges our SYN. -/
def OpensRightly (c : Conn) (op : Op) : Prop :=
  ∀ c', c.exec op = some c' → c.socket.state ≠ .established → c'.socket.state = .established →
    ∃ alloc seg, op = .receive alloc seg ∧ seg.acknowledgementNumber = iss + 1

end Conn

/-- A segment that establishes a connection. -/
def Opens (socket : Socket) (seg : Segment) : Prop :=
  seg.flags.rst = false ∧ seg.flags.fin = false ∧ seg.flags.ack ∧
    ((socket.state = .synSent ∧ seg.flags.syn) ∨ (socket.state = .synReceived ∧ seg.flags.syn = false))
  deriving Decidable

/-- A socket that sends a FIN when it is disconnected. -/
def Socket.Disconnects (socket : Socket) : Prop := socket.state = .established ∨ socket.state = .closeWait
  deriving Decidable

/-- A segment that establishes the connection acknowledges exactly our SYN, and the FIN finds a
buffer. -/
def Conn.Meets (c : Conn) : Op → Prop
  | .receive _ seg => Opens c.socket seg → seg.acknowledgementNumber = iss + 1
  | .disconnect alloc => c.socket.Disconnects → alloc
  | _ => True

instance (c : Conn) (op : Op) : Decidable (c.Meets op) := by
  cases op <;> unfold Conn.Meets <;> infer_instance

/-- The states of a socket before its connection is established. -/
def State.Early (state : State) : Prop := state = .listen ∨ state = .synSent ∨ state = .synReceived

/-- What the state of a socket says about what was sent. -/
structure Conn.Staged (c : Conn) : Prop where
  silent : c.opened = false → sentBytes c.sent = [] ∧ finSent c.sent = false
  unfinished : c.socket.Disconnects → finSent c.sent = false
  early : c.socket.state.Early → c.opened = false
  late : c.opened = false → c.socket.state = .closed ∨ c.socket.state.Early

open Conn

section

variable {alloc accepts : Bool} {socket next : Socket} {seg : Segment} {sent more : List Segment}
  {c c' : Conn} {op : Op}

theorem sentBytes_append : sentBytes (sent ++ more) = sentBytes sent ++ sentBytes more := by
  simp [sentBytes]

theorem finSent_append : finSent (sent ++ more) = (finSent sent || finSent more) := by
  simp [finSent]

@[simp] theorem sentBytes_segment {data : List Byte} {flags : Flags} :
    sentBytes [socket.segment data flags] = data := by
  simp [sentBytes]

@[simp] theorem finSent_segment {data : List Byte} {flags : Flags} :
    finSent [socket.segment data flags] = flags.fin := by
  simp [finSent, Socket.segment]

theorem sentBytes_of_empty (empty : ∀ s ∈ more, s.Empty) : sentBytes more = [] :=
  flatMap_eq_nil_iff.mpr fun s mem => (empty s mem).1

theorem finSent_of_empty (empty : ∀ s ∈ more, s.Empty) : finSent more = false := by
  unfold finSent
  rw [any_eq_false]
  intro s mem
  simp [(empty s mem).2]

theorem onReceived_opens (opens : Opens socket seg) : (onReceived alloc socket seg).1.state = .established ∧
      (onReceived alloc socket seg).1.sequenceNumber = seg.acknowledgementNumber := by
  obtain ⟨rst, fin, ack, ⟨state, syn⟩ | ⟨state, syn⟩⟩ := opens
  · have calls : ¬Calls socket seg := fun calls => by simp [calls.2.1] at syn
    rw [onReceived_of_not_calls calls rst, finish_socket]
    simp [onFlags, syn, ack, fin, onSynAck, state, settle]
  · have calls : ¬Calls socket seg := fun calls => by simpa [state] using calls.2.2.2.1 ack
    rw [onReceived_of_not_calls calls rst, finish_socket]
    simp [onFlags, syn, ack, fin, onAck, state, settle]

/-- How the state of a socket moves when its connection is not opened: it stays early or late or is
closed, and a socket that has yet to send its FIN is one that had it to send before. -/
structure Follows (socket next : Socket) : Prop where
  early : next.state.Early → socket.state.Early
  late : socket.state = .closed ∨ socket.state.Early → next.state = .closed ∨ next.state.Early
  unfinished : next.Disconnects → socket.Disconnects
  open_ : next.state = .established → socket.state = .established
  number : next.sequenceNumber = socket.sequenceNumber ∨ socket.state.Early

theorem Moves.follows (moves : Moves socket seg next) (quiet : ¬Opens socket seg) : Follows socket next := by
  cases moves with
  | stays => exact ⟨id, id, id, id, .inl rfl⟩
  | resets rst => constructor <;> simp [State.Early, Socket.Disconnects]
  | accepts listens => constructor <;> simp [State.Early, Socket.Disconnects, listens]
  | connects sent syn ack fin rst => exact absurd ⟨rst, fin, ack, .inl ⟨sent, syn⟩⟩ quiet
  | confirms received syn ack fin rst => exact absurd ⟨rst, fin, ack, .inr ⟨received, syn⟩⟩ quiet
  | closes next syn fin rst moved =>
    rcases moved with rfl | ⟨was, rfl⟩ | ⟨was | was | was, rfl | rfl⟩ <;>
      constructor <;> simp_all [State.Early, Socket.Disconnects]
  | acks next moved =>
    rcases moved with ⟨was, rfl⟩ | ⟨was, rfl⟩ | ⟨was, rfl⟩ | ⟨was, rfl⟩ <;>
      constructor <;> simp_all [State.Early, Socket.Disconnects]

theorem follows_settle (ack : BitVec 32) : Follows socket (settle { socket with acknowledgementNumber := ack }) := by
  unfold settle
  split
  · constructor <;> simp [State.Early, Socket.Disconnects]
  · exact ⟨id, id, id, id, .inl rfl⟩

theorem follows_onHandled (alloc : Bool) (socket : Socket) (payload : List Byte) (accepts : Bool) :
    Follows socket (onHandled alloc socket payload accepts).1 := by
  rw [onHandled_socket]
  cases accepts
  · exact follows_settle socket.acknowledgementNumber
  · exact follows_settle _

theorem Conn.Staged.follow (staged : c.Staged) (follows : Follows c.socket next) (empty : ∀ s ∈ more, s.Empty)
    (socket : c'.socket = next) (sent : c'.sent = c.sent ++ more)
    (opened : c'.opened = (c.opened || decide (next.state = .established))) :
    c'.Staged ∧ (c.Numbered → c'.Numbered) := by
  have bytes : sentBytes c'.sent = sentBytes c.sent := by
    rw [sent, sentBytes_append, sentBytes_of_empty empty, append_nil]
  have fin : finSent c'.sent = finSent c.sent := by
    rw [sent, finSent_append, finSent_of_empty empty, Bool.or_false]
  -- The step does not open the connection.
  have same : c'.opened = c.opened := by
    rw [opened]
    cases before : c.opened
    case true => rfl
    case false =>
      have unopened : next.state ≠ .established := by
        intro established
        rcases staged.late before with closed | early
        · simp [follows.open_ established] at closed
        · simp [State.Early, follows.open_ established] at early
      simpa using unopened
  constructor
  · constructor
    · rw [same, bytes, fin]
      exact staged.silent
    · rw [socket, fin]
      exact fun unfinished => staged.unfinished (follows.unfinished unfinished)
    · rw [socket, same]
      exact fun early => staged.early (follows.early early)
    · rw [socket, same]
      exact fun unopened => follows.late (staged.late unopened)
  · unfold Conn.Numbered
    rw [same, bytes, fin, socket]
    intro numbered isOpen
    rcases follows.number with number | early
    · rw [number]
      exact numbered isOpen
    · rw [staged.early early] at isOpen
      cases isOpen

/-- A segment is received only if it belongs to the socket and the handler is not at work. -/
theorem Conn.exec_receive (taken : c.exec (.receive alloc seg) = some c') :
    c.call = none ∧ matchSocket seg c.socket ∧ c' =
      { c.move ((onReceived alloc c.socket seg).1, (onReceived alloc c.socket seg).2.1) with
        call := (onReceived alloc c.socket seg).2.2
        delivered := c.delivered ++ ((onReceived alloc c.socket seg).2.2.map handed).getD [] } := by
  obtain ⟨idle, ⟨⟩⟩ := Option.ite_none_right_eq_some.mp taken
  exact ⟨idle.1, idle.2, rfl⟩

section

variable (staged : c.Staged)
include staged

theorem receive_exact (taken : c.exec (.receive alloc seg) = some c') :
    c'.Staged ∧ (c.Numbered → (c'.Numbered ↔ c.Meets (.receive alloc seg))) := by
  obtain ⟨-, -, rfl⟩ := exec_receive taken
  by_cases opens : Opens c.socket seg
  case neg =>
    have follows : Follows c.socket (onReceived alloc c.socket seg).1 := onReceived_moves.follows opens
    refine ⟨(staged.follow follows onReceived_empty rfl rfl rfl).1, fun numbered => ?_⟩
    exact iff_of_true ((staged.follow follows onReceived_empty rfl rfl rfl).2 numbered) fun now => absurd now opens
  case pos =>
    obtain ⟨state, number⟩ : (onReceived alloc c.socket seg).1.state = .established ∧
        (onReceived alloc c.socket seg).1.sequenceNumber = seg.acknowledgementNumber := onReceived_opens opens
    have early : c.socket.state.Early := by
      rcases opens.2.2.2 with ⟨was, -⟩ | ⟨was, -⟩ <;> simp [State.Early, was]
    have silent := staged.silent (staged.early early)
    have bytes : sentBytes (c.sent ++ (onReceived alloc c.socket seg).2.1) = [] := by
      rw [sentBytes_append, sentBytes_of_empty onReceived_empty, silent.1, append_nil]
    have fin : finSent (c.sent ++ (onReceived alloc c.socket seg).2.1) = false := by
      rw [finSent_append, finSent_of_empty onReceived_empty, silent.2, Bool.or_false]
    constructor
    · constructor <;> simp [move, State.Early, state, fin]
    · intro _
      simp [Conn.Meets, Conn.Numbered, move, opens, state, number, bytes, fin]

theorem Conn.Staged.established (state : c.socket.state = .established) : c.opened := by
  by_contra unopened
  rcases staged.late (by simpa using unopened) with closed | early
  · simp [state] at closed
  · simp [State.Early, state] at early

theorem Conn.Staged.move_same : c.move (c.socket, []) = c := by
  have opened : (c.opened || decide (c.socket.state = .established)) = c.opened := by
    by_cases state : c.socket.state = .established
    · simp [staged.established state]
    · simp [state]
  simp [move, opened]

theorem disconnect_exact : (c.move (providerDisconnect alloc c.socket)).Staged ∧
      (c.Numbered → ((c.move (providerDisconnect alloc c.socket)).Numbered ↔ c.Meets (.disconnect alloc))) := by
  by_cases disconnects : c.socket.Disconnects
  case neg =>
    have same : providerDisconnect alloc c.socket = (c.socket, []) := by
      unfold providerDisconnect
      split <;> simp_all [Socket.Disconnects]
    rw [same, staged.move_same]
    exact ⟨staged, fun numbered => iff_of_true numbered fun now => absurd now disconnects⟩
  case pos =>
    obtain ⟨next, which, sends⟩ : ∃ next, (next = .finWait1 ∨ next = .lastAck) ∧
        providerDisconnect alloc c.socket = sendFin alloc c.socket next := by
      rcases disconnects with state | state
      · exact ⟨.finWait1, .inl rfl, by simp [providerDisconnect, state]⟩
      · exact ⟨.lastAck, .inr rfl, by simp [providerDisconnect, state]⟩
    have opened : c.opened := by
      by_contra unopened
      rcases disconnects with state | state <;>
        rcases staged.late (by simpa using unopened) with closed | early <;> simp_all [State.Early]
    have unsent := staged.unfinished disconnects
    rw [sends]
    constructor
    · constructor <;> rcases which with rfl | rfl <;>
        cases alloc <;> simp [move, sendFin, providerSend, opened, Socket.Disconnects, State.Early]
    · intro numbered
      have before := numbered opened
      rw [unsent] at before
      cases alloc
      case false => simp [Conn.Meets, disconnects, Conn.Numbered, move, sendFin, providerSend, opened, before, unsent]
      case true =>
        simp [Conn.Meets, disconnects, Conn.Numbered, move, sendFin, providerSend, opened, before, sentBytes_append,
          finSent_append]

theorem send_exact (data : List Byte) : (c.move (socketSend alloc c.socket data)).Staged ∧
      (c.Numbered → (c.move (socketSend alloc c.socket data)).Numbered) := by
  by_cases state : c.socket.state = .established
  case neg => simpa [socketSend, state, staged.move_same] using staged
  cases alloc
  case false => simpa [socketSend, state, providerSend, staged.move_same] using staged
  have opened : c.opened := staged.established state
  have unsent := staged.unfinished (.inl state)
  constructor
  · constructor <;> simp [move, socketSend, providerSend, state, opened, State.Early, finSent_append, unsent]
  · intro numbered
    have before := numbered opened
    simp [Conn.Numbered, move, socketSend, state, providerSend, opened, before, unsent, sentBytes_append,
      finSent_append, BitVec.ofNat_add, BitVec.add_assoc]

theorem Conn.Staged.exec (taken : c.exec op = some c') : c'.Staged ∧ (c.Numbered → (c'.Numbered ↔ c.Meets op)) := by
  cases op with
  | receive alloc seg => exact receive_exact staged taken
  | handled alloc accepts =>
    obtain ⟨payload, -, rfl⟩ := Option.map_eq_some_iff.mp taken
    have follows := follows_onHandled alloc c.socket payload accepts
    refine ⟨(staged.follow follows onHandled_empty rfl rfl rfl).1, fun numbered => ?_⟩
    exact iff_of_true ((staged.follow follows onHandled_empty rfl rfl rfl).2 numbered) trivial
  | send alloc data =>
    cases taken
    exact ⟨(send_exact staged data).1, fun numbered => iff_of_true ((send_exact staged data).2 numbered) trivial⟩
  | disconnect alloc =>
    cases taken
    exact disconnect_exact staged
  | bind bound =>
    cases taken
    exact ⟨{ staged with }, fun numbered => iff_of_true numbered trivial⟩

end

theorem Conn.Starts.staged (starts : c.Starts) : c.Staged ∧ c.Numbered := by
  cases starts with
  | connect alloc localIp freePort ip port ack =>
    have empty : ∀ s ∈ (providerSend alloc (connectSocket localIp freePort ip port ack) []
      { syn := true }).2, s.Empty :=
      providerSend_empty rfl
    have state : (connectSocket localIp freePort ip port ack).state = .synSent := rfl
    constructor
    · constructor <;>
        simp [fresh, state, Socket.Disconnects, State.Early, sentBytes_of_empty empty, finSent_of_empty empty]
    · simp [fresh, Conn.Numbered]
  | listen localIp port memory =>
    constructor
    · constructor <;> simp [fresh, listenSocket, Socket.Disconnects, State.Early, sentBytes, finSent]
    · simp [fresh, Conn.Numbered]

/-- A connection is only established by a segment that opens it. -/
theorem Conn.opens_of_established (taken : c.exec op = some c') (before : c.socket.state ≠ .established)
    (after : c'.socket.state = .established) : ∃ alloc seg, op = .receive alloc seg ∧ Opens c.socket seg := by
  cases op with
  | receive alloc seg =>
    refine ⟨alloc, seg, rfl, ?_⟩
    by_contra quiet
    obtain ⟨-, -, rfl⟩ := exec_receive taken
    exact before ((onReceived_moves.follows quiet).open_ after)
  | handled alloc accepts =>
    obtain ⟨payload, -, rfl⟩ := Option.map_eq_some_iff.mp taken
    exact absurd ((follows_onHandled alloc c.socket payload accepts).open_ after) before
  | send alloc data =>
    cases taken
    simp [move, socketSend, before] at after
  | disconnect alloc =>
    cases taken
    cases state : c.socket.state <;> simp_all [move, providerDisconnect, sendFin, providerSend_nil_socket]
  | bind bound =>
    cases taken
    exact absurd after before

end

/-- In every run of a connection, the connection is only established by a segment that acknowledges
our SYN and the sequence number counts what was sent from then on, exactly if every segment that
establishes it acknowledges our SYN and every FIN finds a buffer. -/
theorem numbered_iff {c₀ c : Conn} {history : List (Conn × Op)} (starts : c₀.Starts)
    (run : Run Conn.step c₀ history c) :
    ((c.Numbered ∧ ∀ e ∈ history, e.1.Numbered) ∧ ∀ e ∈ history, e.1.OpensRightly e.2) ↔
      ∀ e ∈ history, e.1.Meets e.2 := by
  obtain ⟨staged, numbered⟩ := starts.staged
  have preserved : ∀ c op c', c.Staged → step c op c' → c'.Staged := fun _ _ _ holds taken => (holds.exec taken).1
  have exact_step : ∀ c op c', c.Staged → c.Numbered → step c op c' → (c'.Numbered ↔ c.Meets op) :=
    fun _ _ _ holds before taken => (holds.exec taken).2 before
  rw [Run.forall_states_iff staged preserved numbered exact_step run]
  constructor
  · exact fun both => both.1
  · intro meets
    refine ⟨meets, fun e mem c' taken before after => ?_⟩
    obtain ⟨alloc, seg, op, opens⟩ := opens_of_established taken before after
    have right := meets e mem
    rw [op] at right
    exact ⟨alloc, seg, op, right opens⟩

/-- A connection from port 1024 of `10.0.2.15` to port 80 of `10.0.2.2`. -/
def clientSocket : Socket := connectSocket 0x0f02000a 1024 0x0202000a 80 0

/-- A segment from there. -/
def answer (sequenceNumber acknowledgementNumber : BitVec 32) (flags : Flags) (payload : List Byte) : Segment :=
  ⟨0x0202000a, 0x0f02000a, swapEndian16 80, swapEndian16 1024, sequenceNumber, acknowledgementNumber, flags, 5, payload⟩

def clientStart : Conn := .fresh clientSocket (providerSend true clientSocket [] { syn := true }).2

theorem two_bytes_and_fin :
    ∃ c history, Run Conn.step clientStart history c ∧ c.socket.sequenceNumber = iss + 4 ∧ c.Numbered := by
  have values : ([.receive true (answer 1000 (iss + 1) { syn := true, ack := true } []), .send true [1, 2],
      .disconnect true].foldlM (guarded exec Conn.Meets) clientStart).map
        (fun c => (c.socket.sequenceNumber, c.opened)) = some (iss + 4, true) := by
    decide +kernel
  obtain ⟨c, ends, value⟩ := Option.map_eq_some_iff.mp values
  obtain ⟨history, run, -, meets⟩ := exists_run_of_foldlM ends
  refine ⟨c, history, run, congrArg Prod.fst value, ?_⟩
  exact ((numbered_iff (.connect true 0x0f02000a 1024 0x0202000a 80 0) run).mpr meets).1.1

/-- A SYN and ACK that acknowledges something else establishes the connection, and the sequence
number is what it says. -/
theorem wrong_ack_opens : (clientStart.exec (.receive true (answer 1000 7 { syn := true, ack := true } []))).map
        (fun c => (c.socket.state, c.socket.sequenceNumber)) = some (.established, 7) ∧ iss + 1 ≠ 7 := by
  decide +kernel

end Jlos.Net.Tcp
