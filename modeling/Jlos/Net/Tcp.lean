import Jlos.Net.Wire

/-!
# TCP

A shallow embedding of `net/tcp.c` for one socket: `jlos_tcp_provider_on_internet_protocol_received`
behind the search for the socket, `jlos_tcp_provider_send`, `jlos_tcp_socket_send` and
`jlos_tcp_provider_disconnect`. The receive function calls the handler of the socket in its middle,
and the handler may send or disconnect; so it comes in two parts, before and behind that call.
Whether the buffer of a segment to send can be allocated is an argument of each part: a part sends
at most one.
-/
namespace Jlos.Net.Tcp

/-- `jlos_tcp_socket_state_t` -/
inductive State
  | closed | listen | synSent | synReceived | established | finWait1 | finWait2 | closing | timeWait
      | closeWait | lastAck
  deriving DecidableEq, Repr

/-- The flags of `jlos_tcp_flag_t` that the code looks at or sets. -/
structure Flags where
  fin : Bool := false
  syn : Bool := false
  rst : Bool := false
  psh : Bool := false
  ack : Bool := false
  deriving DecidableEq, Repr

/-- A segment: the addresses of its packet, the fields of its header, ports as they stand there, and
the bytes behind the 20 bytes of the header. -/
structure Segment where
  srcIp : BitVec 32
  dstIp : BitVec 32
  srcPort : BitVec 16
  dstPort : BitVec 16
  sequenceNumber : BitVec 32
  acknowledgementNumber : BitVec 32
  flags : Flags
  dataOffset : Nat
  rest : List Byte
  deriving DecidableEq, Repr

namespace Segment

def size (seg : Segment) : Nat := 20 + seg.rest.length

def headerBytes (seg : Segment) : Nat := seg.dataOffset * 4

def payload (seg : Segment) : List Byte := seg.rest.drop (seg.headerBytes - 20)

/-- The header is whole: it has its minimal length and does not reach past the end. -/
def WellFormed (seg : Segment) : Prop := 5 ≤ seg.dataOffset ∧ seg.headerBytes ≤ seg.size
  deriving Decidable

end Segment

/-- `jlos_tcp_socket_t`; `bound` says whether it has a handler. -/
structure Socket where
  remotePort : BitVec 16
  remoteIp : BitVec 32
  localPort : BitVec 16
  localIp : BitVec 32
  sequenceNumber : BitVec 32
  acknowledgementNumber : BitVec 32
  bound : Bool
  state : State
  deriving DecidableEq, Repr

def iss : BitVec 32 := 0xbeefcafe

/-- The socket of `jlos_tcp_provider_connect`; its memory is not cleared, so its acknowledgement
number is any. -/
def connectSocket (localIp : BitVec 32) (freePort : BitVec 16) (ip : BitVec 32) (port : BitVec 16)
    (acknowledgementNumber : BitVec 32) : Socket where
  remotePort := swapEndian16 port
  remoteIp := ip
  localPort := swapEndian16 freePort
  localIp := localIp
  sequenceNumber := iss
  acknowledgementNumber := acknowledgementNumber
  bound := false
  state := .synSent

/-- The socket of `jlos_tcp_provider_listen`, over what was in its memory. -/
def listenSocket (localIp : BitVec 32) (port : BitVec 16) (memory : Socket) : Socket :=
  { memory with localPort := swapEndian16 port, localIp := localIp, bound := false, state := .listen }

/-! ### Sending -/

/-- The segment of `jlos_tcp_provider_send`. -/
def Socket.segment (socket : Socket) (data : List Byte) (flags : Flags) : Segment where
  srcIp := socket.localIp
  dstIp := socket.remoteIp
  srcPort := socket.localPort
  dstPort := socket.remotePort
  sequenceNumber := socket.sequenceNumber
  acknowledgementNumber := socket.acknowledgementNumber
  flags := flags
  dataOffset := if flags.syn then 6 else 5
  rest := (if flags.syn then [2, 4, 0x05, 0xb4] else []) ++ data

def providerSend (alloc : Bool) (socket : Socket) (data : List Byte) (flags : Flags) : Socket × List Segment :=
  if alloc then
    ({ socket with sequenceNumber := socket.sequenceNumber + BitVec.ofNat 32 data.length }, [socket.segment data flags])
  else (socket, [])

def socketSend (alloc : Bool) (socket : Socket) (data : List Byte) : Socket × List Segment :=
  if socket.state ≠ .established then (socket, []) else providerSend alloc socket data { psh := true, ack := true }

/-- Sends the FIN of a socket that goes to a state, and counts it. -/
def sendFin (alloc : Bool) (socket : Socket) (next : State) : Socket × List Segment :=
  let sends := providerSend alloc { socket with state := next } [] { fin := true, ack := true }
  ({ sends.1 with sequenceNumber := sends.1.sequenceNumber + 1 }, sends.2)

def providerDisconnect (alloc : Bool) (socket : Socket) : Socket × List Segment :=
  match socket.state with
  | .established => sendFin alloc socket .finWait1
  | .closeWait => sendFin alloc socket .lastAck
  | _ => (socket, [])

/-! ### Receiving -/

def matchSocket (seg : Segment) (socket : Socket) : Bool :=
  socket.localIp = seg.dstIp ∧ socket.localPort = seg.dstPort ∧ socket.state ≠ .closed ∧
    ((socket.state = .listen ∧ seg.flags.syn ∧ !seg.flags.ack) ∨
      (socket.remoteIp = seg.srcIp ∧ socket.remotePort = seg.srcPort))

/-- Where the switch over the flags ends: the socket, what was sent, whether the peer is to be
reset, and the payload if the handler is to be called with it. -/
structure Step where
  socket : Socket
  sent : List Segment := []
  reset : Bool := false
  call : Option (List Byte) := none

def reply (alloc : Bool) (socket : Socket) (flags : Flags) : Step :=
  let sends := providerSend alloc socket [] flags
  { socket := sends.1, sent := sends.2 }

def onSyn (alloc : Bool) (socket : Socket) (seg : Segment) : Step :=
  match socket.state with
  | .listen =>
    reply alloc { socket with
      state := .synReceived, remotePort := seg.srcPort, remoteIp := seg.srcIp,
      acknowledgementNumber := seg.sequenceNumber + 1, sequenceNumber := iss } { syn := true, ack := true }
  | .synReceived => reply alloc socket { syn := true, ack := true }
  | _ => { socket := socket, reset := true }

def onSynAck (alloc : Bool) (socket : Socket) (seg : Segment) : Step :=
  match socket.state with
  | .synSent =>
    reply alloc { socket with
      state := .established, acknowledgementNumber := seg.sequenceNumber + 1,
      sequenceNumber := seg.acknowledgementNumber } { ack := true }
  | _ => { socket := socket, reset := true }

def onFin (alloc : Bool) (socket : Socket) (seg : Segment) : Step :=
  let socket := { socket with acknowledgementNumber := seg.sequenceNumber + 1 }
  match socket.state with
  | .established => reply alloc { socket with state := .closeWait } { ack := true }
  | .closeWait | .lastAck => reply alloc socket { ack := true }
  | .finWait1 => reply alloc { socket with state := if seg.flags.ack then .timeWait else .closing } { ack := true }
  | .finWait2 => reply alloc { socket with state := .timeWait } { ack := true }
  | _ => { socket := socket, reset := true }

/-- The default case of the switch; a socket without a handler refuses what it is given. -/
def onData (socket : Socket) (seg : Segment) : Step :=
  if seg.sequenceNumber = socket.acknowledgementNumber ∧ seg.WellFormed ∧ socket.bound then
    { socket := socket, call := some seg.payload }
  else { socket := socket, reset := true }

/-- The case of an ACK. The function returns at once where the handshake or our FIN is acknowledged,
which is how it would end anyway. -/
def onAck (socket : Socket) (seg : Segment) : Step :=
  match socket.state with
  | .synReceived =>
    { socket := { socket with state := .established, sequenceNumber := seg.acknowledgementNumber } }
  | .finWait1 => { socket := { socket with state := .finWait2 } }
  | .closing => { socket := { socket with state := .timeWait } }
  | .lastAck => { socket := { socket with state := .closed } }
  | _ => onData socket seg

/-- The switch over SYN, ACK and FIN. -/
def onFlags (alloc : Bool) (socket : Socket) (seg : Segment) : Step :=
  match seg.flags.syn, seg.flags.ack, seg.flags.fin with
  | true, false, false => onSyn alloc socket seg
  | true, true, false => onSynAck alloc socket seg
  | true, _, true => { socket := socket, reset := true }
  | false, _, true => onFin alloc socket seg
  | false, true, false => onAck socket seg
  | false, false, false => onData socket seg

/-- A socket does not stay in TIME_WAIT. -/
def settle (socket : Socket) : Socket :=
  if socket.state = .timeWait then { socket with state := .closed } else socket

/-- The end of the function: a reset is sent. -/
def finish (alloc : Bool) (step : Step) : Socket × List Segment :=
  if step.reset then
    let sends := providerSend alloc step.socket [] { rst := true }
    (settle sends.1, step.sent ++ sends.2)
  else (settle step.socket, step.sent)

/-- `jlos_tcp_provider_on_internet_protocol_received` for the socket that was found, up to the call
of its handler: the socket, the segments sent, and the payload if the handler is called. -/
def onReceived (alloc : Bool) (socket : Socket) (seg : Segment) : Socket × List Segment × Option (List Byte) :=
  if seg.flags.rst then ({ socket with state := .closed }, [], none)
  else
    let step := onFlags alloc socket seg
    match step.call with
    | some payload => (step.socket, step.sent, some payload)
    | none => ((finish alloc step).1, (finish alloc step).2, none)

/-- What the handler is given of a payload, whose size is passed in 16 bits. -/
def handed (payload : List Byte) : List Byte := payload.take (payload.length % 65536)

/-- The function behind the call of the handler. -/
def onHandled (alloc : Bool) (socket : Socket) (payload : List Byte) (accepts : Bool) : Socket × List Segment :=
  finish alloc
    (if accepts then
      reply alloc { socket with
        acknowledgementNumber := socket.acknowledgementNumber + BitVec.ofNat 32 payload.length } { ack := true }
    else { socket := socket, reset := true })

/-! ### What a segment does -/

section

variable {alloc accepts : Bool} {socket : Socket} {seg : Segment} {flags : Flags} {payload : List Byte}

@[simp] theorem providerSend_nil_socket : (providerSend alloc socket [] flags).1 = socket := by
  cases alloc <;> simp [providerSend]

theorem providerSend_sent {data : List Byte} :
    (providerSend alloc socket data flags).2 = if alloc then [socket.segment data flags] else [] := by
  cases alloc <;> rfl

@[simp] theorem reply_socket : (reply alloc socket flags).socket = socket := providerSend_nil_socket

@[simp] theorem reply_call : (reply alloc socket flags).call = none := rfl

theorem finish_socket {step : Step} : (finish alloc step).1 = settle step.socket := by
  unfold finish
  split <;> simp

/-- What a segment can make of a socket, the handler apart. -/
inductive Moves (socket : Socket) (seg : Segment) : Socket → Prop
  | stays : Moves socket seg socket
  | resets (rst : seg.flags.rst) : Moves socket seg { socket with state := .closed }
  | accepts (listens : socket.state = .listen) (syn : seg.flags.syn) (ack : seg.flags.ack = false)
      (fin : seg.flags.fin = false) (rst : seg.flags.rst = false) :
      Moves socket seg { socket with
        state := .synReceived, remotePort := seg.srcPort, remoteIp := seg.srcIp,
        acknowledgementNumber := seg.sequenceNumber + 1, sequenceNumber := iss }
  | connects (sent : socket.state = .synSent) (syn : seg.flags.syn) (ack : seg.flags.ack) (fin : seg.flags.fin = false)
      (rst : seg.flags.rst = false) :
      Moves socket seg { socket with
        state := .established, acknowledgementNumber := seg.sequenceNumber + 1,
        sequenceNumber := seg.acknowledgementNumber }
  | confirms (received : socket.state = .synReceived) (syn : seg.flags.syn = false) (ack : seg.flags.ack)
      (fin : seg.flags.fin = false) (rst : seg.flags.rst = false) :
      Moves socket seg { socket with state := .established, sequenceNumber := seg.acknowledgementNumber }
  | closes (next : State) (syn : seg.flags.syn = false) (fin : seg.flags.fin) (rst : seg.flags.rst = false)
      (moved : next = socket.state ∨ (socket.state = .established ∧ next = .closeWait) ∨
        ((socket.state = .finWait1 ∨ socket.state = .finWait2 ∨ socket.state = .timeWait) ∧
          (next = .closed ∨ next = .closing))) :
      Moves socket seg { socket with state := next, acknowledgementNumber := seg.sequenceNumber + 1 }
  | acks (next : State)
      (moved : (socket.state = .finWait1 ∧ next = .finWait2) ∨ (socket.state = .closing ∧ next = .closed) ∨
        (socket.state = .lastAck ∧ next = .closed) ∨ (socket.state = .timeWait ∧ next = .closed)) :
      Moves socket seg { socket with state := next }

theorem moves_settle : Moves socket seg (settle socket) := by
  unfold settle
  split
  case isTrue waits => exact .acks .closed (by simp [waits])
  case isFalse => exact .stays

theorem onSyn_moves (syn : seg.flags.syn) (ack : seg.flags.ack = false) (fin : seg.flags.fin = false)
    (rst : seg.flags.rst = false) : Moves socket seg (settle (onSyn alloc socket seg).socket) := by
  unfold onSyn
  split
  case h_1 listens =>
    rw [reply_socket]
    exact .accepts listens syn ack fin rst
  case h_2 =>
    rw [reply_socket]
    exact moves_settle
  case h_3 => exact moves_settle

theorem onSynAck_moves (syn : seg.flags.syn) (ack : seg.flags.ack) (fin : seg.flags.fin = false)
    (rst : seg.flags.rst = false) : Moves socket seg (settle (onSynAck alloc socket seg).socket) := by
  unfold onSynAck
  split
  case h_1 sent =>
    rw [reply_socket]
    exact .connects sent syn ack fin rst
  case h_2 => exact moves_settle

theorem onFin_moves (syn : seg.flags.syn = false) (fin : seg.flags.fin) (rst : seg.flags.rst = false) :
    Moves socket seg (settle (onFin alloc socket seg).socket) := by
  cases state : socket.state <;> simp only [onFin, state, reply_socket]
  case established => exact .closes .closeWait syn fin rst (by simp [state])
  case finWait1 =>
    cases ack : seg.flags.ack
    case true => exact .closes .closed syn fin rst (by simp [state])
    case false => exact .closes .closing syn fin rst (by simp [state])
  case finWait2 => exact .closes .closed syn fin rst (by simp [state])
  case timeWait => exact .closes .closed syn fin rst (by simp [state])
  all_goals exact .closes _ syn fin rst (by simp [state])

theorem onData_socket : (onData socket seg).socket = socket := by
  unfold onData
  split <;> rfl

theorem onAck_moves (syn : seg.flags.syn = false) (ack : seg.flags.ack) (fin : seg.flags.fin = false)
    (rst : seg.flags.rst = false) : Moves socket seg (settle (onAck socket seg).socket) := by
  unfold onAck
  split
  case h_1 received => exact .confirms received syn ack fin rst
  case h_2 waits => exact .acks .finWait2 (by simp [waits])
  case h_3 closing => exact .acks .closed (by simp [closing])
  case h_4 last => exact .acks .closed (by simp [last])
  case h_5 =>
    rw [onData_socket]
    exact moves_settle

theorem onFlags_moves (rst : seg.flags.rst = false) : Moves socket seg (settle (onFlags alloc socket seg).socket) := by
  unfold onFlags
  split
  case h_1 syn ack fin => exact onSyn_moves syn ack fin rst
  case h_2 syn ack fin => exact onSynAck_moves syn ack fin rst
  case h_3 => exact moves_settle
  case h_4 syn fin => exact onFin_moves syn fin rst
  case h_5 syn ack fin => exact onAck_moves syn ack fin rst
  case h_6 =>
    rw [onData_socket]
    exact moves_settle

/-- The handler is called: the segment is next in line, and neither its flags nor the state make it
something else than data. -/
def Calls (socket : Socket) (seg : Segment) : Prop :=
  seg.flags.rst = false ∧ seg.flags.syn = false ∧ seg.flags.fin = false ∧
    (seg.flags.ack → socket.state ∉ [State.synReceived, .finWait1, .closing, .lastAck]) ∧
    seg.sequenceNumber = socket.acknowledgementNumber ∧ seg.WellFormed ∧ socket.bound
  deriving Decidable

theorem onFlags_of_calls (calls : Calls socket seg) :
    onFlags alloc socket seg = { socket := socket, call := some seg.payload } := by
  obtain ⟨-, syn, fin, state, now⟩ := calls
  have data : onData socket seg = { socket := socket, call := some seg.payload } := if_pos now
  cases ack : seg.flags.ack
  case false => simp [onFlags, syn, ack, fin, data]
  case true =>
    simp only [onFlags, syn, ack, fin]
    cases at_ : socket.state <;> simp_all [onAck]

theorem onFlags_of_not_calls (calls : ¬Calls socket seg) (rst : seg.flags.rst = false) :
    (onFlags alloc socket seg).call = none := by
  have data : seg.flags.syn = false → seg.flags.fin = false →
      (seg.flags.ack → socket.state ∉ [State.synReceived, .finWait1, .closing, .lastAck]) →
      (onData socket seg).call = none := by
    intro syn fin state
    have refused : ¬(seg.sequenceNumber = socket.acknowledgementNumber ∧ seg.WellFormed ∧ socket.bound) :=
      fun now => calls ⟨rst, syn, fin, state, now⟩
    simp [onData, refused]
  unfold onFlags
  split
  case h_1 =>
    unfold onSyn
    split <;> rfl
  case h_2 =>
    unfold onSynAck
    split <;> rfl
  case h_3 => rfl
  case h_4 => cases state : socket.state <;> simp [onFin, state]
  case h_5 syn _ fin =>
    unfold onAck
    split
    case h_5 => exact data syn fin (by simp_all)
    all_goals rfl
  case h_6 syn ack fin => exact data syn fin (by simp [ack])

/-- A segment that calls the handler has not changed or sent anything by then. -/
theorem onReceived_of_calls (calls : Calls socket seg) :
    onReceived alloc socket seg = (socket, [], some seg.payload) := by
  simp [onReceived, calls.1, onFlags_of_calls calls]

theorem onReceived_of_not_calls (calls : ¬Calls socket seg) (rst : seg.flags.rst = false) :
    onReceived alloc socket seg =
      ((finish alloc (onFlags alloc socket seg)).1, (finish alloc (onFlags alloc socket seg)).2, none) := by
  simp [onReceived, rst, onFlags_of_not_calls calls rst]

theorem onReceived_of_rst (rst : seg.flags.rst) :
    onReceived alloc socket seg = ({ socket with state := .closed }, [], none) := by
  simp [onReceived, rst]

/-- The handler is called exactly with the payload of a segment that is next in line. -/
theorem onReceived_call : (onReceived alloc socket seg).2.2 = if Calls socket seg then some seg.payload else none := by
  by_cases calls : Calls socket seg
  · rw [onReceived_of_calls calls, if_pos calls]
  · cases rst : seg.flags.rst
    · rw [onReceived_of_not_calls calls rst, if_neg calls]
    · rw [onReceived_of_rst rst, if_neg calls]

theorem onReceived_moves : Moves socket seg (onReceived alloc socket seg).1 := by
  by_cases calls : Calls socket seg
  · rw [onReceived_of_calls calls]
    exact .stays
  · cases rst : seg.flags.rst
    case false =>
      rw [onReceived_of_not_calls calls rst, finish_socket]
      exact onFlags_moves rst
    case true =>
      rw [onReceived_of_rst rst]
      exact .resets rst

/-- A segment that the receive function sends by itself: without data, and no FIN. -/
def Segment.Empty (seg : Segment) : Prop := seg.payload = [] ∧ seg.flags.fin = false

@[simp] theorem segment_payload : (socket.segment payload flags).payload = payload := by
  cases syn : flags.syn <;> simp [Socket.segment, Segment.payload, Segment.headerBytes, syn]

theorem empty_segment (fin : flags.fin = false) : (socket.segment [] flags).Empty := ⟨segment_payload, fin⟩

theorem providerSend_empty (fin : flags.fin = false) : ∀ s ∈ (providerSend alloc socket [] flags).2, s.Empty := by
  rw [providerSend_sent]
  split
  · simpa using empty_segment fin
  · simp

theorem onFlags_empty : ∀ s ∈ (onFlags alloc socket seg).sent, s.Empty := by
  have sends : ∀ (q : Socket) (flags : Flags), flags.fin = false → ∀ s ∈ (reply alloc q flags).sent, s.Empty :=
    fun q flags fin => providerSend_empty fin
  unfold onFlags
  split
  case h_1 =>
    unfold onSyn
    split
    · exact sends _ _ rfl
    · exact sends _ _ rfl
    · simp
  case h_2 =>
    unfold onSynAck
    split
    · exact sends _ _ rfl
    · simp
  case h_3 => simp
  case h_4 => 
    cases state : socket.state <;> simp only [onFin, state] <;> first | exact sends _ _ rfl | simp
  case h_5 =>
    unfold onAck onData
    split <;> try simp
    split <;> simp
  case h_6 =>
    unfold onData
    split <;> simp

theorem finish_empty {step : Step} (sent : ∀ s ∈ step.sent, s.Empty) : ∀ s ∈ (finish alloc step).2, s.Empty := by
  unfold finish
  split
  · intro s mem
    rcases List.mem_append.mp mem with before | rst
    · exact sent s before
    · exact providerSend_empty rfl s rst
  · exact sent

theorem onReceived_empty : ∀ s ∈ (onReceived alloc socket seg).2.1, s.Empty := by
  by_cases calls : Calls socket seg
  · simp [onReceived_of_calls calls]
  · cases rst : seg.flags.rst
    · rw [onReceived_of_not_calls calls rst]
      exact finish_empty onFlags_empty
    · simp [onReceived_of_rst rst]

theorem onHandled_empty : ∀ s ∈ (onHandled alloc socket payload accepts).2, s.Empty := by
  apply finish_empty
  cases accepts
  · simp
  · exact providerSend_empty rfl

theorem onHandled_socket : (onHandled alloc socket payload accepts).1 = settle (if accepts then
      { socket with acknowledgementNumber := socket.acknowledgementNumber + BitVec.ofNat 32 payload.length }
    else socket) := by
  cases accepts <;> simp [onHandled, finish_socket]

end

end Jlos.Net.Tcp
