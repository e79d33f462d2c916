import Jlos.Net.Bounds

/-!
# What the receive path delivers and sends

The IPv4 layer hands over everything behind the header of a packet, padding included, and the UDP
layer reports every datagram that a socket has taken as one to send back.
-/
namespace Jlos.Net

open List Skb

section

variable {env : Env} {r : Rx} {protocol : Protocol}

/-! ### What is given -/

theorem protocolReceived_given : (protocolReceived env r protocol).2.given = r.given := by
  cases protocol with
  | icmp =>
    simp only [protocolReceived, icmpReceived]
    split_ifs <;> rfl
  | udp =>
    simp only [protocolReceived, udpReceived]
    split
    · rfl
    · split <;> rfl
  | tcp =>
    simp only [protocolReceived, tcpReceived]
    split
    · rfl
    · split <;> rfl
  | other => rfl

theorem callProtocol_given : (callProtocol env r protocol).2.given = (calledRx r protocol).given := by
  rw [callProtocol_eq rfl]
  split <;> exact protocolReceived_given

theorem callEther_given {handler : EtherHandler} :
    (callEther env r handler).given = (etherReceived env (r.move (r.skb.pull 14)) handler).2.given := by
  unfold callEther
  dsimp only
  split <;> rfl

end

section

variable {env : Env} {tables : Tables} {bytes : Int → Byte} {size : BitVec 32} {protocol : Protocol}

def packetRx (tables : Tables) (bytes : Int → Byte) (size : BitVec 32) : Rx :=
  ((filledRx tables bytes size).read 14).move (packetSkb bytes size)

theorem ipv4Received_packetRx (carries : CarriesPacket env bytes size)
    (inside : (ipProtocol (packetSkb bytes size)).toNat < 255)
    (handler : env.handlers (ipProtocol (packetSkb bytes size)).toNat = some protocol) :
    ipv4Received env (packetRx tables bytes size) =
      callProtocol env (indexedRx (packetRx tables bytes size)) protocol := by
  obtain ⟨long, -, -, ours⟩ := carries
  have len : (packetSkb bytes size).len = size.toNat - 14 := packetSkb_len (by omega)
  have whole : ¬(packetSkb bytes size).len < 20 := by omega
  have packet : (packetRx tables bytes size).skb = packetSkb bytes size := rfl
  unfold ipv4Received
  simp only [whole, if_false, packet, ours, if_true, inside, handler]
  rfl

theorem onRawDataReceived_carries (carries : CarriesPacket env bytes size) (alloc : env.alloc) :
    onRawDataReceived env tables bytes size = callEther env ((filledRx tables bytes size).read 14) .ipv4 := by
  obtain ⟨long, ours, handler, -⟩ := carries
  have whole : ¬size.toNat < 14 := by omega
  rw [onRawDataReceived_eq, frameSkb_len]
  simp [alloc, whole, ours, handler]

def payloadSkb (bytes : Int → Byte) (size : BitVec 32) : Skb :=
  Skb.pull { packetSkb bytes size with
    srcIp := ipSrc (packetSkb bytes size), dstIp := ipDst (packetSkb bytes size),
    protocol := ipProtocol (packetSkb bytes size) } (4 * ihl (packetSkb bytes size))

theorem received_given (carries : CarriesPacket env bytes size) (alloc : env.alloc)
    (inside : (ipProtocol (packetSkb bytes size)).toNat < 255)
    (handler : env.handlers (ipProtocol (packetSkb bytes size)).toNat = some protocol) :
    (onRawDataReceived env tables bytes size).given =
      [(protocol, (payloadSkb bytes size).view 0 (payloadSkb bytes size).len)] := by
  rw [onRawDataReceived_carries carries alloc, callEther_given]
  have reached : etherReceived env (packetRx tables bytes size) .ipv4 =
      callProtocol env (indexedRx (packetRx tables bytes size)) protocol := ipv4Received_packetRx carries inside handler
  exact (congrArg (fun result => result.2.given) reached).trans callProtocol_given

/-- The payload of a packet: what stands between its header and its end. -/
def ipPayload (bytes : Int → Byte) (size : BitVec 32) : List Byte :=
  ((packetSkb bytes size).view 0 (totalLength (packetSkb bytes size))).drop (4 * ihl (packetSkb bytes size))

theorem view_drop (skb : Skb) (n h : Nat) : (skb.view 0 n).drop h = skb.view h (n - h) := by
  apply ext_getElem
  · simp [view]
  · intro i _ _
    simp [view]

theorem view_payload (n : Nat) :
    (payloadSkb bytes size).view 0 n = (packetSkb bytes size).view (4 * ihl (packetSkb bytes size)) n := by
  apply ext_getElem
  · simp [view]
  · intro i _ _
    simp [view, payloadSkb, pull, byte, Int.add_assoc]

theorem view_eq_iff {skb : Skb} {h m n : Nat} : skb.view h m = skb.view h n ↔ m = n := by
  constructor
  · intro same
    have length := congrArg List.length same
    simpa [view] using length
  · rintro rfl
    rfl

theorem ihl_le (skb : Skb) : ihl skb ≤ 15 := by
  unfold ihl
  exact Nat.and_le_right

theorem payload_len_iff (long : 34 ≤ size.toNat) (within : totalLength (packetSkb bytes size) ≤ size.toNat - 14) :
    (payloadSkb bytes size).len = totalLength (packetSkb bytes size) - 4 * ihl (packetSkb bytes size) ↔
      max (totalLength (packetSkb bytes size)) (4 * ihl (packetSkb bytes size)) = size.toNat - 14 := by
  have header := ihl_le (packetSkb bytes size)
  have data : (payloadSkb bytes size).data = 14 + (4 * ihl (packetSkb bytes size) : Nat) := by
    simp [payloadSkb, pull, packetSkb, frameSkb, rawSkb, put]
  have tail : (payloadSkb bytes size).tail = size.toNat := by
    simp [payloadSkb, pull, packetSkb, frameSkb, rawSkb, put]
  unfold len
  rw [data, tail, BitVec.toNat_ofInt]
  omega

end

/-- The handler of the protocol of a packet for us is given the payload of the packet exactly if the
frame finds a buffer and the packet, or its header if that is longer, ends with the frame. -/
theorem given_payload_iff (env : Env) (tables : Tables) (bytes : Int → Byte) (size : BitVec 32) (protocol : Protocol)
    (carries : CarriesPacket env bytes size) (inside : (ipProtocol (packetSkb bytes size)).toNat < 255)
    (handler : env.handlers (ipProtocol (packetSkb bytes size)).toNat = some protocol)
    (within : totalLength (packetSkb bytes size) ≤ size.toNat - 14) :
    (onRawDataReceived env tables bytes size).given = [(protocol, ipPayload bytes size)] ↔
      env.alloc ∧ max (totalLength (packetSkb bytes size)) (4 * ihl (packetSkb bytes size)) = size.toNat - 14 := by
  by_cases alloc : env.alloc
  case neg =>
    have dropped : (onRawDataReceived env tables bytes size).given = [] := by
      simp [onRawDataReceived, alloc, rxStart]
    simp [dropped, alloc]
  case pos =>
    rw [received_given carries alloc inside handler, ← payload_len_iff carries.1 within]
    simp only [List.cons.injEq, Prod.mk.injEq, true_and, and_true, alloc]
    rw [ipPayload, view_drop, view_payload, view_eq_iff]

/-- An echo request of 8 bytes, padded or not. -/
def echoRequest (padding : Nat) : List Byte :=
  headers 0x45 28 1 ++ [8, 0, 0xF7, 0xFF, 0, 0, 0, 0] ++ List.replicate padding 0

theorem unpadded_given : (onRawDataReceived plainEnv noTables (memoryOf (echoRequest 0)) 42).given =
      [(.icmp, [8, 0, 0xF7, 0xFF, 0, 0, 0, 0])] := by
  refine (given_payload_iff plainEnv noTables (memoryOf (echoRequest 0)) 42 .icmp ?_ ?_ ?_ ?_).mpr ?_
  · exact ⟨by decide, .inl (by decide +kernel), by decide +kernel, .inl (by decide +kernel)⟩
  · decide +kernel
  · decide +kernel
  · decide +kernel
  · exact ⟨rfl, by decide +kernel⟩

/-- The same request in a frame of 60 bytes: the handler is given 18 bytes of padding too. -/
theorem padding_given : (onRawDataReceived plainEnv noTables (memoryOf (echoRequest 18)) 60).given =
      [(.icmp, ipPayload (memoryOf (echoRequest 18)) 60 ++ List.replicate 18 0)] ∧
    (ipPayload (memoryOf (echoRequest 18)) 60).length = 8 := by
  decide +kernel

/-! ### What is sent -/

/-- A socket takes the datagram of a frame. -/
def TakenByUdp (tables : Tables) (bytes : Int → Byte) (size : BitVec 32) : Prop :=
  8 ≤ (payloadSkb bytes size).len ∧ (Udp.findSocket tables.udp (datagramOf (payloadSkb bytes size))).isSome
  deriving Decidable

/-- The frames that the handler of that socket sends. -/
def handlerFrames (env : Env) (tables : Tables) (bytes : Int → Byte) (size : BitVec 32) : List (List Byte) :=
  match Udp.findSocket tables.udp (datagramOf (payloadSkb bytes size)) with
  | none => []
  | some found => (handleUdpMessage env (found.1 ++ found.2.2.1 :: found.2.2.2) found.2.2.1
      (datagramOf (payloadSkb bytes size)).data).2

section

variable {env : Env} {tables : Tables} {bytes : Int → Byte} {size : BitVec 32}

theorem callEther_frames {r : Rx} {handler : EtherHandler} :
    ∃ frame, (callEther env r handler).frames = (etherReceived env (r.move (r.skb.pull 14)) handler).2.frames ++
      if (etherReceived env (r.move (r.skb.pull 14)) handler).1 then [frame] else [] := by
  unfold callEther
  dsimp only
  split
  case isTrue => exact ⟨_, rfl⟩
  case isFalse => exact ⟨[], (append_nil _).symm⟩

theorem udpReceived_frames {r : Rx} (skb : r.skb = payloadSkb bytes size) (udp : r.udp = tables.udp) :
    (udpReceived env r).1 = decide (TakenByUdp tables bytes size) ∧ (udpReceived env r).2.frames =
        r.frames ++ if TakenByUdp tables bytes size then handlerFrames env tables bytes size else [] := by
  by_cases short : (payloadSkb bytes size).len < 8
  case pos =>
    have cut : ¬TakenByUdp tables bytes size := fun taken => absurd short (Nat.not_lt.mpr taken.1)
    simp [udpReceived, skb, short, cut]
  case neg =>
    have whole : 8 ≤ (payloadSkb bytes size).len := le_of_not_gt short
    cases found : Udp.findSocket tables.udp (datagramOf (payloadSkb bytes size)) with
    | none =>
      have unknown : ¬TakenByUdp tables bytes size := fun taken => by simp [TakenByUdp, found] at taken
      simp [udpReceived, skb, udp, short, found, unknown, Rx.read]
    | some socket =>
      have taken : TakenByUdp tables bytes size := ⟨whole, by simp [found]⟩
      simp [udpReceived, skb, udp, short, found, taken, handlerFrames]

theorem callProtocol_udp_frames :
    (callProtocol env (indexedRx (packetRx tables bytes size)) .udp).1 = decide (TakenByUdp tables bytes size) ∧
      (callProtocol env (indexedRx (packetRx tables bytes size)) .udp).2.frames =
        if TakenByUdp tables bytes size then handlerFrames env tables bytes size else [] := by
  obtain ⟨x, received⟩ : ∃ x, protocolReceived env (calledRx (indexedRx (packetRx tables bytes size)) .udp) .udp = x :=
    ⟨_, rfl⟩
  obtain ⟨back, frames⟩ : x.1 = decide (TakenByUdp tables bytes size) ∧
      x.2.frames = [] ++ if TakenByUdp tables bytes size then handlerFrames env tables bytes size else [] :=
    received ▸ udpReceived_frames rfl rfl
  rw [callProtocol_eq received]
  simp only [back]
  by_cases taken : TakenByUdp tables bytes size
  · simp only [taken, decide_true, if_true] at frames ⊢
    exact ⟨trivial, frames⟩
  · simp only [taken, decide_false, Bool.false_eq_true, if_false] at frames ⊢
    exact ⟨trivial, frames⟩

end

/-- While a UDP datagram is received, the frames sent are those of the handler of the socket that
takes it exactly if no socket takes it: one that is taken is sent back. -/
theorem udp_frames_iff (env : Env) (tables : Tables) (bytes : Int → Byte) (size : BitVec 32)
    (carries : CarriesPacket env bytes size) (inside : (ipProtocol (packetSkb bytes size)).toNat < 255)
    (handler : env.handlers (ipProtocol (packetSkb bytes size)).toNat = some .udp) :
    (onRawDataReceived env tables bytes size).frames =
        (if env.alloc ∧ TakenByUdp tables bytes size then handlerFrames env tables bytes size else []) ↔
      ¬(env.alloc ∧ TakenByUdp tables bytes size) := by
  by_cases alloc : env.alloc
  case neg => simp [onRawDataReceived, alloc, rxStart]
  obtain ⟨back, frames⟩ :
      (callProtocol env (indexedRx (packetRx tables bytes size)) .udp).1 = decide (TakenByUdp tables bytes size) ∧ _ :=
    callProtocol_udp_frames
  have reached : etherReceived env (packetRx tables bytes size) .ipv4 =
      callProtocol env (indexedRx (packetRx tables bytes size)) .udp := ipv4Received_packetRx carries inside handler
  obtain ⟨frame, sent⟩ : ∃ frame, (callEther env ((filledRx tables bytes size).read 14) .ipv4).frames =
      (etherReceived env (packetRx tables bytes size) .ipv4).2.frames ++
        if (etherReceived env (packetRx tables bytes size) .ipv4).1 then [frame] else [] := callEther_frames
  rw [onRawDataReceived_carries carries alloc, sent, reached, back, frames]
  by_cases taken : TakenByUdp tables bytes size <;> simp [alloc, taken]

/-- A socket without a handler that listens on port 53 of `10.0.2.15`. -/
def listener : Udp.Socket := Udp.listenSocket 0x0f02000a 53 ⟨0, 0, 0, 0, false, false⟩

/-- A datagram of four bytes from port 1024 of `10.0.2.2` to a port of ours. -/
def datagramTo (port : Byte) : List Byte := headers 0x45 32 17 ++ [4, 0, 0, port, 0, 12, 0, 0, 1, 2, 3, 4]

theorem unknown_port_silent :
    (onRawDataReceived plainEnv ⟨arpInit, [listener], []⟩ (memoryOf (datagramTo 54)) 46).frames = [] := by
  have untaken : ¬(plainEnv.alloc ∧ TakenByUdp ⟨arpInit, [listener], []⟩ (memoryOf (datagramTo 54)) 46) := by
    decide +kernel
  have sent := (udp_frames_iff plainEnv ⟨arpInit, [listener], []⟩ (memoryOf (datagramTo 54)) 46
    ⟨by decide, .inl (by decide +kernel), by decide +kernel, .inl (by decide +kernel)⟩ (by decide +kernel)
    (by decide +kernel)).mpr untaken
  rwa [if_neg untaken] at sent

/-- The socket takes the datagram and has no handler; the frame goes back to its sender. -/
theorem datagram_sent_back :
    (onRawDataReceived plainEnv ⟨arpInit, [listener], []⟩ (memoryOf (datagramTo 53)) 46).frames.length = 1 ∧
      handlerFrames plainEnv ⟨arpInit, [listener], []⟩ (memoryOf (datagramTo 53)) 46 = [] := by
  decide +kernel

end Jlos.Net
