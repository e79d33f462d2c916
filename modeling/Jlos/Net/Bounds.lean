import Jlos.Net.Receive

/-!
# The bounds of the receive path

Every layer checks that its own header fits before it reads it. The IPv4 layer then moves the buffer
by the header length that the packet gives.
-/
namespace Jlos.Net

open List

def frameSkb (bytes : Int → Byte) (size : BitVec 32) : Skb := (rawSkb bytes size).put size.toNat

def packetSkb (bytes : Int → Byte) (size : BitVec 32) : Skb := (frameSkb bytes size).pull 14

/-- A frame to us that carries an IPv4 packet to us. -/
def CarriesPacket (env : Env) (bytes : Int → Byte) (size : BitVec 32) : Prop :=
  34 ≤ size.toNat ∧ FrameForUs env (frameSkb bytes size) ∧
    etherHandler env (etherType (frameSkb bytes size)) = some .ipv4 ∧ PacketForUs env (packetSkb bytes size)

/-- The protocol of a packet is one of the table, and its header fits where it has a handler. -/
def HeaderFits (env : Env) (bytes : Int → Byte) (size : BitVec 32) : Prop :=
  (ipProtocol (packetSkb bytes size)).toNat < 255 ∧
    ∀ protocol, env.handlers (ipProtocol (packetSkb bytes size)).toNat = some protocol →
      4 * ihl (packetSkb bytes size) ≤ size.toNat - 14

/-- The pointers lie in order, and all that was touched lies inside. -/
structure Rx.Bounded (r : Rx) : Prop where
  data : 0 ≤ r.skb.data
  tail : r.skb.data ≤ r.skb.tail
  stop : r.skb.tail ≤ r.skb.stop
  size : r.skb.stop < 2 ^ 32
  ok : ∀ a ∈ r.log, a.Ok

/-- Two states of the buffer with the same pointers. -/
structure Skb.SamePointers (skb skb' : Skb) : Prop where
  data : skb'.data = skb.data
  tail : skb'.tail = skb.tail
  stop : skb'.stop = skb.stop

variable {r' : Rx} {skb : Skb}

section

variable {env : Env} {r : Rx} {n : Nat}

theorem Skb.SamePointers.refl : skb.SamePointers skb := ⟨rfl, rfl, rfl⟩

theorem Rx.Bounded.len (bounded : r.Bounded) : (r.skb.len : Int) = r.skb.tail - r.skb.data := by
  have data := bounded.data
  have tail := bounded.tail
  have stop := bounded.stop
  have size := bounded.size
  unfold Skb.len
  rw [BitVec.toNat_ofInt]
  omega

theorem Rx.Bounded.read (bounded : r.Bounded) (fits : n ≤ r.skb.len) : (r.read n).Bounded := by
  have len := bounded.len
  refine ⟨bounded.data, bounded.tail, bounded.stop, bounded.size, fun a mem => ?_⟩
  rcases mem_append.mp mem with old | new
  · exact bounded.ok a old
  · rw [mem_singleton.mp new]
    constructor <;> omega

theorem Rx.Bounded.congr (bounded : r.Bounded) (same : r.skb.SamePointers r'.skb) (log : r'.log = r.log) :
    r'.Bounded := by
  obtain ⟨data, tail, stop⟩ := same
  obtain ⟨low, order, last, size, ok⟩ := bounded
  exact ⟨by omega, by omega, by omega, by omega, log ▸ ok⟩

theorem Rx.Bounded.move (bounded : r.Bounded) (data : 0 ≤ skb.data) (tail : skb.data ≤ skb.tail)
    (same : skb.tail = r.skb.tail) (end_ : skb.stop = r.skb.stop) : (r.move skb).Bounded := by
  have stop := bounded.stop
  have size := bounded.size
  refine ⟨data, tail, by simp only [Rx.move]; omega, by simp only [Rx.move]; omega, fun a mem => ?_⟩
  rcases mem_append.mp mem with old | new
  · exact bounded.ok a old
  · rw [mem_singleton.mp new]
    exact ⟨data, tail, by omega⟩

/-- What a handler keeps: the pointers, and the bounds if they held; what was touched before stays
recorded. -/
structure Keeps (r r' : Rx) : Prop where
  pointers : r.skb.SamePointers r'.skb
  bounded : r.Bounded → r'.Bounded
  log : ∀ a ∈ r.log, a ∈ r'.log

theorem Keeps.refl : Keeps r r := ⟨.refl, id, fun _ => id⟩

theorem Keeps.trans {r'' : Rx} (first : Keeps r r') (second : Keeps r' r'') : Keeps r r'' where
  pointers :=
    ⟨second.pointers.data.trans first.pointers.data, second.pointers.tail.trans first.pointers.tail,
      second.pointers.stop.trans first.pointers.stop⟩
  bounded := fun before => second.bounded (first.bounded before)
  log := fun a mem => second.log a (first.log a mem)

theorem keeps_read (fits : n ≤ r.skb.len) : Keeps r (r.read n) :=
  ⟨⟨rfl, rfl, rfl⟩, fun bounded => bounded.read fits, fun _ mem => mem_append_left _ mem⟩

theorem keeps_of_log (same : r.skb.SamePointers r'.skb) (log : r'.log = r.log) : Keeps r r' :=
  ⟨same, fun bounded => bounded.congr same log, fun _ mem => log ▸ mem⟩

theorem keeps_write {i : Nat} {bs : List Byte} : Keeps r (r.write i bs) := keeps_of_log ⟨rfl, rfl, rfl⟩ rfl

/-! ### The handlers -/

theorem arpReceived_keeps : Keeps r (arpReceived env r).2 := by
  unfold arpReceived
  split
  case isTrue => exact .refl
  case isFalse long =>
    have read : Keeps r (r.read 28) := keeps_read (le_of_not_gt long)
    dsimp only
    split
    · exact read.trans (keeps_of_log ⟨rfl, rfl, rfl⟩ rfl)
    · exact read.trans (keeps_of_log ⟨rfl, rfl, rfl⟩ rfl)

theorem icmpReceived_keeps : Keeps r (icmpReceived r).2 := by
  unfold icmpReceived
  split
  case isTrue => exact .refl
  case isFalse long =>
    have read : Keeps r (r.read 8) := keeps_read (le_of_not_gt long)
    split
    · refine (read.trans (keeps_write.trans keeps_write)).trans ((keeps_read ?_).trans keeps_write)
      exact le_refl _
    · exact read

theorem udpReceived_keeps : Keeps r (udpReceived env r).2 := by
  unfold udpReceived
  split
  case isTrue => exact .refl
  case isFalse long =>
    have read : Keeps r (r.read 8) := keeps_read (le_of_not_gt long)
    split
    · exact read
    · exact read.trans (keeps_of_log ⟨rfl, rfl, rfl⟩ rfl)

theorem tcpReceived_keeps : Keeps r (tcpReceived env r).2 := by
  unfold tcpReceived
  split
  case isTrue => exact .refl
  case isFalse long =>
    have read : Keeps r (r.read 20) := keeps_read (le_of_not_gt long)
    split
    · exact read
    · exact read.trans (keeps_of_log ⟨rfl, rfl, rfl⟩ rfl)

variable (env r) in
theorem protocolReceived_keeps (protocol : Protocol) : Keeps r (protocolReceived env r protocol).2 := by
  cases protocol
  · exact icmpReceived_keeps
  · exact udpReceived_keeps
  · exact tcpReceived_keeps
  · exact .refl

/-! ### IPv4 -/

theorem Rx.Bounded.pull (bounded : r.Bounded) (same : r.skb.SamePointers skb) (fits : n ≤ r.skb.len) :
    (r.move (skb.pull n)).Bounded := by
  have len := bounded.len
  have data := bounded.data
  have place := same.data
  have end_ := same.tail
  apply bounded.move
  · simp only [Skb.pull]
    omega
  · simp only [Skb.pull]
    omega
  · exact same.tail
  · exact same.stop

theorem Rx.Bounded.push (before : r.Bounded) (bounded : r'.Bounded)
    (data : r'.skb.data = r.skb.data + n) (tail : r'.skb.tail = r.skb.tail) : (r'.move (r'.skb.push n)).Bounded := by
  have low := before.data
  have order := before.tail
  apply bounded.move
  · simp only [Skb.push]
    omega
  · simp only [Skb.push]
    omega
  · rfl
  · rfl

theorem turnPacket_keeps (fits : n ≤ r.skb.len) : Keeps r (turnPacket r n) :=
  (keeps_read fits).trans (keeps_of_log ⟨rfl, rfl, rfl⟩ rfl)

theorem turnPacket_log {a : Access} (mem : a ∈ r.log) : a ∈ (turnPacket r n).log := mem_append_left _ mem

variable {protocol : Protocol}

/-- The state in which the handler of a protocol is called. -/
def calledRx (r : Rx) (protocol : Protocol) : Rx :=
  let skb := { r.skb with srcIp := ipSrc r.skb, dstIp := ipDst r.skb, protocol := ipProtocol r.skb }
  let pulled := r.move (skb.pull (4 * ihl r.skb))
  { pulled with given := r.given ++ [(protocol, pulled.skb.view 0 pulled.skb.len)] }

theorem callProtocol_eq {x : Bool × Rx} (received : protocolReceived env (calledRx r protocol) protocol = x) :
    callProtocol env r protocol =
      if x.1 then (true, turnPacket (x.2.move (x.2.skb.push (4 * ihl r.skb))) (4 * ihl r.skb)) else (false, x.2) := by
  rw [← received]
  rfl

section

variable (bounded : r.Bounded)
include bounded

theorem calledRx_bounded (fits : 4 * ihl r.skb ≤ r.skb.len) : (calledRx r protocol).Bounded := by
  have pulled : (r.move (Skb.pull
      { r.skb with srcIp := ipSrc r.skb, dstIp := ipDst r.skb, protocol := ipProtocol r.skb }
        (4 * ihl r.skb))).Bounded :=
    bounded.pull ⟨rfl, rfl, rfl⟩ fits
  exact pulled.congr ⟨rfl, rfl, rfl⟩ rfl

/-- A handler is called with a header that fits: all stays inside, and a packet that is sent back is
whole again. -/
theorem callProtocol_bounded (fits : 4 * ihl r.skb ≤ r.skb.len) : (callProtocol env r protocol).2.Bounded ∧
      ((callProtocol env r protocol).1 → r.skb.SamePointers (callProtocol env r protocol).2.skb) := by
  have keeps := protocolReceived_keeps env (calledRx r protocol) protocol
  obtain ⟨x, received⟩ : ∃ x, protocolReceived env (calledRx r protocol) protocol = x := ⟨_, rfl⟩
  rw [received] at keeps
  have called := keeps.bounded (calledRx_bounded bounded fits)
  rw [callProtocol_eq received]
  split
  case isFalse => exact ⟨called, fun back => by cases back⟩
  case isTrue =>
    have data : x.2.skb.data = r.skb.data + (4 * ihl r.skb : Nat) := keeps.pointers.data
    have pushed := bounded.push called data keeps.pointers.tail
    have pointers : r.skb.SamePointers (x.2.skb.push (4 * ihl r.skb)) := by
      refine ⟨?_, keeps.pointers.tail, keeps.pointers.stop⟩
      simp only [Skb.push, data]
      omega
    have whole : 4 * ihl r.skb ≤ (x.2.move (x.2.skb.push (4 * ihl r.skb))).skb.len := by
      have len : (x.2.skb.push (4 * ihl r.skb)).len = r.skb.len := by simp [Skb.len, pointers.data, pointers.tail]
      exact len ▸ fits
    have turned := turnPacket_keeps whole
    exact ⟨turned.bounded pushed, fun _ => ⟨turned.pointers.data.trans pointers.data,
      turned.pointers.tail.trans pointers.tail, turned.pointers.stop.trans pointers.stop⟩⟩

/-- A header that does not fit leaves the buffer out of order. -/
theorem callProtocol_overrun (overrun : r.skb.len < 4 * ihl r.skb) :
    ∃ a ∈ (callProtocol env r protocol).2.log, ¬a.Ok := by
  have len := bounded.len
  have keeps := protocolReceived_keeps env (calledRx r protocol) protocol
  have moved : Access.skb (r.skb.data + (4 * ihl r.skb : Nat)) r.skb.tail r.skb.stop ∈ (calledRx r protocol).log := by
    apply mem_append_right
    exact mem_singleton.mpr rfl
  refine ⟨_, ?_, fun ok : Access.Ok (.skb (r.skb.data + (4 * ihl r.skb : Nat)) r.skb.tail r.skb.stop) => ?_⟩
  · have later := keeps.log _ moved
    rw [callProtocol_eq rfl]
    split
    case isFalse => exact later
    case isTrue => exact turnPacket_log (mem_append_left _ later)
  · have order := ok.2.1
    omega

/-- The state in which the table of handlers is looked up. -/
def indexedRx (r : Rx) : Rx := { r.read 20 with log := (r.read 20).log ++ [.index (ipProtocol r.skb).toNat] }

/-- The IPv4 layer stays inside exactly if the packet is not for us or its protocol and its header
fit; then a packet that is sent back is whole again. -/
theorem ipv4Received_ok : ((∀ a ∈ (ipv4Received env r).2.log, a.Ok) ↔
      (20 ≤ r.skb.len → PacketForUs env r.skb → (ipProtocol r.skb).toNat < 255 ∧
        ∀ protocol, env.handlers (ipProtocol r.skb).toNat = some protocol → 4 * ihl r.skb ≤ r.skb.len)) ∧
    ((∀ a ∈ (ipv4Received env r).2.log, a.Ok) → (ipv4Received env r).1 →
      (ipv4Received env r).2.Bounded ∧ r.skb.SamePointers (ipv4Received env r).2.skb) := by
  unfold ipv4Received
  by_cases short : r.skb.len < 20
  case pos =>
    simp only [short, if_true]
    exact ⟨iff_of_true bounded.ok fun long => absurd short (Nat.not_lt.mpr long), fun _ back => by cases back⟩
  have long := le_of_not_gt short
  have read : (r.read 20).Bounded := bounded.read long
  simp only [short, if_false, long, forall_true_left]
  by_cases ours : PacketForUs env r.skb
  case neg =>
    simp only [ours, if_false, false_implies]
    exact ⟨iff_of_true read.ok trivial, fun _ back => by cases back⟩
  simp only [ours, if_true, forall_true_left]
  by_cases inside : (ipProtocol r.skb).toNat < 255
  case neg =>
    simp only [inside, if_false, false_and, iff_false]
    refine ⟨fun ok => ?_, fun _ back => by cases back⟩
    exact inside (ok (.index (ipProtocol r.skb).toNat) (mem_append_right _ (mem_singleton.mpr rfl)))
  -- The header is inside and the protocol has an entry: the length field decides.
  have indexed : (indexedRx r).Bounded := by
    refine ⟨read.data, read.tail, read.stop, read.size, fun a mem => ?_⟩
    rcases mem_append.mp mem with old | new
    · exact read.ok a old
    · rw [mem_singleton.mp new]
      exact inside
  simp only [inside, if_true, true_and]
  cases found : env.handlers (ipProtocol r.skb).toNat with
  | none => exact ⟨iff_of_true indexed.ok (by simp), fun _ back => by cases back⟩
  | some protocol =>
    simp only [Option.some.injEq, forall_eq']
    by_cases fits : 4 * ihl r.skb ≤ r.skb.len
    · have called : (callProtocol env (indexedRx r) protocol).2.Bounded ∧ ((callProtocol env (indexedRx r) protocol).1 →
          r.skb.SamePointers (callProtocol env (indexedRx r) protocol).2.skb) := callProtocol_bounded indexed fits
      exact ⟨iff_of_true called.1.ok fits, fun _ back => ⟨called.1, called.2 back⟩⟩
    · obtain ⟨a, mem, bad⟩ : ∃ a ∈ (callProtocol env (indexedRx r) protocol).2.log, ¬a.Ok :=
        callProtocol_overrun indexed (lt_of_not_ge fits)
      exact ⟨iff_of_false (fun ok => bad (ok a mem)) fits, fun ok => absurd (ok a mem) bad⟩

/-! ### Ethernet -/

/-- What the handler of a frame may touch: for IPv4, the packet has to fit. -/
def HandlerFits (env : Env) (skb : Skb) : EtherHandler → Prop
  | .ipv4 => 20 ≤ skb.len → PacketForUs env skb → (ipProtocol skb).toNat < 255 ∧
      ∀ protocol, env.handlers (ipProtocol skb).toNat = some protocol → 4 * ihl skb ≤ skb.len
  | _ => True

theorem etherReceived_ok (handler : EtherHandler) :
    ((∀ a ∈ (etherReceived env r handler).2.log, a.Ok) ↔ HandlerFits env r.skb handler) ∧
    ((∀ a ∈ (etherReceived env r handler).2.log, a.Ok) → (etherReceived env r handler).1 →
      (etherReceived env r handler).2.Bounded ∧ r.skb.SamePointers (etherReceived env r handler).2.skb) := by
  cases handler with
  | arp =>
    have keeps : Keeps r (arpReceived env r).2 := arpReceived_keeps
    exact ⟨iff_of_true (keeps.bounded bounded).ok trivial, fun _ _ => ⟨keeps.bounded bounded, keeps.pointers⟩⟩
  | ipv4 => exact ipv4Received_ok bounded
  | other => exact ⟨iff_of_true bounded.ok trivial, fun _ back => by cases back⟩

theorem callEther_ok (long : 14 ≤ r.skb.len) (handler : EtherHandler) :
    (∀ a ∈ (callEther env r handler).log, a.Ok) ↔ HandlerFits env (r.skb.pull 14) handler := by
  have pulled : (r.move (r.skb.pull 14)).Bounded := bounded.pull .refl long
  obtain ⟨fits, back⟩ : (_ ↔ HandlerFits env (r.skb.pull 14) handler) ∧ _ := etherReceived_ok pulled handler
  refine Iff.trans ?_ fits
  unfold callEther
  dsimp only
  split
  case isFalse => exact Iff.rfl
  case isTrue sendBack =>
    constructor
    · intro ok a mem
      exact ok a (mem_append_left _ (mem_append_left _ mem))
    · intro ok
      obtain ⟨called, same⟩ := back ok sendBack
      generalize etherReceived env (r.move (r.skb.pull 14)) handler = x at called same
      have data : x.2.skb.data = r.skb.data + (14 : Nat) := same.data
      have tail : x.2.skb.tail = r.skb.tail := same.tail
      have len : (x.2.skb.push 14).len = r.skb.len := by simp [Skb.len, Skb.push, data, tail]
      exact ((bounded.push called data tail).read (long.trans_eq len.symm)).ok

end

theorem frameSkb_len (bytes : Int → Byte) (size : BitVec 32) : (frameSkb bytes size).len = size.toNat := by
  have lt := size.isLt
  simp only [frameSkb, rawSkb, Skb.put, Skb.len]
  rw [BitVec.toNat_ofInt]
  omega

theorem packetSkb_len {bytes : Int → Byte} {size : BitVec 32} (long : 14 ≤ size.toNat) :
    (packetSkb bytes size).len = size.toNat - 14 := by
  simp only [packetSkb, frameSkb, rawSkb, Skb.put, Skb.pull, Skb.len]
  rw [BitVec.toNat_ofInt]
  omega

def filledRx (tables : Tables) (bytes : Int → Byte) (size : BitVec 32) : Rx :=
  ((rxStart tables bytes size).move (rawSkb bytes size)).move (frameSkb bytes size)

theorem filledRx_bounded (tables : Tables) (bytes : Int → Byte) (size : BitVec 32) :
    (filledRx tables bytes size).Bounded := by
  have lt := size.isLt
  constructor
  case ok =>
    intro a mem
    simp only [filledRx, Rx.move, rxStart, nil_append, cons_append, mem_cons, not_mem_nil, or_false] at mem
    rcases mem with rfl | rfl <;> simp [Access.Ok, rawSkb, frameSkb, Skb.put]
  all_goals
    simp only [filledRx, Rx.move, frameSkb, rawSkb, Skb.put]
    omega

end

theorem onRawDataReceived_eq (env : Env) (tables : Tables) (bytes : Int → Byte) (size : BitVec 32) :
    onRawDataReceived env tables bytes size =
      if env.alloc then
        if (frameSkb bytes size).len < 14 then filledRx tables bytes size
        else if FrameForUs env (frameSkb bytes size) then
          match etherHandler env (etherType (frameSkb bytes size)) with
          | none => (filledRx tables bytes size).read 14
          | some handler => callEther env ((filledRx tables bytes size).read 14) handler
        else (filledRx tables bytes size).read 14
      else rxStart tables bytes size := rfl

/-- The receive path of any frame stays inside its bounds exactly if, where the frame carries an
IPv4 packet for us, its protocol is below 255 and, if that protocol has a handler, its header does
not reach past its end. -/
theorem receive_bounds_iff (env : Env) (tables : Tables) (bytes : Int → Byte) (size : BitVec 32) :
    (∀ a ∈ (onRawDataReceived env tables bytes size).log, a.Ok) ↔
      (env.alloc → CarriesPacket env bytes size → HeaderFits env bytes size) := by
  rw [onRawDataReceived_eq, frameSkb_len]
  have filled := filledRx_bounded tables bytes size
  cases env.alloc
  case false => simp [rxStart]
  simp only [if_true, forall_true_left]
  by_cases short : size.toNat < 14
  case pos =>
    simp only [short, if_true]
    refine iff_of_true filled.ok fun carries => ?_
    have long := carries.1
    omega
  have long := le_of_not_gt short
  have read : ((filledRx tables bytes size).read 14).Bounded :=
    filled.read (long.trans_eq (frameSkb_len bytes size).symm)
  simp only [short, if_false]
  by_cases ours : FrameForUs env (frameSkb bytes size)
  case neg =>
    simp only [ours, if_false]
    exact iff_of_true read.ok fun carries => absurd carries.2.1 ours
  simp only [ours, if_true]
  cases handler : etherHandler env (etherType (frameSkb bytes size)) with
  | none =>
    refine iff_of_true read.ok fun carries => ?_
    simp [CarriesPacket, handler] at carries
  | some kind =>
    have fits : (∀ a ∈ (callEther env ((filledRx tables bytes size).read 14) kind).log, a.Ok) ↔
        HandlerFits env (packetSkb bytes size) kind := callEther_ok read
          (long.trans_eq (frameSkb_len bytes size).symm) kind
    refine fits.trans ?_
    cases kind with
    | arp => exact iff_of_true trivial fun carries => by simp [CarriesPacket, handler] at carries
    | other => exact iff_of_true trivial fun carries => by simp [CarriesPacket, handler] at carries
    | ipv4 =>
      have whole : 20 ≤ size.toNat - 14 ↔ 34 ≤ size.toNat := by omega
      simp [HandlerFits, packetSkb_len long, CarriesPacket, HeaderFits, ours, handler, whole]

/-! ### Two frames of 34 bytes -/

/-- A stack at `10.0.2.15` with all its handlers and no sockets. -/
def plainEnv : Env where
  dev := ⟨0x0f02000a, 0x563412005452⟩
  etherHandlers := [(0x0008, .ipv4), (0x0608, .arp)]
  handlers
    | 1 => some .icmp
    | 6 => some .tcp
    | 17 => some .udp
    | _ => none
  udpHandler sockets _ _ := (sockets, [])
  tcpHandler socket _ := (true, socket, [])
  alloc := true
  allocTcp := true

def noTables : Tables := ⟨arpInit, [], []⟩

/-- The header of a broadcast frame and of a packet from `10.0.2.2` to us. -/
def headers (versionIhl : Byte) (totalLength : BitVec 16) (protocol : Byte) : List Byte :=
  [0xFF, 0xFF, 0xFF, 0xFF, 0xFF, 0xFF, 0x52, 0x54, 0, 0x12, 0x34, 0x56, 0x08, 0x00] ++
    [versionIhl, 0] ++ bytesOfWord (swapEndian16 totalLength) 2 ++
    [0, 0, 0, 0, 64, protocol, 0, 0, 10, 0, 2, 2, 10, 0, 2, 15]

def memoryOf (frame : List Byte) (a : Int) : Byte := frame.getD a.toNat 0

/-- Protocol 255 is looked up behind the table, and a header of 60 bytes moves the buffer 40 bytes
past its end. -/
theorem bounds_broken : (∃ a ∈ (onRawDataReceived plainEnv noTables (memoryOf (headers 0x45 20 255)) 34).log, ¬a.Ok) ∧
      ∃ a ∈ (onRawDataReceived plainEnv noTables (memoryOf (headers 0x4F 20 17)) 34).log, ¬a.Ok := by
  constructor
  · exact ⟨.index 255, by decide +kernel, by simp [Access.Ok]⟩
  · exact ⟨.skb 74 34 34, by decide +kernel, by simp [Access.Ok]⟩

end Jlos.Net
