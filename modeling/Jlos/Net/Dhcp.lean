import Jlos.Lib.Loop
import Jlos.Lib.Run
import Jlos.Net.Wire

/-!
# The DHCP client

A shallow embedding of `net/dhcp.c` and of `jlos_network_apply_config`.
-/
namespace Jlos.Net.Dhcp

open Lib Option

/-! ### Messages -/

/-- `jlos_dhcp_state_t` -/
inductive State
  | init | selecting | requesting | bound | failed
  deriving DecidableEq, Repr

/-- A datagram as `jlos_dhcp_on_message` is given it, with the memory behind it. -/
structure Datagram where
  data : Nat → Byte
  size : BitVec 16

/-- The loop of `dhcp_find_option`. Its state is the 16-bit index, so that a search that takes `2 ^
16` rounds takes forever. -/
def findLoop (options : Nat → Byte) (maxLen : Nat) (code : Byte) : (fuel i : Nat) → Option (Option Nat)
  | 0, _ => none
  | fuel + 1, i =>
    if i < maxLen then
      if options i = 0 then findLoop options maxLen code fuel ((i + 1) % 65536)
      else if options i = 255 then some none
      else if maxLen ≤ i + 1 then some none
      else if options i = code then some (some (i + 2))
      else findLoop options maxLen code fuel ((i + 2 + (options (i + 1)).toNat) % 65536)
    else some none

/-- `dhcp_find_option`: where the value of an option starts, if it is there; `none` for a search
that never ends. -/
def findOption (options : Nat → Byte) (maxLen : Nat) (code : Byte) : Option (Option Nat) :=
  findLoop options maxLen code 65536 0

namespace Datagram

def op (m : Datagram) : Byte := m.data 0
def xid (m : Datagram) : BitVec 32 := le32 m.data 4
def yiaddr (m : Datagram) : BitVec 32 := le32 m.data 16
def siaddr (m : Datagram) : BitVec 32 := le32 m.data 20
def magicCookie (m : Datagram) : BitVec 32 := le32 m.data 236

/-- What stands behind the header. -/
def options (m : Datagram) (i : Nat) : Byte := m.data (240 + i)

def option (m : Datagram) (code : Byte) : Option (Option Nat) := findOption m.options (m.size.toNat - 240) code

/-- The value of an option of four bytes, or a default. -/
def address (m : Datagram) (code : Byte) (default : BitVec 32) : Option (BitVec 32) :=
  (m.option code).map fun
    | some i => le32 m.options i
    | none => default

/-- The server that a message names: its option 54, or `siaddr`. -/
def serverIdentifier (m : Datagram) : Option (BitVec 32) := m.address 54 m.siaddr

def msgType (m : Datagram) : Option (Option Byte) := (m.option 53).map (Option.map m.options)

/-- The checks of `jlos_dhcp_on_message`: a whole header, a reply of our exchange. -/
def ReplyTo (m : Datagram) (xid : BitVec 32) : Prop :=
  240 ≤ m.size.toNat ∧ m.op = 2 ∧ m.xid = xid ∧ m.magicCookie = swapEndian32 0x63825363
  deriving Decidable

end Datagram

/-- A message that the client hands to its socket. -/
inductive Sent
  | discover (xid : BitVec 32)
  | request (xid requestedIp serverId : BitVec 32)
  deriving DecidableEq, Repr

/-! ### The client -/

/-- `jlos_dhcp_client_t` -/
structure Client where
  state : State
  xid : BitVec 32
  serverId : BitVec 32
  offeredIp : BitVec 32
  deriving DecidableEq, Repr

/-- The addresses of a configuration: `config` of the network stack. -/
structure Config where
  ip : BitVec 32
  subnetMask : BitVec 32
  gateway : BitVec 32
  dnsServer : BitVec 32
  deriving DecidableEq, Repr

/-- The client, the configuration of the network stack, what `jlos_network_apply_config` has set,
and the messages sent so far. -/
structure Sys where
  client : Client
  config : Config
  ipAddress : BitVec 32
  gatewayIp : BitVec 32
  subnetMask : BitVec 32
  sent : List Sent
  deriving DecidableEq, Repr

def applyConfig (s : Sys) : Sys :=
  { s with ipAddress := s.config.ip, gatewayIp := s.config.gateway, subnetMask := s.config.subnetMask }

def clientRequest (s : Sys) : Sys :=
  { s with
    client := { s.client with state := .requesting }
    sent := s.sent ++ [.request s.client.xid s.client.offeredIp s.client.serverId] }

def handleOffer (s : Sys) (m : Datagram) : Option Sys :=
  if s.client.state = .selecting then
    m.serverIdentifier.map fun serverId =>
      clientRequest { s with client := { s.client with offeredIp := m.yiaddr, serverId := serverId } }
  else some s

/-- The configuration of an ACK. -/
def configOf (m : Datagram) (old : Config) : Option Config := do
  let subnetMask ← m.address 1 old.subnetMask
  let gateway ← m.address 3 old.gateway
  let dnsServer ← m.address 6 old.dnsServer
  return ⟨m.yiaddr, subnetMask, gateway, dnsServer⟩

def handleAck (s : Sys) (m : Datagram) : Option Sys :=
  if s.client.state = .requesting then
    (configOf m s.config).map fun config =>
      applyConfig { s with config := config, client := { s.client with state := .bound } }
  else some s

/-- `jlos_dhcp_on_message`; `none` when it does not return. -/
def onMessage (s : Sys) (m : Datagram) : Option Sys :=
  if m.ReplyTo s.client.xid then
    match m.msgType with
    | none => none
    | some none => some s
    | some (some type) =>
      if type = 2 then handleOffer s m
      else if type = 5 then handleAck s m
      else if type = 6 then some { s with client := { s.client with state := .failed } }
      else some s
  else some s

/-- `jlos_dhcp_client_discover`; the clock gives an identifier for the first one. -/
def clientDiscover (s : Sys) (now : BitVec 64) : Sys :=
  if s.client.state = .bound then s
  else
    let fresh : BitVec 32 := now.setWidth 32
    let xid := if s.client.xid = 0 then (if fresh = 0 then 1 else fresh) else s.client.xid
    { s with client := { s.client with state := .selecting, xid := xid }, sent := s.sent ++ [.discover xid] }

/-- What happens to a client. -/
inductive Op
  /-- A datagram, and which exchange of the client it belongs to. The code cannot see the number:
  all exchanges have the same `xid`. -/
  | message (m : Datagram) (exchange : Nat)
  | discover (now : BitVec 64)

def exec (s : Sys) : Op → Option Sys
  | .message m _ => onMessage s m
  | .discover now => some (clientDiscover s now)

def step (s : Sys) (op : Op) (s' : Sys) : Prop := exec s op = some s'

/-- `jlos_dhcp_client_init`, over any configuration. -/
def start (config : Config) (ip : BitVec 32) : Sys where
  client := ⟨.init, 0, 0, 0⟩
  config := config
  ipAddress := ip
  gatewayIp := config.gateway
  subnetMask := config.subnetMask
  sent := []

/-! ### What the client owes its user -/

def Sent.isDiscover : Sent → Bool
  | .discover _ => true
  | .request .. => false

/-- The number of the exchange that the client is in: each DISCOVER starts one. -/
def Sys.exchange (s : Sys) : Nat := s.sent.countP Sent.isDiscover

/-- An ACK to the REQUEST that was sent last: in the exchange of that request, from the server and
with the address that were requested. -/
def Acknowledges (s : Sys) (m : Datagram) (exchange : Nat) : Prop :=
  m.ReplyTo s.client.xid ∧ m.msgType = some (some 5) ∧ exchange = s.exchange ∧
    ∃ ip serverId, s.sent.getLast? = some (.request s.client.xid ip serverId) ∧
      m.serverIdentifier = some serverId ∧ m.yiaddr = ip

/-- The client becomes bound only on an ACK to its own request and takes the address that it asked
for; once bound, no message of another server or of another exchange changes its state or its
address. -/
def Sound (s : Sys) (op : Op) : Prop :=
  ∀ s', exec s op = some s' →
    (s.client.state ≠ .bound → s'.client.state = .bound →
      ∃ m exchange, op = .message m exchange ∧ Acknowledges s m exchange ∧ s'.ipAddress = m.yiaddr) ∧
    (s.client.state = .bound → ∀ m exchange, op = .message m exchange →
      m.serverIdentifier ≠ some s.client.serverId ∨ exchange ≠ s.exchange →
      s'.client.state = .bound ∧ s'.ipAddress = s.ipAddress)

/-- An ACK that the client takes belongs to its exchange, comes from the server it asked and carries
the address it asked for, and a NAK that reaches a bound client belongs to its exchange and comes
from its server. -/
def Meets (s : Sys) : Op → Prop
  | .discover _ => True
  | .message m exchange => m.ReplyTo s.client.xid →
    (m.msgType = some (some 5) → s.client.state = .requesting → (configOf m s.config).isSome →
      exchange = s.exchange ∧ m.serverIdentifier = some s.client.serverId ∧
        m.yiaddr = s.client.offeredIp) ∧
    (m.msgType = some (some 6) → s.client.state = .bound →
      exchange = s.exchange ∧ m.serverIdentifier = some s.client.serverId)

/-- While the client is requesting, the REQUEST for its offer is the last message it has sent. -/
def Requested (s : Sys) : Prop :=
  s.client.state = .requesting →
    s.sent.getLast? = some (.request s.client.xid s.client.offeredIp s.client.serverId)

variable {s s' : Sys} {m : Datagram} {op : Op}

/-- What a message can do: an offer is requested, an ACK is applied, a NAK fails the client, and
nothing else is changed. -/
theorem onMessage_cases (result : onMessage s m = some s') : s' = s ∨ (m.ReplyTo s.client.xid ∧
      ((s.client.state = .selecting ∧ ∃ client : Client, s' = clientRequest { s with client := client }) ∨
       (m.msgType = some (some 5) ∧ s.client.state = .requesting ∧ (configOf m s.config).isSome ∧
        s'.client = { s.client with state := .bound } ∧ s'.ipAddress = m.yiaddr) ∨
       (m.msgType = some (some 6) ∧ s' = { s with client := { s.client with state := .failed } }))) := by
  unfold onMessage at result
  by_cases reply : m.ReplyTo s.client.xid
  case neg =>
    left
    simpa [reply] using result.symm
  simp only [reply, if_true] at result
  match type : m.msgType, result with
  | some none, result => exact .inl (some.inj result).symm
  | some (some t), result =>
    dsimp only at result
    split_ifs at result with offer ack nak
    · unfold handleOffer at result
      split_ifs at result with selecting
      · obtain ⟨serverId, -, rfl⟩ := map_eq_some_iff.mp result
        exact .inr ⟨reply, .inl ⟨selecting, _, rfl⟩⟩
      · exact .inl (some.inj result).symm
    · subst ack
      unfold handleAck at result
      split_ifs at result with requesting
      · obtain ⟨config, applied, rfl⟩ := map_eq_some_iff.mp result
        have address : config.ip = m.yiaddr := by
          simp only [configOf, bind_eq_bind, bind_eq_some_iff] at applied
          obtain ⟨_, -, _, -, _, -, done⟩ := applied
          rw [← some.inj done]
        refine .inr ⟨reply, .inr (.inl ⟨rfl, requesting, ?_, rfl, address⟩)⟩
        rw [applied]
        rfl
      · exact .inl (some.inj result).symm
    · subst nak
      exact .inr ⟨reply, .inr (.inr ⟨rfl, (some.inj result).symm⟩)⟩
    · exact .inl (some.inj result).symm

theorem Requested.step (requested : Requested s) (taken : step s op s') : Requested s' := by
  cases op with
  | discover now =>
    obtain rfl : clientDiscover s now = s' := some.inj taken
    unfold clientDiscover
    split
    case isTrue => exact requested
    case isFalse =>
      intro requesting
      cases requesting
  | message m exchange =>
    simp only [Dhcp.step, exec] at taken
    rcases onMessage_cases taken with rfl | ⟨-, ⟨-, client, rfl⟩ | ⟨-, -, -, client, -⟩ | ⟨-, rfl⟩⟩
    case inl => exact requested
    case inr.inl =>
      intro _
      simp [clientRequest]
    case inr.inr.inl =>
      intro requesting
      rw [client] at requesting
      cases requesting
    case inr.inr.inr =>
      intro requesting
      cases requesting

theorem onMessage_ack (reply : m.ReplyTo s.client.xid) (ack : m.msgType = some (some 5))
    (requesting : s.client.state = .requesting) (ends : (configOf m s.config).isSome) :
    ∃ s', onMessage s m = some s' ∧ s'.client.state = .bound := by
  obtain ⟨config, applied⟩ := isSome_iff_exists.mp ends
  exact ⟨_, by simp [onMessage, reply, ack, handleAck, requesting, applied]; rfl, rfl⟩

/-- A NAK is taken in every state. -/
theorem onMessage_nak (reply : m.ReplyTo s.client.xid) (nak : m.msgType = some (some 6)) :
    onMessage s m = some { s with client := { s.client with state := .failed } } := by
  simp [onMessage, reply, nak]

/-- A message is handled soundly exactly if it meets the condition. -/
theorem sound_message_iff (requested : Requested s) (exchange : Nat) :
    Sound s (.message m exchange) ↔ Meets s (.message m exchange) := by
  simp only [Sound, exec]
  constructor
  case mp =>
    -- Soundness of the step, read off the ACK or the NAK that is taken.
    intro sound reply
    constructor
    · intro ack requesting ends
      obtain ⟨s', taken, bound⟩ := onMessage_ack reply ack requesting ends
      have unbound : s.client.state ≠ .bound := by simp [requesting]
      obtain ⟨m', e, same, ⟨-, -, now, ip, serverId, last, server, address⟩, -⟩ :=
        (sound s' taken).1 unbound bound
      cases same
      rw [requested requesting] at last
      cases last
      exact ⟨now, server, address⟩
    · intro nak bound
      by_contra other
      have stale := (not_and_or.mp other).symm
      have kept := ((sound _ (onMessage_nak reply nak)).2 bound m exchange rfl stale).1
      cases kept
  case mpr =>
    intro meets s' taken
    -- The message is dropped, or it is an offer, an ACK or a NAK that is taken.
    rcases onMessage_cases taken with rfl | ⟨reply, ⟨selecting, client, rfl⟩ | ack | ⟨nak, rfl⟩⟩
    case inl => exact ⟨fun unbound bound => absurd bound unbound, fun bound _ _ _ _ => ⟨bound, rfl⟩⟩
    case inr.inl =>
      constructor
      · intro _ bound
        cases bound
      · intro bound
        rw [selecting] at bound
        cases bound
    case inr.inr.inl =>
      obtain ⟨type, requesting, ends, client, address⟩ := ack
      obtain ⟨now, server, offered⟩ := (meets reply).1 type requesting ends
      constructor
      · intro _ _
        exact ⟨m, exchange, rfl, ⟨reply, type, now, _, _, requested requesting, server, offered⟩, address⟩
      · intro bound
        rw [requesting] at bound
        cases bound
    case inr.inr.inr =>
      constructor
      · intro _ bound
        cases bound
      · rintro bound m' e same other
        cases same
        obtain ⟨now, own⟩ := (meets reply).2 nak bound
        rcases other with server | stale
        · exact absurd own server
        · exact absurd now stale

/-- A discover does not bind the client. -/
theorem sound_discover (now : BitVec 64) : Sound s (.discover now) := by
  intro s' taken
  obtain rfl : clientDiscover s now = s' := some.inj taken
  constructor
  · intro unbound bound
    simp [clientDiscover, unbound] at bound
  · intro _ m exchange same
    cases same

/-- In every state that the client reaches, it handles what comes next soundly exactly if an ACK it
takes then belongs to its last exchange, comes from the server and carries the address it has asked
for, and a NAK to a bound client belongs to that exchange and comes from its server. -/
theorem sound_iff {config : Config} {ip : BitVec 32} {history : List (Sys × Op)}
    (run : Run step (start config ip) history s) (op : Op) : Sound s op ↔ Meets s op := by
  have requested : Requested s := by
    have initial : Requested (start config ip) := by
      intro requesting
      cases requesting
    exact (Run.invariant initial (fun _ _ _ holds taken => holds.step taken) run).1
  cases op with
  | discover now => exact iff_of_true (sound_discover now) trivial
  | message m exchange => exact sound_message_iff requested exchange

/-! ### Two servers -/

def bytesOf (x : BitVec 32) : List Byte := [x.extractLsb' 0 8, x.extractLsb' 8 8,
    x.extractLsb' 16 8, x.extractLsb' 24 8]

/-- A reply of a server in the exchange 1, with zeros behind it. -/
def replyOf (type : Byte) (yiaddr serverId : BitVec 32) : Datagram where
  data i := ([2, 1, 6, 0] ++ bytesOf 1 ++ List.replicate 8 0 ++ bytesOf yiaddr ++ List.replicate 216 0 ++
    [0x63, 0x82, 0x53, 0x63] ++ [53, 1, type, 54, 4] ++ bytesOf serverId ++ [255]).getD i 0
  size := 250

/-- The client has requested `10.0.2.15` from the server `10.0.2.2`. -/
def requestingClient : Sys :=
  let request : Sent := .request 1 0x0f02000a 0x0202000a
  ⟨⟨.requesting, 1, 0x0202000a, 0x0f02000a⟩, ⟨0, 0, 0, 0⟩, 0, 0, 0, [.discover 1, request]⟩

theorem own_ack_sound : Sound requestingClient (.message (replyOf 5 0x0f02000a 0x0202000a) 1) := by
  have ends : [Op.discover 1, .message (replyOf 2 0x0f02000a 0x0202000a) 1].foldlM
      (guarded exec fun _ _ => True) (start ⟨0, 0, 0, 0⟩ 0) = some requestingClient := by
    decide +kernel
  obtain ⟨history, run, -⟩ := exists_run_of_foldlM ends
  apply (sound_iff run _).mpr
  intro _
  constructor
  · intro _ _ _
    decide +kernel
  · intro _ bound
    cases bound

/-- The server `10.0.2.2` offers `10.0.2.15`, which the client requests. The server `10.0.2.3`
acknowledges `10.0.2.99` instead, and the client takes that address. And once the client is bound in
its second exchange, a NAK of its own server to the first one fails it. -/
theorem other_ack_applied :
    ([Op.discover 1, .message (replyOf 2 0x0f02000a 0x0202000a) 1,
        .message (replyOf 5 0x6302000a 0x0302000a) 1].foldlM exec (start ⟨0, 0, 0, 0⟩ 0)).map
        (fun s => (s.client.state, s.ipAddress, s.sent)) =
      some (.bound, 0x6302000a, [.discover 1, .request 1 0x0f02000a 0x0202000a]) ∧
    (([Op.discover 1, .message (replyOf 2 0x0f02000a 0x0202000a) 1, .discover 2,
        .message (replyOf 2 0x0f02000a 0x0202000a) 2,
        .message (replyOf 5 0x0f02000a 0x0202000a) 2].foldlM exec (start ⟨0, 0, 0, 0⟩ 0)).map
        fun s => (s.client.state, (exec s (.message (replyOf 6 0 0x0202000a) 1)).map (·.client.state))) =
      some (.bound, some .failed) := by
  decide +kernel

/-! ### The bytes of options -/

namespace Datagram

/-- What the search returns at the index where it ends. -/
def hit (m : Datagram) (code : Byte) (i : Nat) : Option Nat :=
  if i + 1 < m.size.toNat - 240 ∧ m.options i = code then some (i + 2) else none

section search

variable {code : Byte} (plain : code ≠ 0 ∧ code ≠ 255)
include plain

end search

end Datagram

/-- The options whose first bytes `jlos_dhcp_on_message` reads, with the number of bytes. -/
def asked (s : Sys) (m : Datagram) : List (Byte × Nat) :=
  if m.ReplyTo s.client.xid then
    (53, 1) :: if m.msgType = some (some 2) ∧ s.client.state = .selecting then [(54, 4)]
      else if m.msgType = some (some 5) ∧ s.client.state = .requesting then [(1, 4), (3, 4), (6, 4)]
      else []
  else []

end Jlos.Net.Dhcp
