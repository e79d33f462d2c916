import Jlos.Net.Arp
import Jlos.Net.Sockets

/-!
# The receive path

A shallow embedding of `jlos_ether_frame_provider_on_raw_data_received` and of the handlers of ARP,
IPv4, ICMP, UDP and TCP that it reaches, over the socket buffers of `net/skbuff.c`. A buffer is
addressed from its head, by integers, and memory goes on in both directions. The model records each
state of the buffer, each header that is read and each index into the table of IPv4 handlers, what
these handlers are given, and the frames that are sent.
-/
namespace Jlos.Net

open Lib

/-! ### Socket buffers -/

/-- `jlos_net_sk_buff_t`, with pointers relative to its head -/
structure Skb where
  bytes : Int → Byte
  data : Int
  tail : Int
  stop : Int
  srcIp : BitVec 32
  dstIp : BitVec 32
  protocol : Byte

namespace Skb

def len (skb : Skb) : Nat := (BitVec.ofInt 32 (skb.tail - skb.data)).toNat

def put (skb : Skb) (n : Nat) : Skb := { skb with tail := skb.tail + n }

def pull (skb : Skb) (n : Nat) : Skb := { skb with data := skb.data + n }

def push (skb : Skb) (n : Nat) : Skb := { skb with data := skb.data - n }

def byte (skb : Skb) (i : Nat) : Byte := skb.bytes (skb.data + i)

def view (skb : Skb) (i n : Nat) : List Byte := (List.range n).map fun j => skb.byte (i + j)

def write (skb : Skb) (i : Nat) (bs : List Byte) : Skb :=
  { skb with bytes := fun a =>
      if skb.data + i ≤ a ∧ a < skb.data + i + bs.length then bs.getD (a - (skb.data + i)).toNat 0 else skb.bytes a }

end Skb

/-- What the receive path touches. -/
inductive Access
  | skb (data tail stop : Int)
  | read (data tail first : Int) (count : Nat)
  | index (i : Nat)
  deriving DecidableEq, Repr

/-- The buffer lies between its head and its end, a read lies inside it, and an index inside the
table of handlers. -/
def Access.Ok : Access → Prop
  | .skb data tail stop => 0 ≤ data ∧ data ≤ tail ∧ tail ≤ stop
  | .read data tail first count => data ≤ first ∧ first + count ≤ tail
  | .index i => i < 255

/-! ### The stack -/

/-- The handlers of the Ethernet layer; `other` is one that does nothing. -/
inductive EtherHandler
  | arp | ipv4 | other
  deriving DecidableEq, Repr

/-- The handlers of the IPv4 layer. -/
inductive Protocol
  | icmp | udp | tcp | other
  deriving DecidableEq, Repr

/-- What the receive path finds: the device, the handlers that are registered, the newest first,
those of the sockets as functions of what they are given, and whether buffers can be allocated. -/
structure Env where
  dev : Device
  etherHandlers : List (BitVec 16 × EtherHandler)
  handlers : Nat → Option Protocol
  udpHandler : List Udp.Socket → Udp.Socket → List Byte → List Udp.Socket × List (List Byte)
  tcpHandler : Tcp.Socket → List Byte → Bool × Tcp.Socket × List Tcp.Segment
  alloc : Bool
  allocTcp : Bool

/-- A run of the receive path: the buffer, what it has touched, what the IPv4 handlers were given,
the frames that were sent and the segments handed to the IPv4 layer, and the tables it changes. -/
structure Rx where
  skb : Skb
  log : List Access
  given : List (Protocol × List Byte)
  frames : List (List Byte)
  segments : List Tcp.Segment
  arp : Arp
  udp : List Udp.Socket
  tcp : List Tcp.Socket

namespace Rx

/-- Moves the pointers of the buffer. -/
def move (r : Rx) (skb : Skb) : Rx := { r with skb := skb, log := r.log ++ [.skb skb.data skb.tail skb.stop] }

/-- Reads `n` bytes behind `data`. -/
def read (r : Rx) (n : Nat) : Rx := { r with log := r.log ++ [.read r.skb.data r.skb.tail r.skb.data n] }

def write (r : Rx) (i : Nat) (bs : List Byte) : Rx := { r with skb := r.skb.write i bs }

end Rx

/-- The bytes of a word, the low one first. -/
def bytesOfWord {w : Nat} (x : BitVec w) (n : Nat) : List Byte := (List.range n).map (byteOf x)

/-! ### ARP -/

def arpMessageOf (skb : Skb) : ArpMessage where
  hardwareType := le16 skb.byte 0
  protocol := le16 skb.byte 2
  hardwareAddressSize := skb.byte 4
  protocolAddressSize := skb.byte 5
  command := le16 skb.byte 6
  srcMac := ofBytes 48 (fun j => skb.byte (8 + j)) 6
  srcIp := le32 skb.byte 14
  dstMac := ofBytes 48 (fun j => skb.byte (18 + j)) 6
  dstIp := le32 skb.byte 24

def bytesOfArpMessage (msg : ArpMessage) : List Byte :=
  bytesOfWord msg.hardwareType 2 ++ bytesOfWord msg.protocol 2 ++ [msg.hardwareAddressSize, msg.protocolAddressSize] ++
    bytesOfWord msg.command 2 ++ bytesOfWord msg.srcMac 6 ++ bytesOfWord msg.srcIp 4 ++ bytesOfWord msg.dstMac 6 ++
    bytesOfWord msg.dstIp 4

/-- `jlos_arp_on_ether_frame_received` -/
def arpReceived (env : Env) (r : Rx) : Bool × Rx :=
  if r.skb.len < 28 then (false, r)
  else
    let result := arpOnEtherFrameReceived r.arp env.dev (arpMessageOf r.skb)
    let read := { r.read 28 with arp := result.2.1 }
    if result.1 then (true, read.write 0 (bytesOfArpMessage result.2.2)) else (false, read)

/-! ### Checksums -/

def csumPartial (data : Nat → Byte) (length : Nat) (init : BitVec 32) : BitVec 32 :=
  let words := (List.range (length / 2)).foldl
    (fun csum i => csum + (swapEndian16 (le16 data (2 * i))).setWidth 32) init
  if length % 2 = 1 then words + ((data (length - 1)).setWidth 32 <<< 8) else words

/-- The loop of `jlos_internet_protocol_provider_csum_fold`; two rounds leave nothing above the low
16 bits. -/
def csumFoldLoop : (fuel : Nat) → BitVec 32 → BitVec 32
  | 0, csum => csum
  | fuel + 1, csum => if csum >>> 16 = 0 then csum else csumFoldLoop fuel ((csum &&& 0xFFFF) + (csum >>> 16))

def csumFold (csum : BitVec 32) : BitVec 16 := swapEndian16 ((~~~(csumFoldLoop 2 csum)).setWidth 16)

/-! ### ICMP, UDP and TCP -/

/-- `jlos_icmp_on_internet_protocol_received`: an echo request becomes its reply in place. -/
def icmpReceived (r : Rx) : Bool × Rx :=
  if r.skb.len < 8 then (false, r)
  else
    let read := r.read 8
    if r.skb.byte 0 = 8 then
      let cleared := (read.write 0 [0]).write 2 [0, 0]
      let csum := csumFold (csumPartial cleared.skb.byte r.skb.len 0)
      (true, (cleared.read r.skb.len).write 2 (bytesOfWord csum 2))
    else (false, read)

def datagramOf (skb : Skb) : Udp.Datagram where
  srcIp := skb.srcIp
  dstIp := skb.dstIp
  srcPort := le16 skb.byte 0
  dstPort := le16 skb.byte 2
  data := skb.view 8 ((skb.len - 8) % 65536)

/-- `jlos_udp_socket_handle_udp_message`: the sockets behind it, and the frames that the handler has
sent. -/
def handleUdpMessage (env : Env) (sockets : List Udp.Socket) (socket : Udp.Socket) (data : List Byte) :
    List Udp.Socket × List (List Byte) :=
  if socket.bound then env.udpHandler sockets socket data else (sockets, [])

/-- `jlos_udp_provider_on_internet_protocol_received` -/
def udpReceived (env : Env) (r : Rx) : Bool × Rx :=
  if r.skb.len < 8 then (false, r)
  else
    let read := r.read 8
    match Udp.findSocket r.udp (datagramOf r.skb) with
    | none => (false, read)
    | some found =>
      let handled := handleUdpMessage env (found.1 ++ found.2.2.1 :: found.2.2.2) found.2.2.1 (datagramOf r.skb).data
      (true, { read with udp := handled.1, frames := r.frames ++ handled.2 })

def flagsOf (low : Byte) : Tcp.Flags where
  fin := low.getLsbD 0
  syn := low.getLsbD 1
  rst := low.getLsbD 2
  psh := low.getLsbD 3
  ack := low.getLsbD 4

def segmentOf (skb : Skb) : Tcp.Segment where
  srcIp := skb.srcIp
  dstIp := skb.dstIp
  srcPort := le16 skb.byte 0
  dstPort := le16 skb.byte 2
  sequenceNumber := swapEndian32 (le32 skb.byte 4)
  acknowledgementNumber := swapEndian32 (le32 skb.byte 8)
  flags := flagsOf (skb.byte 13)
  dataOffset := (skb.byte 12 >>> 4).toNat
  rest := skb.view 20 (skb.len - 20)

/-- The function for the socket that was found, around the call of its handler. -/
def tcpReceivedBy (env : Env) (socket : Tcp.Socket) (seg : Tcp.Segment) : Tcp.Socket × List Tcp.Segment :=
  let before := Tcp.onReceived env.allocTcp socket seg
  match before.2.2 with
  | none => (before.1, before.2.1)
  | some payload =>
    let handled := env.tcpHandler before.1 (Tcp.handed payload)
    let behind := Tcp.onHandled env.allocTcp handled.2.1 payload handled.1
    (behind.1, before.2.1 ++ handled.2.2 ++ behind.2)

/-- `jlos_tcp_provider_on_internet_protocol_received`; nothing is sent back, since only a segment
with a socket is ever reset. -/
def tcpReceived (env : Env) (r : Rx) : Bool × Rx :=
  if r.skb.len < 20 then (false, r)
  else
    let read := r.read 20
    match Tcp.findSocket r.tcp (segmentOf r.skb) with
    | none => (false, read)
    | some found =>
      let result := tcpReceivedBy env found.2.1 (segmentOf r.skb)
      (false, { read with
        tcp := found.1 ++ result.1 :: found.2.2.2, segments := r.segments ++ result.2 })

/-- The handler of a protocol. -/
def protocolReceived (env : Env) (r : Rx) : Protocol → Bool × Rx
  | .icmp => icmpReceived r
  | .udp => udpReceived env r
  | .tcp => tcpReceived env r
  | .other => (false, r)

/-! ### IPv4 -/

/-- The header of a packet: `JLOS_IPV4_GET_IHL` and the other fields that are read. -/
def ihl (skb : Skb) : Nat := (skb.byte 0 &&& 0x0F).toNat
def totalLength (skb : Skb) : Nat := (swapEndian16 (le16 skb.byte 2)).toNat
def ipProtocol (skb : Skb) : Byte := skb.byte 9
def ipSrc (skb : Skb) : BitVec 32 := le32 skb.byte 12
def ipDst (skb : Skb) : BitVec 32 := le32 skb.byte 16

def PacketForUs (env : Env) (skb : Skb) : Prop := ipDst skb = env.dev.ip ∨ ipDst skb = broadcast
  deriving Decidable

/-- A packet that is sent back: the addresses change places, and the header gets its checksum. -/
def turnPacket (r : Rx) (headerBytes : Nat) : Rx :=
  let src := ipSrc r.skb
  let turned := (((r.write 16 (bytesOfWord src 4)).write 12 (bytesOfWord (ipDst r.skb) 4)).write 8
    [0x40]).write 10 [0, 0]
  let csum := csumFold (csumPartial turned.skb.byte headerBytes 0)
  (turned.read headerBytes).write 10 (bytesOfWord csum 2)

/-- The handler of a protocol is called with the packet behind its header. The length that the
packet gives is not used. -/
def callProtocol (env : Env) (r : Rx) (protocol : Protocol) : Bool × Rx :=
  let headerBytes := 4 * ihl r.skb
  let skb := { r.skb with srcIp := ipSrc r.skb, dstIp := ipDst r.skb, protocol := ipProtocol r.skb }
  let pulled := r.move (skb.pull headerBytes)
  let called := { pulled with given := r.given ++ [(protocol, pulled.skb.view 0 pulled.skb.len)] }
  let result := protocolReceived env called protocol
  if result.1 then
    let pushed := result.2.move (result.2.skb.push headerBytes)
    (true, turnPacket pushed headerBytes)
  else (false, result.2)

/-- `jlos_internet_protocol_provider_on_ether_frame_received`; the table of handlers has 255
entries, and what lies behind it is not followed. -/
def ipv4Received (env : Env) (r : Rx) : Bool × Rx :=
  if r.skb.len < 20 then (false, r)
  else
    let read := r.read 20
    if PacketForUs env r.skb then
      let indexed := { read with log := read.log ++ [.index (ipProtocol r.skb).toNat] }
      if (ipProtocol r.skb).toNat < 255 then
        match env.handlers (ipProtocol r.skb).toNat with
        | none => (false, indexed)
        | some protocol => callProtocol env indexed protocol
      else (false, indexed)
    else (false, read)

/-! ### Ethernet -/

def etherReceived (env : Env) (r : Rx) : EtherHandler → Bool × Rx
  | .arp => arpReceived env r
  | .ipv4 => ipv4Received env r
  | .other => (false, r)

def dstMac (skb : Skb) : BitVec 48 := ofBytes 48 skb.byte 6

def etherType (skb : Skb) : BitVec 16 := le16 skb.byte 12

def FrameForUs (env : Env) (skb : Skb) : Prop := dstMac skb = 0xFFFFFFFFFFFF ∨ dstMac skb = env.dev.mac.setWidth 48
  deriving Decidable

/-- The handler of a type of frame: `jlos_hash_chain_see` -/
def etherHandler (env : Env) (type : BitVec 16) : Option EtherHandler :=
  (env.etherHandlers.find? fun entry => entry.1 = type).map Prod.snd

/-- The handler is called with the frame behind its header; a frame that is sent back goes to its
sender. -/
def callEther (env : Env) (r : Rx) (handler : EtherHandler) : Rx :=
  let result := etherReceived env (r.move (r.skb.pull 14)) handler
  if result.1 then
    let pushed := (result.2.move (result.2.skb.push 14)).read 14
    let turned := (pushed.write 0 (pushed.skb.view 6 6)).write 6 (bytesOfWord env.dev.mac 6)
    { turned with frames := turned.frames ++ [turned.skb.view 0 turned.skb.len] }
  else result.2

/-- The buffer of a frame: the bytes of the frame, and what lies around them. -/
def rawSkb (bytes : Int → Byte) (size : BitVec 32) : Skb :=
  { bytes := bytes, data := 0, tail := 0, stop := size.toNat, srcIp := 0, dstIp := 0, protocol := 0 }

/-- The tables of the stack. -/
structure Tables where
  arp : Arp
  udp : List Udp.Socket
  tcp : List Tcp.Socket

def rxStart (tables : Tables) (bytes : Int → Byte) (size : BitVec 32) : Rx :=
  { skb := rawSkb bytes size, log := [], given := [], frames := [], segments := [],
    arp := tables.arp, udp := tables.udp,
    tcp := tables.tcp }

def onRawDataReceived (env : Env) (tables : Tables) (bytes : Int → Byte) (size : BitVec 32) : Rx :=
  let start := rxStart tables bytes size
  if env.alloc then
    let filled := (start.move start.skb).move (start.skb.put size.toNat)
    if filled.skb.len < 14 then filled
    else
      let read := filled.read 14
      if FrameForUs env read.skb then
        match etherHandler env (etherType read.skb) with
        | none => read
        | some handler => callEther env read handler
      else read
  else start

end Jlos.Net
