import Jlos.Lib.Search
import Jlos.Net.Tcp

/-!
# The sockets of a protocol

A shallow embedding of the hash chains that hold the sockets of `net/udp.c` and `net/tcp.c`, and of
the UDP sockets. The chain of a bucket is the list of those sockets of the provider, the newest
first, whose address and port fall into it.
-/
namespace Jlos.Net

open Lib

/-- `tcp_hash_ip_port` and `udp_hash_ip_port` -/
def hashIpPort (ip : BitVec 32) (port : BitVec 16) : BitVec 32 :=
  ip ^^^ (port.setWidth 32 <<< 16) ^^^ (port.setWidth 32 >>> 16)

/-- The bucket of an address and a port, of 64. -/
def bucket (ip : BitVec 32) (port : BitVec 16) : BitVec 32 := hashIpPort ip port &&& 63

/-- `jlos_hash_chain_find`: the first socket in a bucket that `take` takes. -/
def hashChainFind {α β : Type} (home : α → BitVec 32) (sockets : List α) (key : BitVec 32) (take : α → Option β) :
    Option (List α × α × β × List α) :=
  search (fun socket => if home socket = key then take socket else none) sockets

theorem hashChainFind_some {α β : Type} {home : α → BitVec 32} {sockets : List α} {key : BitVec 32}
    {take : α → Option β}
    {found : List α × α × β × List α} (eq : hashChainFind home sockets key take = some found) :
    sockets = found.1 ++ found.2.1 :: found.2.2.2 ∧ take found.2.1 = some found.2.2.1 := by
  obtain ⟨whole, taken⟩ := search_some eq
  refine ⟨whole, ?_⟩
  split at taken
  case isTrue => exact taken
  case isFalse => cases taken

def broadcast : BitVec 32 := 0xFFFFFFFF

/-- The two ends of a socket. -/
structure Ends where
  localIp : BitVec 32
  localPort : BitVec 16
  remoteIp : BitVec 32
  remotePort : BitVec 16
  deriving DecidableEq, Repr

namespace Udp

/-- `jlos_udp_socket_t`; `bound` says whether it has a handler. -/
structure Socket where
  remotePort : BitVec 16
  remoteIp : BitVec 32
  localPort : BitVec 16
  localIp : BitVec 32
  bound : Bool
  listening : Bool
  deriving DecidableEq, Repr

/-- A datagram: the addresses of its packet, its ports as they stand in the header, and what is
behind the header. -/
structure Datagram where
  srcIp : BitVec 32
  dstIp : BitVec 32
  srcPort : BitVec 16
  dstPort : BitVec 16
  data : List Byte
  deriving DecidableEq, Repr

/-- `udp_match_socket`: a listening socket takes any sender and remembers it. -/
def matchSocket (d : Datagram) (socket : Socket) : Option Socket :=
  if socket.localPort ≠ d.dstPort then none
  else if socket.localIp ≠ d.dstIp ∧ d.dstIp ≠ broadcast then none
  else if socket.remoteIp = d.srcIp ∧ socket.remotePort = d.srcPort then some socket
  else if socket.listening then some { socket with remoteIp := d.srcIp, remotePort := d.srcPort }
  else none

def Socket.home (socket : Socket) : BitVec 32 := bucket socket.localIp socket.localPort

/-- The search of `jlos_udp_provider_on_internet_protocol_received`. -/
def findSocket (sockets : List Socket) (d : Datagram) : Option (List Socket × Socket × Socket × List Socket) :=
  match hashChainFind Socket.home sockets (bucket d.dstIp d.dstPort) (matchSocket d) with
  | some found => some found
  | none =>
    if d.dstIp = broadcast then hashChainFind Socket.home sockets (bucket 0 d.dstPort) (matchSocket d) else none

theorem findSocket_some {sockets : List Socket} {d : Datagram} {found : List Socket × Socket × Socket × List Socket}
    (eq : findSocket sockets d = some found) :
    sockets = found.1 ++ found.2.1 :: found.2.2.2 ∧ matchSocket d found.2.1 = some found.2.2.1 := by
  unfold findSocket at eq
  split at eq
  case h_1 first =>
    cases eq
    exact hashChainFind_some first
  case h_2 =>
    split at eq
    · exact hashChainFind_some eq
    · cases eq

/-- The socket of `jlos_udp_provider_connect`. -/
def connectSocket (localIp : BitVec 32) (freePort : BitVec 16) (ip : BitVec 32) (port : BitVec 16) : Socket where
  remotePort := swapEndian16 port
  remoteIp := ip
  localPort := swapEndian16 freePort
  localIp := localIp
  bound := false
  listening := false

/-- The socket of `jlos_udp_provider_listen`, over what was in its memory. -/
def listenSocket (localIp : BitVec 32) (port : BitVec 16) (memory : Socket) : Socket :=
  { memory with localPort := swapEndian16 port, localIp := localIp, bound := false, listening := true }

end Udp

namespace Tcp

def Socket.home (socket : Socket) : BitVec 32 := bucket socket.localIp socket.localPort

/-- The search of `jlos_tcp_provider_on_internet_protocol_received`. -/
def findSocket (sockets : List Socket) (seg : Segment) : Option (List Socket × Socket × Socket × List Socket) :=
  hashChainFind Socket.home sockets (bucket seg.dstIp seg.dstPort) fun socket =>
    if matchSocket seg socket then some socket else none

end Tcp

end Jlos.Net
