import Jlos.Lib.Run
import Jlos.Net.Sockets

/-!
# Ports

The providers of TCP and UDP sockets as they connect, listen and disconnect, while segments and
datagrams arrive. Ports are not looked up when they are given out, and a socket stays in the bucket
of the address that the interface had when it was created.
-/
namespace Jlos.Net

open Lib List

def ephemeralPortStart : BitVec 16 := 1024

/-- A provider: its sockets, the next local port, and the local ports that were given so far. -/
structure Provider (α : Type) where
  sockets : List α
  freePort : BitVec 16
  given : List (BitVec 16)

namespace Provider

variable {α : Type}

def init : Provider α := ⟨[], ephemeralPortStart, []⟩

def connect (p : Provider α) (socket : BitVec 16 → α) : Provider α :=
  { sockets := socket p.freePort :: p.sockets, freePort := p.freePort + 1, given := p.freePort :: p.given }

def add (p : Provider α) (socket : α) : Provider α := { p with sockets := socket :: p.sockets }

/-- Open sockets have different ends, and every port given is an ephemeral one. -/
def Sound (ends : α → Option Ends) (p : Provider α) : Prop :=
  Distinct ends p.sockets ∧ ∀ port ∈ p.given, ephemeralPortStart ≤ port

/-- The address and the port at the near end of an open socket. -/
def near (ends : α → Option Ends) (socket : α) : Option (BitVec 32 × BitVec 16) :=
  (ends socket).map fun e => (e.localIp, swapEndian16 e.localPort)

/-- The near ends of the open sockets are distinct, and the counter is ahead of all their ports. -/
structure Counted (ends : α → Option Ends) (p : Provider α) : Prop where
  distinct : Distinct (near ends) p.sockets
  below : ∀ x ∈ p.sockets.filterMap (near ends), x.2.toNat < 1024 + p.given.length
  next : p.freePort = BitVec.ofNat 16 (1024 + p.given.length)
  given : ∀ port ∈ p.given, ephemeralPortStart ≤ port

namespace Counted

variable {ends : α → Option Ends} {p : Provider α} {ip : BitVec 32} {port : BitVec 16}

theorem init : Counted ends (init : Provider α) := ⟨nodup_nil, nofun, rfl, nofun⟩

theorem sound (h : Counted ends p) : p.Sound ends := by
  refine ⟨?_, h.given⟩
  have nodup := h.distinct
  rw [Distinct, show near ends = fun socket => (ends socket).map _ from rfl, ← map_filterMap] at nodup
  exact nodup.of_map

/-- Before the counter wraps, the port it gives is above all the others. -/
theorem connect (h : Counted ends p) (few : p.given.length < 64512) (ip : BitVec 32)
    {socket : BitVec 16 → α} (at' : near ends (socket p.freePort) = some (ip, p.freePort)) :
    Counted ends (p.connect socket) := by
  have port : p.freePort.toNat = 1024 + p.given.length := by
    rw [h.next, BitVec.toNat_ofNat, Nat.mod_eq_of_lt (by omega)]
  have opens : (socket p.freePort :: p.sockets).filterMap (near ends) =
      (ip, p.freePort) :: p.sockets.filterMap (near ends) := filterMap_cons_some at'
  constructor
  · show Nodup (filterMap _ _)
    refine opens ▸ nodup_cons.mpr ⟨fun mem => ?_, h.distinct⟩
    exact absurd (h.below _ mem) (Nat.not_lt.mpr port.ge)
  · refine opens ▸ forall_mem_cons.mpr ⟨?_, fun x mem => Nat.lt_succ_of_lt (h.below x mem)⟩
    exact port ▸ Nat.lt_succ_self _
  · show p.freePort + 1 = BitVec.ofNat 16 (1024 + (p.given.length + 1))
    rw [h.next, ← Nat.add_assoc, BitVec.ofNat_add _ 1]
    rfl
  · refine forall_mem_cons.mpr ⟨?_, h.given⟩
    rw [BitVec.le_def, port]
    exact Nat.le_add_right 1024 _

theorem add (h : Counted ends p) (low : port < ephemeralPortStart)
    (free : (ip, port) ∉ p.sockets.filterMap (near ends)) {socket : α}
    (at' : near ends socket = some (ip, port)) : Counted ends (p.add socket) := by
  have opens : (socket :: p.sockets).filterMap (near ends) =
      (ip, port) :: p.sockets.filterMap (near ends) := filterMap_cons_some at'
  have distinct : Nodup ((socket :: p.sockets).filterMap (near ends)) :=
    opens ▸ nodup_cons.mpr ⟨free, h.distinct⟩
  refine ⟨distinct, ?_, h.next, h.given⟩
  have lt : port.toNat < 1024 := low
  exact opens ▸ forall_mem_cons.mpr ⟨by simp only [Provider.add]; omega, h.below⟩

/-- Sockets are closed or change but for their near ends. -/
theorem fewer (h : Counted ends p) {sockets : List α}
    (sub : sockets.filterMap (near ends) <+ p.sockets.filterMap (near ends)) :
    Counted ends { p with sockets := sockets } :=
  ⟨h.distinct.sublist sub, fun x mem => h.below x (sub.subset mem), h.next, h.given⟩

end Counted

end Provider

/-! ### TCP -/

variable {p : Provider Socket} {sockets : List Socket}

open Provider

namespace Tcp

def Socket.ends (socket : Socket) : Option Ends :=
  if socket.state = .closed then none
  else some ⟨socket.localIp, socket.localPort, socket.remoteIp, socket.remotePort⟩

/-- What happens to a provider. A socket that connects or listens may find no memory; otherwise its
memory holds anything. Sockets are named by their position. -/
inductive Request
  | connect (memory : Option (BitVec 32)) (localIp ip : BitVec 32) (port : BitVec 16)
  | listen (memory : Option Socket) (localIp : BitVec 32) (port : BitVec 16)
  | disconnect (i : Nat) (alloc : Bool)
  | send (i : Nat) (alloc : Bool) (data : List Byte)
  | bind (i : Nat) (bound : Bool)
  | receive (alloc : Bool) (seg : Segment)
  | handled (i : Nat) (alloc accepts : Bool) (payload : List Byte)

def serve (p : Provider Socket) : Request → Provider Socket
  | .connect none .. | .listen none .. => p
  | .connect (some ack) localIp ip port => p.connect fun freePort => connectSocket localIp freePort ip port ack
  | .listen (some memory) localIp port => p.add (listenSocket localIp port memory)
  | .disconnect i alloc => { p with sockets := p.sockets.modify i fun socket => (providerDisconnect alloc socket).1 }
  | .send i alloc data => { p with sockets := p.sockets.modify i fun socket => (socketSend alloc socket data).1 }
  | .bind i bound => { p with sockets := p.sockets.modify i fun socket => { socket with bound := bound } }
  | .receive alloc seg =>
    match findSocket p.sockets seg with
    | none => p
    | some found => { p with sockets := found.1 ++ (onReceived alloc found.2.1 seg).1 :: found.2.2.2 }
  | .handled i alloc accepts payload =>
    { p with sockets := p.sockets.modify i fun socket => (onHandled alloc socket payload accepts).1 }

/-- Fewer than 64512 sockets have connected before another one does, and a socket listens on a port
below the ephemeral ones that is not at the near end of an open socket. -/
def Meets (p : Provider Socket) : Request → Prop
  | .connect (some _) .. => p.given.length < 64512
  | .listen (some _) localIp port => port < ephemeralPortStart ∧
    (localIp, port) ∉ p.sockets.filterMap (near Socket.ends)
  | _ => True

section

variable {alloc accepts : Bool} {socket next : Socket} {seg : Segment} {data : List Byte}

/-- The socket has the near end it had, or is closed. -/
abbrev Socket.Stays (socket next : Socket) : Prop :=
  near Socket.ends next = near Socket.ends socket ∨ near Socket.ends next = none

private theorem Socket.stays_of_same (address : next.localIp = socket.localIp)
    (port : next.localPort = socket.localPort) (alive : socket.state = .closed → next.state = .closed) :
    socket.Stays next := by
  by_cases closed : next.state = .closed
  · exact .inr (by simp [near, Socket.ends, closed])
  · exact .inl (by simp [near, Socket.ends, closed, mt alive closed, address, port])

private theorem stays_settle : socket.Stays (settle socket) := by
  unfold settle
  split
  · exact .inr rfl
  · exact .inl rfl

private theorem stays_providerDisconnect : socket.Stays (providerDisconnect alloc socket).1 := by
  left
  cases state : socket.state <;> simp [providerDisconnect, sendFin, state, near, Socket.ends]

private theorem stays_socketSend : socket.Stays (socketSend alloc socket data).1 := by
  left
  unfold socketSend
  split
  · rfl
  · cases alloc <;> simp [providerSend, near, Socket.ends]

private theorem stays_onHandled : socket.Stays (onHandled alloc socket data accepts).1 := by
  rw [onHandled_socket]
  cases accepts <;> exact stays_settle

/-- A segment leaves the near end of an open socket as it is, or closes it; a socket that accepts a
connection changes its far end. -/
private theorem Moves.kept (moves : Moves socket seg next) (alive : socket.state ≠ .closed) :
    socket.Stays next := by
  cases moves <;> exact Socket.stays_of_same rfl rfl (absurd · alive)

theorem matchSocket_alive (matched : matchSocket seg socket) : socket.state ≠ .closed := by
  intro closed
  simp [matchSocket, closed] at matched

theorem findSocket_some {found : List Socket × Socket × Socket × List Socket}
    (eq : findSocket sockets seg = some found) :
    sockets = found.1 ++ found.2.1 :: found.2.2.2 ∧ matchSocket seg found.2.1 := by
  obtain ⟨whole, taken⟩ := hashChainFind_some eq
  refine ⟨whole, ?_⟩
  split at taken
  case isTrue matched => exact matched
  case isFalse => cases taken

theorem counted_serve (h : Counted Socket.ends p) {request : Request} (meets : Meets p request) :
    Counted Socket.ends (serve p request) := by
  have modify (i : Nat) (f : Socket → Socket) (kept : ∀ socket : Socket, socket.Stays (f socket)) :
      Counted Socket.ends { p with sockets := p.sockets.modify i f } :=
    h.fewer (filterMap_modify_sublist kept i)
  match request with
  | .connect none .. | .listen none .. => exact h
  | .connect (some ack) localIp ip port =>
    rw [serve]
    apply Counted.connect h meets localIp
    simp [near, Socket.ends, connectSocket, swapEndian16_swapEndian16]
  | .listen (some memory) localIp port =>
    refine Counted.add h meets.1 meets.2 ?_
    simp [near, Socket.ends, listenSocket, swapEndian16_swapEndian16]
  | .disconnect i alloc => exact modify i _ fun _ => stays_providerDisconnect
  | .send i alloc data => exact modify i _ fun _ => stays_socketSend
  | .bind i bound => exact modify i _ fun _ => .inl rfl
  | .handled i alloc accepts payload => exact modify i _ fun _ => stays_onHandled
  | .receive alloc seg =>
    simp only [serve]
    cases eq : findSocket p.sockets seg with
    | none => exact h
    | some found =>
      obtain ⟨whole, matched⟩ := findSocket_some eq
      refine h.fewer ?_
      rw [whole]
      exact filterMap_replace_sublist (onReceived_moves.kept (matchSocket_alive matched))

end

end Tcp

/-! ### UDP -/

namespace Udp

def Socket.ends (socket : Socket) : Option Ends :=
  some ⟨socket.localIp, socket.localPort, socket.remoteIp, socket.remotePort⟩

/-- The local end of a socket, and whether it listens. -/
def Socket.key (socket : Socket) : BitVec 32 × BitVec 16 × Bool :=
  (socket.localIp, socket.localPort, socket.listening)

/-- What happens to a provider; a socket that is disconnected is removed. -/
inductive Request
  | connect (memory : Bool) (localIp ip : BitVec 32) (port : BitVec 16)
  | listen (memory : Option Socket) (localIp : BitVec 32) (port : BitVec 16)
  | disconnect (i : Nat)
  | bind (i : Nat) (bound : Bool)
  | receive (d : Datagram)

def serve (p : Provider Socket) : Request → Provider Socket
  | .connect false .. | .listen none .. => p
  | .connect true localIp ip port => p.connect fun freePort => connectSocket localIp freePort ip port
  | .listen (some memory) localIp port => p.add (listenSocket localIp port memory)
  | .disconnect i => { p with sockets := p.sockets.eraseIdx i }
  | .bind i bound => { p with sockets := p.sockets.modify i fun socket => { socket with bound := bound } }
  | .receive d =>
    match findSocket p.sockets d with
    | none => p
    | some found => { p with sockets := found.1 ++ found.2.2.1 :: found.2.2.2 }

/-- The same condition as for TCP. -/
def Meets (p : Provider Socket) : Request → Prop
  | .connect true .. => p.given.length < 64512
  | .listen (some _) localIp port => port < ephemeralPortStart ∧
    (localIp, port) ∉ p.sockets.filterMap (near Socket.ends)
  | _ => True

theorem matchSocket_some {d : Datagram} {socket next : Socket} (eq : matchSocket d socket = some next) :
    socket.localPort = d.dstPort ∧ next.key = socket.key := by
  unfold matchSocket at eq
  split_ifs at eq with port <;> cases eq <;> exact ⟨not_not.mp port, rfl⟩

theorem counted_serve (h : Counted Socket.ends p) {request : Request} (meets : Meets p request) :
    Counted Socket.ends (serve p request) := by
  match request with
  | .connect false .. | .listen none .. => exact h
  | .connect true localIp ip port =>
    rw [serve]
    apply Counted.connect h meets localIp
    simp [near, Socket.ends, connectSocket, swapEndian16_swapEndian16]
  | .listen (some memory) localIp port =>
    refine Counted.add h meets.1 meets.2 ?_
    simp [near, Socket.ends, listenSocket, swapEndian16_swapEndian16]
  | .disconnect i => exact h.fewer ((eraseIdx_sublist _ i).filterMap _)
  | .bind i bound =>
    have same (socket : Socket) :
        near Socket.ends { socket with bound := bound } = near Socket.ends socket := rfl
    exact h.fewer (filterMap_modify_sublist (fun socket => .inl (same socket)) i)
  | .receive d =>
    simp only [serve]
    cases eq : findSocket p.sockets d with
    | none => exact h
    | some found =>
      obtain ⟨whole, matched⟩ := findSocket_some eq
      have same := (matchSocket_some matched).2
      simp only [Socket.key, Prod.mk.injEq] at same
      refine h.fewer ?_
      rw [whole]
      exact filterMap_replace_sublist (.inl (by simp [near, Socket.ends, same.1, same.2.1]))

end Udp

/-! ### Runs -/

def Tcp.step (p : Provider Tcp.Socket) (request : Tcp.Request) (p' : Provider Tcp.Socket) : Prop :=
  p' = Tcp.serve p request

def Udp.step (p : Provider Udp.Socket) (request : Udp.Request) (p' : Provider Udp.Socket) : Prop :=
  p' = Udp.serve p request

/-- Open sockets of either protocol have different ends in every state of a run, and every local
port given is an ephemeral one, if fewer than 64512 sockets connect before each one that does and no
socket listens on an ephemeral port or on one at the near end of an open socket. -/
theorem ports_sound {p : Provider Tcp.Socket} {q : Provider Udp.Socket}
    {segments : List (Provider Tcp.Socket × Tcp.Request)}
    {datagrams : List (Provider Udp.Socket × Udp.Request)}
    (tcp : Run Tcp.step Provider.init segments p) (udp : Run Udp.step Provider.init datagrams q) :
    ((∀ e ∈ segments, Tcp.Meets e.1 e.2) →
      p.Sound Tcp.Socket.ends ∧ ∀ e ∈ segments, e.1.Sound Tcp.Socket.ends) ∧
    ((∀ e ∈ datagrams, Udp.Meets e.1 e.2) →
      q.Sound Udp.Socket.ends ∧ ∀ e ∈ datagrams, e.1.Sound Udp.Socket.ends) := by
  constructor
  · intro meets
    obtain ⟨last, states⟩ := tcp.invariant_of_guard (I := Counted Tcp.Socket.ends) Counted.init
      (by rintro _ _ _ h now rfl; exact Tcp.counted_serve h now) meets
    exact ⟨last.sound, fun e mem => (states e mem).sound⟩
  · intro meets
    obtain ⟨last, states⟩ := udp.invariant_of_guard (I := Counted Udp.Socket.ends) Counted.init
      (by rintro _ _ _ h now rfl; exact Udp.counted_serve h now) meets
    exact ⟨last.sound, fun e mem => (states e mem).sound⟩

/-- From `10.0.2.15` to port 80 of `10.0.2.2`. -/
def toServer : Tcp.Request := .connect (some 0) 0x0f02000a 0x0202000a 80

/-- On port 80, over cleared memory. -/
def listen80 : Tcp.Request := .listen (some ⟨0, 0, 0, 0, 0, 0, false, .closed⟩) 0x0f02000a 80

/-- A socket connects, one listens, and another one connects to the same server. -/
theorem three_sockets_sound :
    (Tcp.serve (Tcp.serve (Tcp.serve init toServer) listen80) toServer).Sound Tcp.Socket.ends := by
  have first : Tcp.step init toServer _ := rfl
  have second : Tcp.step (Tcp.serve init toServer) listen80 _ := rfl
  have third : Tcp.step (Tcp.serve (Tcp.serve init toServer) listen80) toServer _ := rfl
  have run := ((Run.start.snoc first).snoc second).snoc third
  refine ((ports_sound run Run.start).1 ?_).1
  simp only [nil_append, cons_append, forall_mem_cons]
  exact ⟨Nat.lt_of_sub_eq_succ rfl, ⟨by decide, by decide⟩, Nat.lt_of_sub_eq_succ rfl, nofun⟩

theorem connects_freePort (n : Nat) :
    ((List.replicate n toServer).foldl Tcp.serve init).freePort = ephemeralPortStart + BitVec.ofNat 16 n := by
  induction n with
  | zero => rfl
  | succ n ih =>
    rw [replicate_succ', foldl_append]
    simp only [foldl_cons, foldl_nil, toServer, Tcp.serve, connect] at ih ⊢
    rw [ih, BitVec.ofNat_add, BitVec.add_assoc]
    rfl

/-- Two sockets listen on one port, and the connection after the 64512th gets the local port 0. -/
theorem ports_reused : ¬(Tcp.serve (Tcp.serve Provider.init listen80) listen80).Sound Tcp.Socket.ends ∧
      0 ∈ ((List.replicate 64513 toServer).foldl Tcp.serve Provider.init).given := by
  constructor
  · intro sound
    exact absurd sound.1 (by decide)
  · rw [replicate_succ', foldl_append]
    have port := connects_freePort 64512
    simp only [foldl_cons, foldl_nil, toServer, Tcp.serve, connect] at port ⊢
    rw [port]
    decide

/-! ### Delivery -/

namespace Udp

/-- The provider, and the address of the interface. -/
structure Stack where
  provider : Provider Socket
  ip : BitVec 32

inductive Event
  | request (request : Request)
  /-- `jlos_network_apply_config` -/
  | applyConfig (ip : BitVec 32)

namespace Stack

def keys (s : Stack) : List (BitVec 32 × BitVec 16 × Bool) := s.provider.sockets.map Socket.key

def exec (s : Stack) : Event → Stack
  | .request request => { s with provider := serve s.provider request }
  | .applyConfig ip => { s with ip := ip }

/-- A new socket gets the address that the interface has. -/
def step (s : Stack) (e : Event) (s' : Stack) : Prop :=
  s' = s.exec e ∧ match e with
    | .request (.connect _ localIp ..) | .request (.listen _ localIp _) => localIp = s.ip
    | _ => True

/-- A datagram to the interface or to everyone reaches a socket that listens on its port if there is
one. -/
def Delivers (s : Stack) : Prop :=
  ∀ d : Datagram, d.dstIp = s.ip ∨ d.dstIp = broadcast →
    (∃ socket ∈ s.provider.sockets, socket.listening ∧ socket.localPort = d.dstPort) →
    ∃ found, findSocket s.provider.sockets d = some found ∧ found.2.1.listening ∧ found.2.1.localPort = d.dstPort

/-- Sockets with this address are in a bucket that broadcasts are looked up in. -/
def Shared (ip : BitVec 32) : Prop := ∀ port, bucket ip port = bucket broadcast port ∨ bucket ip port = bucket 0 port

/-- No port is both listened on and connected from, and the address changes only while no socket is
open, to one that shares a bucket with the broadcasts. -/
def Meets (s : Stack) : Event → Prop
  | .request (.connect ..) => ∀ k ∈ s.keys, k.2.1 = swapEndian16 s.provider.freePort → k.2.2 = false
  | .request (.listen _ _ port) => ∀ k ∈ s.keys, k.2.1 = swapEndian16 port → k.2.2 = true
  | .applyConfig ip => Shared ip ∧ s.provider.sockets = []
  | _ => True

structure Inv (s : Stack) : Prop where
  shared : Shared s.ip
  own : ∀ k ∈ s.keys, k.1 = s.ip
  alike : ∀ k ∈ s.keys, ∀ l ∈ s.keys, l.2.1 = k.2.1 → l.2.2 = k.2.2

variable {s : Stack} {d : Datagram} {socket : Socket}

theorem Inv.add (inv : s.Inv) {p : Provider Socket} (new : p.sockets = socket :: s.provider.sockets)
    (own : socket.localIp = s.ip) (alike : ∀ k ∈ s.keys, k.2.1 = socket.localPort → k.2.2 = socket.listening) :
    Inv { s with provider := p } := by
  have keys : Stack.keys { s with provider := p } = socket.key :: s.keys := congrArg _ new
  refine ⟨inv.shared, keys ▸ forall_mem_cons.mpr ⟨own, inv.own⟩, ?_⟩
  rw [keys]
  refine forall_mem_cons.mpr ⟨forall_mem_cons.mpr ⟨fun _ => rfl, alike⟩, fun k mem => ?_⟩
  exact forall_mem_cons.mpr ⟨fun same => (alike k mem same.symm).symm, inv.alike k mem⟩

theorem Inv.mono (inv : s.Inv) (sub : sockets.map Socket.key ⊆ s.keys) :
    Inv { s with provider := { s.provider with sockets := sockets } } :=
  ⟨inv.shared, fun k mem => inv.own k (sub mem), fun k mem l mem' => inv.alike k (sub mem) l (sub mem')⟩

theorem Inv.step {s' : Stack} {e : Event} (inv : s.Inv) (meets : s.Meets e) (taken : s.step e s') : s'.Inv := by
  obtain ⟨rfl, own⟩ := taken
  match e with
  | .request (.connect false ..) | .request (.listen none ..) => exact inv
  | .request (.connect true ..) | .request (.listen (some _) ..) => exact inv.add rfl own meets
  | .request (.disconnect i) => exact inv.mono ((eraseIdx_sublist _ i).map _).subset
  | .request (.bind i bound) =>
    have same : (s.provider.sockets.modify i fun socket => { socket with bound := bound }).map Socket.key = s.keys := by
      refine ext_getElem? fun j => ?_
      simp only [keys, getElem?_map, getElem?_modify]
      cases s.provider.sockets[j]? <;> split <;> rfl
    exact inv.mono (same ▸ List.Subset.refl _)
  | .request (.receive d) =>
    simp only [exec, serve]
    split
    · exact inv
    next found eq =>
      obtain ⟨whole, taken⟩ := findSocket_some eq
      exact inv.mono (by simp [keys, whole, (matchSocket_some taken).2])
  | .applyConfig ip => exact ⟨meets.1, by simp [exec, keys, meets.2], by simp [exec, keys, meets.2]⟩

theorem Inv.delivers (inv : s.Inv) : s.Delivers := by
  rintro d sent ⟨socket, mem, listens, port⟩
  have own : socket.localIp = s.ip := inv.own _ (mem_map_of_mem mem)
  cases eq : findSocket s.provider.sockets d with
  | some found =>
    obtain ⟨whole, taken⟩ := findSocket_some eq
    have same := (matchSocket_some taken).1
    have alike := inv.alike _ (mem_map_of_mem mem) found.2.1.key (by simp [keys, whole]) (same.trans port.symm)
    exact ⟨found, rfl, alike.trans listens, same⟩
  | none =>
    have takes : matchSocket d socket ≠ none := by
      unfold matchSocket
      split_ifs <;> simp_all
    have missed {key : BitVec 32} (failed : hashChainFind Socket.home s.provider.sockets key (matchSocket d) = none) :
        bucket s.ip d.dstPort ≠ key := by
      rw [← own, ← port]
      exact fun home => takes ((if_pos home).symm.trans (search_eq_none failed socket mem))
    unfold findSocket at eq
    split at eq
    · cases eq
    next first =>
      have all := sent.resolve_left fun here => missed first (by rw [here])
      rw [if_pos all] at eq
      rw [all] at first
      exact ((inv.shared d.dstPort).elim (missed first) (missed eq)).elim

end Stack

/-- In every run from an address that shares a bucket with the broadcasts in which every event meets
the condition, listening sockets are reached in every state. -/
theorem listeners_reached {ip : BitVec 32} {s : Stack} {es : List (Stack × Event)} (shared : Stack.Shared ip)
    (run : Run Stack.step ⟨Provider.init, ip⟩ es s) (meets : ∀ e ∈ es, e.1.Meets e.2) :
    s.Delivers ∧ ∀ e ∈ es, e.1.Delivers := by
  have start : Stack.Inv ⟨init, ip⟩ := ⟨shared, nofun, nofun⟩
  obtain ⟨last, states⟩ := run.invariant_of_guard start (fun _ _ _ inv => inv.step) meets
  exact ⟨last.delivers, fun e mem => (states e mem).delivers⟩

/-- On port 68, with the address 0 and over cleared memory. -/
def listen68 : Event := .request (.listen (some ⟨0, 0, 0, 0, false, false⟩) 0 68)

theorem listener_reached : (Stack.exec ⟨Provider.init, 0⟩ listen68).Delivers :=
  (listeners_reached (fun _ => .inr rfl) (Run.start.snoc ⟨rfl, rfl⟩)
    (by simp [listen68, Stack.Meets, Stack.keys, init])).1

/-- A socket listens, the interface gets the address `10.0.2.15`, and a datagram to this address
finds no socket. -/
theorem listener_lost : ∃ s es, Run Stack.step ⟨Provider.init, 0⟩ es s ∧ ¬s.Delivers := by
  have run : Run Stack.step ⟨init, 0⟩ _ _ :=
    (Run.start.snoc (a := listen68) ⟨rfl, rfl⟩).snoc (a := .applyConfig 0x0f02000a) ⟨rfl, trivial⟩
  refine ⟨_, _, run, fun delivers => ?_⟩
  obtain ⟨found, eq, -⟩ := delivers ⟨0x0202000a, 0x0f02000a, swapEndian16 67, swapEndian16 68, []⟩ (.inl rfl)
    ⟨_, mem_cons_self, rfl, rfl⟩
  have none : findSocket [listenSocket 0 68 ⟨0, 0, 0, 0, false, false⟩]
    ⟨0x0202000a, 0x0f02000a, swapEndian16 67, swapEndian16 68, []⟩ = none := by decide
  cases none.symm.trans eq

end Udp

end Jlos.Net
