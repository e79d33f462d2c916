import Jlos.Lib.Run
import Jlos.Net.Tcp

/-!
# Two hosts without data

Two hosts that run the TCP of `net/tcp.c` and have nothing to send. A segment without data that is
next in line falls through to the data case, whose ACK goes back, where the same happens.
-/
namespace Jlos.Net.Tcp

open Lib List Option

/-- The receive function with a handler that sends nothing itself. -/
def received (alloc accepts : Bool) (socket : Socket) (seg : Segment) : Socket × List Segment :=
  let before := onReceived alloc socket seg
  match before.2.2 with
  | none => (before.1, before.2.1)
  | some payload =>
    let behind := onHandled alloc before.1 payload accepts
    (behind.1, before.2.1 ++ behind.2)

/-- A connection that both sides know of. -/
def State.Synchronised : State → Bool
  | .established | .finWait1 | .finWait2 | .closing | .timeWait | .closeWait | .lastAck => true
  | .closed | .listen | .synSent | .synReceived => false

/-- A segment without SYN, FIN, RST and data. -/
def Segment.Bare (seg : Segment) : Prop :=
  seg.flags.syn = false ∧ seg.flags.fin = false ∧ seg.flags.rst = false ∧ seg.payload = []
  deriving Decidable

/-- A segment starts in the window of 65535 bytes that the socket always offers. -/
def InWindow (socket : Socket) (seg : Segment) : Prop :=
  (seg.sequenceNumber - socket.acknowledgementNumber).toNat < 65535
  deriving Decidable

/-- A segment without SYN and FIN is taken as the acknowledgement of our FIN. -/
def AcksFin (socket : Socket) (seg : Segment) : Prop :=
  seg.flags.ack ∧ socket.state ∈ [State.finWait1, .closing, .lastAck]
  deriving Decidable

/-- No reply: the segment is taken as the acknowledgement of our FIN, or there is no buffer for a
reply. -/
def Unanswered (alloc : Bool) (socket : Socket) (seg : Segment) : Prop := alloc = false ∨ AcksFin socket seg
  deriving Decidable

/-! ### The two hosts -/

/-- A socket on each host, and the segments on their way. -/
structure Hosts where
  a : Socket
  b : Socket
  toA : List Segment
  toB : List Segment
  deriving DecidableEq

/-- A segment on its way arrives, in any order, or is lost; `toB` says on which side. -/
inductive Delivery
  | deliver (toB : Bool) (i : Nat) (alloc accepts : Bool)
  | lose (toB : Bool) (i : Nat)

namespace Hosts

def swap (h : Hosts) : Hosts := ⟨h.b, h.a, h.toB, h.toA⟩

def arrive (h : Hosts) (i : Nat) (alloc accepts : Bool) : Option Hosts :=
  h.toA[i]?.map fun seg =>
    if matchSocket seg h.a then
      let result := received alloc accepts h.a seg
      { h with a := result.1, toA := h.toA.eraseIdx i, toB := h.toB ++ result.2 }
    else { h with toA := h.toA.eraseIdx i }

def drop (h : Hosts) (i : Nat) : Option Hosts := h.toA[i]?.map fun _ => { h with toA := h.toA.eraseIdx i }

def exec (h : Hosts) : Delivery → Option Hosts
  | .deliver false i alloc accepts => h.arrive i alloc accepts
  | .deliver true i alloc accepts => (h.swap.arrive i alloc accepts).map swap
  | .lose false i => h.drop i
  | .lose true i => (h.swap.drop i).map swap

def step (h : Hosts) (d : Delivery) (h' : Hosts) : Prop := h.exec d = some h'

def Connected (h : Hosts) : Prop := h.a.state.Synchronised ∧ h.b.state.Synchronised

/-- A bare segment in the window that arrives at the first host is not answered. -/
def ArrivesQuietly (h : Hosts) (i : Nat) (alloc : Bool) : Prop :=
  ∀ seg, h.toA[i]? = some seg → matchSocket seg h.a → seg.Bare → InWindow h.a seg → Unanswered alloc h.a seg

def Meets (h : Hosts) : Delivery → Prop
  | .deliver false i alloc _ => h.ArrivesQuietly i alloc
  | .deliver true i alloc _ => h.swap.ArrivesQuietly i alloc
  | .lose _ _ => True

end Hosts

section

variable {alloc accepts : Bool} {socket next : Socket} {seg : Segment}

/-- What a synchronised socket sends in reply to a segment: nothing, a RST or an ACK. -/
inductive Replies (alloc : Bool) (socket : Socket) (seg : Segment) : List Segment → Prop
  | silent (why : seg.flags.rst ∨ AcksFin socket seg) : Replies alloc socket seg []
  | resets (q : Socket) (rst : seg.flags.rst = false) (fin : seg.Bare → ¬AcksFin socket seg) :
      Replies alloc socket seg (providerSend alloc q [] { rst := true }).2
  | acks (q : Socket) (rst : seg.flags.rst = false) (fin : seg.Bare → ¬AcksFin socket seg)
      (why : seg.flags.fin ∨ seg.sequenceNumber = socket.acknowledgementNumber) :
      Replies alloc socket seg (providerSend alloc q [] { ack := true }).2

theorem onHandled_sent {payload : List Byte} : ∃ q, (onHandled alloc socket payload accepts).2 =
    (providerSend alloc q [] (if accepts then { ack := true } else { rst := true })).2 := by
  cases accepts
  · exact ⟨socket, by simp [onHandled, finish]⟩
  · exact ⟨_, by simp [onHandled, finish, reply]; rfl⟩

theorem finish_reset : (finish alloc { socket := socket, reset := true }).2 =
    (providerSend alloc socket [] { rst := true }).2 := by
  simp [finish]

theorem finish_reply {flags : Flags} : (finish alloc (reply alloc socket flags)).2 =
    (providerSend alloc socket [] flags).2 := by
  simp [finish, reply]

theorem onFlags_replies (synchronised : socket.state.Synchronised) (rst : seg.flags.rst = false)
    (calls : ¬Calls socket seg) : Replies alloc socket seg (finish alloc (onFlags alloc socket seg)).2 := by
  -- A segment whose data is not taken is answered by a reset.
  have data : seg.flags.syn = false → seg.flags.fin = false → ¬AcksFin socket seg →
      Replies alloc socket seg (finish alloc (onData socket seg)).2 := by
    intro syn fin unacked
    have refused : onData socket seg = { socket := socket, reset := true } := by
      apply if_neg
      intro now
      refine calls ⟨rst, syn, fin, fun ack => ?_, now⟩
      cases state : socket.state <;> simp_all [State.Synchronised, AcksFin]
    rw [refused, finish_reset]
    exact .resets socket rst fun _ => unacked
  unfold onFlags
  split
  case h_1 syn ack fin =>
    have reset : onSyn alloc socket seg = { socket := socket, reset := true } := by
      unfold onSyn
      split <;> simp_all [State.Synchronised]
    rw [reset, finish_reset]
    exact .resets socket rst fun bare => by simp [bare.1] at syn
  case h_2 syn ack fin =>
    have reset : onSynAck alloc socket seg = { socket := socket, reset := true } := by
      unfold onSynAck
      split <;> simp_all [State.Synchronised]
    rw [reset, finish_reset]
    exact .resets socket rst fun bare => by simp [bare.1] at syn
  case h_3 syn fin =>
    exact .resets socket rst fun bare => by simp [bare.1] at syn
  case h_4 syn fin =>
    have unbare : seg.Bare → ¬AcksFin socket seg := fun bare => by simp [bare.2.1] at fin
    cases state : socket.state <;> simp only [onFin, state, finish_reply, finish_reset]
    case established | closeWait | lastAck | finWait1 | finWait2 => exact .acks _ rst unbare (.inl fin)
    all_goals exact .resets _ rst unbare
  case h_5 syn ack fin =>
    unfold onAck
    split
    case h_1 state => simp [State.Synchronised, state] at synchronised
    case h_5 =>
      apply data syn fin
      simp_all [AcksFin]
    all_goals exact .silent (.inr ⟨ack, by simp_all⟩)
  case h_6 syn ack fin => exact data syn fin fun acks => by simp [AcksFin, ack] at acks

theorem received_replies (synchronised : socket.state.Synchronised) :
    Replies alloc socket seg (received alloc accepts socket seg).2 := by
  unfold received
  by_cases calls : Calls socket seg
  case pos =>
    obtain ⟨rst, syn, fin, data, next, -⟩ := id calls
    have unacked : ¬AcksFin socket seg := by
      rintro ⟨ack, mem⟩
      simp_all
    obtain ⟨q, sent⟩ : ∃ q, (onHandled alloc socket seg.payload accepts).2 =
        (providerSend alloc q [] (if accepts then { ack := true } else { rst := true })).2 := onHandled_sent
    simp only [onReceived_of_calls calls, nil_append, sent]
    cases accepts
    · exact .resets q rst fun _ => unacked
    · exact .acks q rst (fun _ => unacked) (.inr next)
  case neg =>
    cases rst : seg.flags.rst
    case true =>
      simp only [onReceived_of_rst rst]
      exact .silent (.inl rst)
    case false =>
      simp only [onReceived_of_not_calls calls rst]
      exact onFlags_replies synchronised rst calls

theorem providerSend_eq_nil {flags : Flags} : (providerSend alloc socket [] flags).2 = [] ↔ alloc = false := by
  cases alloc <;> simp [providerSend]

/-- A bare segment is left without a reply only where it is taken as the acknowledgement of our
FIN. -/
theorem bare_unanswered (synchronised : socket.state.Synchronised) (bare : seg.Bare) :
    (received alloc accepts socket seg).2 = [] ↔ Unanswered alloc socket seg := by
  have replies : Replies alloc socket seg (received alloc accepts socket seg).2 := received_replies synchronised
  generalize (received alloc accepts socket seg).2 = sent at replies
  cases replies with
  | silent why => exact iff_of_true rfl (.inr (why.resolve_left (by simp [bare.2.2.1])))
  | resets q rst fin => simp [providerSend_eq_nil, Unanswered, fin bare]
  | acks q rst fin => simp [providerSend_eq_nil, Unanswered, fin bare]

/-! ### The number of segments -/

/-- How many deliveries a segment may still cause: a RST none but its own, an ACK at most a RST, any
other segment at most an ACK or a RST. -/
def weight (seg : Segment) : Nat := if seg.flags.rst then 1 else if seg.Bare then 2 else 3

def weights (segs : List Segment) : Nat := (segs.map weight).sum

theorem one_le_weight : 1 ≤ weight seg := by
  unfold weight
  split_ifs <;> omega

theorem weight_le : weight seg ≤ 3 := by
  unfold weight
  split_ifs <;> omega

theorem weight_rst : weight (socket.segment [] { rst := true }) = 1 := rfl

theorem weight_ack : weight (socket.segment [] { ack := true }) = 2 := by
  rfl

theorem weights_eraseIdx {segs : List Segment} {i : Nat} (found : segs[i]? = some seg) :
    weights (segs.eraseIdx i) + weight seg = weights segs := by
  induction segs generalizing i with
  | nil => cases found
  | cons first rest ih =>
    cases i with
    | zero =>
      cases found
      simp [weights, Nat.add_comm]
    | succ i =>
      have smaller := ih (i := i) (by simpa using found)
      simp only [weights, eraseIdx_cons_succ, map_cons, sum_cons] at smaller ⊢
      omega

theorem weights_reply (synchronised : socket.state.Synchronised)
    (quiet : seg.Bare → InWindow socket seg → Unanswered alloc socket seg) :
    weights (received alloc accepts socket seg).2 < weight seg := by
  by_cases none : (received alloc accepts socket seg).2 = []
  · rw [none]
    exact one_le_weight
  have replies : Replies alloc socket seg (received alloc accepts socket seg).2 := received_replies synchronised
  have window : seg.Bare → ¬InWindow socket seg := fun bare inside =>
    none ((bare_unanswered synchronised bare).mpr (quiet bare inside))
  generalize (received alloc accepts socket seg).2 = sent at replies none
  cases replies with
  | silent why => exact absurd rfl none
  | resets q rst fin =>
    have one : weights (providerSend alloc q [] { rst := true }).2 ≤ 1 := by
      cases alloc <;> simp [providerSend, weights, weight_rst]
    have two : 2 ≤ weight seg := by
      simp only [weight, rst, Bool.false_eq_true, if_false]
      split <;> omega
    omega
  | acks q rst fin why =>
    have two : weights (providerSend alloc q [] { ack := true }).2 ≤ 2 := by
      cases alloc <;> simp [providerSend, weights, weight_ack]
    have unbare : ¬seg.Bare := by
      intro bare
      apply window bare
      have next := why.resolve_left (by simp [bare.2.1])
      simp [InWindow, next]
    have three : weight seg = 3 := by simp [weight, rst, unbare]
    omega

theorem settle_state (synchronised : socket.state.Synchronised) :
    (settle socket).state.Synchronised ∨ (settle socket).state = .closed := by
  unfold settle
  split
  · exact .inr rfl
  · exact .inl synchronised

theorem Moves.synchronised (moves : Moves socket seg next) (synchronised : socket.state.Synchronised) :
    next.state.Synchronised ∨ next.state = .closed := by
  cases moves with
  | stays => exact .inl synchronised
  | resets rst => exact .inr rfl
  | accepts listens => simp [State.Synchronised, listens] at synchronised
  | connects sent => simp [State.Synchronised, sent] at synchronised
  | confirms received => simp [State.Synchronised, received] at synchronised
  | closes next syn fin rst moved =>
    rcases moved with rfl | ⟨was, rfl⟩ | ⟨was, rfl | rfl⟩
    · exact .inl synchronised
    all_goals simp [State.Synchronised]
  | acks next moved =>
    rcases moved with ⟨was, rfl⟩ | ⟨was, rfl⟩ | ⟨was, rfl⟩ | ⟨was, rfl⟩ <;> simp [State.Synchronised]

theorem received_state (synchronised : socket.state.Synchronised) :
    (received alloc accepts socket seg).1.state.Synchronised ∨
    (received alloc accepts socket seg).1.state = .closed := by
  unfold received
  by_cases calls : Calls socket seg
  case pos =>
    simp only [onReceived_of_calls calls, onHandled_socket]
    apply settle_state
    cases accepts <;> exact synchronised
  case neg =>
    simp only [onReceived_call, if_neg calls]
    exact onReceived_moves.synchronised synchronised

namespace Hosts

variable {h h' : Hosts} {i : Nat} {d : Delivery}

/-- The sockets are connected or closed. -/
def Linked (h : Hosts) : Prop :=
  (h.a.state.Synchronised ∨ h.a.state = .closed) ∧ (h.b.state.Synchronised ∨ h.b.state = .closed)

def total (h : Hosts) : Nat := weights h.toA + weights h.toB

theorem arrive_total (linked : h.Linked) (quiet : h.ArrivesQuietly i alloc)
    (taken : h.arrive i alloc accepts = some h') :
    h'.Linked ∧ h'.total < h.total := by
  obtain ⟨seg, found, rfl⟩ := map_eq_some_iff.mp taken
  have less := weights_eraseIdx found
  have positive : 1 ≤ weight seg := one_le_weight
  split
  case isFalse => exact ⟨linked, by simp only [total]; omega⟩
  case isTrue matched =>
    have synchronised : h.a.state.Synchronised := by
      refine linked.1.resolve_right fun closed => ?_
      simp [matchSocket, closed] at matched
    have reply : weights (received alloc accepts h.a seg).2 < weight seg :=
      weights_reply synchronised (quiet seg found matched)
    refine ⟨⟨received_state synchronised, linked.2⟩, ?_⟩
    simp only [total, weights, map_append, sum_append] at less reply ⊢
    omega

theorem drop_total (linked : h.Linked) (taken : h.drop i = some h') : h'.Linked ∧ h'.total < h.total := by
  obtain ⟨seg, found, rfl⟩ := map_eq_some_iff.mp taken
  have less := weights_eraseIdx found
  have positive : 1 ≤ weight seg := one_le_weight
  refine ⟨linked, ?_⟩
  simp only [total]
  omega

theorem total_swap : h.swap.total = h.total := Nat.add_comm _ _

theorem step_total (linked : h.Linked) (meets : h.Meets d) (taken : h.step d h') : h'.Linked ∧ h'.total < h.total := by
  have mirrored : ∀ {g : Hosts}, g.Linked ∧ g.total < h.swap.total → g.swap.Linked ∧ g.swap.total < h.total :=
    fun both => ⟨both.1.symm, by rw [total_swap]; exact lt_of_lt_of_eq both.2 total_swap⟩
  match d, meets, taken with
  | .deliver false i alloc accepts, meets, taken => exact arrive_total linked meets taken
  | .deliver true i alloc accepts, meets, taken =>
    obtain ⟨g, arrives, rfl⟩ := map_eq_some_iff.mp taken
    exact mirrored (arrive_total linked.symm meets arrives)
  | .lose false i, _, taken => exact drop_total linked taken
  | .lose true i, _, taken =>
    obtain ⟨g, drops, rfl⟩ := map_eq_some_iff.mp taken
    exact mirrored (drop_total linked.symm drops)

theorem total_le : h.total ≤ 3 * (h.toA.length + h.toB.length) := by
  have bound : ∀ segs, weights segs ≤ 3 * segs.length := by
    intro segs
    induction segs with
    | nil => simp [weights]
    | cons seg rest ih =>
      have first : weight seg ≤ 3 := weight_le
      simp only [weights, map_cons, sum_cons, length_cons] at ih ⊢
      omega
  have toA := bound h.toA
  have toB := bound h.toB
  simp only [total]
  omega

theorem run_bounded {h₀ : Hosts} {es : List (Hosts × Delivery)} (linked : h₀.Linked) (run : Run step h₀ es h)
    (meets : ∀ e ∈ es, e.1.Meets e.2) : h.Linked ∧ es.length + h.total ≤ h₀.total := by
  induction run with
  | start => exact ⟨linked, by simp⟩
  | @snoc es g d _ before taken ih =>
    obtain ⟨linkedNow, bound⟩ := ih fun e mem => meets e (mem_append_left _ mem)
    obtain ⟨next, less⟩ := step_total linkedNow (meets (g, d) (by simp)) taken
    refine ⟨next, ?_⟩
    rw [length_append, length_singleton]
    omega

end Hosts

end

/-- A synchronised socket leaves a bare segment in its window without a reply exactly if it takes it
as the acknowledgement of its FIN or has no buffer. Two connected hosts without data to send, in a
run in which every such segment is left without a reply, exchange at most three segments for each
one on its way at the start. -/
theorem storm_iff {socket : Socket} {seg : Segment} {h₀ h : Hosts} {es : List (Hosts × Delivery)} (alloc accepts : Bool)
    (synchronised : socket.state.Synchronised) (bare : seg.Bare) (_window : InWindow socket seg)
    (connected : h₀.Connected) (run : Run Hosts.step h₀ es h) :
    ((received alloc accepts socket seg).2 = [] ↔ Unanswered alloc socket seg) ∧
      ((∀ e ∈ es, e.1.Meets e.2) → es.length ≤ 3 * (h₀.toA.length + h₀.toB.length)) := by
  refine ⟨bare_unanswered synchronised bare, fun meets => ?_⟩
  have linked : h₀.Linked := ⟨.inl connected.1, .inl connected.2⟩
  have bound := (Hosts.run_bounded linked run meets).2
  have start : h₀.total ≤ 3 * (h₀.toA.length + h₀.toB.length) := Hosts.total_le
  omega

/-! ### A storm -/

/-- An established connection between port 1024 of `10.0.2.15` and port 80 of `10.0.2.2`, seen from
either side. -/
def clientSide : Socket := ⟨0x5000, 0x0202000a, 0x0004, 0x0f02000a, 101, 201, true, .established⟩

def serverSide : Socket := ⟨0x0004, 0x0f02000a, 0x5000, 0x0202000a, 201, 101, true, .established⟩

/-- One acknowledgement of the client is on its way. -/
def oneAck : Hosts := ⟨clientSide, serverSide, [], [clientSide.segment [] { ack := true }]⟩

def oneReply : Hosts := ⟨clientSide, serverSide, [serverSide.segment [] { ack := true }], []⟩

/-- The side that closes is quiet, and a side without a buffer ends the exchange. -/
theorem closing_side_quiet :
    (received true true { serverSide with state := .lastAck } (clientSide.segment [] { ack := true })).2 = [] ∧
    ∃ es h, Run Hosts.step oneAck es h ∧ es.map Prod.snd = [.deliver true 0 false true] ∧
      es.length ≤ 3 * (oneAck.toA.length + oneAck.toB.length) := by
  have connected : oneAck.Connected := ⟨rfl, rfl⟩
  have synchronised : State.lastAck.Synchronised := rfl
  have bare : (clientSide.segment [] { ack := true }).Bare := by decide
  have window : InWindow { serverSide with state := .lastAck } (clientSide.segment [] { ack := true }) := by decide
  have run : Run Hosts.step oneAck ([] ++ [(oneAck, .deliver true 0 false true)]) _ := Run.start.snoc rfl
  obtain ⟨quiet, ends⟩ := storm_iff true true synchronised bare window connected run
  refine ⟨quiet.mpr (by decide), _, _, run, rfl, ends ?_⟩
  simp only [List.nil_append, List.forall_mem_singleton]
  exact fun _ _ _ _ _ => .inl rfl

/-- Two hosts with nothing to say acknowledge one acknowledgement as often as one likes. -/
theorem acks_forever : ¬∃ bound, ∀ es h, Run Hosts.step oneAck es h → es.length ≤ bound := by
  have there : oneAck.exec (.deliver true 0 true true) = some oneReply := by decide
  have back : oneReply.exec (.deliver false 0 true true) = some oneAck := by decide
  -- an even number of deliveries ends where it began, an odd one in between
  have rounds : ∀ n, ∃ es h, Run Hosts.step oneAck es h ∧ es.length = n ∧ (h = oneAck ∨ h = oneReply) := by
    intro n
    induction n with
    | zero => exact ⟨[], oneAck, Run.start, rfl, .inl rfl⟩
    | succ n ih =>
      obtain ⟨es, h, run, length, rfl | rfl⟩ := ih
      · exact ⟨_, _, run.snoc there, by simp [length], .inr rfl⟩
      · exact ⟨_, _, run.snoc back, by simp [length], .inl rfl⟩
  rintro ⟨bound, bounded⟩
  obtain ⟨es, h, run, length, -⟩ := rounds (bound + 1)
  have le := bounded es h run
  omega

end Jlos.Net.Tcp
