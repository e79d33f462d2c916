import Jlos.Lib.Chain
import Jlos.Lib.Semaphore
import Jlos.Lib.Tally
import Jlos.Lib.Tokens

/-!
# The message queue

A shallow embedding of `jlos_mq_send` and `jlos_mq_recv` of `kernel/ipc.c` for any number of
threads. The sections under `mq->mutex`, the locked sections of `sem_read_items` and the code
between them are single steps; the semaphore is the counting semaphore that `jlos_semaphore_wait`
and `jlos_semaphore_post` implement. Every node is in the list, or in the hands of one thread: the
sender that has filled it, or the receiver that has unlinked it.
-/
namespace Jlos.Ipc.MessageQueue

open Lib Function List Option

abbrev Byte := BitVec 8

/-- `jlos_msg_node_t` -/
structure Node where
  len : BitVec 32
  next : Option Nat
  data : List Byte
  deriving DecidableEq, Repr

/-- `jlos_mq_t` without its mutex. -/
structure Mq (n : Nat) where
  head : Option Nat
  tail : Option Nat
  count : BitVec 32
  semReadItems : Counting (Fin n)
  deriving DecidableEq, Repr

/-- Where a thread is, with the variables of its call. -/
inductive Pc
  | idle
  /-- In `jlos_mq_send`, before its section. -/
  | linking (buf : Nat → Byte) (len : BitVec 32) (node : Nat)
  | posting (len : BitVec 32)
  /-- In the queue of the semaphore. -/
  | waiting (maxLen : BitVec 32)
  /-- In `jlos_mq_recv`, behind the semaphore. -/
  | removing (maxLen : BitVec 32)
  | copying (maxLen : BitVec 32) (node : Nat)

structure Sys (n : Nat) where
  nodes : Nat → Option Node
  mq : Mq n
  pc : Fin n → Pc

inductive Op (n : Nat)
  /-- The arguments, and what `jlos_kalloc` returns. -/
  | send (t : Fin n) (buf : Option (Nat → Byte)) (len : BitVec 32) (alloc : Option Nat)
  | link (t : Fin n)
  | post (t : Fin n)
  /-- The arguments: whether there is a buffer, and its size. -/
  | recv (t : Fin n) (buf : Bool) (maxLen : BitVec 32)
  | remove (t : Fin n)
  | copy (t : Fin n)

inductive Fault
  /-- The thread cannot take this step. -/
  | disabled
  /-- A node is used or freed that is not allocated. -/
  | freed
  deriving DecidableEq, Repr

def msgMaxSize : Nat := 256

/-- The length of the message that is sent. -/
def capLen (len : BitVec 32) : BitVec 32 := if msgMaxSize < len.toNat then BitVec.ofNat 32 msgMaxSize else len

def bytes (buf : Nat → Byte) (len : BitVec 32) : List Byte := (List.range len.toNat).map buf

variable {n : Nat} {maxLen : BitVec 32} {nodes' : Nat → Option Node}

/-- `jlos_mq_init`, with all threads outside. -/
def start (n : Nat) : Sys n := ⟨fun _ => none, ⟨none, none, 0, ⟨0, []⟩⟩, fun _ => .idle⟩

/-- The first part of `jlos_mq_send`. -/
def sendEntry (s : Sys n) (t : Fin n) (buf : Option (Nat → Byte)) (len : BitVec 32) (alloc : Option Nat) :
    Except Fault (Sys n) :=
  match buf with
  | none => .ok s
  | some buf =>
    if len = 0 then .ok s
    else
      let len := capLen len
      match alloc with
      | none => .ok s
      | some p =>
        match s.nodes p with
        | some _ => .error .disabled
        | none => .ok { s with
            nodes := update s.nodes p (some ⟨len, none, bytes buf len⟩)
            pc := update s.pc t (.linking buf len p) }

/-- The section of `jlos_mq_send` under the mutex. -/
def sendSection (s : Sys n) (p : Nat) : Except Fault (Sys n) :=
  match s.mq.tail with
  | some q =>
    match s.nodes q with
    | none => .error .freed
    | some node => .ok { s with
        nodes := update s.nodes q (some { node with next := some p })
        mq := { s.mq with tail := some p, count := s.mq.count + 1 } }
  | none => .ok { s with mq := { s.mq with head := some p, tail := some p, count := s.mq.count + 1 } }

/-- What a thread does when the semaphore lets it pass. -/
def Pc.wake : Pc → Pc
  | .waiting maxLen => .removing maxLen
  | pc => pc

def semPost (s : Sys n) : Sys n :=
  let (woken, sem) := s.mq.semReadItems.post
  let s := { s with mq := { s.mq with semReadItems := sem } }
  match woken with
  | none => s
  | some u => { s with pc := update s.pc u (s.pc u).wake }

def semWait (s : Sys n) (t : Fin n) (maxLen : BitVec 32) : Sys n :=
  let (granted, sem) := s.mq.semReadItems.wait t
  { s with
    mq := { s.mq with semReadItems := sem }
    pc := update s.pc t (if granted then .removing maxLen else .waiting maxLen) }

/-- The section of `jlos_mq_recv` under the mutex, where it finds a node. -/
def recvSection (s : Sys n) (p : Nat) : Except Fault (Sys n) :=
  match s.nodes p with
  | none => .error .freed
  | some node => .ok { s with
      mq := { s.mq with
        head := node.next
        tail := if node.next = none then none else s.mq.tail
        count := s.mq.count - 1 } }

def copyLen (node : Node) (maxLen : BitVec 32) : BitVec 32 := if node.len.toNat < maxLen.toNat then node.len else maxLen

def exec (s : Sys n) : Op n → Except Fault (Sys n)
  | .send t buf len alloc =>
    match s.pc t with
    | .idle => sendEntry s t buf len alloc
    | _ => .error .disabled
  | .link t =>
    match s.pc t with
    | .linking _ len p => (sendSection s p).map fun s => { s with pc := update s.pc t (.posting len) }
    | _ => .error .disabled
  | .post t =>
    match s.pc t with
    | .posting _ => .ok (semPost { s with pc := update s.pc t .idle })
    | _ => .error .disabled
  | .recv t buf maxLen =>
    match s.pc t with
    | .idle => if !buf ∨ maxLen = 0 then .ok s else .ok (semWait s t maxLen)
    | _ => .error .disabled
  | .remove t =>
    match s.pc t with
    | .removing maxLen =>
      match s.mq.head with
      | none => .ok { s with pc := update s.pc t .idle }
      | some p => (recvSection s p).map fun s => { s with pc := update s.pc t (.copying maxLen p) }
    | _ => .error .disabled
  | .copy t =>
    match s.pc t with
    | .copying _ p =>
      match s.nodes p with
      | none => .error .freed
      | some _ => .ok { s with nodes := update s.nodes p none, pc := update s.pc t .idle }
    | _ => .error .disabled

def step (s : Sys n) (op : Op n) (s' : Sys n) : Prop := exec s op = .ok s'

/-! ### What a step does for the callers -/

/-- A message is linked: the sender, and the bytes it has read from its buffer. -/
def linked : Sys n × Op n → Option (Fin n × List Byte)
  | (s, .link t) =>
    match s.pc t with
    | .linking buf len _ => some (t, bytes buf len)
    | _ => none
  | _ => none

/-- A successful `jlos_mq_send` returns. -/
def sent : Sys n × Op n → Option (Fin n × BitVec 32)
  | (s, .post t) =>
    match s.pc t with
    | .posting len => some (t, len)
    | _ => none
  | _ => none

/-- A message is removed: the receiver, the size of its buffer and the bytes of the message. -/
def removed : Sys n × Op n → Option (Fin n × BitVec 32 × List Byte)
  | (s, .remove t) =>
    match s.pc t, s.mq.head with
    | .removing maxLen, some p => (s.nodes p).map fun node => (t, maxLen, node.data)
    | _, _ => none
  | _ => none

/-- A message is delivered and its node freed: the receiver, and the bytes that are in its buffer;
their number is what `jlos_mq_recv` returns. -/
def delivered : Sys n × Op n → Option (Fin n × List Byte)
  | (s, .copy t) =>
    match s.pc t with
    | .copying maxLen p => (s.nodes p).map fun node => (t, node.data.take (copyLen node maxLen).toNat)
    | _ => none
  | _ => none

/-- A receiver behind the semaphore finds the list empty. -/
def FindsEmpty : Sys n × Op n → Prop
  | (s, .remove _) => s.mq.head = none
  | _ => False

def content (nodes : Nat → Option Node) (p : Nat) : List Byte := ((nodes p).map Node.data).getD []

/-- The message that a receiver has removed and not yet delivered. -/
def inHand (nodes : Nat → Option Node) : Pc → List (List Byte)
  | .copying maxLen p => [(content nodes p).take maxLen.toNat]
  | _ => []

/-- The length of the message that a sender has linked and not yet returned from. -/
def unreturned : Pc → List Nat
  | .posting len => [len.toNat]
  | _ => []

/-! ### The list and the nodes in the hands of threads -/

/-- The node in the hands of a thread. -/
def Pc.node : Pc → Option Nat
  | .linking _ _ p | .copying _ p => some p
  | .idle | .posting _ | .waiting _ | .removing _ => none

/-- The nodes as a table of links. -/
def links (nodes : Nat → Option Node) (p : Nat) : Link Nat :=
  match nodes p with
  | none => .free
  | some node =>
    match node.next with
    | none => .last
    | some q => .next q

/-- The list of the queue, and who holds the other nodes. -/
structure Stored (nodes : Nat → Option Node) (head tail : Option Nat) (pc : Fin n → Pc) (queue : List Nat) : Prop where
  owned : Owned (fun p => nodes p ≠ none) queue fun t => (pc t).node
  head : head = queue.head?
  tail : tail = queue.getLast?
  chain : queue ≠ [] → IsChain (links nodes) queue
  built : ∀ {t buf len p}, pc t = .linking buf len p → nodes p = some ⟨len, none, bytes buf len⟩
  sized : ∀ {p node}, nodes p = some node → node.data.length = node.len.toNat

variable {nodes : Nat → Option Node} {head tail : Option Nat} {pc : Fin n → Pc} {queue : List Nat} {t : Fin n} {p : Nat}
  {x : Pc} {len : BitVec 32}

open Pc

theorem node_update (pc : Fin n → Pc) (t : Fin n) (x : Pc) :
    (fun i => (update pc t x i).node) = update (fun i => (pc i).node) t x.node := by
  funext i
  exact Function.apply_update (fun _ => node) pc t x i

namespace Stored

theorem content_setNext {q : Nat} {node : Node} (alloc : nodes q = some node) (next : Option Nat) (x : Nat) :
    content (update nodes q (some { node with next })) x = content nodes x := by
  obtain rfl | same := eq_or_ne x q
  · simp [content, alloc]
  · rw [content, content, update_of_ne same]

section

variable (h : Stored nodes head tail pc queue)
include h

theorem setPc (before : (pc t).node = none) (after : x.node = none) : Stored nodes head tail (update pc t x) queue := by
  refine { h with owned := ?owned, built := ?built }
  case owned =>
    have same : (fun i => (update pc t x i).node) = fun i => (pc i).node := by
      rw [node_update, after, ← before, update_eq_self]
    rw [same]
    exact h.owned
  case built =>
    intro i buf len p at_i
    rcases of_update at_i with ⟨-, here⟩ | ⟨-, at_i⟩
    · rw [here] at after
      cases after
    · exact h.built at_i

theorem mem_alloc (mem : p ∈ queue) : ∃ node, nodes p = some node :=
  ne_none_iff_exists'.mp ((h.owned.held p).mpr (Or.inl mem))

theorem send (idle : (pc t).node = none) (fresh : nodes p = none) (buf : Nat → Byte)
    (len : BitVec 32) : Stored (update nodes p (some ⟨len, none, bytes buf len⟩)) head tail
      (update pc t (.linking buf len p)) queue := by
  have others : ∀ {q node}, nodes q = some node → q ≠ p := by
    intro q node alloc same
    rw [same, fresh] at alloc
    cases alloc
  refine { h with owned := ?owned, chain := ?chain, built := ?built, sized := ?sized }
  case owned =>
    rw [node_update]
    refine h.owned.mintCarry (o := p) (by simp [fresh]) idle fun x => ?_
    by_cases same : x = p <;> simp [same]
  case chain =>
    intro some
    refine (h.chain some).congr fun x mem => ?_
    obtain ⟨node, alloc⟩ := h.mem_alloc mem
    rw [links, links, update_of_ne (others alloc)]
  case built =>
    intro i buf' len' q at_i
    rcases of_update at_i with ⟨-, here⟩ | ⟨-, at_i⟩
    · cases here
      exact update_self ..
    · rw [update_of_ne (others (h.built at_i))]
      exact h.built at_i
  case sized =>
    intro q node alloc
    rcases of_update alloc with ⟨-, here⟩ | ⟨-, alloc⟩
    · cases here
      simp [bytes]
    · exact h.sized alloc

/-- The section of a sender: the node becomes the last one of the list. -/
theorem link {buf : Nat → Byte} (at_t : pc t = .linking buf len p) :
    (tail = none → Stored nodes (some p) (some p) (update pc t (.posting len)) (queue ++ [p])) ∧
    ∀ q, tail = some q → ∃ node, nodes q = some node ∧
      Stored (update nodes q (some { node with next := some p })) head (some p)
        (update pc t (.posting len)) (queue ++ [p]) := by
  have carries : (pc t).node = some p := by rw [at_t]; rfl
  have handed : Owned (fun p => nodes p ≠ none) (queue ++ [p]) fun i => (update pc t (.posting len) i).node := by
    rw [node_update]
    exact (h.owned.deliver carries).perm (perm_append_singleton p queue).symm
  have ends : links nodes p = .last := by
    rw [links, h.built at_t]
  have off : p ∉ queue := fun mem => h.owned.apart p t mem carries
  have built : ∀ {i buf' len' x}, update pc t (.posting len) i = .linking buf' len' x →
      pc i = .linking buf' len' x ∧ x ∉ queue ++ [p] := by
    intro i buf' len' x at_i
    rcases of_update at_i with ⟨-, here⟩ | ⟨-, was⟩
    · cases here
    · refine ⟨was, fun mem => handed.apart x i mem ?_⟩
      rw [at_i]
      rfl
  constructor
  -- The list was empty: the node becomes its head and its tail.
  · intro empty
    have none : queue = [] := by
      have last := h.tail
      rw [empty] at last
      exact getLast?_eq_none_iff.mp last.symm
    subst none
    exact ⟨handed, rfl, rfl, fun _ => ends, fun at_i => h.built (built at_i).1, h.sized⟩
  -- Otherwise the old tail gets its link.
  · intro q last
    obtain ⟨front, rfl⟩ : ∃ front, queue = front ++ [q] := getLast?_eq_some_iff.mp (h.tail.symm.trans last)
    have member : q ∈ front ++ [q] := by simp
    obtain ⟨node, alloc⟩ := h.mem_alloc member
    have other : p ≠ q := fun same => off (same ▸ member)
    refine ⟨node, alloc, ?_⟩
    constructor
    case owned =>
      refine ⟨handed.nodup, fun x => ?_, handed.apart, handed.one⟩
      rw [← handed.held]
      by_cases same : x = q <;> simp [same, alloc]
    case head =>
      rw [h.head]
      cases front <;> rfl
    case tail => simp
    case chain =>
      intro _
      have nodup := h.owned.nodup
      rw [nodup_append] at nodup
      refine (h.chain (by simp)).concat (fun y mem => ?_) ?_ ?_
      · have ne : y ≠ q := nodup.2.2 y mem q (by simp)
        rw [links, links, update_of_ne ne]
      · simp [links]
      · rw [links, update_of_ne other]
        exact ends
    case built =>
      intro i buf' len' x at_i
      obtain ⟨was, out⟩ := built at_i
      have ne : x ≠ q := fun same => out (by simp [same])
      rw [update_of_ne ne]
      exact h.built was
    case sized =>
      intro x node' alloc'
      rcases of_update alloc' with ⟨-, here⟩ | ⟨-, alloc'⟩
      · cases here
        exact (h.sized alloc : node.data.length = node.len.toNat)
      · exact h.sized alloc'

/-- The node that was copied is freed. -/
theorem copy (at_t : pc t = .copying maxLen p) :
    (∃ node, nodes p = some node) ∧ Stored (update nodes p none) head tail (update pc t .idle) queue := by
  have carries : (pc t).node = some p := by rw [at_t]; rfl
  have off : ∀ x ∈ queue, x ≠ p := fun x mem same => h.owned.apart p t (same ▸ mem) carries
  constructor
  · exact ne_none_iff_exists'.mp (h.owned.carried carries)
  refine { h with owned := ?owned, chain := ?chain, built := ?built, sized := ?sized }
  case owned =>
    rw [node_update]
    refine h.owned.burn carries fun x => ?_
    by_cases same : x = p <;> simp [same]
  case chain =>
    intro some
    refine (h.chain some).congr fun x mem => ?_
    rw [links, links, update_of_ne (off x mem)]
  case built =>
    intro i buf len x at_i
    rcases of_update at_i with ⟨-, here⟩ | ⟨here, at_i⟩
    · cases here
    · have ne : x ≠ p := by
        intro same
        have carries' : (pc i).node = some p := by rw [at_i, same]; rfl
        exact here (h.owned.one p i t carries' carries)
      rw [update_of_ne ne]
      exact h.built at_i
  case sized =>
    intro x node alloc
    rcases of_update alloc with ⟨-, here⟩ | ⟨-, alloc⟩
    · cases here
    · exact h.sized alloc

end

/-- The section of a receiver: the first node of the list changes into its hands. -/
theorem remove {rest : List Nat} (h : Stored nodes head tail pc (p :: rest)) (empty : (pc t).node = none)
    (maxLen : BitVec 32) : ∃ node, nodes p = some node ∧
      Stored nodes node.next (if node.next = none then none else tail) (update pc t (.copying maxLen p)) rest := by
  obtain ⟨node, alloc⟩ := h.mem_alloc mem_cons_self
  have chain := h.chain (cons_ne_nil _ _)
  -- The link of the first node is the new head, so the tail is reset with the last node.
  have next : node.next = rest.head? := by
    cases rest with
    | nil =>
      have ends : links nodes p = .last := chain
      cases next : node.next <;> simp_all [links]
    | cons q qs =>
      have leads : links nodes p = .next q := chain.1
      cases next : node.next <;> simp_all [links]
  refine ⟨node, alloc, ?_⟩
  constructor
  case owned =>
    have taken := h.owned.collect mem_cons_self empty
    rw [erase_cons_head] at taken
    rw [node_update]
    exact taken
  case head => exact next
  case tail =>
    rw [next, h.tail]
    cases rest with
    | nil => rfl
    | cons q qs => rfl
  case chain =>
    intro some
    cases rest with
    | nil => exact absurd rfl some
    | cons q qs => exact chain.2
  case built =>
    intro i buf len x at_i
    rcases of_update at_i with ⟨-, here⟩ | ⟨-, at_i⟩
    · cases here
    · exact h.built at_i
  case sized => exact h.sized

end Stored

/-! ### The semaphore -/

/-- A sender that has linked its node and not yet posted. -/
def Pc.posts : Pc → Nat
  | .posting _ => 1
  | _ => 0

/-- A receiver that is behind the semaphore and has not yet removed its node. -/
def Pc.passed : Pc → Nat
  | .removing _ => 1
  | _ => 0

/-- The permits are the nodes of the list that neither a post nor a receiver behind the semaphore
stands for. -/
structure Counted (sem : Counting (Fin n)) (pc : Fin n → Pc) (length : Nat) : Prop where
  waiting : ∀ t, t ∈ sem.waiting ↔ ∃ maxLen, pc t = .waiting maxLen
  nodup : sem.waiting.Nodup
  permits : sem.permits + tally Pc.posts pc + tally Pc.passed pc = length

variable {sem : Counting (Fin n)} {length : Nat} {length' : Nat}

namespace Counted

/-- One thread goes on, and the semaphore may change with it. -/
theorem turn (h : Counted sem pc length) {sem' : Counting (Fin n)}
    (mine : t ∈ sem'.waiting ↔ ∃ maxLen, x = .waiting maxLen)
    (others : ∀ i, i ≠ t → (i ∈ sem'.waiting ↔ i ∈ sem.waiting))
    (nodup : sem'.waiting.Nodup) (balance : length' + sem.permits + (pc t).posts + (pc t).passed =
      length + sem'.permits + x.posts + x.passed) : Counted sem' (update pc t x) length' := by
  refine ⟨fun i => ?_, nodup, ?_⟩
  · obtain rfl | here := eq_or_ne i t
    · rw [update_self, mine]
    · rw [update_of_ne here, others i here, h.waiting]
  · have posts := tally_update posts pc t x
    have passed := tally_update passed pc t x
    have permits := h.permits
    omega

theorem setPc (h : Counted sem pc length) (before : ∀ maxLen, pc t ≠ .waiting maxLen)
    (after : ∀ maxLen, x ≠ .waiting maxLen)
    (balance : length' + (pc t).posts + (pc t).passed = length + x.posts + x.passed) :
    Counted sem (update pc t x) length' :=
  h.turn (by simp [h.waiting, before, after]) (fun _ _ => Iff.rfl) h.nodup (by omega)

/-- A receiver passes, or waits behind the others. -/
theorem wait (h : Counted sem pc length) (idle : pc t = .idle) (maxLen : BitVec 32) :
    Counted (sem.wait t).2 (update pc t (if (sem.wait t).1 then .removing maxLen else .waiting maxLen)) length := by
  have out : t ∉ sem.waiting := by simp [h.waiting, idle]
  rcases sem.wait_cases t with ⟨some, eq⟩ | ⟨none, eq⟩
  · simp only [eq, if_true]
    refine h.turn (by simp [out]) (fun _ _ => Iff.rfl) h.nodup ?_
    simp only [idle, posts, passed]
    omega
  · simp only [eq, Bool.false_eq_true, if_false]
    refine h.turn (by simp) (fun i here => by simp [here]) ?_ (by simp [idle, posts, passed])
    exact h.nodup.append (nodup_singleton t) (by simpa using out)

/-- A post wakes the first receiver that waits. -/
theorem post (h : Counted sem pc length) (more : length' = length + 1) :
    (sem.waiting = [] → Counted sem.post.2 pc length') ∧
    ∀ u us, sem.waiting = u :: us → ∃ maxLen, pc u = .waiting maxLen ∧
      Counted sem.post.2 (update pc u (.removing maxLen)) length' := by
  constructor
  · intro empty
    have eq : sem.post = (none, { sem with permits := sem.permits + 1 }) := by
      rw [Counting.post, empty]
    rw [eq]
    refine ⟨h.waiting, h.nodup, ?_⟩
    have permits := h.permits
    dsimp only
    omega
  · intro u us queue
    have eq : sem.post = (some u, { sem with waiting := us }) := by
      rw [Counting.post, queue]
    obtain ⟨maxLen, at_u⟩ := (h.waiting u).mp (by rw [queue]; exact mem_cons_self)
    have nodup := h.nodup
    rw [queue, nodup_cons] at nodup
    refine ⟨maxLen, at_u, ?_⟩
    rw [eq]
    refine h.turn (by simp [nodup.1]) (fun i here => by simp [queue, here]) nodup.2 ?_
    simp only [at_u, posts, passed]
    omega

end Counted

/-! ### The history -/

structure History (es : List (Sys n × Op n)) (nodes : Nat → Option Node) (pc : Fin n → Pc)
    (queue : List Nat) : Prop where
  order : (es.filterMap linked).map Prod.snd = (es.filterMap removed).map (fun e => e.2.2) ++ queue.map (content nodes)
  taken : ∀ t, (ofThread t (es.filterMap removed)).map (fun e => e.2.take e.1.toNat) =
    ofThread t (es.filterMap delivered) ++ inHand nodes (pc t)
  lengths : ∀ t, (ofThread t (es.filterMap linked)).map List.length =
    (ofThread t (es.filterMap sent)).map BitVec.toNat ++ unreturned (pc t)
  found : ∀ e ∈ es, ¬FindsEmpty e

section

variable {es : List (Sys n × Op n)} (h : History es nodes pc queue)
include h

/-- A step of one thread, by what it adds to the history. -/
theorem History.turn (e : Sys n × Op n) (t : Fin n) {queue' : List Nat} (l d : Option (List Byte))
    (b : Option (BitVec 32)) (r : Option (BitVec 32 × List Byte)) (links : linked e = l.map (t, ·))
    (sends : sent e = b.map (t, ·)) (removes : removed e = r.map (t, ·)) (delivers : delivered e = d.map (t, ·))
    (order : queue.map (content nodes) ++ l.toList = r.toList.map Prod.snd ++ queue'.map (content nodes'))
    (taken : inHand nodes (pc t) ++ r.toList.map (fun e => e.2.take e.1.toNat) = d.toList ++ inHand nodes' x)
    (lengths : unreturned (pc t) ++ l.toList.map List.length = b.toList.map BitVec.toNat ++ unreturned x)
    (others : ∀ i, i ≠ t → inHand nodes' (pc i) = inHand nodes (pc i)) (found : ¬FindsEmpty e) :
    History (es ++ [e]) nodes' (update pc t x) queue' := by
  constructor
  case order =>
    simp only [filterMap_snoc, map_append, h.order, append_assoc, links, removes]
    rw [show (l.map (t, ·)).toList.map Prod.snd = l.toList by cases l <;> rfl, order]
    cases r <;> rfl
  case taken =>
    intro i
    simp only [filterMap_snoc, ofThread_append, map_append, h.taken i, append_assoc, removes, delivers, ofThread_map]
    obtain rfl | here := eq_or_ne i t
    · simp [taken]
    · simp [here, others i here]
  case lengths =>
    intro i
    simp only [filterMap_snoc, ofThread_append, map_append, h.lengths i, append_assoc, links, sends, ofThread_map]
    obtain rfl | here := eq_or_ne i t
    · simp [lengths]
    · simp [here]
  case found => exact forall_mem_append.mpr ⟨h.found, by simpa using found⟩

theorem History.setPc (same : inHand nodes x = inHand nodes (pc t) ∧ unreturned x = unreturned (pc t)) :
    History es nodes (update pc t x) queue := by
  refine ⟨h.order, fun i => ?_, fun i => ?_, h.found⟩
  · rw [h.taken i]
    obtain rfl | here := eq_or_ne i t
    · rw [update_self, same.1]
    · rw [update_of_ne here]
  · rw [h.lengths i]
    obtain rfl | here := eq_or_ne i t
    · rw [update_self, same.2]
    · rw [update_of_ne here]

theorem History.quiet {e : Sys n × Op n} (t : Fin n)
    (silent : linked e = none ∧ sent e = none ∧ removed e = none ∧ delivered e = none)
    (contents : ∀ p, nodes p ≠ none → content nodes' p = content nodes p) (alloc : ∀ p ∈ queue, nodes p ≠ none)
    (mine : inHand nodes' x = inHand nodes (pc t) ∧ unreturned x = unreturned (pc t))
    (others : ∀ i, i ≠ t → inHand nodes' (pc i) = inHand nodes (pc i)) (found : ¬FindsEmpty e) :
    History (es ++ [e]) nodes' (update pc t x) queue := by
  obtain ⟨links, sends, removes, delivers⟩ := silent
  refine h.turn e t none none none none links sends removes delivers ?_ (by simp [mine.1])
    (by simp [mine.2]) others found
  simpa using fun p mem => (contents p (alloc p mem)).symm

end

/-! ### Steps and runs -/

structure Inv (es : List (Sys n × Op n)) (s : Sys n) (queue : List Nat) : Prop where
  stored : Stored s.nodes s.mq.head s.mq.tail s.pc queue
  counted : Counted s.mq.semReadItems s.pc queue.length
  history : History es s.nodes s.pc queue

variable {es : List (Sys n × Op n)} {s s' : Sys n}

theorem inv_start (n : Nat) : Inv [] (start n) [] := by
  refine ⟨⟨⟨nodup_nil, ?_, nofun, nofun⟩, rfl, rfl, fun some => absurd rfl some, nofun, nofun⟩,
    ⟨?_, nodup_nil, ?_⟩, ⟨rfl, fun _ => rfl, fun _ => rfl, nofun⟩⟩
  · intro p
    simp [start, node]
  · intro t
    simp [start]
  · simp [start, tally, posts, passed]

namespace Inv

theorem alloc (h : Inv es s queue) : ∀ p ∈ queue, s.nodes p ≠ none := fun p mem =>
  (h.stored.owned.held p).mpr (Or.inl mem)

theorem inHand_congr (contents : ∀ p, x.node = some p → content nodes' p = content nodes p) :
    inHand nodes' x = inHand nodes x := by
  cases x with
  | copying maxLen p => simp only [inHand, contents p rfl]
  | _ => rfl

theorem same (h : Inv es s queue) {e : Sys n × Op n} (t : Fin n)
    (silent : linked e = none ∧ sent e = none ∧ removed e = none ∧ delivered e = none) (found : ¬FindsEmpty e) :
    Inv (es ++ [e]) s queue := by
  have history := h.history.quiet t silent (fun _ _ => rfl) h.alloc ⟨rfl, rfl⟩ (fun _ _ => rfl) found
  rw [update_eq_self] at history
  exact ⟨h.stored, h.counted, history⟩

/-- The step is taken, and keeps the invariant. -/
def Goes (es : List (Sys n × Op n)) (s : Sys n) (op : Op n) : Prop :=
  ∃ s' queue', exec s op = .ok s' ∧ Inv (es ++ [(s, op)]) s' queue'

theorem send (h : Inv es s queue) (idle : s.pc t = .idle) (buf : Option (Nat → Byte)) (len : BitVec 32)
    (alloc : Option Nat) : exec s (.send t buf len alloc) = .error .disabled ∨ Goes es s (.send t buf len alloc) := by
  have unsent := h.same (e := (s, .send t buf len alloc)) t ⟨rfl, rfl, rfl, rfl⟩ id
  simp only [Goes, exec, idle, sendEntry]
  split
  · exact .inr ⟨s, queue, rfl, unsent⟩
  next buf =>
    split
    · exact .inr ⟨s, queue, rfl, unsent⟩
    · split
      · exact .inr ⟨s, queue, rfl, unsent⟩
      next p =>
        split
        · exact .inl rfl
        next fresh =>
          have contents : ∀ q, s.nodes q ≠ none → ∀ node, content (update s.nodes p node) q = content s.nodes q := by
            intro q used node
            have ne : q ≠ p := fun same => used (same ▸ fresh)
            rw [content, content, update_of_ne ne]
          refine .inr ⟨_, queue, rfl, h.stored.send (by rw [idle]; rfl) fresh _ _, ?_, ?_⟩
          · exact h.counted.setPc (by simp [idle]) (by simp) (by simp [idle, posts, passed])
          · exact h.history.quiet t ⟨rfl, rfl, rfl, rfl⟩ (fun q used => contents q used _) h.alloc
              (by rw [idle]; exact ⟨rfl, rfl⟩)
              (fun i _ => inHand_congr fun q carries => contents q (h.stored.owned.carried carries) _) id

theorem content_eq {node : Node} (alloc : nodes p = some node) : content nodes p = node.data := by
  rw [content, alloc]
  rfl

section

variable (h : Inv es s queue)
include h

/-- The message is linked behind the others. -/
theorem link {buf : Nat → Byte} (at_t : s.pc t = .linking buf len p) : Goes es s (.link t) := by
  obtain ⟨first, behind⟩ := h.stored.link at_t
  have links : linked (s, .link t) = some (t, bytes buf len) := by simp [linked, at_t]
  have own : content s.nodes p = bytes buf len := content_eq (h.stored.built at_t)
  -- whatever the section writes, it does not change the bytes of a message
  have history : ∀ nodes', (∀ q, content nodes' q = content s.nodes q) →
      History (es ++ [(s, .link t)]) nodes' (update s.pc t (.posting len)) (queue ++ [p]) := by
    intro nodes' contents
    refine h.history.turn _ t (some (bytes buf len)) none none none links rfl rfl rfl ?_ (by simp [at_t, inHand])
      (by simp [at_t, unreturned, bytes]) (fun i _ => inHand_congr fun q _ => contents q) id
    simp [contents, own]
  have counted : Counted s.mq.semReadItems (update s.pc t (.posting len)) (queue ++ [p]).length :=
    h.counted.setPc (by simp [at_t]) (by simp) (by simp [at_t, posts, passed])
  simp only [Goes, exec, at_t, sendSection]
  split
  next q last =>
    obtain ⟨node, alloc, stored⟩ := behind q last
    rw [alloc]
    exact ⟨_, _, rfl, stored, counted, history _ fun x => Stored.content_setNext alloc _ x⟩
  next none => exact ⟨_, _, rfl, first none, counted, history _ fun _ => rfl⟩

theorem post (at_t : s.pc t = .posting len) : Goes es s (.post t) := by
  have sends : sent (s, .post t) = some (t, len) := by simp [sent, at_t]
  have returned : Stored s.nodes s.mq.head s.mq.tail (update s.pc t .idle) queue :=
    h.stored.setPc (by rw [at_t]; rfl) rfl
  have positive : 0 < queue.length := by
    have one := le_tally posts s.pc t
    have permits := h.counted.permits
    rw [at_t] at one
    simp only [posts] at one
    omega
  have counted : Counted s.mq.semReadItems (update s.pc t .idle) (queue.length - 1) := by
    refine h.counted.setPc (by simp [at_t]) (by simp) ?_
    simp only [at_t, posts, passed]
    omega
  have history : History (es ++ [(s, .post t)]) s.nodes (update s.pc t .idle) queue :=
    h.history.turn _ t none none (some len) none rfl sends rfl rfl (by simp) (by simp [at_t, inHand])
      (by simp [at_t, unreturned]) (fun _ _ => rfl) id
  obtain ⟨nobody, first⟩ := counted.post (show queue.length = queue.length - 1 + 1 by omega)
  simp only [Goes, exec, at_t]
  refine ⟨_, queue, rfl, ?_⟩
  cases queued : s.mq.semReadItems.waiting with
  | nil =>
    have eq : s.mq.semReadItems.post.1 = none := by rw [Counting.post, queued]
    simp only [semPost, eq]
    exact ⟨returned, nobody queued, history⟩
  | cons u us =>
    obtain ⟨maxLen, at_u, counted'⟩ := first u us queued
    have eq : s.mq.semReadItems.post.1 = some u := by rw [Counting.post, queued]
    simp only [semPost, eq, at_u, wake]
    -- the woken receiver has nothing in its hands yet
    exact ⟨returned.setPc (by rw [at_u]; rfl) rfl, counted', history.setPc (by rw [at_u]; exact ⟨rfl, rfl⟩)⟩

theorem recv (idle : s.pc t = .idle) (buf : Bool) (maxLen : BitVec 32) : Goes es s (.recv t buf maxLen) := by
  simp only [Goes, exec, idle]
  split
  · exact ⟨s, queue, rfl, h.same t ⟨rfl, rfl, rfl, rfl⟩ id⟩
  · have node : ∀ b, node (if b = true then .removing maxLen else .waiting maxLen) = none := by
      intro b
      cases b <;> rfl
    refine ⟨_, queue, rfl, h.stored.setPc (by rw [idle]; rfl) (node _), h.counted.wait idle maxLen, ?_⟩
    refine h.history.quiet t ⟨rfl, rfl, rfl, rfl⟩ (fun _ _ => rfl) h.alloc ?_ (fun _ _ => rfl) id
    rw [idle]
    split <;> exact ⟨rfl, rfl⟩

/-- A receiver behind the semaphore finds a message. -/
theorem remove (at_t : s.pc t = .removing maxLen) : Goes es s (.remove t) := by
  -- the receiver is behind the semaphore, so the list is not empty
  have positive : 0 < queue.length := by
    have one := le_tally passed s.pc t
    have permits := h.counted.permits
    rw [at_t] at one
    simp only [passed] at one
    omega
  cases queue with
  | nil => cases positive
  | cons p rest =>
    obtain ⟨node, alloc, stored⟩ := h.stored.remove (t := t) (by rw [at_t]; rfl) maxLen
    have head : s.mq.head = some p := h.stored.head
    have removes : removed (s, .remove t) = some (t, maxLen, node.data) := by
      simp [removed, at_t, head, alloc]
    simp only [Goes, exec, at_t, head, recvSection, alloc]
    refine ⟨_, rest, rfl, stored, ?_, ?_⟩
    · exact h.counted.setPc (by simp [at_t]) (by simp) (by simp [at_t, posts, passed])
    · exact h.history.turn _ t none none none (some (maxLen, node.data)) rfl rfl removes rfl
        (by simp [content_eq alloc])
        (by simp [at_t, inHand, content_eq alloc]) (by simp [at_t, unreturned]) (fun _ _ => rfl)
          (by simp [FindsEmpty, head])

theorem copy (at_t : s.pc t = .copying maxLen p) : Goes es s (.copy t) := by
  obtain ⟨⟨node, alloc⟩, stored⟩ := h.stored.copy at_t
  have carries : (s.pc t).node = some p := by rw [at_t]; rfl
  have clipped : node.data.take (copyLen node maxLen).toNat = node.data.take maxLen.toNat := by
    have length : node.data.length = node.len.toNat := h.stored.sized alloc
    unfold copyLen
    split
    next short => rw [take_of_length_le (by omega), take_of_length_le (by omega)]
    next => rfl
  have delivers : delivered (s, .copy t) = some (t, node.data.take maxLen.toNat) := by
    simp [delivered, at_t, alloc, clipped]
  have contents : ∀ q, q ≠ p → content (update s.nodes p none) q = content s.nodes q := by
    intro q ne
    rw [content, content, update_of_ne ne]
  simp only [Goes, exec, at_t, alloc]
  refine ⟨_, queue, rfl, stored, ?_, ?_⟩
  · exact h.counted.setPc (by simp [at_t]) (by simp) (by simp [at_t, posts, passed])
  · refine h.history.turn _ t none (some (node.data.take maxLen.toNat)) none none rfl rfl rfl delivers ?_
      (by simp [at_t, inHand, content_eq alloc]) (by simp [at_t, unreturned]) (fun i here => ?_) id
    · simpa using fun q mem => (contents q fun same => h.stored.owned.apart p t (same ▸ mem) carries).symm
    · refine inHand_congr fun q carries' => contents q fun same => ?_
      exact here (h.stored.owned.one p i t (same ▸ carries') carries)

/-- A step that the thread can take uses no node that is not allocated. -/
theorem exec (op : Op n) : exec s op = .error .disabled ∨ Goes es s op := by
  cases op with
  | send t buf len alloc =>
    cases at_t : s.pc t with
    | idle => exact h.send at_t buf len alloc
    | _ => exact .inl (by simp only [MessageQueue.exec, at_t])
  | recv t buf maxLen =>
    cases at_t : s.pc t with
    | idle => exact .inr (h.recv at_t buf maxLen)
    | _ => exact .inl (by simp only [MessageQueue.exec, at_t])
  | link t =>
    cases at_t : s.pc t with
    | linking buf len p => exact .inr (h.link at_t)
    | _ => exact .inl (by simp only [MessageQueue.exec, at_t])
  | post t =>
    cases at_t : s.pc t with
    | posting len => exact .inr (h.post at_t)
    | _ => exact .inl (by simp only [MessageQueue.exec, at_t])
  | remove t =>
    cases at_t : s.pc t with
    | removing maxLen => exact .inr (h.remove at_t)
    | _ => exact .inl (by simp only [MessageQueue.exec, at_t])
  | copy t =>
    cases at_t : s.pc t with
    | copying maxLen p => exact .inr (h.copy at_t)
    | _ => exact .inl (by simp only [MessageQueue.exec, at_t])

theorem step {op : Op n} (taken : step s op s') : ∃ queue', Inv (es ++ [(s, op)]) s' queue' := by
  obtain refused | ⟨_, queue', eq, inv⟩ := h.exec op
  · cases refused.symm.trans taken
  · cases eq.symm.trans taken
    exact ⟨queue', inv⟩

end

end Inv

/-- In every run of any number of senders and receivers, the messages that were removed are, in this
order, the first of those that were linked; what a receiver gets of its messages is as many of their
bytes as fit its buffer; a successful send returns the number of bytes of its message; no receiver
behind the semaphore finds the list empty; and no node is used or freed that is not allocated. -/
theorem messages_delivered (run : Run step (start n) es s) :
    (es.filterMap removed).map (fun e => e.2.2) <+: (es.filterMap linked).map Prod.snd ∧
    (∀ t, (ofThread t (es.filterMap removed)).map (fun e => e.2.take e.1.toNat) =
      ofThread t (es.filterMap delivered) ++ inHand s.nodes (s.pc t)) ∧
    (∀ t, (ofThread t (es.filterMap linked)).map List.length =
      (ofThread t (es.filterMap sent)).map BitVec.toNat ++ unreturned (s.pc t)) ∧
    (∀ e ∈ es, ¬FindsEmpty e) ∧ ∀ op, exec s op ≠ .error .freed := by
  obtain ⟨queue, inv⟩ : ∃ queue, Inv es s queue :=
    run.history_invariant (I := fun es s => ∃ queue, Inv es s queue) ⟨[], inv_start n⟩
      fun _ _ _ _ ⟨_, inv⟩ taken => inv.step taken
  refine ⟨⟨_, inv.history.order.symm⟩, inv.history.taken, inv.history.lengths, inv.history.found, fun op fault => ?_⟩
  obtain refused | ⟨_, _, eq, -⟩ := inv.exec op
  · cases refused.symm.trans fault
  · cases eq.symm.trans fault

local instance twoThreads : NeZero 2 := ⟨by decide⟩

/-- A receiver that waits, and a message that it gets. -/
def oneMessage : List (Op 2) :=
  [.recv 1 true 2, .send 0 (some fun i => BitVec.ofNat 8 (i + 65)) 3 (some 7), .link 0, .post 0, .remove 1, .copy 1]

theorem one_message_delivered : ∃ es s, Run step (start 2) es s ∧ es.map Prod.snd = oneMessage ∧
    es.filterMap delivered = [(1, [65, 66])] ∧
    (es.filterMap removed).map (fun e => e.2.2) <+: (es.filterMap linked).map Prod.snd := by
  obtain ⟨⟨es, s⟩, traced, values⟩ : ∃ r, trace exec (fun _ _ => True) (start 2) oneMessage = some r ∧
      r.1.filterMap delivered = [(1, [65, 66])] := by
    have values : (trace exec (fun _ _ => True) (start 2) oneMessage).map (fun r => r.1.filterMap delivered) =
        some [(1, [65, 66])] := by decide +kernel
    exact map_eq_some_iff.mp values
  obtain ⟨run, ops⟩ := Run.of_trace traced
  have run' : Run step (start 2) es s := run.mono fun _ _ _ taken => taken.2
  exact ⟨es, s, run', ops, values, (messages_delivered run').1⟩

/-! ### Between the calls -/

theorem tight_step (tight : s.mq.semReadItems.Tight) {op : Op n} (taken : step s op s') : s'.mq.semReadItems.Tight := by
  have posts := tight.post
  have waits (t : Fin n) := tight.wait (t := t)
  unfold step exec sendEntry sendSection recvSection at taken
  cases op <;> grind [semPost, semWait, Except.map]

/-- In every run, once each call has returned or waits in the semaphore: the nodes that are
allocated are those of the list, there is a permit for each, and nobody waits while there is a
message. -/
theorem quiet_queue (run : Run step (start n) es s)
    (quiet : ∀ t, s.pc t = .idle ∨ ∃ maxLen, s.pc t = .waiting maxLen) : ∃ queue, s.mq.head = queue.head? ∧
      (queue ≠ [] → IsChain (links s.nodes) queue) ∧ (∀ p, s.nodes p ≠ none ↔ p ∈ queue) ∧
      s.mq.semReadItems.permits = queue.length ∧ ∀ t maxLen, s.pc t = .waiting maxLen → queue = [] := by
  obtain ⟨⟨queue, inv⟩, tight⟩ := run.history_invariant
    (I := fun es s => (∃ queue, Inv es s queue) ∧ s.mq.semReadItems.Tight) ⟨⟨[], inv_start n⟩, .inl rfl⟩
    fun _ _ _ _ ⟨⟨_, inv⟩, tight⟩ taken => ⟨inv.step taken, tight_step tight taken⟩
  have still (t : Fin n) : (s.pc t).posts = 0 ∧ (s.pc t).passed = 0 ∧ (s.pc t).node = none := by
    rcases quiet t with at_t | ⟨_, at_t⟩ <;> rw [at_t] <;> exact ⟨rfl, rfl, rfl⟩
  have permits := inv.counted.permits
  rw [tally_zero fun t => (still t).1, tally_zero fun t => (still t).2.1] at permits
  refine ⟨queue, inv.stored.head, inv.stored.chain, fun p => ?_, permits, fun t maxLen at_t => ?_⟩
  · rw [inv.stored.owned.held p]
    refine or_iff_left ?_
    rintro ⟨t, carries⟩
    simp [still t] at carries
  · have mem := (inv.counted.waiting t).mpr ⟨maxLen, at_t⟩
    rcases tight with none | nobody
    · exact length_eq_zero_iff.mp (permits.symm.trans none)
    · simp [nobody] at mem

/-- A message that was sent and not received yet. -/
theorem quiet_message : ∃ es s, Run step (start 2) es s ∧
    es.map Prod.snd = [.send 0 (some fun _ => 65) 1 (some 7), .link 0, .post 0] ∧
    ∃ queue : List Nat, queue.length = 1 ∧ ∀ p, s.nodes p ≠ none ↔ p ∈ queue := by
  have sent : step (start 2) (.send 0 (some fun _ => 65) 1 (some 7)) _ := rfl
  have run := ((Run.start.snoc sent).snoc (show step _ (.link 0) _ from rfl)).snoc
    (show step _ (.post 0) _ from rfl)
  obtain ⟨queue, -, -, held, permits, -⟩ := quiet_queue run fun t => .inl (by fin_cases t <;> rfl)
  exact ⟨_, _, run, rfl, queue, permits.symm, held⟩

end Jlos.Ipc.MessageQueue
