import Jlos.Lib.Run

/-!
# The ticket lock

A shallow embedding of `jlos_spin_lock` and `jlos_spin_unlock` of `arch/x86/spinlock.c`. The `lock
xaddw` is one step, every evaluation of the loop's condition is one, and `owner++` is a load and a
store. Both counters are 16 bits wide and wrap around.
-/
namespace Jlos.Sync.Ticket

open Lib Function List

/-- The two halves of `lock_word`. -/
structure Spinlock where
  next : BitVec 16
  owner : BitVec 16
  deriving DecidableEq, Repr

def spinlockInit : Spinlock := ⟨0, 0⟩

/-- Where a processor is. -/
inductive Pc
  | outside
  /-- In the loop of `jlos_spin_lock`, with `my_ticket`. -/
  | spinning (ticket : BitVec 16)
  | inside
  /-- In `jlos_spin_unlock`, between the load and the store of `owner++`. -/
  | leaving (owner : BitVec 16)
  deriving DecidableEq, Repr

/-- Between `jlos_spin_lock` and the end of `jlos_spin_unlock`. -/
def Pc.Holds : Pc → Prop
  | .inside | .leaving _ => True
  | .outside | .spinning _ => False

inductive Op (n : Nat)
  | xadd (c : Fin n)
  | poll (c : Fin n)
  | load (c : Fin n)
  | store (c : Fin n)
  deriving DecidableEq, Repr

structure Sys (n : Nat) where
  lock : Spinlock
  pc : Fin n → Pc

variable {n : Nat}

namespace Sys

def start (n : Nat) : Sys n := ⟨spinlockInit, fun _ => .outside⟩

def setPc (s : Sys n) (c : Fin n) (x : Pc) : Sys n := { s with pc := update s.pc c x }

/-- What a processor does next, where it can do the step at all. -/
def exec (s : Sys n) : Op n → Option (Sys n)
  | .xadd c =>
    match s.pc c with
    | .outside => some { s.setPc c (.spinning s.lock.next) with lock := { s.lock with next := s.lock.next + 1 } }
    | _ => none
  | .poll c =>
    match s.pc c with
    | .spinning ticket => some (if s.lock.owner ≠ ticket then s else s.setPc c .inside)
    | _ => none
  | .load c =>
    match s.pc c with
    | .inside => some (s.setPc c (.leaving s.lock.owner))
    | _ => none
  | .store c =>
    match s.pc c with
    | .leaving owner => some { s.setPc c .outside with lock := { s.lock with owner := owner + 1 } }
    | _ => none

def step (s : Sys n) (op : Op n) (s' : Sys n) : Prop := s.exec op = some s'

end Sys

/-- The processor that takes a ticket in a step. -/
def takes : Sys n × Op n → Option (Fin n)
  | (_, .xadd c) => some c
  | _ => none

/-- The processor whose `jlos_spin_lock` returns in a step. -/
def acquires : Sys n × Op n → Option (Fin n)
  | (s, .poll c) => if s.pc c = .spinning s.lock.owner then some c else none
  | _ => none

/-! ### The queue of tickets -/

/-- The processors with a ticket, in the order of their tickets: the first one may be past the loop,
the others spin with the tickets that follow `owner`. -/
structure Queued (s : Sys n) (queue : List (Fin n)) : Prop where
  nodup : queue.Nodup
  outside : ∀ c, c ∉ queue → s.pc c = .outside
  next : s.lock.next = s.lock.owner + BitVec.ofNat 16 queue.length
  first : ∀ c, queue[0]? = some c → s.pc c = .spinning s.lock.owner ∨ s.pc c = .inside ∨ s.pc c = .leaving s.lock.owner
  rest : ∀ i c, queue[i + 1]? = some c → s.pc c = .spinning (s.lock.owner + BitVec.ofNat 16 (i + 1))

/-- The part of the queue that has not got the lock yet. -/
def waiting (s : Sys n) (queue : List (Fin n)) : List (Fin n) :=
  match queue with
  | [] => []
  | c :: cs => if s.pc c = .spinning s.lock.owner then c :: cs else cs

variable {s s' : Sys n} {queue : List (Fin n)} {c : Fin n}

open Ticket.Sys

namespace Queued

theorem mem_of_pc (h : Queued s queue) (busy : s.pc c ≠ .outside) : c ∈ queue := by
  by_contra out
  exact busy (h.outside c out)

theorem length_le (h : Queued s queue) : queue.length ≤ n := by
  have bound := h.nodup.length_le_card
  rwa [Fintype.card_fin] at bound

/-- A processor that is not the first one spins, and its ticket is not `owner`. -/
theorem of_rest (h : Queued s queue) (few : n < 2 ^ 16) {i : Nat} (at_i : queue[i + 1]? = some c) :
    ∃ ticket, s.pc c = .spinning ticket ∧ ticket ≠ s.lock.owner := by
  refine ⟨_, h.rest i c at_i, fun same => ?_⟩
  have lt : i + 1 < queue.length := (List.getElem?_eq_some_iff.mp at_i).1
  have le := h.length_le
  have zero : BitVec.ofNat 16 (i + 1) = 0 := by
    have cancelled := congrArg (· - s.lock.owner) same
    simpa [BitVec.add_comm s.lock.owner, BitVec.add_sub_cancel] using cancelled
  have value := congrArg BitVec.toNat zero
  rw [BitVec.toNat_ofNat, Nat.mod_eq_of_lt (by omega)] at value
  cases value

theorem first_of_pc (h : Queued s queue) (few : n < 2 ^ 16)
    (front : (s.pc c).Holds ∨ s.pc c = .spinning s.lock.owner) : ∃ cs, queue = c :: cs := by
  have busy : s.pc c ≠ .outside := by
    intro idle
    rcases front with holds | spins
    · rw [idle] at holds
      exact holds
    · rw [idle] at spins
      cases spins
  obtain ⟨i, lt, at_i⟩ := mem_iff_getElem.mp (h.mem_of_pc busy)
  have at_i' : queue[i]? = some c := List.getElem?_eq_some_iff.mpr ⟨lt, at_i⟩
  cases i with
  | zero =>
    cases queue with
    | nil => cases at_i'
    | cons d ds => exact ⟨ds, by rw [Option.some.inj at_i']⟩
  | succ j =>
    obtain ⟨ticket, spins, other⟩ := h.of_rest few at_i'
    rcases front with holds | own
    · rw [spins] at holds
      exact holds.elim
    · rw [spins, Pc.spinning.injEq] at own
      exact absurd own other

/-- Processors behind the first one keep their place when the first one moves. -/
theorem setFirst {cs : List (Fin n)} (h : Queued s (c :: cs)) (x : Pc)
    (known : x = .inside ∨ x = .leaving s.lock.owner) : Queued (s.setPc c x) (c :: cs) := by
  have off : c ∉ cs := (nodup_cons.mp h.nodup).1
  constructor
  case nodup => exact h.nodup
  case next => exact h.next
  case outside =>
    intro d out
    have ne : d ≠ c := fun same => out (same ▸ mem_cons_self)
    simp only [setPc, update_of_ne ne]
    exact h.outside d out
  case first =>
    intro d at_d
    cases at_d
    right
    simp only [setPc, update_self]
    exact known
  case rest =>
    intro i d at_d
    have ne : d ≠ c := fun same => off (same ▸ mem_of_getElem? at_d)
    simp only [setPc, update_of_ne ne]
    exact h.rest i d at_d

/-- `lock xaddw` puts the processor at the end of the queue. -/
theorem xadd (h : Queued s queue) (idle : s.pc c = .outside) (out : c ∉ queue) :
    Queued ⟨{ s.lock with next := s.lock.next + 1 }, update s.pc c (.spinning s.lock.next)⟩ (queue ++ [c]) := by
  constructor
  case nodup =>
    rw [nodup_append]
    refine ⟨h.nodup, nodup_singleton c, fun a mem b here same => ?_⟩
    rw [mem_singleton.mp here] at same
    exact out (same ▸ mem)
  case next =>
    simp [h.next, BitVec.ofNat_add, BitVec.add_assoc]
  case outside =>
    intro d off
    have ne : d ≠ c := fun same => off (by simp [same])
    simp only [update_of_ne ne]
    exact h.outside d fun mem => off (mem_append_left _ mem)
  -- With nobody in front the new ticket is the one that is served.
  case first =>
    intro d at_d
    obtain rfl | same := eq_or_ne d c
    · left
      have empty : queue = [] := by
        cases queue with
        | nil => rfl
        | cons e es =>
          cases at_d
          exact absurd mem_cons_self out
      simp only [update_self]
      rw [h.next, empty, List.length_nil, BitVec.add_zero]
    · simp only [update_of_ne same]
      apply h.first
      cases queue with
      | nil => cases at_d; exact absurd rfl same
      | cons e es => exact at_d
  case rest =>
    intro i d at_d
    -- The tickets are consecutive, and the new one is the last.
    rcases lt_trichotomy (i + 1) queue.length with lt | last | gt
    · rw [getElem?_append_left lt] at at_d
      have ne : d ≠ c := fun same => out (same ▸ mem_of_getElem? at_d)
      simp only [update_of_ne ne]
      exact h.rest i d at_d
    · rw [getElem?_append_right (by omega), ← last, Nat.sub_self] at at_d
      cases at_d
      simp only [update_self]
      rw [h.next, last]
    · rw [List.getElem?_eq_none (by simp; omega)] at at_d
      cases at_d

/-- The store of `owner++` lets the next processor of the queue pass. -/
theorem store {cs : List (Fin n)} (h : Queued s (c :: cs)) :
    Queued ⟨{ s.lock with owner := s.lock.owner + 1 }, update s.pc c .outside⟩ cs := by
  obtain ⟨off, nodup⟩ := nodup_cons.mp h.nodup
  have others : ∀ {i d}, cs[i]? = some d →
      update s.pc c .outside d = .spinning (s.lock.owner + 1 + BitVec.ofNat 16 i) := by
    intro i d at_d
    have ne : d ≠ c := fun same => off (same ▸ mem_of_getElem? at_d)
    rw [update_of_ne ne, h.rest i d at_d, Nat.add_comm i 1, BitVec.ofNat_add, BitVec.add_assoc]
    rfl
  constructor
  case nodup => exact nodup
  case next =>
    simp only [h.next, length_cons]
    rw [Nat.add_comm cs.length 1, BitVec.ofNat_add, BitVec.add_assoc]
    rfl
  case outside =>
    intro d out
    by_cases same : d = c
    · simp [same]
    · simp only [update_of_ne same]
      exact h.outside d (by simp [same, out])
  case first =>
    intro d at_d
    left
    have spins := others at_d
    rwa [BitVec.add_zero] at spins
  case rest => exact fun i d at_d => others at_d

end Queued

/-- A queue in the state, with everybody who ever took a ticket either served or waiting, in
order. -/
def Served (es : List (Sys n × Op n)) (s : Sys n) : Prop :=
  ∃ queue, Queued s queue ∧ es.filterMap takes = es.filterMap acquires ++ waiting s queue

theorem served_start : Served [] (start n) := by
  refine ⟨[], ⟨nodup_nil, fun _ _ => rfl, rfl, nofun, nofun⟩, rfl⟩

theorem Served.step {es : List (Sys n × Op n)} {op : Op n} (few : n < 2 ^ 16) (served : Served es s)
    (taken : s.step op s') : Served (es ++ [(s, op)]) s' := by
  obtain ⟨queue, h, order⟩ := served
  simp only [Served, filterMap_append]
  cases op <;> simp only [Sys.step, Sys.exec] at taken <;> split at taken <;> cases taken
  next c _ idle =>
    -- a ticket is taken: the queue and the part of it that waits grow at the end
    have out : c ∉ queue := by
      intro mem
      obtain ⟨i, lt, at_i⟩ := mem_iff_getElem.mp mem
      have at_i' : queue[i]? = some c := List.getElem?_eq_some_iff.mpr ⟨lt, at_i⟩
      cases i with
      | zero =>
        have busy := h.first c at_i'
        simp [idle] at busy
      | succ j =>
        have busy := h.rest j c at_i'
        simp [idle] at busy
    refine ⟨queue ++ [c], h.xadd idle out, ?_⟩
    have grown : waiting ⟨{ s.lock with next := s.lock.next + 1 }, update s.pc c (.spinning s.lock.next)⟩
        (queue ++ [c]) = waiting s queue ++ [c] := by
      cases queue with
      | nil =>
        have first : s.lock.next = s.lock.owner := by
          rw [h.next, List.length_nil, BitVec.add_zero]
        simp [waiting, first]
      | cons d ds =>
        have ne : d ≠ c := fun same => out (same ▸ mem_cons_self)
        simp only [waiting, List.cons_append, update_of_ne ne]
        split
        · rfl
        · rfl
    rw [setPc, grown, order]
    simp [takes, acquires]
  next c _ ticket spins =>
    split
    next other =>
      refine ⟨queue, h, ?_⟩
      have stays : acquires (s, .poll c) = none := by
        simp [acquires, spins, Ne.symm other]
      simp [order, takes, stays]
    next own =>
      -- the loop ends: the first of those who wait gets the lock
      obtain rfl := not_not.mp own
      obtain ⟨cs, rfl⟩ := h.first_of_pc few (.inr spins)
      refine ⟨c :: cs, h.setFirst .inside (.inl rfl), ?_⟩
      rw [order]
      simp [takes, acquires, spins, waiting, setPc]
  next c _ inside =>
    obtain ⟨cs, rfl⟩ := h.first_of_pc (c := c) few (.inl (by rw [inside]; trivial))
    refine ⟨c :: cs, h.setFirst _ (.inr rfl), ?_⟩
    rw [order]
    simp [filterMap_cons, takes, acquires, inside, waiting, setPc]
  next c _ owner leaving =>
    obtain ⟨cs, rfl⟩ := h.first_of_pc (c := c) few (.inl (by rw [leaving]; trivial))
    have own : owner = s.lock.owner := by
      have known := h.first c rfl
      simpa [leaving] using known
    subst own
    refine ⟨cs, h.store, ?_⟩
    have all : waiting ⟨{ s.lock with owner := s.lock.owner + 1 }, update s.pc c .outside⟩ cs = cs := by
      cases cs with
      | nil => rfl
      | cons d ds =>
        have next := h.rest 0 d rfl
        have ne : d ≠ c := fun same => (nodup_cons.mp h.nodup).1 (same ▸ mem_cons_self)
        simp only [waiting, update_of_ne ne, next]
        exact if_pos rfl
    rw [setPc, order, all]
    simp [filterMap_cons, takes, acquires, leaving, waiting]

/-- With fewer than 2¹⁶ processors, at most one of them is between `jlos_spin_lock` and
`jlos_spin_unlock`, and they get the lock in the order in which they took their tickets, however
often the counters wrap around. -/
theorem ticket_lock_exclusive (few : n < 2 ^ 16) {es : List (Sys n × Op n)} {s : Sys n}
    (run : Run Sys.step (Sys.start n) es s) :
    (∀ c d, (s.pc c).Holds → (s.pc d).Holds → c = d) ∧ es.filterMap acquires <+: es.filterMap takes := by
  obtain ⟨queue, h, order⟩ : Served es s :=
    run.history_invariant served_start fun _ _ _ _ served taken => served.step few taken
  constructor
  · intro c d holds holds'
    obtain ⟨cs, first⟩ := h.first_of_pc few (.inl holds)
    obtain ⟨ds, first'⟩ := h.first_of_pc few (.inl holds')
    exact (List.cons.inj (first.symm.trans first')).1
  · exact ⟨_, order.symm⟩

/-- Two processors that get the lock one after the other. -/
theorem two_processors_in_order : ∃ es s, Run Sys.step (Sys.start 2) es s ∧
    es.map Prod.snd = [.xadd 1, .xadd 0, .poll 0, .poll 1, .load 1, .store 1, .poll 0] ∧
    (∀ c d, (s.pc c).Holds → (s.pc d).Holds → c = d) ∧ es.filterMap acquires <+: es.filterMap takes := by
  obtain ⟨s, ends⟩ : ∃ s, [Op.xadd 1, .xadd 0, .poll 0, .poll 1, .load 1, .store 1, .poll 0].foldlM
      (guarded Sys.exec fun _ _ => True) (start 2) = some s := Option.isSome_iff_exists.mp (by decide +kernel)
  obtain ⟨es, run, ops, -⟩ := exists_run_of_foldlM ends
  exact ⟨es, s, run, ops, ticket_lock_exclusive (by decide) run⟩

end Jlos.Sync.Ticket
