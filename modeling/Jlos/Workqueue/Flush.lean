import Jlos.Workqueue.Order

/-!
# Flushing

A thread that flushes queues one barrier on each CPU in turn and waits until it has run. While its
barrier is linked, everything that was linked before the flush is finished or stands before it; so
when the barrier has run, it is finished.
-/
namespace Jlos.Workqueue

open Lib Function List

variable {n m : Nat} {perCpu perCpu' : Fin n → Cpu m} {t : Fin m} {c i : Fin n} {w : Work m} {q : Cpu m} {x : Pc n}
  {done : Counting Unit} {L F F' : Fin n → Nat} {k : Nat} {es : List (Sys n m × Op n m)} {e : Sys n m × Op n m}

/-! ### What a flush waits for -/

/-- How often an item is linked, unlinked or run. -/
def unfinished (perCpu : Fin n → Cpu m) (w : Work m) : Nat := tally (fun q => q.out.count w) perCpu

theorem unfinished_update (perCpu : Fin n → Cpu m) (c : Fin n) (q : Cpu m) (w : Work m) :
    unfinished (update perCpu c q) w + (perCpu c).out.count w = unfinished perCpu w + q.out.count w :=
  tally_update _ perCpu c q

theorem le_unfinished (perCpu : Fin n → Cpu m) (c : Fin n) (w : Work m) :
    (perCpu c).out.count w ≤ unfinished perCpu w :=
  le_tally (fun q : Cpu m => q.out.count w) perCpu c

/-- The barrier of a thread is on a CPU, and what was linked before the flush is finished or stands
before it. -/
structure Standing (L F : Fin n → Nat) (perCpu : Fin n → Cpu m) (t : Fin m) (i : Fin n) : Prop where
  once : unfinished perCpu (.barrier t) = 1
  mem : Work.barrier t ∈ (perCpu i).out
  before : L i ≤ F i + (perCpu i).out.idxOf (.barrier t)

/-- The barrier of a thread has run, and what was linked before the flush is finished. -/
structure Passed (L F : Fin n → Nat) (perCpu : Fin n → Cpu m) (t : Fin m) (i : Fin n) : Prop where
  gone : unfinished perCpu (.barrier t) = 0
  before : L i ≤ F i

/-- How far a thread is with its flush: `L` counts what was linked to each CPU before the flush, and
`F` what each CPU has finished. -/
def Flow (L F : Fin n → Nat) (perCpu : Fin n → Cpu m) (done : Counting Unit) (t : Fin m) : Pc n → Prop
  | .flush i => unfinished perCpu (.barrier t) = 0 ∧ ∀ c : Fin n, c.val < i → L c ≤ F c
  | .barrier i .marked =>
    unfinished perCpu (.barrier t) = 0 ∧ done = ⟨0, []⟩ ∧ ∀ c : Fin n, c.val < i.val → L c ≤ F c
  | .barrier i .linked | .barrier i .wait =>
    (∀ c : Fin n, c.val < i.val → L c ≤ F c) ∧ ((Standing L F perCpu t i ∧ done = ⟨0, []⟩) ∨
      (Passed L F perCpu t i ∧ done = ⟨1, []⟩))
  | .barrier i .queued =>
    (∀ c : Fin n, c.val < i.val → L c ≤ F c) ∧ Standing L F perCpu t i ∧ done = ⟨0, [()]⟩
  | _ => unfinished perCpu (.barrier t) = 0

/-- What the CPUs do without the barrier of a thread. -/
structure Passes (F F' : Fin n → Nat) (perCpu perCpu' : Fin n → Cpu m) (t : Fin m) : Prop where
  count : unfinished perCpu' (.barrier t) = unfinished perCpu (.barrier t)
  grows : ∀ c, F c ≤ F' c
  place : ∀ i, Work.barrier t ∈ (perCpu i).out → Work.barrier t ∈ (perCpu' i).out ∧
    F i + (perCpu i).out.idxOf (.barrier t) ≤ F' i + (perCpu' i).out.idxOf (.barrier t)

theorem Standing.pass (standing : Standing L F perCpu t i) (passes : Passes F F' perCpu perCpu' t) :
    Standing L F' perCpu' t i where
  once := passes.count.trans standing.once
  mem := (passes.place i standing.mem).1
  before := standing.before.trans (passes.place i standing.mem).2

theorem Passed.pass (passed : Passed L F perCpu t i) (passes : Passes F F' perCpu perCpu' t) :
    Passed L F' perCpu' t i where
  gone := passes.count.trans passed.gone
  before := passed.before.trans (passes.grows i)

theorem Flow.pass (flow : Flow L F perCpu done t x) (passes : Passes F F' perCpu perCpu' t) :
    Flow L F' perCpu' done t x := by
  have grows : ∀ {i : Nat}, (∀ c : Fin n, c.val < i → L c ≤ F c) → ∀ c : Fin n, c.val < i → L c ≤ F' c :=
    fun all c lt => (all c lt).trans (passes.grows c)
  match x, flow with
  | .flush i, flow => exact ⟨passes.count.trans flow.1, grows flow.2⟩
  | .barrier i .marked, flow => exact ⟨passes.count.trans flow.1, flow.2.1, grows flow.2.2⟩
  | .barrier i .linked, flow | .barrier i .wait, flow =>
    exact ⟨grows flow.1, flow.2.imp (fun now => ⟨now.1.pass passes, now.2⟩) fun now => ⟨now.1.pass passes, now.2⟩⟩
  | .barrier i .queued, flow => exact ⟨grows flow.1, flow.2.1.pass passes, flow.2.2⟩
  | .idle, flow | .marked _ _, flow | .linked _ _, flow => exact passes.count.trans flow

/-! ### Steps of the CPUs -/

theorem le_update (j : Fin n) : F j ≤ update F c (F c + k) j := by
  obtain rfl | here := eq_or_ne j c
  · simp
  · simp [here]

theorem passes_refl (F : Fin n → Nat) (perCpu : Fin n → Cpu m) (t : Fin m) : Passes F F perCpu perCpu t :=
  ⟨rfl, fun _ => le_refl _, fun _ mem => ⟨mem, le_refl _⟩⟩

/-- A step at one CPU. -/
theorem passes_update (counted : F' = update F c (F c + k))
    (count : q.out.count (.barrier t) = (perCpu c).out.count (.barrier t))
    (place : Work.barrier t ∈ (perCpu c).out → Work.barrier t ∈ q.out ∧
      (perCpu c).out.idxOf (.barrier t) ≤ k + q.out.idxOf (.barrier t)) : Passes F F' perCpu (update perCpu c q) t := by
  subst counted
  constructor
  case count =>
    have changed := unfinished_update perCpu c q (.barrier t)
    omega
  case grows => exact le_update
  case place =>
    intro i mem
    obtain rfl | here := eq_or_ne i c
    · have after := place mem
      rw [update_self, update_self]
      exact ⟨after.1, by omega⟩
    · rw [update_of_ne here, update_of_ne here]
      exact ⟨mem, le_refl _⟩

theorem passes_same (out : q.out = (perCpu c).out) : Passes F F perCpu (update perCpu c q) t := by
  refine passes_update (k := 0) (update_eq_self c F).symm (by rw [out]) fun mem => ?_
  rw [out]
  exact ⟨mem, Nat.le_add_left _ _⟩

theorem passes_link (out : q.out = (perCpu c).out ++ [w]) (other : w ≠ .barrier t) :
    Passes F F perCpu (update perCpu c q) t := by
  have none : [w].count (Work.barrier t) = 0 := count_eq_zero.mpr (by simpa using fun eq => other eq.symm)
  refine passes_update (k := 0) (update_eq_self c F).symm (by rw [out, count_append, none]; rfl) fun mem => ?_
  rw [out, idxOf_append_of_mem mem]
  exact ⟨mem_append_left _ mem, Nat.le_add_left _ _⟩

theorem passes_finish (out : (perCpu c).out = w :: q.out) (other : w ≠ .barrier t)
    (counted : F' = update F c (F c + 1)) : Passes F F' perCpu (update perCpu c q) t := by
  refine passes_update counted (by rw [out, count_cons_of_ne other]) fun mem => ?_
  rw [out] at mem ⊢
  rw [idxOf_cons_ne _ other, add_comm 1]
  exact ⟨(mem_cons.mp mem).resolve_left fun eq => other eq.symm, le_refl _⟩

/-! ### Steps of the barrier -/

theorem standing_link (none : unfinished perCpu (.barrier t) = 0) (before : L c ≤ F c + (perCpu c).out.length)
    (out : q.out = (perCpu c).out ++ [.barrier t]) : Standing L F (update perCpu c q) t c := by
  have absent : (perCpu c).out.count (.barrier t) = 0 := Nat.le_zero.mp (none ▸ le_unfinished perCpu c (.barrier t))
  constructor
  case once =>
    have changed := unfinished_update perCpu c q (.barrier t)
    rw [out, count_append, count_singleton_self] at changed
    omega
  case mem =>
    rw [update_self, out]
    exact mem_append_right _ (mem_singleton.mpr rfl)
  case before =>
    rw [update_self, out, idxOf_append_of_notMem (count_eq_zero.mp absent)]
    exact before.trans (Nat.add_le_add_left (Nat.le_add_right _ _) _)

theorem Standing.finish (standing : Standing L F perCpu t i) (out : (perCpu c).out = .barrier t :: q.out)
    (counted : F' = update F c (F c + 1)) : Passed L F' (update perCpu c q) t i := by
  have one := standing.once
  -- The barrier stands once in all, so the CPU that has it at its head is the one that the thread waits for.
  have here : i = c := by
    by_contra ne
    have two : (perCpu i).out.count (.barrier t) + (perCpu c).out.count (.barrier t) ≤ unfinished perCpu (.barrier t) :=
      add_le_tally (fun q : Cpu m => q.out.count (.barrier t)) perCpu ne
    have first := count_pos_iff.mpr standing.mem
    rw [out, count_cons_self] at two
    omega
  subst here counted
  constructor
  case gone =>
    have changed := unfinished_update perCpu i q (.barrier t)
    rw [out, count_cons_self] at changed
    omega
  case before =>
    have before := standing.before
    rw [out, idxOf_cons_self] at before
    rw [update_self]
    omega

theorem Flow.finish (flow : Flow L F perCpu done t x) (out : (perCpu c).out = .barrier t :: q.out)
    (counted : F' = update F c (F c + 1)) :
    Flow L F' (update perCpu c q) done.post.2 t (if done.post.1.isSome then x.wake else x) := by
  have grows : ∀ i : Fin n, F i ≤ F' i := counted ▸ le_update
  have linked : unfinished perCpu (.barrier t) ≠ 0 := by
    have one := le_unfinished perCpu c (.barrier t)
    rw [out, count_cons_self] at one
    omega
  match x, flow with
  | .flush i, flow => exact absurd flow.1 linked
  | .barrier i .marked, flow => exact absurd flow.1 linked
  | .barrier i .linked, ⟨all, flow⟩ | .barrier i .wait, ⟨all, flow⟩ =>
    rcases flow with ⟨standing, rfl⟩ | ⟨passed, _⟩
    · exact ⟨fun j lt => (all j lt).trans (grows j), .inr ⟨standing.finish out counted, rfl⟩⟩
    · exact absurd passed.gone linked
  | .barrier i .queued, ⟨all, standing, waits⟩ =>
    subst waits
    have passed := standing.finish out counted
    refine ⟨passed.gone, ?_⟩
    intro j lt
    by_cases here : j = i
    · exact here ▸ passed.before
    · exact (all j (by omega)).trans (grows j)
  | .idle, flow | .marked _ _, flow | .linked _ _, flow => exact absurd flow linked

theorem Flow.wait (flow : Flow L F perCpu done t (.barrier i .wait)) :
    Flow L F perCpu (done.wait ()).2 t (if (done.wait ()).1 then .flush (i.val + 1) else .barrier i .queued) := by
  obtain ⟨all, ⟨standing, rfl⟩ | ⟨passed, rfl⟩⟩ := flow
  · exact ⟨all, standing, rfl⟩
  · refine ⟨passed.gone, ?_⟩
    intro j lt
    by_cases here : j = i
    · exact here ▸ passed.before
    · exact all j (by omega)

/-! ### The history of a flush -/

/-- The history before the last call of `jlos_flush_workqueue` by a thread. -/
def beforeFlush (t : Fin m) (es : List (Sys n m × Op n m)) : List (Sys n m × Op n m) :=
  (es.reverse.dropWhile fun e => e.2 ≠ .flush t).tail.reverse

theorem beforeFlush_call (called : e.2 = .flush t) : beforeFlush t (es ++ [e]) = es := by
  simp [beforeFlush, called]

theorem beforeFlush_other (other : e.2 ≠ .flush t) : beforeFlush t (es ++ [e]) = beforeFlush t es := by
  simp [beforeFlush, other]

theorem beforeFlush_split {es₁ es₂ : List (Sys n m × Op n m)} (called : e.2 = .flush t)
    (last : ∀ e ∈ es₂, e.2 ≠ .flush t) : beforeFlush t (es₁ ++ e :: es₂) = es₁ := by
  induction es₂ using List.reverseRecOn with
  | nil => exact beforeFlush_call called
  | append_singleton es₂ e' ih =>
    rw [← cons_append, ← append_assoc, beforeFlush_other (last e' (by simp))]
    exact ih fun e mem => last e (mem_append_left _ mem)

/-- How much was linked to a CPU before the last flush of a thread. -/
def owed (t : Fin m) (es : List (Sys n m × Op n m)) (c : Fin n) : Nat :=
  (ofThread c ((beforeFlush t es).filterMap linked)).length

/-- How much a CPU has finished. -/
def ends (es : List (Sys n m × Op n m)) (c : Fin n) : Nat := (ofThread c (es.filterMap finished)).length

theorem beforeFlush_isPrefix (t : Fin m) (es : List (Sys n m × Op n m)) : beforeFlush t es <+: es := by
  induction es using List.reverseRecOn with
  | nil => exact nil_prefix
  | append_singleton es e ih =>
    by_cases called : e.2 = .flush t
    · rw [beforeFlush_call called]
      exact prefix_append es [e]
    · rw [beforeFlush_other called]
      exact ih.trans (prefix_append es [e])

theorem links_isPrefix (t : Fin m) (es : List (Sys n m × Op n m)) (c : Fin n) :
    ofThread c ((beforeFlush t es).filterMap linked) <+: ofThread c (es.filterMap linked) :=
  ((beforeFlush_isPrefix t es).filterMap _).filterMap _

theorem owed_le (ordered : Ordered es perCpu) (t : Fin m) (c : Fin n) :
    owed t es c ≤ ends es c + (perCpu c).out.length := by
  have most := (links_isPrefix t es c).length_le
  rw [ordered.links c, length_append] at most
  exact most

/-- Every thread is as far with its flush as its barrier says. -/
def Flushing (es : List (Sys n m × Op n m)) (perCpu : Fin n → Cpu m) (done : Fin m → Counting Unit)
    (pc : Fin m → Pc n) :
    Prop :=
  ∀ t, Flow (owed t es) (ends es) perCpu (done t) t (pc t)

theorem ends_quiet (quiet : finished e = none) : ends (es ++ [e]) = ends es := by
  funext i
  simp [ends, quiet]

theorem ends_finish (finishes : finished e = some (c, w)) : ends (es ++ [e]) = update (ends es) c (ends es c + 1) := by
  funext i
  simp only [ends, filterMap_snoc, ofThread_append, length_append, finishes, Option.toList_some]
  obtain rfl | here := eq_or_ne i c
  · rw [update_self, ofThread_self]
    rfl
  · rw [update_of_ne here, ofThread_other here]
    rfl

theorem owed_other (other : e.2 ≠ .flush t) : owed t (es ++ [e]) = owed t es := by
  funext i
  rw [owed, beforeFlush_other other, owed]

namespace Flushing

variable {dones : Fin m → Counting Unit} {pc : Fin m → Pc n}

section

variable (h : Flushing es perCpu dones pc) (calls : ∀ u, e.2 ≠ .flush u)
include h calls

/-- A step of one thread, or one that its barrier is part of. -/
theorem next (others : ∀ u, u ≠ t → Passes (ends es) (ends (es ++ [e])) perCpu perCpu' u)
    (own : Flow (owed t es) (ends (es ++ [e])) perCpu' done t x) :
    Flushing (es ++ [e]) perCpu' (update dones t done) (update pc t x) := by
  intro u
  rw [owed_other (calls u)]
  obtain rfl | here := eq_or_ne u t
  · rw [update_self, update_self]
    exact own
  · rw [update_of_ne here, update_of_ne here]
    exact (h u).pass (others u here)

theorem setPc (others : ∀ u, u ≠ t → Passes (ends es) (ends (es ++ [e])) perCpu perCpu' u)
    (own : Flow (owed t es) (ends (es ++ [e])) perCpu' (dones t) t x) :
    Flushing (es ++ [e]) perCpu' dones (update pc t x) := by
  have next := h.next calls others own
  rwa [update_eq_self] at next

theorem pass (passes : ∀ u, Passes (ends es) (ends (es ++ [e])) perCpu perCpu' u) :
    Flushing (es ++ [e]) perCpu' dones pc := by
  intro u
  rw [owed_other (calls u)]
  exact (h u).pass (passes u)

/-- A step of a worker that leaves the items of its CPU where they are. -/
theorem setCpu (quiet : finished e = none)
    (out : q.out = (perCpu c).out) : Flushing (es ++ [e]) (update perCpu c q) dones pc := by
  refine h.pass calls fun u => ?_
  rw [ends_quiet quiet]
  exact passes_same out

/-- A step of one thread, by what it does to its flush. -/
theorem own (quiet : finished e = none) (flow : Flow (owed t es) (ends es) perCpu done t x) :
    Flushing (es ++ [e]) perCpu (update dones t done) (update pc t x) := by
  refine h.next calls (fun u _ => ?_) ?_
  · rw [ends_quiet quiet]
    exact passes_refl _ _ _
  · rw [ends_quiet quiet]
    exact flow

end

theorem call (h : Flushing es perCpu dones pc) (idle : pc t = .idle) (calls : e.2 = .flush t)
    (quiet : finished e = none) :
    Flushing (es ++ [e]) perCpu dones (update pc t (.flush 0)) := by
  intro u
  rw [ends_quiet quiet]
  obtain rfl | here := eq_or_ne u t
  · have none := h u
    rw [idle] at none
    rw [update_self]
    exact ⟨none, fun c lt => absurd lt (Nat.not_lt_zero _)⟩
  · have other : e.2 ≠ .flush u := by
      rw [calls]
      exact fun eq => here (Op.flush.inj eq).symm
    rw [owed_other other, update_of_ne here]
    exact h u

theorem finished_of_flushed (h : Flushing es perCpu dones pc) (ordered : Ordered es perCpu) {i : Nat}
    (leaves : pc t = .flush i) (last : n ≤ i) (c : Fin n) :
    ofThread c ((beforeFlush t es).filterMap linked) <+: ofThread c (es.filterMap finished) := by
  have flow := h t
  rw [leaves] at flow
  have short : owed t es c ≤ ends es c := flow.2 c (by omega)
  have both := links_isPrefix t es c
  rw [ordered.links c] at both
  exact prefix_of_prefix_length_le both (prefix_append _ _) short

end Flushing

end Jlos.Workqueue
