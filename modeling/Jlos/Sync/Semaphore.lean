import Jlos.Lib.Semaphore
import Jlos.Sync.Model

/-!
# Counting semaphores

A shallow embedding of `jlos_semaphore_wait` and `jlos_semaphore_post` of `kernel/sync.c`, whose
locked sections are the steps of any number of tasks. The wait queue is the list of the tasks in it.
-/
namespace Jlos.Sync

open Lib Function List BitVec Option

structure Semaphore where
  resourceCount : BitVec 32
  waitQueue : List Nat
  deriving DecidableEq, Repr

def semaphoreInit (initCount : BitVec 32) : Semaphore := ⟨initCount, []⟩

/-- The locked section of `jlos_semaphore_wait`, and whether the call returns behind it. -/
def semaphoreWait (sem : Semaphore) (current : Nat) : Bool × Semaphore :=
  let sem := { sem with resourceCount := sem.resourceCount - 1 }
  if 0 ≤ sem.resourceCount.toInt then (true, sem)
  else (false, { sem with waitQueue := sem.waitQueue ++ [current] })

/-- The locked section of `jlos_semaphore_post`, and the task it takes out of the queue. -/
def semaphorePost (sem : Semaphore) : Option Nat × Semaphore :=
  let sem := { sem with resourceCount := sem.resourceCount + 1 }
  if 0 < sem.resourceCount.toInt then (none, sem)
  else
    match sem.waitQueue with
    | [] => (none, sem)
    | wait :: queue => (some wait, { sem with waitQueue := queue })

/-! ### The counter -/

theorem toInt_sub_one {x : BitVec 32} (fits : x.toInt ≠ -2 ^ 31) : (x - 1).toInt = x.toInt - 1 := by
  have low : -2 ^ 31 ≤ x.toInt := le_toInt x
  have high : x.toInt < 2 ^ 31 := toInt_lt
  rw [toInt_sub, Int.bmod]
  have one : (1 : BitVec 32).toInt = 1 := rfl
  split <;> omega

theorem toInt_add_one {x : BitVec 32} (fits : x.toInt ≠ 2 ^ 31 - 1) : (x + 1).toInt = x.toInt + 1 := by
  have low : -2 ^ 31 ≤ x.toInt := le_toInt x
  have high : x.toInt < 2 ^ 31 := toInt_lt
  rw [toInt_add, Int.bmod]
  have one : (1 : BitVec 32).toInt = 1 := rfl
  split <;> omega

/-- A semaphore whose counter is what it stands for: the permits, or how many tasks wait. -/
def Semaphore.Models (sem : Semaphore) (abs : Counting Nat) : Prop :=
  sem.resourceCount.toInt = abs.value ∧ sem.waitQueue = abs.waiting ∧ abs.Tight

namespace Semaphore.Models

variable {sem : Semaphore} {abs : Counting Nat}

theorem init {c : BitVec 32} (nonneg : 0 ≤ c.toInt) : (semaphoreInit c).Models ⟨c.toInt.toNat, []⟩ := by
  refine ⟨?_, rfl, Or.inr rfl⟩
  simp only [semaphoreInit, Counting.value, length_nil]
  omega

theorem wait (h : sem.Models abs) (t : Nat) (fits : sem.resourceCount.toInt ≠ -2 ^ 31) :
    (semaphoreWait sem t).1 = (abs.wait t).1 ∧ (semaphoreWait sem t).2.Models (abs.wait t).2 := by
  obtain ⟨count, queue, tight⟩ := h
  have value := abs.wait_value t
  have tight' : (abs.wait t).2.Tight := tight.wait
  have next := toInt_sub_one fits
  unfold semaphoreWait
  simp only [next]
  rcases abs.wait_cases t with ⟨some, eq⟩ | ⟨none, eq⟩
  · have empty : abs.waiting = [] := tight.resolve_left (by omega)
    have pos : 0 ≤ sem.resourceCount.toInt - 1 := by
      rw [count, Counting.value, empty, length_nil]
      omega
    rw [if_pos pos]
    rw [eq] at value tight' ⊢
    exact ⟨rfl, by rw [value, ← count]; exact next, queue, tight'⟩
  · have neg : ¬0 ≤ sem.resourceCount.toInt - 1 := by
      rw [count, Counting.value, none]
      omega
    rw [if_neg neg]
    rw [eq] at value tight' ⊢
    exact ⟨rfl, by rw [value, ← count]; exact next, by rw [queue], tight'⟩

theorem post (h : sem.Models abs) (fits : sem.resourceCount.toInt ≠ 2 ^ 31 - 1) :
    (semaphorePost sem).1 = abs.post.1 ∧ (semaphorePost sem).2.Models abs.post.2 := by
  obtain ⟨count, queue, tight⟩ := h
  have value := abs.post_value
  have tight' : abs.post.2.Tight := tight.post
  have next := toInt_add_one fits
  unfold semaphorePost
  simp only [next]
  unfold Counting.post at value tight' ⊢
  cases waiting : abs.waiting with
  | nil =>
    have pos : 0 < sem.resourceCount.toInt + 1 := by
      rw [count, Counting.value, waiting, length_nil]
      omega
    rw [waiting] at value tight'
    rw [if_pos pos]
    exact ⟨rfl, by rw [value, ← count]; exact next, by rw [queue, waiting], tight'⟩
  | cons t ts =>
    have none : abs.permits = 0 := tight.resolve_right (by rw [waiting]; exact cons_ne_nil _ _)
    have neg : ¬0 < sem.resourceCount.toInt + 1 := by
      rw [count, Counting.value, waiting, none, length_cons]
      omega
    rw [waiting] at value tight'
    rw [if_neg neg, queue, waiting]
    exact ⟨rfl, by rw [value, ← count]; exact next, rfl, tight'⟩

end Semaphore.Models

/-! ### Tasks that wait and post -/

namespace Sem

structure Sys where
  sem : Semaphore
  status : Nat → Status

inductive Op
  | wait (t : Nat)
  | post
  /-- The tick switches from a running task. -/
  | preempt (t : Nat)
  /-- The scheduler switches to a ready task. -/
  | resume (t : Nat)
  deriving DecidableEq, Repr

def start (initCount : BitVec 32) : Sys := ⟨semaphoreInit initCount, fun _ => .ready⟩

def Sys.setStatus (s : Sys) (t : Nat) (x : Status) : Sys := { s with status := update s.status t x }

/-- Only running tasks wait; a post may come from anywhere. -/
def exec (s : Sys) : Op → Option Sys
  | .wait t =>
    if s.status t = .running then
      let (granted, sem) := semaphoreWait s.sem t
      if granted then some { s with sem } else some (Sys.setStatus { s with sem } t .blocked)
    else none
  | .post =>
    let (wait, sem) := semaphorePost s.sem
    match wait with
    | none => some { s with sem }
    | some t => if s.status t = .blocked then some (Sys.setStatus { s with sem } t .ready) else some { s with sem }
  | .preempt t => if s.status t = .running then some (s.setStatus t .ready) else none
  | .resume t => if s.status t = .ready then some (s.setStatus t .running) else none

def step (s : Sys) (op : Op) (s' : Sys) : Prop := exec s op = some s'

/-- The task whose wait is granted in a step: it takes a permit, or a post wakes it. -/
def grant : Sys × Op → Option Nat
  | (s, .wait t) => if (semaphoreWait s.sem t).1 then some t else none
  | (s, .post) => (semaphorePost s.sem).1.filter fun t => s.status t = .blocked
  | _ => none

def isPost : Sys × Op → Bool
  | (_, .post) => true
  | _ => false

def isWait : Sys × Op → Bool
  | (_, .wait _) => true
  | _ => false

/-- The counter is not at the end of its range. -/
def Fits (s : Sys) : Op → Prop
  | .wait _ => s.sem.resourceCount.toInt ≠ -2 ^ 31
  | .post => s.sem.resourceCount.toInt ≠ 2 ^ 31 - 1
  | .preempt _ | .resume _ => True

instance (s : Sys) (op : Op) : Decidable (Fits s op) := by
  cases op <;> unfold Fits <;> infer_instance

/-- A post grants exactly the oldest waiter, or leaves one more permit and wakes nobody. -/
def PostExact (s s' : Sys) : Prop :=
  (∃ t queue, s.sem.waitQueue = t :: queue ∧ s'.sem.waitQueue = queue ∧ s.status t = .blocked ∧
    s'.status = update s.status t .ready) ∨
  (s.sem.waitQueue = [] ∧ s'.sem.waitQueue = [] ∧ s'.status = s.status ∧ 0 ≤ s.sem.resourceCount.toInt ∧
    s'.sem.resourceCount.toInt = s.sem.resourceCount.toInt + 1)

/-- What holds of a history and the state it ends in. -/
structure Inv (c : Int) (es : List (Sys × Op)) (s : Sys) (abs : Counting Nat) : Prop where
  models : s.sem.Models abs
  value : abs.value = c + es.countP isPost - es.countP isWait
  granted : (es.filterMap grant).length + abs.waiting.length = es.countP isWait
  blocked : ∀ t ∈ abs.waiting, s.status t = .blocked
  nodup : abs.waiting.Nodup

variable {c : Int} {es : List (Sys × Op)} {s s' : Sys} {abs : Counting Nat} {op : Op}

theorem Inv.start {c : BitVec 32} (nonneg : 0 ≤ c.toInt) : Inv c.toInt [] (start c) ⟨c.toInt.toNat, []⟩ := by
  refine ⟨Semaphore.Models.init nonneg, ?_, rfl, nofun, nodup_nil⟩
  simp only [Counting.value, length_nil, countP_nil]
  omega

theorem Inv.setStatus (h : Inv c es s abs) {t : Nat} {x : Status} (out : s.status t ≠ .blocked)
    (post : isPost (s, op) = false) (wait : isWait (s, op) = false) (grants : grant (s, op) = none) :
    Inv c (es ++ [(s, op)]) (s.setStatus t x) abs := by
  constructor
  case models => exact h.models
  case value => simpa [countP_append, post, wait] using h.value
  case granted => simpa [filterMap_append, grants, countP_append, wait] using h.granted
  case nodup => exact h.nodup
  case blocked =>
    intro i mem
    have ne : i ≠ t := fun same => out (same ▸ h.blocked i mem)
    simp only [Sys.setStatus, update_of_ne ne]
    exact h.blocked i mem

attribute [local simp] countP_append filterMap_append isPost isWait

theorem Inv.wait (h : Inv c es s abs) {t : Nat} (running : s.status t = .running) (fits : Fits s (.wait t))
    (taken : step s (.wait t) s') : Inv c (es ++ [(s, .wait t)]) s' (abs.wait t).2 := by
  obtain ⟨same, models⟩ := h.models.wait t fits
  have value := abs.wait_value t
  simp only [step, exec, if_pos running] at taken
  rcases abs.wait_cases t with ⟨some, eq⟩ | ⟨none, eq⟩
  · rw [eq] at same models value
    rw [if_pos same] at taken
    cases taken
    rw [eq]
    refine ⟨models, ?_, ?_, h.blocked, h.nodup⟩
    · rw [value, h.value]
      simp
      omega
    · have before := h.granted
      simp [grant, same]
      omega
  · rw [eq] at same models value
    rw [if_neg (by rw [same]; exact Bool.false_ne_true)] at taken
    cases taken
    rw [eq]
    -- A task that is running is in no queue yet.
    have out : t ∉ abs.waiting := fun mem => by
      have blocked := h.blocked t mem
      rw [running] at blocked
      cases blocked
    refine ⟨models, ?_, ?_, fun i mem => ?_, ?_⟩
    · rw [value, h.value]
      simp
      omega
    · have before := h.granted
      simp [grant, same]
      omega
    · rcases mem_append.mp mem with old | new
      · have ne : i ≠ t := fun eq => out (eq ▸ old)
        simp only [Sys.setStatus, update_of_ne ne]
        exact h.blocked i old
      · rw [mem_singleton.mp new]
        exact update_self ..
    · rw [nodup_append]
      refine ⟨h.nodup, nodup_singleton t, fun i mem k here eq => ?_⟩
      rw [mem_singleton.mp here] at eq
      exact out (eq ▸ mem)

theorem Inv.post (h : Inv c es s abs) (fits : Fits s .post) (taken : step s .post s') :
    Inv c (es ++ [(s, .post)]) s' abs.post.2 ∧ PostExact s s' := by
  obtain ⟨woken, models⟩ := h.models.post fits
  have value := abs.post_value
  obtain ⟨count, queue, tight⟩ := h.models
  cases waiting : abs.waiting with
  | nil =>
    -- Nobody waits: the permit stays.
    have eq : abs.post = (none, { abs with permits := abs.permits + 1 }) := by
      rw [Counting.post, waiting]
    have next : (semaphorePost s.sem).1 = none := by rw [woken, eq]
    simp only [step, exec, next] at taken
    cases taken
    constructor
    · refine ⟨models, ?_, ?_, ?_, ?_⟩
      · rw [value, h.value]
        simp
        omega
      · have before := h.granted
        rw [eq]
        simpa [grant, next] using before
      · rw [eq]
        exact h.blocked
      · rw [eq]
        exact h.nodup
    · right
      have grown := models.1
      rw [value, ← count] at grown
      refine ⟨by rw [queue, waiting], ?_, rfl, ?_, grown⟩
      · rw [models.2.1, eq]
        exact waiting
      · rw [count, Counting.value, waiting]
        simp
  | cons t ts =>
    -- The first waiter gets the permit and is woken.
    have eq : abs.post = (some t, { abs with waiting := ts }) := by
      rw [Counting.post, waiting]
    have next : (semaphorePost s.sem).1 = some t := by rw [woken, eq]
    have blocked : s.status t = .blocked := h.blocked t (by rw [waiting]; exact mem_cons_self)
    have nodup := h.nodup
    rw [waiting, nodup_cons] at nodup
    simp only [step, exec, next, if_pos blocked] at taken
    cases taken
    constructor
    · refine ⟨models, ?_, ?_, fun i mem => ?_, ?_⟩
      · rw [value, h.value]
        simp
        omega
      · have before := h.granted
        have grants : grant (s, .post) = some t := by
          simp only [grant, next]
          simp [blocked]
        rw [waiting, length_cons] at before
        rw [eq]
        simp [grants]
        omega
      · rw [eq] at mem
        have ne : i ≠ t := fun same => nodup.1 (same ▸ mem)
        simp only [Sys.setStatus, update_of_ne ne]
        exact h.blocked i (by rw [waiting]; exact mem_cons_of_mem _ mem)
      · rw [eq]
        exact nodup.2
    · left
      refine ⟨t, ts, by rw [queue, waiting], ?_, blocked, rfl⟩
      have rest := models.2.1
      rwa [eq] at rest

/-- The invariant over a history, with what every post in it did. -/
def Holds (c : Int) (es : List (Sys × Op)) (s : Sys) : Prop :=
  (∀ e ∈ es, Fits e.1 e.2) →
    (∃ abs, Inv c es s abs) ∧ ∀ e ∈ es, e.2 = .post → ∃ s', step e.1 .post s' ∧ PostExact e.1 s'

theorem Holds.step (h : Holds c es s) (taken : step s op s') : Holds c (es ++ [(s, op)]) s' := by
  intro fits
  obtain ⟨⟨abs, inv⟩, posts⟩ := h fun e mem => fits e (mem_append_left _ mem)
  have now : Fits s op := fits (s, op) (by simp)
  have others : op ≠ .post → ∀ e ∈ es ++ [(s, op)], e.2 = .post → ∃ s', Sem.step e.1 .post s' ∧ PostExact e.1 s' := by
    intro other e mem posted
    rcases mem_append.mp mem with old | new
    · exact posts e old posted
    · rw [mem_singleton.mp new] at posted
      exact absurd posted other
  cases op with
  | wait t =>
    have running : s.status t = .running := by
      by_contra idle
      simp only [Sem.step, exec, if_neg idle] at taken
      cases taken
    exact ⟨⟨_, inv.wait running now taken⟩, others (by simp)⟩
  | post =>
    obtain ⟨inv', did⟩ := inv.post now taken
    refine ⟨⟨_, inv'⟩, fun e mem posted => ?_⟩
    rcases mem_append.mp mem with old | new
    · exact posts e old posted
    · rw [mem_singleton.mp new]
      exact ⟨s', taken, did⟩
  | preempt t =>
    obtain ⟨running, ⟨⟩⟩ := ite_none_right_eq_some.mp taken
    exact ⟨⟨abs, inv.setStatus (by rw [running]; simp) rfl rfl rfl⟩, others (by simp)⟩
  | resume t =>
    obtain ⟨ready, ⟨⟩⟩ := ite_none_right_eq_some.mp taken
    exact ⟨⟨abs, inv.setStatus (by rw [ready]; simp) rfl rfl rfl⟩, others (by simp)⟩

/-- As long as the counter does not overflow, the waits that were granted are at most the initial
count plus the posts, the queue is as long as the counter is below zero, and every post grants
exactly the oldest waiter or leaves one more permit. -/
theorem semaphore_counts {initCount : BitVec 32} (nonneg : 0 ≤ initCount.toInt) (run : Run step (start initCount) es s)
    (fits : ∀ e ∈ es, Fits e.1 e.2) : ((es.filterMap grant).length : Int) ≤ initCount.toInt + es.countP isPost ∧
    (s.sem.waitQueue.length : Int) = max 0 (-s.sem.resourceCount.toInt) ∧
    ∀ e ∈ es, e.2 = .post → ∃ s', step e.1 .post s' ∧ PostExact e.1 s' := by
  have holds : Holds initCount.toInt es s :=
    run.history_invariant (fun _ => ⟨⟨_, Inv.start nonneg⟩, nofun⟩) fun _ _ _ _ h taken => h.step taken
  obtain ⟨⟨abs, inv⟩, posts⟩ := holds fits
  obtain ⟨count, queue, tight⟩ := inv.models
  refine ⟨?_, ?_, posts⟩
  · have value := inv.value
    have granted := inv.granted
    have length := tight.waiting_length
    omega
  · rw [queue, count]
    exact tight.waiting_length

/-- One permit, two tasks: the second waits, and a post grants it. -/
theorem two_tasks_one_permit : ∃ es s, Run step (start 1) es s ∧
    es.map Prod.snd = [.resume 0, .wait 0, .resume 1, .wait 1, .post] ∧ (∀ e ∈ es, Fits e.1 e.2) ∧
    ((es.filterMap grant).length : Int) ≤ (1 : BitVec 32).toInt + es.countP isPost ∧
    (s.sem.waitQueue.length : Int) = max 0 (-s.sem.resourceCount.toInt) ∧
    ∀ e ∈ es, e.2 = .post → ∃ s', step e.1 .post s' ∧ PostExact e.1 s' := by
  obtain ⟨s, ends⟩ : ∃ s, [Op.resume 0, .wait 0, .resume 1, .wait 1, .post].foldlM (guarded exec Fits) (start 1) =
      some s := isSome_iff_exists.mp (by decide +kernel)
  obtain ⟨es, run, ops, fits⟩ := exists_run_of_foldlM ends
  exact ⟨es, s, run, ops, fits, semaphore_counts (by decide) run fits⟩

/-- A post at the largest count makes it the smallest one, with nobody in the queue. -/
theorem post_overflows : ∃ es s, Run step (start (2 ^ 31 - 1)) es s ∧ es.map Prod.snd = [.post] ∧
    s.sem.waitQueue.length = 0 ∧ s.sem.resourceCount.toInt = -2 ^ 31 := by
  obtain ⟨s, ends, last⟩ : ∃ s, [Op.post].foldlM (guarded exec fun _ _ => True) (start (2 ^ 31 - 1)) = some s ∧
      s.sem = ⟨-2 ^ 31, []⟩ := by
    refine ⟨⟨⟨-2 ^ 31, []⟩, fun _ => .ready⟩, ?_, rfl⟩
    rfl
  obtain ⟨es, run, ops, -⟩ := exists_run_of_foldlM ends
  refine ⟨es, s, run, ops, ?_, ?_⟩
  · rw [last]
    rfl
  · rw [last]
    decide

end Sem

end Jlos.Sync
