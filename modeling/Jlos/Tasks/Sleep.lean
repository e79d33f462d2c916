import Jlos.Sync.Model

/-!
# Sleepers and their wakers

A shallow embedding of everything that blocks a task (`kernel/sync.c`, `jlos_task_sleep_until` and
`jlos_task_sleep_hrtimer` of `kernel/multitask.c`), of everything that wakes it, and of the
scheduler that a tick calls wherever interrupts are enabled. Sections under a lock are single steps.
Timers may expire at any time. The wait queues are lists; that is what they are as long as no task
enters a queue while it is still linked in one. Only the two sleeps block a task before they link
it.
-/
namespace Jlos.Tasks.Sleep

open Lib Option
open Function (update update_eq_self update_of_ne update_self)
open Sync (Status)

/-- The wait queues. -/
inductive Queue
  | sem (i : Nat)
  | mutex (i : Nat)
  | cond (i : Nat)
  deriving DecidableEq, Repr

/-- What a sleep links a task in: the wheel, or an armed timer that names it. -/
inductive Clock
  | wheel
  | hrtimer
  deriving DecidableEq, Repr

/-- Where a task is. -/
inductive Pc
  | run
  /-- In a sleep, behind `sleeping = true`. -/
  | flagged (clock : Clock)
  /-- In a sleep, behind `JLOS_TASK_SET_BLOCKED`. -/
  | blocked (clock : Clock)
  /-- Before `jlos_task_manager_schedule`. -/
  | schedule
  /-- In `jlos_cond_wait`, before `jlos_mutex_unlock`. -/
  | condUnlock (m : Nat)
  /-- In `jlos_cond_wait`, before `jlos_task_manager_schedule`. -/
  | condSchedule (m : Nat)
  /-- In `jlos_cond_wait`, before `jlos_mutex_lock`. -/
  | condLock (m : Nat)
  deriving DecidableEq, Repr

structure Task where
  status : Status
  sleeping : Bool
  onCpu : Bool
  pc : Pc
  /-- The call of `jlos_task_sleep_hrtimer` that has armed its timer, which is on its stack, has not
  returned. -/
  framed : Bool
  deriving DecidableEq, Repr

structure Mutex where
  locked : Bool
  owner : Option Nat
  recursion : Nat
  deriving DecidableEq, Repr

structure Sys where
  tasks : Nat → Task
  queues : Queue → List Nat
  /-- The tasks that are linked in the wheel, and those that an armed timer names. -/
  armed : Clock → Nat → Bool
  counts : Nat → Int
  mutexes : Nat → Mutex

inductive Op
  | semWait (t i : Nat)
  | semPost (i : Nat)
  | mutexLock (t m : Nat)
  | mutexUnlock (t m : Nat)
  | condWait (t c m : Nat)
  | condSignal (c : Nat)
  | condBroadcast (c : Nat)
  | sleep (t : Nat) (clock : Clock)
  /-- The next step of a task in one of these calls. -/
  | next (t : Nat)
  /-- `sleep_expire` or `nanosleep_wakeup` -/
  | expire (t : Nat) (clock : Clock)
  /-- `jlos_task_wakeup` by `jlos_signal_send` or `jlos_kthread_stop` -/
  | wakeup (t : Nat)
  | tick (t : Nat)
  | dispatch (t : Nat)
  deriving DecidableEq, Repr

def Sys.setTask (s : Sys) (t : Nat) (x : Task) : Sys := { s with tasks := update s.tasks t x }

def Sys.setQueue (s : Sys) (q : Queue) (l : List Nat) : Sys := { s with queues := update s.queues q l }

def Sys.setArmed (s : Sys) (clock : Clock) (t : Nat) (x : Bool) : Sys :=
  { s with armed := update s.armed clock (update (s.armed clock) t x) }

def Sys.setMutex (s : Sys) (m : Nat) (x : Mutex) : Sys := { s with mutexes := update s.mutexes m x }

/-- `wait_enqueue` and `JLOS_TASK_SET_BLOCKED` -/
def block (s : Sys) (q : Queue) (t : Nat) (pc : Pc) : Sys :=
  (s.setQueue q (s.queues q ++ [t])).setTask t { s.tasks t with status := .blocked, pc }

def taskWakeup (s : Sys) (t : Nat) : Sys :=
  let s := if (s.tasks t).sleeping then
      (s.setTask t { s.tasks t with sleeping := false }).setArmed .wheel t false
    else s
  if (s.tasks t).status = .blocked then s.setTask t { s.tasks t with status := .ready } else s

/-- `wait_dequeue`, and `jlos_task_wakeup` of a task that is blocked, with this task. -/
def wakeFirst (s : Sys) (q : Queue) : Option Nat × Sys :=
  match s.queues q with
  | [] => (none, s)
  | t :: rest =>
    let s := s.setQueue q rest
    if (s.tasks t).status = .blocked then (some t, taskWakeup s t) else (none, s)

/-- `jlos_semaphore_wait` up to its return or its call of the scheduler -/
def semWait (s : Sys) (t i : Nat) : Sys :=
  let s := { s with counts := update s.counts i (s.counts i - 1) }
  if 0 ≤ s.counts i then s else block s (.sem i) t .schedule

def semPost (s : Sys) (i : Nat) : Sys :=
  let s := { s with counts := update s.counts i (s.counts i + 1) }
  if 0 < s.counts i then s else (wakeFirst s (.sem i)).2

/-- `jlos_mutex_lock` up to its return or its call of the scheduler; the caller goes on at
`.run`. -/
def mutexLock (s : Sys) (t m : Nat) : Sys :=
  let x := s.mutexes m
  let s := s.setTask t { s.tasks t with pc := .run }
  if x.owner = some t then s.setMutex m { x with recursion := x.recursion + 1 }
  else if !x.locked then s.setMutex m ⟨true, some t, 1⟩
  else block s (.mutex m) t .schedule

def mutexUnlock (s : Sys) (t m : Nat) : Sys :=
  let x := s.mutexes m
  if x.owner ≠ some t then s
  else if 0 < x.recursion - 1 then s.setMutex m { x with recursion := x.recursion - 1 }
  else
    match wakeFirst (s.setMutex m ⟨false, none, x.recursion - 1⟩) (.mutex m) with
    | (none, s) => s
    | (some wait, s) => s.setMutex m ⟨true, some wait, 1⟩

def condBroadcast (s : Sys) (c : Nat) : Sys :=
  (s.queues (.cond c)).foldl (fun s _ => (wakeFirst s (.cond c)).2) s

def sleepExpire (s : Sys) (t : Nat) : Sys :=
  let x := { s.tasks t with sleeping := false }
  s.setTask t (if x.status = .blocked then { x with status := .ready } else x)

/-- What a clock does with a task that it lets go. -/
def Clock.wake (s : Sys) (t : Nat) : Clock → Sys
  | .wheel => sleepExpire s t
  | .hrtimer => taskWakeup s t

/-- `jlos_task_manager_schedule` for the task that it leaves. -/
def Task.switchOut (x : Task) : Task :=
  { x with
    status := if x.status = .running then (if x.sleeping then .blocked else .ready) else x.status
    onCpu := false }

/-- The next step of a task in a call. -/
def nextStep (s : Sys) (t : Nat) (x : Task) : Option Sys :=
  match x.pc with
  | .run => none
  | .flagged clock => some (s.setTask t { x with status := .blocked, pc := .blocked clock })
  | .blocked clock =>
    some ((s.setArmed clock t true).setTask t { x with pc := .schedule, framed := clock = .hrtimer })
  | .schedule => some (s.setTask t { x.switchOut with pc := .run })
  | .condUnlock m => some (mutexUnlock (s.setTask t { x with pc := .condSchedule m }) t m)
  | .condSchedule m => some (s.setTask t { x.switchOut with pc := .condLock m })
  | .condLock m => some (mutexLock s t m)

/-- A call by a task that is in none. -/
def call (s : Sys) (t : Nat) (next : Sys) : Option Sys :=
  if (s.tasks t).onCpu ∧ (s.tasks t).pc = .run then some next else none

def exec (s : Sys) : Op → Option Sys
  | .semWait t i => call s t (semWait s t i)
  | .semPost i => some (semPost s i)
  | .mutexLock t m => call s t (mutexLock s t m)
  | .mutexUnlock t m => call s t (mutexUnlock s t m)
  | .condWait t c m => call s t (block s (.cond c) t (.condUnlock m))
  | .condSignal c => some (wakeFirst s (.cond c)).2
  | .condBroadcast c => some (condBroadcast s c)
  | .sleep t clock => call s t (s.setTask t { s.tasks t with sleeping := true, pc := .flagged clock })
  | .next t => if (s.tasks t).onCpu then nextStep s t (s.tasks t) else none
  | .expire t clock => if s.armed clock t then some (clock.wake (s.setArmed clock t false) t) else none
  | .wakeup t => some (taskWakeup s t)
  | .tick t => if (s.tasks t).onCpu then some (s.setTask t (s.tasks t).switchOut) else none
  | .dispatch t =>
    if (s.tasks t).status = .ready ∧ (s.tasks t).onCpu = false then
      -- a task that was left by the call of the scheduler at the end of a sleep returns from it
      some (s.setTask t { s.tasks t with
        status := .running, onCpu := true, framed := (s.tasks t).framed && (s.tasks t).pc ≠ .run })
    else none

def step (s : Sys) (op : Op) (s' : Sys) : Prop := exec s op = some s'

def start (counts : Nat → Int) : Sys where
  tasks := fun _ => ⟨.ready, false, false, .run, false⟩
  queues := fun _ => []
  armed := fun _ _ => false
  counts := counts
  mutexes := fun _ => ⟨false, none, 0⟩

/-- A task is linked where a waker finds it: in a queue, in the wheel, or in a timer of a call that
has not returned. -/
def Linked (s : Sys) (t : Nat) : Prop :=
  (∃ q, t ∈ s.queues q) ∨ ∃ clock, s.armed clock t = true ∧ (clock = .hrtimer → (s.tasks t).framed = true)

/-- No task that is blocked and on no processor is out of reach of its wakers. -/
def NoLostSleeper (s : Sys) : Prop := ∀ t, (s.tasks t).status = .blocked → (s.tasks t).onCpu = false → Linked s t

/-! ### What a waker does -/

section wakers

variable {s s' s'' : Sys} {t i : Nat}

/-- A task as its waker leaves it. -/
def Task.roused (x : Task) : Task :=
  { x with sleeping := false, status := if x.status = .blocked then .ready else x.status }

/-- A waker rouses a task or leaves it alone, and then does not unlink it as long as it is
blocked. -/
def Rouses (s s' : Sys) : Prop :=
  ∀ i, s'.tasks i = (s.tasks i).roused ∨
    s'.tasks i = s.tasks i ∧ ((s.tasks i).status = .blocked → Linked s i → Linked s' i)

theorem Task.roused_roused (x : Task) : x.roused.roused = x.roused := by
  unfold Task.roused
  by_cases blocked : x.status = .blocked <;> simp [blocked]

theorem Task.roused_status (x : Task) : x.roused.status ≠ .blocked := by
  unfold Task.roused
  by_cases blocked : x.status = .blocked <;> simp [blocked]

theorem Rouses.refl (s : Sys) : Rouses s s := fun _ => .inr ⟨rfl, fun _ linked => linked⟩

theorem Rouses.trans (first : Rouses s s') (second : Rouses s' s'') : Rouses s s'' := by
  intro i
  rcases first i with roused | ⟨same, links⟩ <;> rcases second i with roused' | ⟨same', links'⟩
  · exact .inl (by rw [roused', roused, Task.roused_roused])
  · exact .inl (by rw [same', roused])
  · exact .inl (by rw [roused', same])
  · refine .inr ⟨by rw [same', same], fun blocked linked => ?_⟩
    exact links' (by rw [same]; exact blocked) (links blocked linked)

/-- The counts and the mutexes are no concern of a sleeper. -/
theorem Rouses.of_same (tasks : s'.tasks = s.tasks) (queues : s'.queues = s.queues) (armed : s'.armed = s.armed) :
    Rouses s s' := by
  intro i
  refine .inr ⟨by rw [tasks], fun _ linked => ?_⟩
  unfold Linked
  rw [tasks, queues, armed]
  exact linked

theorem rouses_setMutex (s : Sys) (m : Nat) (x : Mutex) : Rouses s (s.setMutex m x) := Rouses.of_same rfl rfl rfl

/-- Whoever touches one task and what it is linked in, and rouses it, is a waker. -/
theorem Rouses.of_one (roused : s'.tasks t = (s.tasks t).roused) (others : ∀ i ≠ t, s'.tasks i = s.tasks i)
    (links : ∀ i ≠ t, Linked s i → Linked s' i) : Rouses s s' := by
  intro i
  obtain rfl | own := eq_or_ne i t
  · exact .inl roused
  · exact .inr ⟨others i own, fun _ => links i own⟩

theorem linked_setArmed_other {clock : Clock} {x : Bool} (other : i ≠ t) (linked : Linked s i) :
    Linked (s.setArmed clock t x) i := by
  rcases linked with queued | ⟨at_, armed, framed⟩
  · exact .inl queued
  · refine .inr ⟨at_, ?_, framed⟩
    unfold Sys.setArmed
    obtain rfl | same := eq_or_ne at_ clock
    · simpa [update_of_ne other] using armed
    · simpa [update_of_ne same] using armed

theorem linked_setQueue {q : Queue} {l : List Nat} (stays : i ∈ s.queues q → i ∈ l) (linked : Linked s i) :
    Linked (s.setQueue q l) i := by
  rcases linked with ⟨at_, queued⟩ | armed
  · refine .inl ⟨at_, ?_⟩
    unfold Sys.setQueue
    obtain rfl | same := eq_or_ne at_ q
    · simpa using stays queued
    · simpa [update_of_ne same] using queued
  · exact .inr armed

theorem linked_setTask_other {x : Task} (other : i ≠ t) (linked : Linked s i) : Linked (s.setTask t x) i := by
  unfold Linked Sys.setTask
  simp only [update_of_ne other]
  exact linked

theorem taskWakeup_tasks (s : Sys) (t : Nat) : (taskWakeup s t).tasks = update s.tasks t (s.tasks t).roused := by
  cases x : s.tasks t with
  | mk status sleeping onCpu pc framed =>
    cases sleeping <;> by_cases blocked : status = .blocked <;>
      simp [taskWakeup, Task.roused, Sys.setTask, Sys.setArmed, x, blocked]

theorem taskWakeup_links (s : Sys) (other : i ≠ t) (linked : Linked s i) : Linked (taskWakeup s t) i := by
  have disarmed : Linked ((s.setTask t { s.tasks t with sleeping := false }).setArmed .wheel t false) i :=
    linked_setArmed_other other (linked_setTask_other other linked)
  unfold taskWakeup
  by_cases sleeping : (s.tasks t).sleeping = true
  · simp only [sleeping, if_true]
    split
    · exact linked_setTask_other other disarmed
    · exact disarmed
  · simp only [sleeping, Bool.false_eq_true, if_false]
    split
    · exact linked_setTask_other other linked
    · exact linked

/-- `jlos_task_wakeup`, by somebody who has unlinked the task. -/
theorem rouses_taskWakeup {s₀ : Sys} (tasks : s.tasks = s₀.tasks) (links : ∀ i ≠ t, Linked s₀ i → Linked s i) :
    Rouses s₀ (taskWakeup s t) := by
  refine Rouses.of_one (t := t) ?_ (fun i other => ?_) fun i other linked => ?_
  · rw [taskWakeup_tasks, update_self, tasks]
  · rw [taskWakeup_tasks, update_of_ne other, tasks]
  · exact taskWakeup_links s other (links i other linked)

theorem rouses_wakeFirst (s : Sys) (q : Queue) : Rouses s (wakeFirst s q).2 := by
  unfold wakeFirst
  cases queue : s.queues q with
  | nil => exact Rouses.refl s
  | cons t rest =>
    have links : ∀ i ≠ t, Linked s i → Linked (s.setQueue q rest) i := by
      intro i other
      refine linked_setQueue fun queued => ?_
      rw [queue] at queued
      exact (List.mem_cons.mp queued).resolve_left other
    simp only
    split
    next blocked => exact rouses_taskWakeup rfl links
    next idle =>
      -- The task that is dequeued is not blocked, so it needs no link.
      intro i
      refine .inr ⟨rfl, fun blocked linked => links i ?_ linked⟩
      rintro rfl
      exact idle blocked

theorem rouses_semPost (s : Sys) (i : Nat) : Rouses s (semPost s i) := by
  have counted : Rouses s { s with counts := update s.counts i (s.counts i + 1) } := Rouses.of_same rfl rfl rfl
  unfold semPost
  simp only
  split
  · exact counted
  · exact counted.trans (rouses_wakeFirst _ _)

theorem rouses_mutexUnlock (s : Sys) (t m : Nat) : Rouses s (mutexUnlock s t m) := by
  unfold mutexUnlock
  simp only
  split
  · exact Rouses.refl s
  split
  · exact rouses_setMutex s m _
  have woken := (rouses_setMutex s m ⟨false, none, (s.mutexes m).recursion - 1⟩).trans (rouses_wakeFirst _ (.mutex m))
  split
  next eq =>
    rw [eq] at woken
    exact woken
  next eq =>
    rw [eq] at woken
    exact woken.trans (rouses_setMutex _ m _)

theorem rouses_condBroadcast (s : Sys) (c : Nat) : Rouses s (condBroadcast s c) := by
  unfold condBroadcast
  generalize s.queues (.cond c) = l
  induction l generalizing s with
  | nil => exact Rouses.refl s
  | cons _ rest ih => exact (rouses_wakeFirst s _).trans (ih _)

theorem rouses_wake (s : Sys) (t : Nat) (clock : Clock) : Rouses s (clock.wake (s.setArmed clock t false) t) := by
  have links : ∀ i ≠ t, Linked s i → Linked (s.setArmed clock t false) i := fun i other => linked_setArmed_other other
  cases clock with
  | hrtimer => exact rouses_taskWakeup rfl links
  | wheel =>
    refine Rouses.of_one (t := t) ?_ (fun i other => ?_) fun i other linked =>
      linked_setTask_other other (links i other linked)
    · by_cases blocked : (s.tasks t).status = .blocked <;>
        simp [Clock.wake, sleepExpire, Sys.setTask, Sys.setArmed, Task.roused, blocked]
    · simp [Clock.wake, sleepExpire, Sys.setTask, Sys.setArmed, update_of_ne other]

end wakers

/-! ### The invariant -/

/-- In a call, before the status is set. -/
def Pc.Awake : Pc → Prop
  | .run | .flagged _ | .condLock _ => True
  | _ => False

/-- What holds of a task, whether it is linked or not. -/
structure Task.Ok (linked : Prop) (x : Task) : Prop where
  sleeping : x.sleeping = true → x.status = .blocked ∨ x.status = .running ∧ ∃ clock, x.pc = .flagged clock
  blocked : x.status = .blocked → linked ∨ x.onCpu = true ∧ ∃ clock, x.pc = .blocked clock
  awake : x.onCpu = true → x.pc.Awake → x.status = .running

def Inv (s : Sys) : Prop := ∀ t, (s.tasks t).Ok (Linked s t)

/-- What a step has to meet. A tick must not find a task in a sleep that is marked and not yet
linked, a task enters a wait queue only when it is in none, and it returns from a sleep only when
its timer is no longer armed. -/
def Meets (s : Sys) : Op → Prop
  | .tick t =>
    ((s.tasks t).status = .running → (s.tasks t).sleeping = false) ∧ ((s.tasks t).status = .blocked → Linked s t)
  | .semWait t _ | .mutexLock t _ | .condWait t _ _ => ∀ q, t ∉ s.queues q
  | .next t => ∀ m, (s.tasks t).pc = .condLock m → ∀ q, t ∉ s.queues q
  | .dispatch t => (s.tasks t).pc = .run → s.armed .hrtimer t = false
  | _ => True

variable {x : Task} {p : Prop}

section steps

variable {s s' : Sys} {t : Nat}

theorem Task.Ok.mono {q : Prop} (ok : x.Ok p) (imp : p → q) : x.Ok q :=
  ⟨ok.sleeping, fun blocked => (ok.blocked blocked).imp_left imp, ok.awake⟩

theorem Task.Ok.roused {q : Prop} (ok : x.Ok p) : x.roused.Ok q where
  sleeping := fun sleeping => absurd sleeping (by simp [Task.roused])
  blocked := fun blocked => absurd blocked x.roused_status
  awake := fun onCpu awake => by simp [Task.roused, ok.awake onCpu awake]

theorem Inv.rouses (inv : Inv s) (woken : Rouses s s') : Inv s' := by
  intro i
  rcases woken i with roused | ⟨same, links⟩
  · rw [roused]
    exact (inv i).roused
  · rw [same]
    refine ⟨(inv i).sleeping, fun blocked => ?_, (inv i).awake⟩
    exact ((inv i).blocked blocked).imp_left (links blocked)

/-- A step of one task that leaves the others as they are, and linked where they were. -/
theorem Inv.own (inv : Inv s) (tasks : s'.tasks = update s.tasks t x)
    (links : ∀ i ≠ t, Linked s i → Linked s' i) (ok : x.Ok (Linked s' t)) : Inv s' := by
  intro i
  rw [tasks]
  obtain rfl | own := eq_or_ne i t
  · rw [update_self]
    exact ok
  · rw [update_of_ne own]
    exact (inv i).mono (links i own)

theorem Inv.setTask (inv : Inv s) (ok : x.Ok (Linked s t)) (same : x.framed = (s.tasks t).framed) :
    Inv (s.setTask t x) := by
  refine inv.own rfl (fun i other => linked_setTask_other other) (ok.mono fun linked => ?_)
  simpa [Linked, Sys.setTask, same] using linked

theorem Inv.block (inv : Inv s) {q : Queue} {pc : Pc} (asleep : ¬pc.Awake) : Inv (block s q t pc) := by
  refine inv.own rfl (fun i other linked => ?_) ⟨fun _ => .inl rfl, fun _ => .inl (.inl ⟨q, ?_⟩), fun _ awake => ?_⟩
  · exact linked_setTask_other other (linked_setQueue (fun queued => List.mem_append_left _ queued) linked)
  · simp [Sleep.block, Sys.setTask, Sys.setQueue]
  · exact absurd awake asleep

/-- Neither between the mark of a sleep and its status, nor between the status and the link. -/
def Pc.Outside (pc : Pc) : Prop := (∀ clock, pc ≠ .flagged clock) ∧ ∀ clock, pc ≠ .blocked clock

theorem Task.Ok.setPc (ok : x.Ok p) (outside : x.pc.Outside) {pc : Pc}
    (awake : x.onCpu = true → pc.Awake → x.status = .running) : { x with pc }.Ok p where
  sleeping := fun sleeping => (ok.sleeping sleeping).imp_right fun ⟨_, clock, at_⟩ => absurd at_ (outside.1 clock)
  blocked := fun blocked => (ok.blocked blocked).imp_right fun ⟨_, clock, at_⟩ => absurd at_ (outside.2 clock)
  awake := awake

/-- Outside the windows of the sleeps the scheduler takes away a task that is linked or not
blocked. -/
theorem Task.Ok.switchOut (ok : x.Ok p) (linked : x.status = .blocked → p)
    (marked : x.status = .running → x.sleeping = false) (pc : Pc) : { x.switchOut with pc }.Ok p where
  sleeping := by
    intro sleeping
    have was : x.sleeping = true := sleeping
    rcases ok.sleeping was with blocked | ⟨running, -⟩
    · left
      simp [Task.switchOut, blocked]
    · rw [marked running] at was
      cases was
  blocked := by
    intro blocked
    by_cases running : x.status = .running
    · simp [Task.switchOut, running, marked running] at blocked
    · simp only [Task.switchOut, running, if_false] at blocked
      exact .inl (linked blocked)
  awake := fun onCpu => absurd onCpu (by simp [Task.switchOut])

/-- The same at the scheduler's calls at the end of a wait or a sleep. -/
theorem Task.Ok.schedule (ok : x.Ok p) (outside : x.pc.Outside) (pc : Pc) : { x.switchOut with pc }.Ok p := by
  refine ok.switchOut (fun is => ?_) (fun running => ?_) pc
  · exact (ok.blocked is).resolve_right fun ⟨_, clock, at_⟩ => outside.2 clock at_
  · by_contra sleeping
    rcases ok.sleeping (by simpa using sleeping) with is | ⟨-, clock, at_⟩
    · rw [running] at is
      cases is
    · exact outside.1 clock at_

theorem Inv.mutexLock (inv : Inv s) {m : Nat} (onCpu : (s.tasks t).onCpu = true) (awake : (s.tasks t).pc.Awake)
    (outside : (s.tasks t).pc.Outside) : Inv (mutexLock s t m) := by
  have returned : Inv (s.setTask t { s.tasks t with pc := .run }) :=
    inv.setTask ((inv t).setPc outside fun _ _ => (inv t).awake onCpu awake) rfl
  unfold Sleep.mutexLock
  simp only
  split
  · exact returned.rouses (rouses_setMutex _ m _)
  split
  · exact returned.rouses (rouses_setMutex _ m _)
  · exact returned.block (by simp [Pc.Awake])

theorem Inv.semWait (inv : Inv s) {i : Nat} : Inv (semWait s t i) := by
  have counted : Inv { s with counts := update s.counts i (s.counts i - 1) } :=
    inv.rouses (Rouses.of_same rfl rfl rfl)
  unfold Sleep.semWait
  simp only
  split
  · exact counted
  · exact counted.block (by simp [Pc.Awake])

/-- Between `sleeping = true` and its call of the scheduler a sleep is kept together by the
processor. -/
theorem Inv.sleep (inv : Inv s) {clock : Clock} (onCpu : (s.tasks t).onCpu = true) (pc : (s.tasks t).pc = .run) :
    Inv (s.setTask t { s.tasks t with sleeping := true, pc := .flagged clock }) := by
  have running : (s.tasks t).status = .running := (inv t).awake onCpu (by rw [pc]; trivial)
  refine inv.setTask ⟨fun _ => .inr ⟨running, clock, rfl⟩, fun blocked => ?_, fun _ _ => running⟩ rfl
  rw [running] at blocked
  cases blocked

theorem Inv.nextStep (inv : Inv s) (onCpu : (s.tasks t).onCpu = true)
    (taken : nextStep s t (s.tasks t) = some s') : Inv s' := by
  have ok := inv t
  unfold Sleep.nextStep at taken
  split at taken <;> rename_i pc
  · cases taken
  · cases taken
    rename_i clock
    exact inv.setTask ⟨fun _ => .inl rfl, fun _ => .inr ⟨onCpu, clock, rfl⟩, fun _ awake => False.elim awake⟩ rfl
  · cases taken
    rename_i clock
    -- The section that links the task.
    refine inv.own rfl (fun i other linked => linked_setTask_other other (linked_setArmed_other other linked))
      ⟨fun sleeping => ?_, fun _ => ?_, ?_⟩
    · refine (ok.sleeping sleeping).imp_right fun ⟨_, clock, at_⟩ => ?_
      rw [pc] at at_
      cases at_
    · exact .inl (.inr ⟨clock, by simp [Sys.setTask, Sys.setArmed], fun timer => by simp [Sys.setTask, timer]⟩)
    · exact fun _ awake => False.elim awake
  · cases taken
    exact inv.setTask (ok.schedule (by simp [Pc.Outside, pc]) _) rfl
  · cases taken
    rename_i m
    have moved : Inv (s.setTask t { s.tasks t with pc := .condSchedule m }) :=
      inv.setTask (ok.setPc (by simp [Pc.Outside, pc]) fun _ awake => False.elim awake) rfl
    exact moved.rouses (rouses_mutexUnlock _ t m)
  · cases taken
    exact inv.setTask (ok.schedule (by simp [Pc.Outside, pc]) _) rfl
  · cases taken
    exact inv.mutexLock onCpu (by rw [pc]; trivial) (by simp [Pc.Outside, pc])

theorem Inv.dispatch (inv : Inv s) (ready : (s.tasks t).status = .ready) {framed : Bool} :
    Inv (s.setTask t { s.tasks t with status := .running, onCpu := true, framed := framed }) := by
  refine inv.own rfl (fun i other => linked_setTask_other other)
    ⟨fun sleeping => ?_, fun blocked => (by cases blocked), fun _ _ => rfl⟩
  rcases (inv t).sleeping sleeping with is | ⟨is, -⟩
  · rw [ready] at is
    cases is
  · rw [ready] at is
    cases is

theorem call_eq_some {next : Sys} (taken : call s t next = some s') :
    (s.tasks t).onCpu = true ∧ (s.tasks t).pc = .run ∧ s' = next := by
  obtain ⟨⟨onCpu, pc⟩, ⟨⟩⟩ := ite_none_right_eq_some.mp taken
  exact ⟨onCpu, pc, rfl⟩

theorem Inv.step {op : Op} (inv : Inv s) (meets : Meets s op) (taken : step s op s') : Inv s' := by
  unfold Sleep.step at taken
  cases op with
  | semWait t i =>
    obtain ⟨-, -, rfl⟩ := call_eq_some taken
    exact inv.semWait
  | semPost i =>
    cases taken
    exact inv.rouses (rouses_semPost s i)
  | mutexLock t m =>
    obtain ⟨onCpu, pc, rfl⟩ := call_eq_some taken
    exact inv.mutexLock onCpu (by rw [pc]; trivial) (by simp [Pc.Outside, pc])
  | mutexUnlock t m =>
    obtain ⟨-, -, rfl⟩ := call_eq_some taken
    exact inv.rouses (rouses_mutexUnlock s t m)
  | condWait t c m =>
    obtain ⟨-, -, rfl⟩ := call_eq_some taken
    exact inv.block (by simp [Pc.Awake])
  | condSignal c =>
    cases taken
    exact inv.rouses (rouses_wakeFirst s _)
  | condBroadcast c =>
    cases taken
    exact inv.rouses (rouses_condBroadcast s c)
  | sleep t clock =>
    obtain ⟨onCpu, pc, rfl⟩ := call_eq_some taken
    exact inv.sleep onCpu pc
  | next t =>
    obtain ⟨onCpu, taken⟩ := ite_none_right_eq_some.mp taken
    exact inv.nextStep onCpu taken
  | expire t clock =>
    obtain ⟨-, ⟨⟩⟩ := ite_none_right_eq_some.mp taken
    exact inv.rouses (rouses_wake s t clock)
  | wakeup t =>
    cases taken
    exact inv.rouses (rouses_taskWakeup rfl fun _ _ linked => linked)
  | tick t =>
    obtain ⟨-, ⟨⟩⟩ := ite_none_right_eq_some.mp taken
    -- A tick is where the condition is needed.
    exact inv.setTask ((inv t).switchOut meets.2 meets.1 _) rfl
  | dispatch t =>
    obtain ⟨can, ⟨⟩⟩ := ite_none_right_eq_some.mp taken
    exact inv.dispatch can.1

end steps

theorem inv_start (counts : Nat → Int) : Inv (start counts) := fun _ =>
  ⟨fun sleeping => (by cases sleeping), fun blocked => (by cases blocked), fun onCpu => (by cases onCpu)⟩

/-- In every run in which no tick takes a task away between the mark of its sleep and its link, and
no task enters a wait queue twice, every task that is blocked and on no processor is linked where a
waker finds it. -/
theorem no_lost_sleeper {counts : Nat → Int} {es : List (Sys × Op)} {s : Sys} (run : Run step (start counts) es s)
    (meets : ∀ e ∈ es, Meets e.1 e.2) : NoLostSleeper s ∧ ∀ e ∈ es, NoLostSleeper e.1 := by
  have safe : ∀ {s : Sys}, Inv s → NoLostSleeper s := by
    intro s inv t blocked off
    refine ((inv t).blocked blocked).resolve_right fun ⟨onCpu, _⟩ => ?_
    rw [off] at onCpu
    cases onCpu
  obtain ⟨last, all⟩ := Run.invariant_of_guard (inv_start counts) (fun _ _ _ => Inv.step) run meets
  exact ⟨safe last, fun e mem => safe (all e mem)⟩

/-- A task that sleeps on the wheel, and a tick before its sleep calls the scheduler. -/
def sleepThenTick : List Op := [.dispatch 1, .sleep 1 .wheel, .next 1, .next 1, .tick 1]

/-- The steps of such a run, each of which meets its condition. -/
def sleepsOnWheel (s : Sys) : Op → Bool
  | .dispatch t => !s.armed .hrtimer t
  | .sleep _ _ => true
  | .next t => (s.tasks t).pc = .flagged .wheel || (s.tasks t).pc = .blocked .wheel
  | .tick t => (s.tasks t).status = .blocked && s.armed .wheel t
  | _ => false

theorem meets_of_sleepsOnWheel {s : Sys} {op : Op} (sleeps : sleepsOnWheel s op = true) : Meets s op := by
  cases op with
  | next t =>
    intro m pc
    simp [sleepsOnWheel, pc] at sleeps
  | tick t =>
    simp only [sleepsOnWheel, Bool.and_eq_true, decide_eq_true_eq] at sleeps
    refine ⟨fun running => ?_, fun _ => .inr ⟨.wheel, sleeps.2, nofun⟩⟩
    rw [sleeps.1] at running
    cases running
  | dispatch t => exact fun _ => by simpa [sleepsOnWheel] using sleeps
  | sleep _ _ => trivial
  | _ => cases sleeps

/-- A task that is linked when the tick comes is not lost. -/
theorem sleeper_keeps_link :
    ∃ es s, Run step (start fun _ => 0) es s ∧ es.map Prod.snd = sleepThenTick ∧ (s.tasks 1).status = .blocked ∧
      (s.tasks 1).onCpu = false ∧ NoLostSleeper s := by
  have ends : sleepThenTick.foldlM (guarded exec fun s op => sleepsOnWheel s op = true)
    (start fun _ => 0) = some _ := rfl
  obtain ⟨es, run, labels, sleeps⟩ := exists_run_of_foldlM ends
  have meets : ∀ e ∈ es, Meets e.1 e.2 := fun e mem => meets_of_sleepsOnWheel (sleeps e mem)
  exact ⟨es, _, run, labels, rfl, rfl, (no_lost_sleeper run meets).1⟩

/-- A tick behind `JLOS_TASK_SET_BLOCKED` takes the task away before it is linked anywhere. -/
theorem sleeper_lost_by_tick : ∃ es s, Run step (start fun _ => 0) es s ∧
    es.map Prod.snd = [.dispatch 1, .sleep 1 .wheel, .next 1, .tick 1] ∧ ¬NoLostSleeper s := by
  have ends : [Op.dispatch 1, .sleep 1 .wheel, .next 1, .tick 1].foldlM (guarded exec fun _ _ => True)
      (start fun _ => 0) = some _ := rfl
  obtain ⟨es, run, labels, -⟩ := exists_run_of_foldlM ends
  refine ⟨es, _, run, labels, fun found => ?_⟩
  rcases found 1 rfl rfl with ⟨q, queued⟩ | ⟨clock, armed, -⟩
  · cases queued
  · cases armed

/-! ### The timer of a sleep -/

/-- The calls of `jlos_task_sleep_hrtimer`, their timers, those who wake a task by its name, and the
scheduler. -/
def execTimer (s : Sys) (op : Op) : Option Sys :=
  match op with
  | .sleep _ .hrtimer | .next _ | .expire _ .hrtimer | .wakeup _ | .tick _ | .dispatch _ => exec s op
  | _ => none

/-- A task that is back from its sleep has no timer in the base. -/
def TimerGone (s : Sys) : Prop := ∀ t, (s.tasks t).onCpu = true → (s.tasks t).pc = .run → s.armed .hrtimer t = false

/-- Nobody wakes a task by its name from the mark of its sleep on until its timer has expired. -/
def undisturbed (s : Sys) : Op → Bool
  | .wakeup t => !s.armed .hrtimer t && (s.tasks t).pc ≠ .blocked .hrtimer
  | _ => true

/-- What holds of a task with or without an armed timer. -/
def Task.TimerOk (armed : Bool) (x : Task) : Prop :=
  match x.pc with
  | .run => armed = true → x.status = .blocked ∧ x.onCpu = false
  | .flagged .hrtimer => armed = false
  | .blocked .hrtimer => armed = false ∧ x.status = .blocked
  | .schedule => armed = true → x.status = .blocked
  | _ => False

def TimerInv (s : Sys) : Prop := ∀ t, (s.tasks t).TimerOk (s.armed .hrtimer t)

theorem TimerInv.own {s s' : Sys} {t : Nat} {x : Task} {armed : Bool} (inv : TimerInv s)
    (tasks : s'.tasks = update s.tasks t x) (timers : s'.armed .hrtimer = update (s.armed .hrtimer) t armed)
    (ok : x.TimerOk armed) : TimerInv s' := by
  intro i
  rw [tasks, timers]
  obtain rfl | other := eq_or_ne i t
  · simpa using ok
  · simpa [update_of_ne other] using inv i

theorem taskWakeup_timers (s : Sys) (t : Nat) : (taskWakeup s t).armed .hrtimer = s.armed .hrtimer := by
  unfold taskWakeup
  dsimp only
  split <;> split <;> simp [Sys.setTask, Sys.setArmed]

theorem TimerInv.step {s s' : Sys} {op : Op} (inv : TimerInv s) (calm : undisturbed s op = true)
    (taken : execTimer s op = some s') : TimerInv s' := by
  have same (t : Nat) : s.armed .hrtimer = update (s.armed .hrtimer) t (s.armed .hrtimer t) := (update_eq_self ..).symm
  have set (t : Nat) (b : Bool) : (s.setArmed .hrtimer t b).armed .hrtimer = update (s.armed .hrtimer) t b := by
    simp [Sys.setArmed]
  unfold execTimer at taken
  split at taken <;> rename_i t
  case h_1 =>
    obtain ⟨on, pc, rfl⟩ := call_eq_some taken
    have ok := inv t
    exact inv.own rfl (same t) (by simpa [Task.TimerOk, pc, on] using ok)
  case h_4 =>
    cases taken
    refine inv.own (taskWakeup_tasks ..) ((taskWakeup_timers ..).trans (same t)) ?_
    have ok := inv t
    simp only [Task.TimerOk, Task.roused] at ok ⊢
    split at ok <;> simp_all [undisturbed]
  case h_7 => cases taken
  all_goals
    obtain ⟨can, taken⟩ := ite_none_right_eq_some.mp taken
    have ok := inv t
  case h_2 =>
    -- The sleep goes on: it sets its status, arms the timer, and gives the processor up.
    unfold nextStep at taken
    unfold Task.TimerOk at ok
    split at taken <;> rename_i pc <;> rw [pc] at ok <;> cases taken
    · rename_i clock
      cases clock with
      | wheel => cases ok
      | hrtimer => exact inv.own rfl (same t) ⟨ok, rfl⟩
    · rename_i clock
      cases clock with
      | wheel => cases ok
      | hrtimer => exact inv.own rfl (set t true) fun _ => ok.2
    · exact inv.own rfl (same t) fun armed => ⟨by simp [Task.switchOut, ok armed], rfl⟩
    all_goals cases ok
  case h_3 =>
    cases taken
    refine inv.own (taskWakeup_tasks ..) ((taskWakeup_timers ..).trans (set t false)) ?_
    simp only [Task.TimerOk, Task.roused, Sys.setArmed] at ok ⊢
    split at ok <;> simp_all
  case h_5 =>
    cases taken
    refine inv.own rfl (same t) ?_
    simp only [Task.TimerOk, Task.switchOut] at ok ⊢
    split at ok <;> simp_all
  case h_6 =>
    cases taken
    refine inv.own rfl (same t) ?_
    simp only [Task.TimerOk] at ok ⊢
    split at ok <;> simp_all

/-- In every run in which nobody wakes a task by its name while its sleep on a timer is under way,
no task comes back from such a sleep with its timer still in the base. -/
theorem timer_gone {counts : Nat → Int} {es : List (Sys × Op)} {s : Sys}
    (run : Run (fun s op s' => execTimer s op = some s') (start counts) es s)
    (calm : ∀ e ∈ es, undisturbed e.1 e.2 = true) : TimerGone s ∧ ∀ e ∈ es, TimerGone e.1 := by
  have safe : ∀ {s : Sys}, TimerInv s → TimerGone s := by
    intro s inv t on pc
    have ok := inv t
    simpa [Task.TimerOk, pc, on] using ok
  have first : TimerInv (start counts) := fun _ => nofun
  obtain ⟨last, all⟩ := Run.invariant_of_guard first (fun _ _ _ => TimerInv.step) run calm
  exact ⟨safe last, fun e mem => safe (all e mem)⟩

/-- A task sleeps until its timer expires. -/
def sleepThenExpire : List Op :=
  [.dispatch 1, .sleep 1 .hrtimer, .next 1, .next 1, .next 1, .expire 1 .hrtimer, .dispatch 1]

theorem timer_gone_expired : ∃ es s, Run (fun s op s' => execTimer s op = some s') (start fun _ => 0) es s ∧
    es.map Prod.snd = sleepThenExpire ∧ (s.tasks 1).onCpu = true ∧ (s.tasks 1).pc = .run ∧ TimerGone s := by
  have ends : sleepThenExpire.foldlM (guarded execTimer fun s op => undisturbed s op = true)
    (start fun _ => 0) = some _ :=
    rfl
  obtain ⟨es, run, labels, calm⟩ := exists_run_of_foldlM ends
  exact ⟨es, _, run, labels, rfl, rfl, (timer_gone run calm).1⟩

/-- `jlos_signal_send` wakes the task, which returns and leaves its timer in the base. -/
theorem timer_left_by_kill : ∃ es s, Run (fun s op s' => execTimer s op = some s') (start fun _ => 0) es s ∧
    es.map Prod.snd = [.dispatch 1, .sleep 1 .hrtimer, .next 1, .next 1, .next 1, .wakeup 1, .dispatch 1] ∧
    ¬TimerGone s := by
  have ends : [Op.dispatch 1, .sleep 1 .hrtimer, .next 1, .next 1, .next 1, .wakeup 1, .dispatch 1].foldlM
      (guarded execTimer fun _ _ => True) (start fun _ => 0) = some _ := rfl
  obtain ⟨es, run, labels, -⟩ := exists_run_of_foldlM ends
  exact ⟨es, _, run, labels, fun gone => nomatch gone 1 rfl rfl⟩

end Jlos.Tasks.Sleep
