import Jlos.Lib.Ring
import Jlos.Lib.Run

/-!
# Mutexes and the tasks that wait for them

A shallow embedding of `jlos_mutex_lock` and `jlos_mutex_unlock` of `kernel/sync.c` and of what can
wake a task that waits in them: `jlos_task_wakeup`, called by the handover, by `jlos_signal_send`
and by `jlos_kthread_stop` (`kernel/multitask.c`, `kernel/kthread.c`). The wait queues are circular
lists through the `wait_node` of each task. What a task does after it has been switched out is kept
beside the state of the kernel; a task that is ready is one the scheduler may switch to.
-/
namespace Jlos.Sync

open Lib Function

inductive Status
  | ready
  | running
  | blocked
  | waiting
  | zombie
  deriving DecidableEq, Repr

structure Task where
  status : Status
  sleeping : Bool
  /-- The bit of `JLOS_SIGKILL` in `signal_pending`. -/
  killPending : Bool
  /-- `should_stop` of the task's kthread, if it is one -/
  shouldStop : Option Bool
  deriving DecidableEq, Repr

structure Mutex where
  locked : Bool
  owner : Option Nat
  recursion : BitVec 32
  deriving DecidableEq, Repr

/-- The list nodes: the wait queue of a mutex, and the `wait_node` of a task. -/
inductive Node
  | queue (m : Nat)
  | task (t : Nat)
  deriving DecidableEq, Repr

structure State where
  tasks : Nat → Task
  mutexes : Nat → Mutex
  links : Links Node

def State.setTask (s : State) (t : Nat) (x : Task) : State := { s with tasks := update s.tasks t x }

def State.setStatus (s : State) (t : Nat) (x : Status) : State := s.setTask t { s.tasks t with status := x }

def State.setMutex (s : State) (m : Nat) (x : Mutex) : State := { s with mutexes := update s.mutexes m x }

def waitEnqueue (s : State) (m t : Nat) : State := { s with links := s.links.addTail (.task t) (.queue m) }

/-- `wait_dequeue`; the head of another list can follow only in a list that is broken already. -/
def waitDequeue (s : State) (m : Nat) : Option Nat × State :=
  match s.links.next (.queue m) with
  | .queue _ => (none, s)
  | .task t => (some t, { s with links := s.links.delInit (.task t) })

def taskWakeup (s : State) (t : Nat) : State :=
  let s := s.setTask t { s.tasks t with sleeping := false }
  if (s.tasks t).status = .blocked then s.setStatus t .ready else s

/-- `jlos_mutex_lock` up to its return or its call of `jlos_task_manager_schedule`, and whether it
returns. -/
def mutexLock (s : State) (m t : Nat) : Bool × State :=
  let x := s.mutexes m
  if x.owner = some t then (true, s.setMutex m { x with recursion := x.recursion + 1 })
  else if !x.locked then (true, s.setMutex m ⟨true, some t, 1⟩)
  else (false, (waitEnqueue s m t).setStatus t .blocked)

def mutexUnlock (s : State) (m t : Nat) : State :=
  let x := s.mutexes m
  if x.owner ≠ some t then s
  else
    let s := s.setMutex m { x with recursion := x.recursion - 1 }
    if 0 < x.recursion - 1 then s
    else
      let s := s.setMutex m ⟨false, none, x.recursion - 1⟩
      match waitDequeue s m with
      | (none, s) => s
      | (some wait, s) =>
        if (s.tasks wait).status = .blocked then taskWakeup (s.setMutex m ⟨true, some wait, 1⟩) wait
        else s

/-- `jlos_process_exit`, as far as others see it. -/
def processExit (s : State) (t : Nat) : State := s.setStatus t .zombie

/-- `jlos_signal_send` of `JLOS_SIGKILL` by the task `current`. -/
def signalSend (s : State) (current t : Nat) : State :=
  if (s.tasks t).status = .zombie then s
  else if t = current then processExit s t
  else taskWakeup (s.setTask t { s.tasks t with killPending := true }) t

/-- `jlos_kthread_stop`, up to its wait for the thread's end. -/
def kthreadStop (s : State) (t : Nat) : State :=
  match (s.tasks t).shouldStop with
  | none => s
  | some _ => taskWakeup (s.setTask t { s.tasks t with shouldStop := some true }) t

/-- `jlos_task_sleep_until`, up to its call of `jlos_task_manager_schedule`. -/
def sleepUntil (s : State) (t : Nat) : State :=
  s.setTask t { s.tasks t with sleeping := true, status := .blocked }

def sleepExpire (s : State) (t : Nat) : State :=
  let s := s.setTask t { s.tasks t with sleeping := false }
  if (s.tasks t).status = .blocked then s.setStatus t .ready else s

/-! ### Tasks on processors -/

/-- Where a task continues when it is switched to. -/
inductive Pc
  | outside
  /-- Behind the call of `jlos_task_manager_schedule` in `jlos_mutex_lock`. -/
  | inLock (m : Nat)
  /-- Behind the same call in `jlos_task_sleep_until`. -/
  | inSleep
  deriving DecidableEq, Repr

structure Sys where
  state : State
  pc : Nat → Pc

inductive Op
  | lock (t m : Nat)
  | unlock (t m : Nat)
  | kill (current t : Nat)
  | stop (current t : Nat)
  | sleep (t : Nat)
  | expire (t : Nat)
  | exit (t : Nat)
  /-- The tick switches from a running task. -/
  | preempt (t : Nat)
  /-- The scheduler switches to a ready task. -/
  | resume (t : Nat)
  deriving DecidableEq, Repr

namespace Sys

def start (kthread : Nat → Bool) : Sys :=
  { state :=
      { tasks := fun t => ⟨.ready, false, false, if kthread t then some false else none⟩
        mutexes := fun _ => ⟨false, none, 0⟩
        links := ⟨id, id⟩ }
    pc := fun _ => .outside }

def Running (sys : Sys) (t : Nat) : Prop := (sys.state.tasks t).status = .running
  deriving Decidable

/-- Only running tasks make calls; a sleep that expires is one that has begun. -/
def Enabled (sys : Sys) : Op → Prop
  | .lock t _ | .unlock t _ | .kill t _ | .stop t _ | .sleep t | .exit t | .preempt t => sys.Running t
  | .expire t => (sys.state.tasks t).sleeping = true
  | .resume t => (sys.state.tasks t).status = .ready

instance (sys : Sys) (op : Op) : Decidable (sys.Enabled op) := by
  cases op <;> unfold Sys.Enabled <;> infer_instance

def exec (sys : Sys) : Op → Sys
  | .lock t m =>
    let (returns, s) := mutexLock sys.state m t
    ⟨s, if returns then sys.pc else update sys.pc t (.inLock m)⟩
  | .unlock t m => { sys with state := mutexUnlock sys.state m t }
  | .kill current t => { sys with state := signalSend sys.state current t }
  | .stop _ t => { sys with state := kthreadStop sys.state t }
  | .sleep t => ⟨sleepUntil sys.state t, update sys.pc t .inSleep⟩
  | .expire t => { sys with state := sleepExpire sys.state t }
  | .exit t => { sys with state := processExit sys.state t }
  | .preempt t => { sys with state := sys.state.setStatus t .ready }
  | .resume t => ⟨sys.state.setStatus t .running, update sys.pc t .outside⟩

def step (sys : Sys) (op : Op) (sys' : Sys) : Prop := sys.Enabled op ∧ sys.exec op = sys'

/-- The task and the mutex of a `jlos_mutex_lock` that returns in a step. -/
def returns (sys : Sys) : Op → Option (Nat × Nat)
  | .lock t m => if (mutexLock sys.state m t).1 then some (t, m) else none
  | .resume t =>
    match sys.pc t with
    | .inLock m => some (t, m)
    | .outside | .inSleep => none
  | _ => none

def Linked (sys : Sys) (t : Nat) : Prop := sys.state.links.next (.task t) ≠ .task t
  deriving Decidable

end Sys

end Jlos.Sync
