import Jlos.Lib.Run
import Jlos.Lib.Semaphore

/-!
# Work queues

A shallow embedding of `jlos_queue_work_on`, `jlos_flush_workqueue` and `jlos_workqueue_worker` of
`kernel/workqueue.c` for any number of CPUs and of threads that call them. The sections under
`qc->lock`, the atomic operations on `work->pending` and the locked sections of the semaphores are
single steps; a work function starts in one step and finishes in another, and what it calls in
between are calls of other threads. Nobody destroys the queue, so `qc->stop` is never set.
-/
namespace Jlos.Workqueue

open Lib Function

variable {n m : Nat}

/-- A `jlos_work_t`: one of the callers' items, or the barrier on the stack of a thread that
flushes. -/
inductive Work (m : Nat)
  | item (id : Nat)
  | barrier (t : Fin m)
  deriving DecidableEq, Repr

/-- Where the worker of a CPU is. -/
inductive Worker (m : Nat)
  /-- Before `jlos_semaphore_wait(&qc->work_sem)`. -/
  | wait
  /-- In the queue of this semaphore. -/
  | queued
  /-- Before the section that looks at the list. -/
  | look
  /-- Behind this section, with an item it has unlinked. -/
  | unlinked (w : Work m)
  /-- Behind `jlos_atomic_set(&work->pending, 0)`. -/
  | cleared (w : Work m)
  /-- In `work->func(work)`. -/
  | running (w : Work m)
  deriving DecidableEq, Repr

/-- `jlos_workqueue_cpu_t` with its worker -/
structure Cpu (m : Nat) where
  list : List (Work m)
  workSem : Counting Unit
  worker : Worker m
  deriving DecidableEq, Repr

/-- Where a flush is with its barrier. -/
inductive Stage
  /-- In `jlos_queue_work_on`, behind the exchange. -/
  | marked
  /-- In `jlos_queue_work_on`, behind the section. -/
  | linked
  /-- Before `jlos_semaphore_wait(&barrier.done)`. -/
  | wait
  /-- In the queue of this semaphore. -/
  | queued
  deriving DecidableEq, Repr

/-- Where a thread is. -/
inductive Pc (n : Nat)
  | idle
  /-- In `jlos_queue_work_on`, behind the exchange. -/
  | marked (cpu : Fin n) (id : Nat)
  /-- In `jlos_queue_work_on`, behind the section. -/
  | linked (cpu : Fin n) (id : Nat)
  /-- At the condition of the loop of `jlos_flush_workqueue`. -/
  | flush (i : Nat)
  /-- In a turn of this loop. -/
  | barrier (i : Fin n) (stage : Stage)
  deriving DecidableEq, Repr

/-- `jlos_workqueue_t`, the `pending` flags of the items, the `done` semaphores of the barriers, and
the threads. -/
structure Sys (n m : Nat) where
  perCpu : Fin n → Cpu m
  pending : Work m → Bool
  done : Fin m → Counting Unit
  pc : Fin m → Pc n

inductive Op (n m : Nat)
  /-- `jlos_queue_work_on` up to the exchange. -/
  | queue (t : Fin m) (cpu : Fin n) (id : Nat)
  /-- `jlos_flush_workqueue` up to its loop. -/
  | flush (t : Fin m)
  /-- The next step of a thread in a call. -/
  | run (t : Fin m)
  /-- The next step of a worker. -/
  | work (cpu : Fin n)
  deriving DecidableEq, Repr

/-- A new queue and its workers, and items that are initialised. -/
def start (n m : Nat) : Sys n m :=
  { perCpu := fun _ => ⟨[], ⟨0, []⟩, .wait⟩
    pending := fun _ => false
    done := fun _ => ⟨0, []⟩
    pc := fun _ => .idle }

def Sys.setPc (s : Sys n m) (t : Fin m) (x : Pc n) : Sys n m := { s with pc := update s.pc t x }

def Sys.setCpu (s : Sys n m) (c : Fin n) (q : Cpu m) : Sys n m := { s with perCpu := update s.perCpu c q }

def Sys.setPending (s : Sys n m) (w : Work m) (x : Bool) : Sys n m :=
  { s with pending := update s.pending w x }

def Sys.setDone (s : Sys n m) (t : Fin m) (x : Counting Unit) : Sys n m := { s with done := update s.done t x }

/-- `jlos_list_add_tail(&work->entry, &qc->list)` -/
def Cpu.addTail (q : Cpu m) (w : Work m) : Cpu m := { q with list := q.list ++ [w] }

/-- A worker that its semaphore lets pass. -/
def Worker.wake : Worker m → Worker m
  | .queued => .look
  | x => x

/-- `jlos_semaphore_post(&qc->work_sem)` -/
def Cpu.post (q : Cpu m) : Cpu m :=
  let (woken, workSem) := q.workSem.post
  { q with workSem, worker := if woken.isSome then q.worker.wake else q.worker }

/-- A thread that the semaphore of its barrier lets pass. -/
def Pc.wake : Pc n → Pc n
  | .barrier i .queued => .flush (i.val + 1)
  | x => x

/-- `jlos_workqueue_barrier_func` -/
def postDone (s : Sys n m) (t : Fin m) : Sys n m :=
  let (woken, done) := (s.done t).post
  let s := s.setDone t done
  if woken.isSome then s.setPc t (s.pc t).wake else s

/-- `jlos_atomic_xchg(&work->pending, 1)` -/
def xchgPending (s : Sys n m) (w : Work m) : Bool × Sys n m := (s.pending w, s.setPending w true)

/-- `jlos_workqueue_init_work` and `jlos_semaphore_init` of a barrier -/
def initBarrier (s : Sys n m) (t : Fin m) : Sys n m := (s.setPending (.barrier t) false).setDone t ⟨0, []⟩

/-- The next step of a turn of `jlos_flush_workqueue`. -/
def barrierStep (s : Sys n m) (t : Fin m) (i : Fin n) : Stage → Option (Sys n m)
  | .marked => some ((s.setCpu i ((s.perCpu i).addTail (.barrier t))).setPc t (.barrier i .linked))
  | .linked => some ((s.setCpu i (s.perCpu i).post).setPc t (.barrier i .wait))
  | .wait =>
    let (granted, done) := (s.done t).wait ()
    some ((s.setDone t done).setPc t (if granted then .flush (i.val + 1) else .barrier i .queued))
  | .queued => none

/-- The next step of a thread in `jlos_queue_work_on` or `jlos_flush_workqueue`. -/
def runStep (s : Sys n m) (t : Fin m) : Pc n → Option (Sys n m)
  | .idle => none
  | .marked cpu id => some ((s.setCpu cpu ((s.perCpu cpu).addTail (.item id))).setPc t (.linked cpu id))
  | .linked cpu _ => some ((s.setCpu cpu (s.perCpu cpu).post).setPc t .idle)
  | .flush i =>
    if h : i < n then
      let (old, s) := xchgPending (initBarrier s t) (.barrier t)
      some (s.setPc t (if old then .flush (i + 1) else .barrier ⟨i, h⟩ .marked))
    else some (s.setPc t .idle)
  | .barrier i stage => barrierStep s t i stage

/-- The next step of `jlos_workqueue_worker`. -/
def workStep (s : Sys n m) (c : Fin n) (q : Cpu m) : Option (Sys n m) :=
  match q.worker with
  | .wait =>
    let (granted, workSem) := q.workSem.wait ()
    some (s.setCpu c { q with workSem, worker := if granted then .look else .queued })
  | .queued => none
  | .look =>
    match q.list with
    | [] => some (s.setCpu c { q with worker := .wait })
    | w :: ws => some (s.setCpu c { q with list := ws, worker := .unlinked w })
  | .unlinked w => some ((s.setPending w false).setCpu c { q with worker := .cleared w })
  | .cleared w => some (s.setCpu c { q with worker := .running w })
  | .running w =>
    let s := s.setCpu c { q with worker := .look }
    match w with
    | .item _ => some s
    | .barrier t => some (postDone s t)

def exec (s : Sys n m) : Op n m → Option (Sys n m)
  | .queue t cpu id =>
    match s.pc t with
    | .idle =>
      let (old, s) := xchgPending s (.item id)
      some (if old then s else s.setPc t (.marked cpu id))
    | _ => none
  | .flush t =>
    match s.pc t with
    | .idle => some (s.setPc t (.flush 0))
    | _ => none
  | .run t => runStep s t (s.pc t)
  | .work c => workStep s c (s.perCpu c)

def step (s : Sys n m) (op : Op n m) (s' : Sys n m) : Prop := exec s op = some s'

/-! ### What a step does for the callers -/

/-- An exchange that finds the item free. -/
def accepted : Sys n m × Op n m → Option (Work m)
  | (s, .queue _ _ id) => if s.pending (.item id) then none else some (.item id)
  | (s, .run t) =>
    match s.pc t with
    | .flush i => if i < n then some (.barrier t) else none
    | _ => none
  | _ => none

def refused : Sys n m × Op n m → Option (Work m)
  | (s, .queue _ _ id) => if s.pending (.item id) then some (.item id) else none
  | _ => none

/-- A thread links an item to the list of a CPU. -/
def linkedBy : Sys n m × Op n m → Option (Fin m × Fin n × Work m)
  | (s, .run t) =>
    match s.pc t with
    | .marked cpu id => some (t, cpu, .item id)
    | .barrier i .marked => some (t, i, .barrier t)
    | _ => none
  | _ => none

def returned : Sys n m × Op n m → Option (Fin m × Fin n × Work m)
  | (s, .run t) =>
    match s.pc t with
    | .linked cpu id => some (t, cpu, .item id)
    | .barrier i .linked => some (t, i, .barrier t)
    | _ => none
  | _ => none

def linked (e : Sys n m × Op n m) : Option (Fin n × Work m) := (linkedBy e).map Prod.snd

def started : Sys n m × Op n m → Option (Fin n × Work m)
  | (s, .work c) =>
    match (s.perCpu c).worker with
    | .cleared w => some (c, w)
    | _ => none
  | _ => none

def finished : Sys n m × Op n m → Option (Fin n × Work m)
  | (s, .work c) =>
    match (s.perCpu c).worker with
    | .running w => some (c, w)
    | _ => none
  | _ => none

/-- The item that a worker has unlinked and not started. -/
def Worker.held : Worker m → List (Work m)
  | .unlinked w | .cleared w => [w]
  | _ => []

def Worker.current : Worker m → List (Work m)
  | .running w => [w]
  | _ => []

/-- The item that a thread has linked in a call that has not returned. -/
def Pc.unreturned (t : Fin m) : Pc n → List (Fin n × Work m)
  | .linked cpu id => [(cpu, .item id)]
  | .barrier i .linked => [(i, .barrier t)]
  | _ => []

/-- A thread is about to return from `jlos_flush_workqueue`. -/
def Flushed (s : Sys n m) (t : Fin m) : Prop := ∃ i, s.pc t = .flush i ∧ n ≤ i

end Jlos.Workqueue
