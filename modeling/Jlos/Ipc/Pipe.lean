import Jlos.Lib.Circular
import Jlos.Lib.Run
import Jlos.Lib.Semaphore
import Jlos.Lib.Tally

/-!
# Pipes

A shallow embedding of `jlos_pipe_write`, `jlos_pipe_read` and `jlos_pipe_close` of `kernel/ipc.c`
for any number of threads. The sections under `pipe->mutex`, the locked sections of the semaphores
and the code between them are single steps; the semaphores are the counting semaphores that
`jlos_semaphore_wait` and `jlos_semaphore_post` implement. The pipe has its buffer: where
`jlos_kalloc` gave none, both calls return 0 at once.
-/
namespace Jlos.Ipc.Pipes

open Lib Function

abbrev Byte := BitVec 8

inductive Sem
  /-- `sem_write_slots` -/
  | slots
  /-- `sem_read_items` -/
  | items
  deriving DecidableEq, Repr

/-- `jlos_pipe_t` without its mutex and its reference count. -/
structure Pipe (n : Nat) where
  buffer : Nat → Byte
  bufSize : Nat
  readPos : Nat
  writePos : Nat
  count : Nat
  sem : Sem → Counting (Fin n)
  closed : Bool

/-- Where a thread is in the loop of its call. -/
inductive Stage
  /-- At the condition of the loop. -/
  | top
  /-- In the queue of the semaphore. -/
  | queued
  /-- Behind the semaphore. -/
  | passed
  /-- Before the section. -/
  | locked
  /-- Behind the section of `jlos_pipe_read`. -/
  | unlocked (moved : Nat)
  /-- In the loop of posts. -/
  | posts (left : Nat)
  /-- About to give the permit back and return. -/
  | back
  deriving DecidableEq, Repr

inductive Pc
  | idle
  | write (buf : Nat → Byte) (len written : Nat) (stage : Stage)
  | read (len read : Nat) (got : List Byte) (stage : Stage)
  /-- In `jlos_pipe_close`, before the post of `sem_read_items` or the one of `sem_write_slots`. -/
  | close (posted : Bool)

structure Sys (n : Nat) where
  pipe : Pipe n
  pc : Fin n → Pc

inductive Op (n : Nat)
  | write (t : Fin n) (buf : Nat → Byte) (len : Nat)
  | read (t : Fin n) (len : Nat)
  | close (t : Fin n)
  /-- The next step of a thread in a call. -/
  | run (t : Fin n)

/-- A difference of two `uint32_t`. -/
def sub32 (x y : Nat) : Nat := (x + 2 ^ 32 - y) % 2 ^ 32

variable {n : Nat}

def pipeInit (bufSize : Nat) : Pipe n :=
  let bufSize := if bufSize = 0 then 4096 else bufSize
  let bufSize := if 65536 < bufSize then 65536 else bufSize
  { buffer := fun _ => 0, bufSize, readPos := 0, writePos := 0, count := 0
    sem := fun
      | .slots => ⟨bufSize, []⟩
      | .items => ⟨0, []⟩
    closed := false }

def start (n bufSize : Nat) : Sys n := ⟨pipeInit bufSize, fun _ => .idle⟩

def canWrite (p : Pipe n) (len written : Nat) : Nat :=
  let slot := sub32 p.bufSize p.count
  let freeContig := sub32 p.bufSize p.writePos
  let can := len - written
  let can := if slot < can then slot else can
  if freeContig < can then freeContig else can

def canRead (p : Pipe n) (len read : Nat) : Nat :=
  let avail := p.count
  let availContig := sub32 p.bufSize p.readPos
  let can := len - read
  let can := if avail < can then avail else can
  if availContig < can then availContig else can

def bytes (buf : Nat → Byte) (first len : Nat) : List Byte := (List.range len).map fun i => buf (first + i)

/-- The loop that copies into the pipe. -/
def putLoop (p : Pipe n) : List Byte → Pipe n
  | [] => p
  | x :: xs =>
    putLoop { p with
      buffer := update p.buffer p.writePos x
      writePos := (p.writePos + 1) % p.bufSize } xs

/-- The section of `jlos_pipe_write`, behind the computation of `can_write`. -/
def writeSection (p : Pipe n) (buf : Nat → Byte) (written can : Nat) : Pipe n :=
  let p := putLoop p (bytes buf written can)
  { p with count := p.count + can }

/-- The loop that copies out of the pipe. -/
def getLoop (p : Pipe n) : Nat → List Byte × Pipe n
  | 0 => ([], p)
  | k + 1 =>
    let x := p.buffer p.readPos
    let (xs, p) := getLoop { p with readPos := (p.readPos + 1) % p.bufSize } k
    (x :: xs, p)

/-- The section of `jlos_pipe_read`, behind the computation of `can_read`. -/
def readSection (p : Pipe n) (can : Nat) : List Byte × Pipe n :=
  let (xs, p) := getLoop p can
  (xs, { p with count := p.count - can })

def Sys.setPc (s : Sys n) (t : Fin n) (x : Pc) : Sys n := { s with pc := update s.pc t x }

def Sys.setSem (s : Sys n) (k : Sem) (x : Counting (Fin n)) : Sys n :=
  { s with pipe := { s.pipe with sem := update s.pipe.sem k x } }

/-- What a thread does when a semaphore lets it pass. -/
def Pc.wake : Pc → Pc
  | .write buf len w .queued => .write buf len w .passed
  | .read len r got .queued => .read len r got .passed
  | pc => pc

def Pc.setStage (x : Stage) : Pc → Pc
  | .write buf len w _ => .write buf len w x
  | .read len r got _ => .read len r got x
  | pc => pc

def semPost (s : Sys n) (k : Sem) : Sys n :=
  let (woken, sem) := (s.pipe.sem k).post
  let s := s.setSem k sem
  match woken with
  | none => s
  | some u => s.setPc u (s.pc u).wake

def semWait (s : Sys n) (k : Sem) (t : Fin n) : Sys n :=
  let (granted, sem) := (s.pipe.sem k).wait t
  (s.setSem k sem).setPc t ((s.pc t).setStage (if granted then .passed else .queued))

/-- `jlos_pipe_write` of a thread -/
def writeStep (s : Sys n) (t : Fin n) (buf : Nat → Byte) (len written : Nat) : Stage → Option (Sys n)
  | .top => some (if written < len then semWait s .slots t else s.setPc t .idle)
  | .queued | .unlocked _ => none
  | .passed => some (s.setPc t (.write buf len written (if s.pipe.closed then .back else .locked)))
  | .locked =>
    let can := canWrite s.pipe len written
    some ⟨writeSection s.pipe buf written can, update s.pc t (.write buf len (written + can) (.posts can))⟩
  | .posts 0 => some (s.setPc t (.write buf len written .top))
  | .posts (k + 1) => some (semPost (s.setPc t (.write buf len written (.posts k))) .items)
  | .back => some (semPost (s.setPc t .idle) .slots)

/-- `jlos_pipe_read` of a thread -/
def readStep (s : Sys n) (t : Fin n) (len read : Nat) (got : List Byte) : Stage → Option (Sys n)
  | .top => some (if read < len then semWait s .items t else s.setPc t .idle)
  | .queued => none
  | .passed => some (s.setPc t (.read len read got (if s.pipe.closed && s.pipe.count == 0 then .back else .locked)))
  | .locked =>
    let can := canRead s.pipe len read
    let moved := readSection s.pipe can
    some ⟨moved.2, update s.pc t (.read len (read + can) (got ++ moved.1) (.unlocked can))⟩
  | .unlocked can => some (s.setPc t (.read len read got (if s.pipe.closed then .top else .posts can)))
  | .posts 0 => some (s.setPc t (.read len read got .top))
  | .posts (k + 1) => some (semPost (s.setPc t (.read len read got (.posts k))) .slots)
  | .back => some (semPost (s.setPc t .idle) .items)

def exec (s : Sys n) : Op n → Option (Sys n)
  | .write t buf len =>
    match s.pc t with
    | .idle => some (if s.pipe.closed then s else s.setPc t (.write buf len 0 .top))
    | _ => none
  | .read t len =>
    match s.pc t with
    | .idle => some (s.setPc t (.read len 0 [] .top))
    | _ => none
  | .close t =>
    match s.pc t with
    | .idle => some ⟨{ s.pipe with closed := true }, update s.pc t (.close false)⟩
    | _ => none
  | .run t =>
    match s.pc t with
    | .idle => none
    | .write buf len written stage => writeStep s t buf len written stage
    | .read len r got stage => readStep s t len r got stage
    | .close false => some (semPost (s.setPc t (.close true)) .items)
    | .close true => some (semPost (s.setPc t .idle) .slots)

def step (s : Sys n) (op : Op n) (s' : Sys n) : Prop := exec s op = some s'

/-! ### What a step does for the callers -/

def inserted : Sys n × Op n → Option (Fin n × List Byte)
  | (s, .run t) =>
    match s.pc t with
    | .write buf len written .locked => some (t, bytes buf written (canWrite s.pipe len written))
    | _ => none
  | _ => none

def extracted : Sys n × Op n → Option (Fin n × List Byte)
  | (s, .run t) =>
    match s.pc t with
    | .read len r _ .locked => some (t, (readSection s.pipe (canRead s.pipe len r)).1)
    | _ => none
  | _ => none

/-- A `jlos_pipe_write` returns: its value and its buffer. -/
def wrote : Sys n × Op n → Option (Fin n × Nat × (Nat → Byte))
  | (s, .run t) =>
    match s.pc t with
    | .write buf len written .top => if written < len then none else some (t, written, buf)
    | .write buf _ written .back => some (t, written, buf)
    | _ => none
  | (s, .write t buf _) => if s.pipe.closed then some (t, 0, buf) else none
  | _ => none

/-- A `jlos_pipe_read` returns: its value and what it has put into its buffer. -/
def gave : Sys n × Op n → Option (Fin n × Nat × List Byte)
  | (s, .run t) =>
    match s.pc t with
    | .read len r got .top => if r < len then none else some (t, r, got)
    | .read _ r got .back => some (t, r, got)
    | _ => none
  | _ => none

def Pc.written : Pc → List Byte
  | .write buf _ w _ => bytes buf 0 w
  | _ => []

def Pc.got : Pc → List Byte
  | .read _ _ got _ => got
  | _ => []

end Jlos.Ipc.Pipes
