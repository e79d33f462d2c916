import Jlos.Lib.Run

/-!
# Descriptors

A shallow embedding of the descriptor tables of processes: `jlos_task_fd_malloc`,
`jlos_task_fd_get`, `jlos_task_fd_free`, `jlos_process_fork_inner`, `jlos_process_exit` and
`task_free_locked` of `kernel/multitask.c`, the system calls of `kernel/syscall.c` that create and
close descriptors, and the reference counts of pipes of `kernel/ipc.c`. A system call is one step;
what `jlos_kalloc`, `jlos_vfs_open` and the user memory answer is an argument of the step.
-/
namespace Jlos.Ipc.Descriptors

open Lib Function

inductive FdType
  | unused
  | pipe
  | console
  | file
  deriving DecidableEq, Repr

/-- `jlos_task_fd_t` without its flags -/
structure Fd where
  type : FdType
  obj : Option Nat
  deriving DecidableEq, Repr

/-- `JLOS_TASK_FDS_NUM` entries -/
abbrev Fds := Fin 16 → Fd

/-- What of `jlos_pipe_t` concerns its lifetime. -/
structure Pipe where
  buffer : Bool
  closed : Bool
  refcount : BitVec 32
  deriving DecidableEq, Repr

/-- What a descriptor refers to. -/
inductive Obj
  | pipe (x : Pipe)
  /-- `jlos_vfs_file_t` -/
  | file
  deriving DecidableEq, Repr

/-- `jlos_task_t` -/
structure Proc where
  fds : Option Fds
  zombie : Bool

/-- The processes by their pids, and the objects by their addresses. -/
structure Sys where
  procs : Nat → Option Proc
  heap : Nat → Option Obj

inductive Fault
  /-- Nothing takes this step. -/
  | absent
  /-- An object that is not allocated is used. -/
  | freed
  deriving DecidableEq, Repr

/-- What the steps of `jlos_process_fork_inner` that can fail answer. -/
structure Answers where
  task : Bool
  stack : Bool
  fds : Bool
  /-- With `JLOS_CLONE_VM`, or in a kernel thread, nothing is asked. -/
  mm : Bool
  addTask : Bool
  deriving DecidableEq, Repr

inductive Op
  /-- `jlos_task_init_user` of a new process -/
  | initUser (p : Nat) (fds : Bool)
  /-- `syscall_open`: whether the path can be read, and the file of `jlos_vfs_open` -/
  | openFile (p : Nat) (path : Bool) (file : Option Nat)
  /-- `syscall_create_pipe`: the memory of the pipe with what is in it, whether it gets a buffer,
  and whether the descriptors can be written -/
  | createPipe (p : Nat) (mem : Option (Nat × Pipe)) (buffer copied : Bool)
  /-- `syscall_task_fd_close` -/
  | fdClose (p : Nat) (fd : Int)
  /-- `syscall_fork` and `syscall_clone` -/
  | fork (parent child : Nat) (answers : Answers)
  /-- `jlos_process_exit` -/
  | exit (p : Nat)
  /-- `task_free_locked` -/
  | free (p : Nat)

def enomem : Int := 5

def eninval : Int := 1

def efault : Int := 3

def enoent : Int := 7

/-! ### Tables -/

/-- The table of `jlos_task_init_user` -/
def newFds : Fds := fun i => ⟨if i.val < 3 then .console else .unused, none⟩

def fdMalloc (fds : Fds) : Option (Fin 16 × Fds) :=
  ((List.finRange 16).find? fun i => 3 ≤ i.val ∧ (fds i).type = .unused).map fun i =>
    (i, update fds i { fds i with type := .pipe })

def fdGet (fds : Fds) (fd : Int) : Option (Fin 16) :=
  if h : 0 ≤ fd ∧ fd < 16 then
    let i : Fin 16 := ⟨fd.toNat, by omega⟩
    if (fds i).type = .unused then none else some i
  else none

def fdFree (fds : Fds) (i : Fin 16) : Fds := update fds i ⟨.unused, none⟩

/-! ### Objects -/

/-- `jlos_pipe_init`, which returns early without a buffer -/
def pipeInit (mem : Pipe) (buffer : Bool) : Pipe :=
  if buffer then ⟨true, false, 1⟩ else { mem with buffer := false }

def Sys.setFds (s : Sys) (p : Nat) (fds : Fds) : Sys :=
  { s with procs := update s.procs p (some ⟨some fds, false⟩) }

def Sys.setObj (s : Sys) (a : Nat) (x : Option Obj) : Sys := { s with heap := update s.heap a x }

def pipeRefInc (s : Sys) (a : Nat) : Except Fault Sys :=
  match s.heap a with
  | some (.pipe x) => .ok (s.setObj a (some (.pipe { x with refcount := x.refcount + 1 })))
  | _ => .error .freed

/-- `jlos_pipe_close` and `jlos_pipe_ref_dec` -/
def pipeClose (s : Sys) (a : Nat) : Except Fault Sys :=
  match s.heap a with
  | some (.pipe x) =>
    let x := { x with closed := true, refcount := x.refcount - 1 }
    .ok (s.setObj a (if x.refcount = 0 then none else some (.pipe x)))
  | _ => .error .freed

def vfsClose (s : Sys) (a : Nat) : Except Fault Sys :=
  match s.heap a with
  | some .file => .ok (s.setObj a none)
  | _ => .error .freed

/-! ### System calls -/

def syscallOpen (s : Sys) (p : Nat) (fds : Option Fds) (path : Bool) (file : Option Nat) : Except Fault (Int × Sys) :=
  match fds with
  | none => .ok (-enomem, s)
  | some fds =>
    if !path then .ok (-efault, s)
    else
      match file with
      | none => .ok (-enoent, s)
      | some a => do
        let s := s.setObj a (some .file)
        match fdMalloc fds with
        | none =>
          let s ← vfsClose s a
          .ok (-enomem, s)
        | some (i, fds) => .ok (i.val, s.setFds p (update fds i ⟨.file, some a⟩))

def syscallCreatePipe (s : Sys) (p : Nat) (fds : Option Fds) (mem : Option (Nat × Pipe)) (buffer copied : Bool) :
    Except Fault (Int × Sys) :=
  match fds with
  | none => .ok (-enomem, s)
  | some fds =>
    match mem with
    | none => .ok (-enomem, s)
    | some (a, mem) => do
      let s := s.setObj a (some (.pipe (pipeInit mem buffer)))
      match fdMalloc fds with
      | none => .ok (-enomem, s.setObj a none)
      | some (r, fds) =>
        match fdMalloc fds with
        | none => .ok (-enomem, (s.setFds p (fdFree fds r)).setObj a none)
        | some (w, fds) =>
          let fds := update (update fds r ⟨.pipe, some a⟩) w ⟨.pipe, some a⟩
          let s ← pipeRefInc s a
          if copied then .ok (0, s.setFds p fds)
          else .ok (-efault, (s.setFds p (fdFree (fdFree fds r) w)).setObj a none)

/-- What `syscall_task_fd_close` does with the object of the entry. -/
def closeObj (s : Sys) (x : Fd) : Except Fault Sys :=
  match x.type, x.obj with
  | .pipe, some a => pipeClose s a
  | .file, some a => vfsClose s a
  | _, _ => .ok s

def syscallTaskFdClose (s : Sys) (p : Nat) (fds : Option Fds) (fd : Int) : Except Fault (Int × Sys) :=
  match fds with
  | none => .ok (-enomem, s)
  | some fds =>
    match fdGet fds fd with
    | none => .ok (-eninval, s)
    | some i => do
      let s ← closeObj s (fds i)
      .ok (0, s.setFds p (fdFree fds i))

/-- The loop of `jlos_process_fork_inner` over the child's descriptors. -/
def refIncAll (fds : Fds) (s : Sys) : Except Fault Sys :=
  (List.finRange 16).foldlM (fun s i =>
    match (fds i).type, (fds i).obj with
    | .pipe, some a => pipeRefInc s a
    | _, _ => .ok s) s

def processForkInner (s : Sys) (parent : Option Fds) (child : Nat) (answers : Answers) : Except Fault (Option Sys) :=
  if !answers.task then .ok none
  else
    let fds := if answers.fds then parent else none
    if !answers.stack || (parent.isSome && fds.isNone) then .ok none
    else if !answers.mm then .ok none
    else if !answers.addTask then .ok none
    else do
      let s := { s with procs := update s.procs child (some ⟨fds, false⟩) }
      match fds with
      | none => .ok (some s)
      | some fds =>
        let s ← refIncAll fds s
        .ok (some s)

/-- `syscall_fork` and `syscall_clone` -/
def syscallFork (s : Sys) (parent : Option Fds) (child : Nat) (answers : Answers) : Except Fault (Int × Sys) := do
  match ← processForkInner s parent child answers with
  | none => .ok (-enomem, s)
  | some s => .ok (child, s)

/-- A step with its value. Only a live process makes calls, and what is allocated was free. -/
def exec (s : Sys) : Op → Except Fault (Int × Sys)
  | .initUser p fds =>
    match s.procs p with
    | none => .ok (0, { s with procs := update s.procs p (some ⟨if fds then some newFds else none, false⟩) })
    | some _ => .error .absent
  | .openFile p path file =>
    match s.procs p with
    | some ⟨fds, false⟩ =>
      if ∀ a ∈ file, s.heap a = none then syscallOpen s p fds path file else .error .absent
    | _ => .error .absent
  | .createPipe p mem buffer copied =>
    match s.procs p with
    | some ⟨fds, false⟩ =>
      if ∀ m ∈ mem, s.heap m.1 = none then syscallCreatePipe s p fds mem buffer copied else .error .absent
    | _ => .error .absent
  | .fdClose p fd =>
    match s.procs p with
    | some ⟨fds, false⟩ => syscallTaskFdClose s p fds fd
    | _ => .error .absent
  | .fork parent child answers =>
    match s.procs parent, s.procs child with
    | some ⟨fds, false⟩, none => syscallFork s fds child answers
    | _, _ => .error .absent
  | .exit p =>
    match s.procs p with
    | some ⟨fds, false⟩ => .ok (0, { s with procs := update s.procs p (some ⟨fds, true⟩) })
    | _ => .error .absent
  | .free p =>
    match s.procs p with
    | some ⟨_, true⟩ => .ok (0, { s with procs := update s.procs p none })
    | _ => .error .absent

def step (s : Sys) (op : Op) (s' : Sys) : Prop := ∃ value, exec s op = .ok (value, s')

def start : Sys := ⟨fun _ => none, fun _ => none⟩

/-! ### References -/

def Fd.object (x : Fd) : Option (FdType × Nat) :=
  match x.type, x.obj with
  | .pipe, some a => some (.pipe, a)
  | .file, some a => some (.file, a)
  | _, _ => none

/-- The objects of the entries of live processes. -/
def Sys.ref (s : Sys) (r : Nat × Fin 16) : Option (FdType × Nat) :=
  match s.procs r.1 with
  | some ⟨some fds, false⟩ => (fds r.2).object
  | _ => none

/-- An object that can be used through a descriptor of this type. -/
def Obj.Usable : FdType → Obj → Prop
  | .pipe, .pipe x => x.buffer = true ∧ x.closed = false
  | .file, .file => True
  | _, _ => False

end Jlos.Ipc.Descriptors
