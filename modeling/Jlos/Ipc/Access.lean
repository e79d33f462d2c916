import Jlos.Ipc.Lifetime
import Jlos.Vfs.Identity

/-!
# Access modes

A shallow embedding of `syscall_open`, `syscall_create_pipe`, `syscall_write` and `syscall_read`
(`kernel/syscall.c`) with the flags of the descriptors. How far a call on a pipe gets before the
pipe is closed is an argument of the step.
-/
namespace Jlos.Ipc.Access

open Lib Descriptors Option List
open Fat32 (Byte)
open Vfs (vfsOpen vfsClose vfsRead vfsWrite)
open Function

/-- The `flags` of a `jlos_task_fd_t` -/
inductive FdFlags
  | unset
  | readOnly
  | writeOnly
  | readWrite
  deriving DecidableEq, Repr

/-- A descriptor table; `opened` is no field of the source: it records the flags given to
`syscall_open`, with `O_RDONLY` and `O_WRONLY` for the two ends of a pipe. -/
structure Table where
  fds : Fds
  flags : Fin 16 → FdFlags
  opened : Fin 16 → BitVec 32

structure Pipe where
  bytes : List Byte
  buffer : Bool
  closed : Bool
  deriving DecidableEq, Repr

/-- The pipes by their addresses, and the files -/
structure Data where
  pipes : Nat → Option Pipe
  vfs : Vfs.State

/-- The processes that have a descriptor table, and what the descriptors lead to. -/
structure Sys where
  procs : Nat → Option Table
  data : Data

def accMode (flags : BitVec 32) : BitVec 32 := flags &&& 3

/-- The switch of `syscall_open` -/
def flagsOf (flags : BitVec 32) : FdFlags :=
  if accMode flags = 1 then .writeOnly else if accMode flags = 2 then .readWrite else .readOnly

def eio : Int := 9

def writeBufSizeMax : Nat := 4096

/-- The table of `jlos_task_init_user` -/
def newTable : Table where
  fds := newFds
  flags i := if i.val = 0 then .readOnly else if i.val < 3 then .writeOnly else .unset
  opened _ := 0

/-- What `syscall_open` and `syscall_create_pipe` write into an entry they have got. -/
def Table.setFd (t : Table) (i : Fin 16) (x : Fd) (flags : BitVec 32) : Table :=
  ⟨update t.fds i x, update t.flags i (flagsOf flags), update t.opened i flags⟩

def Table.free (t : Table) (i : Fin 16) : Table := { t with fds := fdFree t.fds i, flags := update t.flags i .unset }

def Sys.setVfs (s : Sys) (vfs : Vfs.State) : Sys := { s with data := { s.data with vfs := vfs } }

def Data.setPipe (s : Data) (a : Nat) (x : Option Pipe) : Data := { s with pipes := update s.pipes a x }

def Sys.setTable (s : Sys) (p : Nat) (t : Table) : Sys := { s with procs := update s.procs p (some t) }

/-- `jlos_pipe_write` with the first `room` bytes before the pipe is closed -/
def pipeWrite (s : Data) (a : Nat) (bytes : List Byte) (room : Nat) : Int × Data :=
  match s.pipes a with
  | none => (0, s)
  | some x =>
    if !x.buffer || x.closed then (0, s)
    else
      let bytes := bytes.take room
      (bytes.length, s.setPipe a (some { x with bytes := x.bytes ++ bytes }))

/-- `jlos_pipe_read` of at most `avail` bytes -/
def pipeRead (s : Data) (a : Nat) (len avail : Nat) : List Byte × Data :=
  match s.pipes a with
  | none => ([], s)
  | some x =>
    if !x.buffer then ([], s)
    else
      let n := min len avail
      (x.bytes.take n, s.setPipe a (some { x with bytes := x.bytes.drop n }))

/-- The switch of `syscall_write` over the type of the entry; the console is given `len` bytes. -/
def writeObj (s : Data) (x : Fd) (bytes : List Byte) (len room : Nat) : Int × Data :=
  match x.type, x.obj with
  | .console, _ => (len, s)
  | .pipe, none => (0, s)
  | .pipe, some a => pipeWrite s a bytes room
  | .file, none => (-eio, s)
  | .file, some f =>
    let (written, vfs) := vfsWrite s.vfs f bytes
    (if written then bytes.length else -eio, { s with vfs := vfs })
  | .unused, _ => (-eninval, s)

/-- How many bytes `syscall_write` copies: one more for the console, for the terminator. -/
def copyLen (x : Fd) (len : Nat) : Nat := if x.type = .console ∧ len < writeBufSizeMax then len + 1 else len

/-- `syscall_write`; `user` is what the caller's buffer has. -/
def syscallWrite (s : Sys) (p : Nat) (fd : Int) (user : List Byte) (kalloc copied : Bool) (room : Nat) : Int × Data :=
  match s.procs p with
  | none => (-enomem, s.data)
  | some t =>
    match fdGet t.fds fd with
    | none => (-eninval, s.data)
    | some i =>
      let bytes := user.take writeBufSizeMax
      if 256 < copyLen (t.fds i) bytes.length && !kalloc then (-enomem, s.data)
      else if !copied then (-efault, s.data)
      else writeObj s.data (t.fds i) bytes (copyLen (t.fds i) bytes.length) room

/-- What `syscall_read` reads from a pipe or a file. -/
def readObj (s : Data) (x : Fd) (len avail : Nat) : Option (List Byte × Data) :=
  match x.type, x.obj with
  | .pipe, none => some ([], s)
  | .pipe, some a => some (pipeRead s a len avail)
  | .file, some f =>
    let (bytes, vfs) := vfsRead s.vfs f len
    some (bytes, { s with vfs := vfs })
  | _, _ => none

/-- `syscall_read`, with what the caller gets -/
def syscallRead (s : Sys) (p : Nat) (fd : Int) (len : Nat) (kalloc copied : Bool) (avail : Nat) :
    Int × List Byte × Data :=
  match s.procs p with
  | none => (-enomem, [], s.data)
  | some t =>
    match fdGet t.fds fd with
    | none => (-enomem, [], s.data)
    | some i =>
      if (t.fds i).type ≠ .pipe ∧ (t.fds i).type ≠ .file then (-eninval, [], s.data)
      else if 256 < len && !kalloc then (-enomem, [], s.data)
      else
        match readObj s.data (t.fds i) len avail with
        | none => (-eio, [], s.data)
        | some (bytes, data) => if copied then (bytes.length, bytes, data) else (-efault, [], data)

/-- `syscall_open` of a path, if it can be copied -/
def syscallOpen (s : Sys) (p : Nat) (path : Option (List Byte)) (flags : BitVec 32) : Int × Sys :=
  match s.procs p, path with
  | none, _ => (-enomem, s)
  | some _, none => (-efault, s)
  | some t, some path =>
    match vfsOpen s.data.vfs path ⟨flags.getLsbD 2, flags.getLsbD 3, flags.getLsbD 4⟩ with
    | (none, vfs) => (-enoent, s.setVfs vfs)
    | (some f, vfs) =>
      match fdMalloc t.fds with
      | none => (-enomem, s.setVfs (vfsClose vfs f))
      | some (i, fds) => (i.val, (s.setVfs vfs).setTable p ({ t with fds := fds }.setFd i ⟨.file, some f⟩ flags))

def syscallCreatePipe (s : Sys) (p : Nat) (mem : Option Nat) (buffer copied : Bool) : Int × Sys :=
  match s.procs p, mem with
  | none, _ | some _, none => (-enomem, s)
  | some t, some a =>
    match fdMalloc t.fds with
    | none => (-enomem, s)
    | some (r, fds) =>
      let t := { t with fds := fds }
      match fdMalloc t.fds with
      | none => (-enomem, s.setTable p (t.free r))
      | some (w, fds) =>
        let t := ({ t with fds := fds }.setFd r ⟨.pipe, some a⟩ 0).setFd w ⟨.pipe, some a⟩ 1
        if copied then (0, { s with data := s.data.setPipe a (some ⟨[], buffer, false⟩) }.setTable p t)
        else (-efault, s.setTable p ((t.free r).free w))

/-- What `syscall_task_fd_close` does with the object of an entry. -/
def closeObj (s : Data) (x : Fd) : Data :=
  match x.type, x.obj with
  | .pipe, some a => s.setPipe a ((s.pipes a).map fun x => { x with closed := true })
  | .file, some f => { s with vfs := vfsClose s.vfs f }
  | _, _ => s

def syscallTaskFdClose (s : Sys) (p : Nat) (fd : Int) : Int × Sys :=
  match s.procs p with
  | none => (-enomem, s)
  | some t =>
    match fdGet t.fds fd with
    | none => (-eninval, s)
    | some i => (0, { s with data := closeObj s.data (t.fds i) }.setTable p (t.free i))

inductive Op
  | initUser (p : Nat)
  | openFile (p : Nat) (path : Option (List Byte)) (flags : BitVec 32)
  | createPipe (p : Nat) (mem : Option Nat) (buffer copied : Bool)
  | fdClose (p : Nat) (fd : Int)
  | write (p : Nat) (fd : Int) (user : List Byte) (kalloc copied : Bool) (room : Nat)
  | read (p : Nat) (fd : Int) (len : Nat) (kalloc copied : Bool) (avail : Nat)
  /-- `jlos_process_fork_inner` that succeeds -/
  | fork (parent child : Nat)
  /-- `task_free_locked` -/
  | free (p : Nat)
  /-- Any other call of the file system. -/
  | vfs (op : Vfs.Op)

def exec (s : Sys) : Op → Int × Sys
  | .initUser p => (0, s.setTable p newTable)
  | .openFile p path flags => syscallOpen s p path flags
  | .createPipe p mem buffer copied => syscallCreatePipe s p mem buffer copied
  | .fdClose p fd => syscallTaskFdClose s p fd
  | .write p fd user kalloc copied room =>
    let (value, data) := syscallWrite s p fd user kalloc copied room
    (value, { s with data := data })
  | .read p fd len kalloc copied avail =>
    let (value, _, data) := syscallRead s p fd len kalloc copied avail
    (value, { s with data := data })
  | .fork parent child => (child, { s with procs := update s.procs child (s.procs parent) })
  | .free p => (0, { s with procs := update s.procs p none })
  | .vfs op => (0, s.setVfs (Vfs.exec s.data.vfs op))

def Calls (s : Sys) (op : Op) (s' : Sys) : Prop := s' = (exec s op).2

def start (vfs : Vfs.State) : Sys := ⟨fun _ => none, ⟨fun _ => none, vfs⟩⟩

/-- The entry of a descriptor that is not one of the console. -/
def Sys.Opened (s : Sys) (p : Nat) (fd : Int) (t : Table) (i : Fin 16) : Prop :=
  s.procs p = some t ∧ fdGet t.fds fd = some i ∧ (t.fds i).type ≠ .console

/-- A write through a descriptor that was opened read-only modifies no data, and a read through one
that was opened write-only fails. -/
def Respects (s : Sys) : Op → Prop
  | op@(.write p fd ..) => ∀ t i, s.Opened p fd t i → accMode (t.opened i) = 0 → (exec s op).2.data = s.data
  | op@(.read p fd ..) => ∀ t i, s.Opened p fd t i → accMode (t.opened i) = 1 → (exec s op).1 < 0
  | _ => True

/-- Calls whose buffers can be copied are not made against the flags of the entry. -/
def Meets (s : Sys) : Op → Prop
  | .write p fd _ _ copied _ => copied = true → ∀ t i, s.Opened p fd t i → t.flags i ≠ .readOnly
  | .read p fd _ _ copied _ => copied = true → ∀ t i, s.Opened p fd t i → t.flags i ≠ .writeOnly
  | _ => True

/-! ### The flags of a descriptor -/

/-- The flags of an entry in use are those it was opened with. -/
def Table.AgreesAt (t : Table) (i : Fin 16) : Prop :=
  (t.fds i).type = .pipe ∨ (t.fds i).type = .file → t.flags i = flagsOf (t.opened i)

def Agree (s : Sys) : Prop := ∀ p t, s.procs p = some t → ∀ i, t.AgreesAt i

variable {s s' : Sys} {t : Table} {i j : Fin 16}

theorem newTable_agreesAt (i : Fin 16) : newTable.AgreesAt i := by
  intro used
  by_cases low : i.val < 3 <;> simp [newTable, newFds, low] at used

theorem agreesAt_free (others : j ≠ i → t.AgreesAt j) : (t.free i).AgreesAt j := by
  intro used
  simp only [Table.free, fdFree, update_apply] at used ⊢
  by_cases here : j = i
  · simp [here] at used
  · simp only [if_neg here] at used ⊢
    exact others here used

theorem agreesAt_setFd (others : j ≠ i → t.AgreesAt j) (x : Fd) (flags : BitVec 32) :
    (t.setFd i x flags).AgreesAt j := by
  intro used
  simp only [Table.setFd, update_apply] at used ⊢
  by_cases here : j = i
  · simp [here]
  · simp only [if_neg here] at used ⊢
    exact others here used

/-- An entry that was just got has no flags yet, so the others are all that can agree. -/
theorem agreesAt_fdMalloc {fds : Fds} (found : fdMalloc t.fds = some (i, fds)) (other : j ≠ i) (h : t.AgreesAt j) :
    Table.AgreesAt { t with fds := fds } j := by
  obtain ⟨-, -, rfl⟩ := fdMalloc_spec found
  intro used
  simp only [update_apply, if_neg other] at used
  exact h used

theorem Agree.setTable (h : Agree s) {p : Nat} (same : s'.procs = s.procs) (agrees : ∀ i, t.AgreesAt i) :
    Agree (s'.setTable p t) := by
  intro q u found
  simp only [Sys.setTable, same, update_apply] at found
  split at found
  next =>
    cases found
    exact agrees
  next => exact h q u found

theorem Agree.syscallOpen (h : Agree s) (p : Nat) (path : Option (List Byte)) (flags : BitVec 32) :
    Agree (syscallOpen s p path flags).2 := by
  unfold Access.syscallOpen
  split
  next => exact h
  next => exact h
  next t path live =>
    split
    next => exact h
    next f vfs _ =>
      split
      next => exact h
      next i fds found =>
        refine h.setTable rfl fun j => agreesAt_setFd (fun other => ?_) _ _
        exact agreesAt_fdMalloc found other (h p t live j)

theorem Agree.syscallCreatePipe (h : Agree s) (p : Nat) (mem : Option Nat) (buffer copied : Bool) :
    Agree (syscallCreatePipe s p mem buffer copied).2 := by
  unfold Access.syscallCreatePipe
  split
  next => exact h
  next => exact h
  next t a live =>
    split
    next => exact h
    next r fds found =>
      have got : ∀ j, j ≠ r → Table.AgreesAt { t with fds := fds } j := fun j other =>
        agreesAt_fdMalloc found other (h p t live j)
      dsimp only
      split
      next => exact h.setTable rfl fun j => agreesAt_free (got j)
      next w fds' found' =>
        have ends : ∀ j, Table.AgreesAt (({ t with fds := fds' }.setFd r ⟨.pipe, some a⟩ 0).setFd w
          ⟨.pipe, some a⟩ 1) j :=
          fun j => agreesAt_setFd (fun write => agreesAt_setFd (fun read =>
            agreesAt_fdMalloc (t := { t with fds := fds }) found' write (got j read)) _ _) _ _
        split
        next => exact h.setTable rfl ends
        next => exact h.setTable rfl fun j => agreesAt_free fun _ => agreesAt_free fun _ => ends j

/-- The calls keep the flags of the entries, and a fork copies them. -/
theorem Agree.exec (h : Agree s) (op : Op) : Agree (exec s op).2 := by
  cases op with
  | initUser p => exact h.setTable rfl newTable_agreesAt
  | openFile p path flags => exact h.syscallOpen p path flags
  | createPipe p mem buffer copied => exact h.syscallCreatePipe p mem buffer copied
  | fdClose p fd =>
    simp only [Access.exec, syscallTaskFdClose]
    split
    next => exact h
    next t live =>
      split
      next => exact h
      next i _ =>
        exact h.setTable rfl fun j => agreesAt_free fun _ => h p t live j
  | write | read | vfs => exact h
  | fork parent child =>
    intro q t live
    simp only [Access.exec, update_apply] at live
    split at live
    next => exact h parent t live
    next => exact h q t live
  | free p =>
    intro q t live
    simp only [Access.exec, update_apply] at live
    split at live
    next => cases live
    next => exact h q t live

/-! ### Calls within the flags -/

theorem type_of_fdGet {fds : Fds} {fd : Int} (found : fdGet fds fd = some i) : (fds i).type ≠ .unused := by
  intro unused
  have eq := fdGet_some found
  subst eq
  unfold fdGet at found
  split at found
  next => simp [unused] at found
  next => cases found

/-- The entry of a descriptor that was opened has the flags of the mode. -/
theorem Agree.flags (h : Agree s) {p : Nat} {fd : Int} (opened : s.Opened p fd t i) :
    t.flags i = flagsOf (t.opened i) := by
  obtain ⟨live, found, other⟩ := opened
  apply h p t live i
  have used := type_of_fdGet found
  cases type : (t.fds i).type with
  | unused => exact absurd type used
  | pipe => exact .inl rfl
  | console => exact absurd type other
  | file => exact .inr rfl

theorem Agree.respects (h : Agree s) {op : Op} (met : Meets s op) : Respects s op := by
  cases op with
  | write p fd user kalloc copied room =>
    intro t i opened mode
    cases copied with
    | true =>
      refine absurd ?_ (met rfl t i opened)
      rw [h.flags opened, flagsOf, mode]
      rfl
    | false =>
      simp only [Access.exec, syscallWrite, opened.1, opened.2.1]
      split
      next => rfl
      next => rfl
  | read p fd len kalloc copied avail =>
    intro t i opened mode
    cases copied with
    | true =>
      refine absurd ?_ (met rfl t i opened)
      rw [h.flags opened, flagsOf, mode]
      rfl
    | false =>
      simp only [Access.exec, syscallRead, opened.1, opened.2.1, Bool.false_eq_true, if_false]
      repeat' split
      all_goals exact of_decide_eq_true rfl
  | _ => trivial

/-- In every run in which no call is made against the flags of its descriptor, no data is modified
through a descriptor that was opened read-only, and no read through one that was opened write-only
succeeds. -/
theorem access_respected (vfs : Vfs.State) (es : List (Sys × Op)) (s : Sys) (run : Run Calls (start vfs) es s)
    (met : ∀ e ∈ es, Meets e.1 e.2) : ∀ e ∈ es, Respects e.1 e.2 := by
  have initial : Agree (start vfs) := by
    intro p t live
    cases live
  have agree := Run.invariant (I := Agree) initial (fun s op s' h taken => by rw [taken]; exact h.exec op) run
  exact fun e mem => (agree.2 e mem).respects (met e mem)

/-- A process is made, and opens a file that is not there yet. -/
def created (flags : Nat) : Sys :=
  (exec (exec (start Vfs.smallMount) (.initUser 1)).2 (.openFile 1 (some (Vfs.rootFile 0x41)) flags)).2

theorem run_created (flags : Nat) (op : Op) : Run Calls (start Vfs.smallMount)
    [(start Vfs.smallMount, .initUser 1), ((exec (start Vfs.smallMount) (.initUser 1)).2,
      .openFile 1 (some (Vfs.rootFile 0x41)) flags), (created flags, op)] (exec (created flags) op).2 :=
  (((Run.start).snoc rfl).snoc rfl).snoc rfl

/-- A file is created for writing, and one byte is written to it. -/
theorem write_only_file_written : ∃ es s, Run Calls (start Vfs.smallMount) es s ∧
    es.map Prod.snd = [.initUser 1, .openFile 1 (some (Vfs.rootFile 0x41)) 5, .write 1 3 [1] true true 1] ∧
    (s.data.vfs.inodes 1).map (·.size) = some 1 ∧ ∀ e ∈ es, Respects e.1 e.2 := by
  have run := run_created 5 (.write 1 3 [1] true true 1)
  have flags : ((created 5).procs 1).map (fun t => t.flags 3) = some .writeOnly := by decide +kernel
  refine ⟨_, _, run, rfl, by decide +kernel, access_respected _ _ _ run fun e mem => ?_⟩
  rcases mem_cons.mp mem with rfl | mem
  · trivial
  rcases mem_cons.mp mem with rfl | mem
  · trivial
  rw [mem_singleton.mp mem]
  intro _ t i opened
  have third : i = 3 := Fin.ext (Int.ofNat.inj (fdGet_some opened.2.1)).symm
  rw [opened.1, map_some, ← third] at flags
  rw [some.inj flags]
  exact nofun

/-- A file is opened with `O_CREAT | O_RDONLY`, its entry says that it is read-only, and a write
through it succeeds: the file has a byte more. -/
theorem read_only_file_written : ∃ es s, Run Calls (start Vfs.smallMount) es s ∧
    es.map Prod.snd = [.initUser 1, .openFile 1 (some (Vfs.rootFile 0x41)) 4, .write 1 3 [1] true true 1] ∧
    es.map (fun e => (exec e.1 e.2).1) = [0, 3, 1] ∧
    es.map (fun e => (e.1.procs 1).map fun t => t.flags 3) = [none, some .unset, some .readOnly] ∧
    es.map (fun e => (e.1.data.vfs.inodes 1).map (·.size)) = [none, none, some 0] ∧
    (s.data.vfs.inodes 1).map (·.size) = some 1 ∧ ¬∀ e ∈ es, Respects e.1 e.2 := by
  have run := run_created 4 (.write 1 3 [1] true true 1)
  have before : ((created 4).data.vfs.inodes 1).map (·.size) = some 0 := by decide +kernel
  have after : ((exec (created 4) (.write 1 3 [1] true true 1)).2.data.vfs.inodes 1).map (·.size) = some 1 := by
    decide +kernel
  refine ⟨_, _, run, rfl, by decide +kernel, by decide +kernel, by decide +kernel, after, fun all => ?_⟩
  have third : ((created 4).procs 1).map (fun t => (fdGet t.fds 3, (t.fds 3).type, accMode (t.opened 3))) =
      some (some 3, .file, 0) := by decide +kernel
  obtain ⟨t, live, entry⟩ := map_eq_some_iff.mp third
  simp only [Prod.mk.injEq] at entry
  obtain ⟨found, file, mode⟩ := entry
  have respects := all (created 4, .write 1 3 [1] true true 1) (by simp)
  rw [respects t 3 ⟨live, found, by rw [file]; exact nofun⟩ mode, before] at after
  cases after

end Jlos.Ipc.Access
