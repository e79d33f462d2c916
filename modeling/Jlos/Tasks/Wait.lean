import Jlos.Sync.Model

/-!
# Waiting for a child

A shallow embedding of what `jlos_task_wait_or_reap` and its loop in `syscall_wait_pid`,
`jlos_process_exit`, `jlos_task_do_exit` and `jlos_process_exec_elf` (`kernel/multitask.c`,
`kernel/syscall.c`, `arch/x86/context_switch.c`) do to the tasks of a parent and its children.
Sections under `manager_lock` are single steps. Between them a tick may call the scheduler, which
puts a task that is running back into a run queue, and drops any other. A task that is ready and on
no processor is in a run queue.
-/
namespace Jlos.Tasks

open Lib Option
open Sync (Status)

/-- Where a task is. -/
inductive Pc
  | user
  /-- In the loop of `syscall_wait_pid`, before `jlos_task_wait_or_reap`. -/
  | waitPid (pid : Nat)
  /-- In this loop, before `jlos_task_manager_schedule`. -/
  | waitSchedule (pid : Nat)
  /-- In `jlos_process_exec_elf`, behind the section that takes the task out of `pid_hash`. -/
  | execElf
  /-- In `jlos_task_do_exit`, behind `sti`. -/
  | doExit
  /-- In `jlos_process_exit`, behind `JLOS_TASK_SET_ZOMBIE`. -/
  | exiting
  /-- In `jlos_process_exit`, behind the section. -/
  | gone
  deriving DecidableEq, Repr

structure Task where
  status : Status
  parentPid : Nat
  waitingPid : Nat
  /-- The task is linked in `pid_hash`. -/
  hashed : Bool
  /-- The task is the current task of a processor. -/
  onCpu : Bool
  pc : Pc
  deriving DecidableEq, Repr

/-- The tasks by their `pid`; a task that was freed is not hashed. -/
abbrev Sys := Nat → Option Task

inductive Op
  | fork (t child : Nat)
  /-- The scheduler of a processor takes a task from a run queue. -/
  | dispatch (t : Nat)
  /-- A tick calls the scheduler. -/
  | tick (t : Nat)
  /-- The loop of `syscall_wait_pid` or the end of `jlos_process_exit` calls the scheduler. -/
  | schedule (t : Nat)
  | waitPid (t pid : Nat)
  | waitOrReap (t : Nat)
  | execElf (t : Nat)
  | execReturns (t : Nat)
  | execFails (t : Nat)
  /-- `jlos_process_exit` up to its section: by a system call, a signal or a fault. -/
  | exit (t : Nat)
  | doExit (t : Nat)
  /-- The section of `jlos_process_exit`. -/
  | exitSection (t : Nat)
  deriving DecidableEq, Repr

/-- `find_pid_locked` -/
def findPid (s : Sys) (pid : Nat) : Option Task := (s pid).filter Task.hashed

def set (s : Sys) (t : Nat) (x : Task) : Sys := Function.update s t (some x)

/-- `jlos_task_manager_schedule` for the task that it leaves. -/
def Task.switchOut (x : Task) : Task :=
  { x with status := if x.status = .running then .ready else x.status, onCpu := false }

/-- `task_free_locked`, which leaves a task alone that a processor has. -/
def taskFree (s : Sys) (pid : Nat) (x : Task) : Sys := if x.onCpu then s else set s pid { x with hashed := false }

/-- `jlos_task_wait_or_reap`, and the return of `syscall_wait_pid` if it does not wait. -/
def waitOrReap (s : Sys) (t : Nat) (x : Task) (pid : Nat) : Sys :=
  match findPid s pid with
  | none => set s t { x with pc := .user }
  | some target =>
    if target.parentPid ≠ t then set s t { x with pc := .user }
    else if target.status = .zombie then set (taskFree s pid target) t { x with pc := .user }
    else set s t { x with status := .waiting, waitingPid := pid, pc := .waitSchedule pid }

/-- `wake_waiter_locked` -/
def wakeWaiter (s : Sys) (exitedPid : Nat) : Sys :=
  match findPid s exitedPid with
  | none => s
  | some exited =>
    if exited.parentPid ≠ 0 ∧ exited.parentPid ≠ exitedPid then
      match findPid s exited.parentPid with
      | none => s
      | some parent =>
        if parent.status = .waiting ∧ parent.waitingPid = exitedPid then
          set s exited.parentPid { parent with waitingPid := exited.parentPid, status := .ready }
        else s
    else s

/-- The section of `jlos_process_exit`; the list of zombies without a parent is not kept. -/
def exitSection (s : Sys) (t : Nat) (x : Task) : Sys :=
  let s' := match findPid s x.parentPid with
    | none => s
    | some parent => if parent.status ≠ .zombie then wakeWaiter s t else s
  set s' t { x with pc := .gone }

/-- A step of a task that a processor has and that is at `pc`. -/
def Sys.at (s : Sys) (t : Nat) (pc : Pc) (next : Task → Sys) : Option Sys :=
  match s t with
  | none => none
  | some x => if x.onCpu ∧ x.pc = pc then some (next x) else none

def exec (s : Sys) : Op → Option Sys
  | .fork t child =>
    if child ≠ 0 ∧ s child = none then Sys.at s t .user fun _ =>
      set s child ⟨.ready, t, child, true, false, .user⟩ else none
  | .dispatch t =>
    match s t with
    | none => none
    | some x =>
      if x.status = .ready ∧ x.onCpu = false then some (set s t { x with status := .running, onCpu := true }) else none
  | .tick t =>
    match s t with
    | none => none
    | some x => if x.onCpu then some (set s t x.switchOut) else none
  | .schedule t =>
    match s t with
    | none => none
    | some x =>
      match x.pc with
      | .waitSchedule pid => if x.onCpu then some (set s t { x.switchOut with pc := .waitPid pid }) else none
      | .gone => if x.onCpu then some (set s t x.switchOut) else none
      | _ => none
  | .waitPid t pid => Sys.at s t .user fun x => set s t { x with pc := .waitPid pid }
  | .waitOrReap t =>
    match s t with
    | none => none
    | some x =>
      match x.pc with
      | .waitPid pid => if x.onCpu then some (waitOrReap s t x pid) else none
      | _ => none
  | .execElf t => Sys.at s t .user fun x => set s t { x with hashed := false, pc := .execElf }
  | .execReturns t => Sys.at s t .execElf fun x => set s t { x with hashed := true, pc := .user }
  | .execFails t => Sys.at s t .execElf fun x => set s t { x with status := .zombie, pc := .exiting }
  | .exit t =>
    match s t with
    | none => none
    | some x =>
      if x.onCpu ∧ (x.pc = .user ∨ x.pc = .doExit) then
        some (set s t { x with status := .zombie, pc := .exiting }) else none
  | .doExit t => Sys.at s t .user fun x => set s t { x with status := .zombie, pc := .doExit }
  | .exitSection t => Sys.at s t .exiting fun x => exitSection s t x

def step (s : Sys) (op : Op) (s' : Sys) : Prop := exec s op = some s'

/-- One task, which the first processor has. -/
def start : Sys := set (fun _ => none) 2 ⟨.running, 0, 2, true, true, .user⟩

/-! ### Lost waits -/

/-- The parent of a task waits for it. -/
def ParentWaits (s : Sys) (c : Nat) : Prop :=
  ∃ child parent, s c = some child ∧ s child.parentPid = some parent ∧ parent.status = .waiting ∧ parent.waitingPid = c

/-- A zombie that is going to take the lock and wake its parent. -/
def Task.WillWake (x : Task) : Prop := x.onCpu ∧ (x.pc = .doExit ∨ x.pc = .exiting)
  deriving Decidable

/-- No task waits for a zombie that does not wake it any more. -/
def NoLostWait (s : Sys) : Prop := ∀ c, ParentWaits s c → ∀ child, s c = some child →
    child.status = .zombie → child.WillWake

/-- No tick takes the processor from a zombie that its parent waits for and that has not taken the
lock; and a task that takes it is still found under its `pid`, unless its parent does not wait. -/
def Meets (s : Sys) : Op → Prop
  | .tick t => ∀ x ∈ s t, x.status = .zombie → x.WillWake → ¬ParentWaits s t
  | .exitSection t => ∀ x ∈ s t, x.hashed = false → ¬ParentWaits s t
  | _ => True

instance (s : Sys) (c : Nat) : Decidable (ParentWaits s c) :=
  decidable_of_iff (∃ child ∈ s c, ∃ parent ∈ s child.parentPid, parent.status = .waiting ∧ parent.waitingPid = c)
    ⟨fun ⟨child, isChild, parent, isParent, waits⟩ => ⟨child, parent, isChild, isParent, waits⟩,
      fun ⟨child, parent, isChild, isParent, waits⟩ => ⟨child, isChild, parent, isParent, waits⟩⟩

instance (s : Sys) (op : Op) : Decidable (Meets s op) := by
  cases op <;> unfold Meets <;> infer_instance

/-- What holds for every task. -/
structure Task.Ok (x : Task) : Prop where
  waits : x.status = .waiting → x.hashed ∧ ((∃ pid, x.pc = .waitSchedule pid) ∨
    (x.onCpu = false ∧ ∃ pid, x.pc = .waitPid pid))
  dead : x.status = .zombie ↔ x.pc = .doExit ∨ x.pc = .exiting ∨ x.pc = .gone
  unhashed : x.hashed = false → x.pc = .execElf ∨ x.status = .zombie

structure Inv (s : Sys) : Prop where
  zero : s 0 = none
  ok : ∀ t x, s t = some x → x.Ok

variable {s s' : Sys} {t : Nat} {x y : Task}

theorem set_self : set s t x t = some x := Function.update_self _ _ _

theorem set_other {u : Nat} (other : u ≠ t) : set s t x u = s u := Function.update_of_ne other _ _

theorem Inv.set (inv : Inv s) (nonzero : t ≠ 0) (ok : x.Ok) : Inv (set s t x) := by
  constructor
  case zero =>
    rw [set_other (Ne.symm nonzero)]
    exact inv.zero
  case ok =>
    intro u y found
    rcases of_update found with ⟨-, here⟩ | ⟨-, found⟩
    · exact some.inj here ▸ ok
    · exact inv.ok u y found

theorem Inv.ne_zero (inv : Inv s) (found : s t = some x) : t ≠ 0 := by
  rintro rfl
  rw [inv.zero] at found
  cases found

/-- A task that does not begin to wait. -/
def Task.Calm (x y : Task) : Prop :=
  y.parentPid = x.parentPid ∧ (y.status = .waiting → x.status = .waiting ∧ y.waitingPid = x.waitingPid)

/-- Nobody waits for more than before when one task changes and does not begin to wait. -/
theorem ParentWaits.of_set {c : Nat} (found : s t = some x) (calm : x.Calm y) (waits : ParentWaits (set s t y) c) :
    ParentWaits s c := by
  obtain ⟨child, parent, isChild, isParent, status, pid⟩ := waits
  have before : ∀ {u : Nat} {z : Task}, set s t y u = some z → ∃ old, s u = some old ∧ old.Calm z := by
    intro u z now
    rcases of_update now with ⟨rfl, here⟩ | ⟨-, now⟩
    · exact ⟨x, found, some.inj here ▸ calm⟩
    · exact ⟨z, now, rfl, fun waiting => ⟨waiting, rfl⟩⟩
  obtain ⟨child', wasChild, sameParent, -⟩ := before isChild
  obtain ⟨parent', wasParent, -, waited⟩ := before isParent
  obtain ⟨status', pid'⟩ := waited status
  exact ⟨child', parent', wasChild, sameParent ▸ wasParent, status', pid' ▸ pid⟩

theorem NoLostWait.set (holds : NoLostWait s) (found : s t = some x) (calm : x.Calm y)
    (wakes : (x.status = .zombie → x.WillWake) → y.status = .zombie → y.WillWake) : NoLostWait (set s t y) := by
  intro c waits child isChild zombie
  have waited := ParentWaits.of_set found calm waits
  rcases of_update isChild with ⟨rfl, here⟩ | ⟨-, isChild⟩
  · cases here
    exact wakes (holds c waited x found) zombie
  · exact holds c waited child isChild zombie

/-- A change of a task that is no zombie, and that begins to wait for no zombie. -/
theorem NoLostWait.set_living (holds : NoLostWait s) (alive : y.status ≠ .zombie)
    (fresh : y.status = .waiting → ∀ child ∈ s y.waitingPid, child.status ≠ .zombie) :
    NoLostWait (Tasks.set s t y) := by
  rintro c ⟨child, parent, isChild, isParent, waiting, waitsFor⟩ same isSame zombie
  obtain rfl : child = same := some.inj (isChild.symm.trans isSame)
  rcases of_update isChild with ⟨-, here⟩ | ⟨-, isChild⟩
  · cases here
    exact absurd zombie alive
  · rcases of_update isParent with ⟨-, here⟩ | ⟨-, isParent⟩
    · cases here
      exact absurd zombie (fresh waiting child (waitsFor ▸ isChild))
    · exact holds c ⟨child, parent, isChild, isParent, waiting, waitsFor⟩ child isChild zombie

theorem parent_ne {parent : Task} (found : s t = some x) (zombie : x.status = .zombie)
    (isParent : s x.parentPid = some parent) (waiting : parent.status = .waiting) : x.parentPid ≠ t := by
  intro same
  rw [same, found] at isParent
  cases isParent
  rw [zombie] at waiting
  cases waiting

/-- A zombie that stops short of its wake step, or whose wake step finds nobody, is lost exactly if
its parent waits. -/
theorem NoLostWait.set_lost_iff (holds : NoLostWait s) (found : s t = some x) (zombie : x.status = .zombie)
    (calm : x.Calm y) (dead : y.status = .zombie) (lost : ¬y.WillWake) :
    NoLostWait (Tasks.set s t y) ↔ ¬ParentWaits s t := by
  constructor
  · rintro after ⟨child, parent, isChild, isParent, waiting, pid⟩
    rw [found] at isChild
    cases isChild
    refine lost (after t ⟨y, parent, set_self, ?_, waiting, pid⟩ y set_self dead)
    rw [calm.1, set_other (parent_ne found zombie isParent waiting)]
    exact isParent
  · intro nobody c waits child isChild isZombie
    have waited := ParentWaits.of_set found calm waits
    rcases of_update isChild with ⟨rfl, -⟩ | ⟨-, isChild⟩
    · exact absurd waited nobody
    · exact holds c waited child isChild isZombie

theorem findPid_of_hashed (found : s t = some x) (hashed : x.hashed = true) : findPid s t = some x := by
  simp [findPid, found, Option.filter, hashed]

theorem findPid_eq_some : findPid s t = some x ↔ s t = some x ∧ x.hashed = true := by
  rw [findPid, filter_eq_some_iff]

/-- The section wakes a parent that waits, if the task is still found under its `pid`; else it
changes only the task. -/
theorem exitSection_cases (inv : Inv s) (found : s t = some x) (zombie : x.status = .zombie) :
    (∃ parent, s x.parentPid = some parent ∧ parent.status = .waiting ∧ x.parentPid ≠ t ∧ x.hashed = true ∧
      exitSection s t x = set (set s x.parentPid { parent with waitingPid := x.parentPid, status := .ready }) t
        { x with pc := .gone }) ∨
    ((x.hashed = false ∨ ¬ParentWaits s t) ∧ exitSection s t x = set s t { x with pc := .gone }) := by
  by_cases waits : ParentWaits s t
  case neg =>
    refine .inr ⟨.inr waits, ?_⟩
    have quiet : wakeWaiter s t = s := by
      unfold wakeWaiter
      split
      case h_1 => rfl
      case h_2 exited isExited =>
        obtain ⟨same, -⟩ := findPid_eq_some.mp isExited
        split
        case isFalse => rfl
        case isTrue =>
          split
          case h_1 => rfl
          case h_2 parent isParent =>
            rw [if_neg]
            rintro ⟨waiting, pid⟩
            exact waits ⟨exited, parent, same, (findPid_eq_some.mp isParent).1, waiting, pid⟩
    unfold exitSection
    split
    · rfl
    · rw [quiet, ite_self]
  case pos =>
    obtain ⟨child, parent, isChild, isParent, waiting, pid⟩ := waits
    rw [found] at isChild
    cases isChild
    have other := parent_ne found zombie isParent waiting
    have hashed := ((inv.ok _ parent isParent).waits waiting).1
    have alive : parent.status ≠ .zombie := by
      rw [waiting]
      decide
    have section_ : exitSection s t x = set (wakeWaiter s t) t { x with pc := .gone } := by
      simp [exitSection, findPid_of_hashed isParent hashed, alive]
    -- A child that is not hashed is not found by its own exit.
    by_cases own : x.hashed = true
    case neg =>
      have absent : findPid s t = none := by simp [findPid, found, Option.filter, own]
      refine .inr ⟨.inl (by simpa using own), ?_⟩
      rw [section_, wakeWaiter, absent]
    case pos =>
      refine .inl ⟨parent, isParent, waiting, other, own, ?_⟩
      rw [section_, wakeWaiter, findPid_of_hashed found own]
      simp [inv.ne_zero isParent, other, findPid_of_hashed isParent hashed, waiting, pid]

/-! ### Steps -/

/-- A step of a task in some state. -/
theorem taken_if {p : Task → Prop} [DecidablePred p] {f : Task → Sys}
    (taken : (match s t with | none => none | some x => if p x then some (f x) else none) = some s') :
    ∃ x, s t = some x ∧ p x ∧ s' = f x := by
  split at taken
  case h_1 => cases taken
  case h_2 x found =>
    obtain ⟨now, ⟨⟩⟩ := ite_none_right_eq_some.mp taken
    exact ⟨x, found, now, rfl⟩

theorem at_some {pc : Pc} {next : Task → Sys} (taken : Sys.at s t pc next = some s') :
    ∃ x, s t = some x ∧ x.onCpu = true ∧ x.pc = pc ∧ s' = next x := by
  obtain ⟨x, found, ⟨on, now⟩, next⟩ := taken_if (p := fun x => x.onCpu = true ∧ x.pc = pc) taken
  exact ⟨x, found, on, now, next⟩

/-- A step keeps the invariant, and the property exactly if it meets the condition. -/
def Exact (s : Sys) (op : Op) (s' : Sys) : Prop := Inv s' ∧ (NoLostWait s → (NoLostWait s' ↔ Meets s op))

/-- A step that only changes a task, which keeps its wake step if it has one. -/
theorem exact_set {op : Op} (inv : Inv s) (found : s t = some x) (calm : x.Calm y) (ok : y.Ok)
    (wakes : (x.status = .zombie → x.WillWake) → y.status = .zombie → y.WillWake) (meets : Meets s op) :
    Exact s op (set s t y) :=
  ⟨inv.set (inv.ne_zero found) ok, fun holds => iff_of_true (holds.set found calm wakes) meets⟩

/-- A task that neither waits nor is a zombie. -/
def Task.Active (x : Task) : Prop := x.status ≠ .waiting ∧ x.status ≠ .zombie

theorem Task.Ok.active (ok : x.Ok) (on : x.onCpu = true)
    (now : x.pc = .user ∨ x.pc = .execElf ∨ ∃ pid, x.pc = .waitPid pid) : x.Active := by
  obtain ⟨waits, dead, -⟩ := ok
  rcases now with now | now | ⟨pid, now⟩ <;> simp_all [Active]

/-- A step that changes a task, which is active then. -/
theorem exact_active {op : Op} (inv : Inv s) (nonzero : t ≠ 0) (active : y.Active)
    (place : ¬(y.pc = .doExit ∨ y.pc = .exiting ∨ y.pc = .gone)) (hashed : y.hashed = false → y.pc = .execElf)
    (meets : Meets s op) : Exact s op (set s t y) := by
  have ok : y.Ok := ⟨fun waiting => absurd waiting active.1, iff_of_false active.2 place, fun off => .inl (hashed off)⟩
  refine ⟨inv.set nonzero ok, fun holds => iff_of_true ?_ meets⟩
  exact holds.set_living active.2 fun waiting => absurd waiting active.1

theorem exact_fork {child : Nat} (inv : Inv s) (taken : exec s (.fork t child) = some s') :
    Exact s (.fork t child) s' := by
  obtain ⟨free, taken⟩ := ite_none_right_eq_some.mp taken
  obtain ⟨x, -, -, -, rfl⟩ := at_some taken
  exact exact_active inv free.1 (by simp [Task.Active]) (by simp) (by simp) trivial

theorem exact_dispatch (inv : Inv s) (taken : exec s (.dispatch t) = some s') : Exact s (.dispatch t) s' := by
  obtain ⟨x, found, ready, rfl⟩ := taken_if (p := fun x => x.status = .ready ∧ x.onCpu = false) taken
  have ok := inv.ok t x found
  refine exact_active inv (inv.ne_zero found) (by simp [Task.Active]) (by simpa [ready.1] using ok.dead) ?_ trivial
  exact fun off => (ok.unhashed off).resolve_right (by simp [ready.1])

theorem calm_switchOut (x : Task) : x.Calm x.switchOut := by
  refine ⟨rfl, fun waiting => ?_⟩
  unfold Task.switchOut at waiting
  split at waiting
  · cases waiting
  · exact ⟨waiting, rfl⟩

theorem switchOut_zombie (x : Task) : x.switchOut.status = .zombie ↔ x.status = .zombie := by
  unfold Task.switchOut
  split
  case isTrue running => simp [running]
  case isFalse => rfl

theorem Task.Ok.switchOut (ok : x.Ok) : x.switchOut.Ok := by
  constructor
  case waits =>
    intro waiting
    obtain ⟨hashed, place⟩ := ok.waits ((calm_switchOut x).2 waiting).1
    exact ⟨hashed, place.imp id fun off => ⟨rfl, off.2⟩⟩
  case dead =>
    rw [switchOut_zombie]
    exact ok.dead
  case unhashed =>
    rw [switchOut_zombie]
    exact ok.unhashed

theorem exact_tick (inv : Inv s) (taken : exec s (.tick t) = some s') : Exact s (.tick t) s' := by
  obtain ⟨x, found, -, rfl⟩ := taken_if (p := fun x => x.onCpu = true) taken
  refine ⟨inv.set (inv.ne_zero found) (inv.ok t x found).switchOut, fun holds => ?_⟩
  have lost : ¬x.switchOut.WillWake := fun wakes => Bool.false_ne_true wakes.1
  by_cases wakes : x.status = .zombie ∧ x.WillWake
  · rw [holds.set_lost_iff found wakes.1 (calm_switchOut x) ((switchOut_zombie x).mpr wakes.1) lost]
    constructor
    · intro nobody y same _ _
      exact nobody
    · exact fun meets => meets x found wakes.1 wakes.2
  · refine iff_of_true (holds.set found (calm_switchOut x) fun before zombie => ?_) ?_
    · exact absurd ⟨(switchOut_zombie x).mp zombie, before ((switchOut_zombie x).mp zombie)⟩ wakes
    · intro y same zombie will
      rw [found] at same
      cases same
      exact absurd ⟨zombie, will⟩ wakes

theorem exact_schedule (inv : Inv s) (taken : exec s (.schedule t) = some s') : Exact s (.schedule t) s' := by
  simp only [exec] at taken
  split at taken
  case h_1 => cases taken
  case h_2 x found =>
    have ok := inv.ok t x found
    split at taken
    case h_1 pid now =>
      obtain ⟨-, ⟨⟩⟩ := ite_none_right_eq_some.mp taken
      have alive : x.status ≠ .zombie := fun zombie => by
        have places := ok.dead.mp zombie
        simp [now] at places
      refine exact_set inv found (calm_switchOut x) ⟨?_, ?_, ?_⟩ (fun _ zombie => ?_) trivial
      · intro waiting
        exact ⟨((ok.switchOut).waits waiting).1, .inr ⟨rfl, pid, rfl⟩⟩
      · exact iff_of_false (fun zombie => alive ((switchOut_zombie x).mp zombie)) (by simp)
      · intro off
        exact absurd (ok.unhashed off) (by simp [now, alive])
      · exact absurd ((switchOut_zombie x).mp zombie) alive
    case h_2 now =>
      obtain ⟨-, ⟨⟩⟩ := ite_none_right_eq_some.mp taken
      refine exact_set inv found (calm_switchOut x) ok.switchOut (fun before zombie => ?_) trivial
      have will := before ((switchOut_zombie x).mp zombie)
      exact absurd will.2 (by simp [now])
    case h_3 => cases taken

theorem taken_waitOrReap (taken : exec s (.waitOrReap t) = some s') :
    ∃ x pid, s t = some x ∧ x.pc = .waitPid pid ∧ x.onCpu = true ∧ s' = waitOrReap s t x pid := by
  simp only [exec] at taken
  split at taken
  case h_1 => cases taken
  case h_2 x found =>
    split at taken
    case h_2 => cases taken
    case h_1 pid now =>
      obtain ⟨on, ⟨⟩⟩ := ite_none_right_eq_some.mp taken
      exact ⟨x, pid, found, now, on, rfl⟩

theorem exact_waitOrReap (inv : Inv s) (taken : exec s (.waitOrReap t) = some s') : Exact s (.waitOrReap t) s' := by
  obtain ⟨x, pid, found, now, on, rfl⟩ := taken_waitOrReap taken
  have ok := inv.ok t x found
  have nonzero := inv.ne_zero found
  have active := ok.active on (.inr (.inr ⟨pid, now⟩))
  have hashed : x.hashed = true := by
    by_contra off
    exact absurd (ok.unhashed (by simpa using off)) (by simp [now, active.2])
  unfold waitOrReap
  split
  case h_1 => exact exact_active inv nonzero active (by simp) (by simp [hashed]) trivial
  case h_2 target isTarget =>
    obtain ⟨isTarget, -⟩ := findPid_eq_some.mp isTarget
    split
    case isTrue => exact exact_active inv nonzero active (by simp) (by simp [hashed]) trivial
    case isFalse =>
      split
      case isTrue zombie =>
        unfold taskFree
        split
        case isTrue => exact exact_active inv nonzero active (by simp) (by simp [hashed]) trivial
        case isFalse off =>
          have freed : ({ target with hashed := false } : Task).Ok := by
            have old := inv.ok pid target isTarget
            exact ⟨fun waiting => absurd (zombie.symm.trans waiting) (by decide), old.dead, fun _ => .inr zombie⟩
          obtain ⟨inner, keeps⟩ : Exact s (.waitOrReap t) (set s pid { target with hashed := false }) :=
            exact_set inv isTarget ⟨rfl, fun waiting => ⟨waiting, rfl⟩⟩ freed id trivial
          obtain ⟨outer, returns⟩ : Exact _ (.waitOrReap t)
              (set (set s pid { target with hashed := false }) t { x with pc := .user }) :=
            exact_active inner nonzero active (by simp) (by simp [hashed]) trivial
          exact ⟨outer, fun holds => iff_of_true ((returns ((keeps holds).mpr trivial)).mpr trivial) trivial⟩
      -- The parent starts to wait, and its child is still alive.
      case isFalse living =>
        refine ⟨inv.set nonzero ⟨fun _ => ⟨hashed, .inl ⟨pid, rfl⟩⟩, by simp, by simp [hashed]⟩, fun holds =>
          iff_of_true (holds.set_living (by simp) fun _ child isChild => ?_) trivial⟩
        rw [isTarget] at isChild
        cases isChild
        exact living

theorem exact_exitSection (inv : Inv s) (taken : exec s (.exitSection t) = some s') : Exact s (.exitSection t) s' := by
  obtain ⟨x, found, on, now, rfl⟩ := at_some taken
  have ok := inv.ok t x found
  have zombie : x.status = .zombie := ok.dead.mpr (.inr (.inl now))
  have gone : ({ x with pc := .gone } : Task).Ok :=
    ⟨fun waiting => absurd (zombie.symm.trans waiting) (by decide), iff_of_true zombie (by simp), fun _ => .inr zombie⟩
  have lost : ¬({ x with pc := .gone } : Task).WillWake := fun wakes => by
    rcases wakes.2 with never | never <;> cases never
  have calm : x.Calm { x with pc := .gone } := ⟨rfl, fun waiting => ⟨waiting, rfl⟩⟩
  -- The parent is woken, or nobody is.
  rcases exitSection_cases inv found zombie with ⟨parent, isParent, waiting, other, hashed, eq⟩ | ⟨quiet, eq⟩
  · rw [eq]
    have okParent := inv.ok _ parent isParent
    obtain ⟨inner, keeps⟩ : Exact s (.waitOrReap t)
        (set s x.parentPid { parent with waitingPid := x.parentPid, status := .ready }) := by
      refine exact_active inv (inv.ne_zero isParent) (by simp [Task.Active]) (fun places => ?_) (fun off => ?_) trivial
      · exact absurd (okParent.dead.mpr places) (by simp [waiting])
      · exact absurd (okParent.waits waiting).1 (by simpa using off)
    have still : set s x.parentPid { parent with waitingPid := x.parentPid, status := .ready } t = some x := by
      rw [set_other (Ne.symm other)]
      exact found
    refine ⟨inner.set (inv.ne_zero found) gone, fun holds => iff_of_true ?_ ?_⟩
    · refine ((NoLostWait.set_lost_iff ((keeps holds).mpr trivial) still zombie calm zombie lost).mpr ?_)
      rintro ⟨child, awake, isChild, isAwake, waits, -⟩
      rw [still] at isChild
      cases isChild
      rw [set_self] at isAwake
      cases isAwake
      cases waits
    · intro y same off
      rw [found] at same
      cases same
      rw [hashed] at off
      cases off
  · rw [eq]
    refine ⟨inv.set (inv.ne_zero found) gone, fun holds => ?_⟩
    rw [holds.set_lost_iff found zombie calm zombie lost]
    constructor
    · exact fun nobody _ _ _ => nobody
    · intro meets
      exact quiet.elim (meets x found) id

theorem exact_step {op : Op} (inv : Inv s) (taken : step s op s') : Exact s op s' := by
  cases op with
  | fork t child => exact exact_fork inv taken
  | dispatch t => exact exact_dispatch inv taken
  | tick t => exact exact_tick inv taken
  | schedule t => exact exact_schedule inv taken
  | waitOrReap t => exact exact_waitOrReap inv taken
  | exitSection t => exact exact_exitSection inv taken
  | waitPid t pid =>
    obtain ⟨x, found, on, now, rfl⟩ := at_some taken
    have ok := inv.ok t x found
    have active := ok.active on (.inl now)
    refine exact_active inv (inv.ne_zero found) active (by simp) (fun off => ?_) trivial
    exact absurd (ok.unhashed off) (by simp [now, active.2])
  | execElf t =>
    obtain ⟨x, found, on, now, rfl⟩ := at_some taken
    exact exact_active inv (inv.ne_zero found) ((inv.ok t x found).active on (.inl now)) (by simp)
      (fun _ => rfl) trivial
  | execReturns t =>
    obtain ⟨x, found, on, now, rfl⟩ := at_some taken
    exact exact_active inv (inv.ne_zero found) ((inv.ok t x found).active on (.inr (.inl now)))
      (by simp) (by simp) trivial
  | execFails t =>
    obtain ⟨x, found, on, now, rfl⟩ := at_some taken
    exact exact_set inv found ⟨rfl, by simp⟩ ⟨by simp, by simp, fun _ => .inr rfl⟩ (fun _ _ => ⟨on, .inr rfl⟩) trivial
  | doExit t =>
    obtain ⟨x, found, on, now, rfl⟩ := at_some taken
    exact exact_set inv found ⟨rfl, by simp⟩ ⟨by simp, by simp, fun _ => .inr rfl⟩ (fun _ _ => ⟨on, .inl rfl⟩) trivial
  | exit t =>
    obtain ⟨x, found, now, rfl⟩ := taken_if (p := fun x => x.onCpu = true ∧ (x.pc = .user ∨ x.pc = .doExit)) taken
    exact exact_set inv found ⟨rfl, by simp⟩ ⟨by simp, by simp, fun _ => .inr rfl⟩
      (fun _ _ => ⟨now.1, .inr rfl⟩) trivial

theorem Inv.start : Inv start := by
  constructor
  case zero => rfl
  case ok =>
    intro t x found
    unfold Tasks.start at found
    rcases of_update found with ⟨-, here⟩ | ⟨-, found⟩
    · cases here
      exact ⟨by simp, by simp, by simp⟩
    · cases found

/-- In every run no parent waits for a zombie that does not wake it any more, in none of its states,
exactly if no step leaves a zombie that its parent waits for without its wake step. -/
theorem lost_wait_iff {es : List (Sys × Op)} {s : Sys} (run : Run step start es s) :
    (NoLostWait s ∧ ∀ e ∈ es, NoLostWait e.1) ↔ ∀ e ∈ es, Meets e.1 e.2 := by
  have initial : NoLostWait start := by
    intro c waits child isChild zombie
    unfold start at isChild
    rcases of_update isChild with ⟨-, here⟩ | ⟨-, isChild⟩
    · cases here
      cases zombie
    · cases isChild
  exact run.forall_states_iff (I := Inv) Inv.start (fun _ _ _ inv taken => (exact_step inv taken).1) initial
    (fun _ _ _ inv holds taken => (exact_step inv taken).2 holds)

/-- A task forks a child and waits for it, and the child gets the processor. -/
def waitForChild : List Op := [.fork 2 3, .waitPid 2 3, .waitOrReap 2, .schedule 2, .dispatch 3]

def childExits : List Op := waitForChild ++ [.exit 3, .exitSection 3, .schedule 3]

def childPreempted : List Op := waitForChild ++ [.exit 3, .tick 3]

/-- The child exits, and wakes its parent. -/
theorem child_wakes_parent : ∃ es s, Run step start es s ∧
    es.map Prod.snd = childExits ∧ (s 2).map Task.status = some .ready ∧ NoLostWait s := by
  have values : (childExits.foldlM (guarded exec Meets) start).map
    (fun s => (s 2).map Task.status) = some (some .ready) := by decide +kernel
  obtain ⟨s, ends, value⟩ := map_eq_some_iff.mp values
  obtain ⟨es, run, ops, meets⟩ := exists_run_of_foldlM ends
  exact ⟨es, s, run, ops, value, ((lost_wait_iff run).mpr meets).1⟩

/-- The child becomes a zombie in `jlos_process_exit`, and a tick takes the processor from it: its
parent waits, and nobody is going to wake it. -/
theorem zombie_preempted : ∃ es s, Run step start es s ∧ es.map Prod.snd = childPreempted ∧ ¬NoLostWait s := by
  have values : (childPreempted.foldlM (guarded exec fun _ _ => True) start).map (fun s => (s 2, s 3)) =
        some (some ⟨.waiting, 0, 3, true, false, .waitPid 3⟩, some ⟨.zombie, 2, 3, true, false, .exiting⟩) := by
    decide +kernel
  obtain ⟨s, ends, value⟩ := map_eq_some_iff.mp values
  obtain ⟨es, run, ops, -⟩ := exists_run_of_foldlM ends
  obtain ⟨isParent, isChild⟩ := Prod.mk.inj value
  refine ⟨es, s, run, ops, fun holds => ?_⟩
  have wakes := holds 3 ⟨_, _, isChild, isParent, rfl, rfl⟩ _ isChild rfl
  exact Bool.false_ne_true wakes.1

end Jlos.Tasks
