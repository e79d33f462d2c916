import Jlos.Lib.Placed
import Jlos.Lib.Run
import Jlos.Lib.Slots

/-!
# The task table

A shallow embedding of `jlos_task_manager_add_task`, `task_free_locked` and `jlos_process_exec_elf`
(`kernel/multitask.c`), as far as the table and `pid_hash` are concerned.
-/
namespace Jlos.TaskTable

open Lib List Option
open Function (update update_apply update_idem)

/-- The table, the chains of `pid_hash`, and the fields of the tasks by their addresses; an address
without a `pid` is that of no task. -/
structure Sys where
  tasks : Nat → Option Nat
  numTasks : Nat
  maxTasks : Nat
  chains : Nat → List Nat
  pid : Nat → Option Nat
  slotIdx : Nat → Option Nat
  /-- The chain that `pid_hash_node` is linked in. -/
  node : Nat → Option Nat

/-- What the steps of `jlos_process_exec_elf` that can fail answer; a task that has a stack needs
none. -/
structure Answers where
  file : Bool
  stack : Bool
  mm : Bool
  elf : Bool
  userStack : Bool

def Answers.succeeds (a : Answers) : Bool := a.stack && a.mm && a.elf && a.userStack

inductive Op
  /-- `jlos_task_manager_add_task` for a fork or a new thread, and whether a full table can grow -/
  | addTask (t pid : Nat) (grow : Bool)
  /-- `task_free_locked`; `inUse` is `jlos_hal_is_task_in_use`. -/
  | free (t : Nat) (inUse : Bool)
  | execElf (t : Nat) (answers : Answers)
  /-- `jlos_process_exit` -/
  | exit (t : Nat)

/-- `jlos_hash_uint32` with the mask of 256 buckets -/
def bucket (pid : Nat) : Nat := pid % 256

def hashChainInsert (s : Sys) (t pid : Nat) : Sys :=
  { s with
    chains := update s.chains (bucket pid) (t :: s.chains (bucket pid))
    node := update s.node t (some (bucket pid)) }

/-- `jlos_hash_chain_remove`; what it does through the old pointers of a node that was removed
before is not followed. -/
def hashChainRemove (s : Sys) (t : Nat) : Option Sys :=
  (s.node t).map fun b => { s with chains := update s.chains b ((s.chains b).erase t), node := update s.node t none }

def addTask (s : Sys) (t pid : Nat) (grow : Bool) : Sys :=
  if s.numTasks ≥ s.maxTasks ∧ grow = false then s
  else
    hashChainInsert
      { s with
        tasks := update s.tasks s.numTasks (some t)
        numTasks := s.numTasks + 1
        maxTasks := if s.numTasks ≥ s.maxTasks then 2 * s.maxTasks else s.maxTasks
        pid := update s.pid t (some pid)
        slotIdx := update s.slotIdx t (some s.numTasks) }
      t pid

/-- The last task of the table takes the place of the one that is freed. -/
def dropSlot (s : Sys) (t : Nat) : Sys :=
  match s.slotIdx t, s.tasks (s.numTasks - 1) with
  | some i, some last =>
    if i < s.numTasks ∧ s.tasks i = some t then
      { s with
        tasks := update (update s.tasks i (some last)) (s.numTasks - 1) none
        numTasks := s.numTasks - 1
        slotIdx := update s.slotIdx last (some i) }
    else s
  | _, _ => s

def taskFree (s : Sys) (t : Nat) (inUse : Bool) : Option Sys :=
  if inUse then some s
  else
    (hashChainRemove s t).map fun s =>
      let s := dropSlot s t
      { s with pid := update s.pid t none, slotIdx := update s.slotIdx t none }

def processExecElf (s : Sys) (t pid : Nat) (a : Answers) : Option Sys :=
  if !a.file then some s
  else (hashChainRemove s t).map fun s => if a.succeeds then hashChainInsert s t pid else s

/-- An exit leaves the task in the table and in the hash, as a zombie. -/
def exec (s : Sys) : Op → Option Sys
  | .addTask t pid grow => if s.pid t = none then some (addTask s t pid grow) else none
  | .free t inUse => (s.pid t).bind fun _ => taskFree s t inUse
  | .execElf t answers => (s.pid t).bind fun pid => processExecElf s t pid answers
  | .exit t => (s.pid t).map fun _ => s

def step (s : Sys) (op : Op) (s' : Sys) : Prop := exec s op = some s'

/-- What `jlos_task_manager_init` makes before it enters the idle task. -/
def empty : Sys := ⟨fun _ => none, 0, 256, fun _ => [], fun _ => none, fun _ => none, fun _ => none⟩

/-- `jlos_task_manager_init` enters the idle task in the same way, with 0 for its pid. -/
def boot : Sys := addTask empty 0 0 false

/-- The table is dense, its entries know their slots, and the hash has exactly the tasks of the
table, each once and under its pid. -/
structure Ok (s : Sys) : Prop where
  dense : ∀ i, s.tasks i ≠ none ↔ i < s.numTasks
  slots : ∀ i t, s.tasks i = some t → s.slotIdx t = some i
  hashed : ∀ t b, t ∈ s.chains b ↔ (∃ i, s.tasks i = some t) ∧ ∃ pid, s.pid t = some pid ∧ bucket pid = b
  once : ∀ b, (s.chains b).Nodup

/-- An exec that finds its file succeeds. -/
def Meets : Op → Prop
  | .execElf _ a => a.file = true → a.succeeds = true
  | .addTask .. | .free .. | .exit _ => True

/-- A task has a slot and is hashed under its pid, and an address without one has neither. -/
structure Inv (s : Sys) : Prop where
  table : Slots s.tasks s.numTasks s.slotIdx
  chains : Placed s.chains s.node
  slot : ∀ t, s.slotIdx t = none ↔ s.pid t = none
  node : ∀ t, s.node t = (s.pid t).map bucket

variable {s s' : Sys} {t pid : Nat}

theorem Inv.ok (inv : Inv s) : Ok s := by
  constructor
  case dense => exact inv.table.dense
  case slots => exact fun i t => (inv.table.slots i t).mp
  case once => exact inv.chains.nodup
  case hashed =>
    intro t b
    have listed : (∃ i, s.tasks i = some t) ↔ s.pid t ≠ none := by
      rw [ne_eq, ← inv.slot, ← ne_eq, ne_none_iff_exists']
      exact exists_congr fun i => inv.table.slots i t
    rw [inv.chains.mem, inv.node, listed, map_eq_some_iff]
    constructor
    · rintro ⟨pid, used, eq⟩
      exact ⟨by simp [used], pid, used, eq⟩
    · exact And.right

theorem Inv.addTask (inv : Inv s) (fresh : s.pid t = none) (pid : Nat) (grow : Bool) : Inv (addTask s t pid grow) := by
  unfold TaskTable.addTask
  split
  next => exact inv
  next =>
    constructor
    case table => exact inv.table.push ((inv.slot t).mpr fresh)
    case chains => exact inv.chains.insert (by rw [inv.node, fresh]; rfl)
    all_goals
      intro u
      simp only [hashChainInsert, update_apply]
      split
    case slot.isTrue => simp
    case slot.isFalse => exact inv.slot u
    case node.isTrue => rfl
    case node.isFalse => exact inv.node u

theorem Inv.linked (inv : Inv s) (used : s.pid t = some pid) : s.node t = some (bucket pid) := by
  rw [inv.node, used]
  rfl

theorem Inv.execElf (inv : Inv s) (used : s.pid t = some pid) {a : Answers} (met : Meets (.execElf t a))
    (taken : processExecElf s t pid a = some s') : Inv s' := by
  have linked := inv.linked used
  have off := inv.chains.remove linked
  unfold processExecElf at taken
  split at taken
  next =>
    cases taken
    exact inv
  next file =>
    rw [hashChainRemove, linked, map_some, map_some, if_pos (met (by simpa using file))] at taken
    cases taken
    -- the task is back in the chain it was taken out of
    have same : update (update s.node t none) t (some (bucket pid)) = s.node := by
      rw [update_idem, ← linked, Function.update_eq_self]
    have on := off.insert (c := bucket pid) (Function.update_self ..)
    constructor
    case table => exact inv.table
    case chains => exact on
    case slot => exact inv.slot
    case node => exact fun u => (congrFun same u).trans (inv.node u)

theorem Inv.free (inv : Inv s) (used : s.pid t = some pid) {inUse : Bool} (taken : taskFree s t inUse = some s') :
    Inv s' := by
  have linked := inv.linked used
  obtain ⟨i, slot⟩ := ne_none_iff_exists'.mp (mt (inv.slot t).mp (by simp [used]))
  have here := (inv.table.slots i t).mpr slot
  have lt := (inv.table.dense i).mp (by simp [here])
  obtain ⟨last, at_last⟩ := ne_none_iff_exists'.mp ((inv.table.dense (s.numTasks - 1)).mpr (by omega))
  unfold taskFree at taken
  split at taken
  next =>
    cases taken
    exact inv
  next =>
    simp only [hashChainRemove, linked, map_some, dropSlot, slot, at_last, here, lt, and_self, if_true] at taken
    cases taken
    constructor
    case table => exact inv.table.swap slot at_last
    case chains => exact inv.chains.remove linked
    all_goals
      intro u
      simp only [update_apply]
      split
    case slot.isTrue => simp
    case slot.isFalse =>
      split
      next moved =>
        -- the last task had a slot, so it has a pid
        have at_u := (inv.table.slots _ _).mp at_last
        rw [← moved] at at_u
        simp [← inv.slot, at_u]
      next => exact inv.slot u
    case node.isTrue => rfl
    case node.isFalse => exact inv.node u

theorem Inv.boot : Inv boot := by
  apply Inv.addTask
  case fresh => rfl
  case inv =>
    constructor
    case table => exact ⟨fun i => by simp [empty], fun i t => by simp [empty]⟩
    case chains => exact Placed.empty
    case slot => exact fun t => Iff.rfl
    case node => exact fun t => rfl

theorem Inv.step (inv : Inv s) {op : Op} (met : Meets op) (taken : step s op s') : Inv s' := by
  cases op with
  | addTask t pid grow =>
    simp only [TaskTable.step, TaskTable.exec] at taken
    split at taken
    next fresh =>
      cases taken
      exact inv.addTask fresh pid grow
    next => cases taken
  | free t inUse =>
    obtain ⟨pid, used, taken⟩ := bind_eq_some_iff.mp taken
    exact inv.free used taken
  | execElf t answers =>
    obtain ⟨pid, used, taken⟩ := bind_eq_some_iff.mp taken
    exact inv.execElf used met taken
  | exit t =>
    obtain ⟨pid, -, rfl⟩ := map_eq_some_iff.mp taken
    exact inv

/-- As long as every exec that finds its file succeeds, the table is dense, its entries know their
slots, and the hash has exactly its tasks. -/
theorem table_and_hash_agree {es : List (Sys × Op)} (run : Run step boot es s) (met : ∀ e ∈ es, Meets e.2) : Ok s := by
  have inv := Run.invariant_of_guard (G := fun _ op => Meets op) Inv.boot
    (fun _ _ _ inv met taken => inv.step met taken)
    run met
  exact inv.1.ok

/-- A task is added and executes another program. -/
theorem executing_task_hashed : ∃ es s, Run step boot es s ∧ s.tasks 1 = some 1 ∧ s.chains (bucket 1) = [1] ∧ Ok s := by
  have added : step boot (.addTask 1 1 false) _ := rfl
  have executed : step (addTask boot 1 1 false) (.execElf 1 ⟨true, true, true, true, true⟩) _ := rfl
  have run := (Run.start.snoc added).snoc executed
  refine ⟨_, _, run, rfl, rfl, table_and_hash_agree run ?_⟩
  simp only [nil_append, cons_append, mem_cons, not_mem_nil, or_false, forall_eq_or_imp, forall_eq]
  exact ⟨trivial, fun _ => rfl⟩

/-- The program of a task is not an ELF file: the task stays in the table, and the hash does not
have it. -/
theorem failed_exec_unhashed :
    ∃ es s, Run step boot es s ∧ s.tasks 1 = some 1 ∧ s.pid 1 = some 1 ∧ s.chains (bucket 1) = [] ∧ ¬Ok s := by
  have added : step boot (.addTask 1 1 false) _ := rfl
  have failed : step (addTask boot 1 1 false) (.execElf 1 ⟨true, true, true, false, true⟩) _ := rfl
  refine ⟨_, _, (Run.start.snoc added).snoc failed, rfl, rfl, rfl, fun ok => ?_⟩
  have hashed := (ok.hashed 1 (bucket 1)).mpr ⟨⟨1, rfl⟩, 1, rfl, rfl⟩
  cases hashed

end Jlos.TaskTable
