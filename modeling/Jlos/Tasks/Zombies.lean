import Jlos.Lib.Run

/-!
# Who frees a zombie

A shallow embedding of what `jlos_process_exit`, `jlos_task_wait_or_reap`,
`jlos_task_reap_all_zombies` and the part of `jlos_task_manager_schedule` that frees zombies
(`kernel/multitask.c`) do to the task table.
-/
namespace Jlos.Zombies

open Lib Function List Option

inductive Life
  | live
  /-- `JLOS_TASK_ZOMBIE`, and whether the task is on the list of `zombie_head`. -/
  | zombie (listed : Bool)
  deriving DecidableEq

structure Task where
  parentPid : Nat
  life : Life
  deriving DecidableEq

/-- The tasks by their `pid`, for the table and `pid_hash`. -/
abbrev Table := Nat → Option Task

def live (s : Table) (pid : Nat) : Bool := (s pid).any fun x => x.life = .live

/-- `task_free_locked` for the tasks of a class. -/
def freeIf (s : Table) (p : Nat → Task → Bool) : Table := fun t => (s t).filter fun x => !p t x

/-- `jlos_task_wait_or_reap`; `inUse` is `jlos_hal_is_task_in_use`. -/
def waitOrReap (s : Table) (parent pid : Nat) (inUse : Nat → Bool) : Int × Table :=
  match s pid with
  | none => (-3, s)
  | some target =>
    if target.parentPid ≠ parent then (-4, s)
    else if target.life ≠ .live then (pid, freeIf s fun t _ => t == pid && !inUse t)
    else (0, s)

/-- `jlos_task_reap_all_zombies`, which leaves the first task of the table out, and the kernel
threads that `jlos_kthread_can_release` does not let go. -/
def reapAllZombies (s : Table) (inUse canRelease : Nat → Bool) : Table :=
  freeIf s fun t x => x.life ≠ .live && t != 0 && !inUse t && canRelease t

/-- The walk of `jlos_task_manager_schedule` over the zombie list. -/
def schedule (s : Table) (prev : Nat) (inUse : Nat → Bool) : Table :=
  freeIf s fun t x => x.life = .zombie true && t != prev && !inUse t

def processExit (s : Table) (t : Nat) (x : Task) : Table :=
  let s' := update s t (some { x with life := .zombie false })
  if live s' x.parentPid then s' else update s' t (some { x with life := .zombie true })

inductive Op
  | fork (t child : Nat)
  | exit (t : Nat)
  | wait (t pid : Nat) (inUse : Nat → Bool)
  | schedule (prev : Nat) (inUse : Nat → Bool)
  | reapAllZombies (inUse canRelease : Nat → Bool)

def exec (s : Table) : Op → Option Table
  | .fork t child => if live s t ∧ s child = none then some (update s child (some ⟨t, .live⟩)) else none
  | .exit t => (s t).bind fun x => if x.life = .live then some (processExit s t x) else none
  | .wait t pid inUse => if live s t then some (waitOrReap s t pid inUse).2 else none
  | .schedule prev inUse => some (schedule s prev inUse)
  | .reapAllZombies inUse canRelease => some (reapAllZombies s inUse canRelease)

def step (s : Table) (op : Op) (s' : Table) : Prop := exec s op = some s'

/-- Each zombie has a live parent whose wait for it succeeds, or is on the list and is freed with
it. -/
def Reachable (s : Table) : Prop :=
  ∀ t p listed, s t = some ⟨p, .zombie listed⟩ →
    (live s p = true ∧ ∀ inUse, (waitOrReap s p t inUse).1 = t) ∨
      (listed = true ∧ ∀ prev inUse, prev ≠ t → inUse t = false → schedule s prev inUse t = none)

/-- A task exits only when its zombie children are all on the list: it has waited for the others. -/
def Meets (s : Table) : Op → Prop
  | .exit t => ∀ c listed, s c = some ⟨t, .zombie listed⟩ → listed = true
  | _ => True

variable {s s' : Table} {t : Nat}

/-- Both ways to free a zombie work, so only the parent and the list count. -/
theorem reachable_iff : Reachable s ↔ ∀ t p, s t = some ⟨p, .zombie false⟩ → live s p = true := by
  constructor
  · intro reach t p found
    obtain ⟨parent, -⟩ | ⟨listed, -⟩ := reach t p false found
    · exact parent
    · cases listed
  · intro held t p listed found
    cases listed with
    | false => exact .inl ⟨held t p found, fun inUse => by simp [waitOrReap, found]⟩
    | true =>
      refine .inr ⟨rfl, fun prev inUse other free => ?_⟩
      simp [schedule, freeIf, found, Ne.symm other, free]

theorem live_iff : live s t = true ↔ ∃ x, s t = some x ∧ x.life = .live := by
  cases found : s t with
  | none => simp [live, found]
  | some x => simp [live, found]

theorem live_update_of_ne {p : Nat} (other : p ≠ t) (x : Option Task) : live (update s t x) p = live s p := by
  simp [live, update_of_ne other]

/-- Only zombies are freed: no task loses a live parent. -/
theorem Reachable.freeIf (reach : Reachable s) {q : Nat → Task → Bool}
    (zombies : ∀ t x, s t = some x → q t x = true → x.life ≠ .live) : Reachable (freeIf s q) := by
  refine reachable_iff.mpr fun t p found => ?_
  obtain ⟨old, -⟩ := filter_eq_some_iff.mp found
  obtain ⟨parent, there, alive⟩ := live_iff.mp (reachable_iff.mp reach t p old)
  refine live_iff.mpr ⟨parent, filter_eq_some_iff.mpr ⟨there, ?_⟩, alive⟩
  rw [Bool.not_eq_true']
  exact Bool.eq_false_iff.mpr fun freed => zombies p parent there freed alive

theorem Reachable.waitOrReap (reach : Reachable s) (parent pid : Nat) (inUse : Nat → Bool) :
    Reachable (waitOrReap s parent pid inUse).2 := by
  unfold Zombies.waitOrReap
  split
  next => exact reach
  next target found =>
    split
    next => exact reach
    next =>
      split
      next dead =>
        refine reach.freeIf fun t x there freed => ?_
        obtain rfl : t = pid := by simpa using And.left (by simpa using freed)
        rw [found] at there
        exact some.inj there ▸ dead
      next => exact reach

/-- The child is new: a zombie whose parent had its `pid` is on the list. -/
theorem Reachable.fork (reach : Reachable s) {child : Nat} (new : s child = none) (t : Nat) :
    Reachable (update s child (some ⟨t, .live⟩)) := by
  refine reachable_iff.mpr fun c p found => ?_
  have other : c ≠ child := by
    rintro rfl
    rw [update_self] at found
    cases found
  rw [update_of_ne other] at found
  have parent := reachable_iff.mp reach c p found
  by_cases here : p = child
  · rw [live, here, new] at parent
    cases parent
  · rwa [live_update_of_ne here]

theorem processExit_of_ne {c : Nat} (other : c ≠ t) (x : Task) : processExit s t x c = s c := by
  unfold processExit
  split <;> simp [update_of_ne other]

theorem processExit_self (t : Nat) (x : Task) :
    processExit s t x t = some { x with life := .zombie (!decide (x.parentPid ≠ t ∧ live s x.parentPid = true)) } := by
  unfold processExit
  by_cases own : x.parentPid = t
  · simp [own, live]
  · rw [live_update_of_ne own]
    split <;> simp_all

/-- The children of a task that exits lose their live parent. -/
theorem reachable_processExit_iff (reach : Reachable s) {x : Task} (found : s t = some x)
    (alive : x.life = .live) : Reachable (processExit s t x) ↔ Meets s (.exit t) := by
  have dead : live (processExit s t x) t = false := by rw [live, processExit_self]; rfl
  have others : ∀ p, p ≠ t → live (processExit s t x) p = live s p := by
    intro p other
    rw [live, processExit_of_ne other, live]
  rw [reachable_iff]
  constructor
  · intro held c listed child
    have other : c ≠ t := by
      rintro rfl
      rw [found] at child
      cases child
      cases alive
    cases listed with
    | true => rfl
    | false =>
      have parent := held c t (by rw [processExit_of_ne other, child])
      rw [dead] at parent
      cases parent
  · intro meets c p zombie
    obtain rfl | own := eq_or_ne c t
    · rw [processExit_self] at zombie
      obtain ⟨rfl, kept⟩ : x.parentPid = p ∧ _ := by simpa using zombie
      rw [others _ kept.1]
      exact kept.2
    · rw [processExit_of_ne own] at zombie
      have parent := reachable_iff.mp reach c p zombie
      obtain rfl | here := eq_or_ne p t
      · cases meets c false zombie
      · rwa [others p here]

theorem reachable_step_iff (reach : Reachable s) {op : Op} (taken : step s op s') : Reachable s' ↔ Meets s op := by
  cases op with
  | fork t child =>
    obtain ⟨⟨-, new⟩, rfl⟩ : (live s t = true ∧ s child = none) ∧ _ = s' := by simpa [step, exec] using taken
    exact iff_of_true (reach.fork new t) trivial
  | exit t =>
    obtain ⟨x, found, alive, rfl⟩ : ∃ x, s t = some x ∧ x.life = .live ∧ processExit s t x = s' := by
      simpa [step, exec, bind_eq_some_iff] using taken
    exact reachable_processExit_iff reach found alive
  | wait t pid inUse =>
    obtain ⟨-, rfl⟩ : live s t = true ∧ (waitOrReap s t pid inUse).2 = s' := by simpa [step, exec] using taken
    exact iff_of_true (reach.waitOrReap t pid inUse) trivial
  | schedule prev inUse =>
    cases taken
    refine iff_of_true (reach.freeIf fun t x _ freed alive => ?_) trivial
    simp [alive] at freed
  | reapAllZombies inUse canRelease =>
    cases taken
    refine iff_of_true (reach.freeIf fun t x _ freed alive => ?_) trivial
    simp [alive] at freed

/-! ### Histories without end -/

/-- A parent that stays alive waits for each of its zombie children at a time when the child is not
in use, and the scheduler comes by each zombie of the list at such a time. -/
structure Fair (states : Nat → Table) (ops : Nat → Op) : Prop where
  parent : ∀ n t p, states n t = some ⟨p, .zombie false⟩ → (∀ m ≥ n, live (states m) p = true) →
    ∃ m ≥ n, ∃ inUse, ops m = .wait p t inUse ∧ inUse t = false
  scheduler : ∀ n t p, states n t = some ⟨p, .zombie true⟩ →
    ∃ m ≥ n, ∃ prev inUse, ops m = .schedule prev inUse ∧ prev ≠ t ∧ inUse t = false

private theorem freeIf_cases (s : Table) (q : Nat → Task → Bool) (t : Nat) :
    freeIf s q t = s t ∨ freeIf s q t = none := by
  cases found : s t with
  | none => simp [freeIf, found]
  | some x => cases kept : q t x <;> simp [freeIf, found, kept]

/-- A zombie stays as it is until it is freed. -/
private theorem zombie_kept {p : Nat} {listed : Bool} (found : s t = some ⟨p, .zombie listed⟩)
    {op : Op} (taken : step s op s') : s' t = s t ∨ s' t = none := by
  cases op with
  | fork parent child =>
    obtain ⟨⟨-, new⟩, rfl⟩ : (live s parent = true ∧ s child = none) ∧ _ = s' := by
      simpa [step, exec] using taken
    refine .inl (update_of_ne ?_ _ _)
    rintro rfl
    rw [found] at new
    cases new
  | exit t' =>
    obtain ⟨x, there, alive, rfl⟩ : ∃ x, s t' = some x ∧ x.life = .live ∧ processExit s t' x = s' := by
      simpa [step, exec, bind_eq_some_iff] using taken
    refine .inl (processExit_of_ne ?_ x)
    rintro rfl
    rw [found] at there
    cases there
    cases alive
  | wait parent pid inUse =>
    obtain ⟨-, rfl⟩ : live s parent = true ∧ (waitOrReap s parent pid inUse).2 = s' := by
      simpa [step, exec] using taken
    unfold waitOrReap
    split
    · exact .inl rfl
    · split
      · exact .inl rfl
      · split
        · apply freeIf_cases
        · exact .inl rfl
  | schedule prev inUse =>
    cases taken
    exact freeIf_cases ..
  | reapAllZombies inUse canRelease =>
    cases taken
    exact freeIf_cases ..

section history

variable {states : Nat → Table} {ops : Nat → Op} (steps : ∀ n, step (states n) (ops n) (states (n + 1)))
include steps

/-- A zombie that is never freed is there for good. -/
private theorem zombie_stays {n p : Nat} {listed : Bool} (found : states n t = some ⟨p, .zombie listed⟩)
    (never : ∀ m ≥ n, states m t ≠ none) {m : Nat} (later : n ≤ m) :
    states m t = some ⟨p, .zombie listed⟩ := by
  induction m, later using Nat.le_induction with
  | base => exact found
  | succ m le ih =>
    rcases zombie_kept ih (steps m) with same | gone
    · rw [same, ih]
    · exact absurd gone (never (m + 1) (by omega))

/-- In a fair history in which every task has waited for its zombie children when it exits, no
zombie stays in the table forever. -/
theorem zombie_freed (reach : ∀ n, Reachable (states n)) (fair : Fair states ops) {n p : Nat}
    {listed : Bool} (found : states n t = some ⟨p, .zombie listed⟩) : ∃ m ≥ n, states m t = none := by
  by_contra never
  push Not at never
  have stays (m : Nat) (later : m ≥ n) := zombie_stays steps found never later
  cases listed with
  | false =>
    have parent (m : Nat) (later : m ≥ n) := reachable_iff.mp (reach m) t p (stays m later)
    obtain ⟨m, later, inUse, waits, idle⟩ := fair.parent n t p found parent
    have taken := steps m
    rw [waits, step, exec, if_pos (parent m later)] at taken
    refine never (m + 1) (by omega) ?_
    simp [← some.inj taken, waitOrReap, stays m later, freeIf, idle]
  | true =>
    obtain ⟨m, later, prev, inUse, runs, other, idle⟩ := fair.scheduler n t p found
    have taken := steps m
    rw [runs, step, exec] at taken
    refine never (m + 1) (by omega) ?_
    simp [← some.inj taken, schedule, stays m later, freeIf, idle, Ne.symm other]

end history

/-- From a table without zombies, every zombie stays in reach of its parent or of the scheduler
exactly if every task that exits has waited for its zombie children; and then no zombie stays in the
table forever, as long as parents wait and the scheduler runs when the zombies are not in use. -/
theorem zombies_reachable_iff {start : Table} (none : ∀ t p l, start t ≠ some ⟨p, .zombie l⟩) :
    (∀ es s, Run step start es s →
      ((Reachable s ∧ ∀ e ∈ es, Reachable e.1) ↔ ∀ e ∈ es, Meets e.1 e.2)) ∧
    ∀ states ops, states 0 = start → (∀ n, step (states n) (ops n) (states (n + 1))) →
      (∀ n, Meets (states n) (ops n)) → Fair states ops →
      ∀ n t p listed, states n t = some ⟨p, .zombie listed⟩ → ∃ m ≥ n, states m t = Option.none := by
  have initial : Reachable start := fun t p l found => absurd found (none t p l)
  refine ⟨fun es s run => ?_, fun states ops first steps meets fair n t p listed found => ?_⟩
  · exact Run.forall_states_iff (I := fun _ => True) trivial (fun _ _ _ _ _ => trivial) initial
      (fun _ _ _ _ reach taken => reachable_step_iff reach taken) run
  · have reach (n : Nat) : Reachable (states n) := by
      induction n with
      | zero => exact first ▸ initial
      | succ n ih => exact (reachable_step_iff ih (steps n)).mpr (meets n)
    exact zombie_freed steps reach fair found

def boot : Table := update (fun _ => none) 0 (some ⟨0, .live⟩)

theorem boot_no_zombie (t p : Nat) (l : Bool) : boot t ≠ some ⟨p, .zombie l⟩ := by
  obtain rfl | first := eq_or_ne t 0
  · simp [boot]
  · simp [boot, update_of_ne first]

/-- A child exits and its parent waits for it; from then on only the scheduler runs. -/
def oneChild : Nat → Table
  | 1 => update boot 1 (some ⟨0, .live⟩)
  | 2 => update boot 1 (some ⟨0, .zombie false⟩)
  | _ => boot

def oneChildOps : Nat → Op
  | 0 => .fork 0 1
  | 1 => .exit 1
  | 2 => .wait 0 1 fun _ => false
  | _ + 3 => .schedule 0 fun _ => false

private theorem oneChild_zombie {n t p : Nat} {listed : Bool}
    (found : oneChild n t = some ⟨p, .zombie listed⟩) : n = 2 ∧ t = 1 ∧ p = 0 ∧ listed = false := by
  match n with
  | 0 | _ + 3 => exact absurd found (boot_no_zombie t p listed)
  | 1 | 2 =>
    rcases of_update found with ⟨here, eq⟩ | ⟨-, old⟩
    · cases eq <;> exact ⟨rfl, here, rfl, rfl⟩
    · exact absurd old (boot_no_zombie t p listed)

theorem only_child_freed : oneChild 2 1 = some ⟨0, .zombie false⟩ ∧ Reachable (oneChild 2) ∧
    ∃ m ≥ 2, oneChild m 1 = none := by
  have steps (n : Nat) : step (oneChild n) (oneChildOps n) (oneChild (n + 1)) := by
    match n with
    | 0 => rfl
    | 1 => simp [step, oneChild, oneChildOps, exec, processExit, live, boot]
    | 2 =>
      refine congrArg some (funext fun t => ?_)
      obtain rfl | other := eq_or_ne t 1
      · rfl
      · cases old : boot t <;>
          simp [oneChild, waitOrReap, freeIf, old, other]
    | n + 3 =>
      refine congrArg some (funext fun t => ?_)
      obtain rfl | other := eq_or_ne t 0
      · rfl
      · simp [oneChild, schedule, freeIf, boot, update_of_ne other]
  have meets (n : Nat) : Meets (oneChild n) (oneChildOps n) := by
    match n with
    | 1 => exact fun c listed found => absurd (oneChild_zombie found).1 (by decide)
    | 0 | 2 | _ + 3 => trivial
  have fair : Fair oneChild oneChildOps := by
    constructor
    · intro n t p found _
      obtain ⟨rfl, rfl, rfl, -⟩ := oneChild_zombie found
      exact ⟨2, le_refl _, _, rfl, rfl⟩
    · intro n t p found
      cases (oneChild_zombie found).2.2.2
  obtain ⟨reach, freed⟩ := @zombies_reachable_iff boot boot_no_zombie
  refine ⟨rfl, ?_, freed oneChild oneChildOps rfl steps meets fair 2 1 0 false rfl⟩
  have run := (Run.start.snoc (steps 0)).snoc (steps 1)
  refine ((reach _ _ run).mpr fun e mem => ?_).1
  rcases mem_append.mp mem with first | second
  · rw [mem_singleton.mp first]
    exact meets 0
  · rw [mem_singleton.mp second]
    exact meets 1

/-- A child exits before its parent, which exits without a wait: no list has the child, and its
parent is a zombie. -/
theorem grandchild_lost :
    ∃ es s, Run step boot es s ∧ s 1 = some ⟨0, .zombie false⟩ ∧ s 2 = some ⟨1, .zombie false⟩ ∧ ¬Reachable s := by
  have last : ([.fork 0 1, .fork 1 2, .exit 2, .exit 1].foldlM (guarded exec fun _ _ => True) boot).map
      (fun s => (s 1, s 2)) = some (some ⟨0, .zombie false⟩, some ⟨1, .zombie false⟩) := by decide +kernel
  obtain ⟨s, ends, tasks⟩ := map_eq_some_iff.mp last
  obtain ⟨es, run, -, -⟩ := exists_run_of_foldlM ends
  obtain ⟨parent, child⟩ := Prod.mk.inj tasks
  refine ⟨es, s, run, parent, child, fun reach => ?_⟩
  have alive := reachable_iff.mp reach 2 1 child
  rw [live, parent] at alive
  cases alive

end Jlos.Zombies
