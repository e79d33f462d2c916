import Jlos.Workqueue.Flush

/-!
# Runs of a work queue

Every step of a caller, of a flush and of a worker keeps the order of the items, their marks and the
flushes.
-/
namespace Jlos.Workqueue

open Lib Function List Option

variable {n m : Nat} {es : List (Sys n m × Op n m)} {s s' : Sys n m} {t : Fin m} {c : Fin n} {w : Work m} {q : Cpu m}
  {x : Pc n}

/-- What holds in every run. -/
structure Inv (es : List (Sys n m × Op n m)) (s : Sys n m) : Prop where
  ordered : Ordered es s.perCpu
  answered : Returned es s.pc
  accounted : Accounted es s.perCpu s.pending s.pc
  flushing : Flushing es s.perCpu s.done s.pc

theorem Inv.start (n m : Nat) : Inv [] (start n m) := by
  constructor
  case ordered => exact ⟨fun _ => rfl, fun _ => rfl⟩
  case answered => exact fun _ => rfl
  case accounted =>
    constructor
    case marks =>
      intro w
      have nobody : carried (Workqueue.start n m).pc w = 0 := by
        rw [carried, tallyAt]
        exact Finset.sum_eq_zero fun _ _ => rfl
      have nowhere : waiting (Workqueue.start n m).perCpu w = 0 := tally_zero fun _ => rfl
      rw [nobody, nowhere]
      rfl
    case accepts =>
      intro w
      have none : cleared (Workqueue.start n m).perCpu w = 0 := tally_zero fun _ => rfl
      rw [none]
      rfl
  case flushing => exact fun _ => tally_zero fun _ => rfl

/-! ### Steps at a CPU -/

/-- A CPU whose worker and list have the same items. -/
structure Cpu.Alike (q old : Cpu m) : Prop where
  out : q.out = old.out
  current : q.worker.current = old.worker.current
  waiting : q.waiting = old.waiting
  cleared : q.worker.clearedItem = old.worker.clearedItem

theorem Cpu.alike_post (q : Cpu m) : q.post.Alike q := by
  have same : q.post.list = q.list := rfl
  have worker : q.post.worker = q.worker ∨ q.worker = .queued ∧ q.post.worker = .look := by
    simp only [Cpu.post]
    split
    · cases q.worker <;> simp [Worker.wake]
    · exact .inl rfl
  rcases worker with kept | ⟨before, after⟩
  · exact ⟨by rw [Cpu.out, kept, same, Cpu.out], by rw [kept], by rw [Cpu.waiting, kept, same,
      Cpu.waiting], by rw [kept]⟩
  · exact ⟨by rw [Cpu.out, after, same, Cpu.out, before]; rfl, by rw [before, after]; rfl,
      by rw [Cpu.waiting, after, same, Cpu.waiting, before]; rfl, by rw [before, after]; rfl⟩

theorem Cpu.out_addTail (q : Cpu m) (w : Work m) : (q.addTail w).out = q.out ++ [w] := by
  simp [Cpu.out, Cpu.addTail]

theorem Pc.wake_same (t : Fin m) (x : Pc n) :
    Pc.carried t x.wake = Pc.carried t x ∧ x.wake.unreturned t = x.unreturned t := by
  match x with
  | .idle | .marked _ _ | .linked _ _ | .flush _ => exact ⟨rfl, rfl⟩
  | .barrier i .marked | .barrier i .linked | .barrier i .wait | .barrier i .queued => exact ⟨rfl, rfl⟩

theorem postDone_eq (s : Sys n m) (t : Fin m) : postDone s t = { s with
      done := update s.done t (s.done t).post.2
      pc := update s.pc t (if (s.done t).post.1.isSome then (s.pc t).wake else s.pc t) } := by
  simp only [postDone]
  split
  · rfl
  · simp [Sys.setDone]

namespace Inv

variable (inv : Inv es s) {done : Fin m → Counting Unit} {op : Op n m}
include inv

theorem alike (alike : q.Alike (s.perCpu c)) (begins : started (s, .work c) = none)
    (ends : finished (s, .work c) = none) : Inv (es ++ [(s, .work c)]) (s.setCpu c q) where
  ordered := inv.ordered.setCpu rfl ends begins alike.out alike.current
  answered := inv.answered.quiet rfl rfl
  accounted := (inv.accounted.setCpu alike.waiting alike.cleared).quiet rfl begins
  flushing := inv.flushing.setCpu (by simp) ends alike.out

theorem clear (now : (s.perCpu c).worker = .unlinked w) :
    Inv (es ++ [(s, .work c)]) ((s.setPending w false).setCpu c { s.perCpu c with worker := .cleared w }) := by
  have begins : started (s, .work c) = none := by simp [started, now]
  have ends : finished (s, .work c) = none := by simp [finished, now]
  have out : ({ s.perCpu c with worker := .cleared w } : Cpu m).out = (s.perCpu c).out := by
    rw [Cpu.out, Cpu.out, now]
    rfl
  constructor
  case ordered => exact inv.ordered.setCpu rfl ends begins out (by rw [now]; rfl)
  case answered => exact inv.answered.quiet rfl rfl
  case accounted =>
    have before : (s.perCpu c).waiting = w :: ({ s.perCpu c with worker := .cleared w } : Cpu m).waiting := by
      rw [Cpu.waiting, now]
      rfl
    exact (inv.accounted.clear before (by rw [now]; rfl)).quiet rfl begins
  case flushing => exact inv.flushing.setCpu (by simp) ends out

theorem begin (now : (s.perCpu c).worker = .cleared w) :
    Inv (es ++ [(s, .work c)]) (s.setCpu c { s.perCpu c with worker := .running w }) := by
  have begins : started (s, .work c) = some (c, w) := by simp [started, now]
  have ends : finished (s, .work c) = none := by simp [finished, now]
  have out : ({ s.perCpu c with worker := .running w } : Cpu m).out = (s.perCpu c).out := by
    rw [Cpu.out, Cpu.out, now]
    rfl
  constructor
  case ordered =>
    refine inv.ordered.next (l := none) (f := none) (b := some w) rfl ends begins ?_ ?_
    · rw [out]
      exact append_nil _
    · rw [now]
      rfl
  case answered => exact inv.answered.quiet rfl rfl
  case accounted =>
    refine inv.accounted.start ?_ (by rw [now]; rfl) rfl begins
    rw [Cpu.waiting, Cpu.waiting, now]
    rfl
  case flushing => exact inv.flushing.setCpu (by simp) ends out

/-- What a worker leaves behind when its item is finished, and what its barrier changes for the
thread that waits. -/
theorem finish (now : (s.perCpu c).worker = .running w)
    {pc : Fin m → Pc n} (answered : Returned (es ++ [(s, .work c)]) pc) (accounted : Accounted es s.perCpu s.pending pc)
    (flushing : (s.perCpu c).out = w :: ({ s.perCpu c with worker := .look } : Cpu m).out →
      Flushing (es ++ [(s, .work c)]) (update s.perCpu c { s.perCpu c with worker := .look }) done pc) :
    Inv (es ++ [(s, .work c)]) ⟨update s.perCpu c { s.perCpu c with worker := .look }, s.pending, done, pc⟩ := by
  have begins : started (s, .work c) = none := by simp [started, now]
  have ends : finished (s, .work c) = some (c, w) := by simp [finished, now]
  have out : (s.perCpu c).out = w :: ({ s.perCpu c with worker := .look } : Cpu m).out := by
    rw [Cpu.out, Cpu.out, now]
    rfl
  constructor
  case ordered =>
    refine inv.ordered.next (l := none) (f := some w) (b := none) rfl ends begins ?_ ?_
    · rw [out]
      exact append_nil _
    · rw [now]
      rfl
  case answered => exact answered
  case accounted =>
    refine (accounted.setCpu ?_ ?_).quiet rfl begins
    · rw [Cpu.waiting, Cpu.waiting, now]
      rfl
    · rw [now]
      rfl
  case flushing => exact flushing out

theorem finish_item {id : Nat} (now : (s.perCpu c).worker = .running (.item id)) :
    Inv (es ++ [(s, .work c)]) (s.setCpu c { s.perCpu c with worker := .look }) := by
  refine inv.finish now (inv.answered.quiet rfl rfl) inv.accounted fun out => ?_
  refine inv.flushing.pass (by simp) fun u => ?_
  have ends : finished (s, .work c) = some (c, .item id) := by simp [finished, now]
  exact passes_finish out (by simp) (ends_finish ends)

theorem finish_barrier (now : (s.perCpu c).worker = .running (.barrier t)) :
    Inv (es ++ [(s, .work c)]) (postDone (s.setCpu c { s.perCpu c with worker := .look }) t) := by
  have finishes : finished (s, .work c) = some (c, .barrier t) := by simp [finished, now]
  have counted : ends (es ++ [(s, .work c)]) = update (ends es) c (ends es c + 1) := ends_finish finishes
  rw [postDone_eq]
  refine inv.finish now ?_ ?_ fun out => ?_
  · refine inv.answered.setPc rfl rfl ?_
    split
    · exact (Pc.wake_same t (s.pc t)).2
    · rfl
  · refine inv.accounted.setPc ?_
    split
    · exact (Pc.wake_same t (s.pc t)).1
    · rfl
  · refine inv.flushing.next (by simp) (fun u other => ?_) ((inv.flushing t).finish out counted)
    exact passes_finish out (by simpa using fun eq => other eq.symm) counted

theorem work (taken : workStep s c (s.perCpu c) = some s') : Inv (es ++ [(s, .work c)]) s' := by
  -- One case for each place of the worker, as `workStep` has them.
  cases now : (s.perCpu c).worker with
  | wait =>
    simp only [workStep, now, some.injEq] at taken
    subst taken
    refine inv.alike ?_ (by simp [started, now]) (by simp [finished, now])
    constructor <;> simp only [Cpu.out, Cpu.waiting, now] <;> split <;> rfl
  | queued => simp [workStep, now] at taken
  | look =>
    cases items : (s.perCpu c).list
    all_goals
      simp only [workStep, now, items, some.injEq] at taken
      subst taken
      refine inv.alike ?_ (by simp [started, now]) (by simp [finished, now])
      constructor <;> simp only [Cpu.out, Cpu.waiting, now, items] <;> rfl
  | unlinked w =>
    simp only [workStep, now, some.injEq] at taken
    exact taken ▸ inv.clear now
  | cleared w =>
    simp only [workStep, now, some.injEq] at taken
    exact taken ▸ inv.begin now
  | running w =>
    cases w with
    | item id =>
      simp only [workStep, now, some.injEq] at taken
      exact taken ▸ inv.finish_item now
    | barrier t =>
      simp only [workStep, now, some.injEq] at taken
      exact taken ▸ inv.finish_barrier now

/-! ### Steps of a thread -/

theorem link (links : linkedBy (s, .run t) = some (t, c, w)) (returns : returned (s, .run t) = none)
    (accepts : accepted (s, .run t) = none) (before : Pc.carried t (s.pc t) = [w]) (after : Pc.carried t x = [])
    (unreturned : (s.pc t).unreturned t = []) (now : x.unreturned t = [(c, w)]) (others : ∀ u, u ≠ t → w ≠ .barrier u)
    (own : Flow (owed t es) (ends es) (update s.perCpu c ((s.perCpu c).addTail w)) (s.done t) t x) :
    Inv (es ++ [(s, .run t)]) ((s.setCpu c ((s.perCpu c).addTail w)).setPc t x) := by
  constructor
  case ordered =>
    refine inv.ordered.next (l := some w) (f := none) (b := none) ?_ rfl rfl ?_ ?_
    · rw [linked, links]
      rfl
    · rw [Cpu.out_addTail]
      rfl
    · exact append_nil _
  case answered =>
    refine inv.answered.next (l := some (c, w)) (r := none) links returns ?_
    rw [unreturned, now]
    rfl
  case accounted => exact (inv.accounted.link before after).quiet accepts rfl
  case flushing =>
    have quiet : ends (es ++ [(s, .run t)]) = ends es := ends_quiet rfl
    refine inv.flushing.setPc (by simp) (fun u other => ?_) (quiet ▸ own)
    rw [quiet]
    exact passes_link (Cpu.out_addTail _ w) (others u other)

theorem post (links : linkedBy (s, .run t) = none) (returns : returned (s, .run t) = some (t, c, w))
    (accepts : accepted (s, .run t) = none) (carried : Pc.carried t x = Pc.carried t (s.pc t))
    (before : (s.pc t).unreturned t = [(c, w)]) (after : x.unreturned t = [])
    (own : ∀ {perCpu : Fin n → Cpu m}, Flow (owed t es) (ends es) perCpu (s.done t) t (s.pc t) →
      Flow (owed t es) (ends es) perCpu (s.done t) t x) :
    Inv (es ++ [(s, .run t)]) ((s.setCpu c (s.perCpu c).post).setPc t x) := by
  have same := (s.perCpu c).alike_post
  constructor
  case ordered => exact inv.ordered.setCpu (by rw [linked, links]; rfl) rfl rfl same.out same.current
  case answered =>
    refine inv.answered.next (l := none) (r := some (c, w)) links returns ?_
    rw [before, after]
    rfl
  case accounted => exact ((inv.accounted.setCpu same.waiting same.cleared).setPc carried).quiet accepts rfl
  case flushing =>
    have quiet : ends (es ++ [(s, .run t)]) = ends es := ends_quiet rfl
    refine inv.flushing.setPc (by simp) (fun u _ => ?_) ?_
    · rw [quiet]
      exact passes_same same.out
    · rw [quiet]
      exact own ((inv.flushing t).pass (passes_same same.out))

theorem quiet (silent : Silent (s, op))
    (carried : Pc.carried t x = Pc.carried t (s.pc t)) (unreturned : x.unreturned t = (s.pc t).unreturned t)
    (flushing : Flushing (es ++ [(s, op)]) s.perCpu done (update s.pc t x)) :
    Inv (es ++ [(s, op)]) ⟨s.perCpu, s.pending, done, update s.pc t x⟩ where
  ordered := inv.ordered.quiet silent
  answered := inv.answered.setPc silent.linkedBy silent.returned unreturned
  accounted := (inv.accounted.setPc carried).quiet silent.accepted silent.started
  flushing := flushing

theorem accept (links : linkedBy (s, op) = none) (returns : returned (s, op) = none)
    (accepts : accepted (s, op) = some w) (begins : started (s, op) = none) (ends : finished (s, op) = none)
    (free : s.pending w = false) (before : Pc.carried t (s.pc t) = []) (after : Pc.carried t x = [w])
    (unreturned : x.unreturned t = (s.pc t).unreturned t)
    (flushing : Flushing (es ++ [(s, op)]) s.perCpu done (update s.pc t x)) :
    Inv (es ++ [(s, op)]) ⟨s.perCpu, update s.pending w true, done, update s.pc t x⟩ := by
  constructor
  case ordered =>
    have links : linked (s, op) = none := by rw [linked, links]; rfl
    exact ⟨fun i => by simp [links, ends, inv.ordered.links i], fun i => by simp [begins, ends, inv.ordered.starts i]⟩
  case answered => exact inv.answered.setPc links returns unreturned
  case accounted => exact inv.accounted.accept free before after accepts begins
  case flushing => exact flushing

section

variable {i : Nat} (now : s.pc t = .flush i)
include now

theorem barrier_free : s.pending (.barrier t) = false := by
  have flow := inv.flushing t
  rw [now] at flow
  have carries : ∀ u, u ≠ t → (Pc.carried u (s.pc u)).count (Work.barrier t) = 0 := by
    intro u other
    rw [count_eq_zero]
    match s.pc u with
    | .idle | .linked _ _ | .flush _ | .barrier i .linked | .barrier i .wait | .barrier i .queued => simp [Pc.carried]
    | .marked _ _ => simp [Pc.carried]
    | .barrier i .marked => simpa [Pc.carried] using fun eq => other eq.symm
  have nobody : carried s.pc (.barrier t) = 0 := by
    have single : carried s.pc (.barrier t) = (Pc.carried t (s.pc t)).count (.barrier t) := tallyAt_single t carries
    rw [single, now]
    rfl
  have nowhere : waiting s.perCpu (.barrier t) = 0 := by
    refine tally_zero fun c => ?_
    have most := le_unfinished s.perCpu c (.barrier t)
    have out : (s.perCpu c).waiting.count (.barrier t) ≤ (s.perCpu c).out.count (.barrier t) := by
      rw [Cpu.waiting, Cpu.out, count_append, count_append, count_append]
      cases (s.perCpu c).worker <;> simp [Worker.unlinkedItem, Worker.held, Worker.current]
    have none := flow.1
    omega
  have marks := inv.accounted.marks (.barrier t)
  cases mark : s.pending (.barrier t) with
  | false => rfl
  | true =>
    rw [nobody, nowhere, mark] at marks
    cases marks

/-- A flush begins its next turn: its barrier is a new one, so the exchange finds it free. -/
theorem turn (h : i < n) : Inv (es ++ [(s, .run t)]) ⟨s.perCpu, update s.pending (.barrier t) true,
      update s.done t ⟨0, []⟩, update s.pc t (.barrier ⟨i, h⟩ .marked)⟩ := by
  refine inv.accept (by simp [linkedBy, now]) (by simp [returned, now]) (by simp [accepted, now, h]) rfl rfl
    (inv.barrier_free now) (by rw [now]; rfl) rfl (by rw [now]; rfl) ?_
  have flow := inv.flushing t
  rw [now] at flow
  exact inv.flushing.own (by simp) rfl ⟨flow.1, rfl, flow.2⟩

theorem leave (last : ¬i < n) : Inv (es ++ [(s, .run t)]) (s.setPc t .idle) := by
  have silent : Silent (s, .run t) :=
    ⟨by simp [linkedBy, now], by simp [returned, now], by simp [accepted, now, last], rfl, rfl⟩
  refine inv.quiet silent (by rw [now]; rfl) (by rw [now]; rfl) ?_
  have flow := inv.flushing t
  rw [now] at flow
  have own : Flushing (es ++ [(s, .run t)]) s.perCpu (update s.done t (s.done t)) (update s.pc t .idle) :=
    inv.flushing.own (by simp) rfl flow.1
  rwa [update_eq_self] at own

end

theorem wait {i : Fin n} (now : s.pc t = .barrier i .wait) :
    Inv (es ++ [(s, .run t)]) ((s.setDone t ((s.done t).wait ()).2).setPc t
      (if ((s.done t).wait ()).1 then .flush (i.val + 1) else .barrier i .queued)) := by
  have silent : Silent (s, .run t) :=
    ⟨by simp [linkedBy, now], by simp [returned, now], by simp [accepted, now], rfl, rfl⟩
  have flow := inv.flushing t
  rw [now] at flow
  refine inv.quiet silent ?_ ?_ ?_
  · rw [now]
    split <;> rfl
  · rw [now]
    split <;> rfl
  · exact inv.flushing.own (by simp) rfl flow.wait

theorem barrier {i : Fin n} {stage : Stage} (now : s.pc t = .barrier i stage)
    (taken : barrierStep s t i stage = some s') : Inv (es ++ [(s, .run t)]) s' := by
  have flow := inv.flushing t
  rw [now] at flow
  cases stage with
  | marked =>
    simp only [barrierStep, some.injEq] at taken
    subst taken
    obtain ⟨none, fresh, all⟩ := flow
    refine inv.link (by simp [linkedBy, now]) (by simp [returned, now]) (by simp [accepted, now]) (by rw [now]; rfl) rfl
      (by rw [now]; rfl) rfl (fun u other eq => other (Work.barrier.inj eq).symm) ⟨all, .inl ⟨?_, fresh⟩⟩
    exact standing_link none (owed_le inv.ordered t i) (Cpu.out_addTail _ _)
  | linked =>
    simp only [barrierStep, some.injEq] at taken
    subst taken
    refine inv.post (w := .barrier t) (by simp [linkedBy, now]) (by simp [returned, now]) (by simp [accepted, now])
      (by rw [now]; rfl) (by rw [now]; rfl) rfl ?_
    rw [now]
    exact fun flow => flow
  | wait =>
    simp only [barrierStep, some.injEq] at taken
    exact taken ▸ inv.wait now
  | queued => simp [barrierStep] at taken

theorem run (taken : runStep s t (s.pc t) = some s') : Inv (es ++ [(s, .run t)]) s' := by
  -- One case for each place of the thread, as `runStep` has them.
  cases now : s.pc t with
  | idle => simp [runStep, now] at taken
  | marked cpu id =>
    simp only [runStep, now, some.injEq] at taken
    subst taken
    have none := inv.flushing t
    rw [now] at none
    have passes : Passes (ends es) (ends es) s.perCpu (update s.perCpu cpu ((s.perCpu cpu).addTail (.item id))) t :=
      passes_link (Cpu.out_addTail _ _) (by simp)
    exact inv.link (by simp [linkedBy, now]) (by simp [returned, now]) (by simp [accepted, now]) (by rw [now]; rfl) rfl
      (by rw [now]; rfl) rfl (by simp) (passes.count.trans none)
  | linked cpu id =>
    simp only [runStep, now, some.injEq] at taken
    subst taken
    refine inv.post (w := .item id) (by simp [linkedBy, now]) (by simp [returned, now]) (by simp [accepted, now])
      (by rw [now]; rfl) (by rw [now]; rfl) rfl ?_
    rw [now]
    exact fun flow => flow
  | flush i =>
    by_cases h : i < n
    · simp only [runStep, now, dif_pos h, xchgPending, initBarrier, Sys.setPending, Sys.setDone, Sys.setPc,
        update_self, update_idem, some.injEq, Bool.false_eq_true, if_false] at taken
      exact taken ▸ inv.turn now h
    · simp only [runStep, now, dif_neg h, some.injEq] at taken
      exact taken ▸ inv.leave now h
  | barrier i stage =>
    simp only [runStep, now] at taken
    exact inv.barrier now taken

theorem queue {id : Nat} (taken : exec s (.queue t c id) = some s') : Inv (es ++ [(s, .queue t c id)]) s' := by
  have quiet : ends (es ++ [(s, .queue t c id)]) = ends es := ends_quiet rfl
  have passes : ∀ u, Passes (ends es) (ends (es ++ [(s, .queue t c id)])) s.perCpu s.perCpu u := by
    rw [quiet]
    exact passes_refl _ _
  cases now : s.pc t with
  | idle =>
    cases mark : s.pending (.item id) with
    | true =>
      have same : s.setPending (.item id) true = s := by
        rw [Sys.setPending, ← mark, update_eq_self]
      simp only [exec, now, xchgPending, mark, if_true, same, some.injEq] at taken
      subst taken
      have silent : Silent (s, .queue t c id) := ⟨rfl, rfl, by simp [accepted, mark], rfl, rfl⟩
      exact ⟨inv.ordered.quiet silent, inv.answered.quiet rfl rfl, inv.accounted.quiet silent.accepted rfl,
        inv.flushing.pass (by simp) passes⟩
    | false =>
      simp only [exec, now, xchgPending, mark, Bool.false_eq_true, if_false, some.injEq] at taken
      subst taken
      have flow := (inv.flushing t).pass (passes t)
      rw [now] at flow
      exact inv.accept rfl rfl (by simp [accepted, mark]) rfl rfl mark (by rw [now]; rfl) rfl (by rw [now]; rfl)
        (inv.flushing.setPc (by simp) (fun u _ => passes u) flow)
  | _ => simp [exec, now] at taken

theorem flush (taken : exec s (.flush t) = some s') : Inv (es ++ [(s, .flush t)]) s' := by
  cases now : s.pc t with
  | idle =>
    simp only [exec, now, some.injEq] at taken
    subst taken
    exact inv.quiet ⟨rfl, rfl, rfl, rfl, rfl⟩ (by rw [now]; rfl) (by rw [now]; rfl) (inv.flushing.call now rfl rfl)
  | _ => simp [exec, now] at taken

theorem step (taken : step s op s') : Inv (es ++ [(s, op)]) s' := by
  cases op with
  | queue t cpu id => exact inv.queue taken
  | flush t => exact inv.flush taken
  | run t => exact inv.run taken
  | work c => exact inv.work taken

end Inv

theorem inv_of_run (run : Run step (start n m) es s) : Inv es s :=
  run.history_invariant (Inv.start n m) fun _ _ _ _ inv taken => inv.step taken

/-- In every run of callers, workers and flushes: no item is linked twice; each CPU starts its items
in the order in which they were linked, all but the one that its worker holds and those still in the
list; a thread has linked what its calls returned true for, and what a call has linked that is about
to; a call is refused only while an earlier one for its item was accepted and the item not started
since; and when a flush returns, each CPU has finished what was linked to it before the flush. -/
theorem work_items (run : Run step (start n m) es s) :
    ((∀ c, (s.perCpu c).list.Nodup) ∧ ∀ c c' w, w ∈ (s.perCpu c).list → w ∈ (s.perCpu c').list → c = c') ∧
    (∀ c, ofThread c (es.filterMap linked) =
      ofThread c (es.filterMap started) ++ (s.perCpu c).worker.held ++ (s.perCpu c).list) ∧
    (∀ t, ofThread t (es.filterMap linkedBy) = ofThread t (es.filterMap returned) ++ (s.pc t).unreturned t) ∧
    (∀ op w, refused (s, op) = some w →
      ((es.filterMap started).map Prod.snd).count w < (es.filterMap accepted).count w) ∧
    ∀ t es₁ s₁ es₂, es = es₁ ++ (s₁, .flush t) :: es₂ → (∀ e ∈ es₂, e.2 ≠ .flush t) → Flushed s t →
      ∀ c, ofThread c (es₁.filterMap linked) <+: ofThread c (es.filterMap finished) := by
  have inv := inv_of_run run
  refine ⟨inv.accounted.linked_once, ?_, inv.answered, ?_, ?_⟩
  · intro c
    rw [inv.ordered.links c, inv.ordered.starts c, Cpu.out]
    simp
  · intro op w refuses
    cases op with
    | queue t cpu id =>
      cases mark : s.pending (.item id) with
      | true =>
        simp only [refused, mark, if_true, some.injEq] at refuses
        exact inv.accounted.not_started (refuses ▸ mark)
      | false => simp [refused, mark] at refuses
    | _ => cases refuses
  · rintro t es₁ s₁ es₂ split last ⟨i, leaves, most⟩ c
    have prior := inv.flushing.finished_of_flushed inv.ordered leaves most c
    have before : beforeFlush t es = es₁ := split ▸ beforeFlush_split rfl last
    rwa [before] at prior

local instance oneCpu : NeZero 1 := ⟨by decide⟩

local instance twoThreads : NeZero 2 := ⟨by decide⟩

/-- One thread queues an item, and another is refused; then the first flushes, up to its return. -/
def itemAndFlush : List (Op 1 2) :=
  [.queue 0 0 7, .queue 1 0 7, .run 0, .run 0, .flush 0, .run 0, .run 0, .run 0, .run 0, .work 0, .work 0, .work 0,
    .work 0, .work 0, .work 0, .work 0, .work 0, .work 0]

theorem item_finished_by_flush : ∃ es₁ s₁ es₂ s, Run step (start 1 2) (es₁ ++ (s₁, .flush 0) :: es₂) s ∧
    (es₁ ++ (s₁, .flush 0) :: es₂).map Prod.snd = itemAndFlush ∧ s.pc 0 = .flush 1 ∧
    ofThread 0 (es₁.filterMap linked) <+: ofThread 0 ((es₁ ++ (s₁, .flush 0) :: es₂).filterMap finished) := by
  have values : (itemAndFlush.foldlM (guarded exec fun _ _ => True) (start 1 2)).map (fun s => s.pc 0) =
      some (.flush 1) := by decide +kernel
  obtain ⟨s, ends, value⟩ := map_eq_some_iff.mp values
  obtain ⟨es, run, ops, -⟩ := exists_run_of_foldlM ends
  obtain ⟨es₁, rest, rfl, ops₁, more⟩ : ∃ l₁ l₂, es = l₁ ++ l₂ ∧ l₁.map Prod.snd = itemAndFlush.take 4 ∧
      l₂.map Prod.snd = .flush 0 :: itemAndFlush.drop 5 := map_eq_append_iff.mp ops
  obtain ⟨⟨s₁, _⟩, es₂, rfl, rfl, ops₂⟩ := map_eq_cons_iff.mp more
  refine ⟨es₁, s₁, es₂, s, run, ops, value, (work_items run).2.2.2.2 0 es₁ s₁ es₂ rfl ?_ ⟨1, value, le_refl 1⟩ 0⟩
  intro e mem
  have op : e.2 ∈ itemAndFlush.drop 5 := ops₂ ▸ mem_map_of_mem mem
  revert op
  generalize e.2 = op
  revert op
  decide

end Jlos.Workqueue
