import Jlos.Sync.Model

/-!
# Who owns a mutex

As long as nobody wakes a task out of a wait queue, `jlos_mutex_lock` returns to owners only.
-/
namespace Jlos.Sync

open Lib Function List BitVec

/-- No wakeup by a kill or a stop hits a task whose `wait_node` is linked, and no owner locks a
mutex for the 2³²th time. -/
def Op.Calm (sys : Sys) : Op → Prop
  | .kill current t => t ≠ current → ¬sys.Linked t
  | .stop _ t => ¬sys.Linked t
  | .lock t m => (sys.state.mutexes m).owner = some t → (sys.state.mutexes m).recursion ≠ BitVec.allOnes 32
  | _ => True

structure Inv (sys : Sys) (queue : Nat → List Nat) : Prop where
  ring : ∀ m, sys.state.links.Ring (.queue m) ((queue m).map .task)
  loose : ∀ t, (∀ m, t ∉ queue m) → ¬sys.Linked t
  queued : ∀ {m t}, t ∈ queue m → sys.pc t = .inLock m ∧ (sys.state.tasks t).status = .blocked
  inLock : ∀ {m t}, sys.pc t = .inLock m → t ∈ queue m ∨
    (sys.state.tasks t).status = .ready ∧ (sys.state.mutexes m).owner = some t
  running : ∀ {t}, sys.Running t → sys.pc t = .outside
  owned : ∀ {m t}, (sys.state.mutexes m).owner = some t →
    (sys.state.mutexes m).locked = true ∧ 0 < (sys.state.mutexes m).recursion.toNat
  free : ∀ {m}, (sys.state.mutexes m).owner = none → (sys.state.mutexes m).locked = false
  asleep : ∀ {t}, (sys.state.tasks t).sleeping = true → sys.pc t = .inSleep ∧ (sys.state.tasks t).status = .blocked

variable {sys sys' : Sys} {queue : Nat → List Nat} {t m : Nat} {s : State}

theorem Inv.linked_iff (h : Inv sys queue) (t : Nat) : sys.Linked t ↔ ∃ m, t ∈ queue m := by
  constructor
  · intro linked
    by_contra out
    exact h.loose t (fun m mem => out ⟨m, mem⟩) linked
  · rintro ⟨m, mem⟩ loose
    have ring := h.ring m
    obtain ⟨as, bs, split⟩ := append_of_mem (mem_map_of_mem (f := Node.task) mem)
    rw [split] at ring
    have after := (Links.Path.append_iff.mp ring.path).2.next_mem
    have nodup := ring.nodup
    grind

/-- One task changes, with the queue it is in; a mutex without an owner may become its own. -/
theorem Inv.next (h : Inv sys queue) {queue' : Nat → List Nat} (t : Nat)
    (ring : ∀ m, sys'.state.links.Ring (.queue m) ((queue' m).map .task))
    (loose : ∀ i, (∀ m, i ∉ queue' m) → ¬sys'.Linked i)
    (others : ∀ {i}, i ≠ t → sys'.state.tasks i = sys.state.tasks i ∧ sys'.pc i = sys.pc i)
    (members : ∀ {m i}, i ≠ t → (i ∈ queue' m ↔ i ∈ queue m))
    (mutexes : ∀ m, sys'.state.mutexes m = sys.state.mutexes m ∨
      (sys.state.mutexes m).owner = none ∧ sys'.state.mutexes m = ⟨true, some t, 1⟩)
    (queued : ∀ {m}, t ∈ queue' m → sys'.pc t = .inLock m ∧ (sys'.state.tasks t).status = .blocked)
    (inLock : ∀ {m}, sys'.pc t = .inLock m → t ∈ queue' m ∨
      (sys'.state.tasks t).status = .ready ∧ (sys'.state.mutexes m).owner = some t)
    (running : sys'.Running t → sys'.pc t = .outside)
    (asleep : (sys'.state.tasks t).sleeping = true → sys'.pc t = .inSleep ∧ (sys'.state.tasks t).status = .blocked) :
    Inv sys' queue' := by
  -- Every clause is about one task: `t`, or one that the step leaves alone.
  constructor
  case ring => exact ring
  case loose => exact loose
  case queued =>
    intro m i mem
    obtain rfl | here := eq_or_ne i t
    · exact queued mem
    · rw [(others here).1, (others here).2]
      exact h.queued ((members here).mp mem)
  case inLock =>
    intro m i
    obtain rfl | here := eq_or_ne i t
    · exact inLock
    · rw [(others here).1, (others here).2, members here]
      refine fun at_m => (h.inLock at_m).imp_right fun ⟨ready, owns⟩ => ⟨ready, ?_⟩
      rcases mutexes m with same | ⟨unowned, -⟩
      · rwa [same]
      · cases unowned.symm.trans owns
  case running =>
    intro i
    obtain rfl | here := eq_or_ne i t
    · exact running
    · rw [Sys.Running, (others here).1, (others here).2]
      exact h.running
  case asleep =>
    intro i
    obtain rfl | here := eq_or_ne i t
    · exact asleep
    · rw [(others here).1, (others here).2]
      exact h.asleep
  case owned =>
    intro m i
    rcases mutexes m with same | ⟨-, new⟩
    · rw [same]
      exact h.owned
    · rw [new]
      exact fun _ => ⟨rfl, Nat.one_pos⟩
  case free =>
    intro m
    rcases mutexes m with same | ⟨-, new⟩
    · rw [same]
      exact h.free
    · rw [new]
      exact nofun

theorem Inv.setTask (h : Inv sys queue) (x : Task) (pc' : Pc)
    (out : ∀ m, t ∉ queue m) (running : x.status = .running → pc' = .outside)
    (asleep : x.sleeping = true → pc' = .inSleep ∧ x.status = .blocked)
    (inLock : ∀ m, pc' = .inLock m → x.status = .ready ∧ (sys.state.mutexes m).owner = some t) :
    Inv ⟨sys.state.setTask t x, update sys.pc t pc'⟩ queue := by
  refine h.next t h.ring h.loose (fun ne => ⟨update_of_ne ne .., update_of_ne ne ..⟩)
    (fun _ => Iff.rfl) (fun _ => .inl rfl)
    (fun mem => absurd mem (out _)) ?_ ?_ ?_
  all_goals simp only [Sys.Running, State.setTask, update_self]
  · exact fun at_m => .inr (inLock _ at_m)
  · exact running
  · exact asleep

/-- A mutex changes hands among those who are not in its queue. -/
theorem Inv.setMutex (h : Inv sys queue) (x : Mutex)
    (owned : ∀ t, x.owner = some t → x.locked = true ∧ 0 < x.recursion.toNat) (free : x.owner = none → x.locked = false)
    (kept : ∀ t, (sys.state.mutexes m).owner = some t → sys.pc t = .inLock m → x.owner = some t) :
    Inv ⟨sys.state.setMutex m x, sys.pc⟩ queue := by
  refine { h with inLock := ?inLock, owned := ?owned, free := ?free }
  all_goals simp only [State.setMutex]
  case inLock =>
    intro k t at_k
    obtain rfl | here := eq_or_ne k m
    · rw [update_self]
      exact (h.inLock at_k).imp_right fun ⟨ready, owns⟩ => ⟨ready, kept t owns at_k⟩
    · rw [update_of_ne here]
      exact h.inLock at_k
  case owned =>
    intro k t
    simp only [update_apply]
    split
    next => exact owned t
    next => exact h.owned
  case free =>
    intro k
    simp only [update_apply]
    split
    next => exact free
    next => exact h.free

/-! ### Wakeups -/

theorem taskWakeup_eq (s : State) (t : Nat) : taskWakeup s t = s.setTask t { s.tasks t with
    sleeping := false, status := if (s.tasks t).status = .blocked then .ready else (s.tasks t).status } := by
  simp only [taskWakeup, State.setStatus, State.setTask, update_self]
  split
  · simp
  · rfl

theorem Inv.wakeup (h : Inv sys queue) (out : ∀ m, t ∉ queue m) : Inv ⟨taskWakeup sys.state t, sys.pc⟩ queue := by
  rw [taskWakeup_eq, ← update_eq_self t sys.pc]
  apply h.setTask
  · exact out
  · intro running
    apply h.running
    split at running
    · cases running
    · exact running
  · exact nofun
  · intro m at_m
    obtain ⟨ready, owns⟩ := (h.inLock at_m).resolve_left (out m)
    exact ⟨by rw [ready]; rfl, owns⟩

theorem Inv.setFlags (h : Inv sys queue) (x : Task) (status : x.status = (sys.state.tasks t).status)
    (sleeping : x.sleeping = (sys.state.tasks t).sleeping) : Inv ⟨sys.state.setTask t x, sys.pc⟩ queue := by
  refine h.next t h.ring h.loose (fun ne => ⟨update_of_ne ne .., rfl⟩) (fun _ => Iff.rfl)
    (fun _ => .inl rfl) ?_ ?_ ?_ ?_
  all_goals simp only [Sys.Running, State.setTask, update_self, status, sleeping]
  · exact h.queued
  · exact h.inLock
  · exact h.running
  · exact h.asleep

/-! ### The queues -/

theorem task_mem_map {q : List Nat} : Node.task t ∈ q.map Node.task ↔ t ∈ q := by
  simp

/-- Tasks that are not in a queue are not among its nodes, and neither are other queues. -/
theorem node_off {k : Nat} {q : List Nat} : (∀ t, t ∉ q → Node.task t ∉ Node.queue k :: q.map Node.task) ∧
    ∀ m, m ≠ k → Node.queue m ∉ Node.queue k :: q.map Node.task := by
  constructor
  · intro t out mem
    rcases mem_cons.mp mem with head | inside
    · cases head
    · exact out (task_mem_map.mp inside)
  · intro m ne mem
    rcases mem_cons.mp mem with head | inside
    · cases head
      exact ne rfl
    · obtain ⟨t, -, eq⟩ := mem_map.mp inside
      cases eq

/-- A thread waits for one mutex, so two queues share no node. -/
theorem Inv.apart (h : Inv sys queue) {k : Nat} (ne : k ≠ m) {z : Node}
    (mem : z ∈ Node.queue k :: (queue k).map .task) :
    z ∉ Node.queue m :: (queue m).map .task := by
  rcases mem_cons.mp mem with rfl | inside
  · exact node_off.2 k ne
  · obtain ⟨i, at_k, rfl⟩ := mem_map.mp inside
    exact node_off.1 i fun at_m => ne (Pc.inLock.inj ((h.queued at_k).1.symm.trans (h.queued at_m).1))

theorem Inv.enqueue (h : Inv sys queue) (running : sys.Running t) :
    Inv ⟨(waitEnqueue sys.state m t).setStatus t .blocked, update sys.pc t (.inLock m)⟩
      (update queue m (queue m ++ [t])) := by
  have at_t := h.running running
  have out : ∀ k, t ∉ queue k := by
    intro k mem
    have := (h.queued mem).1
    rw [at_t] at this
    cases this
  have entered : ∀ {k i}, i ∈ update queue m (queue m ++ [t]) k ↔ i ∈ queue k ∨ k = m ∧ i = t := by
    intro k i
    obtain rfl | here := eq_or_ne k m
    · simp
    · simp [here]
  refine h.next t ?ring ?loose (fun ne => ⟨update_of_ne ne .., update_of_ne ne ..⟩) (fun ne => by simp [entered, ne])
    (fun _ => .inl rfl) ?_ ?_ ?_ ?_
  case ring =>
    intro k
    obtain rfl | here := eq_or_ne k m
    · rw [update_self, map_append]
      exact (h.ring k).addTail (node_off.1 t (out k))
    · rw [update_of_ne here]
      -- neither the new node nor the other queue's nodes are in this list
      have other : ∀ z ∈ Node.queue k :: (queue k).map Node.task, z ≠ .task t :=
        fun z mem same => node_off.1 t (out k) (same ▸ mem)
      apply (h.ring k).congr
      · exact fun z mem => ((h.ring m).addTail_other (h.apart here mem) (other z mem)).1
      · exact fun z mem => ((h.ring m).addTail_other (h.apart here mem) (other z mem)).2
  case loose =>
    intro i outside
    have ne : i ≠ t := fun same => outside m (entered.mpr (.inr ⟨rfl, same⟩))
    have old : ∀ k, i ∉ queue k := fun k mem => outside k (entered.mpr (.inl mem))
    show ¬(sys.state.links.addTail (.task t) (.queue m)).next (.task i) ≠ .task i
    rw [((h.ring m).addTail_other (node_off.1 i (old m)) (fun same => ne (Node.task.inj same))).1]
    exact h.loose i old
  all_goals simp only [Sys.Running, State.setStatus, State.setTask, waitEnqueue, update_self]
  · intro k mem
    obtain ⟨rfl, -⟩ := (entered.mp mem).resolve_left (out k)
    exact ⟨rfl, trivial⟩
  · exact fun eq => .inl (entered.mpr (.inr ⟨(Pc.inLock.inj eq).symm, rfl⟩))
  · exact nofun
  · exact fun asleep => absurd ((h.asleep asleep).1.symm.trans at_t) nofun

theorem waitDequeue_empty (ring : s.links.Ring (.queue m) []) : waitDequeue s m = (none, s) := by
  rw [waitDequeue, ring.next_eq_iff.mpr rfl]

theorem waitDequeue_first {rest : List Nat} (ring : s.links.Ring (.queue m) ((t :: rest).map .task)) :
    waitDequeue s m = (some t, { s with links := s.links.delInit (.task t) }) := by
  rw [waitDequeue, ring.first]

theorem Inv.handover (h : Inv sys queue) {rest : List Nat} (first : queue m = t :: rest)
    (unowned : (sys.state.mutexes m).owner = none) :
    Inv ⟨taskWakeup (({ sys.state with links := sys.state.links.delInit (.task t) } :
    State).setMutex m ⟨true, some t, 1⟩) t,
      sys.pc⟩ (update queue m rest) := by
  obtain ⟨at_t, blocked⟩ := h.queued (first ▸ mem_cons_self : t ∈ queue m)
  have ring : sys.state.links.Ring (.queue m) ([] ++ .task t :: rest.map .task) := by
    have old := h.ring m
    rwa [first] at old
  have nodup : t ∉ rest := by
    have apart := (nodup_cons.mp (nodup_cons.mp ring.nodup).2).1
    exact fun mem => apart (task_mem_map.mpr mem)
  have out : ∀ k, t ∉ update queue m rest k := by
    intro k
    obtain rfl | here := eq_or_ne k m
    · rwa [update_self]
    · rw [update_of_ne here]
      exact fun mem => here (Pc.inLock.inj ((h.queued mem).1.symm.trans at_t))
  -- The queues lose this one task.
  have left : ∀ {k i}, i ∈ update queue m rest k ↔ i ∈ queue k ∧ i ≠ t := by
    intro k i
    obtain rfl | here := eq_or_ne k m
    · rw [update_self, first, mem_cons]
      exact ⟨fun mem => ⟨.inr mem, fun same => nodup (same ▸ mem)⟩, fun both => both.1.resolve_left both.2⟩
    · have := out k
      rw [update_of_ne here] at this ⊢
      exact ⟨fun mem => ⟨mem, fun same => this (same ▸ mem)⟩, And.left⟩
  rw [taskWakeup_eq]
  simp only [State.setMutex, blocked, if_true]
  refine h.next t ?ring ?loose (fun ne => ⟨update_of_ne ne .., rfl⟩) (fun ne => by simp [left, ne]) (fun k => ?_)
    (fun mem => absurd mem (out _)) (fun at_k => ?_) ?_ ?_
  case ring =>
    intro k
    obtain rfl | here := eq_or_ne k m
    · rw [update_self]
      exact ring.delInit
    · rw [update_of_ne here]
      have away : ∀ z ∈ Node.queue k :: (queue k).map Node.task, z ∉ Node.queue m ::
        ([] ++ .task t :: rest.map .task) := by
        intro z mem
        have apart := h.apart here mem
        rwa [first] at apart
      apply (h.ring k).congr
      · exact fun z mem => (ring.delInit_other (away z mem)).1
      · exact fun z mem => (ring.delInit_other (away z mem)).2
  case loose =>
    intro i outside
    show ¬(sys.state.links.delInit (.task t)).next (.task i) ≠ .task i
    obtain rfl | here := eq_or_ne i t
    · simp [Links.delInit, Links.init]
    · have old : ∀ k, i ∉ queue k := fun k mem => outside k (left.mpr ⟨mem, here⟩)
      have off : Node.task i ∉ Node.queue m :: ([] ++ .task t :: rest.map .task) := by
        have off_m : Node.task i ∉ Node.queue m :: (queue m).map Node.task := node_off.1 i (old m)
        rwa [first] at off_m
      rw [(ring.delInit_other off).1]
      exact h.loose i old
  all_goals simp only [Sys.Running, State.setTask, update_self]
  · obtain rfl | here := eq_or_ne k m
    · exact .inr ⟨unowned, update_self ..⟩
    · exact .inl (update_of_ne here ..)
  · cases Pc.inLock.inj (at_t.symm.trans at_k)
    simp
  · simp
  · simp

/-! ### Steps -/

/-- Whoever becomes the owner of a mutex is ready. -/
def Hands (s s' : State) : Prop :=
  ∀ k t, (s.mutexes k).owner ≠ some t → (s'.mutexes k).owner = some t → (s'.tasks t).status = .ready

theorem Hands.setMutex {x : Mutex} (old : ∀ t, x.owner = some t → (s.mutexes m).owner = some t) :
    Hands s (s.setMutex m x) := by
  intro k t before after
  simp only [State.setMutex, update_apply] at after
  split at after
  next here => exact absurd (here ▸ old t after) before
  · exact absurd after before

theorem Inv.start (kthread : Nat → Bool) : Inv (Sys.start kthread) fun _ => [] :=
  ⟨fun _ => ⟨nodup_singleton _, rfl, rfl⟩, fun _ _ linked => linked rfl, nofun, nofun, nofun, nofun,
    fun _ => rfl, nofun⟩

section

variable (h : Inv sys queue)
include h

theorem Inv.out_of_running (running : sys.Running t) (m : Nat) : t ∉ queue m := by
  intro mem
  have blocked := (h.queued mem).2
  rw [running] at blocked
  cases blocked

theorem Inv.leave (running : sys.Running t) {x : Status} (stops : x ≠ .running) :
    Inv ⟨sys.state.setStatus t x, sys.pc⟩ queue := by
  have at_t := h.running running
  have kept := h.setTask { sys.state.tasks t with status := x } (sys.pc t) (h.out_of_running running)
    (fun again => absurd again stops) (fun asleep => ?_) fun m at_m => absurd (at_t.symm.trans at_m) nofun
  · rwa [update_eq_self] at kept
  · exact absurd ((h.asleep asleep).1.symm.trans at_t) nofun

theorem Inv.out_of_loose (loose : ¬sys.Linked t) (m : Nat) : t ∉ queue m :=
  fun mem => loose ((h.linked_iff t).mpr ⟨m, mem⟩)

theorem Inv.lock (running : sys.Running t) (calm : (Op.lock t m).Calm sys) :
    ∃ queue', Inv (sys.exec (.lock t m)) queue' ∧
    ((mutexLock sys.state m t).1 = true → ((sys.exec (.lock t m)).state.mutexes m).owner = some t) := by
  simp only [Sys.exec, mutexLock]
  split
  next owns =>
    refine ⟨queue, h.setMutex _ (fun i eq => ⟨(h.owned owns).1, ?_⟩) (fun no => ?_) (fun i old _ => old),
      by simpa [State.setMutex] using owns⟩
    · -- the counter does not wrap around
      have below : (sys.state.mutexes m).recursion.toNat ≠ 2 ^ 32 - 1 := by
        intro full
        exact calm owns (eq_of_toNat_eq (by rw [full, toNat_allOnes]))
      have one : (1 : BitVec 32).toNat = 1 := rfl
      simp only [toNat_add, one]
      omega
    · exact absurd (owns.symm.trans no) nofun
  · split
    next unlocked =>
      refine ⟨queue, h.setMutex _ (fun i eq => ⟨rfl, Nat.one_pos⟩) nofun fun i owns _ => ?_, by simp [State.setMutex]⟩
      rw [(h.owned owns).1] at unlocked
      cases unlocked
    · exact ⟨_, h.enqueue running, nofun⟩

theorem Inv.unlock (running : sys.Running t) :
    ∃ queue', Inv (sys.exec (.unlock t m)) queue' ∧ Hands sys.state (sys.exec (.unlock t m)).state := by
  have at_t := h.running running
  simp only [Sys.exec, mutexUnlock]
  split
  · exact ⟨queue, h, fun _ _ before after => absurd after before⟩
  next owns =>
    have owns := of_not_not owns
    split
    next more =>
      refine ⟨queue, h.setMutex _ (fun i eq => ⟨(h.owned owns).1, more⟩) (fun no => ?_) fun i old _ => old,
        Hands.setMutex fun _ eq => eq⟩
      exact absurd (owns.symm.trans no) nofun
    next last =>
      have same : ∀ x y : Mutex, (sys.state.setMutex m x).setMutex m y = sys.state.setMutex m y := by
        intro x y
        simp [State.setMutex]
      rw [same]
      -- Between the release and the handover nobody owns the mutex.
      have released : Inv ⟨sys.state.setMutex m ⟨false, none, (sys.state.mutexes m).recursion - 1⟩, sys.pc⟩ queue := by
        refine h.setMutex _ nofun (fun _ => rfl) fun i old at_i => ?_
        rw [owns] at old
        cases old
        exact absurd (at_t.symm.trans at_i) nofun
      have ring := released.ring m
      cases waits : queue m with
      | nil =>
        rw [waits] at ring
        rw [waitDequeue_empty ring]
        exact ⟨queue, released, Hands.setMutex nofun⟩
      | cons wait rest =>
        rw [waits] at ring
        have blocked : (sys.state.tasks wait).status = .blocked := (h.queued (waits ▸ mem_cons_self : wait ∈ queue m)).2
        rw [waitDequeue_first ring]
        simp only
        rw [if_pos (by exact blocked)]
        refine ⟨_, released.handover waits (by simp [State.setMutex]), fun k i before after => ?_⟩
        simp only [taskWakeup_eq, State.setTask, State.setMutex, update_idem, update_apply] at after ⊢
        split at after
        · cases after
          simp [blocked]
        · exact absurd after before

theorem Inv.step {op : Op} (enabled : sys.Enabled op) (calm : op.Calm sys) : ∃ queue', Inv (sys.exec op) queue' := by
  cases op with
  | lock t m => exact (h.lock enabled calm).imp fun _ => And.left
  | unlock t m => exact (h.unlock enabled).imp fun _ => And.left
  | kill current t =>
    refine ⟨queue, ?_⟩
    simp only [Sys.exec, signalSend]
    split
    · exact h
    next alive =>
      split
      next self =>
        subst self
        exact h.leave enabled nofun
      next other =>
        have flagged := h.setFlags (t := t) { sys.state.tasks t with killPending := true } rfl rfl
        exact flagged.wakeup (h.out_of_loose (calm other))
  | stop current t =>
    refine ⟨queue, ?_⟩
    simp only [Sys.exec, kthreadStop]
    split
    · exact h
    · have flagged := h.setFlags (t := t) { sys.state.tasks t with shouldStop := some true } rfl rfl
      exact flagged.wakeup (h.out_of_loose calm)
  | sleep t =>
    refine ⟨queue, ?_⟩
    exact h.setTask _ _ (h.out_of_running enabled) nofun (fun _ => ⟨rfl, rfl⟩) nofun
  | expire t =>
    -- A sleeper is in no queue.
    have out : ∀ m, t ∉ queue m := by
      intro m mem
      exact absurd ((h.asleep enabled).1.symm.trans (h.queued mem).1) nofun
    exact ⟨queue, h.wakeup out⟩
  | exit t => exact ⟨queue, h.leave enabled nofun⟩
  | preempt t => exact ⟨queue, h.leave enabled nofun⟩
  | resume t =>
    have ready : (sys.state.tasks t).status = .ready := enabled
    have out : ∀ m, t ∉ queue m := fun m mem => absurd (ready.symm.trans (h.queued mem).2) nofun
    refine ⟨queue, h.setTask _ _ out (fun _ => rfl) (fun asleep => ?_) nofun⟩
    exact absurd (ready.symm.trans (h.asleep asleep).2) nofun

end

/-! ### Every interleaving -/

theorem Inv.of_run {kthread : Nat → Bool} {es : List (Sys × Op)} (run : Run Sys.step (Sys.start kthread) es sys)
    (calm : ∀ e ∈ es, e.2.Calm e.1) : ∃ queue, Inv sys queue := by
  apply (Run.invariant_of_guard (I := fun sys => ∃ queue, Inv sys queue)
    (G := fun sys op => op.Calm sys) _ _ run calm).1
  · exact ⟨_, Inv.start kthread⟩
  · rintro s op s' ⟨queue, h⟩ met ⟨enabled, rfl⟩
    exact h.step enabled met

theorem Inv.returns (h : Inv sys queue) {op : Op} (enabled : sys.Enabled op) (calm : op.Calm sys)
    (returned : sys.returns op = some (t, m)) :
    ((sys.exec op).state.mutexes m).owner = some t ∧ 0 < ((sys.exec op).state.mutexes m).recursion.toNat := by
  obtain ⟨queue', h'⟩ := h.step enabled calm
  suffices owns : ((sys.exec op).state.mutexes m).owner = some t from ⟨owns, (h'.owned owns).2⟩
  cases op with
  | lock i k =>
    simp only [Sys.returns] at returned
    split at returned
    next immediate =>
      cases returned
      obtain ⟨-, -, owns⟩ := h.lock enabled calm
      exact owns immediate
    · cases returned
  | resume i =>
    have ready : (sys.state.tasks i).status = .ready := enabled
    simp only [Sys.returns] at returned
    split at returned
    next k at_k =>
      cases returned
      -- who is ready in the middle of the call has left the queue by a handover
      rcases h.inLock at_k with queued | ⟨-, owns⟩
      · exact absurd (ready.symm.trans (h.queued queued).2) nofun
      · exact owns
    · cases returned
    · cases returned
  | unlock _ _ | kill _ _ | stop _ _ | sleep _ | expire _ | exit _ | preempt _ => cases returned

/-- In every interleaving without a wakeup of a task in a queue, `jlos_mutex_lock` returns to owners
only, no running task is in a queue, and a handover never makes a terminated task the owner. -/
theorem mutex_ownership {kthread : Nat → Bool} {es : List (Sys × Op)}
    (run : Run Sys.step (Sys.start kthread) es sys) (calm : ∀ e ∈ es, e.2.Calm e.1) :
    (∀ op sys' t m, sys.step op sys' → op.Calm sys → sys.returns op = some (t, m) →
      (sys'.state.mutexes m).owner = some t ∧ 1 ≤ (sys'.state.mutexes m).recursion.toNat) ∧
    (∀ t, sys.Running t → ¬sys.Linked t) ∧
    ∀ i m sys' k t, sys.step (.unlock i m) sys' → (sys.state.mutexes k).owner ≠ some t →
      (sys'.state.mutexes k).owner = some t → (sys'.state.tasks t).status ≠ .zombie := by
  obtain ⟨queue, h⟩ := Inv.of_run run calm
  refine ⟨?_, fun t running => ?_, ?_⟩
  · rintro op sys' t m ⟨enabled, rfl⟩ met returned
    exact h.returns enabled met returned
  · rw [h.linked_iff]
    rintro ⟨m, mem⟩
    exact h.out_of_running running m mem
  · rintro i m sys' k t ⟨running, rfl⟩ before after
    obtain ⟨-, -, hands⟩ := h.unlock (m := m) running
    rw [hands k t before after]
    exact nofun

instance (sys : Sys) (op : Op) : Decidable (op.Calm sys) := by
  induction op using Op.casesOn <;> unfold Op.Calm <;> infer_instance

/-- Reads a run of enabled steps off a computation. -/
theorem exists_run {β : Type} (kthread : Nat → Bool) (ops : List Op) {G : Sys → Op → Prop} [∀ s op, Decidable (G s op)]
    {g : Sys → β} {v : β} (values : (trace (fun sys op => (Except.ok (sys.exec op) : Except Unit Sys)) Sys.Enabled
      (Sys.start kthread) ops).map (fun r => (r.1.all fun e => decide (G e.1 e.2), g r.2)) = some (true, v)) :
    ∃ es sys, Run Sys.step (Sys.start kthread) es sys ∧ (∀ e ∈ es, G e.1 e.2) ∧ g sys = v := by
  obtain ⟨es, sys, run, met, value⟩ := exists_run_from _ _ _ _ values
  refine ⟨es, sys, run.mono ?_, met, value⟩
  rintro s op s' ⟨enabled, ran⟩
  exact ⟨enabled, Except.ok.inj ran⟩

/-- The owner of a mutex kills the task that waits for it: `jlos_mutex_lock` returns to the killed
task, which runs, is still in the queue, and is not the owner. -/
theorem lock_returns_to_killed : ∃ es sys sys', Run Sys.step (Sys.start fun _ => false) es sys ∧
    sys.step (.resume 1) sys' ∧ sys.returns (.resume 1) = some (1, 0) ∧ (sys'.state.mutexes 0).owner = some 0 ∧
    sys'.Running 1 ∧ sys'.Linked 1 := by
  obtain ⟨es, sys, run, -, value⟩ := exists_run (fun _ => false)
    [.resume 0, .resume 1, .lock 0 0, .lock 1 0, .kill 0 1] (G := fun _ _ => True)
    (g := fun sys => decide (sys.Enabled (.resume 1) ∧ sys.returns (.resume 1) = some (1, 0) ∧
      ((sys.exec (.resume 1)).state.mutexes 0).owner = some 0 ∧ (sys.exec (.resume 1)).Running 1 ∧
      (sys.exec (.resume 1)).Linked 1)) (v := true) (by decide +kernel)
  obtain ⟨enabled, returned, owner, running, linked⟩ := of_decide_eq_true value
  exact ⟨es, sys, _, run, ⟨enabled, rfl⟩, returned, owner, running, linked⟩

/-- The owner unlocks a mutex that another task waits for. -/
theorem lock_returns_to_owner : ∃ es sys sys', Run Sys.step (Sys.start fun _ => false) es sys ∧
    (∀ e ∈ es, e.2.Calm e.1) ∧ sys.step (.resume 1) sys' ∧ sys.returns (.resume 1) = some (1, 0) ∧
    (sys'.state.mutexes 0).owner = some 1 ∧ 1 ≤ (sys'.state.mutexes 0).recursion.toNat := by
  obtain ⟨es, sys, run, calm, value⟩ := exists_run (fun _ => false)
    [.resume 0, .resume 1, .lock 0 0, .lock 1 0, .unlock 0 0] (G := fun sys op => op.Calm sys)
    (g := fun sys => decide (sys.Enabled (.resume 1) ∧ sys.returns (.resume 1) = some (1, 0))) (v := true)
    (by decide +kernel)
  obtain ⟨enabled, returned⟩ := of_decide_eq_true value
  have taken : sys.step (.resume 1) (sys.exec (.resume 1)) := ⟨enabled, rfl⟩
  exact ⟨es, sys, _, run, calm, taken, returned, (mutex_ownership run calm).1 _ _ 1 0 taken trivial returned⟩

end Jlos.Sync
