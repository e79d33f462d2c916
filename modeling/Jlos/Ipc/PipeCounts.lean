import Jlos.Ipc.PipeFifo

/-!
# The semaphores of a pipe and its count

A turn of either loop takes one permit and moves any number of bytes, for each of which it posts the
other semaphore.
-/
namespace Jlos.Ipc.Pipes

open Lib Function Option

variable {n : Nat} {s s' : Sys n} {t : Fin n} {k : Sem} {es : List (Sys n × Op n)}

/-! ### Permits on their way -/

/-- The permit that a thread waits for, or has taken and not used. -/
def Stage.held : Stage → Nat
  | .queued | .passed | .locked | .back => 1
  | _ => 0

/-- The posts that a thread still makes for the bytes of its last section. -/
def Stage.owed : Stage → Nat
  | .unlocked k | .posts k => k
  | _ => 0

open Stage

@[simp] theorem Stage.held_top : top.held = 0 := rfl

@[simp] theorem Stage.owed_top : top.owed = 0 := rfl

/-- What a semaphore lacks of the bytes or slots because of a thread in a call. -/
def Pc.due : Sem → Pc → Nat
  | _, .idle => 0
  | .slots, .write _ _ _ stage => stage.held
  | .items, .write _ _ _ stage => stage.owed
  | .slots, .read _ _ _ stage => stage.owed
  | .items, .read _ _ _ stage => stage.held
  | .items, .close posted => if posted then 0 else 1
  | .slots, .close _ => 1

/-- The value of a semaphore with all that is on its way. -/
def Sys.total (s : Sys n) (k : Sem) : Int := (s.pipe.sem k).value + tally (Pc.due k) s.pc

theorem Pc.due_wake (k : Sem) (x : Pc) : x.wake.due k = x.due k := by
  unfold wake
  split
  · cases k <;> rfl
  · cases k <;> rfl
  · rfl

open Sys

theorem total_setPc (s : Sys n) (t : Fin n) (x : Pc) (k : Sem) :
    (s.setPc t x).total k = s.total k + x.due k - (s.pc t).due k := by
  have changed := tally_update (Pc.due k) s.pc t x
  simp only [total, Sys.setPc]
  omega

theorem total_setSem (s : Sys n) (j : Sem) (x : Counting (Fin n)) (k : Sem) :
    (s.setSem j x).total k = s.total k + if k = j then x.value - (s.pipe.sem k).value else 0 := by
  obtain rfl | same := eq_or_ne k j
  · simp only [total, Sys.setSem, update_self, if_true]
    omega
  · simp only [total, Sys.setSem, update_of_ne same, if_neg same]
    omega

theorem total_semPost (s : Sys n) (j k : Sem) : (semPost s j).total k = s.total k + if k = j then 1 else 0 := by
  have value := (s.pipe.sem j).post_value
  have posted := total_setSem s j (s.pipe.sem j).post.2 k
  have woken : (semPost s j).total k = (s.setSem j (s.pipe.sem j).post.2).total k := by
    unfold semPost
    rcases (s.pipe.sem j).post with ⟨_ | u, sem⟩
    · rfl
    · simp only [total_setPc, Pc.due_wake]
      omega
  rw [woken, posted]
  split
  next same =>
    subst same
    omega
  next => rfl

theorem total_semWait (s : Sys n) (j k : Sem) (t : Fin n) :
    (semWait s j t).total k = s.total k - (if k = j then 1 else 0) +
      ((s.pc t).setStage (if ((s.pipe.sem j).wait t).1 then .passed else .queued)).due k - (s.pc t).due k := by
  have value := (s.pipe.sem j).wait_value t
  have waited := total_setSem s j ((s.pipe.sem j).wait t).2 k
  unfold semWait
  simp only [total_setPc, waited]
  split
  next same =>
    subst same
    simp only [Sys.setSem]
    omega
  next =>
    simp only [Sys.setSem]
    omega

/-! ### The balance -/

theorem semPost_pipe (s : Sys n) (k : Sem) :
    (semPost s k).pipe = { s.pipe with sem := update s.pipe.sem k (s.pipe.sem k).post.2 } := by
  unfold semPost
  rcases (s.pipe.sem k).post with ⟨_ | u, sem⟩ <;> rfl

/-- The semaphores count what the pipe counts, with what is on its way. -/
structure Balanced (s : Sys n) : Prop where
  opened : s.pipe.closed = false
  tight : ∀ k, (s.pipe.sem k).Tight
  items : s.total .items = s.pipe.count
  slots : s.total .slots = s.pipe.bufSize - s.pipe.count

/-- Nothing closes the pipe, and a section moves one byte. -/
def MovesOne (s : Sys n) : Op n → Prop
  | .close _ => False
  | .run t =>
    match s.pc t with
    | .write _ len written .locked => canWrite s.pipe len written = 1
    | .read len r _ .locked => canRead s.pipe len r = 1
    | _ => True
  | _ => True

theorem writeSection_pipe (p : Pipe n) (buf : Nat → Byte) (written can : Nat) :
    ∃ buffer writePos, writeSection p buf written can = { p with buffer, writePos, count := p.count + can } := by
  have loop := putLoop_eq p (bytes buf written can) p.ring rfl rfl rfl
  rw [writeSection, loop]
  exact ⟨_, _, rfl⟩

theorem readSection_pipe (p : Pipe n) (can : Nat) :
    ∃ readPos, (readSection p can).2 = { p with readPos, count := p.count - can } := by
  have loop := getLoop_eq p can p.ring rfl rfl rfl
  rw [readSection, loop]
  exact ⟨_, rfl⟩

theorem canRead_le_count (p : Pipe n) (len read : Nat) : canRead p len read ≤ p.count := by
  unfold canRead
  dsimp only
  split <;> split <;> omega

instance (s : Sys n) (op : Op n) : Decidable (MovesOne s op) := by
  unfold MovesOne
  split
  · infer_instance
  · split <;> infer_instance
  · infer_instance

namespace Balanced

section

variable (h : Balanced s)
include h

/-- A thread goes on, and what it adds to the pipe is on its way then. -/
theorem move {p : Pipe n} {x : Pc} (sem : p.sem = s.pipe.sem) (opened : p.closed = false)
    (items : (p.count : Int) - s.pipe.count = x.due .items - (s.pc t).due .items)
    (slots : (p.bufSize - p.count : Int) - (s.pipe.bufSize - s.pipe.count) = x.due .slots - (s.pc t).due .slots) :
    Balanced ⟨p, update s.pc t x⟩ := by
  have total : ∀ k, total ⟨p, update s.pc t x⟩ k = s.total k + x.due k - (s.pc t).due k := by
    intro k
    rw [← total_setPc]
    simp only [total, Sys.setPc, sem]
  have total_items := total .items
  have total_slots := total .slots
  rw [h.items] at total_items
  rw [h.slots] at total_slots
  exact ⟨opened, by simpa only [sem] using h.tight, by grind, by grind⟩

theorem setPc {x y : Pc} (at_t : s.pc t = y) (due : ∀ k, x.due k = y.due k) : Balanced (s.setPc t x) :=
  h.move rfl h.opened (by rw [at_t, due]; omega) (by rw [at_t, due]; omega)

theorem semPost {x y : Pc} {j : Sem} (at_t : s.pc t = y)
    (due : ∀ k, x.due k + (if k = j then 1 else 0) = y.due k) : Balanced (semPost (s.setPc t x) j) := by
  subst at_t
  have same : ∀ k, (Pipes.semPost (s.setPc t x) j).total k = s.total k := by
    intro k
    have less := due k
    rw [total_semPost, total_setPc]
    split at less
    next here =>
      rw [if_pos here]
      omega
    next here =>
      rw [if_neg here]
      omega
  have pipe := semPost_pipe (s.setPc t x) j
  constructor
  case opened =>
    rw [pipe]
    exact h.opened
  case tight =>
    intro k
    rw [pipe]
    obtain rfl | here := eq_or_ne k j
    · simp only [update_self]
      exact (h.tight k).post
    · simp only [update_of_ne here]
      exact h.tight k
  case items =>
    rw [same, pipe]
    exact h.items
  case slots =>
    rw [same, pipe]
    exact h.slots

theorem semWait {j : Sem} (due : ∀ stage, stage.held = 1 → stage.owed = 0 →
      ∀ k, ((s.pc t).setStage stage).due k = (s.pc t).due k + if k = j then 1 else 0) : Balanced (semWait s j t) := by
  have same : ∀ k, (Pipes.semWait s j t).total k = s.total k := by
    intro k
    have more : ((s.pc t).setStage (if ((s.pipe.sem j).wait t).1 then .passed else .queued)).due k =
        (s.pc t).due k + if k = j then 1 else 0 := by
      split
      · exact due _ rfl rfl k
      · exact due _ rfl rfl k
    rw [total_semWait, more]
    split <;> omega
  constructor
  case opened => exact h.opened
  case tight =>
    intro k
    obtain rfl | here := eq_or_ne k j
    · simp only [Pipes.semWait, Sys.setPc, Sys.setSem, update_self]
      exact (h.tight k).wait
    · simp only [Pipes.semWait, Sys.setPc, Sys.setSem, update_of_ne here]
      exact h.tight k
  case items => exact (same .items).trans h.items
  case slots => exact (same .slots).trans h.slots

attribute [local simp] Pc.due Stage.held Stage.owed

theorem writeStep {buf : Nat → Byte} {len written : Nat} {stage : Stage}
    (at_t : s.pc t = .write buf len written stage) (one : MovesOne s (.run t))
    (taken : writeStep s t buf len written stage = some s') : Balanced s' := by
  cases stage with
  | top =>
    cases taken
    split
    · apply h.semWait
      intro stage held owed k
      cases k <;> simp [at_t, Pc.setStage, held, owed, -held, -owed]
    · exact h.setPc at_t fun k => by cases k <;> rfl
  | queued => cases taken
  | unlocked moved => cases taken
  | passed =>
    simp only [Pipes.writeStep, Option.some.injEq, h.opened] at taken
    subst taken
    exact h.setPc at_t fun k => by cases k <;> rfl
  | locked =>
    simp only [MovesOne, at_t] at one
    simp only [Pipes.writeStep, Option.some.injEq, one] at taken
    subst taken
    -- One byte for the one permit that the turn has taken.
    obtain ⟨buffer, writePos, pipe⟩ := writeSection_pipe s.pipe buf written 1
    rw [pipe]
    refine h.move (p := { s.pipe with buffer, writePos, count := s.pipe.count + 1 }) rfl h.opened ?_ ?_
    · simp [at_t]
    · simp [at_t]
  | posts left =>
    cases left with
    | zero =>
      cases taken
      exact h.setPc at_t fun k => by cases k <;> rfl
    | succ left =>
      cases taken
      exact h.semPost at_t fun k => by cases k <;> rfl
  | back =>
    cases taken
    exact h.semPost at_t fun k => by cases k <;> rfl

theorem readStep {len read : Nat} {got : List Byte} {stage : Stage}
    (at_t : s.pc t = .read len read got stage) (one : MovesOne s (.run t))
    (taken : readStep s t len read got stage = some s') : Balanced s' := by
  cases stage with
  | top =>
    cases taken
    split
    · apply h.semWait
      intro stage held owed k
      cases k <;> simp [at_t, Pc.setStage, held, owed, -held, -owed]
    · exact h.setPc at_t fun k => by cases k <;> rfl
  | queued => cases taken
  | unlocked moved =>
    simp only [Pipes.readStep, Option.some.injEq, h.opened] at taken
    subst taken
    exact h.setPc at_t fun k => by cases k <;> rfl
  | passed =>
    simp only [Pipes.readStep, Option.some.injEq, h.opened] at taken
    subst taken
    exact h.setPc at_t fun k => by cases k <;> rfl
  | locked =>
    simp only [MovesOne, at_t] at one
    -- One byte for the one permit that the turn has taken.
    have some : 1 ≤ s.pipe.count := one ▸ canRead_le_count s.pipe len read
    simp only [Pipes.readStep, Option.some.injEq, one] at taken
    subst taken
    obtain ⟨readPos, pipe⟩ := readSection_pipe s.pipe 1
    rw [pipe]
    refine h.move (p := { s.pipe with readPos, count := s.pipe.count - 1 }) rfl h.opened ?_ ?_
    · simp [at_t]
      omega
    · simp [at_t]
      omega
  | posts left =>
    cases left with
    | zero =>
      cases taken
      exact h.setPc at_t fun k => by cases k <;> rfl
    | succ left =>
      cases taken
      exact h.semPost at_t fun k => by cases k <;> rfl
  | back =>
    cases taken
    exact h.semPost at_t fun k => by cases k <;> rfl

theorem step {op : Op n} (one : MovesOne s op) (taken : step s op s') : Balanced s' := by
  cases op with
  | write t buf len =>
    simp only [Pipes.step, exec, h.opened] at taken
    split at taken
    case h_2 => cases taken
    case h_1 idle =>
      simp only [Bool.false_eq_true, if_false, Option.some.injEq] at taken
      subst taken
      exact h.setPc idle fun k => by cases k <;> rfl
  | read t len =>
    simp only [Pipes.step, exec] at taken
    split at taken
    case h_2 => cases taken
    case h_1 idle =>
      cases taken
      exact h.setPc idle fun k => by cases k <;> rfl
  | close t => exact one.elim
  | run t =>
    simp only [Pipes.step, exec] at taken
    split at taken
    case h_1 => cases taken
    case h_2 at_t => exact h.writeStep at_t one taken
    case h_3 at_t => exact h.readStep at_t one taken
    case h_4 at_t =>
      cases taken
      exact h.semPost at_t fun k => by cases k <;> rfl
    case h_5 at_t =>
      cases taken
      exact h.semPost at_t fun k => by cases k <;> rfl

end

theorem start (n bufSize : Nat) : Balanced (Pipes.start n bufSize) := by
  have none : ∀ k, tally (Pc.due k) (Pipes.start n bufSize).pc = 0 := fun k => tally_zero fun i => by cases k <;> rfl
  constructor
  case opened => rfl
  case tight => exact fun k => Or.inr (by cases k <;> rfl)
  case items =>
    simp only [total, none]
    rfl
  case slots =>
    simp only [total, none]
    simp [Pipes.start, pipeInit, Counting.value]

theorem total_idle (idle : ∀ t, s.pc t = .idle) (k : Sem) : s.total k = (s.pipe.sem k).value := by
  have none : tally (Pc.due k) s.pc = 0 := tally_zero fun i => by rw [idle]; cases k <;> rfl
  simp only [total, none]
  omega

end Balanced

/-- The semaphores agree with the count, and block when they should. -/
structure Agrees (p : Pipe n) : Prop where
  items : p.sem .items = ⟨p.count, []⟩
  slots : p.sem .slots = ⟨p.bufSize - p.count, []⟩
  reader : ∀ t, ((p.sem .items).wait t).1 = false ↔ p.count = 0
  writer : ∀ t, ((p.sem .slots).wait t).1 = false ↔ p.count = p.bufSize

theorem eq_of_value {x : Counting (Fin n)} (tight : x.Tight) {v : Nat} (value : x.value = v) : x = ⟨v, []⟩ := by
  have length := tight.waiting_length
  obtain ⟨permits, waiting⟩ := x
  have empty : waiting = [] := by
    apply List.eq_nil_of_length_eq_zero
    simp only at length
    omega
  subst empty
  simp only [Counting.value, List.length_nil] at value
  simp only [Counting.mk.injEq, and_true]
  omega

theorem wait_blocks (v : Nat) (t : Fin n) : ((⟨v, []⟩ : Counting (Fin n)).wait t).1 = false ↔ v = 0 := by
  rcases Counting.wait_cases (⟨v, []⟩ : Counting (Fin n)) t with ⟨some, eq⟩ | ⟨none, eq⟩
  · rw [eq]
    simp only [Bool.true_eq_false, false_iff]
    exact ne_of_gt some
  · rw [eq]
    exact iff_of_true rfl none

/-- While every section moves one byte, the semaphores agree with the count whenever no call is in
progress. -/
theorem semaphores_agree (run : Run step (Pipes.start n bufSize) es s) (one : ∀ e ∈ es, MovesOne e.1 e.2)
    (idle : ∀ t, s.pc t = .idle) : Agrees s.pipe := by
  have inv : Inv es s := run.history_invariant (I := Inv) (Inv.start n bufSize) Inv.step
  have balanced : Balanced s :=
    (Run.invariant_of_guard (Balanced.start n bufSize) (fun _ _ _ h one taken => h.step one taken) run one).1
  have full : s.pipe.count ≤ s.pipe.bufSize := inv.valid.count
  have items : (s.pipe.sem .items).value = s.pipe.count := (Balanced.total_idle idle .items).symm.trans balanced.items
  have slots : (s.pipe.sem .slots).value = (s.pipe.bufSize - s.pipe.count : Nat) := by
    rw [← Balanced.total_idle idle .slots, balanced.slots]
    omega
  have itemsEq := eq_of_value (balanced.tight .items) items
  have slotsEq := eq_of_value (balanced.tight .slots) slots
  constructor
  case items => exact itemsEq
  case slots => exact slotsEq
  case reader =>
    intro t
    rw [itemsEq]
    exact wait_blocks _ t
  case writer =>
    intro t
    rw [slotsEq, wait_blocks]
    omega

def Pc.isIdle : Pc → Bool
  | .idle => true
  | _ => false

theorem Pc.eq_idle {x : Pc} (idle : x.isIdle = true) : x = .idle := by
  cases x with
  | idle => rfl
  | write | read | close => exact absurd idle Bool.false_ne_true

/-- A write of one byte and its read. -/
def oneByte : List (Op 1) :=
  [.write 0 (fun _ => 65) 1, .run 0, .run 0, .run 0, .run 0, .run 0, .run 0,
    .read 0 1, .run 0, .run 0, .run 0, .run 0, .run 0, .run 0, .run 0]

theorem one_byte_agrees : ∃ es s, Run step (Pipes.start 1 4) es s ∧ es.map Prod.snd = oneByte ∧ Agrees s.pipe := by
  have values : (oneByte.foldlM (guarded exec MovesOne) (Pipes.start 1 4)).map (fun s => (s.pc 0).isIdle) =
      some true := by decide +kernel
  obtain ⟨s, ends, value⟩ := map_eq_some_iff.mp values
  obtain ⟨es, run, ops, one⟩ := exists_run_of_foldlM ends
  have idle : ∀ t, s.pc t = .idle := fun t => by
    rw [Fin.fin_one_eq_zero t]
    exact Pc.eq_idle value
  exact ⟨es, s, run, ops, semaphores_agree run one idle⟩

/-- A write of two bytes. -/
def twoBytes : List (Op 1) :=
  [.write 0 (fun _ => 65) 2, .run 0, .run 0, .run 0, .run 0, .run 0, .run 0, .run 0]

/-- A write of two bytes takes one slot: nothing is in progress, two bytes of four are in the pipe,
and the semaphore has three slots. -/
theorem two_bytes_take_one_slot : ∃ es s, Run step (Pipes.start 1 4) es s ∧ es.map Prod.snd = twoBytes ∧
    (∀ t, s.pc t = .idle) ∧ s.pipe.count = 2 ∧ s.pipe.bufSize = 4 ∧ (s.pipe.sem .slots).permits = 3 ∧
    ¬Agrees s.pipe := by
  have values : (twoBytes.foldlM (guarded exec fun _ _ => True) (Pipes.start 1 4)).map
      (fun s => ((s.pc 0).isIdle, s.pipe.count, s.pipe.bufSize, (s.pipe.sem .slots).permits)) =
        some (true, 2, 4, 3) := by decide +kernel
  obtain ⟨s, ends, value⟩ := map_eq_some_iff.mp values
  obtain ⟨es, run, ops, -⟩ := exists_run_of_foldlM ends
  simp only [Prod.mk.injEq] at value
  have idle : ∀ t, s.pc t = .idle := fun t => by
    rw [Fin.fin_one_eq_zero t]
    exact Pc.eq_idle value.1
  obtain ⟨-, count, size, permits⟩ := value
  refine ⟨es, s, run, ops, idle, count, size, permits, fun agrees => ?_⟩
  have slots := congrArg Counting.permits agrees.slots
  rw [permits, count, size] at slots
  exact absurd slots (by decide)

end Jlos.Ipc.Pipes
