import Jlos.Signal.Model

/-!
# SIGKILL

`syscall_signal` takes a handler for every signal, and `jlos_signal_check_deliver` looks at the
handlers of all signals in the same way, the lowest pending number first.
-/
namespace Jlos.Signal

open Lib List

variable {a : Arch} {t : Task a} {tf : Frame a} {m : Memory a.wordBits}

def syscallSignal (t : Task a) (sig : BitVec 32) (handler : Word a) : BitVec 32 × Task a :=
  if h : sig ≠ 0 ∧ sig.toNat < 32 then
    let i : Fin 32 := ⟨sig.toNat, h.2⟩
    ((t.handlers i).setWidth 32, { t with handlers := Function.update t.handlers i handler })
  else (-1, t)

/-- `jlos_signal_send` to a task that is not the current one; a zombie gets no `JLOS_SIGKILL`. -/
def signalSend (t : Task a) (zombie : Bool) (sig : BitVec 32) : BitVec 32 × Task a :=
  if sig = 0 ∨ 32 ≤ sig.toNat then (-1, t)
  else if sig = 9 ∧ zombie then (0, t)
  else (0, { t with pending := t.pending ||| 1#32 <<< sig.toNat })

/-- `syscall_kill`, when the task is found. -/
def syscallKill (t : Task a) (zombie : Bool) (sig : BitVec 32) : BitVec 32 × Task a :=
  if sig = 0 ∨ 32 ≤ sig.toNat then (-1, t) else signalSend t zombie sig

/-- What happens to a process before its signals are examined. -/
inductive Request (a : Arch)
  /-- The process calls `syscall_signal`. -/
  | signal (sig : BitVec 32) (handler : Word a)
  /-- Another process calls `syscall_kill`. -/
  | kill (sig : BitVec 32)

def Request.exec (t : Task a) : Request a → Task a
  | .signal sig handler => (syscallSignal t sig handler).2
  | .kill sig => (syscallKill t false sig).2

def Delivery.Ends : Delivery a → Prop
  | .exits _ => True
  | _ => False

local instance signals : NeZero 32 := ⟨by decide⟩

/-- `JLOS_SIGKILL`, `JLOS_SIGSEGV` and `JLOS_SIGTERM` end a process by default. -/
def Fatal (sig : Fin 32) : Prop := sig = 9 ∨ sig = 11 ∨ sig = 15

/-- A handler that leaves a signal to its default, or ignores it. -/
def Unhandled (t : Task a) (sig : Fin 32) : Prop := t.handlers sig = 0 ∨ t.handlers sig = 1

/-- A fatal signal with its default is pending, and no signal with a handler is pending before
it. -/
def Doomed (t : Task a) : Prop :=
  ∃ sig, Fatal sig ∧ t.pending.getLsbD sig = true ∧ t.handlers sig = 0 ∧
    ∀ i < sig, i ≠ 0 → t.pending.getLsbD i = true → Unhandled t i

/-- Among the signals that the loop goes through, a fatal default comes before any handler. -/
def DoomedBy (handlers : Fin 32 → Word a) (sigs : List (Fin 32)) : Prop :=
  ∃ sig ∈ sigs, Fatal sig ∧ handlers sig = 0 ∧ ∀ i ∈ sigs, i < sig → i ≠ 0 → handlers i = 0 ∨ handlers i = 1

theorem doomedBy_cons {handlers : Fin 32 → Word a} {first : Fin 32} {rest : List (Fin 32)}
    (least : ∀ i ∈ rest, first < i) :
    DoomedBy handlers (first :: rest) ↔ Fatal first ∧ handlers first = 0 ∨
      (first ≠ 0 → handlers first = 0 ∨ handlers first = 1) ∧ DoomedBy handlers rest := by
  constructor
  · rintro ⟨sig, mem, fatal, default, unhandled⟩
    rcases mem_cons.mp mem with rfl | later
    · exact .inl ⟨fatal, default⟩
    · exact .inr ⟨unhandled first mem_cons_self (least sig later), sig, later, fatal, default,
        fun i mem => unhandled i (mem_cons_of_mem first mem)⟩
  · rintro (⟨fatal, default⟩ | ⟨skipped, sig, later, fatal, default, unhandled⟩)
    · refine ⟨first, mem_cons_self, fatal, default, fun i mem less => ?_⟩
      rcases mem_cons.mp mem with rfl | mem
      · exact absurd less (lt_irrefl i)
      · exact absurd less (lt_asymm (least i mem))
    · refine ⟨sig, mem_cons_of_mem first later, fatal, default, fun i mem less => ?_⟩
      rcases mem_cons.mp mem with rfl | mem
      · exact skipped
      · exact unhandled i mem less

/-- The loop ends the process when it comes to a fatal default before any handler. -/
theorem deliverLoop_ends_iff {sigs : List (Fin 32)} (sorted : sigs.Pairwise (· < ·)) (t : Task a) :
    (deliverLoop a t tf m sigs).Ends ↔ DoomedBy t.handlers sigs := by
  induction sigs generalizing t with
  | nil => simp [deliverLoop, Delivery.Ends, DoomedBy]
  | cons first rest ih =>
    obtain ⟨least, sorted⟩ := pairwise_cons.mp sorted
    have width : a.wordBits ≠ 0 := by cases a <;> decide
    rw [doomedBy_cons least]
    unfold deliverLoop
    by_cases zero : first = 0
    · simp [zero, ih sorted, Fatal]
    by_cases ignored : t.handlers first = 1
    · simp [zero, ignored, ih sorted, width]
    by_cases handled : t.handlers first = 0
    · by_cases fatal : Fatal first
      · simp [zero, handled, fatal, show first = 9 ∨ first = 11 ∨ first = 15 from fatal, width, Delivery.Ends]
      · simp [zero, handled, fatal, show ¬(first = 9 ∨ first = 11 ∨ first = 15) from fatal, ih sorted]
    · rw [if_neg zero, if_neg ignored, if_pos handled]
      exact iff_of_false id (by tauto)

/-- The signals that `jlos_signal_check_deliver` goes through. -/
def pendingSignals (t : Task a) : List (Fin 32) := (List.finRange 32).filter fun sig : Fin 32 => t.pending.getLsbD sig

theorem mem_pendingSignals (sig : Fin 32) : sig ∈ pendingSignals t ↔ t.pending.getLsbD sig = true := by
  simp [pendingSignals]

theorem pendingSignals_sorted (t : Task a) : (pendingSignals t).Pairwise (· < ·) :=
  (pairwise_lt_finRange 32).filter _

open Request

/-- Whatever handlers a process has installed and signals it was sent, `JLOS_SIGKILL` among them:
once they are examined it runs no further instruction exactly if a fatal default comes before every
handler. -/
theorem killed_iff (t : Task a) (before after : List (Request a)) (tf : Frame a) (m : Memory a.wordBits) :
    (signalCheckDeliver a ((before ++ .kill 9 :: after).foldl Request.exec t) tf m).Ends ↔
      Doomed ((before ++ .kill 9 :: after).foldl Request.exec t) := by
  generalize (before ++ .kill 9 :: after).foldl exec t = t'
  have loop : (signalCheckDeliver a t' tf m).Ends ↔ DoomedBy t'.handlers (pendingSignals t') :=
    deliverLoop_ends_iff (pendingSignals_sorted t') t'
  rw [loop, DoomedBy, Doomed]
  simp only [mem_pendingSignals]
  constructor
  · rintro ⟨sig, pending, fatal, default, unhandled⟩
    exact ⟨sig, fatal, pending, default, fun i less nonzero set => unhandled i set less nonzero⟩
  · rintro ⟨sig, fatal, pending, default, unhandled⟩
    exact ⟨sig, pending, fatal, default, fun i set less nonzero => unhandled i less nonzero set⟩

/-- A process without handlers. -/
def quietTask : Task .i386 := ⟨0, fun _ => 0, 0⟩

/-- A process with a handler for `JLOS_SIGKILL` goes on in the handler. -/
theorem kill_handled :
    ¬(signalCheckDeliver .i386 ([.signal 9 0x1000, .kill 9].foldl Request.exec quietTask) (fun _ => 0)
      ⟨fun _ => 0, []⟩).Ends := by
  have only : pendingSignals ([signal 9 0x1000, .kill 9].foldl exec quietTask) = [9] := by
    decide +kernel
  have handler : ([signal 9 0x1000, .kill 9].foldl exec quietTask).handlers 9 ≠ 0 := by
    decide +kernel
  intro ends
  obtain ⟨sig, mem, -, default, -⟩ := (deliverLoop_ends_iff (pendingSignals_sorted _) _).mp ends
  have nine : sig ∈ [9] := only ▸ mem
  rw [mem_singleton.mp nine] at default
  exact handler default

end Jlos.Signal
