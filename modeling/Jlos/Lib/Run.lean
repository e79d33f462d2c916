import Mathlib

/-!
# Runs of a labelled transition system

A run records every step it takes together with the state the step was taken in, so
that a property of a whole history is a property of its recorded steps.
-/
namespace Lib

open List Option

variable {σ α : Type} {G : σ → α → Prop} {as : List α} {I : σ → Prop}

/-- A value of an updated function is the new one, or an old one at another place. -/
theorem of_update {κ β : Type} [DecidableEq κ] {f : κ → β} {a x : κ} {b y : β} (eq : Function.update f a b x = y) :
    x = a ∧ b = y ∨ x ≠ a ∧ f x = y := by
  rw [Function.update_apply] at eq
  split at eq
  next here => exact .inl ⟨here, eq⟩
  next other => exact .inr ⟨other, eq⟩

/-- `Run step s₀ es s`: the steps recorded in `es`, taken from `s₀`, end in `s`. -/
inductive Run (step : σ → α → σ → Prop) (s₀ : σ) : List (σ × α) → σ → Prop
  | start : Run step s₀ [] s₀
  | snoc {es s a s'} : Run step s₀ es s → step s a s' → Run step s₀ (es ++ [(s, a)]) s'

namespace Run

variable {step : σ → α → σ → Prop} {s₀ : σ} {es : List (σ × α)} {s : σ}

/-- A property that holds at the start and that every guarded step keeps holds in every
state of a run whose steps all meet the guard. -/
theorem invariant_of_guard (initial : I s₀) (preserved : ∀ s a s', I s → G s a → step s a s' → I s')
    (run : Run step s₀ es s) (guarded : ∀ e ∈ es, G e.1 e.2) : I s ∧ ∀ e ∈ es, I e.1 := by
  induction run with
  | start => exact ⟨initial, by simp⟩
  | @snoc es s a s' _ taken ih =>
    have before := ih fun e he => guarded e (mem_append_left _ he)
    refine ⟨preserved s a s' before.1 (guarded (s, a) (by simp)) taken, ?_⟩
    intro e he
    rcases mem_append.mp he with old | new
    · exact before.2 e old
    · rw [mem_singleton.mp new]
      exact before.1

/-- A property that holds at the start and that every step keeps holds in every state. -/
theorem invariant (initial : I s₀) (preserved : ∀ s a s', I s → step s a s' → I s') (run : Run step s₀ es s) :
    I s ∧ ∀ e ∈ es, I e.1 := invariant_of_guard (G := fun _ _ => True) initial
    (fun s a s' hs _ taken => preserved s a s' hs taken) run (fun _ _ => trivial)

/-- A property of the history and the state that every step extends holds at the end of every
run. -/
theorem history_invariant {I : List (σ × α) → σ → Prop} (initial : I [] s₀)
    (extended : ∀ es s a s', I es s → step s a s' → I (es ++ [(s, a)]) s') (run : Run step s₀ es s) : I es s := by
  induction run with
  | start => exact initial
  | snoc _ taken ih => exact extended _ _ _ _ ih taken

/-- When one step keeps a property exactly if it meets the guard, a run keeps the
property in every state it visits exactly if all its steps meet the guard. -/
theorem forall_states_iff {P : σ → Prop} (initial : I s₀)
    (preserved : ∀ s a s', I s → step s a s' → I s') (holds : P s₀)
    (exact_step : ∀ s a s', I s → P s → step s a s' → (P s' ↔ G s a)) (run : Run step s₀ es s) :
    (P s ∧ ∀ e ∈ es, P e.1) ↔ ∀ e ∈ es, G e.1 e.2 := by
  induction run with
  | start => simp [holds]
  | @snoc es s a s' before taken ih =>
    have inv : I s := (invariant initial preserved before).1
    simp only [mem_append, mem_singleton, or_imp, forall_and, forall_eq]
    rw [← ih]
    constructor
    · rintro ⟨after, old, now⟩
      exact ⟨⟨now, old⟩, (exact_step s a s' inv now taken).mp after⟩
    · rintro ⟨⟨now, old⟩, met⟩
      exact ⟨(exact_step s a s' inv now taken).mpr met, old, now⟩

theorem cons {s₁ : σ} {a : α} (first : step s₀ a s₁) (run : Run step s₁ es s) : Run step s₀ ((s₀, a) :: es) s := by
  induction run with
  | start => exact snoc start first
  | snoc _ taken ih => exact snoc ih taken

theorem trans {s' : σ} {es' : List (σ × α)} (run : Run step s₀ es s) (more : Run step s es' s') :
    Run step s₀ (es ++ es') s' := by
  induction more with
  | start => rwa [append_nil]
  | snoc _ taken ih =>
    rw [← append_assoc]
    exact snoc ih taken

theorem split {s₁ : σ} {a : α} {es₁ es₂ : List (σ × α)} (run : Run step s₀ (es₁ ++ (s₁, a) :: es₂) s) :
    Run step s₀ es₁ s₁ ∧ ∃ s₂, step s₁ a s₂ ∧ Run step s₂ es₂ s := by
  induction es₂ using List.reverseRecOn generalizing s with
  | nil =>
    generalize whole : es₁ ++ [(s₁, a)] = es at run
    cases run with
    | start => simp at whole
    | snoc before taken =>
      obtain ⟨rfl, same⟩ := append_inj' whole rfl
      cases same
      exact ⟨before, _, taken, start⟩
  | append_singleton es₂ e ih =>
    generalize whole : es₁ ++ (s₁, a) :: (es₂ ++ [e]) = es at run
    cases run with
    | start => simp at whole
    | snoc before taken =>
      rw [← cons_append, ← append_assoc] at whole
      obtain ⟨rfl, same⟩ := append_inj' whole rfl
      cases same
      obtain ⟨first, s₂, taken₁, rest⟩ := ih before
      exact ⟨first, s₂, taken₁, snoc rest taken⟩

theorem mono {step' : σ → α → σ → Prop} (sub : ∀ s a s', step s a s' → step' s a s') (run : Run step s₀ es s) :
    Run step' s₀ es s := by
  induction run with
  | start => exact start
  | snoc _ taken ih => exact snoc ih (sub _ _ _ taken)

end Run

/-! ### Events -/

section events

variable {β θ : Type}

theorem filterMap_snoc (f : α → Option β) (l : List α) (a : α) :
    (l ++ [a]).filterMap f = l.filterMap f ++ (f a).toList := by
  cases found : f a <;> simp [found]

variable [DecidableEq θ]

/-- What a list of events has of one thread. -/
def ofThread (t : θ) (l : List (θ × β)) : List β := l.filterMap fun e => if e.1 = t then some e.2 else none

@[simp] theorem ofThread_nil (t : θ) : ofThread t ([] : List (θ × β)) = [] := rfl

@[simp] theorem ofThread_self (t : θ) (x : β) : ofThread t [(t, x)] = [x] := by
  simp [ofThread]

theorem ofThread_other {t i : θ} (other : i ≠ t) (x : β) : ofThread i [(t, x)] = [] := by
  simp [ofThread, other.symm]

/-- What a step of one thread adds to the events of each. -/
theorem ofThread_map (t i : θ) (o : Option β) : ofThread i (o.map (t, ·)).toList = if i = t then o.toList else [] := by
  cases o with
  | none => simp
  | some x =>
    obtain rfl | here := eq_or_ne i t
    · simp
    · simp [ofThread_other here, here]

theorem ofThread_append (t : θ) (l l' : List (θ × β)) : ofThread t (l ++ l') = ofThread t l ++ ofThread t l' :=
  filterMap_append

end events

/-! ### Executable steps -/

section total

variable (exec : σ → α → σ) (G : σ → α → Prop)

/-- Every action of the list meets the guard in the state it is taken in. -/
def MeetsAll (s : σ) : List α → Prop
  | [] => True
  | a :: as => G s a ∧ MeetsAll (exec s a) as

variable {exec G}

/-- A list of actions of a system without failures is a run of it. -/
theorem exists_run_of_meetsAll (step : σ → α → σ → Prop) (taken : ∀ s a, G s a → step s a (exec s a)) {s : σ}
    (meets : MeetsAll exec G s as) :
    ∃ es, Run step s es (as.foldl exec s) ∧ es.map Prod.snd = as ∧ ∀ e ∈ es, G e.1 e.2 := by
  induction as generalizing s with
  | nil => exact ⟨[], Run.start, rfl, by simp⟩
  | cons a as ih =>
    obtain ⟨es, run, labels, all⟩ := ih meets.2
    refine ⟨(s, a) :: es, Run.cons (taken s a meets.1) run, by rw [map_cons, labels], fun e mem => ?_⟩
    rcases mem_cons.mp mem with rfl | rest
    · exact meets.1
    · exact all e rest

end total

/-- Takes an action if it can be taken and meets the guard. -/
def guarded (exec : σ → α → Option σ) (G : σ → α → Prop) [∀ s a, Decidable (G s a)] (s : σ) (a : α) : Option σ :=
  if G s a then exec s a else none

/-- A list of actions that can all be taken is a run. -/
theorem exists_run_of_foldlM {exec : σ → α → Option σ} [∀ s a, Decidable (G s a)] {s s' : σ}
    (ends : as.foldlM (guarded exec G) s = some s') :
    ∃ es, Run (fun s a s' => exec s a = some s') s es s' ∧ es.map Prod.snd = as ∧ ∀ e ∈ es, G e.1 e.2 := by
  induction as generalizing s with
  | nil =>
    cases ends
    exact ⟨[], Run.start, rfl, by simp⟩
  | cons a as ih =>
    obtain ⟨next, first, rest⟩ := bind_eq_some_iff.mp ends
    obtain ⟨es, run, labels, all⟩ := ih rest
    unfold guarded at first
    split at first
    next meets =>
      refine ⟨(s, a) :: es, Run.cons first run, by rw [map_cons, labels], fun e mem => ?_⟩
      rcases mem_cons.mp mem with rfl | rest
      · exact meets
      · exact all e rest
    next => cases first

section trace

variable {ε β : Type} (exec : σ → α → Except ε σ) (legal : σ → α → Prop) [∀ s a, Decidable (legal s a)]

/-- Executes a list of actions as long as they are legal and do not fail, and records the
steps. -/
def trace (s : σ) : List α → Option (List (σ × α) × σ)
  | [] => some ([], s)
  | a :: as =>
    if legal s a then
      match exec s a with
      | .error _ => none
      | .ok next => (trace next as).map fun (es, last) => ((s, a) :: es, last)
    else none

variable {exec legal}

/-- A complete execution is a run of its actions. -/
theorem Run.of_trace {s₀ s : σ} {es : List (σ × α)} (traced : trace exec legal s₀ as = some (es, s)) :
    Run (fun s a s' => legal s a ∧ exec s a = .ok s') s₀ es s ∧ es.map Prod.snd = as := by
  induction as generalizing s₀ es with
  | nil =>
    cases traced
    exact ⟨Run.start, rfl⟩
  | cons a as ih =>
    unfold trace at traced
    split at traced
    next allowed =>
      cases stepped : exec s₀ a with
      | error fault => simp [stepped] at traced
      | ok next =>
        simp only [stepped, map_eq_some_iff] at traced
        obtain ⟨⟨rest, last⟩, tail, eq⟩ := traced
        cases eq
        obtain ⟨run, actions⟩ := ih tail
        exact ⟨Run.cons ⟨allowed, stepped⟩ run, by rw [map_cons, actions]⟩
    · cases traced

/-- Reads a run off a computation: the steps meet `G`, and `g` of the last state is `v`. -/
theorem exists_run_of_trace {ι : Type} {init : Except ε ι} {start : ι → σ}
    [∀ s a, Decidable (G s a)] {g : σ → β} {v : β}
    (values : init.toOption.bind (fun i => (trace exec legal (start i) as).map
      fun r => (r.1.all fun e => decide (G e.1 e.2), g r.2)) = some (true, v)) :
    ∃ i es s, init = .ok i ∧ Run (fun s a s' => legal s a ∧ exec s a = .ok s') (start i) es s ∧
      es.map Prod.snd = as ∧ (∀ e ∈ es, G e.1 e.2) ∧ g s = v := by
  cases init with
  | error fault => cases values
  | ok i =>
    simp only [Except.toOption, bind_some, map_eq_some_iff, Prod.mk.injEq] at values
    obtain ⟨⟨es, s⟩, traced, guarded, value⟩ := values
    obtain ⟨run, actions⟩ := Run.of_trace traced
    refine ⟨i, es, s, rfl, run, actions, fun e taken => ?_, value⟩
    exact of_decide_eq_true (all_eq_true.mp guarded e taken)

theorem exists_run_from (exec : σ → α → Except ε σ) (legal : σ → α → Prop) [∀ s a, Decidable (legal s a)] (s₀ : σ)
    (as : List α) [∀ s a, Decidable (G s a)] {g : σ → β} {v : β}
    (values : (trace exec legal s₀ as).map (fun r => (r.1.all fun e => decide (G e.1 e.2), g r.2)) = some (true, v)) :
    ∃ es s, Run (fun s a s' => legal s a ∧ exec s a = .ok s') s₀ es s ∧ (∀ e ∈ es, G e.1 e.2) ∧ g s = v := by
  have values' : (Except.ok s₀ : Except ε σ).toOption.bind (fun i => (trace exec legal (id i) as).map
      fun r => (r.1.all fun e => decide (G e.1 e.2), g r.2)) = some (true, v) := values
  obtain ⟨i, es, s, init, run, -, met, value⟩ := exists_run_of_trace values'
  cases init
  exact ⟨es, s, run, met, value⟩

/-- A result of a computation that ends well comes from a state it ends in. -/
theorem exists_ok_of_map {x : Except ε α} {g : α → β} {v : β} (eq : x.map g = .ok v) : ∃ a, x = .ok a ∧ g a = v := by
  cases x with
  | error fault => cases eq
  | ok a => exact ⟨a, rfl, Except.ok.inj eq⟩

end trace

end Lib
