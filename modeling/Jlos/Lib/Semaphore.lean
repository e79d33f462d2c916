import Mathlib

/-!
# Counting semaphores

A semaphore as its users see it: a number of permits, and those who wait for one in the order in
which they came.
-/
namespace Lib

open List

structure Counting (ι : Type) where
  permits : Nat
  waiting : List ι
  deriving DecidableEq, Repr

namespace Counting

variable {ι : Type}

/-- Takes a permit, or joins those who wait; the flag says which. -/
def wait (s : Counting ι) (t : ι) : Bool × Counting ι :=
  if 0 < s.permits then (true, { s with permits := s.permits - 1 })
  else (false, { s with waiting := s.waiting ++ [t] })

/-- Passes a permit to the first of those who wait, or keeps it. -/
def post (s : Counting ι) : Option ι × Counting ι :=
  match s.waiting with
  | [] => (none, { s with permits := s.permits + 1 })
  | t :: ts => (some t, { s with waiting := ts })

/-- Nobody waits while there are permits. -/
def Tight (s : Counting ι) : Prop := s.permits = 0 ∨ s.waiting = []

/-- The permits that are there or, negative, that are missing. -/
def value (s : Counting ι) : Int := s.permits - s.waiting.length

variable {s : Counting ι} {t : ι}

theorem wait_cases (s : Counting ι) (t : ι) : (0 < s.permits ∧ s.wait t = (true, { s with permits := s.permits - 1 })) ∨
    (s.permits = 0 ∧ s.wait t = (false, { s with waiting := s.waiting ++ [t] })) := by
  unfold wait
  split
  next some => exact .inl ⟨some, rfl⟩
  next none => exact .inr ⟨by omega, rfl⟩

theorem wait_value (s : Counting ι) (t : ι) : (s.wait t).2.value = s.value - 1 := by
  rcases s.wait_cases t with ⟨some, eq⟩ | ⟨none, eq⟩
  · simp only [eq, value]
    omega
  · simp only [eq, value, length_append, length_singleton]
    omega

theorem post_value (s : Counting ι) : s.post.2.value = s.value + 1 := by
  unfold post value
  split
  next empty =>
    simp only [empty, length_nil]
    omega
  next first rest queue =>
    simp only [queue, length_cons]
    omega

theorem Tight.wait (tight : s.Tight) : (s.wait t).2.Tight := by
  rcases s.wait_cases t with ⟨some, eq⟩ | ⟨none, eq⟩
  · rw [eq]
    exact .inr (tight.resolve_left (by omega))
  · rw [eq]
    exact .inl none

theorem Tight.post (tight : s.Tight) : s.post.2.Tight := by
  unfold Counting.post
  split
  next empty => exact .inr empty
  next first rest queue =>
    left
    exact tight.resolve_right (by rw [queue]; exact cons_ne_nil _ _)

theorem Tight.waiting_length (tight : s.Tight) : (s.waiting.length : Int) = max 0 (-s.value) := by
  unfold value
  rcases tight with none | empty
  · omega
  · rw [empty, length_nil]
    omega

end Counting

end Lib
