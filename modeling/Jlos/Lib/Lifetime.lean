import Jlos.Lib.Run

/-!
# Objects that live as long as they are referred to

References of several kinds to objects in a heap. The heap is right when every object has a
reference and can be used through all the references it has.
-/
namespace Lib

open Function

variable {ρ κ α ω : Type} {use : κ → ω → Prop}

/-- Objects live exactly as long as there are references to them, and can be used through each. -/
structure Exact (use : κ → ω → Prop) (ref : ρ → Option (κ × α)) (heap : α → Option ω) : Prop where
  usable : ∀ r k a, ref r = some (k, a) → ∃ o, heap a = some o ∧ use k o
  held : ∀ a o, heap a = some o → ∃ r k, ref r = some (k, a)

/-- The same objects, each as usable as before. -/
def Kept (use : κ → ω → Prop) (heap heap' : α → Option ω) : Prop :=
  ∀ a, (heap a = none ∧ heap' a = none) ∨ ∃ o o', heap a = some o ∧ heap' a = some o' ∧ ∀ k, use k o → use k o'

variable {ref : ρ → Option (κ × α)} {heap heap' : α → Option ω} {r : ρ} {k : κ} {a : α} {o : ω}

namespace Kept

theorem refl (heap : α → Option ω) : Kept use heap heap := by
  intro a
  cases at_a : heap a with
  | none => exact .inl ⟨rfl, rfl⟩
  | some o => exact .inr ⟨o, o, rfl, rfl, fun _ used => used⟩

theorem trans {heap'' : α → Option ω} (first : Kept use heap heap') (second : Kept use heap' heap'') :
    Kept use heap heap'' := by
  intro a
  rcases first a with ⟨none, none'⟩ | ⟨o, o', at_a, at_a', keeps⟩
  · rcases second a with ⟨-, none''⟩ | ⟨o', -, at_a', -⟩
    · exact .inl ⟨none, none''⟩
    · rw [none'] at at_a'
      cases at_a'
  · rcases second a with ⟨none', -⟩ | ⟨o₁, o'', at_a₁, at_a'', keeps'⟩
    · rw [at_a'] at none'
      cases none'
    · rw [at_a'] at at_a₁
      cases at_a₁
      exact .inr ⟨o, o'', at_a, at_a'', fun k used => keeps' k (keeps k used)⟩

theorem update [DecidableEq α] {o' : ω} (at_a : heap a = some o) (keeps : ∀ k, use k o → use k o') :
    Kept use heap (update heap a (some o')) := by
  intro b
  by_cases here : b = a
  · exact .inr ⟨o, o', by rw [here, at_a], by rw [here, update_self], keeps⟩
  · rw [update_of_ne here]
    exact refl heap b

end Kept

namespace Exact

/-- An object that cannot be used has to be freed. -/
theorem use_of_mem (h : Exact use ref heap) (at_a : heap a = some o) : ∃ k, use k o := by
  obtain ⟨r, k, at_r⟩ := h.held a o at_a
  obtain ⟨o', at_a', used⟩ := h.usable r k a at_r
  rw [at_a] at at_a'
  cases at_a'
  exact ⟨k, used⟩

/-- The objects change, and remain as usable as they were. -/
theorem modify (h : Exact use ref heap) (kept : Kept use heap heap') : Exact use ref heap' := by
  constructor
  case usable =>
    intro r k a at_r
    obtain ⟨o, at_a, used⟩ := h.usable r k a at_r
    rcases kept a with ⟨none, -⟩ | ⟨o₁, o', at_a₁, at_a', keeps⟩
    · rw [none] at at_a
      cases at_a
    · rw [at_a₁] at at_a
      cases at_a
      exact ⟨o', at_a', keeps k used⟩
  case held =>
    intro a o' at_a'
    rcases kept a with ⟨-, none⟩ | ⟨o, -, at_a, -, -⟩
    · rw [none] at at_a'
      cases at_a'
    · exact h.held a o at_a

/-- The references move, and refer to the same objects. -/
theorem rename {ρ' : Type} {ref' : ρ' → Option (κ × α)} (h : Exact use ref heap)
    (sub : ∀ r' x, ref' r' = some x → ∃ r, ref r = some x)
    (sup : ∀ r k a, ref r = some (k, a) → ∃ r' k', ref' r' = some (k', a)) : Exact use ref' heap := by
  constructor
  case usable =>
    intro r' k a at_r'
    obtain ⟨r, at_r⟩ := sub r' (k, a) at_r'
    exact h.usable r k a at_r
  case held =>
    intro a o at_a
    obtain ⟨r, k, at_r⟩ := h.held a o at_a
    exact sup r k a at_r

/-- Some references go away, and no object: right if there is another reference to every object
concerned. -/
theorem forget_iff (h : Exact use ref heap) (gone : ρ → Prop) [DecidablePred gone] :
    Exact use (fun r => if gone r then none else ref r) heap ↔
      ∀ r k a, gone r → ref r = some (k, a) → ∃ r' k', ¬gone r' ∧ ref r' = some (k', a) := by
  constructor
  · intro after r k a dead at_r
    obtain ⟨o, at_a, -⟩ := h.usable r k a at_r
    obtain ⟨r', k', at_r'⟩ := after.held a o at_a
    split at at_r'
    next => cases at_r'
    next alive => exact ⟨r', k', alive, at_r'⟩
  intro others
  apply h.rename
  · intro r' x at_r'
    split at at_r'
    next => cases at_r'
    next => exact ⟨r', at_r'⟩
  · intro r k a at_r
    by_cases dead : gone r
    · obtain ⟨r', k', alive, at_r'⟩ := others r k a dead at_r
      exact ⟨r', k', by rw [if_neg alive, at_r']⟩
    · exact ⟨r, k, by rw [if_neg dead, at_r]⟩

theorem ne_of_free {ι β : Type} {f : ι → Option β} {i j : ι} {x : β} (free : f i = none)
    (at_j : f j = some x) : j ≠ i := by
  rintro rfl
  cases free.symm.trans at_j

variable [DecidableEq ρ]

theorem share (h : Exact use ref heap) {r₀ : ρ} (free : ref r = none) (at_r₀ : ref r₀ = some (k, a)) :
    Exact use (update ref r (some (k, a))) heap := by
  apply h.rename
  · intro r' x at_r'
    rcases of_update at_r' with ⟨-, new⟩ | ⟨-, old⟩
    · exact ⟨r₀, at_r₀.trans new⟩
    · exact ⟨r', old⟩
  · intro r' k' a' at_r'
    exact ⟨r', k', by rw [update_of_ne (ne_of_free free at_r'), at_r']⟩

variable [DecidableEq α]

theorem add (h : Exact use ref heap) (free : ref r = none) (new : heap a = none) (used : use k o) :
    Exact use (update ref r (some (k, a))) (update heap a (some o)) := by
  constructor
  case usable =>
    intro r' k' a' at_r'
    rcases of_update at_r' with ⟨-, here⟩ | ⟨-, at_r'⟩
    · cases here
      exact ⟨o, update_self .., used⟩
    · obtain ⟨o', at_a', used'⟩ := h.usable r' k' a' at_r'
      exact ⟨o', by rw [update_of_ne (ne_of_free new at_a'), at_a'], used'⟩
  case held =>
    intro a' o' at_a'
    rcases of_update at_a' with ⟨rfl, -⟩ | ⟨-, at_a'⟩
    · exact ⟨r, k, update_self ..⟩
    · obtain ⟨r', k', at_r'⟩ := h.held a' o' at_a'
      exact ⟨r', k', by rw [update_of_ne (ne_of_free free at_r'), at_r']⟩

/-- A reference and its object go away: right if there is no other one. -/
theorem drop_iff (h : Exact use ref heap) (at_r : ref r = some (k, a)) :
    Exact use (update ref r none) (update heap a none) ↔ ∀ r' k', ref r' = some (k', a) → r' = r := by
  constructor
  · intro after r' k' at_r'
    by_contra other
    obtain ⟨o', at_a, -⟩ := after.usable r' k' a (by rw [update_of_ne other, at_r'])
    rw [update_self] at at_a
    cases at_a
  intro only
  constructor
  case usable =>
    intro r' k' a' at_r'
    rcases of_update at_r' with ⟨-, gone⟩ | ⟨here, at_r'⟩
    · cases gone
    · obtain ⟨o', at_a', used⟩ := h.usable r' k' a' at_r'
      have other : a' ≠ a := by
        rintro rfl
        exact here (only r' k' at_r')
      exact ⟨o', by rw [update_of_ne other, at_a'], used⟩
  case held =>
    intro a' o' at_a'
    rcases of_update at_a' with ⟨-, gone⟩ | ⟨here, at_a'⟩
    · cases gone
    · obtain ⟨r', k', at_r'⟩ := h.held a' o' at_a'
      have other : r' ≠ r := by
        rintro rfl
        rw [at_r] at at_r'
        cases at_r'
        exact here rfl
      exact ⟨r', k', by rw [update_of_ne other, at_r']⟩

end Exact

end Lib
