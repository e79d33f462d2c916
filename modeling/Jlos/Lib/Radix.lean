import Mathlib

/-!
# Radix trees in a store of tables

A table maps indices to entries, and an entry may lead to another table. Each table has one place,
the tree it belongs to and the path that leads to it, so a change of one entry is seen on the paths
through that entry only.
-/
namespace Lib.Radix

open List Option

variable {τ ε κ : Type*} {k : κ}

/-- The table at the end of a path. -/
def walk (child : ε → Option τ) (tables : τ → Nat → Option ε) : τ → List Nat → Option τ
  | t, [] => some t
  | t, i :: path => ((tables t i).bind child).bind fun t => walk child tables t path

def update [DecidableEq τ] (tables : τ → Nat → Option ε) (t : τ) (i : Nat) (e : Option ε) : τ → Nat → Option ε :=
  Function.update tables t (Function.update (tables t) i e)

section update

variable [DecidableEq τ] {tables : τ → Nat → Option ε} {t u : τ} {i j : Nat} {e : Option ε}

@[simp] theorem update_self : update tables t i e t i = e := by simp [update]

theorem update_of_ne (ne : u ≠ t ∨ j ≠ i) : update tables t i e u j = tables u j := by
  obtain rfl | same := eq_or_ne u t
  · have other : j ≠ i := ne.resolve_left fun h => h rfl
    simp [update, other]
  · simp [update, same]

theorem of_update {x : Option ε} (eq : update tables t i e u j = x) :
    u = t ∧ j = i ∧ e = x ∨ ¬(u = t ∧ j = i) ∧ tables u j = x := by
  by_cases here : u = t ∧ j = i
  · obtain ⟨rfl, rfl⟩ := here
    exact .inl ⟨rfl, rfl, update_self.symm.trans eq⟩
  · exact .inr ⟨here, (update_of_ne (not_and_or.mp here)).symm.trans eq⟩

end update

variable {child : ε → Option τ} {tables : τ → Nat → Option ε} {place : τ → Option (κ × List Nat)}
  {U : List Nat → Prop} {tables' : τ → Nat → Option ε}

theorem walk_append (t : τ) (p q : List Nat) :
    walk child tables t (p ++ q) = (walk child tables t p).bind fun u => walk child tables u q := by
  induction p generalizing t with
  | nil => rfl
  | cons i p ih =>
    simp only [cons_append, walk]
    cases (tables t i).bind child with
    | none => rfl
    | some u => exact ih u

/-- An entry of a table with a place, on a path of a set, leads to a table. -/
def Leads (child : ε → Option τ) (tables : τ → Nat → Option ε) (place : τ → Option (κ × List Nat))
    (U : List Nat → Prop) (t u : τ) : Prop :=
  ∃ k p i e, place t = some (k, p) ∧ U (p ++ [i]) ∧ tables t i = some e ∧ child e = some u

/-- The places are right on the paths of a set, and no table hangs in two others. -/
structure Forest (child : ε → Option τ) (tables : τ → Nat → Option ε) (place : τ → Option (κ × List Nat))
    (U : List Nat → Prop) : Prop where
  single : ∀ {t t' u : τ}, Leads child tables place U t u → Leads child tables place U t' u → t = t'
  down : ∀ {t : τ} {k : κ} {p : List Nat} {i : Nat} {e : ε} {u : τ}, place t = some (k, p) → U (p ++ [i]) →
    tables t i = some e → child e = some u → place u = some (k, p ++ [i])

/-- A set of paths that has every initial part of a path it has. -/
def Closed (U : List Nat → Prop) : Prop := ∀ p q, U (p ++ q) → U p

namespace Forest

theorem walk_place (h : Forest child tables place U) (closed : Closed U) (q : List Nat) :
    ∀ {t u : τ} {p : List Nat}, place t = some (k, p) → U (p ++ q) → walk child tables t q = some u →
      place u = some (k, p ++ q) := by
  induction q with
  | nil =>
    intro t u p at_t _ walked
    simp only [walk, some.injEq] at walked
    rw [← walked, append_nil]
    exact at_t
  | cons i q ih =>
    intro t u p at_t covered walked
    have split : p ++ i :: q = (p ++ [i]) ++ q := by simp
    rw [split] at covered ⊢
    obtain ⟨v, step, rest⟩ := bind_eq_some_iff.mp walked
    obtain ⟨e, present, leads⟩ := bind_eq_some_iff.mp step
    exact ih (h.down at_t (closed _ _ covered) present leads) covered rest

/-- A change after which the entries on the paths of the set are some of the old ones, and lead
where they led. -/
theorem of_old {place' : τ → Option (κ × List Nat)} (h : Forest child tables place U)
    (old : ∀ {t k p i e}, place' t = some (k, p) → U (p ++ [i]) → tables' t i = some e →
      place t = some (k, p) ∧ tables t i = some e)
    (kept : ∀ {t u}, Leads child tables' place' U t u → Leads child tables place U t u → place' u = place u) :
    Forest child tables' place' U := by
  have leads {t u : τ} : Leads child tables' place' U t u → Leads child tables place U t u := by
    rintro ⟨k, p, i, e, placed, inner, found, into⟩
    obtain ⟨before, entry⟩ := old placed inner found
    exact ⟨k, p, i, e, before, inner, entry, into⟩
  refine ⟨fun one two => h.single (leads one) (leads two), fun placed inner found into => ?_⟩
  obtain ⟨before, entry⟩ := old placed inner found
  have now : Leads child tables' place' U _ _ := ⟨_, _, _, _, placed, inner, found, into⟩
  rw [kept now (leads now)]
  exact h.down before inner entry into

section

variable (h : Forest child tables place U) (closed : Closed U)
include h closed

/-- A path whose entries are the same does not see a change. -/
theorem walk_congr (q : List Nat) : ∀ {t : τ} {p : List Nat}, place t = some (k, p) →
      U (p ++ q) → (∀ {u p' i}, place u = some (k, p') → p' ++ [i] <+: p ++ q → tables' u i = tables u i) →
      walk child tables' t q = walk child tables t q := by
  induction q with
  | nil => intro t p _ _ _; rfl
  | cons i q ih =>
    intro t p at_t covered same
    have split : p ++ i :: q = (p ++ [i]) ++ q := by simp
    rw [split] at covered same
    simp only [walk, same at_t (prefix_append _ _)]
    cases present : tables t i with
    | none => rfl
    | some e =>
      cases leads : child e with
      | none => simp [leads]
      | some u =>
        simp only [bind_some, leads]
        exact ih (h.down at_t (closed _ _ covered) present leads) covered same

theorem walk_fresh [DecidableEq τ] {t₀ : τ} (new : Nat → Option ε) (fresh : place t₀ = none) (q : List Nat) {t : τ}
    {p : List Nat} (at_t : place t = some (k, p)) (covered : U (p ++ q)) :
    walk child (Function.update tables t₀ new) t q = walk child tables t q := by
  refine h.walk_congr closed q at_t covered fun at_u _ => ?_
  rw [Function.update_of_ne]
  rintro rfl
  rw [fresh] at at_u
  cases at_u

variable [DecidableEq τ]

/-- A path through the changed entry goes on with the new one. -/
theorem walk_through {r t : τ} {p : List Nat} (i : Nat) (x : Option ε) (at_r : place r = some (k, [])) (covered : U p)
    (reach : walk child tables r p = some t) (q : List Nat) : walk child (update tables t i x) r (p ++ i :: q) =
      (x.bind child).bind fun u => walk child (update tables t i x) u q := by
  have at_t : place t = some (k, p) := h.walk_place closed p at_r covered reach
  have before : walk child (update tables t i x) r p = some t := by
    rw [h.walk_congr closed p at_r covered fun {u p' j} at_u prefixed => ?_, reach]
    refine update_of_ne (.inl ?_)
    rintro rfl
    rw [at_t] at at_u
    cases at_u
    have := prefixed.length_le
    simp only [nil_append, length_append, length_singleton] at this
    omega
  rw [walk_append, before]
  simp [walk]

end

end Forest

end Lib.Radix
