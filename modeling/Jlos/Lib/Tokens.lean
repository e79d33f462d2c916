import Jlos.Lib.Run

/-!
# Tokens and their holders

A set of tokens that are out, each held by exactly one holder: the clients together, or one of the
threads that carry a token from one place to another.
-/
namespace Lib

open Function List

variable {τ θ : Type}

/-- Every token that is out is either among the clients' or carried by one thread. -/
structure Owned (out : τ → Prop) (live : List τ) (carry : θ → Option τ) : Prop where
  nodup : live.Nodup
  held : ∀ o, out o ↔ o ∈ live ∨ ∃ t, carry t = some o
  apart : ∀ o t, o ∈ live → carry t ≠ some o
  one : ∀ o t t', carry t = some o → carry t' = some o → t = t'

namespace Owned

variable {out out' : τ → Prop} {live : List τ} {carry : θ → Option τ} {o : τ} {t : θ}

theorem carried (h : Owned out live carry) (carries : carry t = some o) : out o := (h.held o).mpr (.inr ⟨t, carries⟩)

theorem mint (h : Owned out live carry) (fresh : ¬out o) (grows : ∀ x, out' x ↔ x = o ∨ out x) :
    Owned out' (o :: live) carry := by
  have absent : o ∉ live := fun member => fresh ((h.held o).mpr (.inl member))
  refine ⟨nodup_cons.mpr ⟨absent, h.nodup⟩, fun x => ?_, fun x t member carries => ?_, h.one⟩
  · rw [grows, h.held, mem_cons, or_assoc]
  · rcases mem_cons.mp member with rfl | old
    · exact fresh (h.carried carries)
    · exact h.apart x t old carries

theorem perm {live' : List τ} (h : Owned out live carry) (same : live.Perm live') : Owned out live' carry :=
  ⟨same.nodup_iff.mp h.nodup, fun o => by rw [h.held, same.mem_iff], fun o t mem => h.apart o t (same.mem_iff.mpr mem),
    h.one⟩

variable [DecidableEq θ]

/-- A new token goes to a thread that carries none. -/
theorem mintCarry (h : Owned out live carry) (fresh : ¬out o) (idle : carry t = none)
    (grows : ∀ x, out' x ↔ x = o ∨ out x) : Owned out' live (update carry t (some o)) := by
  have absent : ∀ t', carry t' ≠ some o := fun t' carries => fresh (h.carried carries)
  refine ⟨h.nodup, fun x => ?_, fun x t' member carries => ?_, fun x t₁ t₂ first second => ?_⟩
  · rw [grows, h.held]
    constructor
    · rintro (rfl | member | ⟨t', carries⟩)
      · exact .inr ⟨t, update_self ..⟩
      · exact .inl member
      · refine .inr ⟨t', ?_⟩
        have ne : t' ≠ t := by
          rintro rfl
          cases idle.symm.trans carries
        rwa [update_of_ne ne]
    · rintro (member | ⟨t', carries⟩)
      · exact .inr (.inl member)
      · rcases of_update carries with ⟨-, new⟩ | ⟨-, old⟩
        · exact .inl (Option.some.inj new).symm
        · exact .inr (.inr ⟨t', old⟩)
  · rcases of_update carries with ⟨-, new⟩ | ⟨-, old⟩
    · cases new
      exact fresh ((h.held o).mpr (.inl member))
    · exact h.apart x t' member old
  · rcases of_update first with ⟨rfl, new⟩ | ⟨-, old⟩ <;> rcases of_update second with ⟨rfl, new'⟩ | ⟨-, old'⟩
    · rfl
    · cases new
      exact absurd old' (absent t₂)
    · cases new'
      exact absurd old (absent t₁)
    · exact h.one x t₁ t₂ old old'

/-- The tokens a thread's neighbours carry when it puts its own down. -/
theorem others (h : Owned out live carry) (carries : carry t = some o) (x : τ) :
    (∃ t', update carry t none t' = some x) ↔ x ≠ o ∧ ∃ t', carry t' = some x := by
  constructor
  · rintro ⟨t', other⟩
    rcases of_update other with ⟨-, none⟩ | ⟨same, other⟩
    · cases none
    · refine ⟨?_, t', other⟩
      rintro rfl
      exact same (h.one x t' t other carries)
  · rintro ⟨ne, t', other⟩
    refine ⟨t', ?_⟩
    have apart : t' ≠ t := by
      rintro rfl
      exact ne (Option.some.inj (other.symm.trans carries))
    rwa [update_of_ne apart]

theorem of_update_none {x : τ} {t₁ : θ} (other : update carry t none t₁ = some x) : carry t₁ = some x := by
  rcases of_update other with ⟨-, none⟩ | ⟨-, other⟩
  · cases none
  · exact other

/-- A thread hands its token to the clients. -/
theorem deliver (h : Owned out live carry) (carries : carry t = some o) :
    Owned out (o :: live) (update carry t none) := by
  have absent : o ∉ live := fun member => h.apart o t member carries
  refine ⟨nodup_cons.mpr ⟨absent, h.nodup⟩, fun x => ?_, fun x t' member other => ?_,
    fun x t₁ t₂ first second => h.one x t₁ t₂ (of_update_none first) (of_update_none second)⟩
  · rw [h.held, h.others carries, mem_cons]
    obtain rfl | eq := eq_or_ne x o
    · simp only [true_or, iff_true]
      exact .inr ⟨t, carries⟩
    · simp [eq]
  · rcases mem_cons.mp member with rfl | old
    · exact ((h.others carries x).mp ⟨t', other⟩).1 rfl
    · exact h.apart x t' old (of_update_none other)

theorem collect [DecidableEq τ] (h : Owned out live carry) (member : o ∈ live) (idle : carry t = none) :
    Owned out (live.erase o) (update carry t (some o)) := by
  -- without the token the clients and the threads own the rest
  have rest : Owned (fun x => x ≠ o ∧ out x) (live.erase o) carry := by
    refine ⟨h.nodup.erase o, fun x => ?_, fun x t' old => h.apart x t' (mem_of_mem_erase old), h.one⟩
    rw [h.held, h.nodup.mem_erase_iff]
    constructor
    · rintro ⟨ne, old | carried⟩
      · exact .inl ⟨ne, old⟩
      · exact .inr carried
    · rintro (⟨ne, old⟩ | ⟨t', carries⟩)
      · exact ⟨ne, .inl old⟩
      · refine ⟨?_, .inr ⟨t', carries⟩⟩
        rintro rfl
        exact h.apart x t' member carries
  refine rest.mintCarry (fun both => both.1 rfl) idle fun x => ?_
  obtain rfl | eq := eq_or_ne x o
  · simp only [ne_eq, not_true_eq_false, false_and, or_false, iff_true]
    exact (h.held x).mpr (.inl member)
  · simp [eq]

theorem burn (h : Owned out live carry) (carries : carry t = some o) (shrinks : ∀ x, out' x ↔ x ≠ o ∧ out x) :
    Owned out' live (update carry t none) := by
  refine ⟨h.nodup, fun x => ?_, fun x t' member other => h.apart x t' member (of_update_none other),
    fun x t₁ t₂ first second => h.one x t₁ t₂ (of_update_none first) (of_update_none second)⟩
  rw [shrinks, h.held, h.others carries]
  constructor
  · rintro ⟨ne, member | carried⟩
    · exact .inl member
    · exact .inr ⟨ne, carried⟩
  · rintro (member | ⟨ne, carried⟩)
    · refine ⟨?_, .inl member⟩
      rintro rfl
      exact h.apart x t member carries
    · exact ⟨ne, .inr carried⟩

end Owned

end Lib
