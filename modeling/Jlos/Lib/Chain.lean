import Mathlib

/-!
# Tables of linked chains

A table gives every cell a link: the cell is free, is the last one of its chain, or leads to another
cell. `Chains` says that the cells in use are a disjoint union of chains.
-/
namespace Lib

open List

inductive Link (α : Type)
  | free
  | last
  | next (a : α)
  deriving DecidableEq, Repr

variable {α : Type} {t t' : α → Link α} {c : List α} {x : α}

/-- The cells of the list lead to one another in order, and the last one ends the chain. -/
def IsChain (t : α → Link α) : List α → Prop
  | [] => False
  | [x] => t x = .last
  | x :: y :: xs => t x = .next y ∧ IsChain t (y :: xs)

namespace IsChain

theorem congr (same : ∀ x ∈ c, t' x = t x) (chain : IsChain t c) : IsChain t' c := by
  induction c with
  | nil => exact chain
  | cons x xs ih =>
    cases xs with
    | nil => exact (same x (by simp)).trans chain
    | cons y ys =>
      constructor
      · rw [same x (by simp)]
        exact chain.1
      · exact ih (fun z mem => same z (mem_cons_of_mem _ mem)) chain.2

theorem link_at {k : Nat} (chain : IsChain t c) (here : (c)[k]? = some x) : t x = match (c)[k + 1]? with
      | none => .last
      | some y => .next y := by
  induction c generalizing k with
  | nil => cases here
  | cons z zs ih =>
    cases zs with
    | nil =>
      cases k with
      | zero =>
        cases here
        exact chain
      | succ k => cases here
    | cons w ws =>
      cases k with
      | zero =>
        cases here
        exact chain.1
      | succ k => exact ih chain.2 here

theorem used (chain : IsChain t c) (mem : x ∈ c) : t x ≠ .free := by
  obtain ⟨k, here⟩ := mem_iff_getElem?.mp mem
  rw [chain.link_at here]
  split <;> nofun

theorem unique {xs ys : List α} (chain : IsChain t (x :: xs)) (chain' : IsChain t (x :: ys)) : xs = ys := by
  induction xs generalizing x ys with
  | nil =>
    cases ys with
    | nil => rfl
    | cons y ys =>
      have ends : t x = .last := chain
      rw [chain'.1] at ends
      cases ends
  | cons z zs ih =>
    cases ys with
    | nil =>
      have ends : t x = .last := chain'
      rw [chain.1] at ends
      cases ends
    | cons y ys =>
      have same := chain.1.symm.trans chain'.1
      cases same
      rw [ih chain.2 chain'.2]

theorem eq_concat (chain : IsChain t c) {l : α} (mem : l ∈ c) (last : t l = .last) : ∃ front, c = front ++ [l] := by
  obtain ⟨k, here⟩ := mem_iff_getElem?.mp mem
  have ends := chain.link_at here
  rw [last] at ends
  split at ends <;> cases ends
  next none =>
    obtain ⟨lt, rfl⟩ := List.getElem?_eq_some_iff.mp here
    refine ⟨c.take k, ?_⟩
    rw [take_append_getElem lt, take_of_length_le (getElem?_eq_none_iff.mp none)]

theorem getElem?_next {cells : List α} (chain : IsChain t cells) {k : Nat} {y : α} (here : cells[k]? = some x)
    (leads : t x = .next y) : cells[k + 1]? = some y := by
  have link := chain.link_at here
  rw [leads] at link
  split at link <;> cases link
  assumption

theorem concat {front : List α} {l : α} (chain : IsChain t (front ++ [l])) (same : ∀ y ∈ front, t' y = t y)
    (linked : t' l = .next x) (ends : t' x = .last) : IsChain t' (front ++ [l] ++ [x]) := by
  induction front with
  | nil => exact ⟨linked, ends⟩
  | cons y ys ih =>
    have kept : t' y = t y := same y (by simp)
    have rest : ∀ z ∈ ys, t' z = t z := fun z mem => same z (mem_cons_of_mem _ mem)
    cases ys with
    | nil => exact ⟨kept.trans chain.1, ih chain.2 rest⟩
    | cons z zs => exact ⟨kept.trans chain.1, ih chain.2 rest⟩

end IsChain

/-- The cells of the domain that are in use are a disjoint union of the given chains. -/
structure Chains (D : α → Prop) (t : α → Link α) (cs : List (List α)) : Prop where
  chain : ∀ c ∈ cs, IsChain t c
  disjoint : cs.flatten.Nodup
  inside : ∀ c ∈ cs, ∀ x ∈ c, D x
  covers : ∀ x, D x → t x ≠ .free → ∃ c ∈ cs, x ∈ c

namespace Chains

variable {D : α → Prop} {cs : List (List α)}

section

variable (h : Chains D t cs) {as bs : List (List α)}
include h

theorem nodup (mem : c ∈ cs) : c.Nodup := (nodup_flatten.mp h.disjoint).1 c mem

theorem used (mem : c ∈ cs) (within : x ∈ c) : t x ≠ .free := (h.chain c mem).used within

theorem eq_of_mem {d : List α} (hc : c ∈ cs) (hd : d ∈ cs) (xc : x ∈ c) (xd : x ∈ d) : c = d := by
  by_contra ne
  have symm : Std.Symm (List.Disjoint (α := α)) := ⟨fun _ _ apart _ left right => apart right left⟩
  exact (nodup_flatten.mp h.disjoint).2.forall hc hd ne xc xd

/-- Some chains are replaced by others, of their cells and of free ones. -/
theorem replace {a o n b : List (List α)} (eq : cs = a ++ o ++ b) (chain : ∀ c ∈ n, IsChain t' c)
    (nodup : n.flatten.Nodup) (inside : ∀ x ∈ n.flatten, D x) (new : ∀ x ∈ n.flatten, x ∈ o.flatten ∨ t x = .free)
    (gone : ∀ x ∈ o.flatten, t' x ≠ .free → x ∈ n.flatten)
    (same : ∀ x, D x → x ∉ o.flatten → x ∉ n.flatten → t' x = t x) : Chains D t' (a ++ n ++ b) := by
  subst eq
  have flat := h.disjoint
  simp only [flatten_append, nodup_append, mem_append] at flat
  obtain ⟨⟨left, -, before⟩, right, behind⟩ := flat
  have old {c : List α} (mem : c ∈ a ∨ c ∈ b) : c ∈ a ++ o ++ b := by
    rcases mem with mem | mem <;> simp [mem]
  have away {c : List α} (mem : c ∈ a ∨ c ∈ b) {x : α} (hx : x ∈ c) : x ∉ o.flatten ∧ x ∉ n.flatten := by
    have off : x ∉ o.flatten := fun there => by
      rcases mem with mem | mem
      · exact before x (mem_flatten.mpr ⟨c, mem, hx⟩) x there rfl
      · exact behind x (.inr there) x (mem_flatten.mpr ⟨c, mem, hx⟩) rfl
    exact ⟨off, fun there => (new x there).elim off (h.used (old mem) hx)⟩
  have cases {c : List α} (mem : c ∈ a ++ n ++ b) : c ∈ n ∨ c ∈ a ∨ c ∈ b := by
    simpa [or_assoc, or_left_comm] using mem
  constructor
  case chain =>
    intro c mem
    rcases cases mem with mem | mem
    · exact chain c mem
    · exact (h.chain c (old mem)).congr fun x hx => same x (h.inside c (old mem) x hx) (away mem hx).1 (away mem hx).2
  case disjoint =>
    simp only [flatten_append, nodup_append, mem_append]
    refine ⟨⟨left, nodup, fun x hx y hy => ?_⟩, right, fun x hx y hy => ?_⟩
    · obtain ⟨c, mem, hx⟩ := mem_flatten.mp hx
      rintro rfl
      exact (away (.inl mem) hx).2 hy
    · obtain ⟨c, mem, hy'⟩ := mem_flatten.mp hy
      rcases hx with hx | hx
      · exact behind x (.inl hx) y hy
      · rintro rfl
        exact (away (.inr mem) hy').2 hx
  case inside =>
    intro c mem x hx
    rcases cases mem with mem | mem
    · exact inside x (mem_flatten.mpr ⟨c, mem, hx⟩)
    · exact h.inside c (old mem) x hx
  case covers =>
    intro x hx used
    by_cases there : x ∈ n.flatten
    · obtain ⟨c, mem, hx⟩ := mem_flatten.mp there
      exact ⟨c, by simp [mem], hx⟩
    · have off : x ∉ o.flatten := fun was => there (gone x was used)
      rw [same x hx off there] at used
      obtain ⟨c, mem, hc⟩ := h.covers x hx used
      simp only [mem_append] at mem
      rcases mem with (mem | mem) | mem
      · exact ⟨c, by simp [mem], hc⟩
      · exact absurd (mem_flatten.mpr ⟨c, mem, hc⟩) off
      · exact ⟨c, by simp [mem], hc⟩

/-- A free cell that becomes the last of its chain is a chain of its own. -/
theorem alloc (within : D x) (free : t x = .free) (ends : t' x = .last)
    (same : ∀ y, D y → y ≠ x → t' y = t y) : Chains D t' ([x] :: cs) := by
  refine h.replace (a := []) (o := []) (n := [[x]]) rfl ?_ ?_ ?_ ?_ ?_ ?_
  all_goals simp only [mem_singleton, flatten_cons, flatten_nil, append_nil, forall_eq]
  · exact ends
  · exact nodup_singleton x
  · exact within
  · exact .inr free
  · exact nofun
  · exact fun y hy _ ne => same y hy ne

/-- A chain of one cell is taken up at the end of another chain. -/
theorem link {l : α} {front : List α}
    (eq : cs = as ++ (front ++ [l]) :: bs) (within : D x) (free : t x = .free) (ends : t' x = .last)
    (linked : t' l = .next x) (same : ∀ y, D y → y ≠ x → y ≠ l → t' y = t y) :
    Chains D t' (as ++ (front ++ [l] ++ [x]) :: bs) := by
  have mine : front ++ [l] ∈ cs := by simp [eq]
  have apart : ∀ y ∈ front ++ [l], y ≠ x := by
    rintro y hy rfl
    exact h.used mine hy free
  have nodup := h.nodup mine
  rw [append_cons] at eq ⊢
  refine h.replace (o := [front ++ [l]]) (n := [front ++ [l] ++ [x]]) eq ?_ ?_ ?_ ?_ ?_ ?_
  all_goals simp only [mem_singleton, flatten_cons, flatten_nil, append_nil, forall_eq]
  · refine (h.chain _ mine).concat (fun y hy => ?_) linked ends
    have ne : y ≠ l := by
      rintro rfl
      exact (nodup_append.mp nodup).2.2 y hy y (by simp) rfl
    exact same y (h.inside _ mine y (by simp [hy])) (apart y (by simp [hy])) ne
  · exact nodup.append (nodup_singleton x) (by simpa using fun mem => apart x mem rfl)
  · intro y hy
    rcases mem_append.mp hy with hy | hy
    · exact h.inside _ mine y hy
    · exact mem_singleton.mp hy ▸ within
  · intro y hy
    rcases mem_append.mp hy with hy | hy
    · exact .inl hy
    · exact .inr (mem_singleton.mp hy ▸ free)
  · exact fun y hy _ => mem_append_left _ hy
  · exact fun y hy off out => same y hy (fun eq => out (by simp [eq])) fun eq => off (by simp [eq])

/-- A chain whose cells are all freed is gone, and the others stay. -/
theorem release (eq : cs = as ++ c :: bs)
    (freed : ∀ x ∈ c, t' x = .free) (same : ∀ y, D y → y ∉ c → t' y = t y) : Chains D t' (as ++ bs) := by
  have gone : Chains D t' (as ++ [] ++ bs) := h.replace (o := [c]) (by simpa using eq) nofun .nil nofun nofun
    (fun x hx used => absurd (freed x (by simpa using hx)) used) fun x hx off _ => same x hx (by simpa using off)
  rwa [append_nil] at gone

end

end Chains

end Lib
