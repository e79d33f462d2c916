import Mathlib

/-!
# Lists of records reached by a key

A doubly linked list whose nodes are known by address, as a list of records with distinct keys. Each
lemma says what an operation does to a list that is split at the record.
-/
namespace Lib.Keyed

open List

variable {α : Type} (key : α → Nat)

def lookup (k : Nat) (l : List α) : Option α := l.find? fun c => key c = k

def modify (k : Nat) (f : α → α) (l : List α) : List α := l.map fun c => if key c = k then f c else c

def insertAfter (k : Nat) (new : α) : List α → List α
  | [] => []
  | c :: l => if key c = k then c :: new :: l else c :: insertAfter k new l

def remove (k : Nat) (l : List α) : List α := l.filter fun c => key c ≠ k

def prev (k : Nat) : List α → Option α
  | c :: d :: l => if key d = k then some c else prev k (d :: l)
  | _ => none

def next (k : Nat) : List α → Option α
  | [] => none
  | c :: l => if key c = k then l.head? else next k l

variable {key} {pre post : List α} {c : α}

theorem lookup_mem {k : Nat} {l : List α} (found : lookup key k l = some c) : c ∈ l ∧ key c = k :=
  ⟨mem_of_find?_eq_some found, by simpa using find?_some found⟩

theorem lookup_other {k : Nat} (ne : k ≠ key c) : lookup key k (pre ++ c :: post) = lookup key k (pre ++ post) := by
  simp [lookup, find?_append, Ne.symm ne]

theorem lookup_eq_none {k : Nat} {l : List α} (absent : ∀ d ∈ l, key d ≠ k) : lookup key k l = none :=
  find?_eq_none.mpr fun d member => by simpa using absent d member

section split

variable (distinct : ((pre ++ c :: post).map key).Nodup)

include distinct

theorem key_ne_pre {d : α} (member : d ∈ pre) : key d ≠ key c := by
  simp only [map_append, map_cons, nodup_append] at distinct
  exact distinct.2.2 _ (mem_map_of_mem member) _ mem_cons_self

theorem key_ne_post {d : α} (member : d ∈ post) : key d ≠ key c := by
  simp only [map_append, map_cons, nodup_append, nodup_cons] at distinct
  exact fun eq => distinct.2.1.1 (eq ▸ mem_map_of_mem member)

theorem lookup_split : lookup key (key c) (pre ++ c :: post) = some c := by
  have none : pre.find? (fun d => decide (key d = key c)) = none :=
    find?_eq_none.mpr fun d member => by simpa using key_ne_pre distinct member
  simp [lookup, find?_append, none]

theorem modify_split (f : α → α) : modify key (key c) f (pre ++ c :: post) = pre ++ f c :: post := by
  have left : pre.map (fun d => if key d = key c then f d else d) = pre :=
    (map_congr_left fun d member => if_neg (key_ne_pre distinct member)).trans (map_id' pre)
  have right : post.map (fun d => if key d = key c then f d else d) = post :=
    (map_congr_left fun d member => if_neg (key_ne_post distinct member)).trans (map_id' post)
  simp [modify, left, right]

theorem remove_split : remove key (key c) (pre ++ c :: post) = pre ++ post := by
  have left : pre.filter (fun d => decide (key d ≠ key c)) = pre :=
    filter_eq_self.mpr fun d member => by simpa using key_ne_pre distinct member
  have right : post.filter (fun d => decide (key d ≠ key c)) = post :=
    filter_eq_self.mpr fun d member => by simpa using key_ne_post distinct member
  simp only [remove, filter_append, filter_cons, left, right, ne_eq, not_true_eq_false,
    decide_false, Bool.false_eq_true, if_false]

theorem insertAfter_split (new : α) : insertAfter key (key c) new (pre ++ c :: post) = pre ++ c :: new :: post := by
  induction pre with
  | nil => simp [insertAfter]
  | cons d pre ih =>
    have ne : key d ≠ key c := key_ne_pre distinct mem_cons_self
    simpa [insertAfter, ne] using ih distinct.of_cons

theorem next_split : next key (key c) (pre ++ c :: post) = post.head? := by
  induction pre with
  | nil => simp [next]
  | cons d pre ih =>
    have ne : key d ≠ key c := key_ne_pre distinct mem_cons_self
    simpa [next, ne] using ih distinct.of_cons

theorem prev_split : prev key (key c) (pre ++ c :: post) = pre.getLast? := by
  induction pre with
  | nil =>
    have none : ∀ (l : List α) (b : α), (∀ d ∈ l, key d ≠ key c) → prev key (key c) (b :: l) = none := by
      intro l
      induction l with
      | nil => exact fun b _ => rfl
      | cons x l ih =>
        intro b away
        have ne : key x ≠ key c := away x mem_cons_self
        have rest := ih x fun y member => away y (mem_cons_of_mem x member)
        simpa [prev, ne] using rest
    exact none post c fun d => key_ne_post distinct
  | cons d pre ih =>
    have rest := ih distinct.of_cons
    cases pre with
    | nil => simp [prev]
    | cons x pre =>
      have ne : key x ≠ key c := key_ne_pre distinct (by simp)
      simpa [prev, ne] using rest

end split

end Lib.Keyed
