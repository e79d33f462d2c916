import Jlos.Ipc.Descriptors
import Jlos.Lib.Lifetime
import Jlos.Lib.Loop

/-!
# The lifetime of what descriptors refer to

An object should live exactly as long as descriptors of live processes refer to it, and be usable
through all of them.
-/
namespace Jlos.Ipc.Descriptors

open Lib Function List Option

variable {s s' : Sys} {p : Nat} {fds fds' : Fds} {i : Fin 16} {x : Fd} {a : Nat} {value : Int} {table : Option Fds}

/-- The objects are those that descriptors of live processes refer to, and can be used. -/
def Sys.Exact (s : Sys) : Prop := Lib.Exact Obj.Usable s.ref s.heap

/-! ### Tables and references -/

theorem object_unused (unused : x.type = .unused) : x.object = none := by
  simp [Fd.object, unused]

theorem object_pipe (a : Nat) : Fd.object ⟨.pipe, some a⟩ = some (.pipe, a) := rfl

theorem ref_live (live : s.procs p = some ⟨some fds, false⟩) (i : Fin 16) : s.ref (p, i) = (fds i).object := by
  simp [Sys.ref, live]

open Sys

theorem ref_setFds (s : Sys) (p : Nat) (fds : Fds) :
    (s.setFds p fds).ref = fun r => if r.1 = p then (fds r.2).object else s.ref r := by
  funext r
  by_cases here : r.1 = p
  · simp [Sys.ref, setFds, here]
  · simp [Sys.ref, setFds, update_of_ne here, if_neg here]

theorem ref_update (live : s.procs p = some ⟨some fds, false⟩) (i : Fin 16) (x : Fd) :
    (s.setFds p (update fds i x)).ref = update s.ref (p, i) x.object := by
  rw [ref_setFds]
  funext ⟨q, j⟩
  obtain rfl | here := eq_or_ne q p
  · by_cases same : j = i
    · subst same
      simp
    · have other : (q, j) ≠ (q, i) := fun eq => same (congrArg Prod.snd eq)
      rw [update_of_ne other]
      simp [update_of_ne same, ref_live live]
  · have other : (q, j) ≠ (p, i) := fun eq => here (congrArg Prod.fst eq)
    rw [update_of_ne other]
    simp [if_neg here]

theorem fdMalloc_spec (found : fdMalloc fds = some (i, fds')) :
    3 ≤ i.val ∧ (fds i).type = .unused ∧ fds' = update fds i { fds i with type := .pipe } := by
  obtain ⟨j, first, eq⟩ := map_eq_some_iff.mp found
  cases eq
  have free := find?_some first
  simp only [decide_eq_true_eq] at free
  exact ⟨free.1, free.2, rfl⟩

private theorem fdMalloc_none (full : fdMalloc fds = none) (le : 3 ≤ i.val) : (fds i).type ≠ .unused := by
  rw [fdMalloc, Option.map_eq_none_iff, List.find?_eq_none] at full
  intro unused
  exact full i (List.mem_finRange i) (decide_eq_true ⟨le, unused⟩)

theorem object_free (unused : (fds i).type = .unused) (j : Fin 16) : (fdFree fds i j).object = (fds j).object := by
  by_cases here : j = i
  · rw [here, fdFree, update_self, object_unused unused]
    rfl
  · rw [fdFree, update_of_ne here]

theorem fdGet_some {fd : Int} (found : fdGet fds fd = some i) : fd = i.val := by
  unfold fdGet at found
  split at found
  next range =>
    dsimp only at found
    split at found
    next => cases found
    next =>
      cases found
      exact (Int.toNat_of_nonneg range.1).symm
  next => cases found

theorem fdGet_none (absent : fdGet fds i.val = none) : (fds i).type = .unused := by
  have range : 0 ≤ (i.val : Int) ∧ (i.val : Int) < 16 := ⟨Int.natCast_nonneg _, by omega⟩
  rw [fdGet, dif_pos range] at absent
  simpa using absent

theorem ref_fdFree (live : s.procs p = some ⟨some fds, false⟩) (procs : s'.procs = s.procs) :
    (s'.setFds p (fdFree fds i)).ref = update s.ref (p, i) none := by
  have same : s'.ref = s.ref := by
    funext r
    simp [Sys.ref, procs]
  rw [fdFree, ref_update (procs ▸ live), same, object_unused rfl]

theorem closeObj_cases (closed : closeObj s x = .ok s') :
    (x.object = none ∧ s' = s) ∨ (∃ a, x.object = some (.pipe, a) ∧ pipeClose s a = .ok s') ∨
      ∃ a, x.object = some (.file, a) ∧ vfsClose s a = .ok s' := by
  unfold closeObj at closed
  unfold Fd.object
  split at closed
  next a _ _ => exact .inr (.inl ⟨a, rfl, closed⟩)
  next a _ _ => exact .inr (.inr ⟨a, rfl, closed⟩)
  next =>
    cases closed
    exact .inl ⟨rfl, rfl⟩

/-! ### Steps -/

/-- At most one entry of a table is left for a new descriptor. -/
def Full (fds : Fds) : Prop :=
  ∀ i j : Fin 16, 3 ≤ i.val → 3 ≤ j.val → (fds i).type = .unused → (fds j).type = .unused → i = j

/-- When a step keeps the objects and their descriptors together. A pipe is made with its buffer, or
the call fails: there is no memory for the pipe, the table of the process is full, or the
descriptors cannot be copied to the user. -/
def Meets (s : Sys) : Op → Prop
  | .createPipe p mem buffer copied =>
    buffer = true ∨ mem = none ∨ copied = false ∨ ∀ fds, s.procs p = some ⟨some fds, false⟩ → Full fds
  | .fdClose p fd =>
    ∀ i : Fin 16, fd = i.val → ∀ k a, s.ref (p, i) = some (k, a) →
      (∀ r k', s.ref r = some (k', a) → r = (p, i)) ∧ ∀ x, s.heap a = some (.pipe x) → x.refcount = 1
  | .exit p =>
    ∀ i k a, s.ref (p, i) = some (k, a) → ∃ r k', r.1 ≠ p ∧ s.ref r = some (k', a)
  | _ => True

section

variable {o : Option Obj} (new : s.heap a = none)
include new

theorem update_undo : update (update s.heap a o) a none = s.heap := by
  rw [update_idem, ← new, update_eq_self]

theorem setObj_undo : (s.setObj a o).setObj a none = s := by
  simp [setObj, update_undo new]

theorem setFds_undo : ((s.setObj a o).setFds p fds).setObj a none = s.setFds p fds := by
  simp [setObj, setFds, update_undo new]

end

namespace Sys.Exact

theorem congr {ref : Nat × Fin 16 → Option (FdType × Nat)} {heap : Nat → Option Obj} (h : Lib.Exact Obj.Usable ref heap)
    (refEq : s'.ref = ref) (heapEq : s'.heap = heap) : s'.Exact := by
  unfold Sys.Exact
  rw [refEq, heapEq]
  exact h

theorem initUser (h : s.Exact) (absent : s.procs p = none) (empty : ∀ fds ∈ table, ∀ i, (fds i).object = none) :
    Sys.Exact { s with procs := update s.procs p (some ⟨table, false⟩) } := by
  refine congr h ?_ rfl
  funext r
  by_cases here : r.1 = p
  · simp only [Sys.ref, here, update_self, absent]
    cases table with
    | none => rfl
    | some fds => exact empty fds rfl r.2
  · simp [Sys.ref, update_of_ne here]

theorem newFds_empty (i : Fin 16) : (newFds i).object = none := by
  unfold newFds Fd.object
  split <;> simp_all

section

variable (h : s.Exact)
include h

theorem openFile {path : Bool} {file : Option Nat}
    (live : s.procs p = some ⟨table, false⟩) (new : ∀ a ∈ file, s.heap a = none)
    (taken : syscallOpen s p table path file = .ok (value, s')) : s'.Exact := by
  unfold syscallOpen at taken
  split at taken
  next => cases taken; exact h
  next fds =>
    split at taken
    next => cases taken; exact h
    next =>
      split at taken
      next => cases taken; exact h
      next a =>
        have free : s.heap a = none := new a rfl
        split at taken
        next =>
          -- No entry is free: the file is closed at once.
          have close : vfsClose (s.setObj a (some .file)) a = .ok ((s.setObj a (some .file)).setObj a none) := by
            simp [vfsClose, setObj]
          rw [bind_of_ok close] at taken
          cases taken
          rw [setObj_undo free]
          exact h
        next i fds' found =>
          cases taken
          obtain ⟨-, unused, eq⟩ := fdMalloc_spec found
          have at_i : s.ref (p, i) = none := (ref_live live i).trans (object_unused unused)
          have added := Lib.Exact.add h at_i free (show Obj.Usable .file .file from trivial)
          subst eq
          rw [update_idem]
          exact congr added (ref_update live i ⟨.file, some a⟩) rfl

theorem giveBack (live : s.procs p = some ⟨some fds, false⟩)
    (same : ∀ i, (fds' i).object = (fds i).object) : (s.setFds p fds').Exact := by
  refine congr h ?_ rfl
  rw [ref_setFds]
  funext ⟨q, i⟩
  obtain rfl | here := eq_or_ne q p
  · rw [if_pos rfl, same, ref_live live]
  · rw [if_neg here]

theorem newPipe {r w : Fin 16} {x : Pipe} (live : s.procs p = some ⟨some fds, false⟩)
    (readEnd : (fds r).type = .unused) (writeEnd : (fds w).type = .unused) (ne : r ≠ w) (free : s.heap a = none) :
    ((s.setObj a (some (.pipe x))).setFds p (update (update fds r ⟨.pipe, some a⟩) w ⟨.pipe, some a⟩)).Exact ↔
      Obj.Usable .pipe (.pipe x) := by
  have at_r : s.ref (p, r) = none := (ref_live live r).trans (object_unused readEnd)
  have at_w : s.ref (p, w) = none := (ref_live live w).trans (object_unused writeEnd)
  have live' : (s.setFds p (update fds r ⟨.pipe, some a⟩)).procs p =
      some ⟨some (update fds r ⟨.pipe, some a⟩), false⟩ := update_self ..
  have ref : ((s.setObj a (some (.pipe x))).setFds p (update (update fds r ⟨.pipe, some a⟩) w ⟨.pipe, some a⟩)).ref =
      update (update s.ref (p, r) (some (.pipe, a))) (p, w) (some (.pipe, a)) := by
    rw [← object_pipe, ← ref_update live, ← ref_update live', ref_setFds, ref_setFds, ref_setFds]
    funext q
    by_cases here : q.1 = p
    · simp [if_pos here]
    · simp only [if_neg here]
      rfl
  constructor
  · intro after
    obtain ⟨o, at_a, used⟩ := after.usable (p, w) .pipe a (by rw [ref, update_self])
    simp only [setFds, setObj, update_self, some.injEq] at at_a
    exact at_a ▸ used
  · intro used
    have first := Lib.Exact.add h at_r free used
    have ne' : (p, w) ≠ (p, r) := fun eq => ne (congrArg Prod.snd eq).symm
    have at_w' : update s.ref (p, r) (some (.pipe, a)) (p, w) = none := by
      rw [update_of_ne ne', at_w]
    exact congr (first.share at_w' (update_self (p, r) _ _)) ref rfl

theorem createPipe_iff {mem : Option (Nat × Pipe)} {buffer copied : Bool}
    (live : s.procs p = some ⟨table, false⟩) (new : ∀ m ∈ mem, s.heap m.1 = none)
    (taken : syscallCreatePipe s p table mem buffer copied = .ok (value, s')) :
    s'.Exact ↔ Meets s (.createPipe p mem buffer copied) := by
  have full (all : ∀ fds, table = some fds → Full fds) : Meets s (.createPipe p mem buffer copied) := by
    refine .inr (.inr (.inr fun fds live' => all fds ?_))
    cases live.symm.trans live'
    rfl
  unfold syscallCreatePipe at taken
  split at taken
  next =>
    cases taken
    exact iff_of_true h (full nofun)
  next fds =>
    split at taken
    next =>
      cases taken
      exact iff_of_true h (.inr (.inl rfl))
    next a mem =>
      have free : s.heap a = none := new (a, mem) rfl
      split at taken
      next none₁ =>
        cases taken
        rw [setObj_undo free]
        refine iff_of_true h (full ?_)
        rintro _ ⟨⟩ i _ le - unused
        exact absurd unused (fdMalloc_none none₁ le)
      next r fds₁ found₁ =>
        obtain ⟨low₁, readEnd, eq₁⟩ := fdMalloc_spec found₁
        split at taken
        next none₂ =>
          cases taken
          rw [setFds_undo free]
          refine iff_of_true ?_ (full ?_)
          · rw [eq₁, fdFree, update_idem]
            exact h.giveBack live (object_free readEnd)
          · -- Only the entry that the first call took was unused.
            have only (i : Fin 16) (le : 3 ≤ i.val) (unused : (fds i).type = .unused) : i = r := by
              by_contra other
              refine fdMalloc_none none₂ le ?_
              rwa [eq₁, update_of_ne other]
            rintro _ ⟨⟩ i j le le' unused unused'
            exact (only i le unused).trans (only j le' unused').symm
        next w fds₂ found₂ =>
          obtain ⟨low₂, writeEnd', eq₂⟩ := fdMalloc_spec found₂
          have ne : w ≠ r := by
            rintro rfl
            rw [eq₁, update_self] at writeEnd'
            cases writeEnd'
          have writeEnd : (fds w).type = .unused := by
            rw [eq₁, update_of_ne ne] at writeEnd'
            exact writeEnd'
          have inc : pipeRefInc (s.setObj a (some (.pipe (pipeInit mem buffer)))) a = .ok (s.setObj a (some (.pipe
                { pipeInit mem buffer with refcount := (pipeInit mem buffer).refcount + 1 }))) := by
            simp [pipeRefInc, setObj]
          rw [bind_of_ok inc] at taken
          have ends (x y : Fd) : update (update fds₂ r x) w y = update (update fds r x) w y := by
            rw [eq₂, update_comm ne, update_idem, eq₁, update_idem]
          split at taken
          next ok =>
            cases taken
            have room : Meets s (.createPipe p (some (a, mem)) buffer copied) ↔ buffer = true := by
              refine ⟨fun met => ?_, .inl⟩
              obtain buffered | ⟨⟨⟩⟩ | failed | full := met
              · exact buffered
              · exact absurd (ok.symm.trans failed) nofun
              · exact absurd (full fds live w r low₂ low₁ writeEnd readEnd) ne
            rw [ends, newPipe h live readEnd writeEnd ne.symm free, room]
            unfold pipeInit
            cases buffer <;> simp [Obj.Usable]
          next failed =>
            cases taken
            rw [setFds_undo free]
            refine iff_of_true (h.giveBack live fun i => ?_) (.inr (.inr (.inl (Bool.eq_false_iff.mpr failed))))
            have freed : fdFree (fdFree (update (update fds₂ r ⟨.pipe, some a⟩) w ⟨.pipe, some a⟩) r) w =
                fdFree (fdFree fds r) w := by
              rw [fdFree, fdFree, update_comm ne, update_idem, update_idem]
              exact ends ..
            rw [freed, object_free (by rwa [fdFree, update_of_ne ne]), object_free readEnd]

theorem drop_iff {k : FdType} (live : s.procs p = some ⟨some fds, false⟩) (at_i : (fds i).object = some (k, a)) :
    ((s.setObj a none).setFds p (fdFree fds i)).Exact ↔ ∀ r k', s.ref r = some (k', a) → r = (p, i) := by
  unfold Sys.Exact
  rw [ref_fdFree live (show (s.setObj a none).procs = s.procs from rfl)]
  exact Lib.Exact.drop_iff h ((ref_live live i).trans at_i)

theorem closeObj_iff (live : s.procs p = some ⟨some fds, false⟩) (closed : closeObj s (fds i) = .ok s') :
    (s'.setFds p (fdFree fds i)).Exact ↔ ∀ k a, (fds i).object = some (k, a) →
      (∀ r k', s.ref r = some (k', a) → r = (p, i)) ∧ ∀ x, s.heap a = some (.pipe x) → x.refcount = 1 := by
  rcases closeObj_cases closed with ⟨at_i, same⟩ | ⟨a, at_i, closed⟩ | ⟨a, at_i, closed⟩
  · have at_r : s.ref (p, i) = none := (ref_live live i).trans at_i
    subst same
    refine iff_of_true (congr h ?_ rfl) (by simp [at_i])
    rw [ref_fdFree live rfl, ← at_r, update_eq_self]
  · obtain ⟨o, at_a, used⟩ := h.usable (p, i) .pipe a ((ref_live live i).trans at_i)
    cases o with
    | file => exact used.elim
    | pipe x =>
      simp only [pipeClose, at_a, Except.ok.injEq] at closed
      by_cases one : x.refcount = 1
      · have gone : x.refcount - 1 = 0 := by
          rw [one]
          rfl
        rw [if_pos gone] at closed
        subst closed
        rw [drop_iff h live at_i]
        simp [at_i, at_a, one]
      · -- The pipe stays, closed, and nothing can use it.
        have stays : x.refcount - 1 ≠ 0 := by bv_omega
        rw [if_neg stays] at closed
        subst closed
        apply iff_of_false
        · intro after
          obtain ⟨k, used⟩ := after.use_of_mem (a := a) (update_self ..)
          cases k <;> simp [Obj.Usable] at used
        · intro last
          exact one ((last _ _ at_i).2 x at_a)
  · obtain ⟨o, at_a, used⟩ := h.usable (p, i) .file a ((ref_live live i).trans at_i)
    cases o with
    | pipe x => exact used.elim
    | file =>
      simp only [vfsClose, at_a, Except.ok.injEq] at closed
      subst closed
      rw [drop_iff h live at_i]
      simp [at_i, at_a]

theorem fdClose_iff {fd : Int} (live : s.procs p = some ⟨table, false⟩)
    (taken : syscallTaskFdClose s p table fd = .ok (value, s')) : s'.Exact ↔ Meets s (.fdClose p fd) := by
  unfold syscallTaskFdClose at taken
  split at taken
  next =>
    cases taken
    refine iff_of_true h fun i at_i k a at_r => ?_
    simp only [Sys.ref, live] at at_r
    cases at_r
  next fds =>
    split at taken
    next absent =>
      cases taken
      refine iff_of_true h fun i at_i k a at_r => ?_
      rw [ref_live live, object_unused (fdGet_none (at_i ▸ absent))] at at_r
      cases at_r
    next i found =>
      obtain ⟨s₁, closed, rest⟩ := ok_of_bind taken
      cases rest
      refine (closeObj_iff h live closed).trans ?_
      have at_fd := fdGet_some found
      constructor
      · intro last j same k a at_j
        obtain rfl : j = i := Fin.ext (by omega)
        exact last k a ((ref_live live j).symm.trans at_j)
      · intro meets k a at_i
        exact meets i at_fd k a ((ref_live live i).trans at_i)

end

theorem refIncAll_kept (fds : Fds) (ended : refIncAll fds s = .ok s') :
    s'.procs = s.procs ∧ Kept Obj.Usable s.heap s'.heap := by
  refine foldlM_keeps (I := fun s' => s'.procs = s.procs ∧ Kept Obj.Usable s.heap s'.heap) ?_ _ s s'
    ⟨rfl, Kept.refl _⟩ ended
  intro i s₁ s₂ ⟨procs, kept⟩ round
  split at round
  next a type obj =>
    unfold pipeRefInc at round
    split at round
    next x at_a =>
      cases round
      refine ⟨procs, kept.trans (Kept.update at_a ?_)⟩
      intro k used
      cases k with
      | pipe => exact used
      | unused | console | file => exact used.elim
    next => cases round
  next =>
    cases round
    exact ⟨procs, kept⟩

theorem processForkInner_some {child : Nat} {answers : Answers}
    (inner : processForkInner s table child answers = .ok (some s')) :
    (table = none ∧ s' = { s with procs := update s.procs child (some ⟨table, false⟩) }) ∨ ∃ fds, table = some fds ∧
        refIncAll fds { s with procs := update s.procs child (some ⟨table, false⟩) } = .ok s' := by
  cases table with
  | none =>
    simp only [processForkInner, ite_self] at inner
    split_ifs at inner <;> cases inner
    exact .inl ⟨rfl, rfl⟩
  | some fds =>
    cases copied : answers.fds with
    | false =>
      simp only [processForkInner, copied, Bool.false_eq_true, if_false, isSome_some, isNone_none,
        Bool.and_self, Bool.or_true, if_true, ite_self] at inner
      cases inner
    | true =>
      simp only [processForkInner, copied, if_true] at inner
      split_ifs at inner
      · cases inner
      · cases inner
      · cases inner
      · cases inner
      obtain ⟨s₁, loop, rest⟩ := ok_of_bind inner
      cases rest
      exact .inr ⟨fds, rfl, loop⟩

theorem copy (h : s.Exact) {parent child : Nat} (live : s.procs parent = some ⟨table, false⟩)
    (absent : s.procs child = none) : Sys.Exact { s with procs := update s.procs child (some ⟨table, false⟩) } := by
  have ref : ∀ r, Sys.ref { s with procs := update s.procs child (some ⟨table, false⟩) } r =
      if r.1 = child then s.ref (parent, r.2) else s.ref r := by
    intro r
    by_cases here : r.1 = child
    · simp [Sys.ref, here, live]
    · simp [Sys.ref, update_of_ne here, if_neg here]
  apply Lib.Exact.rename h
  · intro r x at_r
    rw [ref] at at_r
    split at at_r
    next => exact ⟨_, at_r⟩
    next => exact ⟨_, at_r⟩
  · intro r k a at_r
    have other : r.1 ≠ child := by
      intro here
      simp only [Sys.ref, here, absent] at at_r
      cases at_r
    exact ⟨r, k, by rw [ref, if_neg other, at_r]⟩

theorem fork (h : s.Exact) {parent child : Nat} {answers : Answers}
    (live : s.procs parent = some ⟨table, false⟩) (absent : s.procs child = none)
    (taken : syscallFork s table child answers = .ok (value, s')) : s'.Exact := by
  obtain ⟨result, inner, rest⟩ := ok_of_bind taken
  cases result with
  | none =>
    cases rest
    exact h
  | some s₁ =>
    cases rest
    have copied := h.copy live absent
    rcases processForkInner_some inner with ⟨-, eq⟩ | ⟨fds, -, loop⟩
    · rw [eq]
      exact copied
    · obtain ⟨procs, kept⟩ := refIncAll_kept fds loop
      refine congr (Lib.Exact.modify copied kept) ?_ rfl
      funext r
      simp [Sys.ref, procs]

theorem exit_iff (h : s.Exact) (live : s.procs p = some ⟨table, false⟩) :
    Sys.Exact { s with procs := update s.procs p (some ⟨table, true⟩) } ↔ Meets s (.exit p) := by
  have ref : Sys.ref { s with procs := update s.procs p (some ⟨table, true⟩) } =
      fun r => if r.1 = p then none else s.ref r := by
    funext r
    by_cases here : r.1 = p
    · simp [Sys.ref, here]
    · simp [Sys.ref, update_of_ne here, if_neg here]
  unfold Sys.Exact
  rw [ref]
  refine (Lib.Exact.forget_iff h fun r => r.1 = p).trans ?_
  constructor
  · intro others i k a at_r
    exact others (p, i) k a rfl at_r
  · rintro others ⟨q, i⟩ k a rfl at_r
    exact others i k a at_r

theorem free (h : s.Exact) (zombie : s.procs p = some ⟨table, true⟩) :
    Sys.Exact { s with procs := update s.procs p none } := by
  refine congr h ?_ rfl
  funext r
  by_cases here : r.1 = p
  · simp [Sys.ref, here, zombie]
  · simp [Sys.ref, update_of_ne here]

theorem step_iff {op : Op} (h : s.Exact) (taken : step s op s') : s'.Exact ↔ Meets s op := by
  obtain ⟨value, taken⟩ := taken
  -- Opening, forking and freeing a task keep the heap exact without a condition.
  cases op with
  | initUser p fds =>
    simp only [exec] at taken
    split at taken
    next absent =>
      cases taken
      refine iff_of_true (h.initUser absent fun table eq i => ?_) trivial
      cases fds <;> cases eq
      exact newFds_empty i
    next => cases taken
  | openFile p path file =>
    simp only [exec] at taken
    split at taken
    next table live =>
      split at taken
      next new => exact iff_of_true (h.openFile live new taken) trivial
      next => cases taken
    next => cases taken
  | createPipe p mem buffer copied =>
    simp only [exec] at taken
    split at taken
    next table live =>
      split at taken
      next new => exact h.createPipe_iff live new taken
      next => cases taken
    next => cases taken
  | fdClose p fd =>
    simp only [exec] at taken
    split at taken
    next table live => exact h.fdClose_iff live taken
    next => cases taken
  | fork parent child answers =>
    simp only [exec] at taken
    split at taken
    next table live absent => exact iff_of_true (h.fork live absent taken) trivial
    next => cases taken
  | exit p =>
    simp only [exec] at taken
    split at taken
    next table live =>
      cases taken
      exact h.exit_iff live
    next => cases taken
  | free p =>
    simp only [exec] at taken
    split at taken
    next table zombie =>
      cases taken
      exact iff_of_true (h.free zombie) trivial
    next => cases taken

theorem start : Descriptors.start.Exact := by
  constructor
  case usable =>
    intro r k a at_r
    cases at_r
  case held =>
    intro a o at_a
    cases at_a

end Sys.Exact

/-- In a run, the objects are those that descriptors of live processes refer to and can all be used,
in every state, exactly if every step meets the condition. -/
theorem lifetime_iff {es : List (Sys × Op)} (run : Run step start es s) :
    (s.Exact ∧ ∀ e ∈ es, e.1.Exact) ↔ ∀ e ∈ es, Meets e.1 e.2 :=
  run.forall_states_iff (I := fun _ => True) trivial (fun _ _ _ _ _ => trivial) Sys.Exact.start
    fun _ _ _ _ exact taken => exact.step_iff taken

/-- A process with an open file. -/
def withFile : Sys :=
  ⟨update start.procs 1 (some ⟨some (update newFds 3 ⟨.file, some 100⟩), false⟩),
    update start.heap 100 (some .file)⟩

private theorem withFile_ref {r : Nat × Fin 16} {k : FdType} {a : Nat} (at_r : withFile.ref r = some (k, a)) :
    r = (1, 3) ∧ a = 100 := by
  obtain ⟨q, j⟩ := r
  obtain rfl | here := eq_or_ne q 1
  · by_cases same : j = 3
    · subst same
      cases at_r
      exact ⟨rfl, rfl⟩
    · simp only [Sys.ref, withFile, update_self, update_of_ne same, Sys.Exact.newFds_empty] at at_r
      cases at_r
  · simp only [Sys.ref, withFile, update_of_ne here] at at_r
    cases at_r

/-- A process opens a file and closes it. -/
theorem file_closed_by_its_process : ∃ es s, Run step start es s ∧
    es.map Prod.snd = [.initUser 1 true, .openFile 1 true (some 100), .fdClose 1 3] ∧
    s.Exact ∧ ∀ e ∈ es, e.1.Exact := by
  have initUser : step start (.initUser 1 true)
      { start with procs := update start.procs 1 (some ⟨some newFds, false⟩) } := ⟨0, rfl⟩
  have openFile : step { start with procs := update start.procs 1 (some ⟨some newFds, false⟩) }
      (.openFile 1 true (some 100)) withFile := by
    refine ⟨3, ?_⟩
    have entry : fdMalloc newFds = some (3, update newFds 3 { newFds 3 with type := .pipe }) := rfl
    simp [exec, syscallOpen, entry, withFile, setFds, setObj, start]
  have fdClose : step withFile (.fdClose 1 3)
      ((withFile.setObj 100 none).setFds 1 (fdFree (update newFds 3 ⟨.file, some 100⟩) 3)) := ⟨0, rfl⟩
  have run := ((Run.start.snoc initUser).snoc openFile).snoc fdClose
  refine ⟨_, _, run, rfl, (lifetime_iff run).mpr ?_⟩
  simp only [nil_append, cons_append, forall_mem_cons, not_mem_nil, false_implies, implies_true, and_true]
  refine ⟨trivial, trivial, fun i at_i k a at_r => ?_⟩
  obtain ⟨here, rfl⟩ := withFile_ref at_r
  rw [here]
  refine ⟨fun r k at_r' => (withFile_ref at_r').1, fun x at_x => ?_⟩
  simp [withFile] at at_x

/-- A process creates a pipe and closes the end it reads from. -/
def closeReadEnd : List Op := [.initUser 1 true, .createPipe 1 (some (100, ⟨false, false, 0⟩)) true true, .fdClose 1 3]

/-- The other end still refers to the pipe, which is closed. -/
theorem write_end_unusable : ∃ es s, Run step start es s ∧ es.map Prod.snd = closeReadEnd ∧
    s.ref (1, 4) = some (.pipe, 100) ∧ s.heap 100 = some (.pipe ⟨true, true, 1⟩) ∧ ¬s.Exact := by
  have values : (closeReadEnd.foldlM (guarded (fun s op => (exec s op).toOption.map Prod.snd) fun _ _ => True)
      start).map (fun s => (s.ref (1, 4), s.heap 100)) =
        some (some (.pipe, 100), some (.pipe ⟨true, true, 1⟩)) := by decide +kernel
  obtain ⟨s, ends, value⟩ := map_eq_some_iff.mp values
  obtain ⟨es, run, ops, -⟩ := exists_run_of_foldlM ends
  simp only [Prod.mk.injEq] at value
  have run' : Run step start es s := run.mono fun s op s' taken => by
    obtain ⟨⟨v, s₁⟩, ok, eq⟩ := map_eq_some_iff.mp taken
    cases eq
    cases result : exec s op with
    | error e => rw [result] at ok; cases ok
    | ok r => rw [result] at ok; cases ok; exact ⟨v, result⟩
  refine ⟨es, s, run', ops, value.1, value.2, fun exact => ?_⟩
  obtain ⟨o, at_a, used⟩ := exact.usable (1, 4) .pipe 100 value.1
  rw [value.2] at at_a
  cases at_a
  exact absurd used.2 (by decide)

end Jlos.Ipc.Descriptors
