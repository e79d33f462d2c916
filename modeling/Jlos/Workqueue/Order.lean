import Jlos.Lib.Tally
import Jlos.Workqueue.Model

/-!
# Where the items are

The items of a CPU are finished in the order in which they were linked. An item is marked exactly as
long as one thread is about to link it, or it is linked, or a worker has just unlinked it.
-/
namespace Jlos.Workqueue

open Lib Function List Option Bool

variable {n m : Nat} {perCpu : Fin n → Cpu m} {pending : Work m → Bool} {pc : Fin m → Pc n} {t : Fin m} {c : Fin n}
  {w : Work m} {q : Cpu m} {x : Pc n} {es : List (Sys n m × Op n m)} {e : Sys n m × Op n m}

/-! ### The order on a CPU -/

/-- The items of a CPU that are not finished. -/
def Cpu.out (q : Cpu m) : List (Work m) := q.worker.current ++ q.worker.held ++ q.list

/-- What was linked to a CPU is what it has finished and what it has. -/
structure Ordered (es : List (Sys n m × Op n m)) (perCpu : Fin n → Cpu m) : Prop where
  links : ∀ c, ofThread c (es.filterMap linked) = ofThread c (es.filterMap finished) ++ (perCpu c).out
  starts : ∀ c, ofThread c (es.filterMap started) = ofThread c (es.filterMap finished) ++ (perCpu c).worker.current

/-- Nothing happens to an item. -/
structure Silent (e : Sys n m × Op n m) : Prop where
  linkedBy : linkedBy e = none
  returned : returned e = none
  accepted : accepted e = none
  started : started e = none
  finished : finished e = none

theorem Silent.linked (silent : Silent e) : linked e = none := by
  rw [Workqueue.linked, silent.linkedBy]
  rfl

namespace Ordered

theorem next (h : Ordered es perCpu) {l f b : Option (Work m)} (links : linked e = l.map (c, ·))
    (ends : finished e = f.map (c, ·)) (begins : started e = b.map (c, ·))
    (out : (perCpu c).out ++ l.toList = f.toList ++ q.out)
    (current : (perCpu c).worker.current ++ b.toList = f.toList ++ q.worker.current) :
    Ordered (es ++ [e]) (update perCpu c q) := by
  constructor
  case links =>
    intro i
    simp only [filterMap_snoc, ofThread_append, h.links i, links, ends, ofThread_map]
    obtain rfl | here := eq_or_ne i c
    · simp [out]
    · simp [here]
  case starts =>
    intro i
    simp only [filterMap_snoc, ofThread_append, h.starts i, begins, ends, ofThread_map]
    obtain rfl | here := eq_or_ne i c
    · simp [current]
    · simp [here]

theorem quiet (h : Ordered es perCpu) (silent : Silent e) : Ordered (es ++ [e]) perCpu := by
  constructor
  case links =>
    intro i
    simp [silent.linked, silent.finished, h.links i]
  case starts =>
    intro i
    simp [silent.started, silent.finished, h.starts i]

theorem setCpu (h : Ordered es perCpu) (links : linked e = none) (ends : finished e = none) (begins : started e = none)
    (out : q.out = (perCpu c).out) (current : q.worker.current = (perCpu c).worker.current) :
    Ordered (es ++ [e]) (update perCpu c q) :=
  h.next (l := none) (f := none) (b := none) links ends begins (by simp [out]) (by simp [current])

end Ordered

/-! ### Calls and links -/

/-- A thread has linked what its calls have returned true for, and what the one in progress has
linked. -/
def Returned (es : List (Sys n m × Op n m)) (pc : Fin m → Pc n) : Prop :=
  ∀ t, ofThread t (es.filterMap linkedBy) = ofThread t (es.filterMap returned) ++ (pc t).unreturned t

namespace Returned

theorem next (h : Returned es pc) {l r : Option (Fin n × Work m)} (links : linkedBy e = l.map (t, ·))
    (returns : returned e = r.map (t, ·)) (unreturned : (pc t).unreturned t ++ l.toList = r.toList ++ x.unreturned t) :
    Returned (es ++ [e]) (update pc t x) := by
  intro i
  simp only [filterMap_snoc, ofThread_append, h i, links, returns, ofThread_map]
  obtain rfl | here := eq_or_ne i t
  · simp [unreturned]
  · simp [here]

theorem quiet (h : Returned es pc) (links : linkedBy e = none) (returns : returned e = none) :
    Returned (es ++ [e]) pc := by
  intro i
  simp [links, returns, h i]

theorem setPc (h : Returned es pc) (links : linkedBy e = none) (returns : returned e = none)
    (same : x.unreturned t = (pc t).unreturned t) : Returned (es ++ [e]) (update pc t x) :=
  h.next (l := none) (r := none) links returns (by simp [same])

end Returned

/-! ### Marks -/

/-- The item that a thread has marked and not linked. -/
def Pc.carried (t : Fin m) : Pc n → List (Work m)
  | .marked _ id => [.item id]
  | .barrier _ .marked => [.barrier t]
  | _ => []

def Worker.unlinkedItem : Worker m → List (Work m)
  | .unlinked w => [w]
  | _ => []

def Worker.clearedItem : Worker m → List (Work m)
  | .cleared w => [w]
  | _ => []

/-- The items of a CPU that are linked or just unlinked. -/
def Cpu.waiting (q : Cpu m) : List (Work m) := q.worker.unlinkedItem ++ q.list

theorem Cpu.waiting_addTail (q : Cpu m) (w : Work m) : (q.addTail w).waiting = q.waiting ++ [w] := by
  simp [Cpu.waiting, Cpu.addTail]

def carried (pc : Fin m → Pc n) (w : Work m) : Nat := tallyAt (fun t x => (Pc.carried t x).count w) pc

/-- How often an item is linked or just unlinked. -/
def waiting (perCpu : Fin n → Cpu m) (w : Work m) : Nat := tally (fun q => q.waiting.count w) perCpu

/-- The workers that are about to start an item. -/
def cleared (perCpu : Fin n → Cpu m) (w : Work m) : Nat := tally (fun q => q.worker.clearedItem.count w) perCpu

theorem carried_update (pc : Fin m → Pc n) (t : Fin m) (x : Pc n) (w : Work m) :
    carried (update pc t x) w + (Pc.carried t (pc t)).count w = carried pc w + (Pc.carried t x).count w :=
  tallyAt_update _ pc t x

theorem waiting_update (perCpu : Fin n → Cpu m) (c : Fin n) (q : Cpu m) (w : Work m) :
    waiting (update perCpu c q) w + (perCpu c).waiting.count w = waiting perCpu w + q.waiting.count w :=
  tally_update _ perCpu c q

theorem cleared_update (perCpu : Fin n → Cpu m) (c : Fin n) (q : Cpu m) (w : Work m) :
    cleared (update perCpu c q) w + (perCpu c).worker.clearedItem.count w =
      cleared perCpu w + q.worker.clearedItem.count w := tally_update _ perCpu c q

theorem le_waiting (perCpu : Fin n → Cpu m) (c : Fin n) (w : Work m) :
    (perCpu c).waiting.count w ≤ waiting perCpu w := le_tally (fun q : Cpu m => q.waiting.count w) perCpu c

theorem toNat_update (pending : Work m → Bool) (w w' : Work m) (b : Bool) :
    (update pending w b w').toNat + (pending w).toNat * [w].count w' = (pending w').toNat + b.toNat * [w].count w' := by
  obtain rfl | here := eq_or_ne w' w
  · simp [add_comm]
  · simp [here, Ne.symm here]

/-- An item is marked where it is, and it is started as often as it was accepted, up to where it is
now. -/
structure Accounted (es : List (Sys n m × Op n m)) (perCpu : Fin n → Cpu m) (pending : Work m → Bool)
    (pc : Fin m → Pc n) : Prop where
  marks : ∀ w, carried pc w + waiting perCpu w = (pending w).toNat
  accepts : ∀ w, (es.filterMap accepted).count w =
    ((es.filterMap started).map Prod.snd).count w + (pending w).toNat + cleared perCpu w

namespace Accounted

section

variable (h : Accounted es perCpu pending pc)
include h

theorem quiet (accepts : accepted e = none) (begins : started e = none) : Accounted (es ++ [e]) perCpu pending pc := by
  refine ⟨h.marks, fun w => ?_⟩
  simp [accepts, begins, h.accepts w]

theorem setPc (same : Pc.carried t x = Pc.carried t (pc t)) : Accounted es perCpu pending (update pc t x) := by
  refine ⟨fun w => ?_, h.accepts⟩
  have marks := h.marks w
  have changed := carried_update pc t x w
  rw [same] at changed
  omega

theorem setCpu (same : q.waiting = (perCpu c).waiting) (free : q.worker.clearedItem = (perCpu c).worker.clearedItem) :
    Accounted es (update perCpu c q) pending pc := by
  constructor
  case marks =>
    intro w
    have marks := h.marks w
    have changed := waiting_update perCpu c q w
    rw [same] at changed
    omega
  case accepts =>
    intro w
    have accepts := h.accepts w
    have changed := cleared_update perCpu c q w
    rw [free] at changed
    omega

theorem accept (free : pending w = false) (before : Pc.carried t (pc t) = [])
    (after : Pc.carried t x = [w]) (accepts : accepted e = some w) (begins : started e = none) :
    Accounted (es ++ [e]) perCpu (update pending w true) (update pc t x) := by
  have flag : ∀ w', (update pending w true w').toNat = (pending w').toNat + [w].count w' := by
    intro w'
    simpa [free] using toNat_update pending w w' true
  constructor
  case marks =>
    intro w'
    have marks := h.marks w'
    have changed := carried_update pc t x w'
    rw [before, after, count_nil] at changed
    rw [flag]
    omega
  case accepts =>
    intro w'
    simp only [filterMap_snoc, accepts, begins, flag, count_append, h.accepts w', toList_some, toList_none, append_nil]
    omega

theorem link (before : Pc.carried t (pc t) = [w]) (after : Pc.carried t x = []) :
    Accounted es (update perCpu c ((perCpu c).addTail w)) pending (update pc t x) := by
  constructor
  case marks =>
    intro w'
    have marks := h.marks w'
    have threads := carried_update pc t x w'
    have cpus := waiting_update perCpu c ((perCpu c).addTail w) w'
    rw [before, after, count_nil] at threads
    rw [Cpu.waiting_addTail, count_append] at cpus
    omega
  case accepts =>
    intro w'
    have accepts := h.accepts w'
    have changed : _ = _ + (perCpu c).worker.clearedItem.count w' := cleared_update perCpu c ((perCpu c).addTail w) w'
    omega

theorem clear (before : (perCpu c).waiting = w :: q.waiting)
    (after : q.worker.clearedItem = w :: (perCpu c).worker.clearedItem) :
    Accounted es (update perCpu c q) (update pending w false) pc := by
  have marked : (pending w).toNat = 1 := by
    have marks := h.marks w
    have one := le_waiting perCpu c w
    have most := toNat_le (pending w)
    rw [before, count_cons_self] at one
    omega
  have flag : ∀ w', (update pending w false w').toNat + [w].count w' = (pending w').toNat := by
    intro w'
    simpa [marked] using toNat_update pending w w' false
  constructor
  case marks =>
    intro w'
    have marks := h.marks w'
    have changed := waiting_update perCpu c q w'
    have less := flag w'
    rw [before, ← singleton_append, count_append] at changed
    omega
  case accepts =>
    intro w'
    have accepts := h.accepts w'
    have changed := cleared_update perCpu c q w'
    have less := flag w'
    rw [after, ← singleton_append, count_append] at changed
    omega

theorem start (same : q.waiting = (perCpu c).waiting)
    (before : (perCpu c).worker.clearedItem = w :: q.worker.clearedItem) (accepts : accepted e = none)
    (begins : started e = some (c, w)) : Accounted (es ++ [e]) (update perCpu c q) pending pc := by
  constructor
  case marks =>
    intro w'
    have marks := h.marks w'
    have changed := waiting_update perCpu c q w'
    rw [same] at changed
    omega
  case accepts =>
    intro w'
    have old := h.accepts w'
    have changed := cleared_update perCpu c q w'
    rw [before, ← singleton_append, count_append] at changed
    simp only [filterMap_snoc, accepts, begins, toList_some, toList_none, append_nil,
      map_append, map_cons, map_nil, count_append]
    omega

theorem linked_once : (∀ c, (perCpu c).list.Nodup) ∧ ∀ c c' w, w ∈ (perCpu c).list → w ∈ (perCpu c').list → c = c' := by
  have most : ∀ w, waiting perCpu w ≤ 1 := by
    intro w
    have marks := h.marks w
    have bit := toNat_le (pending w)
    omega
  have listed : ∀ c w, (perCpu c).list.count w ≤ (perCpu c).waiting.count w := by
    intro c w
    rw [Cpu.waiting, count_append]
    exact Nat.le_add_left _ _
  constructor
  · intro c
    rw [nodup_iff_count_le_one]
    intro w
    exact (listed c w).trans ((le_waiting perCpu c w).trans (most w))
  · intro c c' w mem mem'
    by_contra ne
    have two : (perCpu c).waiting.count w + (perCpu c').waiting.count w ≤ waiting perCpu w :=
      add_le_tally (fun q : Cpu m => q.waiting.count w) perCpu ne
    have bound := most w
    have first := (count_pos_iff.mpr mem).trans_le (listed c w)
    have second := (count_pos_iff.mpr mem').trans_le (listed c' w)
    omega

theorem not_started (marked : pending w = true) :
    ((es.filterMap started).map Prod.snd).count w < (es.filterMap accepted).count w := by
  have accepts := h.accepts w
  rw [marked] at accepts
  simp only [toNat_true] at accepts
  omega

end

end Accounted

end Jlos.Workqueue
