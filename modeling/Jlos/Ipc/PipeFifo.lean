import Jlos.Ipc.Pipe

/-!
# A pipe is a queue of bytes

Whatever the threads do, the sections under the mutex insert into and remove from one queue, and a
call returns what its sections have moved.
-/
namespace Jlos.Ipc.Pipes

open Lib Function List Option Pipes Circular

variable {n : Nat} {p : Pipe n} {s s' : Sys n} {t : Fin n} {es : List (Sys n × Op n)} {e : Sys n × Op n}
  {buf : Nat → Byte}

/-! ### The sections -/

def Pipe.ring (p : Pipe n) : Circular Byte := ⟨p.buffer, p.bufSize, p.readPos, p.writePos, p.count⟩

theorem sub32_of_le {x y : Nat} (le : y ≤ x) (small : x < 2 ^ 32) : sub32 x y = x - y := by
  unfold sub32
  omega

theorem canWrite_eq (valid : p.ring.Valid) (small : p.bufSize < 2 ^ 32) (len written : Nat) :
    canWrite p len written = min (min (len - written) (p.bufSize - p.count)) (p.bufSize - p.writePos) := by
  have slot : sub32 p.bufSize p.count = p.bufSize - p.count := sub32_of_le valid.count small
  have contig : sub32 p.bufSize p.writePos = p.bufSize - p.writePos :=
    sub32_of_le (le_of_lt valid.writePos_lt) small
  unfold canWrite
  simp only [slot, contig]
  split <;> split <;> omega

theorem canRead_eq (valid : p.ring.Valid) (small : p.bufSize < 2 ^ 32) (len read : Nat) :
    canRead p len read = min (min (len - read) p.count) (p.bufSize - p.readPos) := by
  have contig : sub32 p.bufSize p.readPos = p.bufSize - p.readPos := sub32_of_le (le_of_lt valid.read) small
  unfold canRead
  simp only [contig]
  split <;> split <;> omega

theorem putLoop_eq (p : Pipe n) (xs : List Byte) (c : Circular Byte) (cells : c.cells = p.buffer)
    (size : c.size = p.bufSize) (write : c.writePos = p.writePos) :
    putLoop p xs = { p with buffer := (c.pushAll xs).cells, writePos := (c.pushAll xs).writePos } := by
  induction xs generalizing p c with
  | nil => rw [putLoop, pushAll, foldl_nil, cells, write]
  | cons x xs ih =>
    rw [putLoop, ih _ (c.push x)]
    · rfl
    · simp [push, cells, write]
    · exact size
    · simp [push, size, write]

theorem bytes_length (buf : Nat → Byte) (first len : Nat) : (bytes buf first len).length = len := by
  simp [bytes]

theorem bytes_append (buf : Nat → Byte) (written k : Nat) :
    bytes buf 0 (written + k) = bytes buf 0 written ++ bytes buf written k := by
  simp [bytes, range_add]

theorem writeSection_ring (p : Pipe n) (buf : Nat → Byte) (written can : Nat) :
    (writeSection p buf written can).ring = p.ring.pushAll (bytes buf written can) := by
  have loop := putLoop_eq p (bytes buf written can) p.ring rfl rfl rfl
  obtain ⟨size, read, count⟩ := p.ring.pushAll_frame (bytes buf written can)
  rw [bytes_length] at count
  apply Circular.ext
  · exact congrArg Pipe.buffer loop
  · exact (congrArg Pipe.bufSize loop).trans size.symm
  · exact (congrArg Pipe.readPos loop).trans read.symm
  · exact congrArg Pipe.writePos loop
  · exact (congrArg (fun q => q.count + can) loop).trans count.symm

theorem getLoop_eq (p : Pipe n) (k : Nat) (c : Circular Byte) (cells : c.cells = p.buffer) (size : c.size = p.bufSize)
    (read : c.readPos = p.readPos) : getLoop p k = ((c.popAll k).1, { p with readPos := (c.popAll k).2.readPos }) := by
  induction k generalizing p c with
  | zero => rw [getLoop, popAll, read]
  | succ k ih =>
    have rest := ih { p with readPos := (p.readPos + 1) % p.bufSize } c.pop cells size
      (by simp [pop, size, read])
    simp [getLoop, rest, popAll, cells, read]

theorem readSection_ring (p : Pipe n) (can : Nat) :
    (readSection p can).1 = (p.ring.popAll can).1 ∧ (readSection p can).2.ring = (p.ring.popAll can).2 := by
  have loop := getLoop_eq p can p.ring rfl rfl rfl
  obtain ⟨cells, size, write, count⟩ := p.ring.popAll_frame can
  constructor
  · exact congrArg Prod.fst loop
  apply Circular.ext
  · exact (congrArg (fun r => r.2.buffer) loop).trans cells.symm
  · exact (congrArg (fun r => r.2.bufSize) loop).trans size.symm
  · exact congrArg (fun r => r.2.readPos) loop
  · exact (congrArg (fun r => r.2.writePos) loop).trans write.symm
  · exact (congrArg (fun r => r.2.count - can) loop).trans count.symm

/-! ### What the callers know -/

def Pc.readLen : Pc → Nat
  | .read _ r _ _ => r
  | _ => 0

/-- Two places of a thread with the same progress of its call. -/
structure Pc.Alike (x y : Pc) : Prop where
  written : x.written = y.written
  got : x.got = y.got
  readLen : x.readLen = y.readLen

theorem Pc.Alike.refl (x : Pc) : x.Alike x := ⟨rfl, rfl, rfl⟩

@[simp] theorem Pc.written_idle : Pc.idle.written = [] := rfl

@[simp] theorem Pc.got_idle : Pc.idle.got = [] := rfl

theorem Pc.Alike.trans {x y z : Pc} (first : x.Alike y) (second : y.Alike z) : x.Alike z :=
  ⟨first.written.trans second.written, first.got.trans second.got, first.readLen.trans second.readLen⟩

theorem setPc_self (x : Pc) : ((s.setPc t x).pc t).Alike x := by
  simp only [Sys.setPc, update_self]
  exact .refl x

theorem setPc_others (x : Pc) (i : Fin n) (other : i ≠ t) : ((s.setPc t x).pc i).Alike (s.pc i) := by
  simp only [Sys.setPc, update_of_ne other]
  exact .refl _

theorem setPc_alike {x y : Pc} (at_t : s.pc t = y) (alike : x.Alike y) (i : Fin n) :
    ((s.setPc t x).pc i).Alike (s.pc i) := by
  obtain rfl | here := eq_or_ne i t
  · rw [at_t]
    exact (setPc_self x).trans alike
  · exact setPc_others x i here

theorem Pc.alike_wake (x : Pc) : x.wake.Alike x := by
  unfold wake
  split
  · exact ⟨rfl, rfl, rfl⟩
  · exact ⟨rfl, rfl, rfl⟩
  · exact .refl _

theorem Pc.alike_setStage (x : Pc) (stage : Stage) : (x.setStage stage).Alike x := by
  cases x <;> exact ⟨rfl, rfl, rfl⟩

/-- What the semaphores do concerns neither the queue nor the progress of a call. -/
theorem semPost_alike (s : Sys n) (k : Sem) :
    (semPost s k).pipe.ring = s.pipe.ring ∧ ∀ i, ((semPost s k).pc i).Alike (s.pc i) := by
  unfold semPost
  obtain ⟨woken, sem⟩ := (s.pipe.sem k).post
  cases woken with
  | none => exact ⟨rfl, fun i => .refl _⟩
  | some u =>
    refine ⟨rfl, fun i => ?_⟩
    obtain rfl | here := eq_or_ne i u
    · simp only [Sys.setPc, Sys.setSem, update_self]
      exact Pc.alike_wake _
    · simp only [Sys.setPc, Sys.setSem, update_of_ne here]
      exact .refl _

theorem semWait_alike (s : Sys n) (k : Sem) (t : Fin n) :
    (semWait s k t).pipe.ring = s.pipe.ring ∧ ∀ i, ((semWait s k t).pc i).Alike (s.pc i) := by
  refine ⟨rfl, fun i => ?_⟩
  simp only [semWait, Sys.setPc, Sys.setSem, update_apply]
  split
  next here => exact here ▸ Pc.alike_setStage _ _
  · exact .refl _

/-- The queue between what was inserted and what was removed, and what the calls have moved. -/
structure Inv (es : List (Sys n × Op n)) (s : Sys n) : Prop where
  valid : s.pipe.ring.Valid
  small : s.pipe.bufSize < 2 ^ 32
  order : (es.filterMap inserted).flatMap Prod.snd =
    (es.filterMap extracted).flatMap Prod.snd ++ s.pipe.ring.contents
  writes : ∀ t, (ofThread t (es.filterMap inserted)).flatten =
    (ofThread t (es.filterMap wrote)).flatMap (fun e => bytes e.2 0 e.1) ++ (s.pc t).written
  reads : ∀ t, (ofThread t (es.filterMap extracted)).flatten =
    (ofThread t (es.filterMap gave)).flatMap Prod.snd ++ (s.pc t).got
  sized : ∀ t, (s.pc t).got.length = (s.pc t).readLen
  values : ∀ e ∈ es.filterMap gave, e.2.2.length = e.2.1

namespace Inv

section

variable (h : Inv es s)
include h

/-- A step of one thread, by what it adds to the history. -/
theorem turn (t : Fin n) (i o : Option (List Byte)) (w : Option (Nat × (Nat → Byte))) (g : Option (Nat × List Byte))
    (inserts : inserted e = i.map (t, ·)) (extracts : extracted e = o.map (t, ·)) (wrote : wrote e = w.map (t, ·))
    (gave : gave e = g.map (t, ·)) (valid : s'.pipe.ring.Valid) (size : s'.pipe.bufSize = s.pipe.bufSize)
    (order : s.pipe.ring.contents ++ i.toList.flatten = o.toList.flatten ++ s'.pipe.ring.contents)
    (writes : (s.pc t).written ++ i.toList.flatten = w.toList.flatMap (fun e => bytes e.2 0 e.1) ++ (s'.pc t).written)
    (reads : (s.pc t).got ++ o.toList.flatten = g.toList.flatMap Prod.snd ++ (s'.pc t).got)
    (sized : (s'.pc t).got.length = (s'.pc t).readLen) (others : ∀ i, i ≠ t → (s'.pc i).Alike (s.pc i))
    (values : ∀ r ∈ g, r.2.length = r.1) : Inv (es ++ [e]) s' := by
  have moved (x : Option (List Byte)) : (x.map (t, ·)).toList.flatMap Prod.snd = x.toList.flatten := by
    cases x <;> simp
  -- What a thread holds beside the queue accounts for the calls that have not returned.
  constructor
  case valid => exact valid
  case small => exact size ▸ h.small
  case order =>
    simp only [filterMap_snoc, flatMap_append, h.order, append_assoc, inserts, extracts, moved, order]
  case writes =>
    intro k
    simp only [filterMap_snoc, ofThread_append, flatten_append, flatMap_append, h.writes k, append_assoc,
      inserts, wrote, ofThread_map]
    obtain rfl | here := eq_or_ne k t
    · simp [writes]
    · simp [here, (others k here).written]
  case reads =>
    intro k
    simp only [filterMap_snoc, ofThread_append, flatten_append, flatMap_append, h.reads k, append_assoc,
      extracts, gave, ofThread_map]
    obtain rfl | here := eq_or_ne k t
    · simp [reads]
    · simp [here, (others k here).got]
  case sized =>
    intro k
    obtain rfl | here := eq_or_ne k t
    · exact sized
    · rw [(others k here).got, (others k here).readLen]
      exact h.sized k
  case values =>
    intro r mem
    rw [filterMap_snoc, mem_append, gave, mem_toList] at mem
    rcases mem with old | new
    · exact h.values r old
    · obtain ⟨x, given, rfl⟩ := map_eq_some_iff.mp new
      exact values x given

theorem quiet (t : Fin n) (ring : s'.pipe.ring = s.pipe.ring) (alike : ∀ i, (s'.pc i).Alike (s.pc i))
    (silent : inserted e = none ∧ extracted e = none ∧ wrote e = none ∧ gave e = none) : Inv (es ++ [e]) s' := by
  obtain ⟨inserts, extracts, wrote, gave⟩ := silent
  refine h.turn t none none none none inserts extracts wrote gave (ring ▸ h.valid) (congrArg size ring)
    (by simp [ring]) (by simp [(alike t).written]) (by simp [(alike t).got]) ?_ (fun i _ => alike i) nofun
  rw [(alike t).got, (alike t).readLen]
  exact h.sized t

theorem quiet_setPc {x y : Pc} (at_t : s.pc t = y) (alike : x.Alike y)
    (silent : inserted e = none ∧ extracted e = none ∧ wrote e = none ∧ gave e = none) :
    Inv (es ++ [e]) (s.setPc t x) := h.quiet t rfl (setPc_alike at_t alike) silent

theorem quiet_semPost {x y : Pc} (k : Sem) (at_t : s.pc t = y) (alike : x.Alike y)
    (silent : inserted e = none ∧ extracted e = none ∧ wrote e = none ∧ gave e = none) :
    Inv (es ++ [e]) (semPost (s.setPc t x) k) := by
  obtain ⟨ring, woken⟩ := semPost_alike (s.setPc t x) k
  exact h.quiet t ring (fun i => (woken i).trans (setPc_alike at_t alike i)) silent

/-- A call returns, and what it moved goes into the history of its thread. -/
theorem returns (w : Option (Nat × (Nat → Byte))) (g : Option (Nat × List Byte)) (ring : s'.pipe.ring = s.pipe.ring)
    (others : ∀ i, i ≠ t → (s'.pc i).Alike (s.pc i)) (idle : (s'.pc t).Alike .idle)
    (silent : inserted e = none ∧ extracted e = none) (wrote : wrote e = w.map (t, ·))
    (gave : gave e = g.map (t, ·)) (writes : (s.pc t).written = w.toList.flatMap fun e => bytes e.2 0 e.1)
    (reads : (s.pc t).got = g.toList.flatMap Prod.snd) (values : ∀ r ∈ g, r.2.length = r.1) : Inv (es ++ [e]) s' := by
  refine h.turn t none none w g silent.1 silent.2 wrote gave (ring ▸ h.valid) (congrArg size ring)
    (by simp [ring]) (by simp [writes, idle.written]) (by simp [reads, idle.got]) ?_ others values
  rw [idle.got, idle.readLen]
  rfl

theorem insert {len written can : Nat} (at_t : s.pc t = .write buf len written .locked)
    (room : s.pipe.count + can ≤ s.pipe.bufSize) (event : inserted (s, .run t) = some (t, bytes buf written can)) :
    Inv (es ++ [(s, .run t)])
      ⟨writeSection s.pipe buf written can, update s.pc t (.write buf len (written + can) (.posts can))⟩ := by
  have ring := writeSection_ring s.pipe buf written can
  have fits : s.pipe.ring.count + (bytes buf written can).length ≤ s.pipe.ring.size := by
    rw [bytes_length]
    exact room
  have pushed := h.valid.pushAll fits
  have size : (writeSection s.pipe buf written can).bufSize = s.pipe.bufSize :=
    (congrArg size ring).trans (s.pipe.ring.pushAll_frame _).1
  have silent : extracted (s, .run t) = none ∧ wrote (s, .run t) = none ∧ gave (s, .run t) = none := by
    simp [extracted, wrote, gave, at_t]
  obtain ⟨extracts, wrote, gave⟩ := silent
  refine h.turn t (some (bytes buf written can)) none none none event extracts wrote gave (ring ▸ pushed.1) size ?_
    (by simp [at_t, Pc.written, bytes_append]) (by simp [at_t, Pc.got]) (by simp [Pc.got, Pc.readLen])
    (setPc_others (s := s) _) nofun
  rw [ring, pushed.2]
  simp

theorem extract {len read can : Nat} {got : List Byte} (at_t : s.pc t = .read len read got .locked)
    (enough : can ≤ s.pipe.count) (event : extracted (s, .run t) = some (t, (readSection s.pipe can).1)) :
    Inv (es ++ [(s, .run t)]) ⟨(readSection s.pipe can).2,
      update s.pc t (.read len (read + can) (got ++ (readSection s.pipe can).1) (.unlocked can))⟩ := by
  obtain ⟨taken, ring⟩ := readSection_ring s.pipe can
  obtain ⟨valid, front, length⟩ := h.valid.popAll enough
  have size : (readSection s.pipe can).2.bufSize = s.pipe.bufSize :=
    (congrArg size ring).trans (s.pipe.ring.popAll_frame _).2.1
  have silent : inserted (s, .run t) = none ∧ wrote (s, .run t) = none ∧ gave (s, .run t) = none := by
    simp [inserted, wrote, gave, at_t]
  obtain ⟨inserts, wrote, gave⟩ := silent
  have sized := h.sized t
  rw [at_t] at sized
  simp only [Pc.got, Pc.readLen] at sized
  refine h.turn t none (some (readSection s.pipe can).1) none none inserts event wrote gave (ring ▸ valid) size ?_
    (by simp [at_t, Pc.written]) (by simp [at_t, Pc.got]) (by simp [Pc.got, Pc.readLen, taken, length, sized])
    (setPc_others (s := s) _) (by simp)
  rw [ring, front, taken]
  simp

theorem canWrite_le {len written : Nat} : s.pipe.count + canWrite s.pipe len written ≤ s.pipe.bufSize := by
  have full : s.pipe.count ≤ s.pipe.bufSize := h.valid.count
  rw [canWrite_eq h.valid h.small]
  omega

theorem canRead_le {len read : Nat} : canRead s.pipe len read ≤ s.pipe.count := by
  rw [canRead_eq h.valid h.small]
  omega

end

attribute [local simp] inserted extracted wrote gave

theorem writeStep (h : Inv es s) {len written : Nat} {stage : Stage}
    (at_t : s.pc t = .write buf len written stage) (taken : writeStep s t buf len written stage = some s') :
    Inv (es ++ [(s, .run t)]) s' := by
  cases stage with
  | top =>
    cases taken
    by_cases more : written < len
    · rw [if_pos more]
      obtain ⟨ring, alike⟩ := semWait_alike s .slots t
      apply h.quiet t ring alike
      simp [inserted, extracted, wrote, gave, at_t, if_pos more]
    · rw [if_neg more]
      refine h.returns (some (written, buf)) none rfl (setPc_others _) (setPc_self _) ?_ ?_ ?_ ?_ ?_ nofun
      all_goals simp [at_t, if_neg more, Pc.written, Pc.got]
  | queued => cases taken
  | unlocked moved => cases taken
  | passed =>
    cases taken
    refine h.quiet_setPc at_t ⟨rfl, rfl, rfl⟩ ?_
    simp [at_t]
  | locked =>
    -- Only the section under the mutex moves bytes.
    have event : inserted (s, .run t) = some (t, bytes buf written (canWrite s.pipe len written)) := by
      simp [inserted, at_t]
    have room : s.pipe.count + canWrite s.pipe len written ≤ s.pipe.bufSize := h.canWrite_le
    cases taken
    generalize canWrite s.pipe len written = can at event room
    exact h.insert at_t room event
  | posts left =>
    cases left with
    | zero =>
      cases taken
      refine h.quiet_setPc at_t ⟨rfl, rfl, rfl⟩ ?_
      simp [at_t]
    | succ k =>
      cases taken
      refine h.quiet_semPost .items at_t ⟨rfl, rfl, rfl⟩ ?_
      simp [at_t]
  | back =>
    cases taken
    obtain ⟨ring, alike⟩ := semPost_alike (s.setPc t .idle) .slots
    refine h.returns (some (written, buf)) none ring (fun i other => (alike i).trans (setPc_others _ i other))
      ((alike t).trans (setPc_self _)) ?_ ?_ ?_ ?_ ?_ nofun
    all_goals simp [at_t, Pc.written, Pc.got]

theorem readStep (h : Inv es s) {len read : Nat} {got : List Byte} {stage : Stage}
    (at_t : s.pc t = .read len read got stage) (taken : readStep s t len read got stage = some s') :
    Inv (es ++ [(s, .run t)]) s' := by
  have sized : got.length = read := by
    have sized := h.sized t
    rwa [at_t] at sized
  cases stage with
  | top =>
    cases taken
    by_cases more : read < len
    · rw [if_pos more]
      obtain ⟨ring, alike⟩ := semWait_alike s .items t
      apply h.quiet t ring alike
      simp [inserted, extracted, wrote, gave, at_t, if_pos more]
    · rw [if_neg more]
      refine h.returns none (some (read, got)) rfl (setPc_others _) (setPc_self _) ?_ ?_ ?_ ?_ ?_ (by simpa using sized)
      all_goals simp [at_t, if_neg more, Pc.written, Pc.got]
  | queued => cases taken
  | unlocked moved =>
    cases taken
    refine h.quiet_setPc at_t ⟨rfl, rfl, rfl⟩ ?_
    simp [at_t]
  | passed =>
    cases taken
    refine h.quiet_setPc at_t ⟨rfl, rfl, rfl⟩ ?_
    simp [at_t]
  | locked =>
    -- Only the section under the mutex moves bytes.
    have event : extracted (s, .run t) = some (t, (readSection s.pipe (canRead s.pipe len read)).1) := by
      simp [extracted, at_t]
    have enough : canRead s.pipe len read ≤ s.pipe.count := h.canRead_le
    cases taken
    generalize canRead s.pipe len read = can at event enough
    exact h.extract at_t enough event
  | posts left =>
    cases left with
    | zero =>
      cases taken
      refine h.quiet_setPc at_t ⟨rfl, rfl, rfl⟩ ?_
      simp [at_t]
    | succ k =>
      cases taken
      refine h.quiet_semPost .slots at_t ⟨rfl, rfl, rfl⟩ ?_
      simp [at_t]
  | back =>
    cases taken
    obtain ⟨ring, alike⟩ := semPost_alike (s.setPc t .idle) .items
    refine h.returns none (some (read, got)) ring (fun i other => (alike i).trans (setPc_others _ i other))
      ((alike t).trans (setPc_self _)) ?_ ?_ ?_ ?_ ?_ (by simpa using sized)
    all_goals simp [at_t, Pc.written, Pc.got]

theorem closeStep (h : Inv es s) {posted : Bool} {k : Sem} {x : Pc} (at_t : s.pc t = .close posted)
    (alike : x.Alike (.close posted)) : Inv (es ++ [(s, .run t)]) (semPost (s.setPc t x) k) := by
  apply h.quiet_semPost k at_t alike
  simp [at_t]

theorem step (es : List (Sys n × Op n)) (s : Sys n) (op : Op n) (s' : Sys n) (h : Inv es s)
    (taken : Pipes.step s op s') : Inv (es ++ [(s, op)]) s' := by
  cases op with
  | write t buf len =>
    simp only [Pipes.step, exec] at taken
    split at taken
    case h_2 => cases taken
    case h_1 idle =>
      cases taken
      by_cases closed : s.pipe.closed
      · -- A closed pipe: the call returns 0 without a step of its own.
        rw [if_pos closed]
        have still : (s.pc t).Alike .idle := by rw [idle]; exact .refl _
        refine h.returns (some (0, buf)) none rfl (fun i _ => .refl _) still ?_ ?_ ?_ still.written still.got nofun
        all_goals simp [if_pos closed]
      · rw [if_neg closed]
        refine h.quiet_setPc idle ⟨rfl, rfl, rfl⟩ ?_
        simp [inserted, extracted, wrote, gave, if_neg closed]
  | read t len =>
    simp only [Pipes.step, exec] at taken
    split at taken
    case h_2 => cases taken
    case h_1 idle =>
      cases taken
      refine h.quiet_setPc idle ⟨rfl, rfl, rfl⟩ ?_
      simp
  | close t =>
    simp only [Pipes.step, exec] at taken
    split at taken
    case h_2 => cases taken
    case h_1 idle =>
      cases taken
      refine h.quiet t rfl (setPc_alike idle ⟨rfl, rfl, rfl⟩) ?_
      simp
  | run t =>
    simp only [Pipes.step, exec] at taken
    split at taken
    case h_1 => cases taken
    case h_2 at_t => exact h.writeStep at_t taken
    case h_3 at_t => exact h.readStep at_t taken
    case h_4 at_t =>
      cases taken
      exact h.closeStep at_t ⟨rfl, rfl, rfl⟩
    case h_5 at_t =>
      cases taken
      exact h.closeStep at_t ⟨rfl, rfl, rfl⟩

end Inv

theorem initSize (bufSize : Nat) : 0 < (pipeInit (n := n) bufSize).bufSize ∧
    (pipeInit (n := n) bufSize).bufSize ≤ 65536 := by
  simp only [pipeInit]
  split <;> split <;> omega

theorem Inv.start (n bufSize : Nat) : Inv [] (start n bufSize) := by
  obtain ⟨pos, le⟩ := initSize (n := n) bufSize
  exact ⟨⟨pos, Nat.zero_le _, (Nat.zero_mod _).symm⟩, Nat.lt_of_le_of_lt le (by decide), rfl,
    fun _ => rfl, fun _ => rfl,
    fun _ => rfl, by simp⟩

/-- A pipe is a queue of bytes: whatever the threads do, the bytes that readers have removed are the
first ones of those that writers have inserted, the count and both positions stay in the buffer, and
a call returns as many bytes as it has moved. -/
theorem pipe_fifo (run : Run step (Pipes.start n bufSize) es s) :
    (es.filterMap extracted).flatMap Prod.snd <+: (es.filterMap inserted).flatMap Prod.snd ∧
      s.pipe.count ≤ s.pipe.bufSize ∧ s.pipe.readPos < s.pipe.bufSize ∧ s.pipe.writePos < s.pipe.bufSize ∧
      (∀ t, (ofThread t (es.filterMap inserted)).flatten =
        (ofThread t (es.filterMap wrote)).flatMap (fun e => bytes e.2 0 e.1) ++ (s.pc t).written) ∧
      (∀ t, (ofThread t (es.filterMap extracted)).flatten =
        (ofThread t (es.filterMap gave)).flatMap Prod.snd ++ (s.pc t).got) ∧
      ∀ e ∈ es.filterMap gave, e.2.2.length = e.2.1 := by
  have inv : Inv es s := run.history_invariant (I := Inv) (Inv.start n bufSize) Inv.step
  exact ⟨⟨_, inv.order.symm⟩, inv.valid.count, inv.valid.read, inv.valid.writePos_lt, inv.writes, inv.reads, inv.values⟩

/-- A writer of three bytes into a buffer of two, and a reader that takes the first before the third
is written. -/
def threeBytes : List (Op 2) :=
  [.write 0 (fun i => BitVec.ofNat 8 (i + 65)) 3, .run 0, .run 0, .run 0, .run 0, .run 0, .run 0,
    .read 1 1, .run 1, .run 1, .run 1, .run 1, .run 1, .run 0, .run 0, .run 0]

theorem three_bytes_in_order : ∃ es s, Run step (Pipes.start 2 2) es s ∧ es.map Prod.snd = threeBytes ∧
    (s.pc 1).got = [65] ∧ s.pipe.ring.contents = [66, 67] ∧
    (es.filterMap extracted).flatMap Prod.snd <+: (es.filterMap inserted).flatMap Prod.snd := by
  have values : (threeBytes.foldlM (guarded exec fun _ _ => True) (start 2 2)).map
      (fun s => ((s.pc 1).got, s.pipe.ring.contents)) = some ([65], [66, 67]) := by decide +kernel
  obtain ⟨s, ends, value⟩ := map_eq_some_iff.mp values
  obtain ⟨es, run, ops, -⟩ := exists_run_of_foldlM ends
  exact ⟨es, s, run, ops, congrArg Prod.fst value, congrArg Prod.snd value, (pipe_fifo run).1⟩

end Jlos.Ipc.Pipes
