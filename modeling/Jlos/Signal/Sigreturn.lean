import Jlos.Signal.Model

/-!
# What a signal frame brings back

`jlos_arch_signal_frame_restore` takes the whole trap frame from user memory, and the dispatcher
treats the restored return value as the result of a system call.
-/
namespace Jlos.Signal

open Lib Function BitVec Memory

variable {a : Arch} {tf tf' tf₁ : Frame a} {m m₁ : Memory a.wordBits} {t t₁ : Task a} {sig : BitVec 32}
  {k : Fin (frameWords a)} {x : Word a} {c : Call a}

/-! ### Frames in memory -/

theorem wordBits_eq (a : Arch) : a.wordBits = 8 * a.pointerSize := by
  cases a <;> rfl

theorem frameOfBytes_frameBytes (tf : Frame a) : frameOfBytes (frameBytes tf) = tf := by
  funext i
  have pos : 0 < a.pointerSize := by cases a <;> decide
  have bytes : ∀ j, j < a.pointerSize → frameBytes tf (a.pointerSize * i + j) = byteOf (tf i) j := by
    intro j lt
    have index : (a.pointerSize * i + j) / a.pointerSize = i := by
      rw [Nat.mul_add_div pos, Nat.div_eq_of_lt lt, Nat.add_zero]
    have rest : (a.pointerSize * i + j) % a.pointerSize = j := by
      rw [Nat.mul_add_mod, Nat.mod_eq_of_lt lt]
    simp [frameBytes, index, rest, i.isLt]
  rw [frameOfBytes, ofBytes_congr bytes]
  exact ofBytes_byteOf (tf i) (le_of_eq (wordBits_eq a))

theorem frameOfBytes_congr {f g : Nat → BitVec 8} (same : ∀ j, j < regsSize a → f j = g j) :
    (frameOfBytes f : Frame a) = frameOfBytes g := by
  funext i
  apply ofBytes_congr
  intro j lt
  apply same
  calc a.pointerSize * i + j < a.pointerSize * i + a.pointerSize := Nat.add_lt_add_left lt _
    _ = a.pointerSize * (i + 1) := (Nat.mul_succ _ _).symm
    _ ≤ regsSize a := Nat.mul_le_mul_left _ i.isLt

/-- The trap frame that user memory holds where `jlos_arch_signal_frame_restore` looks. -/
def savedFrame (a : Arch) (tf : Frame a) (m : Memory a.wordBits) : Frame a :=
  frameOfBytes (m.read (restoreBase a (tf (spReg a))))

/-- The value that `jlos_syscall_do_dispatch` and the entry leave of a return value. -/
def clip {w : Nat} (x : BitVec w) : BitVec w :=
  (if (x.setWidth 32).slt 0#32 then -1 else x.setWidth 32 : BitVec 32).signExtend w

/-- The system call brings back the saved frame, with its return value passed through the
dispatcher. -/
theorem syscallEntry_tf (dispatch : Nat → Option (Call a → BitVec 32 × Call a))
    (num : (c.tf (numReg a)).setWidth 32 = BitVec.ofNat 32 sigreturnNum) :
    (syscallEntry dispatch c).tf = update (savedFrame a c.tf c.mem) (retvalReg a)
      (clip (savedFrame a c.tf c.mem (retvalReg a))) := by
  have small : (BitVec.ofNat 32 sigreturnNum).toNat = sigreturnNum := rfl
  simp only [syscallEntry, syscallDoDispatch, num, small, update_self]
  rfl

/-! ### Privileges -/

/-- Ring 3 with interrupts enabled and I/O privilege level 0; exception level 0. -/
def Unprivileged (tf : Frame a) : Prop :=
  (∀ r ∈ segmentRegs a, tf r &&& 3 = 3) ∧
    if a = .arm64 then tf (flagsReg a) &&& 0x1F = 0
    else (tf (flagsReg a)).getLsbD 9 = true ∧ (tf (flagsReg a) >>> 12) &&& 3 = 0

instance (tf : Frame a) : Decidable (Unprivileged tf) :=
  inferInstanceAs (Decidable ((∀ r ∈ segmentRegs a, tf r &&& 3 = 3) ∧
    if a = .arm64 then tf (flagsReg a) &&& 0x1F = 0
    else (tf (flagsReg a)).getLsbD 9 = true ∧ (tf (flagsReg a) >>> 12) &&& 3 = 0))

/-- The registers that decide about privileges. -/
def Guarded (r : Fin (frameWords a)) : Prop := r ∈ segmentRegs a ∨ r = flagsReg a

theorem unprivileged_congr (same : ∀ r, Guarded r → tf' r = tf r) : Unprivileged tf' ↔ Unprivileged tf := by
  have flags : tf' (flagsReg a) = tf (flagsReg a) := same _ (.inr rfl)
  have segments : (∀ r ∈ segmentRegs a, tf' r &&& 3 = 3) ↔ ∀ r ∈ segmentRegs a, tf r &&& 3 = 3 := by
    constructor
    · exact fun all r mem => same r (.inl mem) ▸ all r mem
    · exact fun all r mem => (same r (.inl mem)).symm ▸ all r mem
  simp only [Unprivileged, flags, segments]

theorem not_guarded (a : Arch) : ¬Guarded (spReg a) ∧ ¬Guarded (pcReg a) ∧ ¬Guarded (retvalReg a) ∧
    (∀ r ∈ argReg a, ¬Guarded r) ∧ ∀ r ∈ linkReg a, ¬Guarded r := by
  unfold Guarded
  cases a <;> decide

theorem setReg_other {r : Option (Fin (frameWords a))} (off : ∀ i ∈ r, i ≠ k) : setReg tf r x k = tf k := by
  cases r with
  | none => rfl
  | some i => exact update_of_ne (off i rfl).symm ..

theorem enterHandler_other {handler frame : Word a} (pc : pcReg a ≠ k) (arg : ∀ i ∈ argReg a, i ≠ k)
    (link : ∀ i ∈ linkReg a, i ≠ k) : enterHandler a tf sig handler frame k = update tf (spReg a) frame k := by
  rw [enterHandler, setReg_other link, setReg_other arg, update_of_ne pc.symm]

theorem enterHandler_guarded {handler frame : Word a} (at_k : Guarded k) :
    enterHandler a tf sig handler frame k = tf k := by
  obtain ⟨sp, pc, -, arg, link⟩ := not_guarded a
  have away {r : Fin (frameWords a)} (off : ¬Guarded r) : r ≠ k := fun same => off (same ▸ at_k)
  rw [enterHandler_other (away pc) (fun i mem => away (arg i mem)) fun i mem => away (link i mem),
    update_of_ne (away sp).symm]

/-- What the loop installs is a frame for the registers it was given. -/
theorem deliverLoop_installed {sigs : List (Fin 32)} (installed : deliverLoop a t tf m sigs = .installed t₁ tf₁ m₁) :
    ∃ sig handler, signalFrameSetup a tf m sig handler = (tf₁, m₁) := by
  induction sigs generalizing t with
  | nil => cases installed
  | cons sig rest ih =>
    simp only [deliverLoop] at installed
    split at installed
    · exact ih installed
    · split at installed
      · exact ih installed
      · split at installed
        · cases installed
          exact ⟨_, _, rfl⟩
        · split at installed
          · cases installed
          · exact ih installed

/-- The trap frame that the kernel returns to after `jlos_signal_check_deliver`, if it returns. -/
def Delivery.frame (d : Delivery a) (tf : Frame a) : Option (Frame a) :=
  match d with
  | .untouched _ => some tf
  | .installed _ tf _ => some tf
  | .exits _ => none

/-- A process gets through `JLOS_SYSCALL_SIGRETURN` the privileges that the frame in its memory has,
whatever they are: the trap frame that is returned to is unprivileged exactly if the frame in memory
is. -/
theorem sigreturn_unprivileged_iff (dispatch : Nat → Option (Call a → BitVec 32 × Call a)) (c : Call a)
    (num : (c.tf (numReg a)).setWidth 32 = BitVec.ofNat 32 sigreturnNum) (t : Task a) :
    (Unprivileged (signalFrameRestore a c.tf c.mem).1 ↔ Unprivileged (savedFrame a c.tf c.mem)) ∧
    ∀ tf', (signalCheckDeliver a t (syscallEntry dispatch c).tf (syscallEntry dispatch c).mem).frame
      (syscallEntry dispatch c).tf = some tf' → (Unprivileged tf' ↔ Unprivileged (savedFrame a c.tf c.mem)) := by
  refine ⟨Iff.rfl, fun tf' returns => ?_⟩
  have entry : Unprivileged (syscallEntry dispatch c).tf ↔ Unprivileged (savedFrame a c.tf c.mem) := by
    rw [syscallEntry_tf dispatch num]
    refine unprivileged_congr fun k at_k => update_of_ne ?_ ..
    rintro rfl
    exact (not_guarded a).2.2.1 at_k
  rw [← entry]
  cases delivered : signalCheckDeliver a t (syscallEntry dispatch c).tf (syscallEntry dispatch c).mem with
  | untouched t₁ =>
    rw [delivered] at returns
    rw [← Option.some.inj returns]
  | installed t₁ tf₁ m₁ =>
    obtain ⟨sig, handler, setup⟩ := deliverLoop_installed delivered
    rw [delivered] at returns
    rw [← Option.some.inj returns, ← (Prod.mk.inj setup).1]
    exact unprivileged_congr fun k at_k => enterHandler_guarded at_k
  | exits sig =>
    rw [delivered] at returns
    cases returns

/-- A stack of zeros, except for the selector `cs` of a frame for `user_esp` 0x1000. -/
def forgedStack (cs : BitVec 8) : Memory 32 := ⟨fun x => if x = 0x1000 + 4 + 40 then cs else 0, []⟩

def noSignals : Task .i386 := ⟨0, fun _ => 0, 0⟩

local instance registers : NeZero 14 := ⟨by decide⟩

/-- `int 0x80` with `eax` 24 and `user_esp` 0x1000. -/
def forgedCall (m : Memory 32) : Call .i386 :=
  ⟨noSignals, update (update (fun _ => 0) (12 : Fin 14) 0x1000) (6 : Fin 14) 24, m⟩

/-- A user process returns with the kernel's code segment. -/
theorem forged_frame_privileged :
    (syscallEntry (fun _ => none) (forgedCall (forgedStack 0x10))).tf (10 : Fin 14) = 0x10 ∧
    ¬Unprivileged (signalFrameRestore .i386 (forgedCall (forgedStack 0x10)).tf (forgedStack 0x10)).1 := by
  constructor <;> decide +kernel

/-- A stack with an unprivileged frame: `cs` 0x23, `eflags` 0x200 and `user_ss` 0x2B. -/
def userStack : Memory 32 :=
  ⟨fun x => if x = 0x1000 + 4 + 40 then 0x23 else if x = 0x1000 + 4 + 45 then 0x02
    else if x = 0x1000 + 4 + 52 then 0x2B else 0, []⟩

theorem user_frame_unprivileged : let c := forgedCall userStack
    let after := syscallEntry (fun _ => none) c
    Unprivileged (savedFrame .i386 c.tf userStack) ∧ Unprivileged (signalFrameRestore .i386 c.tf userStack).1 ∧
      ∃ tf', (signalCheckDeliver .i386 noSignals after.tf after.mem).frame after.tf = some tf' ∧ Unprivileged tf' := by
  have saved : Unprivileged (savedFrame .i386 (forgedCall userStack).tf userStack) := by decide +kernel
  obtain ⟨restored, returned⟩ :=
    sigreturn_unprivileged_iff (fun _ => none) (forgedCall userStack) (by decide) noSignals
  exact ⟨saved, restored.mpr saved, _, rfl, (returned _ rfl).mpr saved⟩

/-! ### Transparency -/

theorem enterHandler_sp {handler frame : Word a} : enterHandler a tf sig handler frame (spReg a) = frame := by
  have pc : pcReg a ≠ spReg a := by cases a <;> decide
  have arg : ∀ i ∈ argReg a, i ≠ spReg a := by cases a <;> decide
  have link : ∀ i ∈ linkReg a, i ≠ spReg a := by cases a <;> decide
  rw [enterHandler_other pc arg link, update_self]

theorem read_writeFrame {frame : Word a} {j : Nat} (lt : j < regsSize a) :
    (writeFrame a tf m sig frame).read (frame + word a (regsOffset a)) j = frameBytes tf j := by
  have fits : regsSize a + (sigreturnCode a).length < 2 ^ a.wordBits := by cases a <;> decide
  have behind : frame + word a (sigreturnOffset a) = frame + word a (regsOffset a) + word a (regsSize a) := by
    rw [sigreturnOffset, word, BitVec.ofNat_add, BitVec.add_assoc]
    rfl
  rw [writeFrame, storeCode, behind]
  exact (read_store_behind lt fits).trans (read_store_self lt (by omega))

/-- What the handler leaves: it has returned through the trampoline and has not modified the
frame. -/
structure Returned (tf₁ : Frame a) (m₁ : Memory a.wordBits) (c : Call a) : Prop where
  sp : c.tf (spReg a) = tf₁ (spReg a) + word a (if a = .arm64 then 0 else a.pointerSize)
  num : (c.tf (numReg a)).setWidth 32 = BitVec.ofNat 32 sigreturnNum
  frame : ∀ j, j < sigframeSize a → c.mem.read (tf₁ (spReg a)) j = m₁.read (tf₁ (spReg a)) j

theorem restoreBase_returned (frame : Word a) :
    restoreBase a (frame + word a (if a = .arm64 then 0 else a.pointerSize)) = frame + word a (regsOffset a) := by
  unfold restoreBase regsOffset
  split
  · rfl
  · rw [Nat.two_mul, word, word, BitVec.ofNat_add, BitVec.add_assoc]

theorem savedFrame_returned (installed : signalCheckDeliver a t tf m = .installed t₁ tf₁ m₁)
    (returned : Returned tf₁ m₁ c) : savedFrame a c.tf c.mem = tf := by
  obtain ⟨sig, handler, setup⟩ := deliverLoop_installed installed
  obtain ⟨rfl, rfl⟩ := Prod.mk.inj setup
  have base : restoreBase a (c.tf (spReg a)) = frameBase a (tf (spReg a)) + word a (regsOffset a) := by
    rw [returned.sp, enterHandler_sp, restoreBase_returned]
  rw [savedFrame, base, ← frameOfBytes_frameBytes tf]
  apply frameOfBytes_congr
  intro j lt
  have inFrame : regsOffset a + j < sigframeSize a := by
    rw [sigframeSize, sigreturnOffset]
    omega
  have kept := returned.frame (regsOffset a + j) inFrame
  rw [enterHandler_sp] at kept
  simp only [Memory.read, BitVec.ofNat_add, ← BitVec.add_assoc] at kept
  rw [frameOfBytes_frameBytes]
  exact kept.trans (read_writeFrame lt)

theorem signExtend_ones {k : Nat} : (-1 : BitVec 32).signExtend (32 + k) = BitVec.allOnes (32 + k) := by
  apply eq_of_toInt_eq
  rw [toInt_signExtend_of_le (by omega), toInt_allOnes, if_pos (by omega)]
  rfl

/-- The return values that the dispatcher passes on as they are. -/
theorem clip_eq_iff {w : Nat} (x : BitVec w) (wide : 32 ≤ w) :
    clip x = x ↔ x = BitVec.allOnes w ∨ x.toNat < 2 ^ 31 := by
  obtain ⟨k, rfl⟩ := Nat.exists_eq_add_of_le wide
  have low : (x.setWidth 32).toNat = x.toNat % 2 ^ 32 := toNat_setWidth ..
  have sign : (x.setWidth 32).msb = decide (2 ^ 31 ≤ x.toNat % 2 ^ 32) := by
    rw [msb_eq_decide, low]
  unfold clip
  rw [slt_zero_eq_msb]
  by_cases negative : 2 ^ 31 ≤ x.toNat % 2 ^ 32
  · rw [if_pos (sign.trans (decide_eq_true negative)), signExtend_ones]
    constructor
    · exact fun eq => .inl eq.symm
    · rintro (eq | small)
      · exact eq.symm
      · omega
  · have plus : (x.setWidth 32).msb = false := sign.trans (decide_eq_false negative)
    rw [plus, if_neg Bool.false_ne_true, signExtend_eq_setWidth_of_msb_false plus]
    have value : ((x.setWidth 32).setWidth (32 + k)).toNat = x.toNat % 2 ^ 32 := by
      rw [toNat_setWidth, low]
      apply Nat.mod_eq_of_lt
      calc x.toNat % 2 ^ 32 < 2 ^ 32 := Nat.mod_lt _ (by decide)
        _ ≤ 2 ^ (32 + k) := Nat.pow_le_pow_right (by decide) wide
    constructor
    · intro eq
      rw [eq] at value
      omega
    · rintro (eq | small)
      · -- the low half of a word of ones is negative
        rw [eq, toNat_allOnes, Nat.pow_add] at negative
        have pos : 0 < 2 ^ k := Nat.two_pow_pos k
        omega
      · apply eq_of_toNat_eq
        omega

theorem clip_clip {w : Nat} (x : BitVec w) (wide : 32 ≤ w) : clip (clip x) = clip x := by
  rw [clip_eq_iff _ wide]
  obtain ⟨k, rfl⟩ := Nat.exists_eq_add_of_le wide
  unfold clip
  split
  · exact .inl signExtend_ones
  next plus =>
    right
    rw [slt_zero_eq_msb, Bool.not_eq_true] at plus
    have small := msb_eq_decide (x.setWidth 32)
    rw [plus, eq_comm, decide_eq_false_iff_not] at small
    rw [signExtend_eq_setWidth_of_msb_false plus, toNat_setWidth]
    exact lt_of_le_of_lt (Nat.mod_le _ _) (Nat.not_le.mp small)

theorem wide (a : Arch) : 32 ≤ a.wordBits := by
  cases a <;> decide

/-- The frame after a handler, before the next look at the pending signals. -/
theorem syscallEntry_returned (dispatch : Nat → Option (Call a → BitVec 32 × Call a))
    (installed : signalCheckDeliver a t tf m = .installed t₁ tf₁ m₁) (returned : Returned tf₁ m₁ c) :
    (syscallEntry dispatch c).tf = update tf (retvalReg a) (clip (tf (retvalReg a))) := by
  rw [syscallEntry_tf dispatch returned.num, savedFrame_returned installed returned]

/-- How user code gets on from a trap frame: the kernel looks at the pending signals, and every
handler that it enters returns before the code resumes. What is pending and which handlers are
installed may change from look to look. -/
inductive Resumes : Frame a → Memory a.wordBits → Frame a → Prop
  | untouched {tf : Frame a} {m : Memory a.wordBits} {t t₁ : Task a} :
      signalCheckDeliver a t tf m = .untouched t₁ → Resumes tf m tf
  | handled {tf tf₁ tf' : Frame a} {m m₁ : Memory a.wordBits} {t t₁ : Task a} {c : Call a}
      (dispatch : Nat → Option (Call a → BitVec 32 × Call a)) :
    signalCheckDeliver a t tf m = .installed t₁ tf₁ m₁ → Returned tf₁ m₁ c →
    Resumes (syscallEntry dispatch c).tf (syscallEntry dispatch c).mem tf' → Resumes tf m tf'

theorem Resumes.eq (resumes : Resumes tf m tf') (passes : clip (tf (retvalReg a)) = tf (retvalReg a)) : tf' = tf := by
  induction resumes with
  | untouched => rfl
  | handled dispatch installed returned _ ih =>
    have back := syscallEntry_returned dispatch installed returned
    rw [passes, update_eq_self] at back
    rw [back] at ih
    exact ih passes

/-- When a signal is delivered and the handler returns without modifying the frame, the interrupted
code resumes with the registers it had exactly if the dispatcher passes its return value register
on. -/
theorem signal_transparent_iff {c : Call a} (dispatch : Nat → Option (Call a → BitVec 32 × Call a))
    (installed : signalCheckDeliver a t tf m = .installed t₁ tf₁ m₁) (returned : Returned tf₁ m₁ c)
    (resumes : Resumes (syscallEntry dispatch c).tf (syscallEntry dispatch c).mem tf') :
    tf' = tf ↔ tf (retvalReg a) = BitVec.allOnes a.wordBits ∨ (tf (retvalReg a)).toNat < 2 ^ 31 := by
  have back := syscallEntry_returned dispatch installed returned
  have final : tf' = update tf (retvalReg a) (clip (tf (retvalReg a))) := by
    rw [← back]
    apply resumes.eq
    rw [back, update_self]
    exact clip_clip _ (wide a)
  rw [← clip_eq_iff _ (wide a), final]
  constructor
  · intro same
    have at_retval := congrFun same (retvalReg a)
    rwa [update_self] at at_retval
  · intro passes
    rw [passes, update_eq_self]

/-- A task with a handler for signal 10, which is pending. -/
def signalled : Task .i386 := ⟨1#32 <<< 10, fun _ => 0x8000, 0⟩

/-- Registers of user code: everything 0 but the stack pointer and `eax`. -/
def interrupted (eax : BitVec 32) : Frame .i386 :=
  update (update (fun _ => 0) (12 : Fin 14) 0x1000) (6 : Fin 14) eax

def zeroMemory : Memory 32 := ⟨fun _ => 0, []⟩

/-- The handler's registers and the memory at its `int 0x80`. -/
def handled (eax : BitVec 32) : Call .i386 :=
  let (tf, m) := signalFrameSetup .i386 (interrupted eax) zeroMemory 10 0x8000
  ⟨noSignals, update (update tf (12 : Fin 14) (tf (12 : Fin 14) + 4)) (6 : Fin 14) 24, m⟩

theorem handled_returned (eax : BitVec 32) : ∃ t₁ tf₁ m₁,
    signalCheckDeliver .i386 signalled (interrupted eax) zeroMemory = .installed t₁ tf₁ m₁ ∧
    Returned tf₁ m₁ (handled eax) := by
  have first : (List.finRange 32).filter (fun sig : Fin 32 => signalled.pending.getLsbD sig) = [10] := by decide +kernel
  refine ⟨_, _, _, by unfold signalCheckDeliver; rw [first]; rfl, ?_, ?_, ?_⟩
  · rfl
  · rfl
  · exact fun _ _ => rfl

theorem resumes_quiet (tf : Frame .i386) (m : Memory 32) : Resumes tf m tf := by
  have quiet : signalCheckDeliver .i386 noSignals tf m = .untouched noSignals := rfl
  exact .untouched quiet

/-- Code that is interrupted with -2 in `eax` resumes with -1. -/
theorem negative_eax_lost : ∃ t₁ tf₁ m₁ tf',
    signalCheckDeliver .i386 signalled (interrupted (-2)) zeroMemory = .installed t₁ tf₁ m₁ ∧
    Returned tf₁ m₁ (handled (-2)) ∧
    Resumes (syscallEntry (fun _ => none) (handled (-2))).tf (syscallEntry (fun _ => none) (handled (-2))).mem tf' ∧
    interrupted (-2) (retvalReg .i386) = -2 ∧ tf' (retvalReg .i386) = -1 := by
  obtain ⟨t₁, tf₁, m₁, installed, returned⟩ := handled_returned (-2)
  refine ⟨t₁, tf₁, m₁, _, installed, returned, resumes_quiet _ _, rfl, ?_⟩
  decide

/-- Code that is interrupted with 7 in `eax` resumes as it was. -/
theorem small_eax_kept : ∃ t₁ tf₁ m₁,
    signalCheckDeliver .i386 signalled (interrupted 7) zeroMemory = .installed t₁ tf₁ m₁ ∧
    Returned tf₁ m₁ (handled 7) ∧ (syscallEntry (fun _ => none) (handled 7)).tf = interrupted 7 := by
  obtain ⟨t₁, tf₁, m₁, installed, returned⟩ := handled_returned 7
  have resumes : Resumes (syscallEntry (fun _ => none) (handled 7)).tf (syscallEntry (fun _ => none) (handled 7)).mem
      (syscallEntry (fun _ => none) (handled 7)).tf := resumes_quiet _ _
  exact ⟨t₁, tf₁, m₁, installed, returned,
    (signal_transparent_iff (fun _ => none) installed returned resumes).mpr (.inr (by decide))⟩

/-! ### The addresses -/

def User (x : Word a) : Prop := x.toNat < a.userSpaceLimit

theorem limit_lt (a : Arch) : a.userSpaceLimit < 2 ^ a.wordBits := by
  cases a <;> decide

theorem within_fresh {P : Word a → Prop} (fresh : m.touched = []) : m.Within P := by
  intro r mem
  rw [fresh] at mem
  cases mem

theorem within_writeFrame {frame : Word a} (fresh : m.touched = []) :
    (writeFrame a tf m sig frame).Within User ↔ frame.toNat + sigframeSize a ≤ a.userSpaceLimit := by
  have none : m.Within User := within_fresh fresh
  have pointer : 0 < a.pointerSize := by cases a <;> decide
  have regs : 0 < regsSize a := by cases a <;> decide
  have code : 0 < (sigreturnCode a).length := by cases a <;> decide
  have returns : (writeReturn a m sig frame).Within User ∧
      (∀ x, Memory.InRange (frame + word a (regsOffset a)) (regsSize a) x → User x) ↔
      frame.toNat + sigreturnOffset a ≤ a.userSpaceLimit := by
    have top := limit_lt a
    unfold writeReturn sigreturnOffset regsOffset
    split
    · simp only [none, true_and, word, BitVec.add_zero, Nat.zero_add]
      exact inRange_below_iff regs top
    · simp only [storeWord, within_store, none, true_and]
      simp only [User, inRange_below_iff pointer top, inRange_below_iff regs top, word]
      rw [below_append top, ← Nat.two_mul, below_append top]
  rw [writeFrame, storeCode, within_store, within_store, returns]
  simp only [User, inRange_below_iff code (limit_lt a)]
  exact below_append (limit_lt a)

theorem within_signalFrameRestore (fresh : m.touched = []) : (signalFrameRestore a tf m).2.Within User ↔
      (restoreBase a (tf (spReg a))).toNat + regsSize a ≤ a.userSpaceLimit := by
  have regs : 0 < regsSize a := by cases a <;> decide
  rw [signalFrameRestore]
  simp only [within_load, within_fresh fresh, true_and]
  exact inRange_below_iff regs (limit_lt a)

/-- A delivery accesses user addresses only exactly if the frame ends below the limit, and a return
from a handler exactly if the registers it reads end below the limit; the addresses are computed
modulo the size of a word. -/
theorem signal_accesses_iff (tf : Frame a) (bytes : Word a → BitVec 8) (sig : BitVec 32) (handler : Word a) :
    ((signalFrameSetup a tf ⟨bytes, []⟩ sig handler).2.Within User ↔
      (frameBase a (tf (spReg a))).toNat + sigframeSize a ≤ a.userSpaceLimit) ∧
    ((signalFrameRestore a tf ⟨bytes, []⟩).2.Within User ↔
      (restoreBase a (tf (spReg a))).toNat + regsSize a ≤ a.userSpaceLimit) :=
  ⟨within_writeFrame rfl, within_signalFrameRestore rfl⟩

/-- Registers of user code: everything 0 but the stack pointer. -/
def stackAt (a : Arch) (sp : Word a) : Frame a := update (fun _ => 0) (spReg a) sp

/-- With a stack pointer inside the kernel's image, delivery writes to the kernel and the return
reads from it, on all architectures. -/
theorem kernel_stack_accessed :
    (¬(signalFrameSetup .i386 (stackAt .i386 0xC0100000) ⟨fun _ => 0, []⟩ 10 0x8000).2.Within User ∧
      ¬(signalFrameRestore .i386 (stackAt .i386 0xC0100000) ⟨fun _ => 0, []⟩).2.Within User) ∧
    (¬(signalFrameSetup .x86_64 (stackAt .x86_64 0xFFFFFFFF80100000) ⟨fun _ => 0, []⟩ 10 0x8000).2.Within User ∧
      ¬(signalFrameRestore .x86_64 (stackAt .x86_64 0xFFFFFFFF80100000) ⟨fun _ => 0, []⟩).2.Within User) ∧
    (¬(signalFrameSetup .arm64 (stackAt .arm64 0xFFFF800000100000) ⟨fun _ => 0, []⟩ 10 0x8000).2.Within User ∧
      ¬(signalFrameRestore .arm64 (stackAt .arm64 0xFFFF800000100000) ⟨fun _ => 0, []⟩).2.Within User) := by
  refine ⟨⟨?_, ?_⟩, ⟨?_, ?_⟩, ⟨?_, ?_⟩⟩
  · exact fun within => absurd ((within_writeFrame rfl).mp within) (by decide)
  · exact fun within => absurd ((within_signalFrameRestore rfl).mp within) (by decide)
  · exact fun within => absurd ((within_writeFrame rfl).mp within) (by decide)
  · exact fun within => absurd ((within_signalFrameRestore rfl).mp within) (by decide)
  · exact fun within => absurd ((within_writeFrame rfl).mp within) (by decide)
  · exact fun within => absurd ((within_signalFrameRestore rfl).mp within) (by decide)

theorem user_stack_accessed :
    (signalFrameSetup .i386 (stackAt .i386 0xBFFF0000) ⟨fun _ => 0, []⟩ 10 0x8000).2.Within User ∧
    (signalFrameRestore .i386 (stackAt .i386 0xBFFF0000) ⟨fun _ => 0, []⟩).2.Within User := by
  have accesses := signal_accesses_iff (stackAt .i386 0xBFFF0000) (fun _ => 0) 10 0x8000
  exact ⟨accesses.1.mpr (by decide), accesses.2.mpr (by decide)⟩

end Jlos.Signal
