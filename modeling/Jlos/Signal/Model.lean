import Jlos.Arch
import Jlos.Lib.Bytes

/-!
# Signal frames and the system call that returns through them

A shallow embedding of `arch/x86/signal.c` and `arch/arm64/signal.c`, of `jlos_signal_check_deliver`
(`kernel/multitask.c`) and of the way of `JLOS_SYSCALL_SIGRETURN` through `s_x86_syscall_entry`,
`s_arm64_syscall_entry` and `jlos_syscall_do_dispatch`. A trap frame is the array of its words:
`jlos_x86_regs_t` is packed, and `jlos_arm64_pt_regs_t` has words only. A system call is made by a
task, so `jlos_hal_current_task` is never null here.
-/
namespace Jlos.Signal

open Lib Function

/-! ### Trap frames -/

/-- The number of words of `jlos_x86_regs_t` and `jlos_arm64_pt_regs_t`. -/
def frameWords : Arch → Nat
  | .x86_64 => 22
  | .arm64 => 36
  | .i386 => 14

abbrev Word (a : Arch) := BitVec a.wordBits

abbrev Frame (a : Arch) := Fin (frameWords a) → Word a

/-- `user_esp`, `sp` -/
def spReg : (a : Arch) → Fin (frameWords a)
  | .x86_64 => (20 : Fin 22)
  | .arm64 => (31 : Fin 36)
  | .i386 => (12 : Fin 14)

/-- `eip`, `pc` -/
def pcReg : (a : Arch) → Fin (frameWords a)
  | .x86_64 => (17 : Fin 22)
  | .arm64 => (32 : Fin 36)
  | .i386 => (9 : Fin 14)

/-- `eflags`, `pstate` -/
def flagsReg : (a : Arch) → Fin (frameWords a)
  | .x86_64 => (19 : Fin 22)
  | .arm64 => (33 : Fin 36)
  | .i386 => (11 : Fin 14)

/-- `cs` and `user_ss`, where there are segments. -/
def segmentRegs : (a : Arch) → List (Fin (frameWords a))
  | .x86_64 => [(18 : Fin 22), (21 : Fin 22)]
  | .arm64 => []
  | .i386 => [(10 : Fin 14), (13 : Fin 14)]

/-- `rax`, `regs[0]`, `eax`: what `jlos_cpu_state_get_retval` reads. -/
def retvalReg : (a : Arch) → Fin (frameWords a)
  | .x86_64 => (14 : Fin 22)
  | .arm64 => (0 : Fin 36)
  | .i386 => (6 : Fin 14)

/-- `rax`, `regs[8]`, `eax`: what `jlos_cpu_state_get_syscall_num` reads. -/
def numReg : (a : Arch) → Fin (frameWords a)
  | .x86_64 => (14 : Fin 22)
  | .arm64 => (8 : Fin 36)
  | .i386 => (6 : Fin 14)

/-- The register that a handler finds the number of its signal in: `rdi`, `regs[0]`. -/
def argReg : (a : Arch) → Option (Fin (frameWords a))
  | .x86_64 => some (9 : Fin 22)
  | .arm64 => some (0 : Fin 36)
  | .i386 => none

/-- `regs[30]` -/
def linkReg : (a : Arch) → Option (Fin (frameWords a))
  | .arm64 => some (30 : Fin 36)
  | .x86_64 | .i386 => none

/-- `sizeof(jlos_x86_regs_t)`, `JLOS_ARM64_PT_SIZE` -/
def regsSize (a : Arch) : Nat := a.pointerSize * frameWords a

def frameBytes {a : Arch} (tf : Frame a) (j : Nat) : BitVec 8 :=
  if lt : j / a.pointerSize < frameWords a then byteOf (tf ⟨j / a.pointerSize, lt⟩) (j % a.pointerSize) else 0

/-- The trap frame that a sequence of bytes makes. -/
def frameOfBytes {a : Arch} (f : Nat → BitVec 8) : Frame a := fun i =>
  ofBytes a.wordBits (fun j => f (a.pointerSize * i + j)) a.pointerSize

/-! ### Frames on the user stack -/

def word (a : Arch) (n : Nat) : Word a := BitVec.ofNat a.wordBits n

/-- `JLOS_SYSCALL_SIGRETURN` -/
def sigreturnNum : Nat := 24

def sigreturnCode (a : Arch) : List (BitVec 8) :=
  match a with
  | .x86_64 | .i386 => [0xb8, BitVec.ofNat 8 sigreturnNum, 0x00, 0x00, 0x00, 0xcd, 0x80, 0x90]
  | .arm64 =>
    let movz : BitVec 32 := 0xd2800008 ||| BitVec.ofNat 32 (sigreturnNum <<< 5)
    let svc : BitVec 32 := 0xd4000001
    (List.range 4).map (byteOf movz) ++ (List.range 4).map (byteOf svc)

/-- `JLOS_SIGFRAME_REGS_OFFSET`; the frame of arm64 begins with the registers. -/
def regsOffset (a : Arch) : Nat := if a = .arm64 then 0 else 2 * a.pointerSize

/-- `JLOS_SIGFRAME_SIGRETURN_OFFSET`, `JLOS_ARM64_SIGFRAME_TRAMP_OFFSET` -/
def sigreturnOffset (a : Arch) : Nat := regsOffset a + regsSize a

/-- `JLOS_SIGFRAME_SIZE`, `JLOS_ARM64_SIGFRAME_SIZE` -/
def sigframeSize (a : Arch) : Nat := sigreturnOffset a + (sigreturnCode a).length

def storeWord {a : Arch} (m : Memory a.wordBits) (base x : Word a) : Memory a.wordBits :=
  m.store base a.pointerSize (byteOf x)

def storeCode {a : Arch} (m : Memory a.wordBits) (base : Word a) : Memory a.wordBits :=
  m.store base (sigreturnCode a).length fun j => (sigreturnCode a).getD j 0

/-- The address `jlos_arch_signal_frame_setup` computes for the frame. -/
def frameBase (a : Arch) (sp : Word a) : Word a :=
  if a = .arm64 then (sp - word a (sigframeSize a)) &&& ~~~(word a 15) else sp - word a (sigframeSize a)

/-- On x86 the frame begins with the return address of the handler and the number of the signal. -/
def writeReturn (a : Arch) (m : Memory a.wordBits) (sig : BitVec 32) (frame : Word a) : Memory a.wordBits :=
  if a = .arm64 then m
  else
    let m := storeWord m frame (frame + word a (sigreturnOffset a))
    storeWord m (frame + word a a.pointerSize) (sig.setWidth a.wordBits)

/-- What `jlos_arch_signal_frame_setup` writes to the stack. -/
def writeFrame (a : Arch) (tf : Frame a) (m : Memory a.wordBits) (sig : BitVec 32)
    (frame : Word a) : Memory a.wordBits :=
  let m := writeReturn a m sig frame
  let m := m.store (frame + word a (regsOffset a)) (regsSize a) (frameBytes tf)
  storeCode m (frame + word a (sigreturnOffset a))

def setReg {a : Arch} (tf : Frame a) (r : Option (Fin (frameWords a))) (x : Word a) : Frame a :=
  match r with
  | none => tf
  | some r => update tf r x

/-- The registers of the handler. -/
def enterHandler (a : Arch) (tf : Frame a) (sig : BitVec 32) (handler frame : Word a) : Frame a :=
  let tf := update tf (spReg a) frame
  let tf := update tf (pcReg a) handler
  let tf := setReg tf (argReg a) (sig.setWidth a.wordBits)
  setReg tf (linkReg a) (frame + word a (sigreturnOffset a))

def signalFrameSetup (a : Arch) (tf : Frame a) (m : Memory a.wordBits) (sig : BitVec 32) (handler : Word a) :
    Frame a × Memory a.wordBits :=
  let frame := frameBase a (tf (spReg a))
  (enterHandler a tf sig handler frame, writeFrame a tf m sig frame)

/-- Where `jlos_arch_signal_frame_restore` looks for the registers; on x86 the handler's `ret` has
popped the first word of the frame. -/
def restoreBase (a : Arch) (sp : Word a) : Word a := if a = .arm64 then sp else sp + word a a.pointerSize

def signalFrameRestore (a : Arch) (tf : Frame a) (m : Memory a.wordBits) : Frame a × Memory a.wordBits :=
  let (saved, m) := m.load (restoreBase a (tf (spReg a))) (regsSize a)
  (frameOfBytes saved, m)

/-! ### Delivery -/

structure Task (a : Arch) where
  pending : BitVec 32
  handlers : Fin 32 → Word a
  errno : BitVec 32

inductive Delivery (a : Arch)
  /-- Nothing was installed: the trap frame is returned to as it is. -/
  | untouched (t : Task a)
  | installed (t : Task a) (tf : Frame a) (m : Memory a.wordBits)
  /-- `jlos_process_exit`, which does not return. -/
  | exits (sig : Fin 32)

/-- The loop of `jlos_signal_check_deliver` over the bits of `pend`, the lowest one first. -/
def deliverLoop (a : Arch) (t : Task a) (tf : Frame a) (m : Memory a.wordBits) : List (Fin 32) → Delivery a
  | [] => .untouched t
  | sig :: rest =>
    let t := { t with pending := t.pending &&& ~~~(1#32 <<< sig.val) }
    if sig = 0 then deliverLoop a t tf m rest
    else if t.handlers sig = 1 then deliverLoop a t tf m rest
    else if t.handlers sig ≠ 0 then
      let (tf, m) := signalFrameSetup a tf m (BitVec.ofNat 32 sig) (t.handlers sig)
      .installed t tf m
    else if sig = 9 ∨ sig = 11 ∨ sig = 15 then .exits sig
    else deliverLoop a t tf m rest

def signalCheckDeliver (a : Arch) (t : Task a) (tf : Frame a) (m : Memory a.wordBits) : Delivery a :=
  deliverLoop a t tf m ((List.finRange 32).filter fun sig => t.pending.getLsbD sig)

/-! ### The system call -/

/-- What a system call works on: the task, its `syscall_tf` and the memory. -/
structure Call (a : Arch) where
  task : Task a
  tf : Frame a
  mem : Memory a.wordBits

def getRetval {a : Arch} (tf : Frame a) : BitVec 32 := (tf (retvalReg a)).setWidth 32

def syscallSigreturn {a : Arch} (c : Call a) : BitVec 32 × Call a :=
  let (tf, m) := signalFrameRestore a c.tf c.mem
  (getRetval tf, { c with tf, mem := m })

/-- `jlos_syscall_do_dispatch`; `dispatch` is the table the other system calls are in. -/
def syscallDoDispatch {a : Arch} (dispatch : Nat → Option (Call a → BitVec 32 × Call a))
    (num : BitVec 32) (c : Call a) :
    BitVec 32 × Call a :=
  let table := update dispatch sigreturnNum (some syscallSigreturn)
  let (result, c) := match (if num.toNat < 256 then table num.toNat else none) with
    | some handler => handler c
    | none => (-2, c)
  let errno := if result.slt 0#32 then -result else 0
  (if result.slt 0#32 then -1 else result, { c with task := { c.task with errno } })

/-- `s_x86_syscall_entry` and `s_arm64_syscall_entry` up to the check for a reschedule. -/
def syscallEntry {a : Arch} (dispatch : Nat → Option (Call a → BitVec 32 × Call a)) (c : Call a) : Call a :=
  let (result, c) := syscallDoDispatch dispatch ((c.tf (numReg a)).setWidth 32) c
  { c with tf := update c.tf (retvalReg a) (result.signExtend a.wordBits) }

end Jlos.Signal
