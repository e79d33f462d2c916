import Jlos.Arch
import Jlos.Lib.Run

/-!
# Address-space tags

A shallow embedding of `jlos_hal_paging_asid_alloc` and of what
`jlos_arch_paging_context_tables_clone` and `jlos_arch_paging_context_tables_destroy` do with the
tag of a context, for the three architectures.
-/
namespace Jlos.Asid

open Lib Function

/-- What of `jlos_paging_context_t` concerns its tag. -/
structure Context where
  root : Bool
  asid : Nat
  deriving DecidableEq, Repr

/-- `s_next_asid` or `s_next_pcid`, and the contexts by their addresses -/
structure State where
  next : Nat
  ctx : Nat → Context

inductive Op
  /-- `jlos_arch_paging_context_tables_clone`, and whether it gets a frame for the root -/
  | clone (dst src : Nat) (frame : Bool)
  /-- `jlos_arch_paging_context_tables_destroy` -/
  | destroy (c : Nat)
  deriving DecidableEq, Repr

variable (a : Arch) (pcide : Bool)

/-- `jlos_hal_paging_asid_alloc`: the tag, and the counter behind the call -/
def asidAlloc (next : Nat) : Nat × Nat :=
  match a with
  | .arm64 => (next, if 256 ≤ next + 1 then 1 else next + 1)
  | .x86_64 => if pcide then (next, if 0xFFF < next + 1 then 1 else next + 1) else (0, next)
  | .i386 => (0, next)

def Context.init : Context := ⟨false, 0⟩

def exec (s : State) : Op → State
  | .clone dst src frame =>
    if !frame then { s with ctx := update s.ctx dst .init }
    else if a ≠ .arm64 ∧ (update s.ctx dst ⟨true, 0⟩ src).root = false then { s with ctx := update s.ctx dst ⟨true, 0⟩ }
    else ⟨(asidAlloc a pcide s.next).2, update s.ctx dst ⟨true, (asidAlloc a pcide s.next).1⟩⟩
  | .destroy c => if (s.ctx c).root then { s with ctx := update s.ctx c .init } else s

/-- After `jlos_arch_paging_initialize_kernel`, which gives the kernel's context a root. -/
def start (kernel : Nat) : State := ⟨1, update (fun _ => .init) kernel ⟨true, 0⟩⟩

/-- A context other than `dst` is live and has the tag. -/
def Taken (s : State) (dst asid : Nat) : Prop := ∃ d, d ≠ dst ∧ (s.ctx d).root = true ∧ (s.ctx d).asid = asid

/-! ### The history of the counter -/

/-- Whether the counter is used at all. -/
def tagged : Bool :=
  match a with
  | .arm64 => true
  | .x86_64 => pcide
  | .i386 => false

/-- How many tags the counter goes through before it starts again. -/
def tagCount : Nat :=
  match a with
  | .arm64 => 255
  | .x86_64 | .i386 => 4095

/-- The operation comes to the counter: a clone that gets a root and tables to copy. -/
def takes (s : State) : Op → Bool
  | .clone dst src frame =>
    tagged a pcide && frame && (a == .arm64 || src == dst || (s.ctx src).root)
  | .destroy _ => false

/-- A state with the record of its history: how many tags were given, and how many had been given
when each context got its own. The code keeps neither. -/
structure Recorded where
  state : State
  given : Nat
  number : Nat → Nat

def Recorded.next (r : Recorded) (op : Op) : Recorded :=
  match op with
  | .clone dst _ _ =>
    if takes a pcide r.state op then ⟨exec a pcide r.state op, r.given + 1, update r.number dst r.given⟩
    else { r with state := exec a pcide r.state op }
  | .destroy _ => { r with state := exec a pcide r.state op }

def step (r : Recorded) (op : Op) (r' : Recorded) : Prop := r' = r.next a pcide op

def Recorded.start (kernel : Nat) : Recorded := ⟨Asid.start kernel, 0, fun _ => 0⟩

/-- When a clone takes a tag, no other live context took its own a multiple of `tagCount` tags
before. -/
def Meets (r : Recorded) : Op → Prop
  | .clone dst src frame =>
    takes a pcide r.state (.clone dst src frame) = true →
      ∀ d, d ≠ dst → (r.state.ctx d).root = true → (r.state.ctx d).asid ≠ 0 →
        ¬tagCount a ∣ r.given - r.number d
  | .destroy _ => True

/-- The counter and the tags are what the record says. -/
structure Counted (r : Recorded) : Prop where
  next : tagged a pcide = true → r.state.next = r.given % tagCount a + 1
  tags : ∀ d, (r.state.ctx d).asid ≠ 0 →
    (r.state.ctx d).asid = r.number d % tagCount a + 1 ∧ r.number d ≤ r.given

variable {a pcide} {s : State} {r : Recorded}

theorem asidAlloc_untagged (plain : tagged a pcide = false) (next : Nat) :
    asidAlloc a pcide next = (0, next) := by
  cases a with
  | arm64 => cases plain
  | x86_64 => simp_all [tagged, asidAlloc]
  | i386 => rfl

/-- The counter counts modulo the number of tags. -/
theorem asidAlloc_tagged (tags : tagged a pcide = true) (n : Nat) :
    asidAlloc a pcide (n % tagCount a + 1) = (n % tagCount a + 1, (n + 1) % tagCount a + 1) := by
  cases a with
  | arm64 =>
    have wraps : (if 256 ≤ n % 255 + 1 + 1 then 1 else n % 255 + 1 + 1) = (n + 1) % 255 + 1 := by
      split <;> omega
    exact Prod.ext rfl wraps
  | x86_64 =>
    have enabled : pcide = true := tags
    have wraps : (if 0xFFF < n % 4095 + 1 + 1 then 1 else n % 4095 + 1 + 1) =
        (n + 1) % 4095 + 1 := by
      split <;> omega
    simp only [asidAlloc, enabled, if_true]
    exact Prod.ext rfl wraps
  | i386 => cases tags

/-- What a clone leaves: no root, a root without a tag, or the tag the counter gives. -/
theorem exec_clone (a : Arch) (pcide : Bool) (s : State) (dst src : Nat) (frame : Bool) :
    (∃ live, exec a pcide s (.clone dst src frame) = ⟨s.next, update s.ctx dst ⟨live, 0⟩⟩) ∧
        takes a pcide s (.clone dst src frame) = false ∨
      exec a pcide s (.clone dst src frame) = ⟨(asidAlloc a pcide s.next).2,
        update s.ctx dst ⟨true, (asidAlloc a pcide s.next).1⟩⟩ ∧
        takes a pcide s (.clone dst src frame) = true := by
  cases plain : tagged a pcide with
  | false =>
    refine .inl ⟨?_, by simp [takes, plain]⟩
    simp only [exec, asidAlloc_untagged plain]
    split
    · exact ⟨false, rfl⟩
    · split <;> exact ⟨true, rfl⟩
  | true =>
    cases frame with
    | false => exact .inl ⟨⟨false, rfl⟩, by simp [takes]⟩
    | true =>
      simp only [exec, takes, plain, Bool.not_true, Bool.false_eq_true, if_false, Bool.true_and]
      split
      next early =>
        -- without tables to copy the context keeps the tag 0
        refine .inl ⟨⟨true, rfl⟩, ?_⟩
        obtain ⟨arm, bare⟩ := early
        obtain rfl | other := eq_or_ne src dst
        · simp at bare
        · rw [update_of_ne other] at bare
          simp [arm, other, bare]
      next late =>
        refine .inr ⟨rfl, ?_⟩
        obtain rfl | other := eq_or_ne src dst
        · simp
        · rw [update_of_ne other] at late
          by_cases arm : a = .arm64
          · simp [arm]
          · simpa [arm, other] using late

/-- What an operation does: nothing, a context without a tag, or the next tag of the counter. -/
theorem next_cases (a : Arch) (pcide : Bool) (r : Recorded) (op : Op) :
    (r.next a pcide op = r ∨ ∃ c live, r.next a pcide op =
        { r with state := ⟨r.state.next, update r.state.ctx c ⟨live, 0⟩⟩ }) ∧
        takes a pcide r.state op = false ∨
      ∃ dst src frame, op = .clone dst src frame ∧ tagged a pcide = true ∧
        takes a pcide r.state op = true ∧ r.next a pcide op =
          ⟨⟨(asidAlloc a pcide r.state.next).2,
            update r.state.ctx dst ⟨true, (asidAlloc a pcide r.state.next).1⟩⟩,
            r.given + 1, update r.number dst r.given⟩ := by
  cases op with
  | destroy c =>
    refine .inl ⟨?_, rfl⟩
    simp only [Recorded.next, exec]
    split
    · exact .inr ⟨c, false, rfl⟩
    · exact .inl rfl
  | clone dst src frame =>
    rcases exec_clone a pcide r.state dst src frame with ⟨⟨live, eq⟩, not⟩ | ⟨eq, taken⟩
    · refine .inl ⟨.inr ⟨dst, live, ?_⟩, not⟩
      simp only [Recorded.next, eq, not, Bool.false_eq_true, if_false]
    · have tags : tagged a pcide = true := by
        simp only [takes, Bool.and_eq_true] at taken
        exact taken.1.1
      refine .inr ⟨dst, src, frame, rfl, tags, taken, ?_⟩
      simp only [Recorded.next, eq, taken, if_true]

theorem Counted.step {op : Op} (counted : Counted a pcide r) :
    Counted a pcide (r.next a pcide op) := by
  rcases next_cases a pcide r op with ⟨same | ⟨c, live, eq⟩, -⟩ | ⟨dst, -, -, -, tags, -, eq⟩
  · rwa [same]
  · rw [eq]
    refine ⟨counted.next, fun d => ?_⟩
    obtain rfl | other := eq_or_ne d c
    · simp
    · simpa only [update_of_ne other] using counted.tags d
  · rw [eq, counted.next tags, asidAlloc_tagged tags]
    refine ⟨fun _ => rfl, fun d => ?_⟩
    obtain rfl | other := eq_or_ne d dst
    · simp
    · simp only [update_of_ne other]
      exact fun nonzero => ⟨(counted.tags d nonzero).1, Nat.le_succ_of_le (counted.tags d nonzero).2⟩

end Jlos.Asid
