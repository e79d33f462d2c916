import Jlos.Lib.Radix
import Jlos.Pfa.Clients
import Jlos.Arch

/-!
# Page tables

A shallow embedding of the page-table code of `arch/x86/paging.c` (both widths) and
`arch/arm64/paging.c`. Tables are known by their physical address; a table maps indices to entries,
and an entry that is not present is none. The three formats differ in the number of levels and
entries and in what an entry can say; the functions that differ in more than that keep
their own branches. Large pages occur in the last directory only, which is where the kernel
puts them.
-/
namespace Jlos.Paging

open Lib Function

def pageSize : Nat := 4096

section format

variable (a : Arch)

def levels : Nat :=
  match a with
  | .x86_64 | .arm64 => 4
  | .i386 => 2

def indexBits : Nat :=
  match a with
  | .x86_64 | .arm64 => 9
  | .i386 => 10

def entries : Nat := 2 ^ indexBits a

/-- The index of the entry for an address in a table of a level; the root is level 0. -/
def index (va level : Nat) : Nat := va / 2 ^ (12 + indexBits a * (levels a - 1 - level)) % entries a

/-- The indices of an address in the tables above the last directory. -/
def dirPath (va : Nat) : List Nat := (List.range (levels a - 2)).map (index a va)

def dirIndex (va : Nat) : Nat := index a va (levels a - 2)

/-- The indices of an address on the way to the table with its entry. -/
def path (va : Nat) : List Nat := dirPath a va ++ [dirIndex a va]

def pteIndex (va : Nat) : Nat := index a va (levels a - 1)

/-- The size of the area one entry of the last directory covers. -/
def largeSize : Nat := pageSize * entries a

/-- `JLOS_PAGING_ADDR_MASK` or `JLOS_ARM64_PTE_ADDR_MASK`. -/
def maskAddr (pa : Nat) : Nat :=
  let bits := match a with
    | .x86_64 => 52
    | .arm64 => 48
    | .i386 => 32
  pa % 2 ^ bits / pageSize * pageSize

end format

/-- The bits of a `JLOS_PG_` word; `JLOS_PG_READ` is always set. -/
structure Prot where
  write : Bool
  user : Bool
  exec : Bool
  global : Bool
  nocache : Bool
  deriving DecidableEq, Repr

def Prot.userRw : Prot := ⟨true, true, false, false, false⟩

/-- A present entry; `large` is `JLOS_PDE_PS`, or the block descriptor. -/
structure Entry where
  addr : Nat
  prot : Prot
  large : Bool
  deriving DecidableEq, Repr

/-- `pte_prot`: without an NX bit everything can be executed, and arm64 has no global bit. -/
def pteProt (a : Arch) (prot : Prot) : Prot :=
  match a with
  | .x86_64 => prot
  | .arm64 => { prot with global := false }
  | .i386 => { prot with exec := true }

def Entry.page (a : Arch) (pa : Nat) (prot : Prot) : Entry := ⟨maskAddr a pa, pteProt a prot, false⟩

theorem Entry.page_addr (a : Arch) (pa : Nat) (prot : Prot) : (Entry.page a pa prot).addr = maskAddr a pa := rfl

/-- The table an entry leads to. -/
def Entry.child (e : Entry) : Option Nat := if e.large then none else some e.addr

/-- The entry of a table in its parent. -/
def Entry.table (a : Arch) (t : Nat) (user : Bool) : Entry :=
  ⟨t, ⟨true, user && a ≠ .arm64, true, false, false⟩, false⟩

structure State where
  frames : Pfa.Sys
  tables : Nat → Nat → Option Entry
  /-- The root of each context, none for a null pointer. -/
  roots : Nat → Option Nat
  /-- `s_kernel_l0` -/
  kernelL0 : Option Nat

abbrev M := Pfa.M

def State.setEntry (st : State) (t i : Nat) (e : Option Entry) : State :=
  { st with tables := Radix.update st.tables t i e }

section

variable (a : Arch)

/-! ### Walks -/

/-- `table_root`; only arm64 has a root of its own for the kernel. -/
def tableRoot (st : State) (c va : Nat) : Option Nat :=
  if a = .arm64 ∧ va ≥ a.directMapBase then st.kernelL0 else st.roots c

/-- The last directory on the way to an address. -/
def lastDir (st : State) (c va : Nat) : Option Nat :=
  (tableRoot a st c va).bind fun root => Radix.walk Entry.child st.tables root (dirPath a va)

/-- `pte_walk`: the table that has the entry for an address. -/
def pteWalk (st : State) (c va : Nat) : Option Nat :=
  (tableRoot a st c va).bind fun root => Radix.walk Entry.child st.tables root (path a va)

def pte (st : State) (c va : Nat) : Option Entry :=
  (pteWalk a st c va).bind fun t => st.tables t (pteIndex a va)

/-! ### Mapping -/

/-- `paging_table_alloc`, with the table cleared. -/
def tableAlloc (st : State) (cpu : Nat) : M (Option Nat × State) := do
  let (t, frames) ← st.frames.malloc cpu
  match t with
  | none => pure (none, { st with frames := frames })
  | some t => pure (some t, { st with frames := frames, tables := update st.tables t fun _ => none })

/-- The type and the counter of a new table. -/
def State.tag (st : State) (t : Nat) : M State := do
  let frames ← st.frames.setOwnerType (t % 2 ^ 32) 0 .pageTable
  pure { st with frames := { frames with pfa := Pfa.pageFramePtPresentCountSet frames.pfa (t % 2 ^ 32) 0 } }

/-- `paging_level_ensure` and `level_ensure`. On x86 only the last level is tagged, and a large
entry is taken for a table. -/
def levelEnsure (st : State) (cpu parent i : Nat) (last user : Bool) : M (Option Nat × State) :=
  match st.tables parent i with
  | some e => pure (if a = .arm64 ∧ e.large then none else some e.addr, st)
  | none => do
    let (t, st) ← tableAlloc st cpu
    match t with
    | none => pure (none, st)
    | some t => do
      let st := st.setEntry parent i (some (Entry.table a t user))
      let st ← (if a = .arm64 ∨ last then st.tag t else pure st)
      pure (some t, st)

/-- Ensures the tables of a path. -/
def descend (cpu : Nat) (user : Bool) : State → Nat → List Nat → M (Option Nat × State)
  | st, t, [] => pure (some t, st)
  | st, t, i :: rest => do
    let (child, st) ← levelEnsure a st cpu t i rest.isEmpty user
    match child with
    | none => pure (none, st)
    | some child => descend cpu user st child rest

def rootEnsure (st : State) (cpu c va : Nat) : M (Option Nat × State) :=
  match tableRoot a st c va with
  | some root => pure (some root, st)
  | none =>
    if a = .arm64 ∧ va ≥ a.directMapBase then pure (none, st)
    else do
      let (root, st) ← tableAlloc st cpu
      pure (root, { st with roots := update st.roots c root })

def State.countInc (st : State) (t : Nat) : State :=
  { st with frames := { st.frames with pfa := Pfa.pageFramePtPresentCountInc st.frames.pfa (t % 2 ^ 32) } }

def State.countDec (st : State) (t : Nat) : State :=
  { st with frames := { st.frames with pfa := Pfa.pageFramePtPresentCountDec st.frames.pfa (t % 2 ^ 32) } }

/-- Puts an entry into its table unless there is one. -/
def setPte (st : State) (t va pa : Nat) (prot : Prot) : Bool × State :=
  match st.tables t (pteIndex a va) with
  | some _ => (false, st)
  | none => (true, (st.setEntry t (pteIndex a va) (some (Entry.page a pa prot))).countInc t)

def mapEntry (st : State) (cpu c va pa : Nat) (prot : Prot) : M (Bool × State) := do
  let (root, st) ← rootEnsure a st cpu c va
  match root with
  | none => pure (false, st)
  | some root => do
    let (t, st) ← descend a cpu prot.user st root (path a va)
    match t with
    | none => pure (false, st)
    | some t => pure (setPte a st t va pa prot)

/-! ### Unmapping -/

/-- The end of `unmap_locked`: a table whose counter is zero is given back, if it is one of the
user's. -/
def dropTable (st : State) (cpu va dir t : Nat) : M State :=
  if Pfa.pageFramePtPresentCountGet st.frames.pfa (t % 2 ^ 32) = 0 then do
    let frames ← st.frames.clearOwnerType (t % 2 ^ 32)
    let frames ← (if va < a.userSpaceLimit then frames.free cpu t else pure frames)
    pure ({ st with frames := frames }.setEntry dir (dirIndex a va) none)
  else pure st

/-- Takes a large page out of the last directory. -/
def unmapLarge (st : State) (va dir : Nat) (e : Entry) : M (Bool × State) :=
  if a = .arm64 then pure (false, st)
  else do
    let frames ← (if va < a.userSpaceLimit then st.frames.freeN e.addr (entries a) else pure st.frames)
    pure (true, { st with frames := frames }.setEntry dir (dirIndex a va) none)

/-- `unmap_locked`, which is `jlos_arch_unmap_entry`. On x86 an entry that is not present is cleared
once more. -/
def unmapEntry (st : State) (cpu c va : Nat) : M (Bool × State) :=
  match lastDir a st c va with
  | none => pure (false, st)
  | some dir =>
    match st.tables dir (dirIndex a va) with
    | none => pure (false, st)
    | some e =>
      if e.large then unmapLarge a st va dir e
      else
        match st.tables e.addr (pteIndex a va) with
        | none =>
          if a = .arm64 then pure (false, st)
          else do
            let st ← dropTable a st cpu va dir e.addr
            pure (true, st)
        | some old => do
          let frames ← st.frames.free cpu (old.addr % 2 ^ 32)
          let st := ({ st with frames := frames }.countDec e.addr).setEntry e.addr (pteIndex a va) none
          let st ← dropTable a st cpu va dir e.addr
          pure (true, st)

/-! ### Translation and flags -/

/-- `jlos_arch_get_phys_entry`; a context without tables is its own translation on x86. -/
def getPhys (st : State) (c va : Nat) : Nat :=
  match tableRoot a st c va with
  | none => if a = .arm64 then 0 else va
  | some _ =>
    match (lastDir a st c va).bind fun dir => st.tables dir (dirIndex a va) with
    | none => 0
    | some e =>
      if e.large then e.addr / largeSize a * largeSize a + va % largeSize a
      else
        match st.tables e.addr (pteIndex a va) with
        | none => 0
        | some p => p.addr + va % pageSize

/-- Changes the entry for an address, if it is present. -/
def modPte (st : State) (c va : Nat) (f : Entry → Entry) : State :=
  match pteWalk a st c va with
  | none => st
  | some t =>
    match st.tables t (pteIndex a va) with
    | none => st
    | some e => st.setEntry t (pteIndex a va) (some (f e))

/-- `jlos_arch_change_flags_entry`, on an address that no large page covers: x86 keeps the global
and the cache bit, and lets the user pass the upper levels, which no modelled function reads. -/
def changeFlagsEntry (st : State) (c va : Nat) (prot : Prot) : State :=
  modPte a st c va fun e =>
    if a = .arm64 then { e with prot := pteProt a prot }
    else
      let new := pteProt a prot
      { e with prot := { new with global := new.global || e.prot.global, nocache := new.nocache || e.prot.nocache } }

def pteMakeRo (st : State) (c va : Nat) : State :=
  modPte a st c va fun e => { e with prot := { e.prot with write := false } }

/-- The number of entries of the root that belong to the user. -/
def userEntries : Nat :=
  match a with
  | .x86_64 => 256
  | .arm64 => 512
  | .i386 => 768

end

end Jlos.Paging
