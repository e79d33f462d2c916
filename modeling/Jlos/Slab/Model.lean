import Jlos.Arch

/-!
# The slab allocator

A shallow embedding of the slab caches of `kernel/memory_manager.c`. A slab page is known by
its address; the partial list of a CPU and the global partial, full and empty lists are
lists of page addresses, first element first. `jlos_memory_slab_cache_alloc` and
`jlos_memory_slab_cache_free` are cut where they take or drop a lock: each definition below
is one section, with the state it may see. Following a pointer to no slab page, a null free
list, or unlinking a page from a list it is not in, is a fault.
-/
namespace Jlos.Slab

open Function

def pageSize : Nat := 4096

def cachelineSize : Nat := 64

/-! ### Geometry -/

section

variable (a : Arch)

/-- `JLOS_ALIGN_UP`; the complement of `align - 1` is `2 ^ w - align`. -/
def alignUp (addr align : Nat) : Nat :=
  (addr + align - 1) % 2 ^ a.wordBits &&& (2 ^ a.wordBits - align)

def alignDown (addr align : Nat) : Nat := addr &&& (2 ^ a.wordBits - align)

/-- The fields of `jlos_memory_slab_cache_t` that are set once. -/
structure Geometry where
  objSize : Nat
  align : Nat
  pg1Num : Nat
  colour : Nat
  deriving DecidableEq, Repr

def slabPageFrame1Num (objSize align : Nat) : Nat :=
  if objSize = 0 then 0
  else
    let alignedStart := alignUp a a.slabHeader align
    if alignedStart ≥ pageSize then 0 else (pageSize - alignedStart) / objSize

/-- `jlos_memory_slab_cache_create`, once the memory for the cache itself is there. -/
def slabCacheCreate (size align : Nat) : Option Geometry :=
  if size = 0 then none
  else
    let align := if align < a.pointerSize then a.pointerSize else align
    let obj := (size + align - 1) % 2 ^ a.wordBits / align * align % 2 ^ a.wordBits
    let num := slabPageFrame1Num a obj align
    if num = 0 then none
    else
      let leftover := pageSize - alignUp a a.slabHeader align - num * obj
      some ⟨obj, align, num, leftover / cachelineSize⟩

def pageOf (obj : Nat) : Nat := alignDown a obj pageSize

end

/-! ### State -/

/-- `jlos_memory_slab_page_t`; the free list is threaded through the objects. -/
structure Page where
  objCount : Nat
  objStart : Nat
  owner : Int
  inuse : Nat
  freelist : List Nat
  deriving DecidableEq, Repr

/-- The lists of a cache: `cpu[i].partial`, `partial`, `full` and `empty`. -/
inductive ListId
  | cpu (i : Nat)
  | partials
  | full
  | empty
  deriving DecidableEq, Repr

/-- The slab pages and the fields of the cache that change. -/
structure State where
  pages : Nat → Option Page
  lists : ListId → List Nat
  colourNext : Nat
  total : Nat

inductive Fault
  | wildPage
  | notListed
  | nullFreelist
  deriving DecidableEq, Repr

abbrev M := Except Fault

def State.fresh : State := ⟨fun _ => none, fun _ => [], 0, 0⟩

def State.setPage (st : State) (sp : Nat) (pg : Page) : State :=
  { st with pages := update st.pages sp (some pg) }

def pageAt (st : State) (sp : Nat) : M Page :=
  match st.pages sp with
  | some pg => pure pg
  | none => throw .wildPage

def slabListInsert (st : State) (id : ListId) (sp : Nat) : State :=
  { st with lists := update st.lists id (sp :: st.lists id) }

def State.unlist (st : State) (id : ListId) (sp : Nat) : State :=
  { st with lists := update st.lists id ((st.lists id).erase sp) }

def slabListRemove (st : State) (id : ListId) (sp : Nat) : M State :=
  if sp ∈ st.lists id then pure (st.unlist id sp) else throw .notListed

/-! ### Pages -/

section

variable (a : Arch) (g : Geometry)

/-- The loop of `slab_page_alloc`: the objects from `p` on, the last one first. The page size
bounds its rounds. -/
def carve (stop : Nat) : Nat → Nat → List Nat → List Nat
  | 0, _, fhead => fhead
  | fuel + 1, p, fhead =>
    if p + g.objSize ≤ stop then carve stop fuel (p + g.objSize) (p :: fhead) else fhead

/-- `slab_page_alloc`; `frame` is what `jlos_page_frame_malloc` returned. -/
def slabPageAlloc (st : State) (frame : Option Nat) : Option Nat × State :=
  match frame with
  | none => (none, st)
  | some page =>
    let offset := st.colourNext * cachelineSize
    let start := alignUp a (page + a.slabHeader + offset) g.align
    let objects := carve g (page + pageSize) pageSize start []
    let pg : Page :=
      { objCount := objects.length, objStart := start, owner := -1, inuse := 0, freelist := objects }
    (some page, { st.setPage page pg with
      colourNext := (st.colourNext + 1) % (g.colour + 1), total := st.total + 1 })

end

def slabPageFree (st : State) (sp : Nat) : State :=
  { st with pages := update st.pages sp none, total := st.total - 1 }

def emptyRatio : Nat := 50

def minPartial : Nat := 2

/-- The loop of `slab_reclaim_empty`; the length of the list bounds its rounds. -/
def reclaimLoop : Nat → State → M State
  | 0, st => pure st
  | fuel + 1, st =>
    match st.lists .empty with
    | [] => pure st
    | victim :: _ =>
      if st.total > minPartial ∧ (st.lists .empty).length * 100 > emptyRatio * st.total then do
        let st ← slabListRemove st .empty victim
        reclaimLoop fuel (slabPageFree st victim)
      else pure st

def slabReclaimEmpty (st : State) : M State := reclaimLoop (st.lists .empty).length st

def retire (st : State) (sp : Nat) : M State := slabReclaimEmpty (slabListInsert st .empty sp)

/-! ### alloc -/

/-- `alloc` under the lock of its CPU: the object, and the page if it has become full. -/
def allocFast (st : State) (cpu : Nat) : M (Option (Nat × Option Nat) × State) :=
  match st.lists (.cpu cpu) with
  | [] => pure (none, st)
  | sp :: _ => do
    let pg ← pageAt st sp
    match pg.freelist with
    | [] => pure (none, st)
    | obj :: rest =>
      let pg := { pg with freelist := rest, inuse := pg.inuse + 1 }
      if pg.inuse = pg.objCount then do
        let st ← slabListRemove st (.cpu cpu) sp
        pure (some (obj, some sp), st.setPage sp { pg with owner := -2 })
      else pure (some (obj, none), st.setPage sp pg)

/-- `alloc` under the slab lock, for a page it filled. -/
def allocFinish (st : State) (sp : Nat) : M State := do
  let pg ← pageAt st sp
  if pg.owner = -2 then
    pure (slabListInsert (st.setPage sp { pg with owner := -1 }) .full sp)
  else pure st

/-- The page the slow path of `alloc` works on: the first of the global partial list, or a new
one. -/
def slowPage (a : Arch) (g : Geometry) (st : State) (frame : Option Nat) : M (Option Nat × State) :=
  match st.lists .partials with
  | sp :: _ => do
    let st ← slabListRemove st .partials sp
    pure (some sp, st)
  | [] => pure (slabPageAlloc a g st frame)

/-- The slow path of `alloc`, under the slab lock and the lock of its CPU. -/
def allocSlow (a : Arch) (g : Geometry) (st : State) (cpu : Nat) (frame : Option Nat) :
    M (Option Nat × State) := do
  let (sp, st) ← slowPage a g st frame
  match sp with
  | none => pure (none, st)
  | some sp => do
    let pg ← pageAt st sp
    let st := slabListInsert st (.cpu cpu) sp
    match pg.freelist with
    | [] => throw .nullFreelist
    | obj :: rest =>
      let pg := { pg with owner := (cpu : Int), freelist := rest, inuse := pg.inuse + 1 }
      if pg.inuse = pg.objCount then do
        let st ← slabListRemove st (.cpu cpu) sp
        pure (some obj, slabListInsert (st.setPage sp { pg with owner := -1 }) .full sp)
      else pure (some obj, st.setPage sp pg)

/-- `jlos_memory_slab_cache_alloc`, run without interruption. -/
def slabCacheAlloc (a : Arch) (g : Geometry) (st : State) (cpu : Nat) (frame : Option Nat) :
    M (Option Nat × State) := do
  let (taken, st) ← allocFast st cpu
  match taken with
  | some (obj, none) => pure (some obj, st)
  | some (obj, some sp) => do
    let st ← allocFinish st sp
    pure (some obj, st)
  | none => allocSlow a g st cpu frame

/-- Whether `alloc` comes to asking for a page. -/
def wantsPage (st : State) (cpu : Nat) : M Bool := do
  let (taken, st) ← allocFast st cpu
  pure (taken = none ∧ st.lists .partials = [])

/-! ### free -/

/-- The object joins the free list of its page. -/
def Page.put (pg : Page) (obj : Nat) : Page :=
  { pg with freelist := obj :: pg.freelist, inuse := pg.inuse - 1 }

/-- What `free` has done under the lock of its CPU. -/
inductive FreeFast
  | done
  | emptied (sp : Nat)
  | moved
  deriving DecidableEq

/-- `free` under the lock of its CPU. -/
def freeFast (a : Arch) (st : State) (cpu obj : Nat) : M (FreeFast × State) := do
  let sp := pageOf a obj
  let pg ← pageAt st sp
  if pg.owner = cpu then
    let pg := pg.put obj
    if pg.inuse = 0 then do
      let st ← slabListRemove st (.cpu cpu) sp
      pure (.emptied sp, st.setPage sp { pg with owner := -2 })
    else pure (.done, st.setPage sp pg)
  else pure (.moved, st)

/-- `free` under the slab lock, for a page it emptied. -/
def freeFinish (st : State) (sp : Nat) : M State := do
  let pg ← pageAt st sp
  if pg.owner = -2 then retire (st.setPage sp { pg with owner := -1 }) sp else pure st

/-- The end of `free` under the slab lock, for a page that no CPU owns. -/
def freeRest (a : Arch) (st : State) (obj : Nat) (owner : Int) : M State := do
  let sp := pageOf a obj
  let pg ← pageAt st sp
  let oldInuse := pg.inuse
  let pg := pg.put obj
  if owner = -2 then
    let st := st.setPage sp { pg with owner := -1 }
    if pg.inuse = 0 then retire st sp else pure (slabListInsert st .partials sp)
  else
    let st := st.setPage sp pg
    if oldInuse = pg.objCount then do
      let st ← slabListRemove st .full sp
      if pg.inuse = 0 then retire st sp else pure (slabListInsert st .partials sp)
    else if pg.inuse = 0 then do
      let st ← slabListRemove st .partials sp
      retire st sp
    else pure st

/-- The start of the slow path of `free`, under the slab lock: reads the owner, and is done
unless it is a CPU, whose lock is to be taken. -/
def freeSlow (a : Arch) (st : State) (obj : Nat) : M (Option Nat × State) := do
  let pg ← pageAt st (pageOf a obj)
  if 0 ≤ pg.owner then pure (some pg.owner.toNat, st)
  else do
    let st ← freeRest a st obj pg.owner
    pure (none, st)

/-- The slow path of `free` under the slab lock and the lock of the CPU that was the owner. -/
def freeLocked (a : Arch) (st : State) (obj owner : Nat) : M State := do
  let sp := pageOf a obj
  let pg ← pageAt st sp
  if pg.owner = owner then
    let pg := pg.put obj
    if pg.inuse = 0 then do
      let st ← slabListRemove st (.cpu owner) sp
      retire (st.setPage sp { pg with owner := -1 }) sp
    else pure (st.setPage sp pg)
  else freeRest a st obj pg.owner

/-- `jlos_memory_slab_cache_free`, run without interruption. -/
def slabCacheFree (a : Arch) (st : State) (cpu obj : Nat) : M State := do
  let pg ← pageAt st (pageOf a obj)
  let (r, st) ← (if pg.owner = cpu then freeFast a st cpu obj else pure (.moved, st))
  match r with
  | .done => pure st
  | .emptied sp => freeFinish st sp
  | .moved => do
    let (owner, st) ← freeSlow a st obj
    match owner with
    | none => pure st
    | some owner => freeLocked a st obj owner

end Jlos.Slab
