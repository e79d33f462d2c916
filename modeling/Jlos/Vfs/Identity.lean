import Jlos.Vfs.Runs

/-!
# One inode for each directory entry

A dentry stands for one directory entry. The inode hash is searched by the first cluster of the
entry, which is zero for every empty file and changes when a file is first written to or truncated.
-/
namespace Jlos.Vfs

open Fat32 Lib Function List Option

def Distinct (s : State) : Prop :=
  ∀ d d' x x', s.dentries d = some x → s.dentries d' = some x' → d ≠ d' → x.inode ≠ x'.inode

/-- For a component that is not in the dentry hash and is found in its directory: no dentry refers
to an inode of the volume that has the first cluster of the entry as its number. -/
def freshComponent (s : State) (cur : Nat) (name : List Byte) : Bool :=
  match s.dentries cur, dentryLookupChild s cur name with
  | some x, none =>
    match s.inodes x.inode with
    | none => true
    | some n =>
      match (dirScan (s.dir n) name).found with
      | none => true
      | some h =>
        !(List.range s.dentryCount).any fun d => (s.dentries d).any fun y =>
          (s.inodes y.inode).any fun m => m.sb = n.sb && m.ino = h.de.firstCluster
  | _, _ => true

/-! ### What the functions do to dentries -/

/-- Every dentry was there before, with the same inode, and no object was allocated. -/
structure Shrinks (s s' : State) : Prop where
  dentries : ∀ d x', s'.dentries d = some x' → ∃ x, s.dentries d = some x ∧ x.inode = x'.inode
  dentryCount : s'.dentryCount = s.dentryCount
  inodeCount : s'.inodeCount = s.inodeCount

namespace Shrinks

theorem refl (s : State) : Shrinks s s := ⟨fun _ x' found => ⟨x', found, rfl⟩, rfl, rfl⟩

theorem trans {s s' s'' : State} (h : Shrinks s s') (h' : Shrinks s' s'') : Shrinks s s'' where
  dentries d x'' found := by
    obtain ⟨x', found', same'⟩ := h'.dentries d x'' found
    obtain ⟨x, found, same⟩ := h.dentries d x' found'
    exact ⟨x, found, same.trans same'⟩
  dentryCount := h'.dentryCount.trans h.dentryCount
  inodeCount := h'.inodeCount.trans h.inodeCount

variable {s : State}

theorem of_same {s' : State} (h : SameObjects s s') : Shrinks s s' where
  dentries _ x' found := ⟨x', h.dentries ▸ found, rfl⟩
  dentryCount := h.dentryCount
  inodeCount := h.inodeCount

/-- A dentry is freed, or changes but for its inode. -/
theorem setDentry (d : Nat) {x : Option Dentry}
    (keeps : ∀ x', x = some x' → ∃ y, s.dentries d = some y ∧ y.inode = x'.inode) :
    Shrinks s (s.setDentry d x) := by
  refine ⟨fun e x' found => ?_, rfl, rfl⟩
  rcases of_update found with ⟨rfl, here⟩ | ⟨-, found⟩
  · exact keeps x' here
  · exact ⟨x', found, rfl⟩

theorem modDentry (d : Nat) {f : Dentry → Dentry} (keeps : ∀ x, (f x).inode = x.inode) :
    Shrinks s (s.modDentry d f) := by
  refine setDentry d fun x' eq => ?_
  obtain ⟨y, found, rfl⟩ := map_eq_some_iff.mp eq
  exact ⟨y, found, (keeps y).symm⟩

theorem setLru (lru : List Nat) : Shrinks s { s with lru := lru } := ⟨fun _ x' found => ⟨x', found, rfl⟩, rfl, rfl⟩

theorem setInode (i : Nat) (x : Option Inode) : Shrinks s (s.setInode i x) :=
  ⟨fun _ x' found => ⟨x', found, rfl⟩, rfl, rfl⟩

theorem inodePut (rounds i : Nat) : Shrinks s (Vfs.inodePut rounds s i) := by
  induction rounds generalizing s i with
  | zero => exact refl s
  | succ rounds ih =>
    unfold Vfs.inodePut
    split
    · exact refl s
    next n found =>
      split
      · refine trans ?_ (setInode i none)
        cases n.parent with
        | none => exact setInode i _
        | some p => exact (setInode i _).trans (ih p)
      · exact setInode i _

theorem dentryFree (d : Nat) : Shrinks s (Vfs.dentryFree s d) := by
  unfold Vfs.dentryFree
  split
  · exact refl s
  · exact (inodePut _ _).trans (setDentry d nofun)

theorem addMount (x : Mount) : Shrinks s (Vfs.addMount s x).2 := ⟨fun _ x' found => ⟨x', found, rfl⟩, rfl, rfl⟩

end Shrinks

/-! ### The root of the file system -/

theorem inodePut_rootDentry (rounds : Nat) (s : State) (i : Nat) : (inodePut rounds s i).rootDentry = s.rootDentry := by
  induction rounds generalizing s i with
  | zero => rfl
  | succ rounds ih =>
    unfold inodePut
    split
    · rfl
    next n found =>
      split
      · cases n.parent with
        | none => rfl
        | some p => exact ih _ p
      · rfl

theorem inodeAlloc_rootDentry (s : State) (sb ino : Nat) : (inodeAlloc s sb ino).2.rootDentry = s.rootDentry := by
  rcases inodeAlloc_inv s sb ino with ⟨i, -, eq⟩ | ⟨-, s₁, memory, eq | eq⟩
  · rw [eq]
    rfl
  · rw [eq]
    exact memory.rootDentry
  · rw [eq]
    exact memory.rootDentry

theorem dentryAlloc_rootDentry (s : State) (name : List Byte) (i : Nat) :
    (dentryAlloc s name i).2.rootDentry = s.rootDentry := by
  obtain ⟨s₁, memory, eq | eq⟩ := dentryAlloc_inv s name i
  · rw [eq]
    exact memory.rootDentry
  · rw [eq]
    exact memory.rootDentry

theorem fatMount_rootDentry (s : State) (dev : Device) : (fatMount s dev).2.rootDentry = s.rootDentry := by
  obtain ⟨s₁, memory, eq | ⟨info, rest⟩⟩ := fatMount_inv s dev
  · rw [eq]
    exact memory.rootDentry
  have made := (inodeAlloc_rootDentry (addSuper s₁ info dev) s₁.sbCount info.rootCluster).trans memory.rootDentry
  rcases rest with ⟨s₃, got, eq⟩ | ⟨i, s₃, s₄, got, same, rest⟩
  · rw [eq]
    rwa [got] at made
  rw [got] at made
  have rooted := (dentryAlloc_rootDentry s₄ [0x2F] i).trans (same.rootDentry.trans made)
  rcases rest with ⟨s₅, allocated, eq⟩ | ⟨d, s₅, allocated, eq⟩
  · rw [allocated] at rooted
    rw [eq]
    exact (inodePut_rootDentry _ s₅ i).trans rooted
  · rw [eq]
    rwa [allocated] at rooted

/-! ### The invariant -/

/-- The numbers of the objects are below the counters, and no two dentries refer to one inode. -/
structure Identity (s : State) : Prop where
  dentries : ∀ d x, s.dentries d = some x → d < s.dentryCount ∧ x.inode < s.inodeCount
  distinct : Distinct s

open Shrinks

namespace Identity

variable {s s' : State}

theorem shrinks (h : Identity s) (less : Shrinks s s') : Identity s' := by
  constructor
  case dentries =>
    intro d x' found
    obtain ⟨x, before, same⟩ := less.dentries d x' found
    rw [less.dentryCount, less.inodeCount, ← same]
    exact h.dentries d x before
  case distinct =>
    intro d e x y found found' ne
    obtain ⟨x₀, before, same⟩ := less.dentries d x found
    obtain ⟨y₀, before', same'⟩ := less.dentries e y found'
    rw [← same, ← same']
    exact h.distinct d e x₀ y₀ before before' ne

/-- A new dentry for an inode that no dentry refers to. -/
theorem dentryAlloc (h : Identity s) (name : List Byte) {i : Nat} (lt : i < s.inodeCount)
    (unused : ∀ d x, s.dentries d = some x → x.inode ≠ i) : Identity (Vfs.dentryAlloc s name i).2 := by
  obtain ⟨s₁, memory, eq | eq⟩ := dentryAlloc_inv s name i
  · rw [eq]
    exact h.shrinks (of_same memory)
  rw [eq]
  have new : ∀ d x, update s₁.dentries s₁.dentryCount (some ⟨name.take nameMax, i, none, 1, false⟩) d = some x →
      (d = s.dentryCount ∧ x.inode = i) ∨ (d ≠ s.dentryCount ∧ s.dentries d = some x) := by
    intro d x found
    rw [memory.dentryCount, memory.dentries] at found
    rcases of_update found with ⟨same, here⟩ | old
    · cases here
      exact .inl ⟨same, rfl⟩
    · exact .inr old
  constructor
  case dentries =>
    intro d x found
    show d < s₁.dentryCount + 1 ∧ x.inode < s₁.inodeCount
    rw [memory.dentryCount, memory.inodeCount]
    rcases new d x found with ⟨rfl, rfl⟩ | ⟨-, old⟩
    · exact ⟨Nat.lt_succ_self _, lt⟩
    · exact ⟨Nat.lt_succ_of_lt (h.dentries d x old).1, (h.dentries d x old).2⟩
  case distinct =>
    intro d e x y found found' ne
    rcases new d x found with ⟨rfl, rfl⟩ | ⟨-, old⟩
    · rcases new e y found' with ⟨rfl, -⟩ | ⟨-, old'⟩
      · exact absurd rfl ne
      · exact (unused e y old').symm
    · rcases new e y found' with ⟨rfl, rfl⟩ | ⟨-, old'⟩
      · exact unused d x old
      · exact h.distinct d e x y old old' ne

theorem inodeAlloc_cases (s : State) (sb ino : Nat) :
    (inodeAlloc s sb ino).2.dentries = s.dentries ∧ (inodeAlloc s sb ino).2.dentryCount = s.dentryCount ∧
      s.inodeCount ≤ (inodeAlloc s sb ino).2.inodeCount ∧ ∀ i, (inodeAlloc s sb ino).1 = some i →
        i < (inodeAlloc s sb ino).2.inodeCount ∧ (i = s.inodeCount ∨ inodeSee s sb ino = some i) := by
  rcases inodeAlloc_inv s sb ino with ⟨i, seen, eq⟩ | ⟨-, s₁, memory, eq | eq⟩
  · rw [eq]
    refine ⟨rfl, rfl, le_refl _, fun j eq => ?_⟩
    cases eq
    exact ⟨mem_range.mp (mem_of_find?_eq_some seen), .inr seen⟩
  · rw [eq]
    exact ⟨memory.dentries, memory.dentryCount, le_of_eq memory.inodeCount.symm, nofun⟩
  · rw [eq]
    refine ⟨memory.dentries, memory.dentryCount, ?_, fun j eq => ?_⟩
    · rw [memory.inodeCount]
      exact Nat.le_succ _
    · cases eq
      exact ⟨Nat.lt_succ_self _, .inl memory.inodeCount⟩

theorem inodeAlloc (h : Identity s) (sb ino : Nat) : Identity (Vfs.inodeAlloc s sb ino).2 := by
  obtain ⟨dentries, dentryCount, grows, -⟩ := inodeAlloc_cases s sb ino
  constructor
  · intro d x found
    rw [dentries] at found
    rw [dentryCount]
    exact ⟨(h.dentries d x found).1, lt_of_lt_of_le (h.dentries d x found).2 grows⟩
  · intro d e x y found found'
    rw [dentries] at found found'
    exact h.distinct d e x y found found'

private theorem inodeSee_key {sb ino i : Nat} (seen : inodeSee s sb ino = some i) :
    ∃ m, s.inodes i = some m ∧ m.sb = sb ∧ m.ino = ino := by
  have met := find?_some seen
  cases found : s.inodes i with
  | none =>
    rw [found] at met
    cases met
  | some m =>
    rw [found] at met
    simp only [Bool.and_eq_true, decide_eq_true_eq] at met
    exact ⟨m, rfl, met⟩

/-- The lookup of a name that the condition holds for. -/
theorem fatLookup (h : Identity s) (dir : Nat) (name : List Byte)
    (fresh : ∀ n hit, s.inodes dir = some n → (dirScan (s.dir n) name).found = some hit →
      ∀ d x m, s.dentries d = some x → s.inodes x.inode = some m → m.sb = n.sb →
        m.ino ≠ hit.de.firstCluster) : Identity (Vfs.fatLookup s dir name).2 := by
  unfold Vfs.fatLookup lookupInode
  cases inode : s.inodes dir with
  | none => exact h
  | some n =>
    dsimp only
    cases scanned : (dirScan (s.dir n) name).found with
    | none => exact h
    | some hit =>
      unfold direntToInode
      dsimp only
      obtain ⟨dentries, -, -, result⟩ := inodeAlloc_cases s n.sb hit.de.firstCluster
      have held := h.inodeAlloc n.sb hit.de.firstCluster
      cases got : Vfs.inodeAlloc s n.sb hit.de.firstCluster with
      | mk found s₁ =>
        rw [got] at held result dentries
        cases found with
        | none => exact held
        | some i =>
          obtain ⟨lt, origin⟩ := result i rfl
          refine dentryAlloc (held.shrinks ?_) name lt fun d x found => ?_
          · exact (setInode i _).trans (setInode dir _)
          have old : s.dentries d = some x := by rw [← dentries]; exact found
          rcases origin with rfl | seen
          · exact ne_of_lt (h.dentries d x old).2
          · -- what the hash returns has the key that was asked for
            rintro rfl
            obtain ⟨m, there, own, number⟩ := inodeSee_key seen
            exact fresh n hit inode scanned d x m old there own number

theorem fatLookup_fresh (h : Identity s) {cur : Nat} {name : List Byte} {x : Dentry} (fresh : freshComponent s cur name)
    (cached : dentryLookupChild s cur name = none) (entry : s.dentries cur = some x) :
    Identity (Vfs.fatLookup s x.inode name).2 := by
  refine h.fatLookup x.inode name fun n hit inode scanned d y m found refers own number => ?_
  unfold freshComponent at fresh
  rw [entry, cached] at fresh
  dsimp only at fresh
  rw [inode] at fresh
  dsimp only at fresh
  rw [scanned] at fresh
  dsimp only at fresh
  rw [Bool.not_eq_true', List.any_eq_false] at fresh
  refine fresh d (mem_range.mpr (h.dentries d y found).1) ?_
  rw [found, any_some, refers, any_some, own, number]
  simp

theorem stable : Stable Identity where
  change _ d _ keeps h := h.shrinks (modDentry d keeps)
  lru _ list h := h.shrinks (setLru list)
  free _ d h := h.shrinks (Shrinks.dentryFree d)

theorem keeps : Keeps freshComponent Identity :=
  stable.keeps (fun _ _ same h => h.shrinks (of_same same)) fun _ _ _ _ h => h.fatLookup_fresh

theorem fatMount {s : State} (blank : s.dentries = fun _ => none) (dev : Device) : Identity (Vfs.fatMount s dev).2 := by
  have h : Identity s := by
    constructor
    · intro d x found
      rw [blank] at found
      cases found
    · intro d e x y found
      rw [blank] at found
      cases found
  obtain ⟨s₁, memory, eq | ⟨info, rest⟩⟩ := fatMount_inv s dev
  · rw [eq]
    exact h.shrinks (of_same memory)
  have registered : Shrinks s (addSuper s₁ info dev) :=
    ⟨(of_same memory).dentries, memory.dentryCount, memory.inodeCount⟩
  have made := (h.shrinks registered).inodeAlloc s₁.sbCount info.rootCluster
  obtain ⟨dentries, -, -, result⟩ := inodeAlloc_cases (addSuper s₁ info dev) s₁.sbCount info.rootCluster
  rcases rest with ⟨s₃, got, eq⟩ | ⟨i, s₃, s₄, got, same, rest⟩
  · rw [got] at made
    rw [eq]
    exact made.shrinks ⟨fun _ x' found => ⟨x', found, rfl⟩, rfl, rfl⟩
  rw [got] at made dentries result
  have lt : i < s₄.inodeCount := by
    rw [same.inodeCount]
    exact (result i rfl).1
  have rooted := (made.shrinks (of_same same)).dentryAlloc [0x2F] lt fun d x found => by
    rw [same.dentries, dentries, show (addSuper s₁ info dev).dentries = s.dentries from memory.dentries, blank] at found
    cases found
  rcases rest with ⟨s₅, allocated, eq⟩ | ⟨d, s₅, allocated, eq⟩
  · rw [allocated] at rooted
    rw [eq]
    refine rooted.shrinks ((Shrinks.inodePut (s₅.inodeCount + 1) i).trans ?_)
    exact ⟨fun _ x' found => ⟨x', found, rfl⟩, rfl, rfl⟩
  · rw [allocated] at rooted
    rw [eq]
    exact rooted.shrinks ⟨fun _ x' found => ⟨x', found, rfl⟩, rfl, rfl⟩

theorem vfsMount (kallocs : List Bool) (dev : Device) (path : List Byte) :
    Identity (Vfs.vfsMount (initState kallocs) dev path).2 := by
  have mounted := fatMount (s := initState kallocs) rfl dev
  have root := fatMount_rootDentry (initState kallocs) dev
  unfold Vfs.vfsMount
  cases eq : Vfs.fatMount (initState kallocs) dev with
  | mk found s₁ =>
    rw [eq] at mounted root
    cases found with
    | none => exact mounted
    | some sb =>
      dsimp only
      have memory := SameObjects.kalloc (s := s₁)
      cases granted : kalloc s₁ with
      | mk ok s₂ =>
        rw [granted] at memory
        have held := mounted.shrinks (of_same memory)
        cases ok with
        | false => exact held
        | true =>
          dsimp only
          rw [show s₂.rootDentry = none from memory.rootDentry.trans root]
          have rooted : Shrinks s₂ { s₂ with rootDentry := some (s₂.sbRoot sb) } :=
            ⟨fun _ x' found => ⟨x', found, rfl⟩, rfl, rfl⟩
          exact (stable.dentryGet _ (held.shrinks rooted)).shrinks (Shrinks.addMount _)

end Identity

/-- In every history after the first mount in which no lookup finds an entry whose first cluster is
the number of an inode that a dentry refers to, two dentries never refer to the same inode. -/
theorem distinct_inodes (kallocs : List Bool) (dev : Device) (path : List Byte) (es : List (State × Op)) (s : State)
    (run : Run Calls (vfsMount (initState kallocs) dev path).2 es s) (fresh : ∀ e ∈ es, e.2.Meets freshComponent e.1) :
    Distinct s ∧ ∀ e ∈ es, Distinct e.1 := by
  obtain ⟨last, before⟩ := Identity.keeps.run (Identity.vfsMount kallocs dev path) run fresh
  exact ⟨last.distinct, fun e mem => (before e mem).distinct⟩

/-! ### A small volume -/

/-- Seventeen clusters of one sector, of which the root directory has the first. -/
def smallDevice : Device where
  bpb := ⟨512, 1, 1, 1, 0, 20, 1, 2, 0⟩
  words := fun sector word => if sector = 1 ∧ word ≤ 2 then 0x0FFFFFF8#32 else 0
  bytes := fun _ _ => 0

def smallMount : State := (vfsMount (initState []) smallDevice [0x2F]).2

/-- The path of a file in the root directory with a name of one letter. -/
def rootFile (letter : Byte) : List Byte := [0x2F, letter]

def creating : Flags := ⟨true, false, false⟩

/-- The file `/A` is created, written to, closed and looked up again. -/
theorem distinct_after_write : ∃ es s, Run Calls smallMount es s ∧
    es.map Prod.snd = [.open (rootFile 0x41) creating, .write 0 [1], .close 0, .lookup (rootFile 0x41)] ∧
    (s.dentries 1).map (·.name) = some [0x41] ∧ Distinct s := by
  let s₁ := exec smallMount (.open (rootFile 0x41) creating)
  let s₂ := exec s₁ (.write 0 [1])
  let s₃ := exec s₂ (.close 0)
  have run : Run Calls smallMount [(smallMount, .open (rootFile 0x41) creating), (s₁, .write 0 [1]), (s₂, .close 0),
      (s₃, .lookup (rootFile 0x41))] (exec s₃ (.lookup (rootFile 0x41))) :=
    ((((Run.start).snoc rfl).snoc rfl).snoc rfl).snoc rfl
  refine ⟨_, _, run, rfl, by decide +kernel, (distinct_inodes [] smallDevice [0x2F] _ _ run fun e mem => ?_).1⟩
  rcases mem_cons.mp mem with rfl | mem
  · decide +kernel
  rcases mem_cons.mp mem with rfl | mem
  · rfl
  rcases mem_cons.mp mem with rfl | mem
  · rfl
  rw [mem_singleton.mp mem]
  decide +kernel

/-- Two files that are created and opened have the same inode, since both are found under cluster
zero: writing to one gives the other a size, and the entry of the first file keeps its size. -/
theorem empty_files_share_inode : ∃ es s x y n, Run Calls smallMount es s ∧
    es.map Prod.snd = [.open (rootFile 0x41) creating, .open (rootFile 0x42) creating, .write 0 [1]] ∧
    s.dentries 1 = some x ∧ s.dentries 2 = some y ∧ x.name = [0x41] ∧ y.name = [0x42] ∧
    x.unhashed = false ∧ y.unhashed = false ∧ x.inode = y.inode ∧ s.inodes y.inode = some n ∧ n.size = 1 ∧
    ((s.inodes 0).bind fun root => (dirScan (s.dir root) [0x41]).found.map (·.de.size)) = some 0 := by
  let s₁ := exec smallMount (.open (rootFile 0x41) creating)
  let s₂ := exec s₁ (.open (rootFile 0x42) creating)
  let s₃ := exec s₂ (.write 0 [1])
  have run : Run Calls smallMount [(smallMount, .open (rootFile 0x41) creating), (s₁, .open (rootFile 0x42) creating),
      (s₂, .write 0 [1])] s₃ := (((Run.start).snoc rfl).snoc rfl).snoc rfl
  have first : (s₃.dentries 1).map (fun x => (x.name, x.unhashed, x.inode)) = some
    ([0x41], false, 1) := by decide +kernel
  have second : (s₃.dentries 2).map (fun x => (x.name, x.unhashed, x.inode)) = some ([0x42], false, 1) := by
    decide +kernel
  have size : (s₃.inodes 1).map (·.size) = some 1 := by decide +kernel
  obtain ⟨x, hx, values⟩ := map_eq_some_iff.mp first
  obtain ⟨y, hy, values'⟩ := map_eq_some_iff.mp second
  obtain ⟨n, hn, one⟩ := map_eq_some_iff.mp size
  simp only [Prod.mk.injEq] at values values'
  refine ⟨_, s₃, x, y, n, run, rfl, hx, hy, values.1, values'.1, values.2.1, values'.2.1, ?_, ?_,
    one, by decide +kernel⟩
  · rw [values.2.2, values'.2.2]
  · rw [values'.2.2]
    exact hn

end Jlos.Vfs
