import Jlos.Lib.Run
import Jlos.Vfs.Model

/-!
# Histories of file system calls

The calls of a client and the writeback of cached pages, in any order. What a call does to inodes
and dentries is a sequence of a few changes; a property that these keep is kept by every call.
-/
namespace Jlos.Vfs

open Fat32 Lib Function Option Bool Vfs

inductive Op
  | lookup (path : List Byte)
  | put (dentry : Nat)
  | open (path : List Byte) (flags : Flags)
  | close (file : Nat)
  | unlink (path : List Byte)
  | read (file count : Nat)
  | write (file : Nat) (bytes : List Byte)
  | lseek (file : Nat) (offset : Int) (whence : Whence)
  | writeback (inode index : Nat) (drop : Bool)
  | blockWriteback (sb index : Nat)

def exec (s : State) : Op → State
  | .lookup path => (lookup s path).2
  | .put d => dentryPut s d
  | .open path flags => (vfsOpen s path flags).2
  | .close f => vfsClose s f
  | .unlink path => (vfsUnlink s path).2
  | .read f count => (vfsRead s f count).2
  | .write f bytes => (vfsWrite s f bytes).2
  | .lseek f offset whence => vfsLseek s f offset whence
  | .writeback i index drop => pageWriteback s i index drop
  | .blockWriteback sb index => blockWriteback s sb index

def Calls (s : State) (op : Op) (s' : State) : Prop := s' = exec s op

def initState (kallocs : List Bool) : State where
  vols := fun _ => ⟨⟨0, 0, 0, 0, 0, 0, 0, 0, 0⟩, fun _ _ => 0, fun _ _ => 0⟩
  tableDisk := fun _ _ _ => 0
  sbRoot := fun _ => 0
  sbLive := fun _ => false
  sbCount := 0
  inodes := fun _ => none
  inodeCount := 0
  dentries := fun _ => none
  dentryCount := 0
  files := fun _ => none
  fileCount := 0
  mounts := fun _ => none
  mountCount := 0
  rootDentry := none
  lru := []
  kallocs := kallocs

/-! ### Conditions on the components of path walks -/

section meets

variable (G : State → Nat → List Byte → Bool)

/-- Every component of the walk meets the condition, in the state in which it is looked up. -/
def walkMeets (s : State) (cur : Nat) : List (List Byte) → Bool
  | [] => true
  | name :: rest => G s cur name &&
    match lookupComponent s cur name with
    | (none, _) => true
    | (some child, s) => walkMeets s child rest

def lookupMeets (s : State) (path : List Byte) : Bool :=
  match path, s.rootDentry with
  | 0x2F :: rest, some root => walkMeets G (dentryGet s root) root (components path.length rest)
  | _, _ => true

/-- The walks of `jlos_vfs_open` after one that found nothing: to the directory of the file, and to
the new file. -/
def createMeets (s : State) (path : List Byte) : Bool :=
  match pathParentLeaf path with
  | .failed => true
  | .overrun => true
  | .split parent _ => lookupMeets G s parent && lookupMeets G (openCreate s path).2.2 path

def openMeets (s : State) (path : List Byte) (flags : Flags) : Bool :=
  lookupMeets G s path &&
    match lookup s path with
    | (some _, _) => true
    | (none, s) => !flags.creat || createMeets G s path

def Op.Meets (s : State) : Op → Bool
  | .lookup path => lookupMeets G s path
  | .open path flags => openMeets G s path flags
  | .unlink path => lookupMeets G s path
  | _ => true

end meets

/-! ### Changes of data -/

/-- What an inode is known by and referred to by. -/
def Inode.identity (n : Inode) : Nat × Nat × Int × Option Nat := (n.ino, n.sb, n.refCount, n.parent)

/-- The states have the same inodes and dentries, with the same references between them. -/
structure SameObjects (s s' : State) : Prop where
  inodes : ∀ i, (s'.inodes i).map Inode.identity = (s.inodes i).map Inode.identity
  inodeCount : s'.inodeCount = s.inodeCount
  dentries : s'.dentries = s.dentries
  dentryCount : s'.dentryCount = s.dentryCount
  lru : s'.lru = s.lru
  rootDentry : s'.rootDentry = s.rootDentry
  mounts : s'.mounts = s.mounts
  mountCount : s'.mountCount = s.mountCount
  sbRoot : s'.sbRoot = s.sbRoot
  sbLive : s'.sbLive = s.sbLive
  sbCount : s'.sbCount = s.sbCount

namespace SameObjects

theorem refl (s : State) : SameObjects s s := ⟨fun _ => rfl, rfl, rfl, rfl, rfl, rfl, rfl, rfl, rfl, rfl, rfl⟩

theorem trans {s s' s'' : State} (h : SameObjects s s') (h' : SameObjects s' s'') : SameObjects s s'' where
  inodes i := (h'.inodes i).trans (h.inodes i)
  inodeCount := h'.inodeCount.trans h.inodeCount
  dentries := h'.dentries.trans h.dentries
  dentryCount := h'.dentryCount.trans h.dentryCount
  lru := h'.lru.trans h.lru
  rootDentry := h'.rootDentry.trans h.rootDentry
  mounts := h'.mounts.trans h.mounts
  mountCount := h'.mountCount.trans h.mountCount
  sbRoot := h'.sbRoot.trans h.sbRoot
  sbLive := h'.sbLive.trans h.sbLive
  sbCount := h'.sbCount.trans h.sbCount

variable {s : State}

theorem kalloc : SameObjects s (Vfs.kalloc s).2 := by
  unfold Vfs.kalloc
  split
  · exact refl s
  · exact ⟨fun _ => rfl, rfl, rfl, rfl, rfl, rfl, rfl, rfl, rfl, rfl, rfl⟩

theorem kallocTwo : SameObjects s (Vfs.kallocTwo s).2 := by
  unfold Vfs.kallocTwo
  cases eq : Vfs.kalloc s with
  | mk granted s' =>
    have first : SameObjects s s' := by
      have := kalloc (s := s)
      rwa [eq] at this
    cases granted with
    | false => exact first
    | true => exact first.trans kalloc

theorem setFile (f : Nat) (x : Option File) : SameObjects s (s.setFile f x) :=
  ⟨fun _ => rfl, rfl, rfl, rfl, rfl, rfl, rfl, rfl, rfl, rfl, rfl⟩

theorem setVol (sb : Nat) (vol : Volume) : SameObjects s (s.setVol sb vol) :=
  ⟨fun _ => rfl, rfl, rfl, rfl, rfl, rfl, rfl, rfl, rfl, rfl, rfl⟩

theorem modInode (i : Nat) {f : Inode → Inode} (keeps : ∀ n, (f n).identity = n.identity) :
    SameObjects s (s.modInode i f) := by
  refine ⟨fun j => ?_, rfl, rfl, rfl, rfl, rfl, rfl, rfl, rfl, rfl, rfl⟩
  show (update s.inodes i ((s.inodes i).map f) j).map Inode.identity = _
  obtain rfl | same := eq_or_ne j i
  · rw [update_self, map_map]
    exact congrArg (fun g => (s.inodes j).map g) (funext keeps)
  · rw [update_of_ne same]

theorem setVol_modInode {sb i : Nat} {vol : Volume} {f : Inode → Inode} (keeps : ∀ n, (f n).identity = n.identity) :
    SameObjects s ((s.setVol sb vol).modInode i f) := (setVol sb vol).trans (modInode i keeps)

theorem setDir (i sb : Nat) (d : Dir) : SameObjects s (s.setDir i sb d) := setVol_modInode fun _ => rfl

theorem fatCreate (dir : Nat) (name : List Byte) : SameObjects s (Vfs.fatCreate s dir name).2 := by
  unfold Vfs.fatCreate
  split
  · exact refl s
  · exact setDir _ _ _

theorem fatUnlink (dir : Nat) (name : List Byte) : SameObjects s (Vfs.fatUnlink s dir name).2 := by
  unfold Vfs.fatUnlink
  split
  · exact refl s
  · exact setDir _ _ _

theorem fatSync (i : Nat) : SameObjects s (Vfs.fatSync s i).2 := by
  unfold Vfs.fatSync
  split
  · exact refl s
  split
  · exact refl s
  split
  · exact refl s
  · exact setDir _ _ _

theorem fatOpen (i : Nat) (flags : Flags) : SameObjects s (Vfs.fatOpen s i flags).2 := by
  unfold Vfs.fatOpen
  split
  · exact refl s
  split
  next n _ _ =>
    dsimp only
    generalize (if n.map.firstCluster = 0 then _ else _ : Bool × Image) = freed
    obtain ⟨done, m⟩ := freed
    cases done with
    | false => exact setVol _ _
    | true =>
      refine trans ?_ (fatSync i)
      exact setVol_modInode fun _ => rfl
  · exact refl s

theorem vfsRead (f count : Nat) : SameObjects s (Vfs.vfsRead s f count).2 := by
  unfold Vfs.vfsRead
  split
  · exact refl s
  split
  · exact refl s
  · refine trans ?_ (setFile _ _)
    exact modInode _ fun _ => rfl

theorem vfsWrite (f : Nat) (bytes : List Byte) : SameObjects s (Vfs.vfsWrite s f bytes).2 := by
  unfold Vfs.vfsWrite
  split
  · exact refl s
  split
  · exact refl s
  split
  · exact setVol_modInode fun _ => rfl
  · refine trans (trans ?_ (setFile _ _)) (fatSync _)
    exact setVol_modInode fun _ => rfl

theorem vfsLseek (f : Nat) (offset : Int) (whence : Whence) : SameObjects s (Vfs.vfsLseek s f offset whence) := by
  unfold Vfs.vfsLseek
  split
  · exact refl s
  · exact setFile _ _

theorem pageWriteback (i index : Nat) (drop : Bool) : SameObjects s (Vfs.pageWriteback s i index drop) := by
  unfold Vfs.pageWriteback
  split
  · exact refl s
  split
  · exact refl s
  · exact setVol_modInode fun _ => rfl

theorem blockWriteback (sb index : Nat) : SameObjects s (blockWriteback s sb index) :=
  ⟨fun _ => rfl, rfl, rfl, rfl, rfl, rfl, rfl, rfl, rfl, rfl, rfl⟩

end SameObjects

/-! ### What the functions that allocate can do -/

/-- The inode is in the hash, or there is no memory, or it is new. -/
theorem inodeAlloc_inv (s : State) (sb ino : Nat) :
    (∃ i, inodeSee s sb ino = some i ∧ inodeAlloc s sb ino = (some i, inodeGet s i)) ∨
      inodeSee s sb ino = none ∧ ∃ s₁, SameObjects s s₁ ∧ (inodeAlloc s sb ino = (none, s₁) ∨
        inodeAlloc s sb ino = (some s₁.inodeCount, { s₁.setInode s₁.inodeCount (some (freshInode sb ino)) with
          inodeCount := s₁.inodeCount + 1 })) := by
  unfold inodeAlloc
  cases inodeSee s sb ino with
  | some i => exact .inl ⟨i, rfl, rfl⟩
  | none =>
    have memory := SameObjects.kallocTwo (s := s)
    cases granted : kallocTwo s with
    | mk ok s₁ =>
      rw [granted] at memory
      refine .inr ⟨rfl, s₁, memory, ?_⟩
      cases ok with
      | false => exact .inl rfl
      | true => exact .inr rfl

theorem dentryAlloc_inv (s : State) (name : List Byte) (i : Nat) :
    ∃ s₁, SameObjects s s₁ ∧ (dentryAlloc s name i = (none, s₁) ∨ dentryAlloc s name i = (some s₁.dentryCount,
        inodeGet { s₁.setDentry s₁.dentryCount (some ⟨name.take nameMax, i, none, 1, false⟩) with
          dentryCount := s₁.dentryCount + 1 } i)) := by
  unfold dentryAlloc
  have memory := SameObjects.kalloc (s := s)
  cases granted : kalloc s with
  | mk ok s₁ =>
    rw [granted] at memory
    refine ⟨s₁, memory, ?_⟩
    cases ok with
    | false => exact .inl rfl
    | true => exact .inr rfl

/-- The super block that `fat32_mount` sets up. -/
def addSuper (s : State) (info : SbInfo) (dev : Device) : State :=
  { s.setVol s.sbCount ⟨info, dev.words, dev.bytes⟩ with
    sbCount := s.sbCount + 1, sbLive := update s.sbLive s.sbCount true
    tableDisk := update s.tableDisk s.sbCount dev.words }

/-- A mount ends before it has a super block, without its root inode, without its root dentry, or
with all of them. -/
theorem fatMount_inv (s : State) (dev : Device) : ∃ s₁, SameObjects s s₁ ∧ (fatMount s dev = (none, s₁) ∨
    ∃ info, (∃ s₃, inodeAlloc (addSuper s₁ info dev) s₁.sbCount info.rootCluster = (none, s₃) ∧
        fatMount s dev = (none, { s₃ with sbLive := update s₃.sbLive s₁.sbCount false })) ∨
      ∃ i s₃ s₄, inodeAlloc (addSuper s₁ info dev) s₁.sbCount info.rootCluster = (some i, s₃) ∧ SameObjects s₃ s₄ ∧
        ((∃ s₅, dentryAlloc s₄ [0x2F] i = (none, s₅) ∧ fatMount s dev = (none, { inodePut (s₅.inodeCount + 1) s₅ i with
              sbLive := update (inodePut (s₅.inodeCount + 1) s₅ i).sbLive s₁.sbCount false })) ∨
          ∃ d s₅, dentryAlloc s₄ [0x2F] i = (some d, s₅) ∧
            fatMount s dev = (some s₁.sbCount, { s₅ with sbRoot := update s₅.sbRoot s₁.sbCount d }))) := by
  unfold fatMount
  cases SbInfo.ofBpb dev.bpb with
  | none => exact ⟨s, .refl s, .inl rfl⟩
  | some info =>
    have memory := SameObjects.kallocTwo (s := s)
    cases granted : kallocTwo s with
    | mk ok s₁ =>
      rw [granted] at memory
      refine ⟨s₁, memory, ?_⟩
      cases ok with
      | false => exact .inl rfl
      | true =>
        refine .inr ⟨info, ?_⟩
        unfold addSuper
        dsimp only
        generalize inodeAlloc _ s₁.sbCount info.rootCluster = made
        obtain ⟨found, s₃⟩ := made
        cases found with
        | none => exact .inl ⟨s₃, rfl, rfl⟩
        | some i =>
          dsimp only
          generalize filled : s₃.modInode i _ = s₄
          refine .inr ⟨i, s₃, s₄, rfl, filled ▸ SameObjects.modInode i fun _ => rfl, ?_⟩
          generalize dentryAlloc s₄ [0x2F] i = made
          obtain ⟨entry, s₅⟩ := made
          cases entry with
          | none => exact .inl ⟨s₅, rfl, rfl⟩
          | some d => exact .inr ⟨d, s₅, rfl, rfl⟩

/-! ### Properties that every call keeps -/

/-- The changes of inodes and dentries that the calls are made of keep the property; the lookup of a
component does so if it meets the condition. -/
structure Keeps (G : State → Nat → List Byte → Bool) (I : State → Prop) : Prop where
  component : ∀ s cur name, I s → G s cur name → I (lookupComponent s cur name).2
  get : ∀ s d, I s → I (dentryGet s d)
  put : ∀ s d, I s → I (dentryPut s d)
  remove : ∀ s d x p, I s → s.dentries d = some x → x.parent = some p → I (unhash s d p)
  data : ∀ s s', SameObjects s s' → I s → I s'

namespace Keeps

variable {G : State → Nat → List Byte → Bool} {I : State → Prop} {s : State}

theorem walk (k : Keeps G I) (names : List (List Byte)) (cur : Nat) (h : I s) (meets : walkMeets G s cur names) :
    I (walk s cur names).2 := by
  induction names generalizing s cur with
  | nil => exact h
  | cons name rest ih =>
    rw [walkMeets, and_eq_true] at meets
    have stepped := k.component s cur name h meets.1
    have later := meets.2
    unfold walk
    cases eq : lookupComponent s cur name with
    | mk found s' =>
      rw [eq] at stepped later
      cases found with
      | none => exact stepped
      | some child => exact ih child stepped later

theorem lookup (k : Keeps G I) (path : List Byte) (h : I s) (meets : lookupMeets G s path) :
    I (Vfs.lookup s path).2 := by
  unfold Vfs.lookup
  unfold lookupMeets at meets
  split
  next root found =>
    rw [found] at meets
    exact k.walk _ root (k.get s root h) meets
  · exact h

theorem openCreate (k : Keeps G I) (path : List Byte) (h : I s) (meets : createMeets G s path) :
    I (Vfs.openCreate s path).2.2 := by
  unfold Vfs.openCreate
  unfold createMeets at meets
  split
  · exact h
  · exact h
  next parent leaf names =>
    rw [names] at meets
    have walked := k.lookup parent h (and_eq_true _ _ ▸ meets).1
    cases eq : Vfs.lookup s parent with
    | mk found s' =>
      rw [eq] at walked
      cases found with
      | none => exact walked
      | some d =>
        dsimp only
        split
        · exact k.data _ _ (SameObjects.fatCreate _ _) walked
        · exact walked

/-- A file is created only in a directory, which was walked to. -/
theorem lookupMeets_of_created {path : List Byte} {parent : Option Nat} {s' : State} (meets : createMeets G s path)
    (created : Vfs.openCreate s path = (parent, true, s')) : lookupMeets G s' path := by
  unfold createMeets at meets
  cases names : pathParentLeaf path with
  | failed =>
    rw [Vfs.openCreate, names] at created
    cases created
  | overrun =>
    rw [Vfs.openCreate, names] at created
    cases created
  | split parent leaf =>
    rw [names, created, and_eq_true] at meets
    exact meets.2

theorem openLookup (k : Keeps G I) (path : List Byte) (flags : Flags) (h : I s) (meets : openMeets G s path flags) :
    I (Vfs.openLookup s path flags).2 := by
  unfold Vfs.openLookup
  rw [openMeets, and_eq_true] at meets
  obtain ⟨first, later⟩ := meets
  have walked := k.lookup path h first
  cases eq : Vfs.lookup s path with
  | mk found s₁ =>
    rw [eq] at walked later
    cases found with
    | some d => exact walked
    | none =>
      dsimp only at later ⊢
      by_cases creat : flags.creat = true
      · rw [creat, Bool.not_true, Bool.false_or] at later
        rw [if_pos creat]
        have made := k.openCreate path walked later
        cases created : Vfs.openCreate s₁ path with
        | mk parent rest =>
          obtain ⟨done, s₂⟩ := rest
          rw [created] at made
          have after : I (if done then Vfs.lookup s₂ path else (none, s₂)).2 := by
            cases done with
            | false => exact made
            | true => exact k.lookup path made (lookupMeets_of_created later created)
          cases parent with
          | none => exact after
          | some p => exact k.put _ p after
      · rw [if_neg creat]
        exact walked

theorem vfsOpen (k : Keeps G I) (path : List Byte) (flags : Flags) (h : I s) (meets : openMeets G s path flags) :
    I (Vfs.vfsOpen s path flags).2 := by
  unfold Vfs.vfsOpen
  have walked := k.openLookup path flags h meets
  cases eq : Vfs.openLookup s path flags with
  | mk found s₁ =>
    rw [eq] at walked
    cases found with
    | none => exact walked
    | some d =>
      dsimp only
      have granted := k.data _ _ (SameObjects.kalloc (s := s₁)) walked
      cases memory : Vfs.kalloc s₁ with
      | mk ok s₂ =>
        rw [memory] at granted
        cases entry : s₁.dentries d with
        | none => cases ok <;> exact k.put _ d granted
        | some x =>
          cases ok with
          | false => exact k.put _ d granted
          | true =>
            dsimp only
            have opened := k.data _ _ (SameObjects.fatOpen x.inode flags) granted
            cases result : Vfs.fatOpen s₂ x.inode flags with
            | mk done s₃ =>
              rw [result] at opened
              cases done with
              | false => exact k.put _ d opened
              | true =>
                refine k.data s₃ _ ?_ opened
                exact ⟨fun _ => rfl, rfl, rfl, rfl, rfl, rfl, rfl, rfl, rfl, rfl, rfl⟩

/-- The dentry that `jlos_vfs_unlink` removes has the parent whose directory it is removed from. -/
theorem target_parent {d p dir : Nat} {name : List Byte} (target : unlinkTarget s d = some (name, p, dir)) :
    ∃ x, s.dentries d = some x ∧ x.parent = some p := by
  obtain ⟨x, found, target⟩ := bind_eq_some_iff.mp target
  obtain ⟨n, -, target⟩ := bind_eq_some_iff.mp target
  split at target
  · cases target
  obtain ⟨q, parent, target⟩ := bind_eq_some_iff.mp target
  obtain ⟨y, -, eq⟩ := map_eq_some_iff.mp target
  simp only [Prod.mk.injEq] at eq
  exact ⟨x, found, eq.2.1 ▸ parent⟩

theorem vfsUnlink (k : Keeps G I) (path : List Byte) (h : I s) (meets : lookupMeets G s path) :
    I (Vfs.vfsUnlink s path).2 := by
  unfold Vfs.vfsUnlink
  have walked := k.lookup path h meets
  cases eq : Vfs.lookup s path with
  | mk found s₁ =>
    rw [eq] at walked
    cases found with
    | none => exact walked
    | some d =>
      dsimp only
      split
      · exact k.put _ d walked
      next name p dir target =>
        have removed := k.data _ _ (SameObjects.fatUnlink dir name) walked
        cases result : Vfs.fatUnlink s₁ dir name with
        | mk done s₂ =>
          rw [result] at removed
          cases done with
          | false => exact k.put _ d removed
          | true =>
            obtain ⟨x, found, parent⟩ := target_parent target
            have same := (SameObjects.fatUnlink (s := s₁) dir name).dentries
            rw [result] at same
            exact k.put _ d (k.remove s₂ d x p removed (same ▸ found) parent)

theorem exec (k : Keeps G I) {op : Op} (h : I s) (meets : op.Meets G s) : I (exec s op) := by
  cases op with
  | lookup path => exact k.lookup path h meets
  | put d => exact k.put s d h
  | «open» path flags => exact k.vfsOpen path flags h meets
  | close f =>
    show I (vfsClose s f)
    unfold vfsClose
    split
    · exact h
    · exact k.data _ _ (SameObjects.setFile _ _) (k.put _ _ h)
  | unlink path => exact k.vfsUnlink path h meets
  | read f count => exact k.data _ _ (SameObjects.vfsRead f count) h
  | write f bytes => exact k.data _ _ (SameObjects.vfsWrite f bytes) h
  | lseek f offset whence => exact k.data _ _ (SameObjects.vfsLseek f offset whence) h
  | writeback i index drop => exact k.data _ _ (SameObjects.pageWriteback i index drop) h
  | blockWriteback sb index => exact k.data _ _ (SameObjects.blockWriteback sb index) h

/-- A property that the calls keep holds in every state of a history whose path walks meet the
condition. -/
theorem run (k : Keeps G I) {s₀ : State} {es : List (State × Op)} (initial : I s₀) (ran : Run Calls s₀ es s)
    (meets : ∀ e ∈ es, e.2.Meets G e.1) : I s ∧ ∀ e ∈ es, I e.1 := by
  refine Run.invariant_of_guard (G := fun s (op : Op) => op.Meets G s = true) initial ?_ ran meets
  intro s op s' h met taken
  rw [taken]
  exact k.exec h met

end Keeps

/-- The changes of a dentry that keep its inode, and its release, keep the property. -/
structure Stable (I : State → Prop) : Prop where
  change : ∀ s d f, (∀ x : Dentry, (f x).inode = x.inode) → I s → I (s.modDentry d f)
  lru : ∀ s list, I s → I { s with lru := list }
  free : ∀ s d, I s → I (dentryFree s d)

namespace Stable

variable {I : State → Prop} {s : State} (st : Stable I)
include st

theorem count {d : Nat} {x : Dentry} (found : s.dentries d = some x) (n : Int) (h : I s) :
    I (s.setDentry d (some { x with refCount := n })) := by
  have changed := st.change s d (fun x => { x with refCount := n }) (fun _ => rfl) h
  rwa [State.modDentry, found] at changed

theorem dentryGet (d : Nat) (h : I s) : I (Vfs.dentryGet s d) := by
  unfold Vfs.dentryGet
  split
  · exact h
  next x found =>
    dsimp only
    split
    · exact @count I { s with lru := s.lru.erase d } st d x found _ (st.lru s _ h)
    · exact st.count found _ h

theorem dentryDrop (d : Nat) (h : I s) : I (Vfs.dentryDrop s d) := by
  unfold Vfs.dentryDrop
  split
  · exact h
  next x found =>
    have dropped := st.count found (x.refCount - 1) h
    dsimp only
    split
    · split
      · exact st.free _ d dropped
      · exact st.lru _ _ dropped
    · exact dropped

theorem dentryShrink (rounds : Nat) (h : I s) : I (dentryShrink rounds s) := by
  induction rounds generalizing s with
  | zero => exact h
  | succ rounds ih =>
    unfold dentryShrink
    split
    · exact h
    next victim rest eq =>
      have freed := st.free _ victim (st.lru s rest h)
      split
      · refine ih ?_
        split
        · exact st.dentryDrop _ freed
        · exact freed
      · exact h

theorem dentryPut (d : Nat) (h : I s) : I (dentryPut s d) := st.dentryShrink _ (st.dentryDrop d h)

theorem lookupComponent (cur : Nat) (name : List Byte) (h : I s)
    (looked : ∀ x, dentryLookupChild s cur name = none → s.dentries cur = some x → I (fatLookup s x.inode name).2) :
    I (Vfs.lookupComponent s cur name).2 := by
  unfold Vfs.lookupComponent
  split
  · exact st.dentryPut cur (st.dentryGet _ h)
  next missing =>
    split
    · exact h
    next x entry =>
      have after := looked x missing entry
      split
      next s₁ eq =>
        rw [eq] at after
        exact st.dentryPut cur after
      next child s₁ eq =>
        rw [eq] at after
        have linked := st.change s₁ child (fun y => { y with parent := some cur }) (fun _ => rfl) after
        exact st.dentryPut cur (st.dentryGet child (st.dentryGet cur linked))

/-- Every call keeps a property that the lookups of the driver and the changes of other data
keep. -/
theorem keeps {G : State → Nat → List Byte → Bool} (data : ∀ s s', SameObjects s s' → I s → I s')
    (looked : ∀ s cur name x, I s → G s cur name → dentryLookupChild s cur name = none → s.dentries cur = some x →
      I (fatLookup s x.inode name).2) : Keeps G I where
  component s cur name h met := st.lookupComponent cur name h fun x => looked s cur name x h met
  get _ d h := st.dentryGet d h
  put _ d h := st.dentryPut d h
  remove s d _ p h _ _ := by
    have marked := st.change s d (fun x => { x with unhashed := true }) (fun _ => rfl) h
    exact st.change _ d _ (fun _ => rfl) (st.dentryPut p marked)
  data := data

end Stable

end Jlos.Vfs
