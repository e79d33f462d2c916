import Jlos.Fat32.Blocks

/-!
# Files that share a volume

The files of a volume with their cached inodes and pages, where clusters that one file gives up are
taken by another. The table, the pages and their writeback are those of the driver; a directory is
the collection of its entries, each with the slot it stands in, and every entry of a file is looked
up by its slot. An inode whose entry was removed stays for as long as the file is open.

Writeback finds the sector of a page through the chain that the inode's first cluster leads to at
that time.
-/
namespace Jlos.Fat32.Reuse

open Lib Function Option

/-- The fields of a directory entry that belong to its file. -/
structure Entry where
  firstCluster : Nat
  size : Nat
  deriving DecidableEq, Repr

/-- A cached inode. -/
structure Node where
  ino : Nat
  /-- `dir_offset`: the slot of its entry -/
  slot : Nat
  map : Mapping
  size : Nat
  /-- `unhashed` of its dentry, which a later lookup does not find -/
  removed : Bool

structure Store where
  vol : Volume
  entries : Nat → Option Entry
  nodes : Nat → Option Node
  count : Nat

namespace Store

def modNode (s : Store) (i : Nat) (f : Node → Node) : Store :=
  { s with nodes := update s.nodes i ((s.nodes i).map f) }

/-- The inode that the dentry cache has for an entry. -/
def cached (s : Store) (slot : Nat) : Option Nat :=
  (List.range s.count).find? fun i => (s.nodes i).any fun n => n.slot = slot && !n.removed

/-- `jlos_hash_chain_see` of the inode hash -/
def see (s : Store) (ino : Nat) : Option Nat :=
  (List.range s.count).find? fun i => (s.nodes i).any fun n => n.ino = ino

def addNode (s : Store) (slot : Nat) (e : Entry) : Store :=
  let n : Node := ⟨e.firstCluster, slot, ⟨e.firstCluster, fun _ => none⟩, e.size, false⟩
  { s with nodes := update s.nodes s.count (some n), count := s.count + 1 }

/-- The inode of an entry, as `jlos_vfs_lookup` and `fat32_dirent_to_inode` find or make it. -/
def lookup (s : Store) (slot : Nat) : Option Nat × Store :=
  match s.cached slot, s.entries slot with
  | some i, _ => (some i, s)
  | none, none => (none, s)
  | none, some e =>
    match s.see e.firstCluster with
    | some i => (some i, s.modNode i fun n =>
        { n with slot := slot, size := e.size, map := { n.map with firstCluster := e.firstCluster }, removed := false })
    | none => (some s.count, s.addNode slot e)

/-- `fat32_sync_inode`; an entry that is deleted stays deleted. -/
def sync (s : Store) (i : Nat) : Store :=
  match s.nodes i with
  | none => s
  | some n =>
    let e := (s.entries n.slot).map fun _ => ⟨n.map.firstCluster, n.size⟩
    { s with entries := update s.entries n.slot e }

/-- `fat32_create` in a free slot -/
def create (s : Store) (slot : Nat) : Store :=
  match s.entries slot with
  | none => { s with entries := update s.entries slot (some ⟨0, 0⟩) }
  | some _ => s

/-- `fat32_open_inner` with `O_TRUNC` -/
def truncate (s : Store) (i : Nat) : Store :=
  match s.nodes i with
  | none => s
  | some n =>
    if 0 < n.size then
      let (freed, m) := if n.map.firstCluster = 0 then (true, s.vol.table)
        else freeClusterChain s.vol.info s.vol.table n.map.firstCluster
      let s := { s with vol := { s.vol with table := m } }
      if freed then (s.modNode i fun n => { n with size := 0, map := { n.map with firstCluster := 0 } }).sync i else s
    else s

/-- `jlos_vfs_open` of an entry -/
def openFile (s : Store) (slot : Nat) (trunc : Bool) : Store :=
  match s.lookup slot with
  | (none, s) => s
  | (some i, s) => if trunc then s.truncate i else s

/-- `fat32_write_inner` through an open file at a position -/
def write (s : Store) (i pos : Nat) (bytes : List Byte) : Store :=
  match s.nodes i with
  | none => s
  | some n =>
    match writeInner s.vol n.map pos bytes with
    | (false, vol, a) => { s with vol := vol }.modNode i fun n => { n with map := a }
    | (true, vol, a) => ({ s with vol := vol }.modNode i fun n =>
        { n with map := a, size := max n.size (u32 (pos + bytes.length)) }).sync i

/-- `fat32_unlink_inner`: the chain of the entry is released and the entry deleted. -/
def removeEntry (s : Store) (slot : Nat) : Bool × Store :=
  match s.entries slot with
  | none => (false, s)
  | some e =>
    let (freed, m) := if e.firstCluster = 0 then (true, s.vol.table)
      else freeClusterChain s.vol.info s.vol.table e.firstCluster
    let s := { s with vol := { s.vol with table := m } }
    if freed then (true, { s with entries := update s.entries slot none }) else (false, s)

/-- `jlos_vfs_unlink` of an entry -/
def unlink (s : Store) (slot : Nat) : Store :=
  match s.lookup slot with
  | (none, s) => s
  | (some i, s) =>
    match s.removeEntry slot with
    | (false, s) => s
    | (true, s) => s.modNode i fun n => { n with removed := true }

/-- `page_writeback` of a page of an inode; `drop` tells whether the page is evicted after it. -/
def pageWriteback (s : Store) (i index : Nat) (drop : Bool) : Store :=
  match s.nodes i with
  | none => s
  | some n =>
    match n.map.pages index with
    | none => s
    | some page =>
      let (vol, page) := writeback s.vol n.map.firstCluster index page
      { s with vol := vol }.modNode i fun n =>
        { n with map := { n.map with pages := update n.map.pages index (if drop then none else some page) } }

/-- The growth of the root directory by a cluster. -/
def grow (s : Store) : Store :=
  let v := s.vol.info
  let tail := (lastCluster v s.vol.table (v.totalClusters + 1) v.rootCluster 0).1
  { s with vol := { s.vol with table := (clusterAdvance v s.vol.table tail).2 } }

end Store

/-! ### Histories -/

inductive Op
  | create (slot : Nat)
  | openFile (slot : Nat) (trunc : Bool)
  | write (i pos : Nat) (bytes : List Byte)
  | unlink (slot : Nat)
  | writeback (i index : Nat) (drop : Bool)
  | grow

def exec (s : Store) : Op → Store
  | .create slot => s.create slot
  | .openFile slot trunc => s.openFile slot trunc
  | .write i pos bytes => s.write i pos bytes
  | .unlink slot => s.unlink slot
  | .writeback i index drop => s.pageWriteback i index drop
  | .grow => s.grow

def Calls (s : Store) (op : Op) (s' : Store) : Prop := s' = exec s op

def Node.Clean (n : Node) : Prop := ∀ index page, n.map.pages index = some page → page.dirty = false

/-- The lookup of an entry does not find the inode of another one. -/
def FreshLookup (s : Store) (slot : Nat) : Prop :=
  s.cached slot = none → ∀ e, s.entries slot = some e → s.see e.firstCluster = none

/-- No lookup ends at the inode of another file, a file is removed only when its cached pages are
clean, and it is not written to after that. -/
def Meets (s : Store) : Op → Prop
  | .openFile slot _ => FreshLookup s slot
  | .unlink slot => FreshLookup s slot ∧ ∀ i n, s.cached slot = some i → s.nodes i = some n → n.Clean
  | .write i _ _ => ∀ n, s.nodes i = some n → n.removed = false
  | _ => True

/-- The sector is one of a cluster of the file that has the entry. -/
def Owns (s : Store) (slot sector : Nat) : Prop :=
  ∃ e xs x k, s.entries slot = some e ∧ firstDataCluster ≤ e.firstCluster ∧
    IsChain (link s.vol.info s.vol.table) (e.firstCluster :: xs) ∧ x ∈ e.firstCluster :: xs ∧
    k < s.vol.info.sectorsPerCluster ∧ sector = clusterToSector s.vol.info x + k

/-- The inode is the one of the file that has the entry. -/
def IsNodeOf (s : Store) (i slot : Nat) : Prop := ∃ n, s.nodes i = some n ∧ n.removed = false ∧ n.slot = slot

/-- The writeback of a page modifies no sector of a file other than the one of the page. -/
def Harmless (s : Store) : Op → Prop
  | .writeback i index drop => ∀ sector, (s.pageWriteback i index drop).vol.disk sector ≠ s.vol.disk sector →
      ∀ slot, Owns s slot sector → IsNodeOf s i slot
  | _ => True

/-! ### Owners of chains -/

variable {vol : Volume} {f : Node → Node} {s : Store} {slot : Nat}

section owners

variable {v : SbInfo} {m m' : Image} {head : Nat → Nat}

/-- The chains of the volume: the root directory and every file have their own, which starts at
`head`, or zero for an empty file. -/
structure Owned (v : SbInfo) (m : Image) (head : Nat → Nat) : Prop where
  layout : Layout v
  sectors : Sectors v
  formed : WellFormed v m
  root : Head v m v.rootCluster
  heads : ∀ slot, head slot ≠ 0 → Head v m (head slot) ∧ head slot ≠ v.rootCluster
  apart : ∀ slot slot', head slot = head slot' → head slot ≠ 0 → slot = slot'

namespace Owned

section

variable (h : Owned v m head)
include h

/-- A change of the table that keeps the first clusters of all files. -/
theorem keep (formed : WellFormed v m') (heads : ∀ c, Head v m c → Head v m' c) : Owned v m' head :=
  { h with
    formed
    root := heads _ h.root
    heads := fun slot ne => ⟨heads _ (h.heads slot ne).1, (h.heads slot ne).2⟩ }

/-- One file gets a chain of its own, or none. -/
theorem set (slot c : Nat) (formed : WellFormed v m') (root : Head v m' v.rootCluster)
    (first : c ≠ 0 → Head v m' c ∧ c ≠ v.rootCluster)
    (others : ∀ a, a ≠ slot → head a ≠ 0 → Head v m' (head a) ∧ head a ≠ c) : Owned v m' (update head slot c) := by
  refine { h with formed, root, heads := ?heads, apart := ?apart }
  case heads =>
    intro a
    rw [update_apply]
    split
    · exact first
    next out => exact fun ne => ⟨(others a out ne).1, (h.heads a ne).2⟩
  case apart =>
    intro a b same ne
    simp only [update_apply] at same ne
    split_ifs at same ne with ha hb hb
    · rw [ha, hb]
    · exact absurd same.symm (others b hb (same ▸ ne)).2
    · exact absurd same (others a ha ne).2
    · exact h.apart a b same ne

theorem alloc (slot : Nat) {new : Nat} (eq : allocCluster v m = some (new, m')) :
    Owned v m' (update head slot new) := by
  obtain ⟨formed, first, heads⟩ := alloc_heads h.layout h.formed eq
  exact h.set slot new formed (heads _ h.root).1 (fun _ => ⟨first, (heads _ h.root).2.symm⟩)
    fun a _ ne => heads _ (h.heads a ne).1

theorem drop (slot : Nat) (formed : WellFormed v m')
    (heads : ∀ c, Head v m c → c ≠ head slot ∨ head slot = 0 → Head v m' c) : Owned v m' (update head slot 0) := by
  refine h.set slot 0 formed (heads _ h.root ?_) nofun fun a out ne =>
    ⟨heads _ (h.heads a ne).1 (.inl fun same => ?_), ne⟩
  · by_cases zero : head slot = 0
    · exact .inr zero
    · exact .inl (h.heads slot zero).2.symm
  · exact out (h.apart a slot same ne)

/-- A file gives up its chain, if it has one. -/
theorem release {slot c : Nat} (mine : c ≠ 0 → c = head slot) :
    ∃ m', (if c = 0 then (true, m) else freeClusterChain v m c) = (true, m') ∧ Owned v m' (update head slot 0) := by
  split
  next => exact ⟨m, rfl, h.drop slot h.formed fun c hc _ => hc⟩
  next ne =>
    cases ran : freeClusterChain v m c with
    | mk freed m' =>
      rw [mine ne] at ran ne
      obtain ⟨rfl, formed, heads⟩ := free_heads h.layout h.formed (h.heads slot ne).1 ran
      exact ⟨m', rfl, h.drop slot formed fun c hc out => heads c hc (out.resolve_right ne)⟩

theorem chain (ne : head slot ≠ 0) :
    ∃ xs, IsChain (link v m) (head slot :: xs) ∧ ∀ x ∈ head slot :: xs, InVolume v x := by
  obtain ⟨within, used, first⟩ := (h.heads slot ne).1
  obtain ⟨cs, chains⟩ := h.formed.chains
  obtain ⟨d, mem, hd⟩ := chains.covers _ within used
  obtain ⟨xs, rfl⟩ := Chains.eq_head chains mem hd first
  exact ⟨xs, chains.chain _ mem, chains.inside _ mem⟩

/-- `fat32_write_inner` extends the chain of the file or starts it. -/
theorem writeInner {vol' : Volume} {a a' : Mapping} {pos slot : Nat} {bytes : List Byte}
    {ok : Bool} (info : vol.info = v) (table : vol.table = m) (mine : a.firstCluster = head slot)
    (eq : Fat32.writeInner vol a pos bytes = (ok, vol', a')) :
    ∃ head', Owned vol'.info vol'.table head' ∧ a'.firstCluster = head' slot ∧
      (head' = head ∨ head slot = 0 ∧ ∃ new, head' = update head slot new) := by
  subst info table
  rw [Fat32.writeInner] at eq
  dsimp only at eq
  split at eq
  next =>
    cases eq
    exact ⟨head, h, mine, .inl rfl⟩
  next =>
    split at eq
    next =>
      cases eq
      exact ⟨head, h, mine, .inl rfl⟩
    next vol₁ a₁ started =>
      -- An empty file gets its first cluster, and nobody else has it.
      have begun : ∃ head', Owned vol₁.info vol₁.table head' ∧ a₁.firstCluster = head' slot ∧ a₁.firstCluster ≠ 0 ∧
          (head' = head ∨ head slot = 0 ∧ ∃ new, head' = update head slot new) := by
        rw [firstClusterFor] at started
        split at started
        next zero =>
          obtain ⟨⟨new, m₁⟩, claimed, both⟩ := map_eq_some_iff.mp started
          cases both
          have owned := h.alloc slot claimed
          have first := (alloc_heads h.layout h.formed claimed).2.1.1.1
          refine ⟨_, owned, ?_, ?_, .inr ⟨mine.symm.trans zero, new, rfl⟩⟩
          · exact (update_self slot new head).symm
          · exact ne_of_gt (lt_of_lt_of_le (by decide) first)
        next ne =>
          cases started
          exact ⟨head, h, mine, ne, .inl rfl⟩
      obtain ⟨head', owned, first, ne, change⟩ := begun
      have legal : Legal vol₁.info vol₁.table (.advance a₁.firstCluster) := by
        rw [first] at ne ⊢
        exact ⟨(owned.heads slot ne).1.1, (owned.heads slot ne).1.2.1⟩
      split at eq
      next m₂ advanced =>
        cases eq
        obtain ⟨formed, heads⟩ := advanceLoop_heads owned.layout _ owned.formed legal advanced
        exact ⟨head', owned.keep formed heads, first, change⟩
      next m₂ advanced =>
        obtain ⟨formed, heads⟩ := advanceLoop_heads owned.layout _ owned.formed legal advanced
        cases copied : writeLoop { vol₁ with table := m₂ } pos bytes (bytes.length + 1) 0 a₁ with
        | mk done a₂ =>
          rw [copied] at eq
          cases eq
          exact ⟨head', owned.keep formed heads, (writeLoop_firstCluster _ _ copied).trans first, change⟩

end

end Owned

end owners

/-! ### The invariant -/

/-- The inodes and entries agree on where the chain of each file starts; an entry may lag behind
when a write failed for want of space. A removed inode has nothing left to write. -/
structure Inv (s : Store) (head : Nat → Nat) : Prop where
  owned : Owned s.vol.info s.vol.table head
  bound : ∀ i n, s.nodes i = some n → i < s.count
  entry : ∀ slot e, s.entries slot = some e → e.firstCluster = head slot ∨ e.firstCluster = 0
  live : ∀ i n, s.nodes i = some n → n.removed = false →
    n.map.firstCluster = head n.slot ∧ (s.entries n.slot).isSome
  one : ∀ i j n n', s.nodes i = some n → s.nodes j = some n' → n.removed = false → n'.removed = false →
    n.slot = n'.slot → i = j
  gone : ∀ i n, s.nodes i = some n → n.removed = true → n.Clean

variable {i : Nat} {n : Node}

section invariant

variable {s s' : Store} {head : Nat → Nat}

theorem cached_some (eq : s.cached slot = some i) : ∃ n, s.nodes i = some n ∧ n.slot = slot ∧ n.removed = false := by
  have found := List.find?_some eq
  obtain ⟨n, node, found⟩ := (any_eq_true ..).mp found
  exact ⟨n, node, by simpa using found⟩

theorem cached_none (h : Inv s head) (eq : s.cached slot = none)
    (node : s.nodes i = some n) (live : n.removed = false) : n.slot ≠ slot := by
  rintro rfl
  have none := List.find?_eq_none.mp eq i (List.mem_range.mpr (h.bound i n node))
  rw [node] at none
  simp [live] at none

theorem modNode_self (node : s.nodes i = some n) : (s.modNode i f).nodes i = some (f n) := by
  simp [Store.modNode, node]

namespace Inv

section

variable (h : Inv s head) {head' : Nat → Nat}
include h

/-- One node changes, and with it the entries of slots that no other open file has. -/
theorem of_change {T : Nat → Prop} (owned : Owned s'.vol.info s'.vol.table head')
    (count : s.count ≤ s'.count) (others : ∀ j, j ≠ i → s'.nodes j = s.nodes j)
    (free : ∀ j x, j ≠ i → s.nodes j = some x → x.removed = false → ¬ T x.slot)
    (kept : ∀ slot, ¬ T slot → head' slot = head slot ∧ s'.entries slot = s.entries slot)
    (entry : ∀ slot e, T slot → s'.entries slot = some e → e.firstCluster = head' slot ∨ e.firstCluster = 0)
    (node : s'.nodes i = some n) (bound : i < s'.count) (gone : n.removed = true → n.Clean) (mine : n.removed = false →
      T n.slot ∧ n.map.firstCluster = head' n.slot ∧ (s'.entries n.slot).isSome) : Inv s' head' := by
  have cases {j : Nat} {x : Node} (at' : s'.nodes j = some x) : j = i ∧ x = n ∨ j ≠ i ∧ s.nodes j = some x := by
    obtain rfl | ne := eq_or_ne j i
    · exact .inl ⟨rfl, Option.some.inj (at'.symm.trans node)⟩
    · exact .inr ⟨ne, (others j ne).symm.trans at'⟩
  constructor
  case owned => exact owned
  case bound =>
    intro j x at'
    rcases cases at' with ⟨rfl, -⟩ | ⟨-, old⟩
    · exact bound
    · exact lt_of_lt_of_le (h.bound j x old) count
  case entry =>
    intro slot e there
    by_cases changed : T slot
    · exact entry slot e changed there
    · rw [(kept slot changed).1]
      exact h.entry slot e ((kept slot changed).2.symm.trans there)
  case live =>
    intro j x at' up
    rcases cases at' with ⟨-, rfl⟩ | ⟨ne, old⟩
    · exact (mine up).2
    · rw [(kept x.slot (free j x ne old up)).1, (kept x.slot (free j x ne old up)).2]
      exact h.live j x old up
  -- Two live inodes with one slot are the same inode.
  case one =>
    intro j k x y atj atk upx upy same
    rcases cases atj with ⟨rfl, rfl⟩ | ⟨nej, oldj⟩ <;> rcases cases atk with ⟨rfl, rfl⟩ | ⟨nek, oldk⟩
    · rfl
    · exact absurd (same ▸ (mine upx).1) (free k y nek oldk upy)
    · exact absurd (same ▸ (mine upy).1) (free j x nej oldj upx)
    · exact h.one j k x y oldj oldk upx upy same
  case gone =>
    intro j x at' down
    rcases cases at' with ⟨-, rfl⟩ | ⟨-, old⟩
    · exact gone down
    · exact h.gone j x old down

theorem apart (node : s.nodes i = some n) (live : n.removed = false) (j : Nat) (x : Node) (ne : j ≠ i)
    (old : s.nodes j = some x) (up : x.removed = false) : x.slot ≠ n.slot :=
  fun same => ne (h.one j i x n old node up live same)

/-- The node of an open file and its entry change with the part of the volume that is the file's
own. -/
theorem change {entries : Nat → Option Entry} (node : s.nodes i = some n) (live : n.removed = false)
    (owned : Owned vol.info vol.table head') (slot : (f n).slot = n.slot) (stays : (f n).removed = false)
    (mine : (f n).map.firstCluster = head' n.slot) (others : ∀ slot', slot' ≠ n.slot → head' slot' = head slot')
    (entry : ∃ e, entries n.slot = some e ∧ (e.firstCluster = head' n.slot ∨ e.firstCluster = 0))
    (same : ∀ slot', slot' ≠ n.slot → entries slot' = s.entries slot') :
    Inv ({ s with vol := vol, entries := entries }.modNode i f) head' := by
  obtain ⟨e, there, first⟩ := entry
  refine h.of_change (T := (· = n.slot)) owned le_rfl (fun j ne => update_of_ne ne ..) (h.apart node live)
    (fun slot' ne => ⟨others slot' ne, same slot' ne⟩) ?_ (modNode_self node) (h.bound i n node) ?_ fun _ => ?_
  · rintro _ e' rfl there'
    cases there.symm.trans there'
    exact first
  · rw [stays]
    nofun
  · rw [slot]
    exact ⟨rfl, mine, isSome_iff_exists.mpr ⟨e, there⟩⟩

theorem change_sync (node : s.nodes i = some n) (live : n.removed = false) (owned : Owned vol.info vol.table head')
    (slot : (f n).slot = n.slot) (stays : (f n).removed = false) (mine : (f n).map.firstCluster = head' n.slot)
    (others : ∀ slot', slot' ≠ n.slot → head' slot' = head slot') :
    Inv (({ s with vol := vol }.modNode i f).sync i) head' := by
  obtain ⟨e, there⟩ := isSome_iff_exists.mp (h.live i n node live).2
  rw [Store.sync, modNode_self (s := { s with vol := vol }) node]
  dsimp only
  rw [slot]
  refine h.change node live owned slot stays mine others ⟨⟨(f n).map.firstCluster, (f n).size⟩, ?_,
    .inl mine⟩ fun slot' ne => ?_
  · show update s.entries n.slot _ n.slot = _
    rw [update_self]
    show (s.entries n.slot).map _ = _
    rw [there, map_some]
  · exact update_of_ne ne ..

theorem addNode {e : Entry} (missing : s.cached slot = none)
    (there : s.entries slot = some e) : ∃ head', Inv (s.addNode slot e) head' := by
  -- With no inode, the entry alone says where the chain starts.
  obtain ⟨head', owned, mine, others⟩ : ∃ head', Owned s.vol.info s.vol.table head' ∧ head' slot = e.firstCluster ∧
      ∀ slot', slot' ≠ slot → head' slot' = head slot' := by
    rcases h.entry slot e there with first | zero
    · exact ⟨head, h.owned, first.symm, fun _ _ => rfl⟩
    · refine ⟨update head slot 0, h.owned.drop slot h.owned.formed fun c hc _ => hc, ?_, fun slot' ne => ?_⟩
      · rw [update_self, zero]
      · exact update_of_ne ne ..
  refine ⟨head', h.of_change (T := (· = slot)) owned (Nat.le_succ _) (fun j ne => update_of_ne ne ..)
    (fun j x _ old up => cached_none h missing old up) (fun slot' ne => ⟨others slot' ne, rfl⟩) ?_ (update_self ..)
    (Nat.lt_succ_self _) nofun fun _ => ⟨rfl, mine.symm, isSome_iff_exists.mpr ⟨e, there⟩⟩⟩
  rintro _ e' rfl there'
  cases there.symm.trans there'
  exact .inl mine.symm

/-- A lookup that does not end at another inode finds the one inode of the entry or makes it. -/
theorem lookup {r : Option Nat} (fresh : FreshLookup s slot) (eq : s.lookup slot = (r, s')) :
    ∃ head', Inv s' head' ∧ s'.vol = s.vol ∧ ∀ i, r = some i → ∃ n, s'.nodes i = some n ∧ n.slot = slot ∧
      n.removed = false ∧ (s.cached slot = some i ∧ s' = s ∨ n.Clean) := by
  rw [Store.lookup] at eq
  split at eq
  next i hit =>
    cases eq
    refine ⟨head, h, rfl, fun j same => ?_⟩
    cases same
    obtain ⟨n, node, mine, live⟩ := cached_some hit
    exact ⟨n, node, mine, live, .inl ⟨hit, rfl⟩⟩
  next =>
    cases eq
    exact ⟨head, h, rfl, nofun⟩
  next e missing there =>
    rw [fresh missing e there] at eq
    cases eq
    obtain ⟨head', inv⟩ := h.addNode missing there
    refine ⟨head', inv, rfl, fun i same => ?_⟩
    cases same
    exact ⟨_, update_self .., rfl, rfl, .inr fun _ _ none => by cases none⟩

theorem create (slot : Nat) : Inv (s.create slot) head := by
  rw [Store.create]
  split
  next missing =>
    refine ⟨h.owned, h.bound, fun slot' e there => ?_, fun j x at' up => ?_, h.one, h.gone⟩
    · rcases of_update there with ⟨-, here⟩ | ⟨-, there⟩
      · cases here
        exact .inr rfl
      · exact h.entry slot' e there
    · obtain ⟨first, there⟩ := h.live j x at' up
      refine ⟨first, ?_⟩
      by_cases here : x.slot = slot
      · rw [here, missing] at there
        cases there
      · simpa only [update_of_ne here] using there
  next => exact h

theorem truncate (node : s.nodes i = some n) (live : n.removed = false) : ∃ head', Inv (s.truncate i) head' := by
  rw [Store.truncate, node]
  dsimp only
  split
  next =>
    obtain ⟨m, freed, owned⟩ := h.owned.release fun _ => (h.live i n node live).1
    rw [freed]
    refine ⟨update head n.slot 0, h.change_sync node live owned rfl live ?_ fun slot ne => ?_⟩
    · exact (update_self n.slot 0 head).symm
    · exact update_of_ne ne ..
  next => exact ⟨head, h⟩

theorem write (pos : Nat) (bytes : List Byte)
    (open' : ∀ n, s.nodes i = some n → n.removed = false) : ∃ head', Inv (s.write i pos bytes) head' := by
  rw [Store.write]
  split
  next => exact ⟨head, h⟩
  next n node =>
    have live := open' n node
    have start := (h.live i n node live).1
    obtain ⟨e, there⟩ := isSome_iff_exists.mp (h.live i n node live).2
    cases ran : writeInner s.vol n.map pos bytes with
    | mk ok rest =>
      obtain ⟨head', owned, mine, change⟩ := h.owned.writeInner rfl rfl start ran
      have others (slot : Nat) (ne : slot ≠ n.slot) : head' slot = head slot := by
        rcases change with rfl | ⟨-, new, rfl⟩
        · rfl
        · exact update_of_ne ne ..
      cases ok with
      | false =>
        refine ⟨head', h.change node live owned rfl live mine others ⟨e, there, ?_⟩ fun _ _ => rfl⟩
        -- An entry that does not have the new first cluster yet is still that of an empty file.
        rcases change with rfl | ⟨zero, new, rfl⟩
        · exact h.entry _ e there
        · rcases h.entry _ e there with first | none
          · exact .inr (first.trans zero)
          · exact .inr none
      | true => exact ⟨head', h.change_sync node live owned rfl live mine others⟩

/-- The entry of a file with clean pages is deleted. -/
theorem remove (node : s.nodes i = some n)
    (live : n.removed = false) (clean : n.Clean) (owned : Owned vol.info vol.table (update head n.slot 0)) :
    Inv ({ s with vol := vol, entries := update s.entries n.slot none }.modNode i fun n =>
      { n with removed := true }) (update head n.slot 0) := by
  refine h.of_change (T := (· = n.slot)) owned le_rfl (fun j ne => update_of_ne ne ..) (h.apart node live)
    (fun slot ne => ⟨update_of_ne ne .., update_of_ne ne ..⟩) ?_ (modNode_self node) (h.bound i n node)
    (fun _ => clean) nofun
  rintro _ e rfl (there : update s.entries n.slot none n.slot = some e)
  rw [update_self] at there
  cases there

theorem unlink (meets : Meets s (.unlink slot)) : ∃ head', Inv (s.unlink slot) head' := by
  rw [Store.unlink]
  cases looked : s.lookup slot with
  | mk r s₁ =>
    obtain ⟨head₁, inv, -, found⟩ := h.lookup meets.1 looked
    cases r with
    | none => exact ⟨head₁, inv⟩
    | some i =>
      obtain ⟨n, node, mine, live, clean⟩ := found i rfl
      have done : n.Clean := by
        rcases clean with ⟨hit, rfl⟩ | clean
        · exact meets.2 i n hit node
        · exact clean
      obtain ⟨e, there⟩ := isSome_iff_exists.mp (inv.live i n node live).2
      rw [mine] at there
      obtain ⟨m, freed, owned⟩ := inv.owned.release (inv.entry slot e there).resolve_right
      dsimp only
      rw [Store.removeEntry, there]
      dsimp only
      rw [freed]
      subst mine
      exact ⟨_, inv.remove node live done owned⟩

theorem modPages (node : s.nodes i = some n) (info : vol.info = s.vol.info) (table : vol.table = s.vol.table)
    (same : (f n).slot = n.slot ∧ (f n).removed = n.removed ∧ (f n).map.firstCluster = n.map.firstCluster)
    (clean : n.removed = true → (f n).Clean) : Inv ({ s with vol := vol }.modNode i f) head := by
  refine h.of_change (T := fun slot => n.removed = false ∧ slot = n.slot) ?_ le_rfl (fun j ne => update_of_ne ne ..)
    (fun j x ne old up ⟨live, same⟩ => h.apart node live j x ne old up same) (fun _ _ => ⟨rfl, rfl⟩)
    (fun slot e _ there => h.entry slot e there) (modNode_self node) (h.bound i n node) ?_ ?_
  · show Owned vol.info vol.table head
    rw [info, table]
    exact h.owned
  · rw [same.2.1]
    exact clean
  · rw [same.1, same.2.1, same.2.2]
    exact fun live => ⟨⟨live, rfl⟩, h.live i n node live⟩

theorem pageWriteback (i index : Nat) (drop : Bool) : Inv (s.pageWriteback i index drop) head := by
  rw [Store.pageWriteback]
  split
  next => exact h
  next n node =>
    split
    next => exact h
    next page cached =>
      have writes := writeback_writes s.vol n.map.firstCluster index page
      refine h.modPages node writes.info writes.table ⟨rfl, rfl, rfl⟩ fun removed index' page'
        (there : update n.map.pages index
          (if drop then none else some (writeback s.vol n.map.firstCluster index page).2) index' = some page') => ?_
      -- A clean page stays clean.
      have clean := h.gone i n node removed
      rw [writeback_clean (clean index page cached)] at there
      rcases of_update there with ⟨-, here⟩ | ⟨-, there⟩
      · split at here <;> cases here
        exact clean index page cached
      · exact clean index' page' there

theorem grow : Inv s.grow head := by
  have legal := lastCluster_used (s.vol.info.totalClusters + 1) 0 h.owned.formed ⟨h.owned.root.1, h.owned.root.2.1⟩
  obtain ⟨formed, heads, -⟩ := advance_heads h.owned.layout h.owned.formed legal rfl
  exact ⟨h.owned.keep formed heads, h.bound, h.entry, h.live, h.one, h.gone⟩

theorem openFile (trunc : Bool) (fresh : FreshLookup s slot) : ∃ head', Inv (s.openFile slot trunc) head' := by
  rw [Store.openFile]
  cases looked : s.lookup slot with
  | mk r s₁ =>
    obtain ⟨head₁, inv, -, found⟩ := h.lookup fresh looked
    cases r with
    | none => exact ⟨head₁, inv⟩
    | some i =>
      obtain ⟨n, node, -, live, -⟩ := found i rfl
      dsimp only
      split
      next => exact inv.truncate node live
      next => exact ⟨head₁, inv⟩

theorem exec {op : Op} (meets : Meets s op) : ∃ head', Inv (exec s op) head' := by
  cases op with
  | create slot => exact ⟨head, h.create slot⟩
  | openFile slot trunc => exact h.openFile trunc meets
  | write i pos bytes => exact h.write pos bytes meets
  | unlink slot => exact h.unlink meets
  | writeback i index drop => exact ⟨head, h.pageWriteback i index drop⟩
  | grow => exact ⟨head, h.grow⟩

/-- In a state of the invariant a writeback modifies sectors of the page's own file only. -/
theorem harmless (op : Op) : Harmless s op := by
  cases op with
  | create slot | openFile slot trunc | write i pos bytes | unlink slot | grow => trivial
  | writeback i index drop =>
    intro sector changed slot ⟨e, ys, y, l, there, data, chain', hy, hl, at'⟩
    cases node : s.nodes i with
    | none =>
      rw [Store.pageWriteback, node] at changed
      exact absurd rfl changed
    | some n =>
      rw [Store.pageWriteback, node] at changed
      cases cached : n.map.pages index with
      | none =>
        simp only [cached] at changed
        exact absurd rfl changed
      | some page =>
        simp only [cached] at changed
        have dirty : page.dirty = true := by
          by_contra clean
          rw [writeback_clean (Bool.not_eq_true _ ▸ clean)] at changed
          exact absurd rfl changed
        have live : n.removed = false := by
          by_contra removed
          have clean := h.gone i n node (by simpa using removed) index page cached
          rw [dirty] at clean
          cases clean
        obtain ⟨k, -, block⟩ := (writeback_writes s.vol n.map.firstCluster index page).disk sector changed
        have start := (h.live i n node live).1
        refine ⟨n, node, live, ?_⟩
        -- Both chains have the cluster of the sector, so that they start at the same cluster.
        have ne : e.firstCluster ≠ 0 := ne_of_gt (lt_of_lt_of_le (by decide) data)
        have first := (h.entry slot e there).resolve_right ne
        have ne' : n.map.firstCluster ≠ 0 := by
          intro zero
          rw [getBlock, zero] at block
          cases block
        rw [start] at block ne'
        rw [first] at chain' hy ne
        obtain ⟨xs, chain, inside⟩ := h.owned.chain ne'
        obtain ⟨x, hx, j, hj, same⟩ := getBlock_mem h.owned.sectors chain inside block
        obtain ⟨zs, chain'', inside'⟩ := h.owned.chain ne
        rw [chain''.unique chain'] at inside'
        have cluster : x = y := h.owned.sectors.unique (inside x hx) (inside' y hy) hj hl (same.symm.trans at')
        subst cluster
        have heads := head_unique h.owned.formed (h.owned.heads _ ne').1 (h.owned.heads _ ne).1 chain chain' hx hy
        exact h.owned.apart _ _ heads ne'

end

end Inv

end invariant

/-! ### All histories -/

/-- A mounted volume: its files and its root directory have disjoint chains, and no inode is cached
yet. -/
structure Mounted (s : Store) : Prop where
  layout : Layout s.vol.info
  sectors : Sectors s.vol.info
  formed : WellFormed s.vol.info s.vol.table
  root : Head s.vol.info s.vol.table s.vol.info.rootCluster
  heads : ∀ slot e, s.entries slot = some e → e.firstCluster ≠ 0 →
    Head s.vol.info s.vol.table e.firstCluster ∧ e.firstCluster ≠ s.vol.info.rootCluster
  apart : ∀ slot slot' e e', s.entries slot = some e → s.entries slot' = some e' →
    e.firstCluster = e'.firstCluster → e.firstCluster ≠ 0 → slot = slot'
  empty : ∀ i, s.nodes i = none

theorem Mounted.inv (h : Mounted s) : Inv s fun slot => ((s.entries slot).map (·.firstCluster)).getD 0 := by
  have entry (slot : Nat) (ne : ((s.entries slot).map (·.firstCluster)).getD 0 ≠ 0) :
      ∃ e, s.entries slot = some e ∧ ((s.entries slot).map (·.firstCluster)).getD 0 = e.firstCluster := by
    cases there : s.entries slot with
    | none =>
      rw [there] at ne
      exact absurd rfl ne
    | some e => exact ⟨e, rfl, rfl⟩
  have none {P : Prop} {i : Nat} {n : Node} (node : s.nodes i = some n) : P := by
    rw [h.empty i] at node
    cases node
  refine ⟨⟨h.layout, h.sectors, h.formed, h.root, fun slot ne => ?_, fun slot slot' same ne => ?_⟩,
    fun _ _ node => none node, fun slot e there => ?_, fun _ _ node => none node, fun _ _ _ _ node => none node,
    fun _ _ node => none node⟩
  · obtain ⟨e, there, first⟩ := entry slot ne
    rw [first] at ne ⊢
    exact h.heads slot e there ne
  · obtain ⟨e, there, first⟩ := entry slot ne
    obtain ⟨e', there', first'⟩ := entry slot' (by rwa [← same])
    rw [first] at ne same
    exact h.apart slot slot' e e' there there' (same.trans first') ne
  · rw [there]
    exact .inl rfl

/-- In every history whose lookups never end at the inode of another file, in which a file is
removed only when its cached pages are clean and is not written to after that, no writeback modifies
a sector of another file. -/
theorem writeback_harmless (s₀ : Store) (mounted : Mounted s₀) (es : List (Store × Op)) (s : Store)
    (run : Run Calls s₀ es s) (meets : ∀ e ∈ es, Meets e.1 e.2) : ∀ e ∈ es, Harmless e.1 e.2 := by
  have kept := Run.invariant_of_guard (I := fun s => ∃ head, Inv s head) (G := Meets) ⟨_, mounted.inv⟩
    (fun s op s' ⟨head, inv⟩ met (called : Calls s op s') => by
      rw [called]
      exact inv.exec met) run meets
  intro e mem
  obtain ⟨head, inv⟩ := kept.2 e mem
  exact inv.harmless e.2

/-- A volume with one file of one cluster beside the root directory. -/
def smallStore : Store where
  vol := ⟨⟨1, 1, 3, 2, 512, 1, 2, 7, 0⟩, fun sector word =>
    if (sector = 1 ∨ sector = 2) ∧ word ≤ 3 then 0x0FFFFFF8#32 else 0, fun _ _ => 0⟩
  entries := fun slot => if slot = 0 then some ⟨3, 1⟩ else none
  nodes := fun _ => none
  count := 0

theorem smallStore_mounted : Mounted smallStore where
  layout := ⟨by decide, by decide, by decide, by decide, by decide⟩
  sectors := ⟨by decide, by decide⟩
  formed := wellFormed_of_last [2, 3] (by decide) (by decide) (by decide +kernel)
    (by decide +kernel) (by decide +kernel)
  root := by
    refine ⟨by decide, by decide +kernel, fun c hc leads => ?_⟩
    have search : ∀ c < 9, link smallStore.vol.info smallStore.vol.table c ≠ .next 2 := by decide +kernel
    exact search c hc.2 leads
  heads := by
    intro slot e there ne
    have first : e = ⟨3, 1⟩ := by
      rw [smallStore] at there
      dsimp only at there
      split at there <;> cases there
      rfl
    subst first
    refine ⟨⟨by decide, by decide +kernel, fun c hc leads => ?_⟩, by decide⟩
    have search : ∀ c < 9, link smallStore.vol.info smallStore.vol.table c ≠ .next 3 := by decide +kernel
    exact search c hc.2 leads
  apart := by
    intro slot slot' e e' there there' same ne
    simp only [smallStore, ite_none_right_eq_some] at there there'
    rw [there.1, there'.1]
  empty := fun _ => rfl

def after (s : Store) (ops : List Op) : Store := ops.foldl exec s

theorem write_meets {pos : Nat} {bytes : List Byte} (here : ((s.nodes i).all fun n => !n.removed) = true) :
    Meets s (.write i pos bytes) := by
  intro n node
  simpa [node] using here

theorem lookup_meets {e : Entry} (there : s.entries slot = some e)
    (fresh : s.see e.firstCluster = none) : FreshLookup s slot := by
  intro _ e' there'
  cases there.symm.trans there'
  exact fresh

/-- The file is written to and truncated, and another file is created and gets its cluster. -/
def truncating : List Op :=
  [.openFile 0 false, .write 0 0 [0xAA], .openFile 0 true, .create 1, .openFile 1 false, .write 1 0 [0xBB],
    .writeback 1 0 false, .writeback 0 0 true]

/-- The dirty page of a truncated file leaves the next owner of its cluster alone. -/
theorem truncated_file_harmless : ∃ es, Run Calls smallStore es (after smallStore truncating) ∧
    es.map Prod.snd = truncating ∧ (∀ e ∈ es, Harmless e.1 e.2) ∧
    (after smallStore truncating).entries 1 = some ⟨3, 1⟩ ∧ (after smallStore truncating).vol.disk 4 0 = 0xBB := by
  have meets : MeetsAll exec Meets smallStore truncating := by
    refine ⟨lookup_meets rfl (by decide +kernel), write_meets (by decide +kernel), ?_, trivial, ?_,
      write_meets (by decide +kernel), trivial, trivial, trivial⟩
    · intro missing
      have hit : (after smallStore (truncating.take 2)).cached 0 = some 0 := by decide +kernel
      cases hit.symm.trans missing
    · exact lookup_meets (e := ⟨0, 0⟩) (by decide +kernel) (by decide +kernel)
  obtain ⟨es, run, labels, all⟩ := exists_run_of_meetsAll Calls (fun _ _ _ => rfl) meets
  exact ⟨es, run, labels, writeback_harmless smallStore smallStore_mounted es _ run all, by decide +kernel,
    by decide +kernel⟩

/-- The file is opened, written to and removed, and another file is created and written to. -/
def reusing : List Op :=
  [.openFile 0 false, .write 0 0 [0xAA], .unlink 0, .create 1, .openFile 1 false, .write 1 0 [0xBB],
    .writeback 1 0 false]

/-- A dirty page of a removed file is written to the sector that the next file was given. -/
theorem removed_file_overwrites : ∃ es, Run Calls smallStore es (after smallStore reusing) ∧
    Mounted smallStore ∧ Owns (after smallStore reusing) 1 4 ∧
    (∃ n, (after smallStore reusing).nodes 0 = some n ∧ n.removed = true) ∧
    (after smallStore reusing).vol.disk 4 0 = 0xBB ∧
    ((after smallStore reusing).pageWriteback 0 0 true).vol.disk 4 0 = 0xAA ∧
    ¬ Harmless (after smallStore reusing) (.writeback 0 0 true) := by
  have entry : (after smallStore reusing).entries 1 = some ⟨3, 1⟩ := by decide +kernel
  have ends : link (after smallStore reusing).vol.info (after smallStore reusing).vol.table 3 = .last := by
    decide +kernel
  have owns : Owns (after smallStore reusing) 1 4 :=
    ⟨⟨3, 1⟩, [], 3, 0, entry, by decide, ends, by simp, by decide +kernel, by decide +kernel⟩
  have removed : ∃ n, (after smallStore reusing).nodes 0 = some n ∧ n.removed = true :=
    (any_eq_true ..).mp (by decide +kernel)
  have before : (after smallStore reusing).vol.disk 4 0 = 0xBB := by decide +kernel
  have overwritten : ((after smallStore reusing).pageWriteback 0 0 true).vol.disk 4 0 = 0xAA := by
    decide +kernel
  have called : MeetsAll exec (fun _ _ => True) smallStore reusing := by simp [MeetsAll, reusing]
  obtain ⟨es, run, -⟩ := exists_run_of_meetsAll Calls (fun _ _ _ => rfl) called
  refine ⟨es, run, smallStore_mounted, owns, removed, before, overwritten, fun harmless => ?_⟩
  obtain ⟨n, node, live, -⟩ := harmless 4 (fun same => by
    rw [same, before] at overwritten
    cases overwritten) 1 owns
  obtain ⟨n', node', gone⟩ := removed
  cases node.symm.trans node'
  rw [gone] at live
  cases live

end Jlos.Fat32.Reuse
