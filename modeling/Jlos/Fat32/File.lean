import Jlos.Fat32.Directory

/-!
# Contents of files

The loops of `fat32_read_inner` and `fat32_write_inner` over the pages of a file.
-/
namespace Jlos.Fat32

/-- The loop of `fat32_read_inner`; `done` bytes are read, and it stops at a page that cannot be
read. -/
def readLoop (vol : Volume) (pos count : Nat) : Nat → Nat → Mapping → List Byte × Mapping
  | 0, _, a => ([], a)
  | rounds + 1, done, a =>
    if done < count then
      let filePos := u32 (pos + done)
      let pageOff := filePos % 4096
      match pageGet vol a (filePos / 4096) with
      | none => ([], a)
      | some (page, a) =>
        let toCopy := min (4096 - pageOff) (count - done)
        let (rest, a) := readLoop vol pos count rounds (done + toCopy) a
        ((List.range toCopy).map (fun j => page.data (pageOff + j)) ++ rest, a)
    else ([], a)

/-- The bytes that `fat32_read_inner` returns, and the pages it leaves cached. -/
def readInner (vol : Volume) (a : Mapping) (size pos count : Nat) : List Byte × Mapping :=
  if size ≤ pos then ([], a)
  else
    let count := if size < u32 (pos + count) then size - pos else count
    readLoop vol pos count (count + 1) 0 a

/-- The loop of `fat32_write_inner` that extends the chain. -/
def advanceLoop (v : SbInfo) : Nat → Nat → Image → Bool × Image
  | 0, _, m => (true, m)
  | n + 1, cluster, m =>
    match clusterAdvance v m cluster with
    | (none, m) => (false, m)
    | (some next, m) => advanceLoop v n next m

/-- The loop of `fat32_write_inner` that copies the bytes into pages. -/
def writeLoop (vol : Volume) (pos : Nat) (bytes : List Byte) : Nat → Nat → Mapping → Bool × Mapping
  | 0, _, a => (true, a)
  | rounds + 1, done, a =>
    if done < bytes.length then
      let filePos := u32 (pos + done)
      let pageOff := filePos % 4096
      let toWrite := min (4096 - pageOff) (bytes.length - done)
      match pageWrite vol a (filePos / 4096) pageOff ((bytes.drop done).take toWrite) with
      | none => (false, a)
      | some a => writeLoop vol pos bytes rounds (done + toWrite) a
    else (true, a)

/-- The first cluster of a file that is written to. -/
def firstClusterFor (vol : Volume) (a : Mapping) : Option (Volume × Mapping) :=
  if a.firstCluster = 0 then
    (allocCluster vol.info vol.table).map fun (cluster, m) =>
      ({ vol with table := m }, { a with firstCluster := cluster })
  else some (vol, a)

/-- `fat32_write_inner` up to the new position of the file: the chain is extended, then the bytes
are copied. -/
def writeInner (vol : Volume) (a : Mapping) (pos : Nat) (bytes : List Byte) : Bool × Volume × Mapping :=
  let endPos := u32 (pos + bytes.length)
  if endPos < pos then (false, vol, a)
  else match firstClusterFor vol a with
    | none => (false, vol, a)
    | some (vol, a) =>
      let bpc := vol.info.bytesPerCluster
      let needClusters := u32 (endPos + bpc - 1) / bpc
      match advanceLoop vol.info (needClusters - 1) a.firstCluster vol.table with
      | (false, m) => (false, { vol with table := m }, a)
      | (true, m) =>
        let vol := { vol with table := m }
        let (done, a) := writeLoop vol pos bytes (bytes.length + 1) 0 a
        (done, vol, a)

end Jlos.Fat32
