import Mathlib

/-!
# File names in directory entries

A shallow embedding of the functions of `fs/fat32.c` that pack names into directory entries and read
them back. A directory entry is 32 raw bytes, read as `jlos_fat32_dirent_t` or as
`jlos_fat32_lfn_entry_t`; a C string is the list of its bytes before the terminator.
-/
namespace Jlos.Fat32

open Function

abbrev Byte := BitVec 8

def nameMax : Nat := 255

/-- The C string in the first `n` bytes of a buffer. -/
def cstr (buf : Nat → Byte) (n : Nat) : List Byte := ((List.range n).map buf).takeWhile (· ≠ 0)

/-! ### Characters -/

def islower (c : Byte) : Bool := 0x61 ≤ c.toNat && c.toNat ≤ 0x7A

def isupper (c : Byte) : Bool := 0x41 ≤ c.toNat && c.toNat ≤ 0x5A

def isalnum (c : Byte) : Bool := islower c || isupper c || (0x30 ≤ c.toNat && c.toNat ≤ 0x39)

def tolower (c : Byte) : Byte := if isupper c then c + 0x20 else c

def toupper (c : Byte) : Byte := if islower c then c - 0x20 else c

def nameCharLegal (c : Byte) : Bool := isalnum c || c = 0x5F || c = 0x2D

def dot : Byte := 0x2E

def nameFill : Byte := 0x20

/-! ### Directory entries -/

abbrev Dirent := Nat → Byte

namespace Dirent

def zero : Dirent := fun _ => 0

def attributes (de : Dirent) : Byte := de 11

/-- Bit `0x08` of `reserved` says that the name is in lower case, bit `0x10` that the extension
is. -/
def reserved (de : Dirent) : Byte := de 12

def word (de : Dirent) (offset : Nat) : Nat := (de offset).toNat + 256 * (de (offset + 1)).toNat

def setWord (de : Dirent) (offset value : Nat) : Dirent := fun j =>
  if j = offset then BitVec.ofNat 8 value else if j = offset + 1 then BitVec.ofNat 8 (value / 256) else de j

/-- The first cluster of the file, from `first_cluster_hi` and `first_cluster_low`. -/
def firstCluster (de : Dirent) : Nat := de.word 20 * 2 ^ 16 + de.word 26

def setFirstCluster (de : Dirent) (cluster : Nat) : Dirent :=
  (de.setWord 26 (cluster % 2 ^ 16)).setWord 20 (cluster / 2 ^ 16)

def size (de : Dirent) : Nat := de.word 28 + de.word 30 * 2 ^ 16

def setSize (de : Dirent) (size : Nat) : Dirent := (de.setWord 28 (size % 2 ^ 16)).setWord 30 (size / 2 ^ 16)

/-- `JLOS_FAT32_DIRENT_END` -/
def isEnd (de : Dirent) : Bool := de 0 = 0x00

/-- `JLOS_FAT32_DIRENT_DELETED` -/
def isDeleted (de : Dirent) : Bool := de 0 = 0xE5

def isFree (de : Dirent) : Bool := de.isEnd || de.isDeleted

/-- The entry has all the bits of `JLOS_FAT32_ATTR_LFN`. -/
def isLfn (de : Dirent) : Bool := de.attributes &&& 0x0F = 0x0F

/-- `JLOS_FAT32_ATTR_DIRECTORY` -/
def isDirectory (de : Dirent) : Bool := de.attributes &&& 0x10 ≠ 0

end Dirent

def nameToStr (de : Dirent) : List Byte :=
  let nameLower := de.reserved &&& 0x08 ≠ 0
  let extLower := de.reserved &&& 0x10 ≠ 0
  let base := ((List.range 8).map de).filter (· ≠ 0x20)
  let ext := ((List.range 3).map fun i => de (8 + i)).filter (· ≠ 0x20)
  let base := base.map fun c => if nameLower then tolower c else c
  let ext := ext.map fun c => if extLower then tolower c else c
  (base ++ if ext.isEmpty then [] else dot :: ext).takeWhile (· ≠ 0)

/-! ### Long names -/

/-- The place of a character of a long-name entry: five in `name0`, six in `name1` and two in
`name2`. -/
def lfnCharOffset (i : Nat) : Nat := if i < 5 then 1 + 2 * i else if i < 11 then 14 + 2 * (i - 5) else 28 + 2 * (i - 11)

def lfnGetChar (lfn : Dirent) (i : Nat) : Nat := lfn.word (lfnCharOffset i)

def lfnSetChar (lfn : Dirent) (i value : Nat) : Dirent := lfn.setWord (lfnCharOffset i) value

/-- The loop of `fat32_lfn_extract` over the characters from `i`; a terminator ends the function. -/
def lfnExtractLoop (lfn : Dirent) (base : Nat) : Nat → Nat → (Nat → Byte) → Bool × (Nat → Byte)
  | 0, _, buf => (false, buf)
  | left + 1, i, buf =>
    let ch := lfnGetChar lfn i
    if ch = 0 ∨ ch = 0xFFFF then (true, update buf (base + i) 0)
    else lfnExtractLoop lfn base left (i + 1)
      (if base + i < nameMax then update buf (base + i) (BitVec.ofNat 8 ch) else buf)

def lfnExtract (lfn : Dirent) (buf : Nat → Byte) : Nat → Byte :=
  let seq := (lfn 0 &&& 0x1F).toNat
  if seq = 0 ∨ 20 < seq then buf
  else
    let base := (seq - 1) * 13
    match lfnExtractLoop lfn base 13 0 buf with
    | (true, buf) => buf
    | (false, buf) =>
      if lfn 0 &&& 0x40 ≠ 0 ∧ base + 13 < nameMax then update buf (base + 13) 0 else buf

def lfnChecksum (de : Dirent) : Byte :=
  (List.range 11).foldl (fun sum i => ((sum &&& 1) <<< 7) + (sum >>> 1) + de i) 0

/-- The number of long-name entries of a name. -/
def lfnCount (name : List Byte) : Nat := max 1 ((name.length + 12) / 13)

/-- The character that `fat32_lfn_build` stores for a position of the name. -/
def lfnChar (name : List Byte) (idx : Nat) : Nat :=
  if idx < name.length then (name.getD idx 0).toNat else if idx = name.length then 0 else 0xFFFF

/-- The `n`-th entry of `fat32_lfn_build`. -/
def lfnEntry (name : List Byte) (checksum : Byte) (n : Nat) : Dirent :=
  let seq := if n = lfnCount name - 1 then BitVec.ofNat 8 (n + 1) ||| 0x40 else BitVec.ofNat 8 (n + 1)
  let lfn : Dirent := fun j => if j = 0 then seq else if j = 11 then 0x0F else if j = 13 then checksum else 0
  (List.range 13).foldl (fun lfn i => lfnSetChar lfn i (lfnChar name (n * 13 + i))) lfn

/-! ### Short names -/

/-- The position of the only dot of a name in the form of `fat32_name_need_lfn` and
`fat32_name_to_83`, which reject a second dot, a dot in front and other characters: `none` if they
do. -/
def splitDot (name : List Byte) : Option (List Byte × Option (List Byte)) :=
  let base := name.takeWhile (· ≠ dot)
  let rest := name.dropWhile (· ≠ dot)
  if base.all nameCharLegal then
    match rest with
    | [] => some (base, none)
    | _ :: ext => if base.isEmpty || !ext.all nameCharLegal then none else some (base, some ext)
  else none

/-- A part of a name with letters of both cases. -/
def mixedCase (part : List Byte) : Bool := part.any isupper && part.any islower

def nameNeedLfn (name : List Byte) : Bool :=
  match splitDot name with
  | none => true
  | some (base, ext) =>
    let ext := ext.getD []
    name.isEmpty || 8 < base.length || 3 < ext.length || mixedCase base || mixedCase ext

/-- The bytes of a name and an extension, filled up with blanks, in front of an entry. -/
def Dirent.setName (de : Dirent) (base ext : List Byte) : Dirent := fun j =>
  if j < 8 then base.getD j nameFill else if j < 11 then ext.getD (j - 8) nameFill else de j

def nameTo83 (name : List Byte) (de : Dirent) : Option Dirent :=
  match splitDot name with
  | none => none
  | some (base, ext) =>
    let ext := ext.getD []
    if name.isEmpty || 12 < name.length || 8 < base.length || 3 < ext.length then none
    else
      let flags : Byte := (if base.all islower then 0x08 else 0) ||| (if ext.all islower then 0x10 else 0)
      some (update (de.setName (base.map toupper) (ext.map toupper)) 12 flags)

/-- `fat32_generate_short_name`: six characters before the last dot and `~1`, three characters after
it. -/
def generateShortName (name : List Byte) (de : Dirent) : Dirent :=
  let ext := (name.reverse.takeWhile (· ≠ dot)).reverse
  let hasDot := name.contains dot
  let base := if hasDot then name.take (name.length - ext.length - 1) else name
  de.setName ((base.take 6).map toupper ++ [0x7E, 0x31]) (if hasDot then (ext.take 3).map toupper else [])

end Jlos.Fat32
