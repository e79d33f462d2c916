import Jlos.Lib.Bytes

/-!
# Bytes of a packet

The packed headers of the network code are read in place. Memory is a function from offsets, so that
a read past the end of a packet gives what lies behind it.
-/
namespace Jlos.Net

open Lib

abbrev Byte := BitVec 8

def le16 (data : Nat → Byte) (i : Nat) : BitVec 16 := ofBytes 16 (fun j => data (i + j)) 2

def le32 (data : Nat → Byte) (i : Nat) : BitVec 32 := ofBytes 32 (fun j => data (i + j)) 4

def swapEndian16 (x : BitVec 16) : BitVec 16 := byteOf x 0 ++ byteOf x 1

theorem swapEndian16_swapEndian16 (x : BitVec 16) : swapEndian16 (swapEndian16 x) = x := by
  unfold swapEndian16 byteOf
  ext i lt
  simp
  grind

def swapEndian32 (x : BitVec 32) : BitVec 32 := byteOf x 0 ++ byteOf x 1 ++ byteOf x 2 ++ byteOf x 3

end Jlos.Net
