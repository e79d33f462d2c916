import Mathlib

/-!
# The configured architectures

The constants of `hal/paging.h` and the sizes the compiler gives the allocators' headers,
for the three configurations of the kernel.
-/
namespace Jlos

inductive Arch
  | x86_64 | arm64 | i386
  deriving DecidableEq, Repr

namespace Arch

/-- The width of `size_t` and `uintptr_t`. -/
def wordBits : Arch → Nat
  | x86_64 | arm64 => 64
  | i386 => 32

/-- `sizeof(jlos_memory_chunk_t)`: four pointers, a `bool` and a `size_t`, rounded up to 16. -/
def chunkHeader : Arch → Nat
  | x86_64 | arm64 => 48
  | i386 => 32

/-- `sizeof(void *)` -/
def pointerSize : Arch → Nat
  | x86_64 | arm64 => 8
  | i386 => 4

/-- `sizeof(jlos_memory_slab_page_t)`: five pointers and three 32-bit fields. -/
def slabHeader : Arch → Nat
  | x86_64 | arm64 => 56
  | i386 => 32

def virtualBase : Arch → Nat
  | x86_64 => 0xFFFFFFFF80000000
  | arm64 => 0xFFFF800000000000
  | i386 => 0xC0000000

def directMapBase : Arch → Nat
  | x86_64 => 0xFFFF800000000000
  | arm64 => 0xFFFF000000000000
  | i386 => 0xC0000000

def directMapSize : Arch → Nat
  | x86_64 => 0x8000000000
  | arm64 => 0x100000000
  | i386 => 0x38000000

def heapVirtBase : Arch → Nat
  | x86_64 => 0xFFFFFFFF00000000
  | arm64 => 0xFFFF800200000000
  | i386 => 0xF8000000

def userSpaceLimit : Arch → Nat
  | x86_64 => 0x800000000000
  | arm64 => 0x1000000000000
  | i386 => 0xC0000000

end Arch

/-- An architecture and the value its compiled code gets from `__builtin_clz(0)`, which C
leaves undefined. -/
structure Machine where
  arch : Arch
  clzZero : Int

end Jlos
