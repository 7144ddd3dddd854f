import Libjeffpc.Lib.Alloc

/-!
# Allocating arrays (`mem_array.c`)

The helpers of a build without the `reallocarray` and the `recallocarray` of the C library. Both multiply
with the type `size_t`.
-/

namespace Libjeffpc.MemArray

open Lib

/-- How many bytes `realloc` is asked for. -/
def arrayBytes (nelem size : UInt64) : Nat := (nelem * size).toNat

def memReallocarray (answer : Answer) (ptr : Bytes) (nelem size : UInt64) : Option Bytes :=
  realloc answer ptr (arrayBytes nelem size)

def memRecallocarray (answer : Answer) (ptr : Bytes) (oldNelem newNelem size : UInt64) : Comp (Option Bytes) :=
  let oldSize := size * oldNelem
  let newSize := size * newNelem
  match memReallocarray answer ptr newNelem size with
  | none => pure none
  | some tmp =>
    if newNelem > oldNelem then do return some (← clear tmp oldSize.toNat (newSize - oldSize).toNat)
    else pure (some tmp)

/-- What the C library promises of `reallocarray`: NULL, or room for all elements. -/
def RoomFor (r : Option Bytes) (nelem size : UInt64) : Prop :=
  ∀ block, r = some block → nelem.toNat * size.toNat ≤ block.length

/-- What it promises of `recallocarray`: the room behind the old elements is zeroed as well. -/
def ZeroedFor (r : Comp (Option Bytes)) (oldNelem newNelem size : UInt64) : Prop :=
  ∃ block, r = pure block ∧ RoomFor block newNelem size ∧ ∀ tmp, block = some tmp →
    ∀ i, oldNelem.toNat * size.toNat ≤ i → i < newNelem.toNat * size.toNat → tmp[i]? = some 0

end Libjeffpc.MemArray
