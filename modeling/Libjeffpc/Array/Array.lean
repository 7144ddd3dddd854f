import Libjeffpc.Errno
import Libjeffpc.Lib.Alloc

/-!
# Growable arrays (`array.c`)

The allocation of an array starts with a header of 24 bytes; `raw` are the bytes behind it. All sizes are
computed with the type `size_t`.
-/

namespace Libjeffpc.Growable

open Lib

/-- `struct array`. -/
structure Array where
  elemSize : UInt64
  elemCount : UInt64
  preallocated : UInt64
  raw : Bytes

/-- `sizeof(struct array)` -/
def headerSize : UInt64 := 24

def totalSize (elemSize count : UInt64) : UInt64 := headerSize + elemSize * count

/-- The offset of an element from `raw`. -/
def getPtr (array : Array) (idx : UInt64) : UInt64 := array.elemSize * idx

/-- What is behind the header in an allocation of `size` bytes. -/
def behindHeader (answer : Answer) (raw : Bytes) (size : UInt64) : Comp (Option Bytes) :=
  match answer with
  | none => pure none
  | some _ =>
    if size < headerSize then throw .bounds else pure (realloc answer raw (size.toNat - headerSize.toNat))

def arrayAlloc (answer : Answer) (elemSize preallocCount : UInt64) : Comp (Option Array) := do
  match ← behindHeader answer [] (totalSize elemSize preallocCount) with
  | none => pure none
  | some raw => pure (some ⟨elemSize, 0, preallocCount, raw⟩)

/-- `__array_truncate` from `clear` on. -/
def clearElems (array : Array) (newElemCount : UInt64) : Comp Array := do
  let raw ← clear array.raw (getPtr array array.elemCount).toNat
    (totalSize array.elemSize newElemCount - totalSize array.elemSize array.elemCount).toNat
  pure { array with raw, elemCount := newElemCount }

/-- `array_truncate`: what it returns, and the array. -/
def arrayTruncate (answer : Answer) (array : Array) (newElemCount : UInt64) : Comp (Except Errno Unit × Array) :=
  if newElemCount ≤ array.elemCount then
    -- shrinking or no change
    pure (.ok (), { array with elemCount := newElemCount })
  else if newElemCount ≤ array.preallocated then do
    -- growing into preallocated space
    return (.ok (), ← clearElems array newElemCount)
  else do
    -- grow the allocation
    match ← behindHeader answer array.raw (totalSize array.elemSize newElemCount) with
    | none => pure (.error .ENOMEM, array)
    | some raw => return (.ok (), ← clearElems { array with raw, preallocated := newElemCount } newElemCount)

def arraySize (array : Option Array) : UInt64 :=
  match array with
  | none => 0
  | some array => array.elemCount

/-- The user of an array writes the element `idx`. -/
def writeElem (array : Array) (idx : Nat) (v : Bytes) : Comp Array :=
  let off := array.elemSize.toNat * idx
  if off + v.length ≤ array.raw.length then
    pure { array with raw := array.raw.take off ++ v ++ array.raw.drop (off + v.length) }
  else throw .bounds

/-! ## Lists of elements -/

/-- `k` elements: those that are there already, and zeroes. -/
def resize (elemSize k : Nat) (l : List Bytes) : List Bytes :=
  l.take k ++ List.replicate (k - l.length) (List.replicate elemSize 0)

/-- The array holds these elements, and its allocation has room for them. -/
structure Represents (array : Array) (elemSize : UInt64) (l : List Bytes) : Prop where
  size_eq : array.elemSize = elemSize
  count_eq : (arraySize array).toNat = l.length
  elems : ∀ v ∈ l, v.length = elemSize.toNat
  room : elemSize.toNat * l.length ≤ array.raw.length
  contents : array.raw.take (elemSize.toNat * l.length) = l.flatten

/-- The total size is a `size_t`. -/
def Fits (elemSize count : UInt64) : Prop := headerSize.toNat + elemSize.toNat * count.toNat < 2 ^ 64

instance (elemSize count : UInt64) : Decidable (Fits elemSize count) :=
  inferInstanceAs (Decidable (headerSize.toNat + elemSize.toNat * count.toNat < 2 ^ 64))

/-- The arrays that come about when elements are written and arrays truncated to sizes that fit, with the
elements that are in them. -/
inductive Reachable (elemSize : UInt64) : Array → List Bytes → Prop
  | alloc {answer : Answer} {preallocCount : UInt64} {array : Array} (hfits : Fits elemSize preallocCount)
      (h : arrayAlloc answer elemSize preallocCount = pure (some array)) : Reachable elemSize array []
  | write {array array' : Array} {l : List Bytes} {i : Nat} {v : Bytes} (h : Reachable elemSize array l)
      (hi : i < l.length) (hv : v.length = elemSize.toNat) (hrun : writeElem array i v = pure array') :
      Reachable elemSize array' (l.set i v)
  | truncate {answer : Answer} {array array' : Array} {l : List Bytes} {k : UInt64}
      (h : Reachable elemSize array l) (hfits : Fits elemSize k)
      (hrun : arrayTruncate answer array k = pure (.ok (), array')) :
      Reachable elemSize array' (resize elemSize.toNat k.toNat l)
  | failed {answer : Answer} {array array' : Array} {l : List Bytes} {k : UInt64} {e : Errno}
      (h : Reachable elemSize array l) (hfits : Fits elemSize k)
      (hrun : arrayTruncate answer array k = pure (.error e, array')) : Reachable elemSize array' l

end Libjeffpc.Growable
