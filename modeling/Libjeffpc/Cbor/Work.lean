import Libjeffpc.Array.MemArray
import Libjeffpc.Cbor.Grammar
import Libjeffpc.Cbor.Unpack

/-!
# What unpacking a value costs (`fmt_cbor.c`)

The functions that read values once more, with an account of their work: how often `unpack_cbor_val` is
called, how long the loops of the clean-up are, and whether an element is stored or looked at behind the end
of the memory that its array has. The build may have the `reallocarray` and the `recallocarray` of the C
library, or those of `mem_array.c`.

What follows an access outside of the memory is not the program's any more: the account keeps that there was
one, and says nothing else about such a run.
-/

namespace Libjeffpc.Cbor

open Lib

/-- Whose `reallocarray` and `recallocarray` these are. -/
inductive Helpers where
  | libc
  | fallback
  deriving DecidableEq, Repr

/-- How many bytes are asked for; the C library checks the multiplication. -/
def Helpers.arrayBytes : Helpers → Nat → Nat → Option Nat
  | libc, nelem, size => if nelem * size > sizeMax then none else some (nelem * size)
  | fallback, nelem, size => some (MemArray.arrayBytes (.ofNat nelem) (.ofNat size))

/-- How many bytes an array has that `mem_reallocarray` has made longer element by element. -/
def Helpers.grownBytes (h : Helpers) (nelem : Nat) : Nat := (h.arrayBytes nelem ptrSize).getD 0

structure Work where
  /-- The calls of `unpack_cbor_val`. -/
  calls : Nat
  /-- The rounds of the longest loop that takes an array apart. -/
  rounds : Nat
  /-- An element has been stored behind the end of its array. -/
  overrun : Bool
  /-- An array has been taken apart that is shorter than its length says. -/
  strayed : Bool
  deriving DecidableEq, Repr

def Work.zero : Work := ⟨0, 0, false, false⟩

/-- Nothing has been touched outside of the memory of an array. -/
def Work.InBounds (w : Work) : Prop := w.overrun = false ∧ w.strayed = false

/-- The account after `arr[i] = elem`, where `len` bytes have been allocated for `arr`. -/
def Work.stored (w : Work) (len i : Nat) : Work :=
  { w with overrun := w.overrun || decide (len < (i + 1) * ptrSize) }

/-- The account after the loop that calls `val_putref` for `nelem` elements in `len` bytes. The elements that
have not been stored are NULL, which `val_putref` takes. -/
def Work.cleaned (w : Work) (len nelem : Nat) : Work :=
  if len < nelem * ptrSize then { w with strayed := true } else { w with rounds := max w.rounds nelem }

/-- A function that works on a buffer, with the account of what is done. -/
abbrev WorkM := Proc (BufferState × Work) Errno

namespace Work

/-- A function that reads no values adds nothing to the account. -/
def quiet {α : Type} (f : BufM α) : WorkM α := do
  let (s, w) ← get
  let (r, s') ← (StateT.run (ExceptT.run f) s : Comp _)
  set (s', w)
  match r with
  | .ok a => return a
  | .error e => throw e

/-- `unpack_cbor_val` is called. -/
def call : WorkM Unit := modify fun (s, w) => (s, { w with calls := w.calls + 1 })

/-- `arr[i] = elem`. -/
def storeElem (len i : Nat) : WorkM Unit := modify fun (s, w) => (s, w.stored len i)

/-- The label `err` of `unpack_cbor_array`, and that of `__val_alloc_array`. -/
def err {α : Type} (len nelem : Nat) (ret : Errno) : WorkM α := do
  modify fun (s, w) => (s, w.cleaned len nelem)
  throw ret

/-- What a function returns, as a value. -/
abbrev outcome {α : Type} (f : WorkM α) : WorkM (Except Errno α) :=
  (Functor.map Except.ok (ExceptT.run f) : StateT (BufferState × Work) Comp _)

/-- `if (ret) goto err;` behind the call of a function. -/
abbrev orErr {α : Type} (len nelem : Nat) (f : WorkM α) : WorkM α := do
  match ← outcome f with
  | .ok a => return a
  | .error ret => err len nelem ret

/-- `mem_reallocarray` and `mem_recallocarray`: how many bytes the array has. -/
def memReallocarray (h : Helpers) (m : Machine) (nelem size : Nat) : BufM (Option Nat) :=
  match h.arrayBytes nelem size with
  | none => pure none
  | some len => do if ← request m (.bytes len) then return some len else return none

variable (h : Helpers) (m : Machine)

/-- The end of `unpack_cbor_array`, with `val_alloc_array`. -/
def finishArray (endRequired : Bool) (len : Nat) (arr : List Val) : WorkM Val := do
  orErr len arr.length (quiet (cborUnpackArrayEnd endRequired))
  orErr len arr.length (quiet (valAlloc m (.array arr)))

mutual

def unpackCborVal : WorkM Val := do
  call
  match ← quiet cborPeekType with
  | .null => quiet unpackCborNull
  | .int => quiet (unpackCborUint m)
  | .str => return .str (← quiet (unpackCborStr m))
  | .sym => throw .ENOTSUP
  | .bool => quiet unpackCborBool
  | .cons => throw .ENOTSUP
  | .char => throw .ENOTSUP
  | .blob => quiet (unpackCborBlob m)
  | .array => (by apply unpackCborArray : WorkM Val)
  | .nvl => (by apply unpackCborNvl : WorkM Val)
partial_fixpoint

def unpackCborArray : WorkM Val := do
  let (nelem, endRequired) ← quiet cborUnpackArrayStart
  if endRequired then
    let arr ← (by apply unpackIndefElems : List Val → WorkM (List Val)) []
    finishArray m endRequired (h.grownBytes arr.length) arr
  else
    if nelem.toNat > sizeMax then throw .ENOMEM
    match ← quiet (memReallocarray h m nelem.toNat ptrSize) with
    | some len =>
      let arr ← (by apply unpackDefElems : _ → _ → _ → WorkM (List Val)) len 0 nelem.toNat
      finishArray m endRequired len arr
    | none => throw .ENOMEM
partial_fixpoint

/-- The loop for an array of indefinite length, with the elements that are there already. -/
def unpackIndefElems (arr : List Val) : WorkM (List Val) := do
  match ← quiet cborPeekBreak with
  | .ok () => return arr
  | .error .EILSEQ =>
    let elem ← orErr (h.grownBytes arr.length) arr.length (by apply unpackCborVal : WorkM Val)
    match ← quiet (memReallocarray h m (arr.length + 1) ptrSize) with
    | some len =>
      storeElem len arr.length
      (by apply unpackIndefElems : _ → WorkM _) (arr ++ [elem])
    | none => err (h.grownBytes arr.length) arr.length .ENOMEM
  | .error ret => err (h.grownBytes arr.length) arr.length ret
partial_fixpoint

/-- The loop for an array of definite length: the index, and the elements that are still to come. -/
def unpackDefElems (len i nelem : Nat) : WorkM (List Val) := do
  match nelem with
  | 0 => return []
  | nelem + 1 =>
    let elem ← orErr len (i + (nelem + 1)) (by apply unpackCborVal : WorkM Val)
    storeElem len i
    return elem :: (← (by apply unpackDefElems : _ → _ → _ → WorkM _) len (i + 1) nelem)
partial_fixpoint

/-- `__unpack_cbor_pair`. -/
def unpackCborPair (nvl : List (CStr × Val)) : WorkM (List (CStr × Val)) := do
  let name ← quiet (unpackCborStr m)
  let value ← (by apply unpackCborVal : WorkM Val)
  quiet (nvlSetPair m nvl name value)
partial_fixpoint

def unpackCborNvl : WorkM Val := do
  let (npairs, endRequired) ← quiet cborUnpackMapStart
  if ← quiet (request m .val) then
    if endRequired then
      let nvl ← (by apply unpackIndefPairs : List (CStr × Val) → WorkM (List (CStr × Val))) []
      quiet (cborUnpackMapEnd endRequired)
      return .nvl nvl
    else
      if npairs.toNat > sizeMax then throw .ENOMEM
      let nvl ← (by apply unpackDefPairs : Nat → List (CStr × Val) → WorkM (List (CStr × Val))) npairs.toNat []
      quiet (cborUnpackMapEnd endRequired)
      return .nvl nvl
  else throw .ENOMEM
partial_fixpoint

/-- The loop for a map of indefinite length. -/
def unpackIndefPairs (nvl : List (CStr × Val)) : WorkM (List (CStr × Val)) := do
  match ← quiet cborPeekBreak with
  | .ok () => return nvl
  | .error .EILSEQ => (by apply unpackIndefPairs : _ → WorkM _) (← (by apply unpackCborPair : _ → WorkM _) nvl)
  | .error e => throw e
partial_fixpoint

/-- The loop for a map of definite length. -/
def unpackDefPairs (npairs : Nat) (nvl : List (CStr × Val)) : WorkM (List (CStr × Val)) := do
  match npairs with
  | 0 => return nvl
  | npairs + 1 => (by apply unpackDefPairs : _ → _ → WorkM _) npairs (← (by apply unpackCborPair : _ → WorkM _) nvl)
partial_fixpoint

end

/-- An element is stored behind the end of its array while the value at the offset is read. -/
def Overran (s : BufferState) : Prop :=
  ∃ r s' w, Returns (unpackCborVal h m) (s, zero) r (s', w) ∧ w.overrun = true

/-- Reading the value at the offset touches something outside of the memory of an array. -/
def Strays (s : BufferState) : Prop :=
  ∃ r s' w, Returns (unpackCborVal h m) (s, zero) r (s', w) ∧ ¬w.InBounds

/-- Reading the value at the offset ends. There is at most one call of `unpack_cbor_val` for every byte, and one
more for an error; what is read takes at least one byte; and no loop that takes an array apart is longer than
`limit`. -/
def Bounded (limit : Nat) (b : Buffer) (k : Nat) : Prop :=
  ∃ r s w, Returns (unpackCborVal h m) (⟨b, k⟩, zero) r (s, w) ∧ w.InBounds ∧ w.rounds ≤ limit ∧
    w.calls ≤ b.rest.length + 1 ∧ ∀ v, r = .ok v → ∃ bs t, b.rest = bs ++ t ∧
      s.buffer = b.advance bs.length ∧ 1 ≤ bs.length ∧ w.calls ≤ bs.length

end Work

/-! ## Lengths that are claimed -/

/-- How many elements the memory has room for that `mem_recallocarray` of `mem_array.c` asks for, of `n`
elements. -/
def fallbackRoom (n : Nat) : Nat := n % 2 ^ 61

/-- An array of `n` elements can get memory. -/
def Helpers.Holds (h : Helpers) (n : Nat) : Prop :=
  HasRoom (fallbackRoom n) ∧ (fallbackRoom n = n ∨ h = .fallback)

/-- An item whose arrays fit in memory. -/
abbrev RoomyItem : Bytes → Val → Prop := Item HasRoom

/-- Items whose arrays fit in memory, and their meanings. -/
def RoomyItems (items : List (Bytes × Val)) : Prop := ∀ x ∈ items, RoomyItem x.1 x.2

/-- An array that starts so can get memory for its elements, of which there are `k` already, and has another
one. -/
def StartRoom (h : Helpers) (r : UInt64 × Bool) (k : Nat) : Prop :=
  if r.2 then HasRoom k else h.Holds r.1.toNat ∧ k < r.1.toNat

/-- `Claims h P bs`: somewhere in the value at the start of `bs`, behind complete items only, there is the head
of an array of definite length that can get memory, and `P` of its length and of the bytes behind its head. -/
inductive Claims (h : Helpers) (P : Nat → Bytes → Prop) : Bytes → Prop
  | here {hd t : Bytes} {n : Nat} (hh : Head .array hd n) (hholds : h.Holds n) (hP : P n t) : Claims h P (hd ++ t)
  | elem {hd bs : Bytes} {r : UInt64 × Bool} (items : List (Bytes × Val)) (hh : Start .array hd r)
      (hroom : StartRoom h r items.length) (hitems : RoomyItems items) (hbs : Claims h P bs) :
      Claims h P (hd ++ ((items.map Prod.fst).flatten ++ bs))
  | value {hd name payload bs : Bytes} {r : UInt64 × Bool} (pairs : List PairItem) (hh : Start .map hd r)
      (hlen : r.2 = false → pairs.length < r.1.toNat) (hnames : ∀ p ∈ pairs, Text p.nameBytes p.name)
      (hvalues : ∀ p ∈ pairs, RoomyItem p.valueBytes p.value) (hname : Text name payload)
      (hbs : Claims h P bs) : Claims h P (hd ++ ((pairs.map PairItem.bytes).flatten ++ (name ++ bs)))

/-- So many elements that the multiplication by their size does not fit in a `size_t`. -/
def Huge (n : Nat) (_ : Bytes) : Prop := 2 ^ 61 ≤ n

/-- More elements than the memory has room for are there. -/
def Overfull (n : Nat) (t : Bytes) : Prop := Huge n t ∧ ∃ items t', RoomyItems items ∧
  items.length = fallbackRoom n + 1 ∧ t = (items.map Prod.fst).flatten ++ t'

/-- More elements than `limit`, or so many that the multiplication does not fit. -/
def Beyond (limit n : Nat) (t : Bytes) : Prop := limit < n ∨ Huge n t

end Libjeffpc.Cbor
