import Libjeffpc.Buffer.Reader
import Libjeffpc.Cbor.Grammar
import Libjeffpc.Cbor.Unpack

/-!
# The unpacking functions as one family

The functions of `cbor.h` that promise not to change the buffer when they fail, what each of them
returns, and which bytes it consumes when it succeeds.
-/

namespace Libjeffpc.Cbor

open Lib

inductive Entry where
  | uint
  | nint
  | int
  | cstrLen
  | str
  | bool
  | null
  | break
  | mapStart
  | mapEnd (endRequired : Bool)
  | arrayStart
  | arrayEnd (endRequired : Bool)
  | val
  deriving DecidableEq, Repr

namespace Entry

/-- The type of what is returned besides the error number. -/
abbrev Result : Entry → Type
  | uint | nint => UInt64
  | int => Int64
  | cstrLen => Bytes
  | str => CStr
  | bool => Bool
  | null | «break» | mapEnd _ | arrayEnd _ => Unit
  | mapStart | arrayStart => UInt64 × Bool
  | val => Val

def call (m : Machine) : (e : Entry) → BufM e.Result
  | uint => cborUnpackUint
  | nint => cborUnpackNint
  | int => cborUnpackInt
  | cstrLen => cborUnpackCstrLen m
  | str => cborUnpackStr m
  | bool => cborUnpackBool
  | null => cborUnpackNull
  | «break» => cborUnpackBreak
  | mapStart => cborUnpackMapStart
  | mapEnd endRequired => cborUnpackMapEnd endRequired
  | arrayStart => cborUnpackArrayStart
  | arrayEnd endRequired => cborUnpackArrayEnd endRequired
  | val => cborUnpackVal m

/-- The bytes that a function consumes, with its result. -/
def Consumes : (e : Entry) → Bytes → e.Result → Prop
  | uint, bs, v => Head .uint bs v.toNat
  | nint, bs, v => Head .nint bs v.toNat
  | int, bs, _ => ∃ v, Head .uint bs v ∨ Head .nint bs v
  | cstrLen, bs, payload => Text bs payload
  | str, bs, s => ∃ payload, Text bs payload ∧ s = cstr payload
  | bool, bs, v => bs = [typeByte .float (if v then 21 else 20)]
  | null, bs, _ => bs = [typeByte .float 22]
  | «break», bs, _ => bs = [breakByte]
  | mapStart, bs, r => Start .map bs r
  | mapEnd endRequired, bs, _ => bs = if endRequired then [breakByte] else []
  | arrayStart, bs, r => Start .array bs r
  | arrayEnd endRequired, bs, _ => bs = if endRequired then [breakByte] else []
  | val, bs, v => DataItem bs v

/-- What `cbor.h` promises: an error leaves the buffer as it was, and a success moves the offset over
the item, and changes nothing else. -/
def Promise (m : Machine) (e : Entry) (s : BufferState) : Prop :=
  Triple (e.call m) s (AllOrNothing s.buffer fun bs _ a => e.Consumes bs a)

/-- The string is read and its memory is there, but not the memory of the value. -/
def LosesText (m : Machine) (s : BufferState) : Prop :=
  ∃ bs t payload, s.buffer.rest = bs ++ t ∧ Text bs payload ∧
    m.grants s.allocs (.bytes (payload.length + 1)) = true ∧
    getPreallocated (cstr payload) = false ∧ m.grants (s.allocs + 1) .val = false

end Entry

/-- What `cbor_unpack_int` is to do with the integer `v`, encoded in `n` bytes at the offset: return it, or
report that it has no place in 64 bits and leave the bytes there. -/
def DecodesInt (b : Buffer) (k n : Nat) (v : Int) : Prop :=
  (-2 ^ 63 ≤ v ∧ v < 2 ^ 63 →
    ∃ i s, Returns cborUnpackInt ⟨b, k⟩ (.ok i) s ∧ i.toInt = v ∧ s.buffer = b.advance n) ∧
  (v < -2 ^ 63 ∨ 2 ^ 63 ≤ v → ∃ s, Returns cborUnpackInt ⟨b, k⟩ (.error .EOVERFLOW) s ∧ s.buffer = b)

/-- There is a text string with these bytes at the offset. -/
def TextAt (b : Buffer) (payload : Bytes) : Prop := ∃ bs t, b.rest = bs ++ t ∧ Text bs payload

/-- Whatever reads the text string, as a string, a value or the name of a pair, and succeeds, has all of
its bytes. -/
structure KeepsText (b : Buffer) (payload : Bytes) : Prop where
  str : ∀ m k s st, Returns (cborUnpackStr m) ⟨b, k⟩ (.ok s) st → s.1 = payload
  val : ∀ m k v st, Returns (cborUnpackVal m) ⟨b, k⟩ (.ok v) st → ∃ s : CStr, v = .str s ∧ s.1 = payload
  key : ∀ m k nvl nvl' st, Returns (unpackCborPair m nvl) ⟨b, k⟩ (.ok nvl') st →
    ∃ (name : CStr) (value : Val), name.1 = payload ∧ nvl' = nvSet nvl name value

/-- The first pairs of two maps get different names. -/
def KeepsApart (b b' : Buffer) : Prop :=
  ∀ m m' k k' nvl nvl' st st', Returns (unpackCborPair m []) ⟨b, k⟩ (.ok nvl) st →
    Returns (unpackCborPair m' []) ⟨b', k'⟩ (.ok nvl') st' →
    ∀ name, (nvl.lookup name).isSome → nvl'.lookup name = none

/-- `read_cbor_type` followed by `get_addl_bytes`. -/
def readHead : BufM (MajorType × UInt64) := do
  let (type, extra) ← readCborType
  return (type, ← getAddlBytes extra)

/-- The head that has no shorter one, nor another one of the same length. -/
structure Shortest (type : MajorType) (n : Nat) (p : Bytes) : Prop where
  head : Head type p n
  unique (q : Bytes) (h : Head type q n) : q = p ∨ p.length < q.length
  length : p.length ∈ [1, 2, 3, 5, 9]

end Libjeffpc.Cbor
