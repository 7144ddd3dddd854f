import Libjeffpc.Buffer.Output
import Libjeffpc.Cbor.Grammar

/-!
# What the CBOR functions write

The pieces that `cbor_pack_val` appends for a value. They do not depend on the machine.
-/

namespace Libjeffpc.Cbor

open Lib

def outputHead (type : MajorType) (v : UInt64) : Output :=
  if v ≤ 23 then .chunk [typeByte type v.toNat]
  else if v ≤ 0xff then ⟨[[typeByte type 24], beBytes 1 v.toNat], none⟩
  else if v ≤ 0xffff then ⟨[[typeByte type 25], beBytes 2 v.toNat], none⟩
  else if v ≤ 0xffffffff then ⟨[[typeByte type 26], beBytes 4 v.toNat], none⟩
  else ⟨[[typeByte type 27], beBytes 8 v.toNat], none⟩

/-- A string of bytes or of text. -/
def outputString (type : MajorType) (bytes : Bytes) : Output :=
  (outputHead type (.ofNat bytes.length)).andThen (.chunk bytes)

/-- The start of an array or a map. -/
def outputStart (type : MajorType) (nelem : UInt64) : Output :=
  if nelem ≠ cborUnknownNelem then outputHead type nelem else .chunk [typeByte type 31]

/-- The end of an array or a map. -/
def outputEnd (nelem : UInt64) : Output :=
  if nelem ≠ cborUnknownNelem then .done else .chunk [breakByte]

mutual

def output : Val → Output
  | .null => outputHead .float 22
  | .int i => outputHead .uint i
  | .str s => outputString .text s.1
  | .sym _ => .fail .ENOTSUP
  | .bool b => outputHead .float (if b then 21 else 20)
  | .nil => .fail .ENOTSUP
  | .cons _ _ => .fail .ENOTSUP
  | .char _ => .fail .ENOTSUP
  | .blob bytes => outputString .byte bytes
  | .array vals =>
    (outputStart .array (.ofNat vals.length)).andThen
      ((outputElems vals).andThen (outputEnd (.ofNat vals.length)))
  | .nvl pairs =>
    (outputStart .map (.ofNat pairs.length)).andThen
      ((outputPairs pairs).andThen (outputEnd (.ofNat pairs.length)))

def outputElems : List Val → Output
  | [] => .done
  | v :: vals => (output v).andThen (outputElems vals)

def outputPairs : List (CStr × Val) → Output
  | [] => .done
  | (name, value) :: pairs =>
    (outputString .text name.1).andThen ((output value).andThen (outputPairs pairs))

end

end Libjeffpc.Cbor
