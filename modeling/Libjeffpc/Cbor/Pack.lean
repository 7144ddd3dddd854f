import Libjeffpc.Buffer.Buffer
import Libjeffpc.Int.ByteOrder
import Libjeffpc.Val.Val

/-!
# Packing CBOR (`fmt_cbor.c`)

A data item starts with a byte that holds the major type in its upper three bits and additional
information in the lower five: a small argument, or how many bytes of argument follow.
-/

namespace Libjeffpc.Cbor

open Lib Libjeffpc.Int

/-- `enum major_type`. -/
inductive MajorType where
  | uint
  | nint
  | byte
  | text
  | array
  | map
  | tag
  | float
  deriving DecidableEq, Repr

def MajorType.code : MajorType → UInt8
  | uint => 0
  | nint => 1
  | byte => 2
  | text => 3
  | array => 4
  | map => 5
  | tag => 6
  | float => 7

def addlUint8 : UInt8 := 24
def addlUint16 : UInt8 := 25
def addlUint32 : UInt8 := 26
def addlUint64 : UInt8 := 27
def addlArrayIndef : UInt8 := 31
def addlMapIndef : UInt8 := 31
def addlFloatFalse : UInt8 := 20
def addlFloatTrue : UInt8 := 21
def addlFloatNull : UInt8 := 22
def addlFloatBreak : UInt8 := 31

def cborUnknownNelem : UInt64 := ~~~0

/-- `MKTYPE`; the type is an enumeration, so only the additional information is checked. -/
def mktype (type : MajorType) (additional : UInt8) : Comp UInt8 := do
  assert (additional &&& ~~~0x1f = 0)
  pure ((type.code <<< 5) ||| additional)

variable (m : Machine)

def packCborTypeByte (type : MajorType) (additional : UInt8) : BufM Unit := do
  let byte ← mktype type additional
  bufferAppend m [byte]

/-- `pack_cbor_type`: `u` is the part of the union that is appended. -/
def packCborType (type : MajorType) (additional : UInt64) : BufM Unit := do
  if additional ≤ 23 then
    packCborTypeByte m type additional.toUInt8
  else
    let (addl, u) :=
      if additional ≤ 0xff then
        (addlUint8, m.endian.store 1 (cpu8ToBe m.endian additional.toUInt8).toNat)
      else if additional ≤ 0xffff then
        (addlUint16, m.endian.store 2 (cpu16ToBe m.endian additional.toUInt16).toNat)
      else if additional ≤ 0xffffffff then
        (addlUint32, m.endian.store 4 (cpu32ToBe m.endian additional.toUInt32).toNat)
      else
        (addlUint64, m.endian.store 8 (cpu64ToBe m.endian additional).toNat)
    packCborTypeByte m type addl
    bufferAppend m u

def cborPackUint (v : UInt64) : BufM Unit := packCborType m .uint v

def cborPackBlob (data : Bytes) : BufM Unit := do
  packCborType m .byte (.ofNat data.length)
  bufferAppend m data

def cborPackCstrLen (str : Bytes) : BufM Unit := do
  packCborType m .text (.ofNat str.length)
  bufferAppend m str

def cborPackStr (str : CStr) : BufM Unit := cborPackCstrLen m str.1

def cborPackBool (b : Bool) : BufM Unit :=
  packCborType m .float (if b then addlFloatTrue else addlFloatFalse).toUInt64

def cborPackNull : BufM Unit := packCborType m .float addlFloatNull.toUInt64

def cborPackBreak : BufM Unit := do
  let byte ← mktype .float addlFloatBreak
  bufferAppend m [byte]

/-- `cbor_pack_array_start` and `cbor_pack_map_start`. -/
def cborPackStart (type : MajorType) (indef : UInt8) (nelem : UInt64) : BufM Unit := do
  if nelem ≠ cborUnknownNelem then
    packCborType m type nelem
  else
    let byte ← mktype type indef
    bufferAppend m [byte]

def cborPackArrayStart (nelem : UInt64) : BufM Unit := cborPackStart m .array addlArrayIndef nelem

def cborPackMapStart (npairs : UInt64) : BufM Unit := cborPackStart m .map addlMapIndef npairs

/-- `cbor_pack_array_end` and `cbor_pack_map_end`. -/
def cborPackEnd (nelem : UInt64) : BufM Unit := do
  if nelem ≠ cborUnknownNelem then return
  cborPackBreak m

def cborPackArrayEnd (nelem : UInt64) : BufM Unit := cborPackEnd m nelem

def cborPackMapEnd (npairs : UInt64) : BufM Unit := cborPackEnd m npairs

mutual

/-- `cbor_pack_val`; the two VT_CONS values are one case of the switch. -/
def cborPackVal : Val → BufM Unit
  | .null => cborPackNull m
  | .int i => cborPackUint m i
  | .str s => cborPackStr m s
  | .sym _ => throw .ENOTSUP
  | .bool b => cborPackBool m b
  | .nil => throw .ENOTSUP
  | .cons _ _ => throw .ENOTSUP
  | .char _ => throw .ENOTSUP
  | .blob bytes => cborPackBlob m bytes
  | .array vals => do
    -- cbor_pack_array_vals
    let nelem := .ofNat vals.length
    cborPackArrayStart m nelem
    packElems vals
    cborPackArrayEnd m nelem
  | .nvl pairs => do
    -- cbor_pack_map_val
    let npairs := .ofNat pairs.length
    cborPackMapStart m npairs
    packPairs pairs
    cborPackMapEnd m npairs

/-- The loop of `cbor_pack_array_vals`. -/
def packElems : List Val → BufM Unit
  | [] => pure ()
  | v :: vals => do
    cborPackVal v
    packElems vals

/-- The loop of `cbor_pack_map_val`. -/
def packPairs : List (CStr × Val) → BufM Unit
  | [] => pure ()
  | (name, value) :: pairs => do
    cborPackStr m name
    cborPackVal value
    packPairs pairs

end

end Libjeffpc.Cbor
