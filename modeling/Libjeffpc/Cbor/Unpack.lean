import Libjeffpc.Cbor.Pack

/-!
# Unpacking CBOR (`fmt_cbor.c`, `cbor.h`)

Every `cbor_unpack_*` function works on a static buffer that it puts over what is left of the caller's
buffer, and moves the caller's offset at the end. Whether an allocation succeeds is the machine's
choice; `reallocarray` and `recallocarray` are those of the C library, which check the multiplication.
-/

namespace Libjeffpc.Cbor

open Lib Libjeffpc.Int

/-! ## Memory and values -/

/-- `mem_reallocarray` and `mem_recallocarray` (`mem_array.c`): whether there is room. -/
def memReallocarray (m : Machine) (nelem size : Nat) : BufM Bool :=
  if nelem * size > sizeMax then pure false else request m (.bytes (nelem * size))

/-- The size of a pointer. -/
def ptrSize : Nat := 8

/-- An array of pointers of this length fits in memory. -/
def HasRoom (k : Nat) : Prop := k * ptrSize ≤ ssizeMax

/-- `__val_alloc`. -/
def valAlloc (m : Machine) (v : Val) : BufM Val := do
  if ← request m .val then return v else throw .ENOMEM

/-- `val_alloc_int`: the first ten numbers are preallocated. -/
def valAllocInt (m : Machine) (i : UInt64) : BufM Val :=
  if i < 10 then pure (.int i) else valAlloc m (.int i)

/-- `__get_preallocated` (`str.c`) for a VT_STR: the empty string, and strings of one character. -/
def getPreallocated (s : CStr) : Bool :=
  match s.1 with
  | [] => true
  | [c] => 0 < c && c < 0x7f
  | _ => false

/-- `str_alloc` of a string on the heap: the bytes before the first NUL. -/
def strAlloc (m : Machine) (s : Bytes) : BufM CStr := do
  if getPreallocated (cstr s) then return cstr s
  if ← request m .val then return cstr s else throw .ENOMEM

/-- The `n` bytes at a pointer. -/
def load (ptr : Option Bytes) (n : Nat) : Comp (Fin n → UInt8) := do
  let mem ← deref ptr
  if h : n ≤ mem.length then pure fun i => mem.get ⟨i, i.2.trans_le h⟩ else throw .bounds

/-! ## Peeking -/

def majorType (byte : UInt8) : MajorType :=
  match (byte >>> 5).toNat with
  | 0 => .uint
  | 1 => .nint
  | 2 => .byte
  | 3 => .text
  | 4 => .array
  | 5 => .map
  | 6 => .tag
  | _ => .float

def extraOf (byte : UInt8) : UInt8 := byte &&& 0x1f

/-- The switch of `cbor_peek_type`. -/
def peekByte (byte : UInt8) : Except Errno ValType :=
  let extra := extraOf byte
  match majorType byte with
  | .uint => .ok .int
  | .byte => .ok .blob
  | .text => .ok .str
  | .float =>
    if extra = addlFloatFalse then .ok .bool
    else if extra = addlFloatTrue then .ok .bool
    else if extra = addlFloatNull then .ok .null
    else if extra = addlFloatBreak then .error .EINTR
    else .error .ENOTSUP
  | .array => .ok .array
  | .map => .ok .nvl
  | .nint => .error .ENOTSUP
  | .tag => .error .ENOTSUP

def cborPeekType : BufM ValType := do
  let b ← getBuffer
  if b.bufferRemain < 1 then throw .EFAULT
  let ptr ← load b.bufferDataCurrent 1
  liftExcept (peekByte (ptr 0))

/-- Run a function and look at what it returns. -/
def attempt {α : Type} (f : BufM α) : BufM (Except Errno α) := ExceptT.lift (ExceptT.run f)

/-- The switch of `cbor_peek_break`. -/
def breakCode : Except Errno ValType → Except Errno Unit
  | .ok _ => .error .EILSEQ
  | .error .EINTR => .ok ()
  | .error e => .error e

/-- `cbor_peek_break`: its return value. -/
def cborPeekBreak : BufM (Except Errno Unit) := do return breakCode (← attempt cborPeekType)

/-! ## Heads -/

def readCborType : BufM (MajorType × UInt8) := do
  match ← bufferRead 1 with
  | [byte] => return (majorType byte, extraOf byte)
  | _ => throw .EINVAL

/-- How many bytes of argument follow the first byte. -/
inductive AddlSize where
  | none
  | one
  | two
  | four
  | eight
  deriving DecidableEq, Repr

def AddlSize.size : AddlSize → Nat
  | none => 0
  | one => 1
  | two => 2
  | four => 4
  | eight => 8

/-- The first switch of `get_addl_bytes`. -/
def addlSize (extra : UInt8) : Except Errno AddlSize :=
  if extra = addlUint8 then .ok .one
  else if extra = addlUint16 then .ok .two
  else if extra = addlUint32 then .ok .four
  else if extra = addlUint64 then .ok .eight
  else if extra > 23 then .error .EINVAL
  else .ok .none

/-- The second switch of `get_addl_bytes`. -/
def loadAddl (ptr : Option Bytes) (extra : UInt8) : AddlSize → Comp UInt64
  | .none => pure extra.toUInt64
  | .one => do return (be8ToCpuUnaligned (← load ptr 1)).toUInt64
  | .two => do return (be16ToCpuUnaligned (← load ptr 2)).toUInt64
  | .four => do return (be32ToCpuUnaligned (← load ptr 4)).toUInt64
  | .eight => do return be64ToCpuUnaligned (← load ptr 8)

def getAddlBytes (extra : UInt8) : BufM UInt64 := do
  let size ← liftExcept (addlSize extra)
  let b ← getBuffer
  if b.bufferRemain < size.size then throw .EINVAL
  let out ← loadAddl b.bufferDataCurrent extra size
  let _ ← bufferSeek size.size .seekCur
  return out

def unpackCborInt (expectedType : MajorType) : BufM UInt64 := do
  let (type, extra) ← readCborType
  if expectedType ≠ type then throw .EILSEQ
  getAddlBytes extra

def unpackCborFloat : BufM UInt8 := do
  let (type, extra) ← readCborType
  if type ≠ .float then throw .EILSEQ
  if extra = addlFloatFalse ∨ extra = addlFloatTrue ∨ extra = addlFloatNull ∨ extra = addlFloatBreak then
    return extra
  throw .EILSEQ

/-- `unpack_cbor_arraymap_start`: the length, and whether an end is required. -/
def unpackCborArraymapStart (expType : MajorType) (indef : UInt8) : BufM (UInt64 × Bool) := do
  let (type, extra) ← readCborType
  if type ≠ expType then throw .EILSEQ
  if extra = indef then return (0, true)
  return (← getAddlBytes extra, false)

/-! ## The functions of `cbor.h` -/

/-- Run a function on a static buffer over what is left of the buffer: what it returns, and the static
buffer as it leaves it. -/
def onTmp {α : Type} (f : BufM α) : BufM (Except Errno α × Buffer) := do
  let s ← get
  let b := s.buffer
  let tmp ← bufferInitStatic b.bufferDataCurrent b.bufferRemain b.bufferRemain false
  let (r, s') ← (StateT.run (ExceptT.run f) ⟨tmp, s.allocs⟩ : Comp _)
  set { s with allocs := s'.allocs }
  return (r, s'.buffer)

def syncBuffers (tmp : Buffer) : BufM Unit := do
  let _ ← bufferSeek (toOffT tmp.bufferOffset) .seekCur

/-- Run a function on a static buffer, and move the offset if it succeeds. -/
def withTmp {α : Type} (f : BufM α) : BufM α := do
  let (r, tmp) ← onTmp f
  let a ← liftExcept r
  syncBuffers tmp
  return a

def cborUnpackUint : BufM UInt64 := withTmp (unpackCborInt .uint)

def cborUnpackNint : BufM UInt64 := withTmp (unpackCborInt .nint)

def cborUnpackInt : BufM Int64 := do
  -- first, try unsigned ints
  match ← onTmp cborUnpackUint with
  | (.ok tmpv, tmp) =>
    if tmpv.toNat > 2 ^ 63 - 1 then throw .EOVERFLOW
    syncBuffers tmp
    return tmpv.toInt64
  | (.error _, _) =>
    -- second, try negative ints
    match ← onTmp cborUnpackNint with
    | (.ok tmpv, tmp) =>
      if tmpv.toNat > 2 ^ 63 then throw .EOVERFLOW
      syncBuffers tmp
      return (~~~tmpv + 1).toInt64
    | (.error e, _) => throw e

def cborUnpackBlob : BufM Bytes := throw .ENOTSUP

variable (m : Machine)

/-- `cbor_unpack_cstr_len`: the bytes, without the NUL that is put after them. -/
def cborUnpackCstrLen : BufM Bytes := withTmp do
  let parsedLen ← unpackCborInt .text
  if parsedLen.toNat ≥ sizeMax then throw .EOVERFLOW
  if ← request m (.bytes (parsedLen.toNat + 1)) then
    let out ← bufferRead parsedLen.toNat
    if out.length ≠ parsedLen.toNat then throw .EILSEQ
    return out
  else throw .ENOMEM

def cborUnpackStr : BufM CStr := do
  let s ← cborUnpackCstrLen m
  strAlloc m s

def cborUnpackBool : BufM Bool := withTmp do
  let extra ← unpackCborFloat
  if extra = addlFloatFalse then return false
  else if extra = addlFloatTrue then return true
  else throw .EILSEQ

def cborUnpackNull : BufM Unit := withTmp do
  let extra ← unpackCborFloat
  if extra ≠ addlFloatNull then throw .EILSEQ

def cborUnpackBreak : BufM Unit := withTmp do
  let extra ← unpackCborFloat
  if extra ≠ addlFloatBreak then throw .EILSEQ

def cborUnpackMapStart : BufM (UInt64 × Bool) := withTmp (unpackCborArraymapStart .map addlMapIndef)

def cborUnpackMapEnd (endRequired : Bool) : BufM Unit :=
  if !endRequired then pure () else cborUnpackBreak

def cborUnpackArrayStart : BufM (UInt64 × Bool) :=
  withTmp (unpackCborArraymapStart .array addlArrayIndef)

def cborUnpackArrayEnd (endRequired : Bool) : BufM Unit :=
  if !endRequired then pure () else cborUnpackBreak

/-! ## Values -/

def unpackCborNull : BufM Val := do
  cborUnpackNull
  return .null

def unpackCborUint : BufM Val := do valAllocInt m (← cborUnpackUint)

def unpackCborStr : BufM CStr := cborUnpackStr m

def unpackCborBool : BufM Val := do return .bool (← cborUnpackBool)

def unpackCborBlob : BufM Val := do valAlloc m (.blob (← cborUnpackBlob))

/-- `nvl_set_pair` on the nvlist that is being built: a name that is not there needs a new pair. -/
def nvlSetPair (nvl : List (CStr × Val)) (name : CStr) (value : Val) : BufM (List (CStr × Val)) := do
  if (nvl.lookup name).isSome then return nvSet nvl name value
  if ← request m .nvpair then return nvSet nvl name value else throw .ENOMEM

mutual

def unpackCborVal : BufM Val := do
  match ← cborPeekType with
  | .null => unpackCborNull
  | .int => unpackCborUint m
  | .str => return .str (← unpackCborStr m)
  | .sym => throw .ENOTSUP
  | .bool => unpackCborBool
  | .cons => throw .ENOTSUP
  | .char => throw .ENOTSUP
  | .blob => unpackCborBlob m
  | .array => (by apply unpackCborArray : BufM Val)
  | .nvl => (by apply unpackCborNvl : BufM Val)
partial_fixpoint

/-- The clean-up at `err` is left out: it releases the elements and the array, and with the `recallocarray` of
the C library, which gives all elements room and zeroes it, this changes neither the buffer nor what is
returned. -/
def unpackCborArray : BufM Val := do
  let (nelem, endRequired) ← cborUnpackArrayStart
  if endRequired then
    let arr ← (by apply unpackIndefElems : List Val → BufM (List Val)) []
    cborUnpackArrayEnd endRequired
    valAlloc m (.array arr)
  else
    if nelem.toNat > sizeMax then throw .ENOMEM
    if ← memReallocarray m nelem.toNat ptrSize then
      let arr ← (by apply unpackDefElems : _ → BufM (List Val)) nelem.toNat
      cborUnpackArrayEnd endRequired
      valAlloc m (.array arr)
    else throw .ENOMEM
partial_fixpoint

/-- The loop for an array of indefinite length, with the elements that are there already. -/
def unpackIndefElems (arr : List Val) : BufM (List Val) := do
  match ← cborPeekBreak with
  | .ok () => return arr
  | .error .EILSEQ =>
    let elem ← (by apply unpackCborVal : BufM Val)
    if ← memReallocarray m (arr.length + 1) ptrSize then
      (by apply unpackIndefElems : _ → BufM (List Val)) (arr ++ [elem])
    else throw .ENOMEM
  | .error e => throw e
partial_fixpoint

/-- The loop for an array of definite length: the elements that are still to come. -/
def unpackDefElems (nelem : Nat) : BufM (List Val) := do
  match nelem with
  | 0 => return []
  | nelem + 1 =>
    let elem ← (by apply unpackCborVal : BufM Val)
    return elem :: (← (by apply unpackDefElems : _ → BufM _) nelem)
partial_fixpoint

/-- `__unpack_cbor_pair`. -/
def unpackCborPair (nvl : List (CStr × Val)) : BufM (List (CStr × Val)) := do
  let name ← unpackCborStr m
  let value ← (by apply unpackCborVal : BufM Val)
  nvlSetPair m nvl name value
partial_fixpoint

def unpackCborNvl : BufM Val := do
  let (npairs, endRequired) ← cborUnpackMapStart
  if ← request m .val then
    if endRequired then
      let nvl ← (by apply unpackIndefPairs : List (CStr × Val) → BufM (List (CStr × Val))) []
      cborUnpackMapEnd endRequired
      return .nvl nvl
    else
      if npairs.toNat > sizeMax then throw .ENOMEM
      let nvl ← (by apply unpackDefPairs : Nat → List (CStr × Val) → BufM (List (CStr × Val))) npairs.toNat []
      cborUnpackMapEnd endRequired
      return .nvl nvl
  else throw .ENOMEM
partial_fixpoint

/-- The loop for a map of indefinite length. -/
def unpackIndefPairs (nvl : List (CStr × Val)) : BufM (List (CStr × Val)) := do
  match ← cborPeekBreak with
  | .ok () => return nvl
  | .error .EILSEQ => (by apply unpackIndefPairs : _ → BufM _) (← (by apply unpackCborPair : _ → BufM _) nvl)
  | .error e => throw e
partial_fixpoint

/-- The loop for a map of definite length. -/
def unpackDefPairs (npairs : Nat) (nvl : List (CStr × Val)) : BufM (List (CStr × Val)) := do
  match npairs with
  | 0 => return nvl
  | npairs + 1 => (by apply unpackDefPairs : _ → _ → BufM _) npairs (← (by apply unpackCborPair : _ → BufM _) nvl)
partial_fixpoint

end

def cborUnpackVal : BufM Val := withTmp (unpackCborVal m)

end Libjeffpc.Cbor
