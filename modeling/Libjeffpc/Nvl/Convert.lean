import Libjeffpc.Int.Str2uint
import Libjeffpc.Nvl.NvMap

/-!
# Converting the strings of an nvlist (`nvl_convert.c`)

`nvl_convert` walks through a table of names and replaces the strings that the nvlist has under them.
The nvlist changes during the walk, so a name that is in the table twice is seen converted the second
time.
-/

namespace Libjeffpc.Nvl

open Lib Libjeffpc.Tree Libjeffpc.Int

/-- `enum nvcvtcond`, and the numbers that are not in it. -/
inductive NvCvtCond where
  | always
  | strEmpty
  | other
  deriving DecidableEq

/-- `struct nvl_convert_info`. -/
structure NvlConvertInfo where
  name : CStr
  tgtType : ValType
  cond : NvCvtCond

def checkConditionStr (str : CStr) : NvCvtCond → Except Errno Unit
  | .always => .ok ()
  | .strEmpty => if str.1.length ≠ 0 then .error .EBUSY else .ok ()
  | .other => .error .EINVAL

/-- `CHECK_ERROR`. -/
def checkError (e : Errno) (cvtall : Bool) : Bool := !cvtall || e = .ENOTSUP

section Convert

variable {N A M : Type} [DecidableEq N] [DecidableEq A] [TreeMem A M] (alloc : Allocator A)

/-- `cvt_string`; `enomem` says whether the new value cannot be allocated. VT_NULL is a value that always
exists. -/
def cvtString (enomem : Bool) (h : Heap N A M) (nvl : N) (pair : A) (tgt : ValType) (cond : NvCvtCond) :
    Comp (Except Errno Unit × Heap N A M) := do
  let name := h.name pair
  assert ((h.value pair).type = .str)
  match nvpairValueStr (some (h.value pair)) with
  | .error e => do
    assert (e ≠ .ENOENT)
    assert (e ≠ .ERANGE)
    pure (.error e, h)
  | .ok str =>
    match checkConditionStr str cond with
    | .error e => pure (if e = .EBUSY then .ok () else .error e, h)
    | .ok () =>
      match tgt with
      | .int =>
        match str2u64 str with
        | (.error e, _) => pure (.error e, h)
        | (.ok (), intval) =>
          if enomem then pure (.error .ENOMEM, h)
          else nvlSetInt alloc h nvl name (UInt64.ofNat intval)
      | .null => nvlSetNull alloc h nvl name
      | .str => pure (.ok (), h)
      | _ => pure (.error .ENOTSUP, h)

/-- The loop of `nvl_convert`; `k` is the number of the row. -/
def convertRows (enomem : Nat → Bool) (nvl : N) (convertAll : Bool) :
    List NvlConvertInfo → Nat → Heap N A M → Comp (Except Errno Unit × Heap N A M)
  | [], _, h => pure (.ok (), h)
  | info :: table, k, h => do
    match ← nvlLookup h nvl info.name with
    | .error e =>
      if e = .ENOENT || !checkError e convertAll then convertRows enomem nvl convertAll table (k + 1) h
      else pure (.error e, h)
    | .ok pair =>
      if (h.value pair).type ≠ .str then pure (.error .ENOTSUP, h)
      else do
        match ← cvtString alloc (enomem k) h nvl pair info.tgtType info.cond with
        | (.ok (), h) => convertRows enomem nvl convertAll table (k + 1) h
        | (.error e, h) =>
          if checkError e convertAll then pure (.error e, h)
          else convertRows enomem nvl convertAll table (k + 1) h

def nvlConvert (enomem : Nat → Bool) (h : Heap N A M) (nvl : N) (table : Option (List NvlConvertInfo))
    (convertAll : Bool) : Comp (Except Errno Unit × Heap N A M) :=
  match table with
  | none => pure (.ok (), h)
  | some table => convertRows alloc enomem nvl convertAll table 0 h

end Convert

/-! ## What the walk does to the map -/

section Spec

variable {N : Type}

/-- The number in base 10 that a text is, if it is not negative and 64 bits are enough. -/
def decimalOf (str : CStr) : Except Errno Nat :=
  match str2u64 str with
  | (.error e, _) => .error e
  | (.ok (), n) =>
    if (scan ten str.1).sign = [ch '-'] ∧ n ≠ 0 then .error .ERANGE else .ok n

/-- The value that a string is replaced by, where `conv` says what a text means in base 10. -/
def specCvt (conv : CStr → Except Errno Nat) (enomem : Bool) (info : NvlConvertInfo) (str : CStr) :
    Except Errno (Value N) :=
  match checkConditionStr str info.cond with
  | .error e => if e = .EBUSY then .ok (.str str) else .error e
  | .ok () =>
    match info.tgtType with
    | .int =>
      match conv str with
      | .error e => .error e
      | .ok n => if enomem then .error .ENOMEM else .ok (.int (UInt64.ofNat n))
    | .null => .ok .null
    | .str => .ok (.str str)
    | _ => .error .ENOTSUP

def specConvert (conv : CStr → Except Errno Nat) (enomem : Nat → Bool) (convertAll : Bool) :
    List NvlConvertInfo → Nat → NvMap N → Except Errno Unit × NvMap N
  | [], _, map => (.ok (), map)
  | info :: table, k, map =>
    match map info.name with
    | none => specConvert conv enomem convertAll table (k + 1) map
    | some (.str str) =>
      match specCvt conv (enomem k) info str with
      | .ok v => specConvert conv enomem convertAll table (k + 1) (map.set info.name v)
      | .error e =>
        if checkError e convertAll then (.error e, map)
        else specConvert conv enomem convertAll table (k + 1) map
    | some _ => (.error .ENOTSUP, map)

/-- White space, a minus sign, and then a number that 64 bits are enough for. -/
def IsNegative (str : CStr) : Prop :=
  let p := scan ten str.1
  let n := numeral ten p.digits
  p.space ≠ [] ∧ p.sign = [ch '-'] ∧ p.digits ≠ [] ∧ p.rest = [] ∧ n ≠ 0 ∧ n < 2 ^ 64

/-- A row asks for the number of such a string; it makes no difference if there is no memory for the
number and errors are ignored. -/
def StraysAt (enomem convertAll : Bool) (info : NvlConvertInfo) (str : CStr) : Prop :=
  info.tgtType = .int ∧ checkConditionStr str info.cond = .ok () ∧ IsNegative str ∧
    (enomem = false ∨ convertAll = false)

/-- The walk comes to a row of that kind. -/
def Strays (enomem : Nat → Bool) (convertAll : Bool) : List NvlConvertInfo → Nat → NvMap N → Prop
  | [], _, _ => False
  | info :: table, k, map =>
    match map info.name with
    | none => Strays enomem convertAll table (k + 1) map
    | some (.str str) =>
      StraysAt (enomem k) convertAll info str ∨
      match specCvt (N := N) decimalOf (enomem k) info str with
      | .ok v => Strays enomem convertAll table (k + 1) (map.set info.name v)
      | .error e => checkError e convertAll = false ∧ Strays enomem convertAll table (k + 1) map
    | some _ => False

end Spec

end Libjeffpc.Nvl
