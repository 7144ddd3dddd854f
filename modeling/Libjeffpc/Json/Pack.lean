import Libjeffpc.Buffer.Buffer
import Libjeffpc.Lib.Numeral
import Libjeffpc.Val.Val

/-!
# Packing JSON (`fmt_json.c`)

A value is written as text without any white space. Bytes of strings that are not control characters,
quotes or backslashes are copied, whether or not they form UTF-8.
-/

namespace Libjeffpc.Json

open Lib

variable (m : Machine)

def jsonPackUint (v : UInt64) : BufM Unit := bufferAppendCstr m (decimal v.toNat)

/-- `__escape_char`. -/
def escapeChar (c : UInt32) : BufM Unit :=
  if c > 0xffff then throw .ENOTSUP
  else bufferAppendCstr m (text ['\\', 'u'] ++ hex4 c.toNat)

/-- The characters that have an escape of their own. -/
def mapped (c : UInt8) : Option Bytes :=
  if c = ch '\x08' then some (text ['\\', 'b'])
  else if c = ch '\x0c' then some (text ['\\', 'f'])
  else if c = ch '\n' then some (text ['\\', 'n'])
  else if c = ch '\r' then some (text ['\\', 'r'])
  else if c = ch '\t' then some (text ['\\', 't'])
  else none

/-- `__escape_ctrl_char`. -/
def escapeCtrlChar (c : UInt8) : BufM Unit :=
  match mapped c with
  | some str => bufferAppendCstr m str
  | none => escapeChar m c.toUInt32

/-- The loop of `json_pack_cstr_len`. -/
def packChars : Bytes → BufM Unit
  | [] => pure ()
  | c :: str => do
    if c ≤ 0x1f then
      escapeCtrlChar m c
    else if c = ch '"' ∨ c = ch '\\' then
      bufferAppendCstr m [ch '\\', c]
    else
      bufferAppendC m c
    packChars str

def jsonPackCstrLen (str : Bytes) : BufM Unit := do
  bufferAppendC m (ch '"')
  packChars m str
  bufferAppendC m (ch '"')

def jsonPackStr (str : CStr) : BufM Unit := jsonPackCstrLen m str.1

def jsonPackBool (b : Bool) : BufM Unit :=
  bufferAppendCstr m (if b then text ['t', 'r', 'u', 'e'] else text ['f', 'a', 'l', 's', 'e'])

def jsonPackNull : BufM Unit := bufferAppendCstr m (text ['n', 'u', 'l', 'l'])

def jsonPackArrayStart : BufM Unit := bufferAppendC m (ch '[')

def jsonPackArrayElemSep : BufM Unit := bufferAppendC m (ch ',')

def jsonPackArrayEnd : BufM Unit := bufferAppendC m (ch ']')

def jsonPackMapStart : BufM Unit := bufferAppendC m (ch '\x7b')

def jsonPackMapNameSep : BufM Unit := bufferAppendC m (ch ':')

def jsonPackMapPairSep : BufM Unit := bufferAppendC m (ch ',')

def jsonPackMapEnd : BufM Unit := bufferAppendC m (ch '\x7d')

mutual

/-- `json_pack_val`; the two VT_CONS values are one case of the switch. -/
def jsonPackVal : Val → BufM Unit
  | .null => jsonPackNull m
  | .int i => jsonPackUint m i
  | .str s => jsonPackStr m s
  | .sym _ => throw .ENOTSUP
  | .bool b => jsonPackBool m b
  | .nil => throw .ENOTSUP
  | .cons _ _ => throw .ENOTSUP
  | .char _ => throw .ENOTSUP
  | .blob _ => throw .ENOTSUP
  | .array vals => do
    -- json_pack_array_vals
    jsonPackArrayStart m
    packElems 0 vals
    jsonPackArrayEnd m
  | .nvl pairs => do
    -- json_pack_map_val
    jsonPackMapStart m
    packPairs true pairs
    jsonPackMapEnd m

/-- The loop of `json_pack_array_vals`. -/
def packElems (i : Nat) : List Val → BufM Unit
  | [] => pure ()
  | v :: vals => do
    if i ≠ 0 then jsonPackArrayElemSep m
    jsonPackVal v
    packElems (i + 1) vals

/-- The loop of `json_pack_map_val`. -/
def packPairs (first : Bool) : List (CStr × Val) → BufM Unit
  | [] => pure ()
  | (name, value) :: pairs => do
    if !first then jsonPackMapPairSep m
    jsonPackStr m name
    jsonPackMapNameSep m
    jsonPackVal value
    packPairs false pairs

end

end Libjeffpc.Json
