import Libjeffpc.Lib.Buf
import Libjeffpc.Lib.Numeral

/-!
# Base64 (`base64.c`, `base64.h`)

Encoding and decoding with the standard and the URL-safe alphabet. An index is below the length of
the array that it is into, so only `base64_required_length` computes modulo 2^64. No value of 24 bits
overflows.
-/

namespace Libjeffpc.Base64

open Lib

def b64EncodeTable : Bytes := text
  ['A', 'B', 'C', 'D', 'E', 'F', 'G', 'H', 'I', 'J', 'K', 'L', 'M', 'N', 'O', 'P', 'Q', 'R', 'S', 'T',
    'U', 'V', 'W', 'X', 'Y', 'Z', 'a', 'b', 'c', 'd', 'e', 'f', 'g', 'h', 'i', 'j', 'k', 'l', 'm', 'n',
    'o', 'p', 'q', 'r', 's', 't', 'u', 'v', 'w', 'x', 'y', 'z', '0', '1', '2', '3', '4', '5', '6', '7',
    '8', '9', '+', '/']

def b64urlEncodeTable : Bytes := text
  ['A', 'B', 'C', 'D', 'E', 'F', 'G', 'H', 'I', 'J', 'K', 'L', 'M', 'N', 'O', 'P', 'Q', 'R', 'S', 'T',
    'U', 'V', 'W', 'X', 'Y', 'Z', 'a', 'b', 'c', 'd', 'e', 'f', 'g', 'h', 'i', 'j', 'k', 'l', 'm', 'n',
    'o', 'p', 'q', 'r', 's', 't', 'u', 'v', 'w', 'x', 'y', 'z', '0', '1', '2', '3', '4', '5', '6', '7',
    '8', '9', '-', '_']

def INV : UInt8 := 0xff

def checkInv (a b c d : UInt8) : Bool := (a ||| b ||| c ||| d) == INV

def b64DecodeTable : Bytes :=
  List.replicate 0x28 INV ++
  [ INV,  INV,  INV, 0x3e,  INV,  INV,  INV, 0x3f, -- 0x28..0x2f
   0x34, 0x35, 0x36, 0x37, 0x38, 0x39, 0x3a, 0x3b, -- 0x30..0x37
   0x3c, 0x3d,  INV,  INV,  INV,  INV,  INV,  INV, -- 0x38..0x3f
    INV, 0x00, 0x01, 0x02, 0x03, 0x04, 0x05, 0x06, -- 0x40..0x47
   0x07, 0x08, 0x09, 0x0a, 0x0b, 0x0c, 0x0d, 0x0e, -- 0x48..0x4f
   0x0f, 0x10, 0x11, 0x12, 0x13, 0x14, 0x15, 0x16, -- 0x50..0x57
   0x17, 0x18, 0x19,  INV,  INV,  INV,  INV,  INV, -- 0x58..0x5f
    INV, 0x1a, 0x1b, 0x1c, 0x1d, 0x1e, 0x1f, 0x20, -- 0x60..0x67
   0x21, 0x22, 0x23, 0x24, 0x25, 0x26, 0x27, 0x28, -- 0x68..0x6f
   0x29, 0x2a, 0x2b, 0x2c, 0x2d, 0x2e, 0x2f, 0x30, -- 0x70..0x77
   0x31, 0x32, 0x33,  INV,  INV,  INV,  INV,  INV] -- 0x78..0x7f
  ++ List.replicate 0x80 INV

def b64urlDecodeTable : Bytes :=
  List.replicate 0x28 INV ++
  [ INV,  INV,  INV,  INV,  INV, 0x3e,  INV,  INV, -- 0x28..0x2f
   0x34, 0x35, 0x36, 0x37, 0x38, 0x39, 0x3a, 0x3b, -- 0x30..0x37
   0x3c, 0x3d,  INV,  INV,  INV,  INV,  INV,  INV, -- 0x38..0x3f
    INV, 0x00, 0x01, 0x02, 0x03, 0x04, 0x05, 0x06, -- 0x40..0x47
   0x07, 0x08, 0x09, 0x0a, 0x0b, 0x0c, 0x0d, 0x0e, -- 0x48..0x4f
   0x0f, 0x10, 0x11, 0x12, 0x13, 0x14, 0x15, 0x16, -- 0x50..0x57
   0x17, 0x18, 0x19,  INV,  INV,  INV,  INV, 0x3f, -- 0x58..0x5f
    INV, 0x1a, 0x1b, 0x1c, 0x1d, 0x1e, 0x1f, 0x20, -- 0x60..0x67
   0x21, 0x22, 0x23, 0x24, 0x25, 0x26, 0x27, 0x28, -- 0x68..0x6f
   0x29, 0x2a, 0x2b, 0x2c, 0x2d, 0x2e, 0x2f, 0x30, -- 0x70..0x77
   0x31, 0x32, 0x33,  INV,  INV,  INV,  INV,  INV] -- 0x78..0x7f
  ++ List.replicate 0x80 INV

/-- A `size_t`. -/
def base64RequiredLength (inlen : Nat) : Nat := (((inlen + 2) % 2 ^ 64) / 3) * 4 % 2 ^ 64

/-! ## Encoding -/

variable (table input : Bytes)

def encodeGroup (out : Bytes) (i : Nat) : Comp Bytes := do
  let iidx := i * 3
  let oidx := i * 4
  let v := (← fetch input iidx).toNat <<< 16
  let v := v ||| (← fetch input (iidx + 1)).toNat <<< 8
  let v := v ||| (← fetch input (iidx + 2)).toNat
  let out ← store out (oidx + 0) (← fetch table ((v >>> 18) &&& 0x3f))
  let out ← store out (oidx + 1) (← fetch table ((v >>> 12) &&& 0x3f))
  let out ← store out (oidx + 2) (← fetch table ((v >>> 6) &&& 0x3f))
  store out (oidx + 3) (← fetch table ((v >>> 0) &&& 0x3f))

/-- The bytes after the last group of three; `i` is the number of groups. -/
def encodeTail (out : Bytes) (i : Nat) : Comp Bytes :=
  match input.length % 3 with
  | 0 => store out (i * 4) 0
  | 1 => do
    let v := (← fetch input (i * 3)).toNat
    let v := v <<< 4
    let out ← store out (i * 4) (← fetch table ((v >>> 6) &&& 0x3f))
    let out ← store out (i * 4 + 1) (← fetch table ((v >>> 0) &&& 0x3f))
    let out ← store out (i * 4 + 2) (ch '=')
    let out ← store out (i * 4 + 3) (ch '=')
    store out (i * 4 + 4) 0
  | _ => do
    let v := (← fetch input (i * 3)).toNat <<< 8
    let v := v ||| (← fetch input (i * 3 + 1)).toNat
    let v := v <<< 2
    let out ← store out (i * 4) (← fetch table ((v >>> 12) &&& 0x3f))
    let out ← store out (i * 4 + 1) (← fetch table ((v >>> 6) &&& 0x3f))
    let out ← store out (i * 4 + 2) (← fetch table ((v >>> 0) &&& 0x3f))
    let out ← store out (i * 4 + 3) (ch '=')
    store out (i * 4 + 4) 0

def b64Encode (out : Bytes) : Comp Bytes := do
  let groups := input.length / 3
  let out ← (List.range groups).foldlM (encodeGroup table input) out
  encodeTail table input out groups

def base64Encode (out input : Bytes) : Comp Bytes := b64Encode b64EncodeTable input out

def base64urlEncode (out input : Bytes) : Comp Bytes := b64Encode b64urlEncodeTable input out

/-! ## Decoding -/

/-- `table[in[i]]`. -/
def lookup (i : Nat) : Comp UInt8 := do
  fetch table (← fetch input i).toNat

/-- `n` groups from the i-th one on, with the output also when one of them is not valid. -/
def decodeGroups : Nat → Nat → Bytes → Comp (Bool × Bytes)
  | 0, _, out => pure (true, out)
  | n + 1, i, out => do
    let a ← lookup table input (i * 4 + 0)
    let b ← lookup table input (i * 4 + 1)
    let c ← lookup table input (i * 4 + 2)
    let d ← lookup table input (i * 4 + 3)
    if checkInv a b c d then pure (false, out)
    else
      let v := a.toNat <<< 18 ||| b.toNat <<< 12 ||| c.toNat <<< 6 ||| d.toNat
      let out ← store out (i * 3 + 0) (.ofNat ((v >>> 16) &&& 0xff))
      let out ← store out (i * 3 + 1) (.ofNat ((v >>> 8) &&& 0xff))
      let out ← store out (i * 3 + 2) (.ofNat ((v >>> 0) &&& 0xff))
      decodeGroups n (i + 1) out

/-- A last group with padding. -/
def decodeTail (groups : Nat) (out : Bytes) : Comp (Int × Bytes) := do
  let inlen := input.length
  if (← fetch input (inlen - 2)) = ch '=' ∧ (← fetch input (inlen - 1)) = ch '=' then
    let a ← lookup table input (inlen - 4)
    let b ← lookup table input (inlen - 3)
    if checkInv a b 0 0 then pure (-1, out)
    else
      let v := a.toNat <<< 6 ||| b.toNat
      let v := v >>> 4
      let out ← store out (groups * 3 + 0) (.ofNat (v &&& 0xff))
      pure ((groups * 3 + 1 : Nat), out)
  else if (← fetch input (inlen - 1)) = ch '=' then
    let a ← lookup table input (inlen - 4)
    let b ← lookup table input (inlen - 3)
    let c ← lookup table input (inlen - 2)
    if checkInv a b c 0 then pure (-1, out)
    else
      let v := a.toNat <<< 12 ||| b.toNat <<< 6 ||| c.toNat
      let v := v >>> 2
      let out ← store out (groups * 3 + 0) (.ofNat ((v >>> 8) &&& 0xff))
      let out ← store out (groups * 3 + 1) (.ofNat ((v >>> 0) &&& 0xff))
      pure ((groups * 3 + 2 : Nat), out)
  else pure ((groups * 3 : Nat), out)

/-- The return value and the output. -/
def b64Decode (out : Bytes) : Comp (Int × Bytes) :=
  let inlen := input.length
  if inlen = 0 then pure (0, out)
  else if inlen % 4 ≠ 0 then pure (-1, out)
  else do
    let groups := inlen / 4
    let groups := if (← fetch input (inlen - 1)) = ch '=' then groups - 1 else groups
    let (valid, out) ← decodeGroups table input groups 0 out
    if valid then decodeTail table input groups out else pure (-1, out)

def base64Decode (out input : Bytes) : Comp (Int × Bytes) := b64Decode b64DecodeTable input out

def base64urlDecode (out input : Bytes) : Comp (Int × Bytes) := b64Decode b64urlDecodeTable input out

/-! ## What the encoding is -/

inductive Alphabet where
  | standard
  | urlSafe
  deriving DecidableEq

namespace Alphabet

/-- The character of each code. -/
def chars : Alphabet → Bytes
  | standard => b64EncodeTable
  | urlSafe => b64urlEncodeTable

def encode : Alphabet → Bytes → Bytes → Comp Bytes
  | standard => base64Encode
  | urlSafe => base64urlEncode

def decode : Alphabet → Bytes → Bytes → Comp (Int × Bytes)
  | standard => base64Decode
  | urlSafe => base64urlDecode

/-- The text of codes of six bits. -/
def spell (α : Alphabet) (codes : List (Fin 64)) : Bytes := codes.map fun c => α.chars.getD c.1 0

end Alphabet

/-- Groups of four characters, of which the last one may have one or two pad characters. -/
structure Padded (α : Alphabet) (input : Bytes) (codes : List (Fin 64)) (pads : Nat) : Prop where
  input_eq : input = α.spell codes ++ List.replicate pads (ch '=')
  pads_le : pads ≤ 2
  groups : (codes.length + pads) % 4 = 0

/-- The bytes of a last group with pad characters. -/
def padBytes : Nat → Nat
  | 0 => 0
  | 1 => 2
  | _ => 1

/-- The bits of codes, the highest one first. -/
def codeBits (codes : List (Fin 64)) : List Bool :=
  codes.flatMap fun c => [5, 4, 3, 2, 1, 0].map c.1.testBit

/-- The bits of bytes. -/
def byteBits (b : Bytes) : List Bool :=
  b.flatMap fun x => [7, 6, 5, 4, 3, 2, 1, 0].map x.toNat.testBit

end Libjeffpc.Base64
