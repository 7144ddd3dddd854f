import Libjeffpc.Errno
import Libjeffpc.Lib.Buf
import Libjeffpc.Lib.CString

/-!
# UTF-8 (`unicode.c`, `unicode.h`)

A codepoint is a number, the `uint32_t` of the source: no computation with a codepoint overflows. A
pointer and a length are the bytes that they stand for.
-/

namespace Libjeffpc.Unicode

open Lib

def utf32IsValid (cp : Nat) : Bool :=
  if 0xd800 ≤ cp ∧ cp ≤ 0xdfff then false else cp ≤ 0x10ffff

/-- What the first byte of a sequence says. -/
structure First where
  len : Nat
  res : Nat
  mincp : Nat
  maxcp : Nat
  deriving DecidableEq

def decodeFirst (c : UInt8) : Option First :=
  if c &&& 0xf8 = 0xf0 then some ⟨4, (c &&& 0x07).toNat <<< 18, 0x010000, 0x10ffff⟩
  else if c &&& 0xf0 = 0xe0 then some ⟨3, (c &&& 0x0f).toNat <<< 12, 0x0800, 0xffff⟩
  else if c &&& 0xe0 = 0xc0 then some ⟨2, (c &&& 0x1f).toNat <<< 6, 0x080, 0x7ff⟩
  else if c &&& 0x80 = 0x00 then some ⟨1, (c &&& 0x7f).toNat, 0x00, 0x7f⟩
  else none

/-- The loop over the additional bytes, of which `n` are left; `none` at an invalid one. -/
def decodeRest (input : Bytes) (len : Nat) : Nat → Nat → Nat → Comp (Option Nat)
  | 0, _, res => pure (some res)
  | n + 1, i, res => do
    let c ← fetch input i
    if c &&& 0xc0 ≠ 0x80 then pure none
    else decodeRest input len n (i + 1) (res ||| (c &&& 0x3f).toNat <<< (6 * (len - i - 1)))

/-- The length of the sequence, 0 if it is not valid, and `*out`. -/
def utf8ToUtf32 (input : Bytes) (out : Nat) : Comp (Nat × Nat) :=
  if input.length = 0 then pure (0, out)
  else do
    match decodeFirst (← fetch input 0) with
    | none => pure (0, out)
    | some ⟨len, res, mincp, maxcp⟩ =>
      if len > input.length then pure (0, out)
      else
        match ← decodeRest input len (len - 1) 1 res with
        | none => pure (0, out)
        | some res =>
          if res < mincp then pure (0, out)
          else if res > maxcp then pure (0, out)
          else if !utf32IsValid res then pure (0, out)
          else pure (len, res)

/-- The loop over the bytes after the first one, of which `n` are left. -/
def encodeRest (cp len : Nat) : Nat → Nat → Bytes → Comp Bytes
  | 0, _, buf => pure buf
  | n + 1, i, buf => do
    let buf ← store buf i (.ofNat (0x80 ||| ((cp >>> (6 * (len - i - 1))) &&& 0x3f)))
    encodeRest cp len n (i + 1) buf

/-- The length of the sequence, and the buffer. -/
def utf32ToUtf8 (cp : Nat) (buf : Bytes) : Comp (Except Errno Nat × Bytes) :=
  if !utf32IsValid cp then pure (.error .EINVAL, buf)
  else do
    let len := if cp ≤ 0x7f then 1 else if cp ≤ 0x7ff then 2 else if cp ≤ 0xffff then 3 else 4
    assert (cp ≤ 0x10ffff)
    if len > buf.length then pure (.error .ENOMEM, buf)
    else if len = 1 then
      let buf ← store buf 0 (.ofNat cp)
      pure (.ok 1, buf)
    else
      let buf ← store buf 0 (.ofNat ((cp >>> (6 * (len - 1))) ||| (0xff <<< (8 - len))))
      let buf ← encodeRest cp len (len - 1) 1 buf
      pure (.ok len, buf)

/-- One round of the loop; `i` is the offset of the next sequence. -/
def validStep (src : Bytes) (i : Nat) : Comp (Nat ⊕ Except Errno Unit) :=
  if i < src.length then do
    let (cplen, _) ← utf8ToUtf32 (src.drop i) 0
    if cplen = 0 then pure (.inr (.error .EILSEQ)) else pure (.inl (i + cplen))
  else pure (.inr (.ok ()))

def utf8IsValidStr (src : Bytes) : Comp (Except Errno Unit) := loop (validStep src) 0

/-! ## Texts -/

/-- What `utf32_to_utf8` writes. -/
def encoding (cp : Nat) : Bytes :=
  match utf32ToUtf8 cp [0, 0, 0, 0] with
  | some (.ok (.ok len, buf)) => buf.take len
  | _ => []

/-- The bytes of codepoints that are no surrogates. -/
def Encodes (src : Bytes) (cps : List Nat) : Prop :=
  (∀ cp ∈ cps, cp ≤ 0x10ffff ∧ ¬(0xd800 ≤ cp ∧ cp ≤ 0xdfff)) ∧ src = cps.flatMap encoding

def codepointsStep (src : Bytes) (s : Nat × List Nat) : Comp ((Nat × List Nat) ⊕ Option (List Nat)) :=
  if s.1 < src.length then do
    let (cplen, cp) ← utf8ToUtf32 (src.drop s.1) 0
    if cplen = 0 then pure (.inr none) else pure (.inl (s.1 + cplen, s.2 ++ [cp]))
  else pure (.inr (some s.2))

/-- The codepoints that `utf8_to_utf32` finds one after the other. -/
def codepoints (src : Bytes) : Comp (Option (List Nat)) := loop (codepointsStep src) (0, [])

end Libjeffpc.Unicode
