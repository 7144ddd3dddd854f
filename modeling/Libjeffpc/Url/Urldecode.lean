import Libjeffpc.Errno
import Libjeffpc.Lib.Buf
import Libjeffpc.Lib.Numeral

/-!
# Percent-decoding (`urldecode.c`)

The state machine of `urldecode`: the high half of an escaped byte is written to the output before the
low half is known. Its input is read one byte at a time, from the first one to the last one.
-/

namespace Libjeffpc.Url

open Lib

inductive DecodeState where
  | copy
  | esc1
  | esc2
  deriving DecidableEq

structure State where
  state : DecodeState
  out : Bytes
  outoff : Nat

def appendChar (s : State) (c : UInt8) : Comp State := do
  assert (s.state = .copy)
  assert (c ≠ ch '+')
  assert (c ≠ ch '%')
  let out ← store s.out s.outoff c
  pure { s with out, outoff := s.outoff + 1 }

/-- The value of a hexadecimal digit; a `char` is signed. -/
def escValue (c : Int8) : Option Int8 :=
  if 48 ≤ c ∧ c ≤ 57 then some (c - 48)
  else if 97 ≤ c ∧ c ≤ 102 then some (c - (97 - 10))
  else if 65 ≤ c ∧ c ≤ 70 then some (c - (65 - 10))
  else none

def appendEsc (s : State) (c : UInt8) : Comp (Except Errno State) :=
  match escValue c.toInt8 with
  | none => pure (.error .EILSEQ)
  | some d =>
    match s.state with
    | .esc1 => do
      let out ← store s.out s.outoff (d.toUInt8 <<< 4)
      pure (.ok { s with out, state := .esc2 })
    | .esc2 => do
      let out ← store s.out s.outoff ((← fetch s.out s.outoff) ||| d.toUInt8)
      pure (.ok { s with out, outoff := s.outoff + 1, state := .copy })
    | .copy => throw .assert

/-- One round of the loop. -/
def urldecodeStep (s : State) (c : UInt8) : Comp (Except Errno State) :=
  match s.state with
  | .copy =>
    if c = ch '%' then pure (.ok { s with state := .esc1 })
    else if c = ch '+' then do return .ok (← appendChar s (ch ' '))
    else do return .ok (← appendChar s c)
  | .esc1 => appendEsc s c
  | .esc2 => appendEsc s c

/-- The loop, with the output also when it ends early. -/
def urldecodeLoop : Bytes → State → Comp (Except Errno State × Bytes)
  | [], s => pure (.ok s, s.out)
  | c :: rest, s => do
    match ← urldecodeStep s c with
    | .error e => pure (.error e, s.out)
    | .ok s => urldecodeLoop rest s

/-- The number of decoded bytes, and the output buffer. -/
def urldecode (input out : Option Bytes) : Comp (Except Errno Nat × Option Bytes) :=
  match input, out with
  | some input, some out =>
    if input.length = 0 then pure (.ok 0, some out)
    else do
      let (r, out) ← urldecodeLoop input { state := .copy, out, outoff := 0 }
      match r with
      | .error e => pure (.error e, some out)
      | .ok s => pure (if s.state = .copy then .ok s.outoff else .error .EILSEQ, some out)
  | _, _ => pure (.error .EINVAL, out)

/-- `urldecode_str`; a string ends at its first NUL. -/
def urldecodeStr (input : Bytes) : Comp (Except Errno CStr) := do
  let (r, out) ← urldecode (some input) (some (List.replicate input.length 0))
  match r with
  | .error e => pure (.error e)
  | .ok outlen => do
    let out ← deref out
    pure (.ok (cstr (out.take outlen)))

/-! ## What percent-decoding is -/

/-- `+` is a space, `%XX` is the byte XX, and all other bytes stand for themselves. -/
def percentDecode : Bytes → Option Bytes
  | [] => some []
  | c :: rest =>
    if c = ch '%' then
      match rest with
      | a :: b :: rest => do
        let x ← hexValue a
        let y ← hexValue b
        return .ofNat (16 * x + y) :: (← percentDecode rest)
      | _ => none
    else do return (if c = ch '+' then ch ' ' else c) :: (← percentDecode rest)

/-- Bytes and whole escapes. -/
inductive Scanned : Bytes → Prop
  | nil : Scanned []
  | char {c : UInt8} {rest : Bytes} (hc : c ≠ ch '%') (h : Scanned rest) : Scanned (c :: rest)
  | esc {a b : UInt8} {rest : Bytes} (ha : (hexValue a).isSome) (hb : (hexValue b).isSome)
      (h : Scanned rest) : Scanned (ch '%' :: a :: b :: rest)

/-- A percent sign outside of an escape without two hexadecimal digits after it. -/
def BadEscape (input : Bytes) : Prop :=
  ∃ done rest, input = done ++ ch '%' :: rest ∧ Scanned done ∧
    ¬∃ a b rest', rest = a :: b :: rest' ∧ (hexValue a).isSome ∧ (hexValue b).isSome

end Libjeffpc.Url
