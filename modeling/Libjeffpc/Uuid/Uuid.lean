import Libjeffpc.Lib.Buf
import Libjeffpc.Lib.Numeral

/-!
# UUIDs as text (`uuid.c`, `hexdump.c`)

A string is the array of its bytes up to the NUL, so that a look behind the NUL is a fault. `raw` is the
array of 16 bytes of a `struct xuuid`.
-/

namespace Libjeffpc.Uuid

open Lib

/-! ## `hexdump` -/

def uppercase : Bytes := text
  ['0', '1', '2', '3', '4', '5', '6', '7', '8', '9', 'A', 'B', 'C', 'D', 'E', 'F']

def lowercase : Bytes := text
  ['0', '1', '2', '3', '4', '5', '6', '7', '8', '9', 'a', 'b', 'c', 'd', 'e', 'f']

/-- To `out + off`. -/
def hexdump (out : Bytes) (off : Nat) (inp : Bytes) (upper : Bool) : Comp Bytes :=
  let table := if upper then uppercase else lowercase
  (List.range inp.length).foldlM (fun out i => do
    let b ← fetch inp i
    let out ← store out (off + i * 2) (← fetch table (b >>> 4).toNat)
    store out (off + (i * 2 + 1)) (← fetch table (b &&& 0xf).toNat)) out

/-! ## `xuuid_parse` -/

/-- A `char` is signed. -/
def parseDigit (c : Int8) : Int :=
  if 48 ≤ c ∧ c ≤ 57 then c.toInt - 48
  else if 97 ≤ c ∧ c ≤ 102 then c.toInt - 97 + 10
  else if 65 ≤ c ∧ c ≤ 70 then c.toInt - 65 + 10
  else -1

/-- A condition with an effect on the bytes of the UUID; `<&&>` is `&&`. -/
abbrev Parse := StateT Bytes Comp Bool

/-- `parse_part(&raw[o], &in[p], n)` from byte `i` on. -/
def parsePart (inp : Bytes) (o p : Nat) : Nat → Nat → Parse
  | 0, _ => pure true
  | n + 1, i => do
    let a := parseDigit (← fetch inp (p + 2 * i)).toInt8
    let b := parseDigit (← fetch inp (p + (2 * i + 1))).toInt8
    if a < 0 ∨ b < 0 then pure false
    else
      set (← store (← get) (o + i) (.ofNat (a.toNat <<< 4 ||| b.toNat)))
      parsePart inp o p n (i + 1)

/-- `in[i] == c` -/
def isChar (inp : Bytes) (i : Nat) (c : UInt8) : Parse := do return (← fetch inp i) = c

/-- `__xuuid_parse`. -/
def xuuidParseReq (inp : Bytes) (reqNul : Bool) : Parse :=
  isChar inp 8 (ch '-') <&&> isChar inp 13 (ch '-') <&&>
    isChar inp 18 (ch '-') <&&> isChar inp 23 (ch '-') <&&>
    (pure !reqNul <||> isChar inp 36 0) <&&>
    parsePart inp 0 0 4 0 <&&>
    parsePart inp 4 9 2 0 <&&>
    parsePart inp 6 14 2 0 <&&>
    parsePart inp 8 19 2 0 <&&>
    parsePart inp 10 24 6 0

def xuuidParse (inp : Bytes) : Parse := xuuidParseReq inp true

def xuuidParseNoNul (inp : Bytes) : Parse := xuuidParseReq inp false

/-! ## `xuuid_unparse` -/

def xuuidUnparse (raw out : Bytes) : Comp Bytes := do
  let out ← hexdump out 0 (← slice raw 0 4) false
  let out ← hexdump out 9 (← slice raw 4 2) false
  let out ← hexdump out 14 (← slice raw 6 2) false
  let out ← hexdump out 19 (← slice raw 8 2) false
  let out ← hexdump out 24 (← slice raw 10 6) false
  let out ← store out 8 (ch '-')
  let out ← store out 13 (ch '-')
  let out ← store out 18 (ch '-')
  let out ← store out 23 (ch '-')
  store out 36 0

/-! ## What a UUID looks like -/

def separators : List Nat := [8, 13, 18, 23]

/-- The bytes start with 36 characters, hexadecimal digits of either case and separators. -/
def StartsWithUuid (s : Bytes) : Prop :=
  ∀ i < 36, if i ∈ separators then s[i]? = some (ch '-') else ∃ c, s[i]? = some c ∧ (hexValue c).isSome

instance (s : Bytes) : Decidable (StartsWithUuid s) :=
  decidable_of_iff ((∀ i : Nat, i < 36 → i ∈ separators → s[i]? = some (ch '-')) ∧
      ∀ i : Nat, i < 36 → i ∉ separators → s[i]?.any fun c => (hexValue c).isSome) <| by
    simp only [StartsWithUuid, ← forall_and, Option.any_eq_true]
    refine forall₂_congr fun i _ => ?_
    split_ifs with hi <;> simp [hi]

/-- `tolower` -/
def lower (c : UInt8) : UInt8 := if ch 'A' ≤ c && c ≤ ch 'Z' then c + 32 else c

/-- The separators that are there lead to no place behind the NUL. -/
structure LongEnough (s : Bytes) : Prop where
  first : 8 ≤ s.length
  second (h8 : s[8]? = some (ch '-')) : 13 ≤ s.length
  third (h8 : s[8]? = some (ch '-')) (h13 : s[13]? = some (ch '-')) : 18 ≤ s.length
  fourth (h8 : s[8]? = some (ch '-')) (h13 : s[13]? = some (ch '-')) (h18 : s[18]? = some (ch '-')) :
    23 ≤ s.length
  last (h8 : s[8]? = some (ch '-')) (h13 : s[13]? = some (ch '-')) (h18 : s[18]? = some (ch '-'))
    (h23 : s[23]? = some (ch '-')) : 36 ≤ s.length

end Libjeffpc.Uuid
