import Libjeffpc.Sexpr.Reader

/-!
# Dumping s-expressions (`sexpr_dump.c`)

There is memory for all strings. A value that has no text is one that `dump_atom` refuses. `isprint` is that
of the C locale.
-/

namespace Libjeffpc.SexprText

open Lib

/-! ## Atoms -/

/-- The switch of `escape_str`. -/
def escapeByte (c : UInt8) : Bytes :=
  if c = 10 then text ['\\', 'n']
  else if c = 9 then text ['\\', 't']
  else if c = 13 then text ['\\', 'r']
  else if c = 8 then text ['\\', 'b']
  else if c = 12 then text ['\\', 'f']
  else if c = ch '\\' then text ['\\', '\\']
  else if c = ch '"' then text ['\\', '"']
  else [c]

def escapeStr (s : Bytes) : Bytes := s.flatMap escapeByte

/-- The argument of `isprint` is an `int`. -/
def isprintArg (i : UInt64) : Int32 := i.toUInt32.toInt32

def isprint (c : Int32) : Bool := 0x20 ≤ c && c ≤ 0x7e

/-- `%04X`. -/
def hexText (n : Nat) : Bytes :=
  let digits := (Nat.digits 16 n).reverse.map hexDigit
  List.replicate (4 - digits.length) (ch '0') ++ digits

def dumpChar (i : UInt64) : Bytes :=
  if i = 0 then text ['#', '\\', 'n', 'u', 'l']
  else if i = 32 then text ['#', '\\', 's', 'p', 'a', 'c', 'e']
  else if isprint (isprintArg i) then text ['#', '\\'] ++ [i.toUInt8]
  else text ['#', '\\', 'u'] ++ hexText i.toNat

/-- `dump_atom`; the last two cases are not atoms. -/
def dumpAtom : Val → Except Errno Bytes
  | .sym s => .ok s.1
  | .str s => .ok ([ch '"'] ++ escapeStr s.1 ++ [ch '"'])
  | .null => .ok (text ['#', 'n'])
  | .bool b => .ok (if b then text ['#', 't'] else text ['#', 'f'])
  | .char i => .ok (dumpChar i)
  | .int i => .ok (decimal i.toNat)
  | .blob _ | .array _ | .nvl _ => .error .ENOTSUP
  | .nil | .cons _ _ => .error .EINVAL

/-! ## Lists -/

/-- The `(quote . tail)` of `dump_cons_pretty`. -/
def isQuote : Val → Bool
  | .sym s => s = quoteSym
  | _ => false

/-- `dump_cons_raw`, with the parts that have been dumped. -/
def joinRaw (hstr tstr : Bytes) : Bytes :=
  text ['('] ++ hstr ++ text [' ', '.', ' '] ++ tstr ++ text [')']

/-- `dump_cons_pretty`, with the parts that have been dumped. -/
def joinPretty (tail : Val) (hstr tstr : Bytes) : Bytes :=
  match tail with
  -- head . ()		-> head
  | .nil => hstr
  -- head . (x . y)	-> head x . y
  | .cons _ _ => hstr ++ text [' '] ++ tstr
  -- head . tail		-> head . tail
  | _ => hstr ++ text [' ', '.', ' '] ++ tstr

def wrapList (wrap : Bool) (tmp : Bytes) : Bytes := if wrap then text ['('] ++ tmp ++ text [')'] else tmp

def doSexprDump (raw : Bool) : Val → Bool → Except Errno Bytes
  | .nil, _ => .ok (text ['(', ')'])
  | .cons head tail, wrap =>
    if raw then do
      let hstr ← doSexprDump raw head true
      let tstr ← doSexprDump raw tail true
      return joinRaw hstr tstr
    else if isQuote head then do
      -- quote . tail		-> 'tail
      let tmp ← doSexprDump raw tail false
      return text ['\''] ++ tmp
    else do
      let hstr ← doSexprDump raw head true
      let tstr ← doSexprDump raw tail false
      return wrapList wrap (joinPretty tail hstr tstr)
  | v, _ => dumpAtom v

def sexprDump (lv : Val) (raw : Bool) : Except Errno Bytes := doSexprDump raw lv true

/-! ## Values that have been read -/

/-- The text is a symbol for the scanner. -/
def IsSymbol (s : CStr) : Prop := lexer.step .initial s.1 = .token (.symbol s) (.initial, [])

/-- The values that an expression can have. -/
inductive Readable : Val → Prop
  | null : Readable .null
  | int (i : UInt64) : Readable (.int i)
  | str (s : CStr) : Readable (.str s)
  | sym {s : CStr} (h : IsSymbol s) : Readable (.sym s)
  | bool (b : Bool) : Readable (.bool b)
  | char (c : UInt64) : Readable (.char c)
  | nil : Readable .nil
  | cons {head tail : Val} (hh : Readable head) (ht : Readable tail) : Readable (.cons head tail)

/-- The reader has returned this value. -/
def Returned (v : Val) : Prop := ∃ size str, sexprParse size str = .ok v

/-- All characters are codepoints. -/
def Codepoints : Val → Prop
  | .char c => c.toNat ≤ 0x10ffff
  | .cons head tail => Codepoints head ∧ Codepoints tail
  | _ => True

/-- The symbol `quote` is nowhere in the value. -/
def QuoteFree : Val → Prop
  | .sym s => s ≠ quoteSym
  | .cons head tail => QuoteFree head ∧ QuoteFree tail
  | _ => True

/-- A list, or a dotted pair: there is one element before the dot at most. -/
def Plain : Val → Prop
  | .cons head tail => Plain head ∧ Plain tail ∧
    match tail with
    | .cons _ tail => ProperTail tail
    | _ => True
  | _ => True
where
  /-- The rest of a list. -/
  ProperTail : Val → Prop
    | .nil => True
    | .cons _ tail => ProperTail tail
    | _ => False

/-- How long the text of an atom is. -/
def atomLength : Val → Nat
  | .sym s => s.1.length
  | .str s => 2 + s.1.length + s.1.countP fun c => c ∈ [10, 9, 13, 8, 12, ch '\\', ch '"']
  | .int i => max 1 (Nat.digits 10 i.toNat).length
  | .char c =>
    if c = 0 then 5 else if c = 32 then 7
    else if 0x20 ≤ c.toNat % 2 ^ 32 ∧ c.toNat % 2 ^ 32 ≤ 0x7e then 3
    else 3 + max 4 (Nat.digits 16 c.toNat).length
  | _ => 2

/-- How long the text of a value without the symbol `quote` is. -/
def textLength (raw : Bool) : Val → Bool → Nat
  | .cons head tail, wrap =>
    if raw then textLength raw head true + textLength raw tail true + 5
    else
      let rest := match tail with
        | .nil => 0
        | .cons _ _ => 1 + textLength raw tail false
        | _ => 3 + textLength raw tail false
      textLength raw head true + rest + if wrap then 2 else 0
  | v, _ => atomLength v

/-- How many symbols are on the stack of the parser at most while it reads the raw dump. -/
def rawHeight : Val → Nat
  | .nil => 2
  | .cons head tail => max (rawHeight head + 1) (max (rawHeight tail + 3) 5)
  | _ => 1

/-- A character that is not printed for another one: the low 32 bits are not a character that is printable. -/
def Printed (c : UInt64) : Prop :=
  c.toNat < 2 ^ 32 ∨ ¬(0x20 ≤ c.toNat % 2 ^ 32 ∧ c.toNat % 2 ^ 32 ≤ 0x7e)

/-- An `int` that is the value of an unsigned char. -/
def InUnsignedChar (i : Int32) : Prop := 0 ≤ i.toInt ∧ i.toInt ≤ 255

/-- Dumping the value and reading the text gives the value back. -/
def RoundTrips (raw : Bool) (size : Nat → ℕ+) (v : Val) : Prop :=
  ∃ str, sexprDump v raw = .ok str ∧ sexprParse size str = .ok v

end Libjeffpc.SexprText
