import Libjeffpc.Buffer.Output
import Libjeffpc.Json.Pack

/-!
# JSON text

Which bytes are a JSON value by the grammar of RFC 7159, a reader that says which value they stand
for, and the text of a value. Inside of strings all bytes from 0x20 on are allowed, also those that do
not form UTF-8.
-/

namespace Libjeffpc.Json

open Lib

/-! ## The grammar -/

def isWs (c : UInt8) : Bool := c = ch ' ' || c = ch '\t' || c = ch '\n' || c = ch '\r'

/-- `ws`. -/
def IsSpace (bs : Bytes) : Prop := ∀ c ∈ bs, isWs c

/-- A structural character, with white space around it. -/
inductive Structural (c : Char) : Bytes → Prop
  | mk {w w' : Bytes} (hw : IsSpace w) (hw' : IsSpace w') : Structural c (w ++ [ch c] ++ w')

def AreDigits (bs : Bytes) : Prop := bs ≠ [] ∧ ∀ c ∈ bs, isDigit c

/-- `int`: no leading zeros. -/
def IsInt (bs : Bytes) : Prop := AreDigits bs ∧ ∀ t, bs = ch '0' :: t → t = []

/-- `frac`. -/
inductive IsFrac : Bytes → Prop
  | mk {ds : Bytes} (h : AreDigits ds) : IsFrac (ch '.' :: ds)

/-- `exp`. -/
inductive IsExp : Bytes → Prop
  | mk {e : Char} {sign ds : Bytes} (he : e = 'e' ∨ e = 'E')
      (hs : sign = [] ∨ sign = [ch '+'] ∨ sign = [ch '-']) (h : AreDigits ds) :
      IsExp (ch e :: sign ++ ds)

/-- `number`. -/
inductive IsNumber : Bytes → Prop
  | mk {minus int frac exp : Bytes} (hm : minus = [] ∨ minus = [ch '-']) (hi : IsInt int)
      (hf : frac = [] ∨ IsFrac frac) (he : exp = [] ∨ IsExp exp) :
      IsNumber (minus ++ int ++ frac ++ exp)

/-- The characters that may follow a backslash, and what they stand for. -/
def unescape (c : UInt8) : Option UInt8 :=
  if c = ch '"' then some (ch '"')
  else if c = ch '\\' then some (ch '\\')
  else if c = ch '/' then some (ch '/')
  else if c = ch 'b' then some 0x08
  else if c = ch 'f' then some 0x0c
  else if c = ch 'n' then some 0x0a
  else if c = ch 'r' then some 0x0d
  else if c = ch 't' then some 0x09
  else none

/-- `char`. -/
inductive IsChar : Bytes → Prop
  | unescaped {c : UInt8} (h : 0x20 ≤ c) (hq : c ≠ ch '"') (hb : c ≠ ch '\\') : IsChar [c]
  | escape {c : UInt8} (h : (unescape c).isSome) : IsChar [ch '\\', c]
  | unicode {a b c d : UInt8} (h : (hex4Value a b c d).isSome) : IsChar [ch '\\', ch 'u', a, b, c, d]

/-- `string`. -/
inductive IsString : Bytes → Prop
  | mk {chars : List Bytes} (h : ∀ c ∈ chars, IsChar c) :
      IsString (ch '"' :: chars.flatten ++ [ch '"'])

/-- The bytes of a member of an object. -/
structure Member where
  name : Bytes
  sep : Bytes
  value : Bytes

def Member.bytes (p : Member) : Bytes := p.name ++ p.sep ++ p.value

/-- `value`. -/
inductive IsValue : Bytes → Prop
  | false : IsValue (text ['f', 'a', 'l', 's', 'e'])
  | null : IsValue (text ['n', 'u', 'l', 'l'])
  | true : IsValue (text ['t', 'r', 'u', 'e'])
  | number {bs : Bytes} (h : IsNumber bs) : IsValue bs
  | string {bs : Bytes} (h : IsString bs) : IsValue bs
  | emptyArray {o c : Bytes} (ho : Structural '[' o) (hc : Structural ']' c) : IsValue (o ++ c)
  | array {o c v : Bytes} (rest : List (Bytes × Bytes)) (ho : Structural '[' o)
      (hc : Structural ']' c) (hv : IsValue v) (hsep : ∀ p ∈ rest, Structural ',' p.1)
      (hrest : ∀ p ∈ rest, IsValue p.2) :
      IsValue (o ++ (v ++ (rest.map fun p => p.1 ++ p.2).flatten) ++ c)
  | emptyObject {o c : Bytes} (ho : Structural '\x7b' o) (hc : Structural '\x7d' c) : IsValue (o ++ c)
  | object {o c : Bytes} (p : Member) (rest : List (Bytes × Member)) (ho : Structural '\x7b' o)
      (hc : Structural '\x7d' c)
      (hname : ∀ q ∈ p :: rest.map Prod.snd, IsString q.name)
      (hcolon : ∀ q ∈ p :: rest.map Prod.snd, Structural ':' q.sep)
      (hv : IsValue p.value) (hsep : ∀ q ∈ rest, Structural ',' q.1)
      (hrest : ∀ q ∈ rest, IsValue q.2.value) :
      IsValue (o ++ (p.bytes ++ (rest.map fun q => q.1 ++ q.2.bytes).flatten) ++ c)

/-! ## A reader -/

def skipWs (bs : Bytes) : Bytes := bs.dropWhile isWs

/-- The UTF-8 bytes of a character of the basic multilingual plane; half of a surrogate pair is none. -/
def utf8 (n : Nat) : Option Bytes :=
  if n < 0x80 then some [.ofNat n]
  else if n < 0x800 then some [.ofNat (0xc0 + n / 64), .ofNat (0x80 + n % 64)]
  else if 0xd800 ≤ n ∧ n < 0xe000 then none
  else some [.ofNat (0xe0 + n / 4096), .ofNat (0x80 + n / 64 % 64), .ofNat (0x80 + n % 64)]

/-- The rest of a string, after its first quote: its bytes, and what follows it. -/
def readChars : Bytes → Option (Bytes × Bytes)
  | [] => none
  | c :: rest =>
    if c = ch '"' then some ([], rest)
    else if c = ch '\\' then
      match rest with
      | [] => none
      | e :: rest =>
        if e = ch 'u' then
          match rest with
          | a :: b :: c :: d :: rest => do
            let bytes ← utf8 (← hex4Value a b c d)
            let (str, rest) ← readChars rest
            return (bytes ++ str, rest)
          | _ => none
        else do
          let byte ← unescape e
          let (str, rest) ← readChars rest
          return (byte :: str, rest)
    else if c < 0x20 then none
    else do
      let (str, rest) ← readChars rest
      return (c :: str, rest)

/-- A string whose bytes are those of a C string. -/
def readString (bs : Bytes) : Option (CStr × Bytes) := do
  let (str, rest) ← readChars bs
  if h : (0 : UInt8) ∉ str then return (⟨str, h⟩, rest) else none

/-- A number goes on with one of these. -/
def inNumber (c : UInt8) : Bool := isDigit c || c = ch '.' || c = ch 'e' || c = ch 'E'

/-- What follows a value does not belong to it: the end, or a byte that is not part of a number. -/
def Delimited (rest : Bytes) : Prop := ∀ c t, rest = c :: t → inNumber c = false

/-- A number that a VT_INT can have. -/
def readNumber (bs : Bytes) : Option (UInt64 × Bytes) :=
  let ds := bs.takeWhile isDigit
  let rest := bs.dropWhile isDigit
  if ds.head? = some (ch '0') ∧ ds.length ≠ 1 then none
  else if rest.head?.any inNumber then none
  else if decimalValue ds < 2 ^ 64 then some (.ofNat (decimalValue ds), rest)
  else none

def readLiteral (bs : Bytes) : Option (Val × Bytes) :=
  if text ['n', 'u', 'l', 'l'] <+: bs then some (.null, bs.drop 4)
  else if text ['t', 'r', 'u', 'e'] <+: bs then some (.bool true, bs.drop 4)
  else if text ['f', 'a', 'l', 's', 'e'] <+: bs then some (.bool false, bs.drop 5)
  else none

mutual

/-- A value and what follows it; the first argument limits how deep and how long arrays and objects
are. -/
def readVal : Nat → Bytes → Option (Val × Bytes)
  | 0, _ => none
  | n + 1, bs =>
    match skipWs bs with
    | [] => none
    | c :: rest =>
      if c = ch '"' then do
        let (str, rest) ← readString rest
        return (.str str, rest)
      else if c = ch '[' then
        if (skipWs rest).head? = some (ch ']') then some (.array [], (skipWs rest).tail)
        else do
          let (vals, rest) ← readElems n rest
          return (.array vals, rest)
      else if c = ch '\x7b' then
        if (skipWs rest).head? = some (ch '\x7d') then some (.nvl [], (skipWs rest).tail)
        else do
          let (pairs, rest) ← readMembers n rest
          return (.nvl (nvSetAll [] pairs), rest)
      else if isDigit c then do
        let (i, rest) ← readNumber (c :: rest)
        return (.int i, rest)
      else readLiteral (c :: rest)

/-- The elements of an array, to its end. -/
def readElems : Nat → Bytes → Option (List Val × Bytes)
  | 0, _ => none
  | n + 1, bs => do
    let (v, rest) ← readVal n bs
    match skipWs rest with
    | [] => none
    | c :: rest =>
      if c = ch ',' then do
        let (vals, rest) ← readElems n rest
        return (v :: vals, rest)
      else if c = ch ']' then some ([v], rest)
      else none

/-- The members of an object, to its end. -/
def readMembers : Nat → Bytes → Option (List (CStr × Val) × Bytes)
  | 0, _ => none
  | n + 1, bs =>
    match skipWs bs with
    | [] => none
    | c :: rest =>
      if c = ch '"' then do
        let (name, rest) ← readString rest
        match skipWs rest with
        | [] => none
        | c :: rest =>
          if c = ch ':' then do
            let (v, rest) ← readVal n rest
            match skipWs rest with
            | [] => none
            | c :: rest =>
              if c = ch ',' then do
                let (pairs, rest) ← readMembers n rest
                return ((name, v) :: pairs, rest)
              else if c = ch '\x7d' then some ([(name, v)], rest)
              else none
          else none
      else none

end

/-- One value at the start of the bytes; a value cannot be nested deeper than it is long. -/
def read (bs : Bytes) : Option (Val × Bytes) := readVal bs.length bs

/-! ## The text of a value -/

/-- The bytes for one byte of a string. -/
def escaped (c : UInt8) : Bytes :=
  if c ≤ 0x1f then
    match mapped c with
    | some str => str
    | none => text ['\\', 'u'] ++ hex4 c.toNat
  else if c = ch '"' ∨ c = ch '\\' then [ch '\\', c]
  else [c]

def outputString (str : Bytes) : Output :=
  ⟨[ch '"'] :: str.map escaped ++ [[ch '"']], none⟩

mutual

def output : Val → Output
  | .null => .chunk (text ['n', 'u', 'l', 'l'])
  | .int i => .chunk (decimal i.toNat)
  | .str s => outputString s.1
  | .sym _ => .fail .ENOTSUP
  | .bool b => .chunk (if b then text ['t', 'r', 'u', 'e'] else text ['f', 'a', 'l', 's', 'e'])
  | .nil => .fail .ENOTSUP
  | .cons _ _ => .fail .ENOTSUP
  | .char _ => .fail .ENOTSUP
  | .blob _ => .fail .ENOTSUP
  | .array vals =>
    (Output.chunk [ch '[']).andThen ((outputElems 0 vals).andThen (.chunk [ch ']']))
  | .nvl pairs =>
    (Output.chunk [ch '\x7b']).andThen ((outputPairs true pairs).andThen (.chunk [ch '\x7d']))

def outputElems (i : Nat) : List Val → Output
  | [] => .done
  | v :: vals =>
    (if i ≠ 0 then Output.chunk [ch ','] else .done).andThen
      ((output v).andThen (outputElems (i + 1) vals))

def outputPairs (first : Bool) : List (CStr × Val) → Output
  | [] => .done
  | (name, value) :: pairs =>
    (if !first then Output.chunk [ch ','] else .done).andThen ((outputString name.1).andThen
      ((Output.chunk [ch ':']).andThen ((output value).andThen (outputPairs false pairs))))

end

/-- The values that have a text: nvlists have every name once, in the order of their tree. -/
inductive Plain : Val → Prop
  | null : Plain .null
  | int (i : UInt64) : Plain (.int i)
  | bool (b : Bool) : Plain (.bool b)
  | str (s : CStr) : Plain (.str s)
  | array {vals : List Val} (h : ∀ v ∈ vals, Plain v) : Plain (.array vals)
  | nvl {pairs : List (CStr × Val)} (hsorted : NvSorted pairs) (h : ∀ p ∈ pairs, Plain p.2) :
      Plain (.nvl pairs)

end Libjeffpc.Json
