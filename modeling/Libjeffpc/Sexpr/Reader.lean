import Mathlib.Data.PNat.Basic
import Libjeffpc.Int.Str2uint
import Libjeffpc.Lib.Scanner
import Libjeffpc.Unicode.Unicode
import Libjeffpc.Val.Val

/-!
# The reader of s-expressions (`sexpr.l`, `sexpr.y`, `sexpr.c`)

The scanner has the rules of `sexpr.l` in their order. The parser is the automaton that bison makes from
`sexpr.y`, with a stack that may grow up to YYMAXDEPTH entries; the grammar itself is below it. There is
memory for all tokens and for the stack.
-/

namespace Libjeffpc.SexprText

open Lib

/-! ## The scanner -/

inductive Token where
  | lparen
  | rparen
  | dot
  | quote
  | symbol (s : CStr)
  | string (s : CStr)
  | number (i : UInt64)
  | char (i : UInt64)
  | bool (b : Bool)
  | vnull
  deriving DecidableEq

/-- The start conditions; `string` with what is in `buf`. -/
inductive Mode where
  | initial
  | string (buf : Bytes)

/-- Why there is no further token: the input ends, or the scanner says so with `yyterminate`, or it returns
ERROR, which is in no production. -/
inductive Stop where
  | eof
  | unterminated
  | illegal
  | error
  deriving DecidableEq

abbrev Out := Outcome Mode Token Stop

def base (b : Nat) (h : 2 ≤ b ∧ b ≤ 36 := by decide) : Base := ⟨b, h⟩

def getint (str : Bytes) (b : Base) (okretval : UInt64 → Token) : Out :=
  match Int.str2u64Full (cstr str) b 0 with
  | (.ok (), i) => .token (okretval (.ofNat i)) .initial
  | _ => .stop .error

def getutf8 (str : Bytes) (len : Nat) : Out :=
  match Unicode.utf8ToUtf32 (str.take len) 0 with
  | some (.ok (ret, tmp)) => if ret ≠ len then .stop .error else .token (.char (.ofNat tmp)) .initial
  | _ => .stop .error

/-- `[().']` -/
def isPunct (c : UInt8) : Bool := c = ch '(' || c = ch ')' || c = ch '.' || c = ch '\''

def punct (c : UInt8) : Token :=
  if c = ch '(' then .lparen else if c = ch ')' then .rparen else if c = ch '.' then .dot else .quote

def isOctal (c : UInt8) : Bool := ch '0' ≤ c && c ≤ ch '7'

/-- `[0-9a-fA-F]` -/
def isHex (c : UInt8) : Bool := isDigit c || (ch 'a' ≤ c && c ≤ ch 'f') || (ch 'A' ≤ c && c ≤ ch 'F')

/-- `[a-zA-Z+=|&*?_-]` -/
def symbolStart (c : UInt8) : Bool :=
  (ch 'a' ≤ c && c ≤ ch 'z') || (ch 'A' ≤ c && c ≤ ch 'Z') || c = ch '+' || c = ch '=' || c = ch '|' ||
    c = ch '&' || c = ch '*' || c = ch '?' || c = ch '_' || c = ch '-'

/-- `[a-zA-Z0-9+=|&*?_-]` -/
def symbolChar (c : UInt8) : Bool := symbolStart c || isDigit c

def isCont (c : UInt8) : Bool := 0x80 ≤ c && c ≤ 0xbf

/-- The rules for what starts with `#\`. -/
def charRules : List (Rule UInt8 (Bytes → Out)) := [
  -- #\\u[0-9a-fA-F]+
  ⟨.lit (text ['#', '\\', 'u']) (.plus isHex), fun t => getint (t.drop 3) (base 16) .char⟩,
  -- #\\nul
  ⟨.lit (text ['#', '\\', 'n', 'u', 'l']) .done, fun _ => .token (.char 0) .initial⟩,
  -- #\\space
  ⟨.lit (text ['#', '\\', 's', 'p', 'a', 'c', 'e']) .done, fun _ => .token (.char 32) .initial⟩,
  -- #\\[\x00-\x7f]
  ⟨.lit (text ['#', '\\']) (.one (· ≤ 0x7f) .done), fun t => getutf8 (t.drop 2) 1⟩,
  -- #\\[\x80-\xbf]
  ⟨.lit (text ['#', '\\']) (.one isCont .done), fun _ => .stop .illegal⟩,
  -- #\\[\xc0-\xdf][\x80-\xbf]
  ⟨.lit (text ['#', '\\']) (.one (fun c => 0xc0 ≤ c && c ≤ 0xdf) (.rep isCont 1 .done)),
    fun t => getutf8 (t.drop 2) 2⟩,
  -- #\\[\xe0-\xef][\x80-\xbf]{2}
  ⟨.lit (text ['#', '\\']) (.one (fun c => 0xe0 ≤ c && c ≤ 0xef) (.rep isCont 2 .done)),
    fun t => getutf8 (t.drop 2) 3⟩,
  -- #\\[\xf0-\xf7][\x80-\xbf]{3}
  ⟨.lit (text ['#', '\\']) (.one (fun c => 0xf0 ≤ c && c ≤ 0xf7) (.rep isCont 3 .done)),
    fun t => getutf8 (t.drop 2) 4⟩]

/-- The rules of the condition INITIAL. -/
def initialRules : List (Rule UInt8 (Bytes → Out)) := [
  -- \"
  ⟨.lit (text ['"']) .done, fun _ => .more (.string [])⟩,
  -- [().']
  ⟨.one isPunct .done, fun t => .token (punct (t.headD 0)) .initial⟩,
  -- #[tf]
  ⟨.lit (text ['#']) (.one (fun c => c = ch 't' || c = ch 'f') .done),
    fun t => .token (.bool (t.getD 1 0 = ch 't')) .initial⟩,
  -- #n
  ⟨.lit (text ['#', 'n']) .done, fun _ => .token .vnull .initial⟩,
  -- 0[0-7]*
  ⟨.lit (text ['0']) (.many isOctal), fun t => getint t (base 8) .number⟩,
  -- 0x[0-9a-fA-F]+
  ⟨.lit (text ['0', 'x']) (.plus isHex), fun t => getint t (base 16) .number⟩,
  -- #x[0-9a-fA-F]+
  ⟨.lit (text ['#', 'x']) (.plus isHex), fun t => getint (t.drop 2) (base 16) .number⟩] ++
  charRules ++ [
  -- [1-9][0-9]*
  ⟨.one (fun c => ch '1' ≤ c && c ≤ ch '9') (.many isDigit), fun t => getint t (base 10) .number⟩,
  -- [a-zA-Z+=|&*?_-]?[a-zA-Z0-9+=|&*?_-]*
  ⟨.opt symbolStart (.many symbolChar), fun t => .token (.symbol (cstr t)) .initial⟩,
  -- [ \r\t]
  ⟨.one (fun c => c = ch ' ' || c = ch '\r' || c = ch '\t') .done, fun _ => .more .initial⟩,
  -- \n
  ⟨.lit (text ['\n']) .done, fun _ => .more .initial⟩,
  -- ;[^\n]*
  ⟨.lit (text [';']) (.many (· ≠ ch '\n')), fun _ => .more .initial⟩,
  -- .
  ⟨.one (· ≠ ch '\n') .done, fun _ => .stop .illegal⟩]

/-- `\u`: the capacity is the size of a pointer. -/
def unicodeEscape (buf : Bytes) (str : Bytes) : Out :=
  match Int.str2u32Full (cstr str) (base 16) 0 with
  | (.ok (), cp) =>
    match Unicode.utf32ToUtf8 cp (List.replicate 8 0) with
    | some (.ok (.ok len, tmp)) => .more (.string (buf ++ tmp.take len))
    | _ => .stop .error
  | _ => .stop .error

def escapeRule (buf : Bytes) (e : Char) (c : UInt8) : Rule UInt8 (Bytes → Out) :=
  ⟨.lit (text ['\\', e]) .done, fun _ => .more (.string (buf ++ [c]))⟩

/-- The rules of the condition string. -/
def stringRules (buf : Bytes) : List (Rule UInt8 (Bytes → Out)) := [
  -- \"
  ⟨.lit (text ['"']) .done, fun _ => .token (.string (cstr (buf ++ [0]))) .initial⟩,
  -- [^\\"]*
  ⟨.many fun c => c ≠ ch '\\' && c ≠ ch '"', fun t => .more (.string (buf ++ (cstr t).1))⟩,
  escapeRule buf 'n' 10,
  escapeRule buf 't' 9,
  escapeRule buf 'r' 13,
  escapeRule buf 'b' 8,
  escapeRule buf 'f' 12,
  escapeRule buf '\\' (ch '\\'),
  escapeRule buf '"' (ch '"'),
  -- \\u[0-9A-Fa-f]{4}
  ⟨.lit (text ['\\', 'u']) (.rep isHex 4 .done), fun t => unicodeEscape buf (t.drop 2)⟩]

/-- `sexpr_reader_lex`. -/
def lexer : Scanner UInt8 Mode Token Stop where
  rules
    | .initial => initialRules
    | .string buf => stringRules buf
  atEnd
    | .initial => .eof
    | .string _ => .unterminated

/-! ## The parser -/

/-- What is on the stack: an expression is read after a quote, in a list, before and after a dot. -/
inductive Frame where
  | quote
  | items (vals : List Val)
  | dot (head : Val)
  | dotted (head tail : Val)

inductive State where
  | reading (stack : List Frame)
  | accept (v : Val)

def quoteSym : CStr := ⟨text ['q', 'u', 'o', 't', 'e'], by decide⟩

/-- The value of a token that is an expression. -/
def atom : Token → Option Val
  | .symbol s => some (.sym s)
  | .string s => some (.str s)
  | .number i => some (.int i)
  | .bool b => some (.bool b)
  | .char i => some (.char i)
  | .vnull => some .null
  | _ => none

/-- `toklist`. -/
def toklist (vals : List Val) : Val := vals.foldr .cons .nil

/-- An expression has been read. -/
def reduce (v : Val) : List Frame → Option State
  | [] => some (.accept v)
  | .quote :: stack => reduce (.cons (.sym quoteSym) (.cons v .nil)) stack
  | .items vals :: stack => some (.reading (.items (vals ++ [v]) :: stack))
  | .dot head :: stack => some (.reading (.dotted head v :: stack))
  | .dotted _ _ :: _ => none

/-- The state after a token, if the stack may be of any size. -/
def advance (st : State) (t : Token) : Option State :=
  match st, t with
  | .accept _, _ => none
  | .reading (.dotted head tail :: stack), .rparen => reduce (.cons head tail) stack
  | .reading (.dotted _ _ :: _), _ => none
  | .reading (.items vals :: stack), .rparen => reduce (toklist vals) stack
  | .reading (.items [v] :: stack), .dot => some (.reading (.dot v :: stack))
  | .reading stack, .lparen => some (.reading (.items [] :: stack))
  | .reading stack, .quote => some (.reading (.quote :: stack))
  | .reading stack, t =>
    match atom t with
    | some v => reduce v stack
    | none => none

/-- The symbols that are on the stack of the parser for a frame: quote, or the opening parenthesis, the
elements and the dot. An element of a list stays on the stack until the list ends. -/
def Frame.symbols : Frame → Nat
  | .quote => 1
  | .items vals => 1 + vals.length
  | .dot _ => 3
  | .dotted _ _ => 4

def height (stack : List Frame) : Nat := (stack.map Frame.symbols).sum

/-- How many symbols are on the stack once the token has been shifted. The elements of a list become one
`toklist` before the closing parenthesis is. -/
def shiftHeight : State → Token → Nat
  | .reading (.items (_ :: _) :: stack), .rparen => height stack + 3
  | .reading stack, _ => height stack + 1
  -- `document` and the end
  | .accept _, _ => 2

/-- `YYMAXDEPTH`: it is not set in `sexpr.y`. -/
def yyMaxDepth : Nat := 10000

/-- Below the symbols there is the first state, and when the last entry of the stack comes to be used, the
parser gives up. -/
def shift (st : State) (t : Token) : Option State :=
  if shiftHeight st t + 1 < yyMaxDepth then advance st t else none

/-- `sexpr_reader_parse`, of the tokens before the end. -/
def sexprReaderParse (ts : List Token) : Option Val :=
  match ts.foldlM shift (.reading []) with
  | some (.accept v) => some v
  | _ => none

/-! ## `sexpr_parse` -/

/-- `sexpr_reader_input_proc`, called until there is no more; `size` is what there is room for. The number of
bytes that are left is an `int`. -/
def inputProc (size : Nat → ℕ+) (input : Bytes) (pos : Nat) : Bytes :=
  let num := (Int32.ofNat (input.length - pos)).toInt
  if _hnum : num ≤ 0 then []
  else
    let num := min num.toNat (size pos)
    (input.drop pos).take num ++ inputProc size input (pos + num)
termination_by input.length - pos
decreasing_by
  have hpos := (size pos).pos
  have hlen : input.length - pos ≠ 0 := by
    intro hzero
    refine _hnum ?_
    show (Int32.ofNat (input.length - pos)).toInt ≤ 0
    rw [hzero]
    exact le_rfl
  omega

def sexprParse (size : Nat → ℕ+) (str : Bytes) : Except Errno Val :=
  match lexer.scan .initial (inputProc size str 0) with
  | (_, .error) => .error .EINVAL
  | (ts, _) =>
    match sexprReaderParse ts with
    | some v => .ok v
    | none => .error .EINVAL

/-! ## The grammar -/

mutual

/-- `tok`, with the value of its action. -/
inductive Tok : List Token → Val → Prop
  | atom {t : Token} {v : Val} (h : atom t = some v) : Tok [t] v
  | nil : Tok [.lparen, .rparen] .nil
  | list {ts : List Token} {v : Val} (h : TokList ts v) : Tok (.lparen :: (ts ++ [.rparen])) v
  | pair {ts ts' : List Token} {head tail : Val} (h : Tok ts head) (h' : Tok ts' tail) :
      Tok (.lparen :: (ts ++ .dot :: (ts' ++ [.rparen]))) (.cons head tail)
  | quote {ts : List Token} {v : Val} (h : Tok ts v) :
      Tok (.quote :: ts) (.cons (.sym quoteSym) (.cons v .nil))

/-- `toklist`. -/
inductive TokList : List Token → Val → Prop
  | cons {ts ts' : List Token} {head tail : Val} (h : Tok ts head) (h' : TokList ts' tail) :
      TokList (ts ++ ts') (.cons head tail)
  | one {ts : List Token} {v : Val} (h : Tok ts v) : TokList ts (.cons v .nil)

end

mutual

/-- `tok`, with the number of symbols that are on the stack of the parser at most. -/
inductive TokHeight : List Token → Val → Nat → Prop
  | atom {t : Token} {v : Val} (h : atom t = some v) : TokHeight [t] v 1
  | nil : TokHeight [.lparen, .rparen] .nil 2
  | list {ts : List Token} {v : Val} {n : Nat} (h : ListHeight ts v n) :
      TokHeight (.lparen :: (ts ++ [.rparen])) v (max (n + 1) 3)
  | pair {ts ts' : List Token} {head tail : Val} {m n : Nat} (h : TokHeight ts head m)
      (h' : TokHeight ts' tail n) :
      TokHeight (.lparen :: (ts ++ .dot :: (ts' ++ [.rparen]))) (.cons head tail) (max (m + 1) (max (n + 3) 5))
  | quote {ts : List Token} {v : Val} {n : Nat} (h : TokHeight ts v n) :
      TokHeight (.quote :: ts) (.cons (.sym quoteSym) (.cons v .nil)) (n + 1)

/-- `toklist`, from the first of its elements on. -/
inductive ListHeight : List Token → Val → Nat → Prop
  | cons {ts ts' : List Token} {head tail : Val} {m n : Nat} (h : TokHeight ts head m)
      (h' : ListHeight ts' tail n) : ListHeight (ts ++ ts') (.cons head tail) (max m (n + 1))
  | one {ts : List Token} {v : Val} {n : Nat} (h : TokHeight ts v n) : ListHeight ts (.cons v .nil) n

end

/-- The grammar derives the value, and the stack of the parser is large enough. -/
def Parses (ts : List Token) (v : Val) : Prop := ∃ n, TokHeight ts v n ∧ n + 1 < yyMaxDepth

/-- The whole text is split by the rules into white space, comments and tokens. -/
def Splits (str : Bytes) (ts : List Token) : Prop := lexer.Lexes .initial str ts .initial []

/-- These tokens stand before a character that starts no token, or before a string that does not end. -/
def Cut (str : Bytes) (ts : List Token) : Prop := ∃ m rest, lexer.Lexes .initial str ts m rest ∧
  (lexer.step m rest = .stop .illegal ∨ lexer.step m rest = .stop .unterminated)

end Libjeffpc.SexprText
