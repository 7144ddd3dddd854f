import Libjeffpc.Sexpr.Reader

/-!
# The input of the reader (`sexpr_reader_input_proc`)

The scanner asks for more as long as it is given something, each time with some room for it. The position
and the length are of type `size_t`, the room and the number of bytes of type `int`.
-/

namespace Libjeffpc.SexprText

open Lib

/-- `struct sexpr_parser_state`: the input, and how far it has been read. -/
structure ParserState where
  input : Bytes
  len : UInt64
  pos : UInt64

/-- As `sexpr_parse` sets it up. -/
def ParserState.start (str : Bytes) : ParserState := ⟨str, .ofNat str.length, 0⟩

/-- `sexpr_reader_input_proc`: what it returns, and the bytes that it copies into `buf`. -/
def sexprReaderInputProc (size : Int32) (x : ParserState) : Int32 × Bytes × ParserState :=
  let num := (x.len - x.pos).toUInt32.toInt32
  if num ≤ 0 then (0, [], x)
  else
    let num := if size < num then size else num
    (num, (x.input.drop x.pos.toNat).take num.toInt.toNat, { x with pos := x.pos + .ofInt num.toInt })

/-! ## One call after the other -/

section Calls

variable (size : Nat → Int32) (str : Bytes)

/-- The state before call `k`, which has room for `size k` bytes. -/
def stateBefore : Nat → ParserState
  | 0 => .start str
  | k + 1 => (sexprReaderInputProc (size k) (stateBefore k)).2.2

def returned (k : Nat) : Int32 := (sexprReaderInputProc (size k) (stateBefore size str k)).1

def chunk (k : Nat) : Bytes := (sexprReaderInputProc (size k) (stateBefore size str k)).2.1

/-- The chunks up to the first call that returns 0 are the input, each of them is as long as the call says
and has room, and the position stays inside the input. -/
structure Feeds : Prop where
  whole : ∃ n, (∀ k < n, returned size str k ≠ 0) ∧ returned size str n = 0 ∧
    (List.range n).flatMap (chunk size str) = str
  length_eq (k : Nat) : ((chunk size str k).length : Int) = (returned size str k).toInt
  fits (k : Nat) : ((chunk size str k).length : Int) ≤ (size k).toInt
  inside (k : Nat) : (stateBefore size str k).pos ≤ (stateBefore size str k).len

end Calls

end Libjeffpc.SexprText
