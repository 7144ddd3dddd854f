import Libjeffpc.Buffer.Buffer

/-!
# A byte list with a cursor

What a heap or static buffer is for: a list of bytes that can be extended, overwritten and cut, and a
cursor that is nowhere behind its end. `spec` is what a call returns and does if it is not refused;
`Refusal` says when a call is refused, and how.
-/

namespace Libjeffpc

open Lib

structure ByteList where
  bytes : Bytes
  cursor : Nat
  deriving DecidableEq, Repr

/-- The calls of a program that uses one buffer. -/
inductive BufCall where
  | append (data : Bytes)
  | read (len : Nat)
  | write (buf : Bytes)
  | pread (len off : Nat)
  | pwrite (buf : Bytes) (off : Nat)
  | seek (offset : Int) (whence : Whence)
  | truncate (size : Nat)

/-- What a call returns. -/
inductive BufResult where
  | done
  | bytes (b : Bytes)
  | count (n : Nat)
  deriving DecidableEq, Repr

namespace ByteList

variable (σ : ByteList)

/-- The first `n` bytes, with zeros where there are none. -/
def padTake (n : Nat) : Bytes := σ.bytes.take n ++ List.replicate (n - σ.bytes.length) 0

def pwrite (buf : Bytes) (off : Nat) : ByteList :=
  { σ with bytes := σ.padTake off ++ buf ++ σ.bytes.drop (off + buf.length) }

def truncate (size : Nat) : ByteList :=
  { bytes := σ.padTake size, cursor := min σ.cursor size }

def pread (len off : Nat) : Bytes := (σ.bytes.drop off).take len

/-- Where a seek starts to count. -/
def base : Whence → Option Nat
  | .seekSet => some 0
  | .seekCur => some σ.cursor
  | .seekEnd => some σ.bytes.length
  | .invalid => none

/-- Where a seek leads to: a place between the first byte and the end. -/
def target (offset : Int) (whence : Whence) : Option Nat :=
  match σ.base whence with
  | none => none
  | some base =>
    if 0 ≤ base + offset ∧ base + offset ≤ σ.bytes.length then some (base + offset).toNat else none

/-- What a call returns, and the list after it; `none` for a seek to a place that does not exist. -/
def spec : BufCall → Option (BufResult × ByteList)
  | .append data => some (.done, { σ with bytes := σ.bytes ++ data })
  | .read len =>
    some (.bytes (σ.pread len σ.cursor),
      { σ with cursor := σ.cursor + (σ.pread len σ.cursor).length })
  | .write buf =>
    some (.count buf.length, { σ.pwrite buf σ.cursor with cursor := σ.cursor + buf.length })
  | .pread len off => some (.bytes (σ.pread len off), σ)
  | .pwrite buf off => some (.count buf.length, σ.pwrite buf off)
  | .seek offset whence =>
    (σ.target offset whence).map fun n => (.count n, { σ with cursor := n })
  | .truncate size => some (.done, σ.truncate size)

/-- The list after a run with the given results: a call that fails changes nothing, and the others
return what `spec` says. -/
def replay (σ : ByteList) : List BufCall → List (Except Errno BufResult) → Option ByteList
  | [], [] => some σ
  | _ :: cs, .error _ :: rs => replay σ cs rs
  | c :: cs, .ok x :: rs =>
    match σ.spec c with
    | none => none
    | some (y, σ') => if x = y then replay σ' cs rs else none
  | _, _ => none

/-- The room that a call needs, if it changes the bytes. -/
def needs : BufCall → Option Nat
  | .append data => some (σ.bytes.length + data.length)
  | .write buf => some (σ.cursor + buf.length)
  | .pwrite buf off => some (off + buf.length)
  | .truncate size => some size
  | _ => none

/-- The arguments of a call are of their types, and no sum of an offset and a length overflows. -/
def InRange : BufCall → Prop
  | .append data => σ.bytes.length + data.length < 2 ^ 64
  | .read len => σ.cursor + len < 2 ^ 64
  | .write buf => σ.cursor + buf.length < 2 ^ 64
  | .pread len off => off + len < 2 ^ 64
  | .pwrite buf off => off + buf.length < 2 ^ 64
  | .seek offset _ => -2 ^ 63 ≤ offset ∧ offset < 2 ^ 63
  | .truncate size => size < 2 ^ 64

end ByteList

/-- A call that negates the least `off_t`. -/
def BufCall.NegatesMin : BufCall → Prop
  | .seek offset whence => offset = -2 ^ 63 ∧ (whence = .seekCur ∨ whence = .seekEnd)
  | _ => False

/-- Where a seek leads to, in exact arithmetic. -/
def Buffer.seekTo (b : Buffer) (offset : Int) : Whence → Int
  | .seekSet => offset
  | .seekCur => b.off + offset
  | .seekEnd => b.size + offset
  | .invalid => -1

/-- The list that a buffer holds. -/
def Buffer.toByteList (b : Buffer) : ByteList := ⟨b.contents, b.off⟩

/-- Why a call is refused: the `k`-th request is the one for more memory. -/
inductive Refusal (m : Machine) (b : Buffer) (k : Nat) : BufCall → Errno → Prop where
  | seek {offset : Int} {whence : Whence} (h : b.toByteList.target offset whence = none) :
      Refusal m b k (.seek offset whence) .EINVAL
  | readOnly {c : BufCall} {n : Nat} (h : b.toByteList.needs c = some n) (ho : b.ops = .staticRo) :
      Refusal m b k c .EROFS
  | full {c : BufCall} {n : Nat} (h : b.toByteList.needs c = some n) (ho : b.ops = .staticRw)
      (hn : b.allocsize < n) : Refusal m b k c .ENOSPC
  | noMemory {c : BufCall} {n : Nat} (h : b.toByteList.needs c = some n) (ho : b.ops = .heap)
      (hn : b.allocsize < n) (hg : m.grants k (.bytes n) = false) : Refusal m b k c .ENOMEM

/-- One call on a buffer. -/
def BufCall.exec (m : Machine) : BufCall → BufM BufResult
  | .append data => do
    bufferAppend m data
    return .done
  | .read len => do return .bytes (← bufferRead len)
  | .write buf => do return .count (← bufferWrite m buf)
  | .pread len off => do return .bytes (← bufferPread len off)
  | .pwrite buf off => do return .count (← bufferPwrite m buf off)
  | .seek offset whence => do return .count (← bufferSeek offset whence)
  | .truncate size => do
    bufferTruncate m size
    return .done

/-- A program goes on after an error. -/
def BufCall.run (m : Machine) (s : BufferState) :
    List BufCall → Comp (List (Except Errno BufResult) × BufferState)
  | [] => pure ([], s)
  | c :: cs => do
    let (r, s) ← StateT.run (ExceptT.run (c.exec m)) s
    let (rs, s) ← BufCall.run m s cs
    pure (r :: rs, s)

/-- Every call of a run is in range when it is made. -/
def BufCall.InRangeRun (m : Machine) (s : BufferState) : List BufCall → Prop
  | [] => True
  | c :: cs => s.buffer.toByteList.InRange c ∧
    ∀ r s', Returns (c.exec m) s r s' → BufCall.InRangeRun m s' cs

/-- A buffer as the program gets it: `buffer_init_heap`, or `buffer_init_static` over an object. -/
inductive Buffer.Initial (m : Machine) : Buffer → Prop where
  | heap {expectedSize : Nat} (h : expectedSize ≤ ssizeMax) :
      Initial m (bufferInitHeap m expectedSize)
  | static {bytes : Bytes} {size bufsize : Nat} {writable : Bool} {b : Buffer}
      (hs : bufsize ≤ bytes.length) (hb : bytes.length ≤ ssizeMax)
      (h : bufferInitStatic (some bytes) size bufsize writable = pure b) : Initial m b

end Libjeffpc
