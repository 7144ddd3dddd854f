import Libjeffpc.Buffer.ByteList

/-!
# Accesses that stay inside of a buffer

What the positional functions and `buffer_seek` should do for all values that their arguments can have,
also where the sum of an offset and a length does not fit in a `size_t`.
-/

namespace Libjeffpc

open Lib

/-- The arguments of a call are values of their C types. -/
def BufCall.Typed : BufCall → Prop
  | .append data => data.length < 2 ^ 64
  | .read len => len < 2 ^ 64
  | .write buf => buf.length < 2 ^ 64
  | .pread len off => len < 2 ^ 64 ∧ off < 2 ^ 64
  | .pwrite buf off => buf.length < 2 ^ 64 ∧ off < 2 ^ 64
  | .seek offset _ => -2 ^ 63 ≤ offset ∧ offset < 2 ^ 63
  | .truncate size => size < 2 ^ 64

/-- The states that a program can bring a heap or static buffer to. -/
inductive BufferState.Reachable (m : Machine) : BufferState → Prop where
  | initial {b : Buffer} (h : b.Initial m) (k : Nat) : Reachable m ⟨b, k⟩
  | step {s s' : BufferState} {c : BufCall} {r : Except Errno BufResult} (hs : Reachable m s)
      (hc : c.Typed) (h : Returns (c.exec m) s r s') : Reachable m s'

/-- `buffer_pread` copies the bytes that are there, from the places where they are. -/
def ReadsInside (m : Machine) (s : BufferState) (len off : Nat) : Prop :=
  Returns (BufCall.exec m (.pread len off)) s (.ok (.bytes ((s.buffer.contents.drop off).take len))) s

/-- A call that writes up to `last` fails and changes nothing, or the buffer has room for what it
wrote. -/
def WritesInside (m : Machine) (s : BufferState) (c : BufCall) (last : Nat) : Prop :=
  ∃ r s', Returns (c.exec m) s r s' ∧
    ((∃ e, r = .error e) ∧ s'.buffer = s.buffer ∨
      (∃ x, r = .ok x) ∧ s'.buffer.size ≤ s'.buffer.allocsize ∧ last ≤ s'.buffer.size ∧
        s'.buffer.allocsize ≤ s'.buffer.memory.length)

/-- A sum of 2^64 + `n` is refused: the buffer is read-only, or even `n` bytes do not fit. -/
def RefusesWrapped (m : Machine) (s : BufferState) (n : Nat) : Prop :=
  s.buffer.ops = .staticRo ∨ s.buffer.allocsize < n ∧
    (s.buffer.ops = .heap → m.grants s.allocs (.bytes n) = false)

/-- `buffer_seek` moves to its target if that is a place in the buffer that can be returned, and fails
otherwise. -/
def SeeksExactly (s : BufferState) (offset : Int) (whence : Whence) : Prop :=
  let t := s.buffer.seekTo offset whence
  if 0 ≤ t ∧ t ≤ s.buffer.size ∧ t ≤ ssizeMax then
    Returns (bufferSeek offset whence) s (.ok t.toNat) { s with buffer := { s.buffer with off := t.toNat } }
  else ∃ e, Returns (bufferSeek offset whence) s (.error e) s

end Libjeffpc
