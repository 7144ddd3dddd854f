import Libjeffpc.Lib.Numeral
import Libjeffpc.Nvl.Nvl

/-!
# The headers of a response (`scgisvc.c`)

The status and the headers are formatted one after the other in an array of 256 bytes on the stack, and
what is in the array is written. `write` may take any part of what it is given (`io_common.h`).
-/

namespace Libjeffpc.Scgi

open Lib Libjeffpc.Tree Libjeffpc.Nvl

/-- A file descriptor that is written to: the bytes that were taken, how many more are taken before an
error (if there is one), and how many bytes after the first one each of the next calls of `write` may
take. -/
structure OutFd where
  output : Bytes
  limit : Option (Nat × Errno)
  pieces : Nat → Nat

/-- `write`: at least one byte of what there is, or an error; how many bytes were taken. -/
def write (fd : OutFd) (buf : Bytes) : Except Errno Nat × OutFd :=
  let n := min (fd.pieces 0 + 1) buf.length
  let pieces := fun k => fd.pieces (k + 1)
  match fd.limit with
  | none => (.ok n, { fd with output := fd.output ++ buf.take n, pieces })
  | some (room, e) =>
    if room = 0 then (.error e, { fd with pieces })
    else
      let n := min n room
      (.ok n, { output := fd.output ++ buf.take n, limit := some (room - n, e), pieces })

/-- `xwrite` (`rw`): all of the bytes, or an error. -/
def xwrite (fd : OutFd) (buf : Bytes) : Except Errno Unit × OutFd :=
  if buf = [] then (.ok (), fd)
  else
    match write fd buf with
    | (.error e, fd) => (.error e, fd)
    | (.ok n, fd) =>
      if n = 0 then (.error .EPIPE, fd)
      else xwrite fd (buf.drop n)
termination_by buf.length
decreasing_by
  have := List.length_pos_of_ne_nil ‹¬buf = []›
  rw [List.length_drop]
  omega

def xwriteStr (fd : OutFd) (s : CStr) : Except Errno Unit × OutFd := xwrite fd s.1

/-- `snprintf` into an array of `size` bytes, the last of which is for the NUL; the string that is in the
array then. -/
def snprintf (size : Nat) (formatted : Bytes) : CStr := cstr (formatted.take (size - 1))

/-- `sizeof(tmp)`. -/
def tmpSize : Nat := 256

/-- `Status: %u\n`. -/
def statusLine (status : UInt32) : Bytes :=
  text ['S', 't', 'a', 't', 'u', 's', ':', ' '] ++ decimal status.toNat ++ [ch '\n']

/-- `%s: %s\n`. -/
def headerLine (name value : CStr) : Bytes := name.1 ++ text [':', ' '] ++ value.1 ++ [ch '\n']

section Write

variable {N A M : Type} [DecidableEq N] [DecidableEq A] [TreeMem A M]

/-- A round of the `nvl_for_each` of `scgi_write_headers`; after the last one the empty line is
written. -/
def writeRound (h : Heap N A M) (headers : N) (s : Option A × OutFd) :
    Comp ((Option A × OutFd) ⊕ (Except Errno Unit × OutFd)) :=
  match s.1 with
  | none => pure (.inr (xwriteStr s.2 (cstr [ch '\n'])))
  | some header =>
    match nvpairValueStr (some (h.value header)) with
    | .error e => pure (.inr (.error e, s.2))
    | .ok str =>
      match xwriteStr s.2 (snprintf tmpSize (headerLine (h.name header) str)) with
      | (.error e, fd) => pure (.inr (.error e, fd))
      | (.ok (), fd) => do
        let next ← nvlIterNext h headers header
        pure (.inl (next, fd))

/-- `scgi_write_headers`, of the `status` and the `headers` of the response. -/
def scgiWriteHeaders (status : UInt32) (h : Heap N A M) (headers : N) (fd : OutFd) :
    Comp (Except Errno Unit × OutFd) :=
  match xwriteStr fd (snprintf tmpSize (statusLine status)) with
  | (.error e, fd) => pure (.error e, fd)
  | (.ok (), fd) => do
    let start ← nvlIterStart h headers
    loop (writeRound h headers) (start, fd)

end Write

end Libjeffpc.Scgi
