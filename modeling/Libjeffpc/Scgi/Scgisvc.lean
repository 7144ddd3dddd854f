import Libjeffpc.Nvl.Refused

/-!
# The SCGI request header (`scgisvc.c`)

A request begins with a netstring: a decimal length, a colon, that many bytes and a comma. The bytes
are names and values in turn, each followed by a NUL. They are read into a buffer whose comma is then
overwritten by a NUL, and the loop over the names and values moves an index `cur` through it.

The bytes may arrive in pieces of any size (`io_common.h`). Memory may run out: `Memory` says which requests are
refused. A header whose name cannot be copied is not an error of `nvl_set_cstr_dup` (`Nvl.Lists`).
-/

namespace Libjeffpc.Scgi

open Lib Libjeffpc.Tree Libjeffpc.Nvl

/-- A file descriptor that is read from: the bytes that arrive, the error that follows them (if it is not
just the end), and how many bytes after the first one each of the next calls of `read` may deliver. -/
structure Fd where
  input : Bytes
  err : Option Errno
  pieces : Nat → Nat

/-- `read`: at least one byte until the stream ends, then an error or nothing. -/
def read (fd : Fd) (nbyte : Nat) : Except Errno Bytes × Fd :=
  let n := min (fd.pieces 0 + 1) nbyte
  let fd' := { fd with input := fd.input.drop n, pieces := fun k => fd.pieces (k + 1) }
  match fd.input, fd.err with
  | [], some e => (.error e, fd')
  | input, _ => (.ok (input.take n), fd')

/-- `xread` (`rw`): all of the bytes that are asked for, or an error. -/
def xread (fd : Fd) (nbyte : Nat) : Except Errno Bytes × Fd :=
  if nbyte = 0 then (.ok [], fd)
  else
    match read fd nbyte with
    | (.error e, fd) => (.error e, fd)
    | (.ok buf, fd) =>
      if buf = [] then (.error .EPIPE, fd)
      else
        match xread fd (nbyte - buf.length) with
        | (.error e, fd) => (.error e, fd)
        | (.ok rest, fd) => (.ok (buf ++ rest), fd)
termination_by nbyte
decreasing_by
  have := List.length_pos_of_ne_nil ‹¬buf = []›
  omega

/-- Whether a `malloc` of a number of bytes succeeds, and which requests for memory of `nvl_set_cstr_dup` are
refused in a round of the loop. -/
structure Memory where
  malloc : Nat → Bool
  refusals : Nat → Refusals

/-- The part of `struct scgi` that is used to read the header; `headers` is one of the nvlists. -/
structure Req (N A M : Type) extends Lists N A M where
  fd : Fd
  headers : N

variable {N A M : Type} [DecidableEq N] [DecidableEq A] [TreeMem A M]

/-- `read_netstring_length`; the length is a `size_t` and wraps around. -/
def readNetstringLength (req : Req N A M) : Comp (Except Errno UInt64 × Req N A M) :=
  loop (fun (s : UInt64 × Fd) =>
    match xread s.2 1 with
    | (.error e, fd) => pure (.inr (.error e, { req with fd }))
    | (.ok c, fd) =>
      match c with
      | [c] =>
        if c = 58 then pure (.inr (.ok s.1, { req with fd }))
        else if 48 ≤ c ∧ c ≤ 57 then pure (.inl (s.1 * 10 + (c - 48).toUInt64, fd))
        else pure (.inr (.error .EINVAL, { req with fd }))
      | _ => throw .bounds) (0, req.fd)

/-- `strlen` of the string that starts at an index of the buffer. -/
def strlenAt (buf : Bytes) (i : Nat) : Comp Nat :=
  let len := (buf.drop i).findIdx (· = 0)
  if i + len < buf.length then pure len else throw .bounds

/-- The string that starts at an index of the buffer, read to its NUL. -/
def cstrAt (buf : Bytes) (i : Nat) : Comp CStr := do
  let _ ← strlenAt buf i
  pure (cstr (buf.drop i))

section Parse

variable (mem : Memory) (alloc : Allocator A)

/-- `nvl_set_cstr_dup` as the loop calls it: both strings are in the buffer, and the value is copied first. -/
def setHeader (headers : N) (buf : Bytes) (round name val : Nat) (l : Lists N A M) :
    Comp (Except Errno Unit × Lists N A M) := do
  let v ← cstrAt buf val
  let cname ← cstrAt buf name
  l.nvlSetCstrDup alloc (mem.refusals round) headers cname v

/-- A round of the loop over the names and values; `s` is the number of the round, `cur` and the
nvlists. -/
def headerRound (headers : N) (buf : Bytes) (len : Nat) (s : Nat × Nat × Lists N A M) :
    Comp ((Nat × Nat × Lists N A M) ⊕ (Except Errno Unit × Lists N A M)) := do
  if s.2.1 < len then do
    let name := s.2.1
    let val := s.2.1 + (← strlenAt buf name) + 1
    match ← setHeader mem alloc headers buf s.1 name val s.2.2 with
    | (.error e, l) => pure (.inr (.error e, l))
    | (.ok (), l) => do
      let cur := val + (← strlenAt buf val) + 1
      pure (.inl (s.1 + 1, cur, l))
  else pure (.inr (.ok (), s.2.2))

/-- `read_netstring_string`; `len + 1` is a `size_t`. -/
def readNetstringString (req : Req N A M) (len : UInt64) :
    Comp (Except Errno Unit × Req N A M) := do
  let size := (len + 1).toNat
  if !mem.malloc size then pure (.error .ENOMEM, req)
  else
    match xread req.fd size with
    | (.error e, fd) => pure (.error e, { req with fd })
    | (.ok buf, fd) =>
      match buf[len.toNat]? with
      | none => throw .bounds
      | some c =>
        if c ≠ 44 then pure (.error .EINVAL, { req with fd })
        else do
          let buf := buf.set len.toNat 0
          let (r, toLists) ← loop (headerRound mem alloc req.headers buf len.toNat) (0, 0, req.toLists)
          pure (r, { req with fd, toLists })

def readNetstring (req : Req N A M) : Comp (Except Errno Unit × Req N A M) := do
  match ← readNetstringLength req with
  | (.error e, req) => pure (.error e, req)
  | (.ok len, req) => readNetstringString mem alloc req len

end Parse

/-! ## When the loop ends -/

/-- Strings two by two, without one that is left over. -/
def pairUp {α : Type} : List α → List (α × α)
  | a :: b :: l => (a, b) :: pairUp l
  | _ => []

/-- The names of a block, each with the value behind it. -/
def headerPairs (block : Bytes) : List (CStr × CStr) := pairUp ((block.splitOn 0).map cstr)

/-- All names of a block have a value in it: it has an odd number of NULs, or it is empty or ends with one. -/
def Matched (block : Bytes) : Prop := block.count 0 % 2 = 1 ∨ block.getLastD 0 = 0

/-- The calls that set the names, from the k-th round on. -/
def headerCalls {N : Type} (refusals : Nat → Refusals) : Nat → List (CStr × CStr) → List (Call N)
  | _, [] => []
  | k, p :: pairs => ⟨p.1, .str p.2, refusals k⟩ :: headerCalls refusals (k + 1) pairs

/-- A request that the call makes is refused; the calls in `pre` come before it. -/
def Lost {N : Type} (map : NvMap N) (pre : List (Call N)) (c : Call N) : Prop :=
  c.valueRefused ∨ New map pre c.name ∧ (c.nameRefused ∨ c.refused.pair)

/-- The first such call. -/
structure FirstLost {N : Type} (map : NvMap N) (calls pre : List (Call N)) (c : Call N) (post : List (Call N)) :
    Prop where
  split : calls = pre ++ c :: post
  lost : Lost map pre c
  before : ∀ pre' d post', pre = pre' ++ d :: post' → ¬Lost map pre' d

/-- The loop ends before it has made all calls, or at the last one: the first call that is refused something returns
an error, or it comes to a code, or it leaves a code to a call behind it. -/
def Stops {N : Type} (map : NvMap N) (calls : List (Call N)) : Prop :=
  ∃ pre c post, FirstLost map calls pre c post ∧
    (c.valueRefused ∨ c.refused.pair ∨ pre ≠ [] ∨ (∃ name, map name ≠ none) ∨ post ≠ [])

/-- A code is used as a pointer. -/
def Crashes {N : Type} (map : NvMap N) (calls : List (Call N)) : Prop :=
  ∃ pre c post, FirstLost map calls pre c post ∧ ¬c.valueRefused ∧ c.nameRefused ∧
    (c.refused.pair ∨ pre ≠ [] ∨ (∃ name, map name ≠ none) ∨ ∃ d post', post = d :: post' ∧ ¬d.valueRefused)

end Libjeffpc.Scgi
