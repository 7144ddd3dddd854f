import Libjeffpc.Cbor.Output
import Libjeffpc.Json.Text

/-!
# Packing values (`val_pack.c`)

The three ways to pack a value: into memory of the caller, into a new heap buffer, and into a sink
that only counts the bytes.
-/

namespace Libjeffpc

open Lib

/-- `enum val_format`. -/
inductive ValFormat where
  | cbor
  | json
  deriving DecidableEq, Repr

/-- `do_val_pack`; both formats have a `pack` function. -/
def doValPack (m : Machine) (val : Val) : ValFormat → BufM Unit
  | .cbor => Cbor.cborPackVal m val
  | .json => Json.jsonPackVal m val

/-- `val_pack_into`: what is returned, and the memory behind `buf` afterwards. -/
def valPackInto (m : Machine) (val : Val) (buf : Option Bytes) (bufsize : Nat) (format : ValFormat) :
    Comp (Except Errno Int × Option Bytes) := do
  let buffer ← bufferInitStatic buf 0 bufsize true
  let (ret, s) ← StateT.run (ExceptT.run (doValPack m val format)) ⟨buffer, 0⟩
  match ret with
  | .error e => pure (.error e, s.buffer.data)
  | .ok () => pure (.ok (toOffT s.buffer.size), s.buffer.data)

/-- `sizeof(struct buffer)`. -/
def sizeofBuffer : Nat := 56

/-- `buffer_alloc`, which makes the first two requests. -/
def bufferAlloc (m : Machine) (expectedSize : Nat) : Except Errno Buffer :=
  if m.grants 0 (.bytes sizeofBuffer) = false then .error .ENOMEM
  else if m.grants 1 (.bytes (if expectedSize = 0 then 1 else expectedSize)) = false then .error .ENOMEM
  else .ok (bufferInitHeap m expectedSize)

/-- `val_pack` with a function that packs. -/
def valPackWith (m : Machine) (pack : BufM Unit) : Comp (Except Errno Buffer) :=
  match bufferAlloc m 1024 with
  | .error e => pure (.error e)
  | .ok buffer => do
    let (ret, s) ← StateT.run (ExceptT.run pack) ⟨buffer, 2⟩
    match ret with
    | .ok () => pure (.ok s.buffer)
    | .error e => pure (.error e)

def valPack (m : Machine) (val : Val) (format : ValFormat) : Comp (Except Errno Buffer) :=
  valPackWith m (doValPack m val format)

def valSize (m : Machine) (val : Val) (format : ValFormat) : Comp (Except Errno Int) := do
  let (ret, s) ← StateT.run (ExceptT.run (doValPack m val format)) ⟨bufferInitSink, 0⟩
  match ret with
  | .error e => pure (.error e)
  | .ok () => pure (.ok (toOffT s.buffer.size))

/-- The encoding of a value: the pieces that are written for it. -/
def encoding (val : Val) : ValFormat → Output
  | .cbor => Cbor.output val
  | .json => Json.output val

/-- The bytes that `val_pack` requests, one request after the other. -/
def valPackRequests (val : Val) (format : ValFormat) : List Nat :=
  sizeofBuffer :: 1024 :: Output.growths 1024 0 (encoding val format).chunks

end Libjeffpc
