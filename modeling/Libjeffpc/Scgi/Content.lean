import Libjeffpc.Nvl.Convert
import Libjeffpc.Scgi.Scgisvc

/-!
# The length and the body of a request (`scgisvc.c`)

The value of the header CONTENT_LENGTH is the number of bytes that follow the netstring. They are read
into a buffer that has one byte more, for a NUL, as the block of the netstring is read into one that has
one byte more, for the comma. All sums are `size_t`s and wrap around.
-/

namespace Libjeffpc.Scgi

open Lib Libjeffpc.Tree Libjeffpc.Nvl

def scgiName : CStr := ⟨text ['S', 'C', 'G', 'I'], by decide⟩

/-- `SCGI_CONTENT_LENGTH`. -/
def contentLengthName : CStr :=
  ⟨text ['C', 'O', 'N', 'T', 'E', 'N', 'T', '_', 'L', 'E', 'N', 'G', 'T', 'H'], by decide⟩

/-- `SCGI_REMOTE_PORT`. -/
def remotePortName : CStr :=
  ⟨text ['R', 'E', 'M', 'O', 'T', 'E', '_', 'P', 'O', 'R', 'T'], by decide⟩

/-- `SCGI_SERVER_PORT`. -/
def serverPortName : CStr :=
  ⟨text ['S', 'E', 'R', 'V', 'E', 'R', '_', 'P', 'O', 'R', 'T'], by decide⟩

/-- `SCGI_REQUEST_METHOD`. -/
def requestMethodName : CStr :=
  ⟨text ['R', 'E', 'Q', 'U', 'E', 'S', 'T', '_', 'M', 'E', 'T', 'H', 'O', 'D'], by decide⟩

inductive RequestMethod where
  | unknown
  | get
  | post
  | head

/-- The part of `struct scgi` that is used to read a request. -/
structure Request (N A M : Type) extends Req N A M where
  contentLength : UInt64
  body : Option Bytes
  method : RequestMethod

/-- A row that asks for a number. -/
def intRow (name : CStr) : NvlConvertInfo := { name, tgtType := .int, cond := .always }

def scgiConvertHeaders : List NvlConvertInfo :=
  [scgiName, contentLengthName, remotePortName, serverPortName].map intRow

/-- `SIZE_MAX`. -/
def sizeMax : Nat := 0xffffffffffffffff

def requestMethod (s : CStr) : RequestMethod :=
  if s.1 = text ['G', 'E', 'T'] then .get
  else if s.1 = text ['P', 'O', 'S', 'T'] then .post
  else if s.1 = text ['H', 'E', 'A', 'D'] then .head
  else .unknown

section Read

variable {N A M : Type} [DecidableEq N] [DecidableEq A] [TreeMem A M] (alloc : Allocator A)

/-- `parse_headers`; `enomem` says which rows of the table cannot allocate the number. -/
def parseHeaders (enomem : Nat → Bool) (req : Request N A M) : Comp (Except Errno Unit × Request N A M) := do
  let heap ← req.named req.headers
  match ← nvlConvert alloc enomem heap req.headers (some scgiConvertHeaders) false with
  | (.error e, heap) => pure (.error e, { req with heap })
  | (.ok (), heap) => do
    let req := { req with heap }
    match ← nvlLookupInt heap req.headers scgiName with
    | .error e => pure (.error e, req)
    | .ok i =>
      if i ≠ 1 then pure (.error .EINVAL, req)
      else do
        match ← nvlLookupInt heap req.headers contentLengthName with
        | .error e => pure (.error e, req)
        | .ok i =>
          if i.toNat > sizeMax then pure (.error .EINVAL, req)
          else do
            let req := { req with contentLength := i }
            match ← nvlLookupStr heap req.headers requestMethodName with
            | .error e => pure (.error e, req)
            | .ok s => pure (.ok (), { req with method := requestMethod s })

/-- A buffer that bytes are read into: how many bytes are asked of `malloc`, how many are read, and the
index of the byte that is looked at or set after that. -/
structure Extent where
  size : Nat
  nbyte : Nat
  last : Nat

/-- The buffer of `read_netstring_string`. -/
def netstringExtent (len : UInt64) : Extent :=
  { size := (len + 1).toNat, nbyte := (len + 1).toNat, last := len.toNat }

/-- The buffer of `scgi_read_body`. -/
def bodyExtent (contentLength : UInt64) : Extent :=
  { size := (contentLength + 1).toNat, nbyte := contentLength.toNat, last := contentLength.toNat }

/-- The buffer is allocated, bytes are read into it, and the last byte is used. -/
def readInto (mem : Memory) (fd : Fd) (e : Extent) : Comp (Except Errno Bytes × Fd) :=
  if !mem.malloc e.size then pure (.error .ENOMEM, fd)
  else
    let (r, fd') := xread fd e.nbyte
    -- what has arrived is in the buffer, also if an error follows
    if e.size < fd.input.length - fd'.input.length then throw .bounds
    else
      match r with
      | .error err => pure (.error err, fd')
      | .ok buf => if e.last < e.size then pure (.ok buf, fd') else throw .bounds

/-- `scgi_read_body`; the NUL is not part of `body` here. -/
def scgiReadBody (mem : Memory) (req : Request N A M) : Comp (Except Errno Unit × Request N A M) := do
  if req.contentLength = 0 then pure (.ok (), req)
  else
    match ← readInto mem req.fd (bodyExtent req.contentLength) with
    | (.error e, fd) => pure (.error e, { req with fd })
    | (.ok buf, fd) => pure (.ok (), { req with fd, body := some buf })

end Read

/-! ## What should hold -/

/-- All bytes are read into the buffer, and the last one is in it. -/
def Extent.Inside (e : Extent) : Prop := e.last < e.size ∧ e.nbyte ≤ e.size

/-- The text is 2^64 - 1, or -1 after white space. -/
def IsMax (str : CStr) : Prop :=
  let p := scan ten str.1
  let n := numeral ten p.digits
  p.digits ≠ [] ∧ p.rest = [] ∧
    (p.sign ≠ [ch '-'] ∧ n = 2 ^ 64 - 1 ∨ p.space ≠ [] ∧ p.sign = [ch '-'] ∧ n = 1)

/-- The text is a number for `str2u64`. -/
def IsNumber (str : CStr) : Prop := (Int.str2u64 str).1 = .ok ()

/-- The headers other than CONTENT_LENGTH are as `parse_headers` wants them. -/
structure OthersOk {N : Type} (map : NvMap N) : Prop where
  scgi : ∃ str, map scgiName = some (.str str) ∧ Int.str2u64 str = (.ok (), 1)
  remotePort : ∀ v, map remotePortName = some v → ∃ str, v = .str str ∧ IsNumber str
  serverPort : ∀ v, map serverPortName = some v → ∃ str, v = .str str ∧ IsNumber str
  requestMethod : ∃ str, map requestMethodName = some (.str str)

end Libjeffpc.Scgi
