import Libjeffpc.Errno
import Libjeffpc.Lib.ByteOrder
import Libjeffpc.Lib.Hoare

/-!
# Buffers (`buffer.c`, `buffer.h`)

A buffer is the memory behind its data pointer, a current offset, the number of bytes filled and the
number of bytes allocated. Heap, static and sink buffers are modelled; a stdio buffer writes to a
`FILE` and is not. Sizes are numbers below 2^64, and an addition or a subtraction of them wraps
around.
-/

namespace Libjeffpc

open Lib

/-- `SSIZE_MAX` and `PTRDIFF_MAX`: no object in memory is larger. -/
def ssizeMax : Nat := 2 ^ 63 - 1

/-- `SIZE_MAX`. -/
def sizeMax : Nat := 2 ^ 64 - 1

/-- The sum of two values of type `size_t`. -/
def addSize (a b : Nat) : Nat := (a + b) % 2 ^ 64

/-- The difference of two values of type `size_t`. -/
def subSize (a b : Nat) : Nat := (a + 2 ^ 64 - b) % 2 ^ 64

/-- A value of type `size_t` that is passed as an `off_t`. -/
def toOffT (n : Nat) : Int := Int.bmod n (2 ^ 64)

/-- What is asked of an allocator: `malloc` or `realloc` of a number of bytes, or an object of one of
the caches. -/
inductive Request where
  | bytes (n : Nat)
  | val
  | nvpair
  deriving DecidableEq, Repr

/-- What a program cannot choose: the byte order, which allocations succeed (the `i`-th request of a
call may be refused or granted, whatever the others were) and what fresh memory holds. -/
structure Machine where
  endian : Endian
  grants : Nat → Request → Bool
  grants_le : ∀ i n, grants i (.bytes n) = true → n ≤ ssizeMax
  fresh : Nat → UInt8

/-- Allocations fail only if no object can be that large. -/
structure Machine.Ample (m : Machine) : Prop where
  bytes : ∀ i n, n ≤ ssizeMax → m.grants i (.bytes n) = true
  val : ∀ i, m.grants i .val = true
  nvpair : ∀ i, m.grants i .nvpair = true

/-- A little-endian machine where only the size of an object limits what is allocated. -/
def Machine.plenty : Machine where
  endian := .little
  grants _ r := match r with
    | .bytes n => n ≤ ssizeMax
    | .val => true
    | .nvpair => true
  grants_le _ _ h := of_decide_eq_true h
  fresh _ := 0

theorem Machine.plenty_ample : Machine.plenty.Ample where
  bytes _ _ h := decide_eq_true h
  val _ := rfl
  nvpair _ := rfl

/-- A machine without any memory left. -/
def outOfMemory : Machine where
  endian := .little
  grants _ _ := false
  grants_le _ _ h := by cases h
  fresh _ := 0

/-- The kinds of buffers: which `struct buffer_ops` is used. -/
inductive BufferOps where
  | heap
  | sink
  | staticRo
  | staticRw
  deriving DecidableEq, Repr

structure Buffer where
  /-- The memory that `data` points to; `none` is NULL. -/
  data : Option Bytes
  off : Nat
  size : Nat
  allocsize : Nat
  ops : BufferOps
  deriving DecidableEq, Repr

/-- The state of a function that works on a buffer: the buffer, and how many allocations have been
asked for. -/
structure BufferState where
  buffer : Buffer
  allocs : Nat
  deriving DecidableEq, Repr

/-- A function that works on a buffer and returns an error number or a result. -/
abbrev BufM := Proc BufferState Errno

/-- Whether the next allocation succeeds. -/
def request (m : Machine) (r : Request) : BufM Bool :=
  modifyGet fun s => (m.grants s.allocs r, { s with allocs := s.allocs + 1 })

def getBuffer : BufM Buffer := do return (← get).buffer

def setBuffer (b : Buffer) : BufM Unit := modify fun s => { s with buffer := b }

/-! ## Making a buffer -/

/-- `buffer_init_heap`, when its `malloc` succeeds. -/
def bufferInitHeap (m : Machine) (expectedSize : Nat) : Buffer where
  data := some ((List.range (if expectedSize = 0 then 1 else expectedSize)).map m.fresh)
  off := 0
  size := 0
  allocsize := expectedSize
  ops := .heap

def bufferInitSink : Buffer where
  data := none
  off := 0
  size := 0
  allocsize := sizeMax
  ops := .sink

def bufferInitStatic (data : Option Bytes) (size bufsize : Nat) (writable : Bool) : Comp Buffer := do
  assert (size ≤ bufsize)
  pure { data, off := 0, size, allocsize := bufsize, ops := if writable then .staticRw else .staticRo }

/-! ## Access -/

namespace Buffer

variable (b : Buffer)

def bufferRemain : Nat := subSize b.size b.off

def bufferOffset : Nat := b.off

def bufferDataCurrent : Option Bytes :=
  match b.data with
  | none => none
  | some mem => if b.off = b.size then none else some (mem.drop b.off)

/-- `copyin`: copy bytes into the memory of the buffer. -/
def copyin (off : Nat) (newdata : Bytes) : Comp Buffer :=
  match b.ops with
  | .heap | .staticRw => do
    let mem ← deref b.data
    if off + newdata.length ≤ mem.length then
      pure { b with data := some (mem.take off ++ newdata ++ mem.drop (off + newdata.length)) }
    else throw .bounds
  | .sink => pure b
  | .staticRo => throw .assert

/-- `copyout`: copy bytes out of the memory of the buffer. -/
def copyout (off len : Nat) : Comp Bytes :=
  match b.ops with
  | .heap | .staticRo | .staticRw => do
    let mem ← deref b.data
    if off + len ≤ mem.length then pure ((mem.drop off).take len) else throw .bounds
  | .sink => throw .assert

/-- `clear`: zero bytes of the memory of the buffer. -/
def clear (off len : Nat) : Comp Buffer :=
  match b.ops with
  | .heap | .staticRw => do
    let mem ← deref b.data
    if off + len ≤ mem.length then
      pure { b with data := some (mem.take off ++ List.replicate len 0 ++ mem.drop (off + len)) }
    else throw .bounds
  | .sink => pure b
  | .staticRo => throw .assert

/-- `check_append`. -/
def checkAppend (size : Nat) : Except Errno Unit :=
  match b.ops with
  | .heap | .sink => .ok ()
  | .staticRo => .error .EROFS
  | .staticRw => if addSize b.size size ≤ b.allocsize then .ok () else .error .ENOSPC

/-- `check_truncate`. -/
def checkTruncate (size : Nat) : Except Errno Unit :=
  match b.ops with
  | .heap | .sink => .ok ()
  | .staticRo => .error .EROFS
  | .staticRw => if size ≤ b.allocsize then .ok () else .error .ENOSPC

/-- `check_write`. -/
def checkWrite (len off : Nat) : Except Errno Unit :=
  match b.ops with
  | .heap | .sink => .ok ()
  | .staticRo => .error .EROFS
  | .staticRw => if addSize off len ≤ b.allocsize then .ok () else .error .ENOSPC

/-- `check_read`. -/
def checkRead : Except Errno Unit :=
  match b.ops with
  | .sink => .error .ENOTSUP
  | _ => .ok ()

end Buffer

/-- `resize`; `realloc` keeps the old bytes, and the others are what fresh memory holds. -/
def resize (m : Machine) (newsize : Nat) : BufM Unit := do
  let b ← getBuffer
  if newsize ≤ b.allocsize then return
  if b.ops ≠ .heap then throw .ENOTSUP
  if ← request m (.bytes newsize) then
    let old := (b.data.getD []).take newsize
    let tmp := old ++ (List.range (newsize - old.length)).map m.fresh
    setBuffer { b with data := some tmp, allocsize := newsize }
  else throw .ENOMEM

def bufferAppend (m : Machine) (data : Bytes) : BufM Unit := do
  let b ← getBuffer
  liftExcept (b.checkAppend data.length)
  if data.length = 0 then return
  resize m (addSize b.size data.length)
  let b ← getBuffer
  let b ← b.copyin b.size data
  setBuffer { b with size := addSize b.size data.length }

def bufferAppendC (m : Machine) (c : UInt8) : BufM Unit := bufferAppend m [c]

/-- `buffer_append_cstr`; the bytes are those before the NUL. -/
def bufferAppendCstr (m : Machine) (str : Bytes) : BufM Unit := bufferAppend m str

inductive Whence where
  | seekSet
  | seekCur
  | seekEnd
  | invalid
  deriving DecidableEq, Repr

/-- The negation of a value of type `off_t`. -/
def negOffT (offset : Int) : Comp Int :=
  if offset = -2 ^ 63 then throw .overflow else pure (-offset)

/-- A value of type `off_t` that is used as a `size_t`. -/
def ofOffT (offset : Int) : Nat := (offset % 2 ^ 64).toNat

/-- Where `buffer_seek` moves to. -/
def seekTarget (b : Buffer) (offset : Int) : Whence → BufM Nat
  | .seekSet =>
    if offset < 0 then throw .EINVAL
    else if ofOffT offset > b.size then throw .EINVAL
    else pure (ofOffT offset)
  | .seekCur =>
    if offset > 0 ∧ ofOffT offset > subSize b.size b.off then throw .EINVAL
    else if offset < 0 then do
      let neg ← negOffT offset
      if ofOffT neg > b.off then throw .EINVAL else pure (addSize b.off (ofOffT offset))
    else pure (addSize b.off (ofOffT offset))
  | .seekEnd =>
    if offset > 0 then throw .EINVAL
    else do
      let neg ← negOffT offset
      if ofOffT neg > b.size then throw .EINVAL else pure (addSize b.size (ofOffT offset))
  | .invalid => throw .EINVAL

def bufferSeek (offset : Int) (whence : Whence) : BufM Nat := do
  let b ← getBuffer
  let newoff ← seekTarget b offset whence
  if newoff > ssizeMax then throw .EOVERFLOW
  setBuffer { b with off := newoff }
  return newoff

/-- `buffer_pread`: the bytes that are copied. -/
def bufferPread (len off : Nat) : BufM Bytes := do
  let b ← getBuffer
  liftExcept b.checkRead
  let ret :=
    if off ≥ b.size then 0
    else if addSize off len > b.size then subSize b.size off
    else len
  if ret = 0 then return []
  else b.copyout off ret

def bufferRead (len : Nat) : BufM Bytes := do
  let b ← getBuffer
  let out ← bufferPread len b.off
  setBuffer { b with off := addSize b.off out.length }
  return out

def bufferTruncate (m : Machine) (size : Nat) : BufM Unit := do
  let b ← getBuffer
  liftExcept (b.checkTruncate size)
  resize m size
  let b ← getBuffer
  let b ← if b.size < size then b.clear b.size (size - b.size) else pure b
  setBuffer { b with size, off := min b.off size }

/-- `buffer_pwrite`: the number of bytes that are written. -/
def bufferPwrite (m : Machine) (buf : Bytes) (off : Nat) : BufM Nat := do
  let b ← getBuffer
  liftExcept (b.checkWrite buf.length off)
  resize m (addSize off buf.length)
  let b ← getBuffer
  let b ← if b.size < off then b.clear b.size (off - b.size) else pure b
  let b ← b.copyin off buf
  setBuffer { b with size := max b.size (addSize off buf.length) }
  return buf.length

def bufferWrite (m : Machine) (buf : Bytes) : BufM Nat := do
  let off := (← getBuffer).off
  let ret ← bufferPwrite m buf off
  let b ← getBuffer
  setBuffer { b with off := addSize b.off ret }
  return ret

/-! ## Buffers that hold memory -/

namespace Buffer

variable (b : Buffer)

def memory : Bytes := b.data.getD []

/-- The bytes filled. -/
def contents : Bytes := b.memory.take b.size

/-- The bytes from the current offset on. -/
def rest : Bytes := b.contents.drop b.off

def advance (n : Nat) : Buffer := { b with off := b.off + n }

/-- A heap buffer, or a static one: its offset is inside of what is filled, and that inside of the
memory it has. -/
structure Valid : Prop where
  ops_ne : b.ops ≠ .sink
  off_le : b.off ≤ b.size
  size_le : b.size ≤ b.allocsize
  alloc_le : b.allocsize ≤ b.memory.length
  memory_le : b.memory.length ≤ ssizeMax

/-- A heap buffer or a static one over an object. -/
structure Usable : Prop where
  valid : b.Valid
  data : ∃ mem, b.data = some mem

/-- A static buffer over all bytes of an object. -/
def ofBytes (bytes : Bytes) : Buffer where
  data := some bytes
  off := 0
  size := bytes.length
  allocsize := bytes.length
  ops := .staticRo

theorem ofBytes_valid {bytes : Bytes} (h : bytes.length ≤ ssizeMax) : (ofBytes bytes).Valid :=
  ⟨by simp [ofBytes], Nat.zero_le _, le_refl _, le_refl _, h⟩

end Buffer

end Libjeffpc
