import Libjeffpc.Errno
import Libjeffpc.Lib.Buf
import Libjeffpc.Lib.CString

/-!
# Where the bytes of a string are (`str.c`, `val.c`, `val.h`)

The struct behind a string or a symbol with its flags and its union, and the memory that its pointer
leads to. A block that is released is not there any more: to release it once more, or to read it, is a
fault. `junk` is what memory holds that has not been written.
-/

namespace Libjeffpc.Str

open Lib

/-- VT_STR and VT_SYM. -/
inductive Kind where
  | str
  | sym
  deriving DecidableEq, Repr

/-- A `char *`: NULL, memory that `malloc` knows nothing of, or a block. -/
inductive CPtr where
  | null
  | fixed (mem : Bytes)
  | heap (a : Nat)
  deriving DecidableEq, Repr

/-- The blocks of `malloc`, and whether the next requests for memory are granted. -/
structure Memory where
  blocks : Nat → Option Bytes
  next : Nat
  fresh : ∀ a, next ≤ a → blocks a = none
  grants : Nat → Bool
  junk : Nat → UInt8

/-- The bytes at a pointer. -/
def Memory.bytes (m : Memory) : CPtr → Option Bytes
  | .null => none
  | .fixed mem => some mem
  | .heap a => m.blocks a

def Memory.setBlock (m : Memory) (a : Nat) (b : Option Bytes) (ha : a < m.next) : Memory :=
  { m with
    blocks := Function.update m.blocks a b
    fresh := fun i hi => by
      rw [Function.update_of_ne (by omega)]
      exact m.fresh i hi }

/-- A new block. -/
def Memory.add (m : Memory) (b : Bytes) : Memory :=
  { m with
    blocks := Function.update m.blocks m.next (some b)
    next := m.next + 1
    fresh := fun i hi => by
      rw [Function.update_of_ne (by omega)]
      exact m.fresh i (by omega) }

abbrev StrM (α : Type) := StateT Memory Comp α

def request : StrM Bool := fun m => pure (m.grants 0, { m with grants := fun k => m.grants (k + 1) })

/-- Bytes that have not been written. -/
def unwritten (n : Nat) : StrM Bytes := fun m => pure ((List.range n).map m.junk, m)

def bytesAt (s : CPtr) : StrM Bytes := fun m =>
  match s, m.bytes s with
  | .null, _ => throw .null
  | _, some mem => pure (mem, m)
  | _, none => throw .bounds

/-- `malloc`: the address of the block. -/
def malloc (n : Nat) : StrM (Option Nat) := do
  if ← request then
    let b ← unwritten n
    modifyGet fun m => (some m.next, m.add b)
  else pure none

def free (s : CPtr) : StrM Unit := fun m =>
  match s with
  | .null => pure ((), m)
  | .fixed _ => throw .bounds
  | .heap a => if h : a < m.next ∧ (m.blocks a).isSome then pure ((), m.setBlock a none h.1) else throw .bounds

/-- The bytes of a block change. -/
def write (a : Nat) (b : Bytes) : StrM Unit := fun m =>
  if h : a < m.next ∧ (m.blocks a).isSome then pure ((), m.setBlock a (some b) h.1) else throw .bounds

def strnlen (s : CPtr) (len : Nat) : StrM Nat := do
  let mem ← bytesAt s
  let n := ((mem.take len).takeWhile (· ≠ 0)).length
  -- there is neither a NUL nor the end of the limit
  if n < len ∧ n = mem.length then throw .bounds
  pure n

/-- What a C function sees at a pointer. -/
def cstrAt (s : CPtr) : StrM CStr := do
  let mem ← bytesAt s
  if 0 ∈ mem then pure (cstr mem) else throw .bounds

/-- `__copy`: what the destination holds after it. -/
def copy (dest src : Bytes) (len : Nat) : Comp Bytes :=
  if len ≤ src.length ∧ len < dest.length then pure (src.take len ++ 0 :: dest.drop (len + 1))
  else throw .bounds

/-! ## `struct val` -/

/-- The members of the union. -/
inductive Store where
  | ptr (p : CPtr)
  | inlineStr (b : Bytes)
  deriving DecidableEq, Repr

structure StrVal where
  type : Kind
  staticStruct : Bool
  staticAlloc : Bool
  inlineAlloc : Bool
  store : Store
  deriving DecidableEq, Repr

/-- `val_cstr`, of an object. The other member of the union is not a string. -/
def valCstr (v : StrVal) : Comp CPtr :=
  match v.inlineAlloc, v.store with
  | true, .inlineStr b => pure (.fixed b)
  | false, .ptr p => pure p
  | _, _ => throw .bounds

/-- `val_free`, the case of a string or a symbol. -/
def valFree (v : StrVal) : StrM Unit :=
  if !v.staticAlloc then
    match v.store with
    | .ptr p => free p
    | .inlineStr _ => throw .bounds
  else pure ()

/-- `val_putref` of the last reference. -/
def valPutref (v : StrVal) : StrM Unit := if v.staticStruct then pure () else valFree v

/-- `__val_alloc`: is there memory for the struct? -/
def valAlloc : StrM Bool := request

/-! ## `str.c` -/

/-- STR_INLINE_LEN. -/
def strInlineLen : Nat := 15

/-- USE_STRLEN. -/
def useStrlen : Nat := 2 ^ 64 - 1

/-- `empty_string` and `empty_symbol`. -/
def emptyString (type : Kind) : StrVal := ⟨type, true, true, false, .ptr (.fixed [0])⟩

/-- `one_char`; the entry 0 is not initialized. -/
def oneChar (c : UInt8) : StrVal :=
  if c = 0 then ⟨.str, false, false, false, .ptr .null⟩
  else ⟨.str, true, true, true, .inlineStr (c :: List.replicate strInlineLen 0)⟩

def getPreallocated (type : Kind) (s : CPtr) (len : Nat) : StrM (Option StrVal) := do
  -- NULL or non-nul terminated & zero length
  if s = .null ∨ len = 0 then return some (emptyString type)
  if type ≠ .str then return none
  let firstChar ← fetch (← bytesAt s) 0
  -- preallocated one-char long strings of 7-bit ASCII
  if len = 1 ∧ 0 < firstChar ∧ firstChar < 0x7f ∧ (oneChar firstChar).staticStruct then
    return some (oneChar firstChar)
  return none

def inlinable (len : Nat) : Bool := len ≤ strInlineLen

/-- The exit of `__alloc`. -/
def out (val : Except Errno StrVal) (heapalloc : Bool) (s : CPtr) : StrM (Except Errno StrVal) := do
  if heapalloc then free s
  return val

/-- `__alloc` from the allocation of the struct on. -/
def allocVal (type : Kind) (s : CPtr) (len : Nat) (heapalloc isCopy : Bool) : StrM (Except Errno StrVal) := do
  if ← valAlloc then
    if isCopy then
      let b ← copy (← unwritten (strInlineLen + 1)) (← bytesAt s) len
      if heapalloc then free s
      return .ok ⟨type, false, isCopy || !heapalloc, isCopy, .inlineStr b⟩
    else return .ok ⟨type, false, isCopy || !heapalloc, isCopy, .ptr s⟩
  else out (.error .ENOMEM) heapalloc s

/-- `__alloc`. -/
def alloc (type : Kind) (s : CPtr) (len : Nat) (heapalloc mustdup : Bool) : StrM (Except Errno StrVal) := do
  -- sanity check
  if mustdup then assert !heapalloc
  -- determine the real length of the string
  let len ← if s = .null then pure 0 else strnlen s len
  match ← getPreallocated type s len with
  | some val => out (.ok val) heapalloc s
  | none =>
    let isCopy := inlinable len
    -- we'll be storing a pointer - strdup as necessary
    if !isCopy && mustdup then
      match ← malloc (len + 1) with
      | none => out (.error .ENOMEM) heapalloc s
      | some tmp => do
        write tmp (← copy (← bytesAt (.heap tmp)) (← bytesAt s) len)
        -- we're now using the heap
        allocVal type (.heap tmp) len true isCopy
    else allocVal type s len heapalloc isCopy

def strsymDup (s : CPtr) (type : Kind) := alloc type s useStrlen false true

def strsymDupLen (s : CPtr) (len : Nat) (type : Kind) := alloc type s len false true

def strsymAlloc (s : CPtr) (type : Kind) := alloc type s useStrlen true false

def strsymAllocStatic (s : CPtr) (type : Kind) := alloc type s useStrlen false false

/-! ## What the constructors promise -/

/-- The preallocated object for a text, if there is one. -/
def preallocated (type : Kind) : Bytes → Option StrVal
  | [] => some (emptyString type)
  | [c] => if type = .str ∧ c < 0x7f then some (oneChar c) else none
  | _ :: _ :: _ => none

/-- How many requests for memory `__alloc` makes for a text. -/
def requests (type : Kind) (mustdup : Bool) (text : Bytes) : Nat :=
  if (preallocated type text).isSome then 0 else if !inlinable text.length && mustdup then 2 else 1

inductive Ctor where
  | dup
  | dupLen (len : Nat)
  | alloc
  | allocStatic
  deriving DecidableEq, Repr

namespace Ctor

def call : Ctor → Kind → CPtr → StrM (Except Errno StrVal)
  | dup, type, s => strsymDup s type
  | dupLen len, type, s => strsymDupLen s len type
  | alloc, type, s => strsymAlloc s type
  | allocStatic, type, s => strsymAllocStatic s type

/-- How many bytes are looked at. -/
def limit : Ctor → Nat
  | dupLen len => len
  | _ => useStrlen

/-- The pointer is handed over. -/
def adopts (c : Ctor) : Bool := c = alloc

/-- The bytes are copied. -/
def dups : Ctor → Bool
  | dup => true
  | dupLen _ => true
  | _ => false

/-- There is a NUL, or as many bytes as are asked for. -/
def Readable (c : Ctor) (mem : Bytes) : Prop :=
  match c with
  | dupLen len => 0 ∈ mem ∨ len ≤ mem.length
  | _ => 0 ∈ mem

/-- What a constructor may be called with, and the text that it is to make a string of: the bytes before the
first NUL or the limit. A pointer that is handed over is one of `malloc`. -/
inductive Takes (c : Ctor) (m : Memory) : CPtr → Bytes → Prop
  | null : Takes c m .null []
  | bytes {s : CPtr} {mem : Bytes} (hs : m.bytes s = some mem) (hsize : mem.length < 2 ^ 64)
      (hread : c.Readable mem) (hown : c.adopts → ∃ a, s = .heap a) :
      Takes c m s ((mem.take c.limit).takeWhile (· ≠ 0))

end Ctor

/-- The blocks without the one at a pointer. -/
def without (blocks : Nat → Option Bytes) : CPtr → Nat → Option Bytes
  | .heap a => Function.update blocks a none
  | _ => blocks

/-- The blocks that are left when the string is gone: a pointer that was handed over is released. -/
def blocksLeft (adopted : Bool) (m : Memory) (s : CPtr) : Nat → Option Bytes :=
  if adopted then without m.blocks s else m.blocks

/-- The object has the type and the text. Its last `val_putref` releases what it holds. Until then a pointer
that was handed over is released only if the text is short enough to be copied. -/
structure Makes (type : Kind) (adopted : Bool) (m : Memory) (s : CPtr) (text : Bytes) (v : StrVal)
    (m' : Memory) : Prop where
  hasType : v.type = type
  hasText : ∃ p t, valCstr v = pure p ∧ cstrAt p m' = pure (t, m') ∧ t.1 = text
  source : m'.bytes s = if adopted ∧ text.length ≤ strInlineLen then none else m.bytes s
  freed : ∃ m'', valPutref v m' = pure ((), m'') ∧ m''.blocks = blocksLeft adopted m s

/-- The constructor returns an object like this, or reports that one of its requests for memory was refused; a
pointer that was handed over is released then. -/
def Constructs (type : Kind) (adopted : Bool) (requests : Nat) (m : Memory) (s : CPtr) (text : Bytes) :
    Except Errno StrVal → Memory → Prop
  | .ok v, m' => Makes type adopted m s text v m'
  | .error e, m' => e = .ENOMEM ∧ (∃ k < requests, m.grants k = false) ∧ m'.blocks = blocksLeft adopted m s

end Libjeffpc.Str
