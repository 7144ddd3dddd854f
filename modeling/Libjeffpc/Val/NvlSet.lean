import Libjeffpc.Val.StrCat

/-!
# Values are put into an nvlist (`nvl.c`)

The names are strings on the heap. Two conventions meet in `do_nvl_set`: a pair that cannot be allocated
is NULL, a string that cannot be allocated is a code.
-/

namespace Libjeffpc.Heap

open Lib

abbrev Pairs := List (CStr × Pointer × Pointer)

/-- `find`. -/
def findPair (pairs : Pairs) (cname : CStr) : Option (CStr × Pointer × Pointer) :=
  pairs.find? fun q => strcmp cname q.1 = 0

/-- `rb_add` of a pair: its name is compared where there are other pairs. -/
def rbAdd (nvl : Pointer) (cname : CStr) (name val : Pointer) (pairs : Pairs) : HeapM Unit := do
  match pairs with
  | [] => pure ()
  | _ => do
    let _ ← valCstr name
  setPairs nvl (setPair cname name val pairs).1

/-- `nvl_set`: `do_nvl_set` without the name. -/
def nvlSet (nvl : Pointer) (cname : CStr) (val : Pointer) : HeapM (Option Errno) := do
  let pairs ← nvlPairs nvl
  match findPair pairs cname with
  | none => do
    -- not found - allocate a new pair
    let name ← strDup cname
    if ← request then do
      rbAdd nvl cname name val pairs
      pure none
    else do
      valPutref name
      valPutref val
      pure (some .ENOMEM)
  | some _ => doNvlSet nvl cname .null val

/-- `SET`, of `SET_ARG0` and the others. -/
def setArg (nvl : Pointer) (cname : CStr) (valalloc : HeapM Pointer) : HeapM (Option Errno) := do
  match ← valalloc with
  | .err e => pure (some e)
  | val => nvlSet nvl cname val

def valAllocBlob (bytes : Bytes) : HeapM Pointer := valAlloc (.blob bytes)

def valAllocBlobDup (bytes : Bytes) : HeapM Pointer := do
  if ← request then valAllocBlob bytes else pure (.err .ENOMEM)

def valAllocBool (b : Bool) : HeapM Pointer := pure (.static (.bool b))

def valAllocInt (i : UInt64) : HeapM Pointer :=
  if hi : i.toNat < 10 then pure (.static (.int ⟨i.toNat, hi⟩)) else valAlloc (.int i)

def valAllocNull : HeapM Pointer := pure (.static .null)

def nvlSetArray (nvl : Pointer) (cname : CStr) (vals : List Pointer) := setArg nvl cname (valAllocArray vals)

def nvlSetArrayCopy (nvl : Pointer) (cname : CStr) (vals : List Pointer) := setArg nvl cname (valAllocArrayDup vals)

def nvlSetBlob (nvl : Pointer) (cname : CStr) (bytes : Bytes) := setArg nvl cname (valAllocBlob bytes)

def nvlSetBlobCopy (nvl : Pointer) (cname : CStr) (bytes : Bytes) := setArg nvl cname (valAllocBlobDup bytes)

def nvlSetBool (nvl : Pointer) (cname : CStr) (v : Bool) := setArg nvl cname (valAllocBool v)

def nvlSetCstrDup (nvl : Pointer) (cname v : CStr) := setArg nvl cname (strDup v)

def nvlSetInt (nvl : Pointer) (cname : CStr) (v : UInt64) := setArg nvl cname (valAllocInt v)

def nvlSetNull (nvl : Pointer) (cname : CStr) := setArg nvl cname valAllocNull

def nvlSetNvl (nvl : Pointer) (cname : CStr) (v : Pointer) := setArg nvl cname (pure v)

def nvlSetStr (nvl : Pointer) (cname : CStr) (v : Pointer) := setArg nvl cname (pure v)

/-- A call of one of them. -/
inductive SetCall where
  | set (val : Pointer)
  | array (vals : List Pointer)
  | arrayCopy (vals : List Pointer)
  | blob (bytes : Bytes)
  | blobCopy (bytes : Bytes)
  | bool (v : Bool)
  | cstrDup (v : CStr)
  | int (v : UInt64)
  | null
  | nvl (v : Pointer)
  | str (v : Pointer)

def SetCall.run (nvl : Pointer) (cname : CStr) : SetCall → HeapM (Option Errno)
  | .set val => nvlSet nvl cname val
  | .array vals => nvlSetArray nvl cname vals
  | .arrayCopy vals => nvlSetArrayCopy nvl cname vals
  | .blob bytes => nvlSetBlob nvl cname bytes
  | .blobCopy bytes => nvlSetBlobCopy nvl cname bytes
  | .bool v => nvlSetBool nvl cname v
  | .cstrDup v => nvlSetCstrDup nvl cname v
  | .int v => nvlSetInt nvl cname v
  | .null => nvlSetNull nvl cname
  | .nvl v => nvlSetNvl nvl cname v
  | .str v => nvlSetStr nvl cname v

/-! ## What they are for -/

/-- A call, the references that it is given, the value that it sets, and the requests for memory that it
makes for this value. -/
inductive SetCall.Takes (h : RcHeap Obj) : SetCall → List Pointer → Obj → Nat → Prop
  | set {p : Pointer} {b : Obj} (hp : Holds h p b) : Takes h (.set p) [p] b 0
  | array (vals : List Pointer) : Takes h (.array vals) vals (.array vals) 1
  | arrayCopy (vals : List Pointer) : Takes h (.arrayCopy vals) vals (.array vals) 2
  | blob (bytes : Bytes) : Takes h (.blob bytes) [] (.blob bytes) 1
  | blobCopy (bytes : Bytes) : Takes h (.blobCopy bytes) [] (.blob bytes) 2
  | bool (v : Bool) : Takes h (.bool v) [] (.bool v) 0
  | cstrDup (v : CStr) : Takes h (.cstrDup v) [] (.str v) (strDupRequests v)
  | int (v : UInt64) : Takes h (.int v) [] (.int v) (if v.toNat < 10 then 0 else 1)
  | null : Takes h .null [] .null 0
  | nvl {p : Pointer} {pairs : Pairs} (hp : Holds h p (.nvl pairs)) : Takes h (.nvl p) [p] (.nvl pairs) 0
  | str {p : Pointer} {s : CStr} (hp : Holds h p (.str s)) : Takes h (.str p) [p] (.str s) 0

/-- An nvlist: its names are in their order, and every pair has a name and a value. -/
structure NvlAt (h : RcHeap Obj) (a : Nat) (pairs : Pairs) : Prop where
  live : h.live a = some (.nvl pairs)
  ordered : Increasing strcmp Prod.fst pairs
  name : ∀ q ∈ pairs, Holds h q.2.1 (.str q.1)
  value : ∀ q ∈ pairs, ∃ b, Holds h q.2.2 b

/-- The other objects of the first heap that are still in use have not changed. -/
def KeepsOthers (a : Nat) (h h' : RcHeap Obj) : Prop :=
  ∀ i < h.next, i ≠ a → ∀ b, h'.live i = some b → h.live i = some b

/-- The value that a name has. -/
def valueOf (pairs : Pairs) (cname : CStr) : Option Pointer := (findPair pairs cname).map (·.2.2)

/-- Either the name has the value, and nothing else is different, or there was no memory, and the pairs are
as they were. -/
def Atomic (f : HeapM (Option Errno)) (s : State) (a : Nat) (pairs : Pairs) (cname : CStr) (b : Obj)
    (owned : List Pointer) : Prop :=
  (∃ s' pairs' val, f s = pure (none, s') ∧ NvlAt s'.heap a pairs' ∧ (val ≠ .obj a → Holds s'.heap val b) ∧
    (∀ n, valueOf pairs' n = if n = cname then some val else valueOf pairs n) ∧
    KeepsOthers a s.heap s'.heap ∧ s'.heap.Balanced owned) ∨
  (∃ s', f s = pure (some .ENOMEM, s') ∧ NvlAt s'.heap a pairs ∧ KeepsOthers a s.heap s'.heap ∧
    s'.heap.Balanced owned)

end Libjeffpc.Heap
