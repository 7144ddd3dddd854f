import Libjeffpc.Errno
import Libjeffpc.Lib.RefCount
import Libjeffpc.Val.Val

/-!
# Values on the heap (`val.c`, `val_array.c`, `val_nvl.c`, `nvl.c`, `str.c`)

The objects behind `struct val *` with their reference counts. A request for memory may be refused at
any time: the state has the answers to all requests to come. The pairs of an nvlist belong to their
nvlist; a pair has the text of its name, its name and its value. They stand in the order of their names,
and are released in that order.
-/

namespace Libjeffpc.Heap

open Lib

/-- The objects that are not counted. -/
inductive Static where
  | consEmpty
  | bool (b : Bool)
  | null
  | int (i : Fin 10)
  | str (s : CStr)
  | sym (s : CStr)
  deriving DecidableEq

abbrev Pointer := Ptr Static Errno

/-- `struct val`. -/
inductive Obj where
  | null
  | int (i : UInt64)
  | str (s : CStr)
  | sym (s : CStr)
  | bool (b : Bool)
  | cons (head tail : Pointer)
  | char (c : UInt64)
  | blob (bytes : Bytes)
  | array (vals : List Pointer)
  | nvl (pairs : List (CStr × Pointer × Pointer))

def Static.obj : Static → Obj
  | consEmpty => .cons .null .null
  | bool b => .bool b
  | null => .null
  | int i => .int (.ofNat i)
  | str s => .str s
  | sym s => .sym s

/-- The references that pairs hold. -/
def pairRefs (pairs : List (CStr × Pointer × Pointer)) : List Pointer :=
  pairs.flatMap fun p => [p.2.1, p.2.2]

instance : Holder Static Errno Obj where
  refs
    | .cons head tail => [head, tail]
    | .array vals => vals
    | .nvl pairs => pairRefs pairs
    | _ => []

/-- The heap, and whether the next requests for memory are granted. -/
structure State where
  heap : RcHeap Obj
  grants : Nat → Bool

abbrev HeapM (α : Type) := StateT State Comp α

def onHeap (f : RcHeap Obj → Comp (RcHeap Obj)) : HeapM Unit := fun s => do
  let heap ← f s.heap
  pure ((), { s with heap })

/-- A request for memory. -/
def request : HeapM Bool := fun s => pure (s.grants 0, { s with grants := fun k => s.grants (k + 1) })

/-- The object that a pointer leads to. -/
def load (p : Pointer) : HeapM Obj := fun s => do
  let b ← s.heap.deref Static.obj p
  pure (b, s)

def valGetref (p : Pointer) : HeapM Pointer := do
  onHeap (RcHeap.getref p)
  pure p

def valPutref (p : Pointer) : HeapM Unit := onHeap (RcHeap.putref p)

/-- `val_putref` of one after the other. -/
def putAll : List Pointer → HeapM Unit
  | [] => pure ()
  | p :: l => do
    valPutref p
    putAll l

/-- The object that a pointer leads to is in use. -/
def Holds (h : RcHeap Obj) (p : Pointer) (b : Obj) : Prop :=
  match p with
  | .static s => s.obj = b
  | .obj a => h.live a = some b
  | _ => False

/-- `__val_alloc`, and what its caller fills in. -/
def valAlloc (b : Obj) : HeapM Pointer := do
  if ← request then
    modifyGet fun s => (.obj s.heap.next, { s with heap := s.heap.alloc b })
  else pure (.err .ENOMEM)

/-- `__val_alloc_array` after the memory for the elements is there. -/
def valAllocArray (vals : List Pointer) : HeapM Pointer := do
  let val ← valAlloc (.array vals)
  if val.isErr then putAll vals
  pure val

def valAllocArrayDup (vals : List Pointer) : HeapM Pointer := do
  if ← request then valAllocArray vals
  else do
    putAll vals
    pure (.err .ENOMEM)

/-- `__get_preallocated` for a VT_STR. -/
def getPreallocated (s : CStr) : Bool :=
  match s.1 with
  | [] => true
  | [c] => 0 < c && c < 0x7f
  | _ => false

/-- `str_dup`. -/
def strDup (s : CStr) : HeapM Pointer := do
  if getPreallocated s then pure (.static (.str s))
  -- STR_INLINE_LEN
  else if s.1.length ≤ 15 then valAlloc (.str s)
  else if ← request then valAlloc (.str s)
  else pure (.err .ENOMEM)

/-- The requests for memory of `str_dup`. -/
def strDupRequests (s : CStr) : Nat :=
  if getPreallocated s then 0 else if s.1.length ≤ 15 then 1 else 2

def nvlAlloc : HeapM Pointer := valAlloc (.nvl [])

/-- The pairs of an nvlist. -/
def nvlPairs (nvl : Pointer) : HeapM (List (CStr × Pointer × Pointer)) := do
  match ← load nvl with
  | .nvl pairs => pure pairs
  | _ => throw .assert

/-- The pairs with a value for a name, and the value that the name had. A pair that is there keeps its
name. -/
def setPair (cname : CStr) (name val : Pointer) :
    List (CStr × Pointer × Pointer) → List (CStr × Pointer × Pointer) × Option Pointer
  | [] => ([(cname, name, val)], none)
  | p :: pairs =>
    if strcmp cname p.1 < 0 then ((cname, name, val) :: p :: pairs, none)
    else if strcmp cname p.1 = 0 then ((p.1, p.2.1, val) :: pairs, some p.2.2)
    else (p :: (setPair cname name val pairs).1, (setPair cname name val pairs).2)

/-- The pairs of an nvlist are changed in place. -/
def setPairs (nvl : Pointer) (pairs : List (CStr × Pointer × Pointer)) : HeapM Unit :=
  match nvl with
  | .obj a => modify fun s => { s with heap := s.heap.setBody a (.nvl pairs) }
  | _ => throw .bounds

/-- `do_nvl_set`. -/
def doNvlSet (nvl : Pointer) (cname : CStr) (name val : Pointer) : HeapM (Option Errno) := do
  let (pairs, old) := setPair cname name val (← nvlPairs nvl)
  match old with
  | none =>
    -- not found - allocate a new pair
    if ← request then do
      setPairs nvl pairs
      pure none
    else do
      valPutref name
      valPutref val
      pure (some .ENOMEM)
  | some old => do
    valPutref name
    -- the source releases the old value right before it is overwritten
    setPairs nvl pairs
    valPutref old
    pure none

/-- `nvl_set_pair` takes references of its own. -/
def nvlSetPair (nvl : Pointer) (cname : CStr) (name val : Pointer) : HeapM (Option Errno) := do
  let name ← valGetref name
  let val ← valGetref val
  doNvlSet nvl cname name val

end Libjeffpc.Heap
