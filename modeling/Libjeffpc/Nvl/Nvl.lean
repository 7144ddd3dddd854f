import Libjeffpc.Errno
import Libjeffpc.Tree.RbTree
import Libjeffpc.Val.Val

/-!
# Name-value lists (`nvl.c`, `val_nvl.c`)

All nvlists live in one heap: every nvlist has its tree, and the nodes of all trees share one memory,
so that what a function does to one list could be seen in another. A pair is named by its address in
`A`, an nvlist by its handle in `N`. Allocation takes an address that is not in use and succeeds.
Reference counts are left out: a value is what a reference to it leads to.
-/

namespace Libjeffpc.Nvl

open Lib Libjeffpc.Tree

/-- `struct val`, as the nvlist code sees it: an nvlist in a value is a handle. The empty list is the
VT_CONS value without a head and a tail. -/
inductive Value (N : Type) where
  | null
  | int (i : UInt64)
  | str (s : CStr)
  | sym (s : CStr)
  | bool (b : Bool)
  | nil
  | cons (head tail : Value N)
  | char (c : UInt64)
  | blob (bytes : Bytes)
  | array (vals : List (Value N))
  | nvl (l : N)

namespace Value

variable {N : Type}

def type : Value N → ValType
  | null => .null
  | int _ => .int
  | str _ => .str
  | sym _ => .sym
  | bool _ => .bool
  | nil => .cons
  | cons _ _ => .cons
  | char _ => .char
  | blob _ => .blob
  | array _ => .array
  | nvl _ => .nvl

def array? : Value N → Option (List (Value N))
  | array vals => some vals
  | _ => none

def blob? : Value N → Option Bytes
  | blob bytes => some bytes
  | _ => none

def bool? : Value N → Option Bool
  | bool b => some b
  | _ => none

def int? : Value N → Option UInt64
  | int i => some i
  | _ => none

def null? : Value N → Option Unit
  | null => some ()
  | _ => none

def nvl? : Value N → Option N
  | nvl l => some l
  | _ => none

def str? : Value N → Option CStr
  | str s => some s
  | _ => none

end Value

/-- All nvlists and pairs: the root and `num_nodes` of the tree of every nvlist, the memory of the tree
nodes, the `name` and `value` of the pairs, and the pairs that are allocated. -/
structure Heap (N A M : Type) where
  trees : N → Option (Option A × Nat)
  mem : M
  name : A → CStr
  value : A → Value N
  live : List A

/-- `mem_cache_alloc`: an address that is not in use. -/
abbrev Allocator (A : Type) := { f : List A → A // ∀ l, f l ∉ l }

variable {N A M : Type} [DecidableEq N] [DecidableEq A] [TreeMem A M]

/-- `nvl->val.nvl.values`. -/
def values (h : Heap N A M) (nvl : N) : Comp (TreeTree A M) := do
  let (root, numNodes) ← deref (h.trees nvl)
  pure { root, numNodes, mem := h.mem }

def setValues (h : Heap N A M) (nvl : N) (t : TreeTree A M) : Heap N A M :=
  { h with trees := Function.update h.trees nvl (some (t.root, t.numNodes)), mem := t.mem }

/-- `nvl_alloc`; the handle is one that is not in use. -/
def nvlAlloc (h : Heap N A M) (nvl : N) : Heap N A M :=
  setValues h nvl (rbCreate h.mem)

/-- `__nvpair_alloc`. -/
def nvpairAlloc (alloc : Allocator A) (h : Heap N A M) (name : CStr) : A × Heap N A M :=
  let pair := alloc.1 h.live
  (pair, { h with
    live := pair :: h.live
    name := Function.update h.name pair name
    value := Function.update h.value pair .null })

/-- `__nvpair_free`. -/
def nvpairFree (h : Heap N A M) (pair : A) : Heap N A M :=
  { h with live := h.live.erase pair }

def find (h : Heap N A M) (nvl : N) (name : CStr) : Comp (Option A) := do
  let t ← values h nvl
  let (pair, _) ← rbFind strcmp h.name t name none
  pure pair

def nvlIterStart (h : Heap N A M) (nvl : N) : Comp (Option A) := do
  treeFirst (← values h nvl)

def nvlIterNext (h : Heap N A M) (nvl : N) (prev : A) : Comp (Option A) := do
  treeNext (← values h nvl) prev

/-- The pairs that `nvl_for_each` visits when its body changes nothing. -/
def nvlForEach (h : Heap N A M) (nvl : N) : Comp (List A) := do
  let start ← nvlIterStart h nvl
  loop (fun (s : Option A × List A) => match s.1 with
    | none => pure (.inr s.2)
    | some pair => do
      let next ← nvlIterNext h nvl pair
      pure (.inl (next, s.2 ++ [pair]))) (start, [])

section Lookup

/-- The `nvpair_value_*` functions: the member that the type of the value promises. -/
def nvpairValue {α : Type} (get : Value N → Option α) (pair : Option (Value N)) : Except Errno α :=
  match pair with
  | none => .error .ENOENT
  | some value =>
    match get value with
    | none => .error .ERANGE
    | some x => .ok x

def nvpairValueArray : Option (Value N) → Except Errno (List (Value N)) := nvpairValue Value.array?

def nvpairValueBlob : Option (Value N) → Except Errno Bytes := nvpairValue Value.blob?

def nvpairValueBool : Option (Value N) → Except Errno Bool := nvpairValue Value.bool?

def nvpairValueInt : Option (Value N) → Except Errno UInt64 := nvpairValue Value.int?

def nvpairValueNull : Option (Value N) → Except Errno Unit := nvpairValue Value.null?

def nvpairValueNvl : Option (Value N) → Except Errno N := nvpairValue Value.nvl?

def nvpairValueStr : Option (Value N) → Except Errno CStr := nvpairValue Value.str?

def nvlLookup (h : Heap N A M) (nvl : N) (name : CStr) : Comp (Except Errno A) := do
  match ← find h nvl name with
  | some pair => pure (.ok pair)
  | none => pure (.error .ENOENT)

/-- The `nvl_lookup_*` functions: one of the `nvpair_value_*` functions at the pair found. -/
def nvlLookupWith {α : Type} (pairfxn : Option (Value N) → Except Errno α) (h : Heap N A M) (nvl : N)
    (name : CStr) : Comp (Except Errno α) := do
  let pair ← find h nvl name
  pure (pairfxn (pair.map h.value))

def nvlLookupArray (h : Heap N A M) (nvl : N) (name : CStr) := nvlLookupWith nvpairValueArray h nvl name

def nvlLookupBlob (h : Heap N A M) (nvl : N) (name : CStr) := nvlLookupWith nvpairValueBlob h nvl name

def nvlLookupBool (h : Heap N A M) (nvl : N) (name : CStr) := nvlLookupWith nvpairValueBool h nvl name

def nvlLookupInt (h : Heap N A M) (nvl : N) (name : CStr) := nvlLookupWith nvpairValueInt h nvl name

def nvlLookupNull (h : Heap N A M) (nvl : N) (name : CStr) := nvlLookupWith nvpairValueNull h nvl name

def nvlLookupNvl (h : Heap N A M) (nvl : N) (name : CStr) := nvlLookupWith nvpairValueNvl h nvl name

def nvlLookupStr (h : Heap N A M) (nvl : N) (name : CStr) := nvlLookupWith nvpairValueStr h nvl name

def nvlExists (h : Heap N A M) (nvl : N) (name : CStr) : Comp Bool := do
  return (← find h nvl name).isSome

def nvlExistsType (h : Heap N A M) (nvl : N) (name : CStr) (type : ValType) :
    Comp (Except Errno Unit) := do
  match ← find h nvl name with
  | none => pure (.error .ENOENT)
  | some pair => if (h.value pair).type ≠ type then pure (.error .ERANGE) else pure (.ok ())

end Lookup

section Set

variable (alloc : Allocator A)

/-- The branch of `do_nvl_set` for a name that is not there: the new pair, in the tree. -/
def nvlAdd (h : Heap N A M) (nvl : N) (name : CStr) : Comp (A × Heap N A M) := do
  let (pair, h) := nvpairAlloc alloc h name
  let t ← values h nvl
  let t ← rbAdd strcmp h.name t pair
  pure (pair, setValues h nvl t)

def doNvlSet (h : Heap N A M) (nvl : N) (name : CStr) (val : Value N) :
    Comp (Except Errno Unit × Heap N A M) := do
  match ← find h nvl name with
  | none =>
    let (pair, h) ← nvlAdd alloc h nvl name
    pure (.ok (), { h with value := Function.update h.value pair val })
  | some pair => pure (.ok (), { h with value := Function.update h.value pair val })

def nvlSet (h : Heap N A M) (nvl : N) (name : CStr) (val : Value N) := doNvlSet alloc h nvl name val

def nvlSetPair (h : Heap N A M) (nvl : N) (pair : A) :=
  doNvlSet alloc h nvl (h.name pair) (h.value pair)

def nvlSetArray (h : Heap N A M) (nvl : N) (name : CStr) (vals : List (Value N)) :=
  nvlSet alloc h nvl name (.array vals)

def nvlSetArrayCopy (h : Heap N A M) (nvl : N) (name : CStr) (vals : List (Value N)) :=
  nvlSet alloc h nvl name (.array vals)

def nvlSetBlob (h : Heap N A M) (nvl : N) (name : CStr) (bytes : Bytes) :=
  nvlSet alloc h nvl name (.blob bytes)

def nvlSetBlobCopy (h : Heap N A M) (nvl : N) (name : CStr) (bytes : Bytes) :=
  nvlSet alloc h nvl name (.blob bytes)

def nvlSetBool (h : Heap N A M) (nvl : N) (name : CStr) (v : Bool) := nvlSet alloc h nvl name (.bool v)

def nvlSetCstrDup (h : Heap N A M) (nvl : N) (name v : CStr) := nvlSet alloc h nvl name (.str v)

def nvlSetInt (h : Heap N A M) (nvl : N) (name : CStr) (v : UInt64) := nvlSet alloc h nvl name (.int v)

def nvlSetNull (h : Heap N A M) (nvl : N) (name : CStr) := nvlSet alloc h nvl name .null

def nvlSetNvl (h : Heap N A M) (nvl : N) (name : CStr) (v : N) := nvlSet alloc h nvl name (.nvl v)

def nvlSetStr (h : Heap N A M) (nvl : N) (name v : CStr) := nvlSet alloc h nvl name (.str v)

/-- `nvl_merge`; a round sets one pair of `src` in `dest` and moves on in `src`. -/
def nvlMerge (h : Heap N A M) (dest src : N) : Comp (Except Errno Unit × Heap N A M) := do
  let start ← nvlIterStart h src
  loop (fun (s : Option A × Heap N A M) => match s.1 with
    | none => pure (.inr (.ok (), s.2))
    | some spair => do
      match ← nvlSet alloc s.2 dest (s.2.name spair) (s.2.value spair) with
      | (.error e, h) => pure (.inr (.error e, h))
      | (.ok (), h) => do
        let next ← nvlIterNext h src spair
        pure (.inl (next, h))) (start, h)

end Set

/-- `unset`; a type is given by `nvl_unset_type` only. -/
def unset (h : Heap N A M) (nvl : N) (name : CStr) (type : ValType) (matchtype : Bool) :
    Comp (Except Errno Unit × Heap N A M) := do
  match ← find h nvl name with
  | none => pure (.error .ENOENT, h)
  | some pair =>
    if matchtype && (h.value pair).type ≠ type then pure (.error .ERANGE, h)
    else do
      let t ← values h nvl
      let t ← rbRemove t pair
      pure (.ok (), nvpairFree (setValues h nvl t) pair)

def nvlUnset (h : Heap N A M) (nvl : N) (name : CStr) := unset h nvl name .null false

def nvlUnsetType (h : Heap N A M) (nvl : N) (name : CStr) (type : ValType) := unset h nvl name type true

end Libjeffpc.Nvl
