import Libjeffpc.Nvl.Nvl

/-!
# The map that an nvlist is

`NvState` says what every nvlist contains, as a partial map from names to values. `specStep` is what a
call does to the maps and what it returns; `exec` makes the same call on the heap.
-/

namespace Libjeffpc.Nvl

open Lib Libjeffpc.Tree

abbrev NvMap (N : Type) := CStr → Option (Value N)

abbrev NvState (N : Type) := N → Option (NvMap N)

/-- The functions of the `nvl_set` family that take a name, with the value they are given. -/
inductive Setter (N : Type) where
  | val (v : Value N)
  | array (vals : List (Value N))
  | arrayCopy (vals : List (Value N))
  | blob (bytes : Bytes)
  | blobCopy (bytes : Bytes)
  | bool (b : Bool)
  | cstrDup (s : CStr)
  | int (i : UInt64)
  | null
  | nvl (l : N)
  | str (s : CStr)

/-- The value that ends up in the nvlist. -/
def Setter.value {N : Type} : Setter N → Value N
  | val v => v
  | array vals => .array vals
  | arrayCopy vals => .array vals
  | blob bytes => .blob bytes
  | blobCopy bytes => .blob bytes
  | bool b => .bool b
  | cstrDup s => .str s
  | int i => .int i
  | null => .null
  | nvl l => .nvl l
  | str s => .str s

/-- The calls that change nvlists. -/
inductive NvCall (N : Type) where
  | alloc (nvl : N)
  | set (nvl : N) (name : CStr) (setter : Setter N)
  /-- `nvl_set_pair` with the pair that `nvl_lookup(from, name)` returns. -/
  | setPair (nvl src : N) (name : CStr)
  | unset (nvl : N) (name : CStr)
  | unsetType (nvl : N) (name : CStr) (type : ValType)
  | merge (dest src : N)

section Spec

variable {N : Type} [DecidableEq N]

/-- The union of two maps where the second one wins. -/
def NvMap.merge (dest src : NvMap N) : NvMap N := fun name => (src name).or (dest name)

def NvMap.set (map : NvMap N) (name : CStr) (v : Value N) : NvMap N :=
  Function.update map name (some v)

def NvMap.unset (map : NvMap N) (name : CStr) : NvMap N := Function.update map name none

/-- Change one map. -/
def NvState.modify (σ : NvState N) (nvl : N) (f : NvMap N → NvMap N) : NvState N :=
  Function.update σ nvl ((σ nvl).map f)

/-- What is in a map under a name. -/
def NvState.get (σ : NvState N) (nvl : N) (name : CStr) : Option (Value N) := (σ nvl).bind (· name)

def specUnset (σ : NvState N) (nvl : N) (name : CStr) (ok : Value N → Bool) :
    Except Errno Unit × NvState N :=
  match σ.get nvl name with
  | none => (.error .ENOENT, σ)
  | some v => if ok v then (.ok (), σ.modify nvl (·.unset name)) else (.error .ERANGE, σ)

def specStep (σ : NvState N) : NvCall N → Except Errno Unit × NvState N
  | .alloc nvl => (.ok (), Function.update σ nvl (some fun _ => none))
  | .set nvl name setter => (.ok (), σ.modify nvl (·.set name setter.value))
  | .setPair nvl src name =>
    match σ.get src name with
    | none => (.error .ENOENT, σ)
    | some v => (.ok (), σ.modify nvl (·.set name v))
  | .unset nvl name => specUnset σ nvl name fun _ => true
  | .unsetType nvl name type => specUnset σ nvl name fun v => v.type = type
  | .merge dest src => (.ok (), σ.modify dest (·.merge ((σ src).getD fun _ => none)))

/-- A call is made on nvlists that exist; a new one gets a handle that is not in use. -/
def LegalCall (σ : NvState N) : NvCall N → Prop
  | .alloc nvl => σ nvl = none
  | .set nvl _ _ => σ nvl ≠ none
  | .setPair nvl src name => σ nvl ≠ none ∧ σ.get src name ≠ none
  | .unset nvl _ => σ nvl ≠ none
  | .unsetType nvl _ _ => σ nvl ≠ none
  | .merge dest src => σ dest ≠ none ∧ σ src ≠ none

def specRun (σ : NvState N) : List (NvCall N) → List (Except Errno Unit) × NvState N
  | [] => ([], σ)
  | c :: cs => ((specStep σ c).1 :: (specRun (specStep σ c).2 cs).1, (specRun (specStep σ c).2 cs).2)

def LegalCalls (σ : NvState N) : List (NvCall N) → Prop
  | [] => True
  | c :: cs => LegalCall σ c ∧ LegalCalls (specStep σ c).2 cs

end Spec

section Exec

variable {N A M : Type} [DecidableEq N] [DecidableEq A] [TreeMem A M] (alloc : Allocator A)

def execSet (h : Heap N A M) (nvl : N) (name : CStr) :
    Setter N → Comp (Except Errno Unit × Heap N A M)
  | .val v => nvlSet alloc h nvl name v
  | .array vals => nvlSetArray alloc h nvl name vals
  | .arrayCopy vals => nvlSetArrayCopy alloc h nvl name vals
  | .blob bytes => nvlSetBlob alloc h nvl name bytes
  | .blobCopy bytes => nvlSetBlobCopy alloc h nvl name bytes
  | .bool b => nvlSetBool alloc h nvl name b
  | .cstrDup s => nvlSetCstrDup alloc h nvl name s
  | .int i => nvlSetInt alloc h nvl name i
  | .null => nvlSetNull alloc h nvl name
  | .nvl l => nvlSetNvl alloc h nvl name l
  | .str s => nvlSetStr alloc h nvl name s

def exec (h : Heap N A M) : NvCall N → Comp (Except Errno Unit × Heap N A M)
  | .alloc nvl => pure (.ok (), nvlAlloc h nvl)
  | .set nvl name setter => execSet alloc h nvl name setter
  | .setPair nvl src name => do
    match ← nvlLookup h src name with
    | .ok pair => nvlSetPair alloc h nvl pair
    | .error e => pure (.error e, h)
  | .unset nvl name => nvlUnset h nvl name
  | .unsetType nvl name type => nvlUnsetType h nvl name type
  | .merge dest src => nvlMerge alloc h dest src

def execRun (h : Heap N A M) : List (NvCall N) → Comp (List (Except Errno Unit) × Heap N A M)
  | [] => pure ([], h)
  | c :: cs => do
    let (r, h) ← exec alloc h c
    let (rs, h) ← execRun h cs
    pure (r :: rs, h)

/-- A heap without nvlists. -/
def Heap.empty (N : Type) {A M : Type} (m : M) : Heap N A M where
  trees := fun _ => none
  mem := m
  name := fun _ => CStr.empty
  value := fun _ => .null
  live := []

end Exec

end Libjeffpc.Nvl
