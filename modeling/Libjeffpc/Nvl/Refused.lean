import Libjeffpc.Nvl.NvMap
import Libjeffpc.Val.Heap

/-!
# An nvlist when memory runs out (`nvl.c`)

`do_nvl_set` copies the name for a new pair and does not look at what the copy returns: where a request is
refused, the name of the pair is an error code. `rb_add` compares names, and uses the code as a pointer if there
are other pairs. In an empty nvlist the call returns 0, and the next search comes to the code.
-/

namespace Libjeffpc.Nvl

open Lib Libjeffpc.Tree

/-- The requests for memory of a call that are refused: those for the copy of a value, those for the copy of the
name, and the one for a pair. -/
structure Refusals where
  value : Bool
  name : Bool
  pair : Bool

def Refusals.none : Refusals := { value := false, name := false, pair := false }

/-- `str_dup` fails: requests are refused, and it makes one. -/
def copyRefused (refused : Bool) (s : CStr) : Bool := refused && Libjeffpc.Heap.strDupRequests s ≠ 0

/-- All nvlists, and those of them that have a code for a name. Such an nvlist has one pair; in `heap` the name of
this pair is the one that could not be copied. -/
structure Lists (N A M : Type) where
  heap : Heap N A M
  coded : N → Bool

namespace Lists

variable {N A M : Type} [DecidableEq N] [DecidableEq A] [TreeMem A M]

/-- A search compares names. -/
def named (l : Lists N A M) (nvl : N) : Comp (Heap N A M) :=
  if l.coded nvl then throw .code else pure l.heap

def nvlExists (l : Lists N A M) (nvl : N) (name : CStr) : Comp Bool := do
  Nvl.nvlExists (← l.named nvl) nvl name

section Set

variable (alloc : Allocator A) (refused : Refusals)

/-- The branch of `do_nvl_set` for a name that is not there. -/
def nvlAdd (l : Lists N A M) (nvl : N) (name : CStr) (val : Value N) :
    Comp (Except Errno Unit × Lists N A M) := do
  let isErr := copyRefused refused.name name
  let t ← values l.heap nvl
  if refused.pair then
    -- `__nvpair_alloc` gives the reference to the name back
    if isErr then throw .code else pure (.error .ENOMEM, l)
  else if isErr && t.root.isSome then throw .code
  else do
    let (pair, heap) ← Nvl.nvlAdd alloc l.heap nvl name
    pure (.ok (), {
      heap := { heap with value := Function.update heap.value pair val }
      coded := if isErr then Function.update l.coded nvl true else l.coded })

/-- `nvl_set`: `do_nvl_set` without the string of the name. -/
def nvlSet (l : Lists N A M) (nvl : N) (name : CStr) (val : Value N) :
    Comp (Except Errno Unit × Lists N A M) := do
  let h ← l.named nvl
  match ← find h nvl name with
  | none => nvlAdd alloc refused l nvl name val
  | some pair => pure (.ok (), { l with heap := { h with value := Function.update h.value pair val } })

def nvlSetCstrDup (l : Lists N A M) (nvl : N) (name v : CStr) : Comp (Except Errno Unit × Lists N A M) :=
  if copyRefused refused.value v then pure (.error .ENOMEM, l) else nvlSet alloc refused l nvl name (.str v)

def nvlSetNull (l : Lists N A M) (nvl : N) (name : CStr) : Comp (Except Errno Unit × Lists N A M) :=
  nvlSet alloc refused l nvl name .null

def nvlSetStr (l : Lists N A M) (nvl : N) (name v : CStr) : Comp (Except Errno Unit × Lists N A M) :=
  nvlSet alloc refused l nvl name (.str v)

end Set

end Lists

/-! ## Calls one after the other -/

/-- A name, the value that is made for it, and what the call for them is refused. -/
structure Call (N : Type) where
  name : CStr
  value : Value N
  refused : Refusals

namespace Call

variable {N : Type}

/-- There is no memory for the value. -/
def valueRefused (c : Call N) : Bool :=
  match c.value with
  | .str s => copyRefused c.refused.value s
  | _ => false

/-- There is no memory for a copy of the name. -/
def nameRefused (c : Call N) : Bool := copyRefused c.refused.name c.name

/-- There is memory for the value, for a copy of the name and for a pair. -/
def puts (c : Call N) : Bool := !c.valueRefused && !c.nameRefused && !c.refused.pair

end Call

/-- The calls leave the map without the name. -/
def New {N : Type} (map : NvMap N) (pre : List (Call N)) (name : CStr) : Prop :=
  map name = none ∧ ∀ c ∈ pre, c.puts → c.name ≠ name

end Libjeffpc.Nvl
