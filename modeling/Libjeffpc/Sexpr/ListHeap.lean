import Libjeffpc.Sexpr.Ownership

/-!
# Lists and arrays of values (`sexpr.c`, `val.c`)

The functions that make a list of an array and those that walk a list, with every reference that they
take and release. A list ends in NULL or in an empty cons cell; `IsList` takes both for an end.
-/

namespace Libjeffpc.Heap

open Lib
open Sexpr (Ref)

def valEmptyCons : Pointer := .static .consEmpty

def valAllocCons (head tail : Pointer) : HeapM Pointer := do
  if head = .null && tail = .null then pure valEmptyCons
  else do
    let val ← valAlloc (.cons head tail)
    if val.isErr then do
      valPutref head
      valPutref tail
      pure val
    else pure val

/-- The loop of `sexpr_array_to_list`: the values that are left, the last one first, and the list so far.
`VAL_ALLOC_CONS` checks that there is memory. -/
def arrayToListLoop (vals : List Pointer) (last : Pointer) : HeapM Pointer := do
  match vals with
  | [] => pure last
  | v :: vals => do
    let tmp ← valAllocCons v last
    assert (!tmp.isErr)
    arrayToListLoop vals tmp

def sexprArrayToList (vals : List Pointer) : HeapM Pointer :=
  if vals.length = 0 then pure valEmptyCons else arrayToListLoop vals.reverse .null

/-- It consumes the reference that it is given. -/
def sexprNth (lv : Pointer) (n : Nat) : HeapM Pointer := do
  match n with
  | 0 => pure lv
  | n + 1 =>
    if lv = .null then pure lv
    else do
      let tmp ← match ← load lv with
        -- if this is not the one, follow the tail
        | .cons head tail => if n ≠ 0 then valGetref tail else valGetref head
        | _ => pure .null
      valPutref lv
      sexprNth tmp n

/-! ## What a list is to be read as -/

/-- A proper list of values, whichever way it ends. -/
def IsList (v : Ref Pointer) (vals : List (Ref Pointer)) : Prop := v.toVal.isProper ∧ v.items = vals

/-- A list that ends in something else. -/
def IsImproper (v : Ref Pointer) : Prop := v.toVal.isProper = false

/-- Values that are not NULL, each with a reference. -/
structure Given (h : RcHeap Obj) (owned : List Pointer) (vals : List (Ref Pointer)) : Prop where
  inHeap : ∀ w ∈ vals, InHeap h w
  ne_null : ∀ w ∈ vals, w ≠ .null
  balanced : RcHeap.Balanced h (vals.map ptr ++ owned)

/-- The function returns the result, and these references are left, whatever is answered to requests for
memory. -/
def Gives {α : Type} (f : HeapM α) (h : RcHeap Obj) (r : α) (left : List Pointer) : Prop :=
  ∀ grants, ∃ s, f ⟨h, grants⟩ = pure (r, s) ∧ RcHeap.Balanced s.heap left

/-- The values become a list, and the list takes over their references. Without memory for one of the cells
an assertion fails. -/
structure BuildsList (h : RcHeap Obj) (owned : List Pointer) (vals : List (Ref Pointer)) : Prop where
  granted : ∀ grants : Nat → Bool, (∀ k < vals.length, grants k = true) →
    ∃ v s, sexprArrayToList (vals.map ptr) ⟨h, grants⟩ = pure (ptr v, s) ∧ IsList v vals ∧ InHeap s.heap v ∧
      RcHeap.Balanced s.heap (ptr v :: owned)
  refused : ∀ grants : Nat → Bool, (∃ k < vals.length, grants k = false) →
    sexprArrayToList (vals.map ptr) ⟨h, grants⟩ = throw .assert

/-- The walks through a list agree on its values. -/
structure ReadsList (h : RcHeap Obj) (owned : List Pointer) (v : Ref Pointer) (vals : List (Ref Pointer)) :
    Prop where
  length : Gives (sexprLength (ptr v)) h (vals.length : Int) owned
  nth : ∀ i (hi : i < vals.length),
    Gives (sexprNth (ptr v) (i + 1)) h (ptr (vals.get ⟨i, hi⟩)) (ptr (vals.get ⟨i, hi⟩) :: owned)
  nth_after : ∀ i, vals.length < i → Gives (sexprNth (ptr v) i) h .null owned
  toArray : ∀ alen, vals.length ≤ alen →
    Gives (sexprListToArray (ptr v) alen) h (.ok (vals.map ptr)) (vals.map ptr ++ ptr v :: owned)
  tooShort : ∀ alen, alen < vals.length →
    ∃ e, Gives (sexprListToArray (ptr v) alen) h (.error e) (ptr v :: owned)

/-- A list with another end has no length, and becomes no array. -/
structure RefusesList (h : RcHeap Obj) (owned : List Pointer) (v : Ref Pointer) : Prop where
  length : Gives (sexprLength (ptr v)) h (-1) owned
  toArray : ∀ alen, ∃ e, Gives (sexprListToArray (ptr v) alen) h (.error e) (ptr v :: owned)

end Libjeffpc.Heap
