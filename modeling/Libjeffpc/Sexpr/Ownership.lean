import Libjeffpc.Sexpr.CompactHeap

/-!
# Values in the heap, and where compaction fails to keep the counts

`InHeap h v`: the objects of `v`, at their addresses, are in the heap `h`. `Keeping` is the condition
under which compaction keeps the counts right whatever memory it gets.
-/

namespace Libjeffpc

open Lib

namespace Sexpr

variable {A : Type}

/-- Compaction of the value requests no memory. -/
def AllocFree (v : Ref A) : Prop :=
  ∀ w, Visits v w → w.type ≠ some .nvl ∧ whatIsIt w ≠ .array ∧ whatIsIt w ≠ .nvl

/-- The name of the pair is not copied, or its copy is there already. -/
def NameReady (u : Ref A) : Prop := ∀ a b s t, u = .cons a (.sym b s) t → Heap.getPreallocated s

/-- A place where a refused request is not noticed: an element of an array, or the copy of a name. -/
def Frail (w : Ref A) : Prop :=
  (∃ a vals, w = .array a vals ∧ ∃ v ∈ vals, ¬AllocFree v) ∨ (whatIsIt w = .nvl ∧ ∃ u ∈ w.items, ¬NameReady u)

/-- Compaction comes to no NULL pointer, to no list that becomes an array, and to no frail place. -/
def Keeping (v : Ref A) : Prop := ∀ w, Visits v w → w ≠ .null ∧ whatIsIt w ≠ .array ∧ ¬Frail w

end Sexpr

namespace Heap

open Sexpr (Ref)

/-- The pointer to a value. -/
def ptr (v : Ref Pointer) : Pointer := v.addr.getD .null

/-- The object of a value that consists of one object. -/
def leaf : Ref Pointer → Option Obj
  | .vtNull _ => some .null
  | .int _ i => some (.int i)
  | .str _ s => some (.str s)
  | .sym _ s => some (.sym s)
  | .bool _ b => some (.bool b)
  | .char _ c => some (.char c)
  | .blob _ bytes => some (.blob bytes)
  | _ => none

inductive InHeap (h : RcHeap Obj) : Ref Pointer → Prop
  | null : InHeap h .null
  | leaf {v : Ref Pointer} {b : Obj} (hb : leaf v = some b) (hp : Holds h (ptr v) b) : InHeap h v
  | cons {p : Pointer} {head tail : Ref Pointer} (hp : Holds h p (.cons (ptr head) (ptr tail)))
      (hh : InHeap h head) (ht : InHeap h tail) : InHeap h (.cons p head tail)
  | array {p : Pointer} {vals : List (Ref Pointer)} (hp : Holds h p (.array (vals.map ptr)))
      (hv : ∀ v ∈ vals, InHeap h v) : InHeap h (.array p vals)
  | nvl {p : Pointer} {pairs : List (CStr × Ref Pointer)} {qs : List (CStr × Pointer × Pointer)}
      (hp : Holds h p (.nvl qs)) (hqs : qs.map (fun q => (q.1, q.2.2)) = pairs.map fun q => (q.1, ptr q.2))
      (hv : ∀ q ∈ pairs, InHeap h q.2) : InHeap h (.nvl p pairs)

/-- The function returns with the counts right and the references that are left, whatever the answers to
its requests for memory are. -/
def Leaves (f : HeapM Pointer) (h : RcHeap Obj) (left : List Pointer) : Prop :=
  ∀ grants, ∃ r s, f ⟨h, grants⟩ = pure (r, s) ∧ RcHeap.Balanced s.heap (r.given ++ left)

end Heap

end Libjeffpc
