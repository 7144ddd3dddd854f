import Libjeffpc.Lib.Comp
import Libjeffpc.Lib.Ring

/-!
# Linked lists (`list.h`, `list.c`)

The memory gives every address of a `struct list_node` its two pointers. An object is on a list by the node
`offset` bytes behind its start.
-/

namespace Libjeffpc.Lists

open Lib

abbrev Mem := Links UInt64

/-! ## `slist_*` -/

def slistInit (m : Mem) (node : UInt64) : Mem := (m.setNext node node).setPrev node node

def slistIsEmpty (m : Mem) (list : UInt64) : Bool := (m list).next == list

def slistInsertAfter (m : Mem) (cur new : UInt64) : Mem :=
  let m := m.setNext new (m cur).next
  let m := m.setPrev new cur
  let m := m.setNext cur new
  m.setPrev (m new).next new

def slistInsertBefore (m : Mem) (cur new : UInt64) : Mem :=
  let m := m.setNext new cur
  let m := m.setPrev new (m cur).prev
  let m := m.setPrev cur new
  m.setNext (m new).prev new

def slistRemove (m : Mem) (node : UInt64) : Mem :=
  let m := m.setPrev (m node).next (m node).prev
  let m := m.setNext (m node).prev (m node).next
  slistInit m node

def slistMoveTail (m : Mem) (dst src : UInt64) : Mem :=
  if slistIsEmpty m src then m
  else
    let m := m.setNext (m dst).prev (m src).next
    let m := m.setPrev (m src).next (m dst).prev
    let m := m.setNext (m src).prev dst
    let m := m.setPrev dst (m src).prev
    slistInit m src

/-! ## `list_*` -/

/-- `struct list`; `head` is the address of its sentinel. -/
structure LinkedList where
  offset : UInt64
  size : UInt64
  head : UInt64

def null : UInt64 := 0

def listObj2node (list : LinkedList) (obj : UInt64) : UInt64 := obj + list.offset

def listNode2obj (list : LinkedList) (node : UInt64) : UInt64 := node - list.offset

/-- `list_create`; 16 is the size of a `struct list_node`. -/
def listCreate (m : Mem) (list : LinkedList) : Comp Mem := do
  assert !(list.size < list.offset + 16)
  return slistInit m list.head

def listInsertAfter (m : Mem) (list : LinkedList) (ref new : UInt64) : Mem :=
  slistInsertAfter m (listObj2node list ref) (listObj2node list new)

def listInsertBefore (m : Mem) (list : LinkedList) (ref new : UInt64) : Mem :=
  slistInsertBefore m (listObj2node list ref) (listObj2node list new)

def listInsertHead (m : Mem) (list : LinkedList) (new : UInt64) : Mem :=
  slistInsertAfter m list.head (listObj2node list new)

def listInsertTail (m : Mem) (list : LinkedList) (new : UInt64) : Mem :=
  slistInsertBefore m list.head (listObj2node list new)

def listNext (m : Mem) (list : LinkedList) (ref : UInt64) : UInt64 :=
  let node := if ref = null then list.head else listObj2node list ref
  if (m node).next = list.head then null else listNode2obj list (m node).next

def listPrev (m : Mem) (list : LinkedList) (ref : UInt64) : UInt64 :=
  let node := if ref = null then list.head else listObj2node list ref
  if (m node).prev = list.head then null else listNode2obj list (m node).prev

def listRemove (m : Mem) (list : LinkedList) (item : UInt64) : Mem := slistRemove m (listObj2node list item)

/-- What it returns, and the memory. -/
def listRemoveHead (m : Mem) (list : LinkedList) : UInt64 × Mem :=
  if slistIsEmpty m list.head then (null, m)
  else
    let node := (m list.head).next
    (listNode2obj list node, slistRemove m node)

def listRemoveTail (m : Mem) (list : LinkedList) : UInt64 × Mem :=
  if slistIsEmpty m list.head then (null, m)
  else
    let node := (m list.head).prev
    (listNode2obj list node, slistRemove m node)

def listMoveTail (m : Mem) (dst src : LinkedList) : Comp Mem := do
  assert (dst.size == src.size)
  assert (dst.offset == src.offset)
  return slistMoveTail m dst.head src.head

/-! ## Loops over a list -/

/-- `for (node = step(NULL); node != NULL; node = step(node))`: the items that it visits. -/
def visit (step : Mem → LinkedList → UInt64 → UInt64) (m : Mem) (list : LinkedList) : Comp (List UInt64) :=
  loop (fun (node, visited) =>
    if node = null then pure (.inr visited) else pure (.inl (step m list node, visited ++ [node])))
    (step m list null, [])

def listForEach : Mem → LinkedList → Comp (List UInt64) := visit listNext

def listForEachReverse : Mem → LinkedList → Comp (List UInt64) := visit listPrev

/-- `for (node = step(NULL), next = step(node); node != NULL; node = next, next = step(next))`: the items that it
visits, and the memory behind it. -/
def visitSafe (step : Mem → LinkedList → UInt64 → UInt64) (m : Mem) (list : LinkedList) (body : Mem → UInt64 → Mem) :
    Comp (List UInt64 × Mem) :=
  loop (fun (node, next, m, visited) =>
    if node = null then pure (.inr (visited, m))
    else
      let m := body m node
      pure (.inl (next, step m list next, m, visited ++ [node])))
    (step m list null, step m list (step m list null), m, [])

def listForEachSafe : Mem → LinkedList → (Mem → UInt64 → Mem) → Comp (List UInt64 × Mem) := visitSafe listNext

/-! ## Runs -/

/-- The lists of a program and the objects that it puts on them: no two nodes are in the same place. -/
structure Program (ι : Type) where
  list : ι → LinkedList
  Item : UInt64 → Prop
  head_inj : ∀ i j, (list i).head = (list j).head → i = j
  item_ne_null : ∀ x, Item x → x ≠ null
  node_inj : ∀ i j x y, Item x → Item y → listObj2node (list i) x = listObj2node (list j) y → x = y
  node_ne_head : ∀ i j x, Item x → listObj2node (list i) x ≠ (list j).head

/-- Where an item is inserted. -/
inductive Place where
  | head
  | tail
  | before (ref : UInt64)
  | after (ref : UInt64)

inductive Op (ι : Type) where
  | create (i : ι)
  | insert (i : ι) (place : Place) (new : UInt64)
  | remove (i : ι) (item : UInt64)
  | removeHead (i : ι)
  | removeTail (i : ι)
  | moveTail (dst src : ι)

def insertAt (m : Mem) (list : LinkedList) (new : UInt64) : Place → Mem
  | .head => listInsertHead m list new
  | .tail => listInsertTail m list new
  | .before ref => listInsertBefore m list ref new
  | .after ref => listInsertAfter m list ref new

variable {ι : Type} [DecidableEq ι]

/-- What an operation returns (if it returns something), and the memory. -/
def exec (w : Program ι) (m : Mem) : Op ι → Comp (Option UInt64 × Mem)
  | .create i => return (none, ← listCreate m (w.list i))
  | .insert i place new => pure (none, insertAt m (w.list i) new place)
  | .remove i item => pure (none, listRemove m (w.list i) item)
  | .removeHead i => pure ((listRemoveHead m (w.list i)).map some id)
  | .removeTail i => pure ((listRemoveTail m (w.list i)).map some id)
  | .moveTail dst src => return (none, ← listMoveTail m (w.list dst) (w.list src))

def run (w : Program ι) : Mem → List (Op ι) → Comp (List (Option UInt64) × Mem)
  | m, [] => pure ([], m)
  | m, op :: ops => do
    let (r, m) ← exec w m op
    let (rs, m) ← run w m ops
    return (r :: rs, m)

/-! ## Sequences -/

/-- The items of every list that has been created, and the nodes that have been removed and are on no list since. -/
structure Seqs (ι : Type) where
  lists : ι → Option (List UInt64)
  removed : List UInt64

namespace Seqs

def none : Seqs ι := ⟨fun _ => .none, []⟩

def get (r : Seqs ι) (i : ι) : List UInt64 := (r.lists i).getD []

def set (r : Seqs ι) (i : ι) (l : List UInt64) : Seqs ι := { r with lists := Function.update r.lists i (some l) }

def insert (l : List UInt64) (new : UInt64) : Place → List UInt64
  | .head => new :: l
  | .tail => l ++ [new]
  | .before ref => l.flatMap fun x => if x = ref then [new, x] else [x]
  | .after ref => l.flatMap fun x => if x = ref then [x, new] else [x]

/-- The items `xs` of a list are on it no more. -/
def unlink (w : Program ι) (r : Seqs ι) (i : ι) (xs l : List UInt64) : Seqs ι :=
  { r.set i l with removed := r.removed ++ xs.map (listObj2node (w.list i)) }

def after (w : Program ι) (r : Seqs ι) : Op ι → Seqs ι
  | .create i => r.set i []
  | .insert i place new =>
    { r.set i (insert (r.get i) new place) with removed := r.removed.filter (· ≠ listObj2node (w.list i) new) }
  | .remove i item => r.unlink w i [item] ((r.get i).erase item)
  | .removeHead i => r.unlink w i ((r.get i).take 1) (r.get i).tail
  | .removeTail i => r.unlink w i (r.get i).getLast?.toList (r.get i).dropLast
  | .moveTail dst src => (r.set dst (r.get dst ++ r.get src)).set src []

def returned (r : Seqs ι) : Op ι → Option UInt64
  | .removeHead i => some ((r.get i).headD null)
  | .removeTail i => some ((r.get i).getLastD null)
  | _ => .none

/-- What the user of the lists has to take care of. -/
def Allowed (w : Program ι) (r : Seqs ι) : Op ι → Prop
  | .create i => r.lists i = .none
  | .insert i place new => (r.lists i).isSome ∧ w.Item new ∧ (∀ j, new ∉ r.get j) ∧
    match place with
    | .head | .tail => True
    | .before ref | .after ref => ref ∈ r.get i
  | .remove i item => (r.lists i).isSome ∧ item ∈ r.get i
  | .removeHead i | .removeTail i => (r.lists i).isSome
  | .moveTail dst src => dst ≠ src ∧ (r.lists dst).isSome ∧ (r.lists src).isSome

def afterAll (w : Program ι) (r : Seqs ι) (ops : List (Op ι)) : Seqs ι := ops.foldl (after w) r

def AllowedAll (w : Program ι) : Seqs ι → List (Op ι) → Prop
  | _, [] => True
  | r, op :: ops => Allowed w r op ∧ AllowedAll w (r.after w op) ops

def returnedAll (w : Program ι) : Seqs ι → List (Op ι) → List (Option UInt64)
  | _, [] => []
  | r, op :: ops => r.returned op :: returnedAll w (r.after w op) ops

end Seqs

omit [DecidableEq ι] in
/-- What the code itself makes sure of. -/
def Verified (w : Program ι) : Op ι → Prop
  | .create i => ¬(w.list i).size < (w.list i).offset + 16
  | .moveTail dst src => (w.list dst).size = (w.list src).size ∧ (w.list dst).offset = (w.list src).offset
  | _ => True

/-- The memory holds the sequences. -/
structure Refines (w : Program ι) (m : Mem) (r : Seqs ι) : Prop where
  links : ∀ i l, r.lists i = some l → ∀ n ∈ (w.list i).head :: l.map (listObj2node (w.list i)),
    (m (m n).next).prev = n ∧ (m (m n).prev).next = n
  forward : ∀ i l, r.lists i = some l → listForEach m (w.list i) = pure l
  backward : ∀ i l, r.lists i = some l → listForEachReverse m (w.list i) = pure l.reverse
  nodup : ∀ i l, r.lists i = some l → l.Nodup
  disjoint : ∀ i j, i ≠ j → (r.get i).Disjoint (r.get j)
  removed : ∀ n ∈ r.removed, m n = ⟨n, n⟩

end Libjeffpc.Lists
