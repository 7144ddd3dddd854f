import Libjeffpc.Tree.OrderedSet

/-!
# A program that uses several trees

All calls of `rbtree.h` and `bst.h`, made by a program that has trees of one flavour, named by `I`, and
cookies, named by `J`. The nodes of all trees are in one memory. A node that has never been in a tree
is not initialized, so `known` records which ones have been; it is never read.
-/

set_option linter.constructorNameAsVariable false

namespace Libjeffpc.Tree

open Lib

section Calls

variable {A M : Type} [DecidableEq A] [TreeMem A M]

/-- `tree_nearest`; the state of the loop is `node` and `dir`. -/
def treeNearest (m : M) (cookie : TreeCookie A) (gt : Bool) : Comp (Option A) :=
  let left : TreeDir := if gt then .left else .right
  match cookie.node with
  | none => pure none
  | some node =>
    loop (fun (s : A × TreeDir) =>
      if s.2 = left then pure (.inr (some s.1))
      else do
        assert (s.2 = left.flip)
        match getParent m s.1 with
        | none => pure (.inr none)
        | some p => pure (.inl (p, whichDir m p (some s.1)))) (node, cookie.dir)

/-- The cookie of `tree_destroy_nodes`: zeroed, `DESTROY_NODES_DONE`, or the node to process next and
the child of it to look at. -/
inductive Cursor (A : Type) where
  | start
  | done
  | at (node : A) (dir : TreeDir)

def destroyNodesSaveParent (t : TreeTree A M) (node : A) : Comp (Cursor A) :=
  if t.root ≠ some node then do
    let p ← deref (getParent t.mem node)
    pure (.at p (whichDir t.mem p (some node)).flip)
  else pure .done

def destroyNodesStep (t : TreeTree A M) (node : A) : Comp (A × Cursor A) :=
  loop (fun node => do
    let tmp ← firstlast t.mem node .left
    match child t.mem tmp .right with
    | none => do
      let cursor ← destroyNodesSaveParent t tmp
      pure (.inr (tmp, cursor))
    | some r => pure (.inl r)) node

/-- The last part of `tree_destroy_nodes`: process the node itself. -/
def destroyNodesSelf (t : TreeTree A M) (node : A) : Comp (A × Cursor A) := do
  let cursor ← destroyNodesSaveParent t node
  pure (node, cursor)

def treeDestroyNodes (t : TreeTree A M) (cursor : Cursor A) :
    Comp (Option A × Cursor A × TreeTree A M) :=
  match t.root with
  | none => pure (none, cursor, t)
  | some root =>
    match cursor with
    | .done => pure (none, cursor, { t with root := none, numNodes := 0 })
    | .start => do
      let (node, cursor) ← destroyNodesStep t root
      pure (some node, cursor, t)
    | .at node dir => do
      let right := if dir = .right then child t.mem node .right else none
      let (node, cursor) ← match right with
        | some r => destroyNodesStep t r
        | none => destroyNodesSelf t node
      pure (some node, cursor, t)

end Calls

/-- The calls of `rbtree.h` and `bst.h`. -/
inductive ForestCall (I J A K : Type) where
  | destroy (i : I)
  | add (i : I) (a : A)
  | insert (i : I) (a : A)
  | insertHere (i : I) (a : A) (j : J)
  | remove (i : I) (a : A)
  | isEmpty (i : I)
  | numnodes (i : I)
  | find (i : I) (key : K) (j : Option J)
  | nearest (i : I) (j : J) (gt : Bool)
  | first (i : I)
  | last (i : I)
  | next (i : I) (a : A)
  | prev (i : I) (a : A)
  | destroyNodes (i : I) (j : J)
  /-- The program zeroes a cookie. -/
  | zero (j : J)
  | swap (i₁ i₂ : I)
  /-- The program changes keys of objects. -/
  | rekey (keyOf : A → K)

/-- The memory of the program. -/
structure Forest (I J A M K : Type) where
  /-- `root` and `num_nodes`. -/
  trees : I → Option A × Nat
  mem : M
  keyOf : A → K
  cookies : J → TreeCookie A
  cursors : J → Cursor A
  known : List A

namespace Forest

variable {I J A M K : Type} [DecidableEq I] [DecidableEq J] [DecidableEq A] [TreeMem A M]

/-- No tree has a node; nothing is known about the memory. -/
def create (I J : Type) (mem : M) (keyOf : A → K) : Forest I J A M K where
  trees := fun _ => (none, 0)
  mem
  keyOf
  cookies := fun _ => ⟨none, .left⟩
  cursors := fun _ => .start
  known := []

def tree (τ : Forest I J A M K) (i : I) : TreeTree A M := ⟨(τ.trees i).1, (τ.trees i).2, τ.mem⟩

def put (τ : Forest I J A M K) (i : I) (t : TreeTree A M) : Forest I J A M K :=
  { τ with trees := Function.update τ.trees i (t.root, t.numNodes), mem := t.mem }

/-- The state after an insertion: `r` is the item that was there already. -/
def inserted (τ : Forest I J A M K) (i : I) (a : A) (r : Option A) (t : TreeTree A M) :
    Forest I J A M K :=
  { τ.put i t with known := if r.isSome then τ.known else a :: τ.known }

/-- One call; `F` is the flavour of all trees. -/
def step (F : Flavour A M K) (cmp : K → K → Int) (τ : Forest I J A M K) :
    ForestCall I J A K → Comp (Result A × Forest I J A M K)
  | .destroy i => pure (.void, τ.put i ⟨none, 0, τ.mem⟩)
  | .add i a => do
    let (r, t) ← F.insertHere cmp τ.keyOf (τ.tree i) a none
    match r with
    | some _ => throw .assert
    | none => pure (.void, τ.inserted i a none t)
  | .insert i a => do
    let (r, t) ← F.insertHere cmp τ.keyOf (τ.tree i) a none
    pure (.item r, τ.inserted i a r t)
  | .insertHere i a j => do
    let (r, t) ← F.insertHere cmp τ.keyOf (τ.tree i) a (some (τ.cookies j))
    pure (.item r, τ.inserted i a r t)
  | .remove i a => do
    let t ← F.remove (τ.tree i) a
    pure (.void, τ.put i t)
  | .isEmpty i => pure (.flag (treeIsEmpty (τ.tree i)), τ)
  | .numnodes i => pure (.num (treeNumnodes (τ.tree i)), τ)
  | .find i key none => do
    let (r, _) ← treeFind cmp τ.keyOf (τ.tree i) key none
    pure (.item r, τ)
  | .find i key (some j) => do
    let (r, cookie) ← treeFind cmp τ.keyOf (τ.tree i) key (some (τ.cookies j))
    let cookie ← deref cookie
    pure (.item r, { τ with cookies := Function.update τ.cookies j cookie })
  | .nearest _ j gt => do
    let r ← treeNearest τ.mem (τ.cookies j) gt
    pure (.item r, τ)
  | .first i => do
    let r ← treeFirst (τ.tree i)
    pure (.item r, τ)
  | .last i => do
    let r ← treeLast (τ.tree i)
    pure (.item r, τ)
  | .next i a => do
    let r ← treeNext (τ.tree i) a
    pure (.item r, τ)
  | .prev i a => do
    let r ← treePrev (τ.tree i) a
    pure (.item r, τ)
  | .destroyNodes i j => do
    let (r, cursor, t) ← treeDestroyNodes (τ.tree i) (τ.cursors j)
    pure (.item r, { τ.put i t with cursors := Function.update τ.cursors j cursor })
  | .zero j => pure (.void, { τ with
      cookies := Function.update τ.cookies j ⟨none, .left⟩
      cursors := Function.update τ.cursors j .start })
  | .swap i₁ i₂ =>
    let t₁ := τ.tree i₁
    let t₂ := τ.tree i₂
    pure (.void, (τ.put i₁ t₂).put i₂ t₁)
  | .rekey keyOf => pure (.void, { τ with keyOf })

def run (F : Flavour A M K) (cmp : K → K → Int) (τ : Forest I J A M K) :
    List (ForestCall I J A K) → Comp (List (Result A) × Forest I J A M K)
  | [] => pure ([], τ)
  | c :: cs => do
    let (r, τ) ← step F cmp τ c
    let (rs, τ) ← run F cmp τ cs
    pure (r :: rs, τ)

/-- A call does not read a node that has never been in a tree. -/
def Allowed (τ : Forest I J A M K) : ForestCall I J A K → Prop
  | .remove _ a => a ∈ τ.known
  | .next _ a => a ∈ τ.known
  | .prev _ a => a ∈ τ.known
  | _ => True

/-- All calls of a run are allowed. -/
def AllowedRun (F : Flavour A M K) (cmp : K → K → Int) (τ : Forest I J A M K) :
    List (ForestCall I J A K) → Prop
  | [] => True
  | c :: cs => τ.Allowed c ∧ ∀ r τ', step F cmp τ c = pure (r, τ') → AllowedRun F cmp τ' cs

end Forest

end Libjeffpc.Tree
