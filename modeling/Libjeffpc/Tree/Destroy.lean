import Libjeffpc.Tree.Forest

/-!
# Destruction of a tree whose nodes are freed on the way

`tree_destroy_nodes` again, with a memory in which nodes can be freed: an access to a node that has been
freed is a fault. `view m freed` is the memory `m` after the nodes of `freed` have been freed, for
either layout of a node. `destroyAll` is the loop of the callers: it frees every item it gets.
-/

namespace Libjeffpc.Tree

open Lib

variable {A M : Type} [DecidableEq A] [TreeMem A M]

/-- The nodes that have not been freed. -/
abbrev LiveMem (A : Type) := A → Option (TreeNode A)

def view (m : M) (freed : List A) : LiveMem A := fun a =>
  if a ∈ freed then none else some ⟨child m a, getParent m a, getExtra m a⟩

namespace Live

/-- Access to a node. -/
def node (m : LiveMem A) (a : A) : Comp (TreeNode A) :=
  match m a with
  | some n => pure n
  | none => throw .bounds

def free (m : LiveMem A) (a : A) : LiveMem A := fun b => if b = a then none else m b

def whichDir (m : LiveMem A) (parent : A) (tgt : Option A) : Comp TreeDir := do
  return if (← node m parent).children .left = tgt then .left else .right

def firstlast (m : LiveMem A) (cur : A) (dir : TreeDir) : Comp A :=
  loop (fun cur => do
    match (← node m cur).children dir with
    | some next => pure (.inl next)
    | none => pure (.inr cur)) cur

def destroyNodesSaveParent (t : TreeTree A (LiveMem A)) (n : A) : Comp (Cursor A) := do
  if t.root ≠ some n then
    let p ← deref (← node t.mem n).parent
    return .at p (← whichDir t.mem p (some n)).flip
  else return .done

def destroyNodesStep (t : TreeTree A (LiveMem A)) (n : A) : Comp (A × Cursor A) :=
  loop (fun n => do
    let tmp ← firstlast t.mem n .left
    match (← node t.mem tmp).children .right with
    | none => do
      let cursor ← destroyNodesSaveParent t tmp
      pure (.inr (tmp, cursor))
    | some r => pure (.inl r)) n

def destroyNodesSelf (t : TreeTree A (LiveMem A)) (n : A) : Comp (A × Cursor A) := do
  let cursor ← destroyNodesSaveParent t n
  pure (n, cursor)

/-- The right subtree, if it is to be processed next. -/
def rightNext (m : LiveMem A) (n : A) (dir : TreeDir) : Comp (Option A) := do
  if dir = .right then
    return (← node m n).children .right
  else return none

/-- `tree_destroy_nodes`, that is `rb_destroy_nodes` and `bst_destroy_nodes`. -/
def treeDestroyNodes (t : TreeTree A (LiveMem A)) (cursor : Cursor A) :
    Comp (Option A × Cursor A × TreeTree A (LiveMem A)) :=
  match t.root with
  | none => pure (none, cursor, t)
  | some root =>
    match cursor with
    | .done => pure (none, cursor, { t with root := none, numNodes := 0 })
    | .start => do
      let (n, cursor) ← destroyNodesStep t root
      pure (some n, cursor, t)
    | .at n dir => do
      let right ← rightNext t.mem n dir
      let (n, cursor) ← match right with
        | some r => destroyNodesStep t r
        | none => destroyNodesSelf t n
      pure (some n, cursor, t)

/-- One round of the loop of a caller; the items that it has got so far are freed. -/
def destroyRound (s : List A × Cursor A × TreeTree A (LiveMem A)) :
    Comp ((List A × Cursor A × TreeTree A (LiveMem A)) ⊕
      (List A × Cursor A × TreeTree A (LiveMem A))) := do
  match ← treeDestroyNodes s.2.2 s.2.1 with
  | (some a, cursor, t) => pure (.inl (s.1 ++ [a], cursor, { t with mem := free t.mem a }))
  | (none, cursor, t) => pure (.inr (s.1, cursor, t))

/-- `while ((item = destroy_nodes(tree, &cookie))) free(item);` with a zeroed cookie. -/
def destroyAll (t : TreeTree A (LiveMem A)) : Comp (List A × Cursor A × TreeTree A (LiveMem A)) :=
  loop destroyRound ([], .start, t)

end Live

/-- The tree `t` with the nodes of `freed` freed. -/
def TreeTree.live (t : TreeTree A M) (freed : List A) : TreeTree A (LiveMem A) :=
  ⟨t.root, t.numNodes, view t.mem freed⟩

end Libjeffpc.Tree
