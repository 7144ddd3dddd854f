import Libjeffpc.Lib.Comp
import Libjeffpc.Lib.BinTree

/-!
# The generic tree code (`tree.c`, `tree_impl.h`)

Tree nodes live in a memory `M` and are named by their addresses in `A`; a pointer is an `Option A`.
The code touches a node only through its children, `get_parent`/`set_parent` and
`get_extra`/`set_extra`, so the memory is given by those six operations (`TreeMem`), and either
layout of `struct tree_node` is an instance. `obj2node` and `node2obj` only add and subtract the
constant `node_off`: an item is named by the address of its node.
-/

set_option linter.constructorNameAsVariable false

namespace Libjeffpc.Tree

open Lib

/-- `enum tree_dir`. -/
abbrev TreeDir := Dir

/-- The accesses to a `struct tree_node`; the extra field has two bits. -/
class TreeMem (A : outParam Type) (M : Type) where
  child : M → A → TreeDir → Option A
  setChild : M → A → TreeDir → Option A → M
  getParent : M → A → Option A
  setParent : M → A → Option A → M
  getExtra : M → A → Fin 4
  setExtra : M → A → Fin 4 → M

export TreeMem (child setChild getParent setParent getExtra setExtra)

/-- Every access reads what was last written to that field of that node. -/
class LawfulTreeMem (A : outParam Type) (M : Type) [TreeMem A M] : Prop where
  child_setChild_self (m : M) (a : A) (d : TreeDir) (p : Option A) :
    child (setChild m a d p) a d = p
  child_setChild_ne (m : M) (a b : A) (d e : TreeDir) (p : Option A) (h : ¬(b = a ∧ e = d)) :
    child (setChild m a d p) b e = child m b e
  child_setParent (m : M) (a b : A) (e : TreeDir) (p : Option A) :
    child (setParent m a p) b e = child m b e
  child_setExtra (m : M) (a b : A) (e : TreeDir) (x : Fin 4) :
    child (setExtra m a x) b e = child m b e
  getParent_setChild (m : M) (a b : A) (d : TreeDir) (p : Option A) :
    getParent (setChild m a d p) b = getParent m b
  getParent_setParent_self (m : M) (a : A) (p : Option A) : getParent (setParent m a p) a = p
  getParent_setParent_ne (m : M) (a b : A) (p : Option A) (h : b ≠ a) :
    getParent (setParent m a p) b = getParent m b
  getParent_setExtra (m : M) (a b : A) (x : Fin 4) :
    getParent (setExtra m a x) b = getParent m b
  getExtra_setChild (m : M) (a b : A) (d : TreeDir) (p : Option A) :
    getExtra (setChild m a d p) b = getExtra m b
  getExtra_setParent (m : M) (a b : A) (p : Option A) :
    getExtra (setParent m a p) b = getExtra m b
  getExtra_setExtra_self (m : M) (a : A) (x : Fin 4) : getExtra (setExtra m a x) a = x
  getExtra_setExtra_ne (m : M) (a b : A) (x : Fin 4) (h : b ≠ a) :
    getExtra (setExtra m a x) b = getExtra m b

attribute [simp] LawfulTreeMem.child_setChild_self LawfulTreeMem.child_setParent
  LawfulTreeMem.child_setExtra LawfulTreeMem.getParent_setChild
  LawfulTreeMem.getParent_setParent_self LawfulTreeMem.getParent_setExtra
  LawfulTreeMem.getExtra_setChild LawfulTreeMem.getExtra_setParent
  LawfulTreeMem.getExtra_setExtra_self

/-- `struct tree_node` without `JEFFPC_TREE_COMPACT`. -/
structure TreeNode (A : Type) where
  children : TreeDir → Option A
  parent : Option A
  extra : Fin 4

/-- The memory of nodes without `JEFFPC_TREE_COMPACT`. -/
abbrev PlainMem (A : Type) := A → TreeNode A

/-- `struct tree_tree`; `cmp` is an argument of the functions that call it. -/
structure TreeTree (A M : Type) where
  root : Option A
  numNodes : Nat
  mem : M

/-- `struct tree_cookie`. -/
structure TreeCookie (A : Type) where
  node : Option A
  dir : TreeDir
  deriving DecidableEq

section Model

variable {A M K : Type} [DecidableEq A] [TreeMem A M]

def whichDir (m : M) (parent : A) (tgt : Option A) : TreeDir :=
  if child m parent .left = tgt then .left else .right

def firstlast (m : M) (cur : A) (dir : TreeDir) : Comp A :=
  loop (fun cur => match child m cur dir with
    | some next => pure (.inl next)
    | none => pure (.inr cur)) cur

def firstlastObj (t : TreeTree A M) (dir : TreeDir) : Comp (Option A) :=
  match t.root with
  | none => pure none
  | some r => some <$> firstlast t.mem r dir

/-- The `while (get_parent(node))` loop of `tree_next_dir`. -/
def treeNextUp (m : M) (left right : TreeDir) (node : A) : Comp (Option A) :=
  loop (fun node => match getParent m node with
    | none => pure (.inr none)
    | some p =>
      if whichDir m p (some node) = left then pure (.inr (some p))
      else if whichDir m p (some node) = right then pure (.inl p)
      else pure (.inl node)) node

def treeNextDir (t : TreeTree A M) (item : A) (fwd : Bool) : Comp (Option A) :=
  let right : TreeDir := if fwd then .right else .left
  let left := right.flip
  match child t.mem item right with
  | some r => some <$> firstlast t.mem r left
  | none => treeNextUp t.mem left right item

def treeFirst (t : TreeTree A M) : Comp (Option A) := firstlastObj t .left

def treeLast (t : TreeTree A M) : Comp (Option A) := firstlastObj t .right

def treeNext (t : TreeTree A M) (item : A) : Comp (Option A) := treeNextDir t item true

def treePrev (t : TreeTree A M) (item : A) : Comp (Option A) := treeNextDir t item false

def treeIsEmpty (t : TreeTree A M) : Bool := t.numNodes == 0

def treeNumnodes (t : TreeTree A M) : Nat := t.numNodes

/-- The descent of `tree_find` from `cur`, with the last position in `where`. -/
def treeFindLoop (cmp : K → K → Int) (keyOf : A → K) (m : M) (key : K)
    (cur : Option A) (pos : TreeCookie A) : Comp (Option A × TreeCookie A) :=
  loop (fun (s : Option A × TreeCookie A) => match s.1 with
    | none => pure (.inr (none, s.2))
    | some c =>
      let r := cmp key (keyOf c)
      if r = 0 then pure (.inr (some c, s.2))
      else
        let dir : TreeDir := if r < 0 then .left else .right
        pure (.inl (child m c dir, ⟨some c, dir⟩))) (cur, pos)

/-- `tree_find`: the item found, and the cookie, which is written only when nothing is found. -/
def treeFind (cmp : K → K → Int) (keyOf : A → K) (t : TreeTree A M) (key : K)
    (cookie : Option (TreeCookie A)) : Comp (Option A × Option (TreeCookie A)) := do
  match ← treeFindLoop cmp keyOf t.mem key t.root ⟨none, .left⟩ with
  | (some c, _) => pure (some c, cookie)
  | (none, pos) => pure (none, cookie.map fun _ => pos)

/-- The part of `tree_insert_here` after the position is known. -/
def treeInsertAt (t : TreeTree A M) (newitem : A) (cookie : TreeCookie A) : TreeTree A M :=
  let m := setChild t.mem newitem .left none
  let m := setChild m newitem .right none
  let m := setParent m newitem cookie.node
  match cookie.node with
  | some p => { root := t.root, numNodes := t.numNodes + 1, mem := setChild m p cookie.dir (some newitem) }
  | none => { root := some newitem, numNodes := t.numNodes + 1, mem := m }

def treeInsertHere (cmp : K → K → Int) (keyOf : A → K) (t : TreeTree A M) (newitem : A)
    (cookie : Option (TreeCookie A)) : Comp (Option A × TreeTree A M) := do
  match cookie with
  | some cookie => pure (none, treeInsertAt t newitem cookie)
  | none =>
    match ← treeFind cmp keyOf t (keyOf newitem) (some ⟨none, .left⟩) with
    | (some tmp, _) => pure (some tmp, t)
    | (none, localCookie) =>
      let cookie ← deref localCookie
      pure (none, treeInsertAt t newitem cookie)

/-- `if (node) set_parent(node, parent)`. -/
def setParentIf (m : M) (node parent : Option A) : M :=
  match node with
  | some n => setParent m n parent
  | none => m

/-- Write the pointer to the node at a place: `tree->root` or a child of a node. -/
def setPlace (root : Option A) (m : M) (place : Option (A × TreeDir)) (y : Option A) :
    Option A × M :=
  match place with
  | some (p, d) => (root, setChild m p d y)
  | none => (y, m)

/-- The place of `x` that `__swap_nodes` computes: `dir_to_orig_x` is only set below a parent. -/
def swapPlace (t : TreeTree A M) (x : A) : Comp (Option (A × TreeDir)) :=
  if t.root = some x then pure none else do
    let p ← deref (getParent t.mem x)
    pure (some (p, whichDir t.mem p (some x)))

/-- `__swap_nodes`. -/
def swapNodes (t : TreeTree A M) (x y : A) (left : TreeDir) : Comp (TreeTree A M) := do
  let right := left.flip
  let m := t.mem
  assert (x ≠ y)
  assert (child m y left = none)
  let place ← swapPlace t x
  let a := getParent m x
  let b := child m x left
  let e := child m y right
  let t ← if child m x right = some y then do
      let m := setParent m x (some y)
      let m := setParent m y a
      let b' ← deref b
      let m := setParent m b' (some y)
      let m := setParentIf m e (some x)
      let m := setChild m x left none
      let m := setChild m x right e
      let m := setChild m y left b
      let m := setChild m y right (some x)
      let (r, m) := setPlace t.root m place (some y)
      pure { t with root := r, mem := m }
    else do
      let c := child m x right
      let d := getParent m y
      let m := setParent m x d
      let m := setParent m y a
      let b' ← deref b
      let m := setParent m b' (some y)
      let c' ← deref c
      let m := setParent m c' (some y)
      let m := setParentIf m e (some x)
      let m := setChild m x left none
      let m := setChild m x right e
      let m := setChild m y left b
      let m := setChild m y right c
      let (r, m) := setPlace t.root m place (some y)
      let d' ← deref d
      let m := setChild m d' left (some x)
      pure { t with root := r, mem := m }
  let tmp := getExtra t.mem x
  let m := setExtra t.mem x (getExtra t.mem y)
  let m := setExtra m y tmp
  pure { t with mem := m }

/-- `__promote_node_child`. -/
def promoteNodeChild (t : TreeTree A M) (parent : Option A) (node : A) (child' : Option A) :
    TreeTree A M :=
  let place := parent.map fun p => (p, whichDir t.mem p (some node))
  let (r, m) := setPlace t.root t.mem place child'
  let m := setParentIf m child' parent
  { t with root := r, mem := m }

/-- The first block of `tree_remove`: a node with two children is exchanged with its successor. -/
def treeRemoveSwap (t : TreeTree A M) (item : A) : Comp (TreeTree A M) :=
  match child t.mem item .left, child t.mem item .right with
  | some _, some r => do
    let y ← firstlast t.mem r .left
    swapNodes t item y .left
  | _, _ => pure t

/-- `tree_remove`; the pair is what it returns through `parent_r` and `child_r`. -/
def treeRemove (t : TreeTree A M) (item : A) : Comp (TreeTree A M × Option A × Option A) := do
  let t ← treeRemoveSwap t item
  assert (child t.mem item .left = none ∨ child t.mem item .right = none)
  let parent := getParent t.mem item
  let child' := if (child t.mem item .left).isSome then child t.mem item .left
    else child t.mem item .right
  let t := promoteNodeChild t parent item child'
  let m := setParent t.mem item none
  let m := setChild m item .left none
  let m := setChild m item .right none
  pure ({ t with mem := m, numNodes := t.numNodes - 1 }, parent, child')

end Model

section Plain

variable {A : Type} [DecidableEq A]

instance : TreeMem A (PlainMem A) where
  child m a d := (m a).children d
  setChild m a d p := fun b =>
    if b = a then { m a with children := fun e => if e = d then p else (m a).children e } else m b
  getParent m a := (m a).parent
  setParent m a p := fun b => if b = a then { m a with parent := p } else m b
  getExtra m a := (m a).extra
  setExtra m a x := fun b => if b = a then { m a with extra := x } else m b

instance : LawfulTreeMem A (PlainMem A) where
  child_setChild_self m a d p := by simp [child, setChild]
  child_setChild_ne m a b d e p h := by
    by_cases hb : b = a
    · subst hb; simp [child, setChild, show e ≠ d from fun he => h ⟨rfl, he⟩]
    · simp [child, setChild, hb]
  child_setParent m a b e p := by by_cases hb : b = a <;> simp [child, setParent, hb]
  child_setExtra m a b e x := by by_cases hb : b = a <;> simp [child, setExtra, hb]
  getParent_setChild m a b d p := by by_cases hb : b = a <;> simp [getParent, setChild, hb]
  getParent_setParent_self m a p := by simp [getParent, setParent]
  getParent_setParent_ne m a b p h := by simp [getParent, setParent, h]
  getParent_setExtra m a b x := by by_cases hb : b = a <;> simp [getParent, setExtra, hb]
  getExtra_setChild m a b d p := by by_cases hb : b = a <;> simp [getExtra, setChild, hb]
  getExtra_setParent m a b p := by by_cases hb : b = a <;> simp [getExtra, setParent, hb]
  getExtra_setExtra_self m a x := by simp [getExtra, setExtra]
  getExtra_setExtra_ne m a b x h := by simp [getExtra, setExtra, h]

end Plain

end Libjeffpc.Tree
