import Libjeffpc.Tree.Tree

/-!
# The two tree flavours (`rbtree.c`, `bst.c`)

`rb_insert_here` and `rb_remove` are the generic operations followed by a repair loop; each loop is
`loop` of its body, with the local variables that survive a round as the state.
-/

set_option linter.constructorNameAsVariable false

namespace Libjeffpc.Tree

open Lib

variable {A M K : Type} [DecidableEq A] [TreeMem A M]

def setRed (m : M) (node : Option A) (red : Bool) : M :=
  match node with
  | some n => setExtra m n (if red then 1 else 0)
  | none => m

/-- `is_red`; NULLs are black by definition. -/
def isRed (m : M) (node : Option A) : Bool :=
  match node with
  | some n => decide (getExtra m n ≠ 0)
  | none => false

def rbCreate (m : M) : TreeTree A M := { root := none, numNodes := 0, mem := m }

def rbRotate (t : TreeTree A M) (node : A) (left : TreeDir) : Comp (TreeTree A M) := do
  let right := left.flip
  assert (child t.mem node right).isSome
  let tmp ← deref (child t.mem node right)
  let m := setChild t.mem node right (child t.mem tmp left)
  let m := setParentIf m (child m tmp left) (some node)
  let m := setParent m tmp (getParent m node)
  let (r, m) := setPlace t.root m
    ((getParent m node).map fun p => (p, whichDir m p (some node))) (some tmp)
  let m := setChild m tmp left (some node)
  let m := setParent m node (some tmp)
  pure { t with root := r, mem := m }

/-- The first rotation of `rb_insert_here`, which sets up the tree for the second one: the tree and
the new `node`, `parent` and `gparent`. -/
def rbInsertZigZag (t : TreeTree A M) (n p g : A) :
    Comp (TreeTree A M × A × Option A × Option A) :=
  if whichDir t.mem p (some n) ≠ whichDir t.mem g (some p) then do
    let t ← rbRotate t p (whichDir t.mem p (some n)).flip
    let parent := getParent t.mem p
    pure (t, p, parent, parent.bind (getParent t.mem))
  else pure (t, n, some p, some g)

/-- The second rotation of `rb_insert_here`. -/
def rbInsertZigZig (t : TreeTree A M) (n p g : A) : Comp (TreeTree A M) :=
  if whichDir t.mem p (some n) = whichDir t.mem g (some p) then
    rbRotate t g (whichDir t.mem p (some n)).flip
  else pure t

/-- The block of `rb_insert_here`'s loop for a black uncle: the tree and `node`. -/
def rbInsertRotate (t : TreeTree A M) (n : A) (parent gparent : Option A) :
    Comp (TreeTree A M × A) := do
  let p ← deref parent
  let g ← deref gparent
  let (t, n, parent, gparent) ← rbInsertZigZag t n p g
  let p ← deref parent
  let g ← deref gparent
  let t ← rbInsertZigZig t n p g
  let m := setRed t.mem (some p) false
  let m := setRed m (some g) true
  pure ({ t with mem := m }, n)

/-- One round of the repair loop of `rb_insert_here`; the state is the tree and `node`. -/
def rbInsertStep (s : TreeTree A M × Option A) :
    Comp ((TreeTree A M × Option A) ⊕ TreeTree A M) := do
  let (t, node) := s
  match node with
  | none => pure (.inr t)
  | some n =>
    if isRed t.mem (some n) then
      let parent := getParent t.mem n
      let gparent := parent.bind (getParent t.mem)
      let uncle := gparent.bind fun g => child t.mem g (whichDir t.mem g parent).flip
      if isRed t.mem parent = false then pure (.inr t)
      else if isRed t.mem uncle then
        let m := setRed t.mem parent false
        let m := setRed m uncle false
        let m := setRed m gparent true
        pure (.inl ({ t with mem := m }, gparent))
      else
        let (t, n) ← rbInsertRotate t n parent gparent
        pure (.inl (t, some n))
    else pure (.inr t)

/-- `rb_insert_here`; `rb_insert` is the call with no cookie. -/
def rbInsertHere (cmp : K → K → Int) (keyOf : A → K) (t : TreeTree A M) (newitem : A)
    (cookie : Option (TreeCookie A)) : Comp (Option A × TreeTree A M) := do
  match ← treeInsertHere cmp keyOf t newitem cookie with
  | (some tmp, t) => pure (some tmp, t)
  | (none, t) =>
    let t ← loop rbInsertStep ({ t with mem := setRed t.mem (some newitem) true }, some newitem)
    pure (none, { t with mem := setRed t.mem t.root false })

def rbAdd (cmp : K → K → Int) (keyOf : A → K) (t : TreeTree A M) (item : A) :
    Comp (TreeTree A M) := do
  match ← rbInsertHere cmp keyOf t item none with
  | (some _, _) => throw .assert
  | (none, t) => pure t

/-- The first block of `rb_remove`'s loop makes the sibling black: the tree and `sibling`. -/
def rbRemoveRedSibling (t : TreeTree A M) (p : A) (left : TreeDir) :
    Comp (TreeTree A M × Option A) :=
  let sibling := child t.mem p left.flip
  if isRed t.mem sibling then do
    let m := setRed t.mem sibling false
    let m := setRed m (some p) true
    let t ← rbRotate { t with mem := m } p left
    pure (t, child t.mem p left.flip)
  else pure (t, sibling)

/-- The block of `rb_remove`'s loop that makes the far child of the sibling `s` red. -/
def rbRemoveNearRed (t : TreeTree A M) (p s : A) (left : TreeDir) :
    Comp (TreeTree A M × Option A) :=
  if isRed t.mem (child t.mem s left.flip) = false then do
    let m := setRed t.mem (child t.mem s left) false
    let m := setRed m (some s) true
    let t ← rbRotate { t with mem := m } s left.flip
    pure (t, child t.mem p left.flip)
  else pure (t, some s)

/-- The last block of `rb_remove`'s loop, where the sibling has a red far child. -/
def rbRemoveFarRed (t : TreeTree A M) (p : A) (sibling : Option A) (left : TreeDir) :
    Comp (TreeTree A M) := do
  let m := setRed t.mem sibling (isRed t.mem (some p))
  let m := setRed m (some p) false
  let s ← deref sibling
  let m := setRed m (child m s left.flip) false
  rbRotate { t with mem := m } p left

/-- The second half of a round: the tree and the new `node`. -/
def rbRemoveBlackSibling (t : TreeTree A M) (p s : A) (left : TreeDir) :
    Comp (TreeTree A M × Option A) :=
  if isRed t.mem (child t.mem s left) = false ∧ isRed t.mem (child t.mem s left.flip) = false then
    pure ({ t with mem := setRed t.mem (some s) true }, some p)
  else do
    let (t, sibling) ← rbRemoveNearRed t p s left
    let t ← rbRemoveFarRed t p sibling left
    pure (t, t.root)

/-- One round of the repair loop of `rb_remove`; the state is the tree, `node` and `parent`. -/
def rbRemoveStep (s : TreeTree A M × Option A × Option A) :
    Comp ((TreeTree A M × Option A × Option A) ⊕ (TreeTree A M × Option A)) := do
  let (t, node, parent) := s
  if node ≠ t.root ∧ isRed t.mem node = false then
    let p ← deref parent
    let left := whichDir t.mem p node
    let (t, sibling) ← rbRemoveRedSibling t p left
    let s ← deref sibling
    let (t, node) ← rbRemoveBlackSibling t p s left
    let n ← deref node
    pure (.inl (t, node, getParent t.mem n))
  else pure (.inr (t, node))

def rbRemove (t : TreeTree A M) (item : A) : Comp (TreeTree A M) := do
  let (t, parent, child') ← treeRemove t item
  if t.root = none then pure t
  else if isRed t.mem (some item) then pure t
  else
    let (t, node) ← loop rbRemoveStep (t, child', parent)
    pure { t with mem := setRed t.mem node false }

def rbFind (cmp : K → K → Int) (keyOf : A → K) (t : TreeTree A M) (key : K)
    (cookie : Option (TreeCookie A)) : Comp (Option A × Option (TreeCookie A)) :=
  treeFind cmp keyOf t key cookie

def bstCreate (m : M) : TreeTree A M := { root := none, numNodes := 0, mem := m }

/-- `bst_insert_here`; `bst_insert` is the call with no cookie. -/
def bstInsertHere (cmp : K → K → Int) (keyOf : A → K) (t : TreeTree A M) (newitem : A)
    (cookie : Option (TreeCookie A)) : Comp (Option A × TreeTree A M) :=
  treeInsertHere cmp keyOf t newitem cookie

def bstRemove (t : TreeTree A M) (item : A) : Comp (TreeTree A M) := do
  let (t, _) ← treeRemove t item
  pure t

end Libjeffpc.Tree
