import Libjeffpc.Tree.Forest

/-!
# Trees that a program can get, and walks through them

`Flavour.Reachable` are the trees of one flavour that a program can have: it creates a tree, inserts and
removes items, and does what it likes with objects that are not in the tree. `treeWalk` is the loop
of `rb_for_each` and `bst_for_each`, in either direction, with the items that it visits.
-/

namespace Libjeffpc.Tree

open Lib

variable {A M K : Type} [DecidableEq A] [TreeMem A M]

inductive Flavour.Reachable (F : Flavour A M K) (cmp : K → K → Int) :
    (A → K) → TreeTree A M → Prop where
  /-- `rb_create` and `bst_create` do the same. -/
  | create (keyOf : A → K) (m : M) : Flavour.Reachable F cmp keyOf (rbCreate m)
  /-- The program writes to objects outside of the tree. -/
  | outside {keyOf keyOf' : A → K} {t t' : TreeTree A M} (h : Flavour.Reachable F cmp keyOf t)
      (hroot : t'.root = t.root) (hnum : t'.numNodes = t.numNodes)
      (hnode : ∀ a, Member t a → (∀ d, child t'.mem a d = child t.mem a d) ∧
        getParent t'.mem a = getParent t.mem a ∧ getExtra t'.mem a = getExtra t.mem a)
      (hkey : ∀ a, Member t a → keyOf' a = keyOf a) : Flavour.Reachable F cmp keyOf' t'
  | insert {keyOf : A → K} {t t' : TreeTree A M} {a : A} {r : Option A}
      (h : Flavour.Reachable F cmp keyOf t)
      (hrun : F.insertHere cmp keyOf t a none = pure (r, t')) : Flavour.Reachable F cmp keyOf t'
  /-- With the cookie of a failed find for the key of the item. -/
  | insertHere {keyOf : A → K} {t t' : TreeTree A M} {a : A} {r : Option A} {key : K}
      {cookie₀ cookie : TreeCookie A} (h : Flavour.Reachable F cmp keyOf t)
      (hfind : treeFind cmp keyOf t key (some cookie₀) = pure (none, some cookie))
      (hkey : cmp key (keyOf a) = 0)
      (hrun : F.insertHere cmp keyOf t a (some cookie) = pure (r, t')) :
      Flavour.Reachable F cmp keyOf t'
  | remove {keyOf : A → K} {t t' : TreeTree A M} {a : A} (h : Flavour.Reachable F cmp keyOf t)
      (ha : Member t a) (hrun : F.remove t a = pure t') : Flavour.Reachable F cmp keyOf t'

/-- The items from `cur` on, by repeated steps until there is none. -/
def treeWalkFrom (next : A → Comp (Option A)) (cur : Option A) : Comp (List A) :=
  loop (fun (s : Option A × List A) => match s.1 with
    | none => pure (.inr s.2)
    | some a => do
      let b ← next a
      pure (.inl (b, s.2 ++ [a]))) (cur, [])

def treeWalk (t : TreeTree A M) (fwd : Bool) : Comp (List A) := do
  let cur ← if fwd then treeFirst t else treeLast t
  treeWalkFrom (if fwd then treeNext t else treePrev t) cur

/-- The neighbour of `key` among the items for which `side` holds: the nearest one, or none. -/
def IsNearest (t : TreeTree A M) (side : A → Prop) (nearer : A → A → Prop) : Option A → Prop
  | none => ∀ a, Member t a → ¬side a
  | some a => Member t a ∧ side a ∧ ∀ b, Member t b → side b → nearer a b

end Libjeffpc.Tree
