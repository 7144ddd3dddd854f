import Libjeffpc.Lib.Order
import Libjeffpc.Tree.Proofs.FlavourProofs

/-!
# The ordered set that both flavours implement

`SetStep` says what a call does to a finite set of items ordered by `cmp` and what it returns, with
no tree in sight. `Flavour.step` makes the same call on a tree. The keys of the items are part of
the state, since the program may change the key of an object that is not in the set.
-/

namespace Libjeffpc.Tree

open Lib

/-- The calls of a program that uses one tree. -/
inductive Call (A K : Type) where
  | insert (a : A)
  /-- `insert_here` with the cookie of the failed find just before. -/
  | insertHere (a : A)
  | remove (a : A)
  | find (key : K)
  | first
  | last
  | numnodes
  | isEmpty
  /-- The program changes keys of objects that are not in the tree. -/
  | rekey (keyOf : A → K)

/-- What a call returns. -/
inductive Result (A : Type) where
  | item (r : Option A)
  | num (n : Nat)
  | flag (b : Bool)
  | void
  deriving DecidableEq

structure SetState (A K : Type) where
  items : Finset A
  keyOf : A → K
  /-- The key of the find just before, if it failed. -/
  missed : Option K

def SetState.empty {A K : Type} (keyOf : A → K) : SetState A K := ⟨∅, keyOf, none⟩

section Spec

variable {A K : Type} [DecidableEq A]

inductive SetStep (cmp : K → K → Int) (σ : SetState A K) :
    Call A K → Result A → SetState A K → Prop where
  | insertPresent {a b : A} (hb : b ∈ σ.items) (h : cmp (σ.keyOf a) (σ.keyOf b) = 0) :
      SetStep cmp σ (.insert a) (.item (some b)) { σ with missed := none }
  | insertNew {a : A} (h : ∀ b ∈ σ.items, cmp (σ.keyOf a) (σ.keyOf b) ≠ 0) :
      SetStep cmp σ (.insert a) (.item none) { σ with items := insert a σ.items, missed := none }
  | insertHere {a : A} :
      SetStep cmp σ (.insertHere a) (.item none)
        { σ with items := insert a σ.items, missed := none }
  | remove {a : A} :
      SetStep cmp σ (.remove a) .void { σ with items := σ.items.erase a, missed := none }
  | findHit {key : K} {b : A} (hb : b ∈ σ.items) (h : cmp key (σ.keyOf b) = 0) :
      SetStep cmp σ (.find key) (.item (some b)) { σ with missed := none }
  | findMiss {key : K} (h : ∀ b ∈ σ.items, cmp key (σ.keyOf b) ≠ 0) :
      SetStep cmp σ (.find key) (.item none) { σ with missed := some key }
  | firstItem {a : A} (ha : a ∈ σ.items) (h : ∀ b ∈ σ.items, cmp (σ.keyOf a) (σ.keyOf b) ≤ 0) :
      SetStep cmp σ .first (.item (some a)) { σ with missed := none }
  | firstNone (h : σ.items = ∅) : SetStep cmp σ .first (.item none) { σ with missed := none }
  | lastItem {a : A} (ha : a ∈ σ.items) (h : ∀ b ∈ σ.items, cmp (σ.keyOf b) (σ.keyOf a) ≤ 0) :
      SetStep cmp σ .last (.item (some a)) { σ with missed := none }
  | lastNone (h : σ.items = ∅) : SetStep cmp σ .last (.item none) { σ with missed := none }
  | numnodes : SetStep cmp σ .numnodes (.num σ.items.card) { σ with missed := none }
  | isEmpty : SetStep cmp σ .isEmpty (.flag (σ.items = ∅)) { σ with missed := none }
  | rekey {keyOf : A → K} : SetStep cmp σ (.rekey keyOf) .void { σ with keyOf, missed := none }

/-- What a program has to see to before it makes a call. -/
def Legal (cmp : K → K → Int) (σ : SetState A K) : Call A K → Prop
  | .insertHere a => ∃ key, σ.missed = some key ∧ cmp key (σ.keyOf a) = 0
  | .remove a => a ∈ σ.items
  | .rekey keyOf => ∀ a ∈ σ.items, keyOf a = σ.keyOf a
  | _ => True

inductive SetRun (cmp : K → K → Int) :
    SetState A K → List (Call A K) → List (Result A) → SetState A K → Prop where
  | nil (σ : SetState A K) : SetRun cmp σ [] [] σ
  | cons {σ σ' σ'' : SetState A K} {c : Call A K} {cs : List (Call A K)} {r : Result A}
      {rs : List (Result A)} (h : SetStep cmp σ c r σ') (hs : SetRun cmp σ' cs rs σ'') :
      SetRun cmp σ (c :: cs) (r :: rs) σ''

/-- Every call of the sequence is legal in the state it is made in. -/
def LegalRun (cmp : K → K → Int) : SetState A K → List (Call A K) → Prop
  | _, [] => True
  | σ, c :: cs => Legal cmp σ c ∧ ∀ r σ', SetStep cmp σ c r σ' → LegalRun cmp σ' cs

end Spec

section Trees

variable {A M K : Type} [DecidableEq A] [TreeMem A M]

structure TreeState (A M K : Type) where
  tree : TreeTree A M
  keyOf : A → K
  /-- The cookie of the find just before, if it failed. -/
  cookie : Option (TreeCookie A)

/-- One call on a tree of the flavour `F`; the calls that are not in `F` are shared by both. -/
def Flavour.step (F : Flavour A M K) (cmp : K → K → Int) (τ : TreeState A M K) :
    Call A K → Comp (Result A × TreeState A M K)
  | .insert a => do
    let (r, t) ← F.insertHere cmp τ.keyOf τ.tree a none
    pure (.item r, { τ with tree := t, cookie := none })
  | .insertHere a => do
    let (r, t) ← F.insertHere cmp τ.keyOf τ.tree a τ.cookie
    pure (.item r, { τ with tree := t, cookie := none })
  | .remove a => do
    let t ← F.remove τ.tree a
    pure (.void, { τ with tree := t, cookie := none })
  | .find key => do
    let (r, cookie) ← treeFind cmp τ.keyOf τ.tree key (some ⟨none, .left⟩)
    pure (.item r, { τ with cookie := if r.isNone then cookie else none })
  | .first => do
    let r ← treeFirst τ.tree
    pure (.item r, { τ with cookie := none })
  | .last => do
    let r ← treeLast τ.tree
    pure (.item r, { τ with cookie := none })
  | .numnodes => pure (.num (treeNumnodes τ.tree), { τ with cookie := none })
  | .isEmpty => pure (.flag (treeIsEmpty τ.tree), { τ with cookie := none })
  | .rekey keyOf => pure (.void, { τ with keyOf, cookie := none })

def Flavour.run (F : Flavour A M K) (cmp : K → K → Int) (τ : TreeState A M K) :
    List (Call A K) → Comp (List (Result A) × TreeState A M K)
  | [] => pure ([], τ)
  | c :: cs => do
    let (r, τ) ← F.step cmp τ c
    let (rs, τ) ← F.run cmp τ cs
    pure (r :: rs, τ)

end Trees

end Libjeffpc.Tree
