import Libjeffpc.Tree.Compact
import Libjeffpc.Tree.Proofs.InvariantProofs
import Libjeffpc.Tree.Proofs.SimProofs

/-!
# The two layouts of tree nodes do the same

A program is run over two memories of nodes. What each call returns and how the trees look afterwards
does not depend on the layout, nor on what was in the memory of a node before it came into a tree.
-/

set_option linter.unusedSectionVars false

namespace Libjeffpc.Tree

open Lib

variable {I J A M₁ M₂ K : Type} [DecidableEq I] [DecidableEq J] [DecidableEq A] [TreeMem A M₁]
  [TreeMem A M₂] [LawfulTreeMem A M₁] [LawfulTreeMem A M₂]

/-- A flavour does the same over two memories; the extra fields agree on `ext S`. -/
structure FlavourSim (F₁ : Flavour A M₁ K) (F₂ : Flavour A M₂ K) (ext : Set A → Set A) : Prop where
  insertHere : ∀ (S : Set A) (t₁ : TreeTree A M₁) (t₂ : TreeTree A M₂) (a : A) cookie cmp keyOf,
    TreeSim S (ext S) t₁ t₂ → (∀ c, cookie = some c → PtrIn S c.node) →
    Follows (InsertSim S (ext S) a (ext (insert a S))) (F₁.insertHere cmp keyOf t₁ a cookie)
      (F₂.insertHere cmp keyOf t₂ a cookie)
  remove : ∀ (S : Set A) (t₁ : TreeTree A M₁) (t₂ : TreeTree A M₂) (a : A),
    TreeSim S (ext S) t₁ t₂ → a ∈ S → Follows (TreeSim S (ext S)) (F₁.remove t₁ a) (F₂.remove t₂ a)

theorem rb_flavourSim : FlavourSim (rb A M₁ K) (rb A M₂ K) id where
  insertHere _ _ _ _ _ cmp keyOf h hc := h.rbInsertHere (Set.Subset.refl _) cmp keyOf hc
  remove _ _ _ _ h ha := h.rbRemove (Set.Subset.refl _) ha

/-- `bst_*` trees do not use the extra fields: they agree everywhere if they agree at the start. -/
theorem bst_flavourSim {E : Set A} (hE : E = ∅ ∨ E = Set.univ) :
    FlavourSim (bst A M₁ K) (bst A M₂ K) fun _ => E where
  insertHere _ _ _ _ _ cmp keyOf h hc := h.treeInsertHere cmp keyOf hc
  remove S t₁ t₂ a h ha := by
    have hES : E = ∅ ∨ S ⊆ E := by
      rcases hE with rfl | rfl
      · exact Or.inl rfl
      · exact Or.inr (Set.subset_univ S)
    refine (h.treeRemove hES ha).bind ?_
    rintro ⟨t₁, _⟩ ⟨t₂, _⟩ ⟨h, -⟩
    exact Follows.pure h

/-- The nodes that have been in a tree. -/
def Forest.nodes {M : Type} (τ : Forest I J A M K) : Set A := { a | a ∈ τ.known }

structure ForestSim (ext : Set A → Set A) (τ₁ : Forest I J A M₁ K) (τ₂ : Forest I J A M₂ K) :
    Prop where
  trees : τ₁.trees = τ₂.trees
  roots : ∀ i, PtrIn τ₁.nodes (τ₁.trees i).1
  mem : MemSim τ₁.nodes (ext τ₁.nodes) τ₁.mem τ₂.mem
  keyOf : τ₁.keyOf = τ₂.keyOf
  cookies : τ₁.cookies = τ₂.cookies
  cookiesIn : ∀ j, PtrIn τ₁.nodes (τ₁.cookies j).node
  cursors : τ₁.cursors = τ₂.cursors
  cursorsIn : ∀ j n d, τ₁.cursors j = .at n d → n ∈ τ₁.nodes
  known : τ₁.known = τ₂.known

variable {ext : Set A → Set A} {τ₁ : Forest I J A M₁ K} {τ₂ : Forest I J A M₂ K}

theorem ForestSim.nodes (h : ForestSim ext τ₁ τ₂) : τ₁.nodes = τ₂.nodes := by
  rw [Forest.nodes, Forest.nodes, h.known]

theorem ForestSim.symm (h : ForestSim ext τ₁ τ₂) : ForestSim ext τ₂ τ₁ where
  trees := h.trees.symm
  roots i := h.nodes ▸ h.trees ▸ h.roots i
  mem := h.nodes ▸ h.mem.symm
  keyOf := h.keyOf.symm
  cookies := h.cookies.symm
  cookiesIn j := h.nodes ▸ h.cookies ▸ h.cookiesIn j
  cursors := h.cursors.symm
  cursorsIn j n d hn := h.nodes ▸ h.cursorsIn j n d (h.cursors ▸ hn)
  known := h.known.symm

theorem ForestSim.tree (h : ForestSim ext τ₁ τ₂) (i : I) :
    TreeSim τ₁.nodes (ext τ₁.nodes) (τ₁.tree i) (τ₂.tree i) where
  root := congrArg Prod.fst (congrFun h.trees i)
  rootIn := h.roots i
  numNodes := congrArg Prod.snd (congrFun h.trees i)
  mem := h.mem

/-- One tree has changed. -/
theorem ForestSim.put (h : ForestSim ext τ₁ τ₂) (i : I) {t₁ : TreeTree A M₁} {t₂ : TreeTree A M₂}
    (ht : TreeSim τ₁.nodes (ext τ₁.nodes) t₁ t₂) : ForestSim ext (τ₁.put i t₁) (τ₂.put i t₂) where
  trees := by
    show Function.update _ _ _ = Function.update _ _ _
    rw [h.trees, ht.root, ht.numNodes]
  roots := (Function.forall_update_iff τ₁.trees fun _ t => PtrIn τ₁.nodes t.1).mpr
    ⟨ht.rootIn, fun k _ => h.roots k⟩
  mem := ht.mem
  keyOf := h.keyOf
  cookies := h.cookies
  cookiesIn := h.cookiesIn
  cursors := h.cursors
  cursorsIn := h.cursorsIn
  known := h.known

/-- One tree has a new item, or the same items as before. -/
theorem ForestSim.inserted (h : ForestSim ext τ₁ τ₂) (i : I) (a : A)
    {x : Option A × TreeTree A M₁} {y : Option A × TreeTree A M₂}
    (hxy : InsertSim τ₁.nodes (ext τ₁.nodes) a (ext (insert a τ₁.nodes)) x y) :
    ForestSim ext (τ₁.inserted i a x.1 x.2) (τ₂.inserted i a y.1 y.2) := by
  obtain ⟨r, t₁⟩ := x
  obtain ⟨r', t₂⟩ := y
  obtain ⟨rfl, ⟨hr, ht⟩ | ⟨hr, ht⟩⟩ := hxy
  · have hput := h.put i ht
    obtain ⟨b, rfl⟩ := Option.isSome_iff_exists.mp hr
    exact ⟨hput.trees, hput.roots, hput.mem, hput.keyOf, hput.cookies, hput.cookiesIn, hput.cursors,
      hput.cursorsIn, hput.known⟩
  · obtain rfl : r = none := hr
    have hnodes : (τ₁.inserted i a none t₁).nodes = insert a τ₁.nodes := by
      ext b
      simp [Forest.nodes, Forest.inserted]
    have hsub : τ₁.nodes ⊆ insert a τ₁.nodes := Set.subset_insert a τ₁.nodes
    refine ⟨?_, ?_, ?_, h.keyOf, h.cookies, fun j => ?_, h.cursors, fun j n d hn => ?_,
      congrArg (a :: ·) h.known⟩
    · show Function.update _ _ _ = Function.update _ _ _
      rw [h.trees, ht.root, ht.numNodes]
    · rw [hnodes]
      exact (Function.forall_update_iff τ₁.trees fun _ t => PtrIn (insert a τ₁.nodes) t.1).mpr
        ⟨ht.rootIn, fun k _ => (h.roots k).mono hsub⟩
    · rw [hnodes]
      exact ht.mem
    · rw [hnodes]
      exact (h.cookiesIn j).mono hsub
    · rw [hnodes]
      exact hsub (h.cursorsIn j n d hn)

/-- What a call returns, and the trees after it. -/
def CallSim (ext : Set A → Set A) (x : Result A × Forest I J A M₁ K)
    (y : Result A × Forest I J A M₂ K) : Prop := x.1 = y.1 ∧ ForestSim ext x.2 y.2

theorem ForestSim.step {F₁ : Flavour A M₁ K} {F₂ : Flavour A M₂ K} (hF : FlavourSim F₁ F₂ ext)
    (h : ForestSim ext τ₁ τ₂) (cmp : K → K → Int) {c : ForestCall I J A K} (hc : τ₁.Allowed c) :
    Follows (CallSim ext) (τ₁.step F₁ cmp c) (τ₂.step F₂ cmp c) := by
  -- a call that only reads
  have hread : ∀ {c₁ c₂ : Comp (Option A)}, Follows (fun p q => p = q) c₁ c₂ →
      Follows (CallSim ext) (c₁ >>= fun r => pure (Result.item r, τ₁))
        (c₂ >>= fun r => pure (Result.item r, τ₂)) := by
    intro c₁ c₂ hcs
    refine hcs.bind ?_
    rintro r _ rfl
    exact Follows.pure ⟨rfl, h⟩
  have hnone : ∀ cookie : TreeCookie A, (none : Option (TreeCookie A)) = some cookie →
      PtrIn τ₁.nodes cookie.node := by
    rintro cookie hcookie
    cases hcookie
  cases c with
  | destroy i => exact Follows.pure ⟨rfl, h.put i ⟨rfl, ptrIn_none _, rfl, h.mem⟩⟩
  | add i a =>
    rw [Forest.step, Forest.step, ← h.keyOf]
    refine (hF.insertHere _ _ _ a none cmp τ₁.keyOf (h.tree i) hnone).bind ?_
    rintro ⟨r, t₁⟩ ⟨r', t₂⟩ hxy
    have hins := h.inserted i a hxy
    obtain rfl : r = r' := hxy.1
    cases r with
    | some b => exact Follows.throw .assert
    | none => exact Follows.pure ⟨rfl, hins⟩
  | insert i a =>
    rw [Forest.step, Forest.step, ← h.keyOf]
    refine (hF.insertHere _ _ _ a none cmp τ₁.keyOf (h.tree i) hnone).bind ?_
    intro x y hxy
    exact Follows.pure ⟨congrArg Result.item hxy.1, h.inserted i a hxy⟩
  | insertHere i a j =>
    rw [Forest.step, Forest.step, ← h.keyOf, ← h.cookies]
    refine (hF.insertHere _ _ _ a _ cmp τ₁.keyOf (h.tree i) ?_).bind ?_
    · rintro cookie hcookie
      cases hcookie
      exact h.cookiesIn j
    · intro x y hxy
      exact Follows.pure ⟨congrArg Result.item hxy.1, h.inserted i a hxy⟩
  | remove i a =>
    refine (hF.remove _ _ _ a (h.tree i) hc).bind ?_
    intro t₁ t₂ ht
    exact Follows.pure ⟨rfl, h.put i ht⟩
  | isEmpty i =>
    refine Follows.pure ⟨?_, h⟩
    show Result.flag (treeIsEmpty (τ₁.tree i)) = Result.flag (treeIsEmpty (τ₂.tree i))
    rw [treeIsEmpty, treeIsEmpty, (h.tree i).numNodes]
  | numnodes i => exact Follows.pure ⟨congrArg Result.num (h.tree i).numNodes, h⟩
  | find i key j =>
    cases j with
    | none =>
      rw [Forest.step, Forest.step, ← h.keyOf]
      refine ((h.tree i).treeFind cmp τ₁.keyOf key hnone).bind ?_
      rintro ⟨r, cookie⟩ _ ⟨rfl, -⟩
      exact Follows.pure ⟨rfl, h⟩
    | some j =>
      rw [Forest.step, Forest.step, ← h.keyOf, ← h.cookies]
      refine ((h.tree i).treeFind cmp τ₁.keyOf key ?_).bind ?_
      · rintro cookie hcookie
        cases hcookie
        exact h.cookiesIn j
      · rintro ⟨r, cookie⟩ _ ⟨rfl, hcookie⟩
        cases cookie with
        | none => exact Follows.throw .null
        | some cookie =>
          have hin : ∀ k, PtrIn τ₁.nodes (Function.update τ₁.cookies j cookie k).node :=
            (Function.forall_update_iff τ₁.cookies fun _ c => PtrIn τ₁.nodes c.node).mpr
              ⟨hcookie cookie rfl, fun k _ => h.cookiesIn k⟩
          exact Follows.pure ⟨rfl, h.trees, h.roots, h.mem, rfl, rfl, hin, h.cursors, h.cursorsIn,
            h.known⟩
  | nearest i j gt =>
    rw [Forest.step, Forest.step, ← h.cookies]
    exact hread ((h.tree i).treeNearest (h.cookiesIn j) gt)
  | first i => exact hread ((h.tree i).firstlastObj .left)
  | last i => exact hread ((h.tree i).firstlastObj .right)
  | next i a => exact hread ((h.tree i).treeNextDir hc true)
  | prev i a => exact hread ((h.tree i).treeNextDir hc false)
  | destroyNodes i j =>
    rw [Forest.step, Forest.step, ← h.cursors]
    refine ((h.tree i).treeDestroyNodes fun n d => h.cursorsIn j n d).bind ?_
    rintro ⟨r, cursor, t₁⟩ ⟨r', cursor', t₂⟩ ⟨rfl, rfl, hcursor, ht⟩
    have hput := h.put i ht
    have hin : ∀ k n d, Function.update τ₁.cursors j cursor k = .at n d → n ∈ τ₁.nodes :=
      (Function.forall_update_iff τ₁.cursors fun _ c => ∀ n d, c = .at n d → n ∈ τ₁.nodes).mpr
        ⟨hcursor, fun k _ => h.cursorsIn k⟩
    exact Follows.pure ⟨rfl, hput.trees, hput.roots, hput.mem, hput.keyOf, hput.cookies,
      hput.cookiesIn, rfl, hin, hput.known⟩
  | zero j =>
    have hcookies : ∀ k, PtrIn τ₁.nodes (Function.update τ₁.cookies j ⟨none, .left⟩ k).node :=
      (Function.forall_update_iff τ₁.cookies fun _ c => PtrIn τ₁.nodes c.node).mpr
        ⟨ptrIn_none _, fun k _ => h.cookiesIn k⟩
    have hcursors : ∀ k n d, Function.update τ₁.cursors j .start k = .at n d → n ∈ τ₁.nodes :=
      (Function.forall_update_iff τ₁.cursors fun _ c => ∀ n d, c = .at n d → n ∈ τ₁.nodes).mpr
        ⟨by simp, fun k _ => h.cursorsIn k⟩
    exact Follows.pure ⟨rfl, h.trees, h.roots, h.mem, h.keyOf,
      congrArg (Function.update · j ⟨none, .left⟩) h.cookies, hcookies,
      congrArg (Function.update · j Cursor.start) h.cursors, hcursors, h.known⟩
  | swap i₁ i₂ => exact Follows.pure ⟨rfl, (h.put i₁ (h.tree i₂)).put i₂ (h.tree i₁)⟩
  | rekey keyOf =>
    exact Follows.pure ⟨rfl, h.trees, h.roots, h.mem, rfl, h.cookies, h.cookiesIn, h.cursors,
      h.cursorsIn, h.known⟩

theorem ForestSim.allowed (h : ForestSim ext τ₁ τ₂) {c : ForestCall I J A K} (hc : τ₁.Allowed c) :
    τ₂.Allowed c := by
  have hknown : ∀ a, a ∈ τ₁.known → a ∈ τ₂.known := fun a ha => h.known ▸ ha
  cases c with
  | remove i a => exact hknown a hc
  | next i a => exact hknown a hc
  | prev i a => exact hknown a hc
  | _ => trivial

/-- What the results of a run and the trees after it have in common. -/
def RunSim (ext : Set A → Set A) (x : List (Result A) × Forest I J A M₁ K)
    (y : List (Result A) × Forest I J A M₂ K) : Prop := x.1 = y.1 ∧ ForestSim ext x.2 y.2

theorem ForestSim.run {F₁ : Flavour A M₁ K} {F₂ : Flavour A M₂ K} (hF : FlavourSim F₁ F₂ ext)
    (cmp : K → K → Int) (cs : List (ForestCall I J A K)) (h : ForestSim ext τ₁ τ₂)
    (hcs : τ₁.AllowedRun F₁ cmp cs) :
    Follows (RunSim ext) (τ₁.run F₁ cmp cs) (τ₂.run F₂ cmp cs) := by
  induction cs generalizing τ₁ τ₂ with
  | nil => exact Follows.pure ⟨rfl, h⟩
  | cons c cs ih =>
    refine (h.step hF cmp hcs.1).bind_of_eq ?_
    rintro ⟨r, τ₁'⟩ ⟨r', τ₂'⟩ hstep ⟨rfl, hτ⟩
    refine (ih hτ (hcs.2 r τ₁' hstep)).bind ?_
    rintro ⟨rs, τ₁''⟩ ⟨rs', τ₂''⟩ ⟨rfl, hτ'⟩
    exact Follows.pure ⟨rfl, hτ'⟩

/-- A run that is allowed over one memory is allowed over the other. -/
theorem ForestSim.allowedRun {F₁ : Flavour A M₁ K} {F₂ : Flavour A M₂ K}
    (hF : FlavourSim F₂ F₁ ext) (cmp : K → K → Int) (cs : List (ForestCall I J A K))
    (h : ForestSim ext τ₁ τ₂) (hcs : τ₁.AllowedRun F₁ cmp cs) : τ₂.AllowedRun F₂ cmp cs := by
  induction cs generalizing τ₁ τ₂ with
  | nil => trivial
  | cons c cs ih =>
    have hc := h.allowed hcs.1
    refine ⟨hc, fun r τ₂' hstep => ?_⟩
    obtain ⟨⟨r', τ₁'⟩, hstep', rfl, hτ⟩ := (h.symm.step hF cmp hc).eq_pure hstep
    exact ih hτ.symm (hcs.2 _ τ₁' hstep')

theorem ForestSim.agree {F₁ : Flavour A M₁ K} {F₂ : Flavour A M₂ K} (hF : FlavourSim F₁ F₂ ext)
    (hF' : FlavourSim F₂ F₁ ext) (cmp : K → K → Int) (cs : List (ForestCall I J A K))
    (h : ForestSim ext τ₁ τ₂) (hcs : τ₁.AllowedRun F₁ cmp cs) :
    Agree (RunSim ext) (τ₁.run F₁ cmp cs) (τ₂.run F₂ cmp cs) := by
  refine ⟨h.run hF cmp cs hcs, ?_⟩
  refine (h.symm.run hF' cmp cs (h.allowedRun hF' cmp cs hcs)).mono ?_
  rintro ⟨rs, τ₂'⟩ ⟨rs', τ₁'⟩ ⟨rfl, hτ⟩
  exact ⟨rfl, hτ.symm⟩

theorem forestSim_create (m₁ : M₁) (m₂ : M₂) (keyOf : A → K)
    (hext : ∀ a ∈ ext ∅, getExtra m₁ a = getExtra m₂ a) :
    ForestSim ext (Forest.create I J m₁ keyOf) (Forest.create I J m₂ keyOf) := by
  have hnodes : (Forest.create I J m₁ keyOf).nodes = ∅ := by
    ext a
    simp [Forest.nodes, Forest.create]
  refine ⟨rfl, fun _ => ptrIn_none _, ?_, rfl, rfl, fun _ => ptrIn_none _, rfl, by simp [Forest.create],
    rfl⟩
  rw [hnodes]
  exact ⟨by simp, by simp, hext, by simp, by simp⟩

/-- The same trees: their roots and sizes, and the children and the parent of every node that has been
in a tree. The nodes that the trees lead to are among these. -/
structure SameTrees (τ₁ : Forest I J A M₁ K) (τ₂ : Forest I J A M₂ K) : Prop where
  trees : τ₁.trees = τ₂.trees
  known : τ₁.known = τ₂.known
  child : ∀ a ∈ τ₁.known, ∀ d, child τ₁.mem a d = child τ₂.mem a d
  parent : ∀ a ∈ τ₁.known, getParent τ₁.mem a = getParent τ₂.mem a
  root_known : ∀ i a, (τ₁.trees i).1 = some a → a ∈ τ₁.known
  child_known : ∀ a ∈ τ₁.known, ∀ d b, Tree.child τ₁.mem a d = some b → b ∈ τ₁.known

/-- Every node that has been in a tree has the same colour. -/
def SameColours (τ₁ : Forest I J A M₁ K) (τ₂ : Forest I J A M₂ K) : Prop :=
  ∀ a ∈ τ₁.known, getExtra τ₁.mem a = getExtra τ₂.mem a

theorem ForestSim.sameTrees (h : ForestSim ext τ₁ τ₂) : SameTrees τ₁ τ₂ :=
  ⟨h.trees, h.known, h.mem.child, h.mem.parent, h.roots, h.mem.childIn⟩

/-- For every run of calls, over whatever is in the memory at first, the builds with and without
`JEFFPC_TREE_COMPACT` return the same results and have the same trees. The colours of `rb_*` trees are
the same; `bst_*` trees have no colours, but their extra fields stay the same if they start so. No
update of a parent changes a colour, and no update of a colour changes a parent. -/
theorem compact_layout_equivalent {I J K : Type} [DecidableEq I] [DecidableEq J] (cmp : K → K → Int)
    (keyOf : NodeAddr → K) (m : PlainMem NodeAddr) (c : CompactMem)
    (cs : List (ForestCall I J NodeAddr K)) :
    ((Forest.create I J m keyOf).AllowedRun (rb _ _ K) cmp cs →
      Agree (fun x y => x.1 = y.1 ∧ SameTrees x.2 y.2 ∧ SameColours x.2 y.2)
        ((Forest.create I J m keyOf).run (rb _ _ K) cmp cs)
        ((Forest.create I J c keyOf).run (rb _ _ K) cmp cs)) ∧
    ((Forest.create I J m keyOf).AllowedRun (bst _ _ K) cmp cs →
      Agree (fun x y => x.1 = y.1 ∧ SameTrees x.2 y.2 ∧
          ((∀ a, getExtra m a = getExtra c a) → SameColours x.2 y.2))
        ((Forest.create I J m keyOf).run (bst _ _ K) cmp cs)
        ((Forest.create I J c keyOf).run (bst _ _ K) cmp cs)) ∧
    (∀ (c : CompactMem) (a b : NodeAddr) (p : Option NodeAddr),
      getExtra (setParent c a p) b = getExtra c b) ∧
    (∀ (c : CompactMem) (a b : NodeAddr) (x : Fin 4),
      getParent (setExtra c a x) b = getParent c b) := by
  refine ⟨fun hcs => ?_, fun hcs => ?_, LawfulTreeMem.getExtra_setParent,
    LawfulTreeMem.getParent_setExtra⟩
  · have h : ForestSim id (Forest.create I J m keyOf) (Forest.create I J c keyOf) :=
      forestSim_create m c keyOf (by simp)
    obtain ⟨h1, h2⟩ := h.agree rb_flavourSim rb_flavourSim cmp cs hcs
    exact ⟨h1.mono fun x y hxy => ⟨hxy.1, hxy.2.sameTrees, hxy.2.mem.extra⟩,
      h2.mono fun y x hxy => ⟨hxy.1, hxy.2.sameTrees, hxy.2.mem.extra⟩⟩
  · by_cases hext : ∀ a, getExtra m a = getExtra c a
    · have h : ForestSim (fun _ => Set.univ) (Forest.create I J m keyOf) (Forest.create I J c keyOf) :=
        forestSim_create m c keyOf fun a _ => hext a
      obtain ⟨h1, h2⟩ := h.agree (bst_flavourSim (Or.inr rfl)) (bst_flavourSim (Or.inr rfl)) cmp cs hcs
      exact ⟨h1.mono fun x y hxy => ⟨hxy.1, hxy.2.sameTrees, fun _ a _ => hxy.2.mem.extra a trivial⟩,
        h2.mono fun y x hxy => ⟨hxy.1, hxy.2.sameTrees, fun _ a _ => hxy.2.mem.extra a trivial⟩⟩
    · have h : ForestSim (fun _ => ∅) (Forest.create I J m keyOf) (Forest.create I J c keyOf) :=
        forestSim_create m c keyOf (by simp)
      obtain ⟨h1, h2⟩ := h.agree (bst_flavourSim (Or.inl rfl)) (bst_flavourSim (Or.inl rfl)) cmp cs hcs
      exact ⟨h1.mono fun x y hxy => ⟨hxy.1, hxy.2.sameTrees, fun he => absurd he hext⟩,
        h2.mono fun y x hxy => ⟨hxy.1, hxy.2.sameTrees, fun he => absurd he hext⟩⟩

/-- Two nodes come and one goes, over a memory where every compact word has all of its bits set. -/
theorem compact_layout_equivalent_add_remove :
    Agree (fun x y => x.1 = y.1 ∧ SameTrees x.2 y.2 ∧ SameColours x.2 y.2)
      ((Forest.create Unit Unit (freshMem NodeAddr) fun a => (a.1.toNat : Int)).run (rb _ _ Int) intCmp
        [.add () ⟨8, by decide⟩, .add () ⟨4, by decide⟩, .remove () ⟨4, by decide⟩, .first ()])
      ((Forest.create Unit Unit (fun _ => ⟨fun _ => none, ~~~0⟩ : CompactMem)
          fun a => (a.1.toNat : Int)).run (rb _ _ Int) intCmp
        [.add () ⟨8, by decide⟩, .add () ⟨4, by decide⟩, .remove () ⟨4, by decide⟩, .first ()]) := by
  refine (compact_layout_equivalent intCmp _ (freshMem NodeAddr) _ _).1 ?_
  refine ⟨trivial, fun r τ _ => ⟨trivial, fun r' τ' hstep' => ⟨?_, fun _ _ _ => ⟨trivial, ?_⟩⟩⟩⟩
  swap
  · exact fun _ _ _ => trivial
  obtain ⟨⟨r₀, t⟩, -, hret⟩ := of_bind_eq_pure hstep'
  cases r₀ with
  | some b => cases hret
  | none =>
    obtain ⟨-, rfl⟩ := Prod.mk.inj (pure_inj hret)
    exact List.mem_cons_self

end Libjeffpc.Tree
