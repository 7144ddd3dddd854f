import Libjeffpc.Lib.Relational
import Libjeffpc.Tree.Forest

/-!
# The tree code over two memories

The same code runs over two memories of nodes. They agree on the nodes of a set `S`, whose pointers do
not leave `S`, and the extra fields agree on a set `E`. Whatever the code reads from a node of `S` is
then the same in both, so that both runs go the same way. Nothing is said about the other nodes: they
are not initialized.
-/

set_option linter.constructorNameAsVariable false
set_option linter.unusedSectionVars false

namespace Libjeffpc.Tree

open Lib

variable {A M₁ M₂ K : Type} [DecidableEq A] [TreeMem A M₁] [TreeMem A M₂] [LawfulTreeMem A M₁]
  [LawfulTreeMem A M₂]

/-- A pointer is NULL or leads to `S`. -/
def PtrIn (S : Set A) (p : Option A) : Prop := ∀ a, p = some a → a ∈ S

/-- The memories agree on `S`, and on the extra fields of `E`. -/
structure MemSim (S E : Set A) (m₁ : M₁) (m₂ : M₂) : Prop where
  child : ∀ a ∈ S, ∀ d, child m₁ a d = child m₂ a d
  parent : ∀ a ∈ S, getParent m₁ a = getParent m₂ a
  extra : ∀ a ∈ E, getExtra m₁ a = getExtra m₂ a
  childIn : ∀ a ∈ S, ∀ d, PtrIn S (Tree.child m₁ a d)
  parentIn : ∀ a ∈ S, PtrIn S (getParent m₁ a)

/-- The trees are the same. -/
structure TreeSim (S E : Set A) (t₁ : TreeTree A M₁) (t₂ : TreeTree A M₂) : Prop where
  root : t₁.root = t₂.root
  rootIn : PtrIn S t₁.root
  numNodes : t₁.numNodes = t₂.numNodes
  mem : MemSim S E t₁.mem t₂.mem

/-- A pointer that both sides have. -/
def PtrSim (S : Set A) (p q : Option A) : Prop := p = q ∧ PtrIn S p

/-- A node that both sides have. -/
def NodeSim (S : Set A) (a b : A) : Prop := a = b ∧ a ∈ S

theorem ptrIn_none (S : Set A) : PtrIn S (none : Option A) := by
  intro a h
  cases h

theorem ptrIn_some {S : Set A} {a : A} (h : a ∈ S) : PtrIn S (some a) := by
  intro b hb
  cases hb
  exact h

theorem PtrIn.mono {S S' : Set A} (h : S ⊆ S') {p : Option A} (hp : PtrIn S p) : PtrIn S' p :=
  fun a ha => h (hp a ha)

section Memory

variable {S E : Set A} {m₁ : M₁} {m₂ : M₂} {a : A} {p : Option A}

theorem MemSim.symm (h : MemSim S E m₁ m₂) : MemSim S E m₂ m₁ where
  child a ha d := (h.child a ha d).symm
  parent a ha := (h.parent a ha).symm
  extra a ha := (h.extra a ha).symm
  childIn a ha d := h.child a ha d ▸ h.childIn a ha d
  parentIn a ha := h.parent a ha ▸ h.parentIn a ha

theorem MemSim.setChild (h : MemSim S E m₁ m₂) (hp : PtrIn S p) (a : A) (d : TreeDir) :
    MemSim S E (setChild m₁ a d p) (setChild m₂ a d p) where
  child b hb e := by
    by_cases hbe : b = a ∧ e = d
    · obtain ⟨rfl, rfl⟩ := hbe
      simp
    · rw [LawfulTreeMem.child_setChild_ne _ _ _ _ _ _ hbe,
        LawfulTreeMem.child_setChild_ne _ _ _ _ _ _ hbe]
      exact h.child b hb e
  parent b hb := by simpa using h.parent b hb
  extra b hb := by simpa using h.extra b hb
  childIn b hb e := by
    by_cases hbe : b = a ∧ e = d
    · obtain ⟨rfl, rfl⟩ := hbe
      simpa using hp
    · rw [LawfulTreeMem.child_setChild_ne _ _ _ _ _ _ hbe]
      exact h.childIn b hb e
  parentIn b hb := by simpa using h.parentIn b hb

theorem MemSim.setParent (h : MemSim S E m₁ m₂) (hp : PtrIn S p) (a : A) :
    MemSim S E (setParent m₁ a p) (setParent m₂ a p) where
  child b hb e := by simpa using h.child b hb e
  parent b hb := by
    by_cases hba : b = a
    · subst hba
      simp
    · rw [LawfulTreeMem.getParent_setParent_ne _ _ _ _ hba,
        LawfulTreeMem.getParent_setParent_ne _ _ _ _ hba]
      exact h.parent b hb
  extra b hb := by simpa using h.extra b hb
  childIn b hb e := by simpa using h.childIn b hb e
  parentIn b hb := by
    by_cases hba : b = a
    · subst hba
      simpa using hp
    · rw [LawfulTreeMem.getParent_setParent_ne _ _ _ _ hba]
      exact h.parentIn b hb

/-- The extra field may differ where nothing is said about it. -/
theorem MemSim.setExtra {E' : Set A} (h : MemSim S E m₁ m₂) {x₁ x₂ : Fin 4} (hx : a ∈ E' → x₁ = x₂)
    (hE : ∀ b ∈ E', b ≠ a → b ∈ E) : MemSim S E' (setExtra m₁ a x₁) (setExtra m₂ a x₂) where
  child b hb e := by simpa using h.child b hb e
  parent b hb := by simpa using h.parent b hb
  extra b hb := by
    by_cases hba : b = a
    · subst hba
      simpa using hx hb
    · rw [LawfulTreeMem.getExtra_setExtra_ne _ _ _ _ hba,
        LawfulTreeMem.getExtra_setExtra_ne _ _ _ _ hba]
      exact h.extra b (hE b hb hba)
  childIn b hb e := by simpa using h.childIn b hb e
  parentIn b hb := by simpa using h.parentIn b hb

theorem MemSim.whichDir (h : MemSim S E m₁ m₂) (ha : a ∈ S) (tgt : Option A) :
    whichDir m₁ a tgt = whichDir m₂ a tgt := by
  rw [Tree.whichDir, Tree.whichDir, h.child a ha]

/-- The place of a node below a parent. -/
theorem MemSim.place (h : MemSim S E m₁ m₂) (hp : PtrIn S p) (tgt : Option A) :
    (p.map fun q => (q, Tree.whichDir m₁ q tgt)) = p.map fun q => (q, Tree.whichDir m₂ q tgt) := by
  cases p with
  | none => rfl
  | some q => exact congrArg some (congrArg (q, ·) (h.whichDir (hp q rfl) tgt))

theorem MemSim.setParentIf (h : MemSim S E m₁ m₂) (hp : PtrIn S p) (node : Option A) :
    MemSim S E (setParentIf m₁ node p) (setParentIf m₂ node p) := by
  cases node with
  | none => exact h
  | some n => exact h.setParent hp n

theorem MemSim.setPlace (h : MemSim S E m₁ m₂) {root : Option A} (hr : PtrIn S root) (hp : PtrIn S p)
    (place : Option (A × TreeDir)) :
    (setPlace root m₁ place p).1 = (setPlace root m₂ place p).1 ∧
      PtrIn S (setPlace root m₁ place p).1 ∧
      MemSim S E (setPlace root m₁ place p).2 (setPlace root m₂ place p).2 := by
  cases place with
  | none => exact ⟨rfl, hp, h⟩
  | some pd => exact ⟨rfl, hr, h.setChild hp pd.1 pd.2⟩

theorem MemSim.firstlast (h : MemSim S E m₁ m₂) (ha : a ∈ S) (dir : TreeDir) :
    Follows (NodeSim S) (firstlast m₁ a dir) (firstlast m₂ a dir) := by
  refine Follows.loop (NodeSim S) ?_ ⟨rfl, ha⟩
  rintro b _ ⟨rfl, hb⟩
  rw [← h.child b hb dir]
  cases hc : Tree.child m₁ b dir with
  | none => exact Follows.pure ⟨rfl, hb⟩
  | some c => exact Follows.pure ⟨rfl, h.childIn b hb dir c hc⟩

end Memory

section Read

variable {S E : Set A} {t₁ : TreeTree A M₁} {t₂ : TreeTree A M₂} {a : A}

theorem TreeSim.firstlastObj (h : TreeSim S E t₁ t₂) (dir : TreeDir) :
    Follows (fun p q => p = q) (firstlastObj t₁ dir) (firstlastObj t₂ dir) := by
  rw [Tree.firstlastObj, Tree.firstlastObj, ← h.root]
  cases hr : t₁.root with
  | none => exact Follows.pure rfl
  | some r => exact (h.mem.firstlast (h.rootIn r hr) dir).map fun a b hab => congrArg some hab.1

theorem TreeSim.treeNextUp (h : TreeSim S E t₁ t₂) (ha : a ∈ S) (left right : TreeDir) :
    Follows (fun p q => p = q) (treeNextUp t₁.mem left right a) (treeNextUp t₂.mem left right a) := by
  refine Follows.loop (NodeSim S) ?_ ⟨rfl, ha⟩
  rintro b _ ⟨rfl, hb⟩
  rw [← h.mem.parent b hb]
  cases hp : getParent t₁.mem b with
  | none => exact Follows.pure rfl
  | some p =>
    have hpS := h.mem.parentIn b hb p hp
    simp only [h.mem.whichDir hpS]
    split
    · exact Follows.pure rfl
    · split
      · exact Follows.pure ⟨rfl, hpS⟩
      · exact Follows.pure ⟨rfl, hb⟩

theorem TreeSim.treeNextDir (h : TreeSim S E t₁ t₂) (ha : a ∈ S) (fwd : Bool) :
    Follows (fun p q => p = q) (treeNextDir t₁ a fwd) (treeNextDir t₂ a fwd) := by
  rw [Tree.treeNextDir, Tree.treeNextDir, ← h.mem.child a ha]
  cases hc : child t₁.mem a (if fwd then .right else .left) with
  | none => exact h.treeNextUp ha _ _
  | some r =>
    exact (h.mem.firstlast (h.mem.childIn a ha _ r hc) _).map fun a b hab => congrArg some hab.1

theorem TreeSim.treeNearest (h : TreeSim S E t₁ t₂) {cookie : TreeCookie A}
    (hc : PtrIn S cookie.node) (gt : Bool) :
    Follows (fun p q => p = q) (treeNearest t₁.mem cookie gt) (treeNearest t₂.mem cookie gt) := by
  rw [Tree.treeNearest, Tree.treeNearest]
  cases hn : cookie.node with
  | none => exact Follows.pure rfl
  | some node =>
    refine Follows.loop (fun s s' => s = s' ∧ s.1 ∈ S) ?_ ⟨rfl, hc node hn⟩
    rintro s _ ⟨rfl, hs⟩
    rw [← h.mem.parent s.1 hs]
    by_cases hd : s.2 = if gt then Dir.left else Dir.right
    · rw [if_pos hd, if_pos hd]
      exact Follows.pure rfl
    · rw [if_neg hd, if_neg hd]
      refine (Follows.refl _).bind fun _ _ _ => ?_
      cases hp : getParent t₁.mem s.1 with
      | none => exact Follows.pure rfl
      | some p =>
        have hpS := h.mem.parentIn s.1 hs p hp
        simp only [h.mem.whichDir hpS]
        exact Follows.pure ⟨rfl, hpS⟩

/-- The position that a find ends at. -/
def FindSim (S : Set A) (x y : Option A × TreeCookie A) : Prop := x = y ∧ PtrIn S x.2.node

theorem TreeSim.treeFindLoop (h : TreeSim S E t₁ t₂) (cmp : K → K → Int) (keyOf : A → K) (key : K) :
    Follows (FindSim S) (treeFindLoop cmp keyOf t₁.mem key t₁.root ⟨none, .left⟩)
      (treeFindLoop cmp keyOf t₂.mem key t₂.root ⟨none, .left⟩) := by
  refine Follows.loop (fun s s' => s = s' ∧ PtrIn S s.1 ∧ PtrIn S s.2.node) ?_
    ⟨by rw [h.root], h.rootIn, ptrIn_none S⟩
  rintro ⟨cur, pos⟩ _ ⟨rfl, hcur, hpos⟩
  cases cur with
  | none => exact Follows.pure ⟨rfl, hpos⟩
  | some c =>
    have hc := hcur c rfl
    simp only
    split
    · exact Follows.pure ⟨rfl, hpos⟩
    · rw [← h.mem.child c hc]
      exact Follows.pure ⟨rfl, h.mem.childIn c hc _, ptrIn_some hc⟩

theorem TreeSim.treeFind (h : TreeSim S E t₁ t₂) (cmp : K → K → Int) (keyOf : A → K) (key : K)
    {cookie : Option (TreeCookie A)} (hcookie : ∀ c, cookie = some c → PtrIn S c.node) :
    Follows (fun x y => x = y ∧ ∀ c, x.2 = some c → PtrIn S c.node)
      (treeFind cmp keyOf t₁ key cookie) (treeFind cmp keyOf t₂ key cookie) := by
  refine (h.treeFindLoop cmp keyOf key).bind ?_
  rintro ⟨r, pos⟩ _ ⟨rfl, hpos⟩
  cases r with
  | some c => exact Follows.pure ⟨rfl, hcookie⟩
  | none =>
    refine Follows.pure ⟨rfl, ?_⟩
    rintro c hc
    cases cookie with
    | none => cases hc
    | some c' =>
      cases hc
      exact hpos

theorem TreeSim.destroyNodesSaveParent (h : TreeSim S E t₁ t₂) (ha : a ∈ S) :
    Follows (fun x y => x = y ∧ ∀ n d, x = .at n d → n ∈ S) (destroyNodesSaveParent t₁ a)
      (destroyNodesSaveParent t₂ a) := by
  rw [Tree.destroyNodesSaveParent, Tree.destroyNodesSaveParent, ← h.root, ← h.mem.parent a ha]
  split
  · cases hp : getParent t₁.mem a with
    | none => exact Follows.throw .null
    | some p =>
      have hpS := h.mem.parentIn a ha p hp
      simp only [deref_some, pure_bind, h.mem.whichDir hpS]
      refine Follows.pure ⟨rfl, ?_⟩
      rintro n d hn
      cases hn
      exact hpS
  · exact Follows.pure ⟨rfl, by simp⟩

/-- A node and where to go on. -/
def CursorSim (S : Set A) (x y : A × Cursor A) : Prop := x = y ∧ ∀ n d, x.2 = .at n d → n ∈ S

theorem TreeSim.destroyNodesStep (h : TreeSim S E t₁ t₂) (ha : a ∈ S) :
    Follows (CursorSim S) (destroyNodesStep t₁ a) (destroyNodesStep t₂ a) := by
  refine Follows.loop (NodeSim S) ?_ ⟨rfl, ha⟩
  rintro b _ ⟨rfl, hb⟩
  refine (h.mem.firstlast hb .left).bind ?_
  rintro c _ ⟨rfl, hc⟩
  rw [← h.mem.child c hc]
  cases hr : child t₁.mem c .right with
  | none =>
    refine (h.destroyNodesSaveParent hc).bind ?_
    rintro cursor _ ⟨rfl, hcursor⟩
    exact Follows.pure ⟨rfl, hcursor⟩
  | some r => exact Follows.pure ⟨rfl, h.mem.childIn c hc _ r hr⟩

theorem TreeSim.destroyNodesSelf (h : TreeSim S E t₁ t₂) (ha : a ∈ S) :
    Follows (CursorSim S) (destroyNodesSelf t₁ a) (destroyNodesSelf t₂ a) := by
  refine (h.destroyNodesSaveParent ha).bind ?_
  rintro cursor _ ⟨rfl, hcursor⟩
  exact Follows.pure ⟨rfl, hcursor⟩

theorem TreeSim.treeDestroyNodes (h : TreeSim S E t₁ t₂) {cursor : Cursor A}
    (hcursor : ∀ n d, cursor = .at n d → n ∈ S) :
    Follows (fun x y => x.1 = y.1 ∧ x.2.1 = y.2.1 ∧ (∀ n d, x.2.1 = .at n d → n ∈ S) ∧
      TreeSim S E x.2.2 y.2.2) (treeDestroyNodes t₁ cursor) (treeDestroyNodes t₂ cursor) := by
  rw [Tree.treeDestroyNodes, Tree.treeDestroyNodes, ← h.root]
  cases hr : t₁.root with
  | none => exact Follows.pure ⟨rfl, rfl, hcursor, h⟩
  | some root =>
    cases cursor with
    | done => exact Follows.pure ⟨rfl, rfl, by simp, rfl, ptrIn_none S, rfl, h.mem⟩
    | start =>
      refine (h.destroyNodesStep (h.rootIn root hr)).bind ?_
      rintro x _ ⟨rfl, hx⟩
      exact Follows.pure ⟨rfl, rfl, hx, h⟩
    | «at» node dir =>
      have hn := hcursor node dir rfl
      simp only [← h.mem.child node hn]
      have hin : PtrIn S (if dir = Dir.right then child t₁.mem node .right else none) := by
        split
        · exact h.mem.childIn node hn _
        · exact ptrIn_none S
      cases hright : (if dir = Dir.right then child t₁.mem node .right else none) with
      | some r =>
        refine (h.destroyNodesStep (hin r hright)).bind ?_
        rintro x _ ⟨rfl, hx⟩
        exact Follows.pure ⟨rfl, rfl, hx, h⟩
      | none =>
        refine (h.destroyNodesSelf hn).bind ?_
        rintro x _ ⟨rfl, hx⟩
        exact Follows.pure ⟨rfl, rfl, hx, h⟩

end Read

section Write

variable {S E : Set A} {t₁ : TreeTree A M₁} {t₂ : TreeTree A M₂} {a : A}

/-- The new node is initialized and joins `S`. -/
theorem MemSim.newNode {m₁ : M₁} {m₂ : M₂} (h : MemSim S E m₁ m₂) {p : Option A} (hp : PtrIn S p) :
    MemSim (insert a S) E
      (Tree.setParent (Tree.setChild (Tree.setChild m₁ a .left none) a .right none) a p)
      (Tree.setParent (Tree.setChild (Tree.setChild m₂ a .left none) a .right none) a p) := by
  have hsub : S ⊆ insert a S := fun b hb => Set.mem_insert_of_mem a hb
  have hleft : ¬((a = a) ∧ Dir.left = Dir.right) := by simp
  refine ⟨?_, ?_, ?_, ?_, ?_⟩
  · intro b hb d
    by_cases hba : b = a
    · subst hba
      cases d <;> simp [LawfulTreeMem.child_setChild_ne _ _ _ _ _ _ hleft]
    · have hb := Set.mem_of_mem_insert_of_ne hb hba
      simpa [LawfulTreeMem.child_setChild_ne, hba] using h.child b hb d
  · intro b hb
    by_cases hba : b = a
    · subst hba
      simp
    · have hb := Set.mem_of_mem_insert_of_ne hb hba
      simpa [LawfulTreeMem.getParent_setParent_ne, hba] using h.parent b hb
  · intro b hb
    simpa using h.extra b hb
  · intro b hb d
    by_cases hba : b = a
    · subst hba
      cases d <;> simp [LawfulTreeMem.child_setChild_ne _ _ _ _ _ _ hleft, ptrIn_none]
    · have hb := Set.mem_of_mem_insert_of_ne hb hba
      simpa [LawfulTreeMem.child_setChild_ne, hba] using (h.childIn b hb d).mono hsub
  · intro b hb
    by_cases hba : b = a
    · subst hba
      simpa using hp.mono hsub
    · have hb := Set.mem_of_mem_insert_of_ne hb hba
      simpa [LawfulTreeMem.getParent_setParent_ne, hba] using (h.parentIn b hb).mono hsub

theorem TreeSim.treeInsertAt (h : TreeSim S E t₁ t₂) {cookie : TreeCookie A}
    (hc : PtrIn S cookie.node) :
    TreeSim (insert a S) E (treeInsertAt t₁ a cookie) (treeInsertAt t₂ a cookie) := by
  obtain ⟨node, dir⟩ := cookie
  have hmem := h.mem.newNode (a := a) hc
  have ha : PtrIn (insert a S) (some a) := ptrIn_some (Set.mem_insert a S)
  cases node with
  | none => exact ⟨rfl, ha, congrArg (· + 1) h.numNodes, hmem⟩
  | some p =>
    exact ⟨h.root, h.rootIn.mono (Set.subset_insert a S), congrArg (· + 1) h.numNodes,
      hmem.setChild ha p dir⟩

/-- What an insertion returns: the item that was there, and nothing has changed, or NULL. -/
def InsertSim (S E : Set A) (a : A) (E' : Set A) (x : Option A × TreeTree A M₁)
    (y : Option A × TreeTree A M₂) : Prop :=
  x.1 = y.1 ∧ ((x.1.isSome ∧ TreeSim S E x.2 y.2) ∨
    (x.1 = none ∧ TreeSim (insert a S) E' x.2 y.2))

theorem TreeSim.treeInsertHere (h : TreeSim S E t₁ t₂) (cmp : K → K → Int) (keyOf : A → K)
    {cookie : Option (TreeCookie A)} (hc : ∀ c, cookie = some c → PtrIn S c.node) :
    Follows (InsertSim S E a E) (treeInsertHere cmp keyOf t₁ a cookie)
      (treeInsertHere cmp keyOf t₂ a cookie) := by
  cases cookie with
  | some c => exact Follows.pure ⟨rfl, Or.inr ⟨rfl, h.treeInsertAt (hc c rfl)⟩⟩
  | none =>
    have hstart : ∀ c : TreeCookie A, some ⟨none, .left⟩ = some c → PtrIn S c.node := by
      rintro c hc
      cases hc
      exact ptrIn_none S
    refine (h.treeFind cmp keyOf (keyOf a) hstart).bind ?_
    · rintro ⟨r, c⟩ _ ⟨rfl, hc⟩
      cases r with
      | some b => exact Follows.pure ⟨rfl, Or.inl ⟨rfl, h⟩⟩
      | none =>
        cases c with
        | none => exact Follows.throw .null
        | some c => exact Follows.pure ⟨rfl, Or.inr ⟨rfl, h.treeInsertAt (hc c rfl)⟩⟩

theorem TreeSim.swapPlace (h : TreeSim S E t₁ t₂) (ha : a ∈ S) :
    Follows (fun x y => x = y) (swapPlace t₁ a) (swapPlace t₂ a) := by
  rw [Tree.swapPlace, Tree.swapPlace, ← h.root, ← h.mem.parent a ha]
  split
  · exact Follows.pure rfl
  · cases hp : getParent t₁.mem a with
    | none => exact Follows.throw .null
    | some p =>
      simp only [deref_some, pure_bind, h.mem.whichDir (h.mem.parentIn a ha p hp)]
      exact Follows.pure rfl

/-- The two extra fields that `__swap_nodes` exchanges at its end. -/
theorem MemSim.swapExtra {m₁ : M₁} {m₂ : M₂} (h : MemSim S E m₁ m₂) (hE : E = ∅ ∨ S ⊆ E) {x y : A}
    (hx : x ∈ S) (hy : y ∈ S) :
    MemSim S E (Tree.setExtra (Tree.setExtra m₁ x (getExtra m₁ y)) y (getExtra m₁ x))
      (Tree.setExtra (Tree.setExtra m₂ x (getExtra m₂ y)) y (getExtra m₂ x)) := by
  have hread : ∀ z ∈ S, ∀ b ∈ E, getExtra m₁ z = getExtra m₂ z := by
    intro z hz b hb
    rcases hE with rfl | hsub
    · exact absurd hb (Set.notMem_empty b)
    · exact h.extra z (hsub hz)
  exact (h.setExtra (hread y hy x) fun b hb _ => hb).setExtra (hread x hx y) fun b hb _ => hb

theorem TreeSim.swapNodes (h : TreeSim S E t₁ t₂) (hE : E = ∅ ∨ S ⊆ E) {x y : A} (hx : x ∈ S)
    (hy : y ∈ S) (left : TreeDir) :
    Follows (TreeSim S E) (swapNodes t₁ x y left) (swapNodes t₂ x y left) := by
  have hxS : PtrIn S (some x) := ptrIn_some hx
  have hyS : PtrIn S (some y) := ptrIn_some hy
  have ha := h.mem.parentIn x hx
  have he := h.mem.childIn y hy left.flip
  rw [Tree.swapNodes, Tree.swapNodes]
  simp only [← h.mem.child y hy, ← h.mem.child x hx, ← h.mem.parent x hx, ← h.mem.parent y hy,
    ← h.root]
  refine (Follows.refl _).bind fun _ _ _ => ?_
  refine (Follows.refl _).bind fun _ _ _ => ?_
  refine (h.swapPlace hx).bind ?_
  rintro place _ rfl
  by_cases hc : child t₁.mem x left.flip = some y
  · rw [if_pos hc, if_pos hc]
    cases hb : child t₁.mem x left with
    | none => exact Follows.throw .null
    | some b =>
      have hbS := h.mem.childIn x hx left
      rw [hb] at hbS
      simp only [deref_some, pure_bind]
      have hparents := (((h.mem.setParent hyS x).setParent ha y).setParent hyS b).setParentIf hxS
        (child t₁.mem y left.flip)
      have hchildren := (((hparents.setChild (ptrIn_none S) x left).setChild he x left.flip).setChild
        hbS y left).setChild hxS y left.flip
      obtain ⟨hr, hrS, hm⟩ := hchildren.setPlace h.rootIn hyS place
      exact Follows.pure ⟨hr, hrS, h.numNodes, hm.swapExtra hE hx hy⟩
  · rw [if_neg hc, if_neg hc]
    have hcS := h.mem.childIn x hx left.flip
    have hdS := h.mem.parentIn y hy
    cases hb : child t₁.mem x left with
    | none => exact Follows.throw .null
    | some b =>
      have hbS := h.mem.childIn x hx left
      rw [hb] at hbS
      cases hc' : child t₁.mem x left.flip with
      | none => exact Follows.throw .null
      | some c =>
        rw [hc'] at hcS
        simp only [deref_some, pure_bind]
        have hparents := ((((h.mem.setParent hdS x).setParent ha y).setParent hyS b).setParent hyS
          c).setParentIf hxS (child t₁.mem y left.flip)
        have hchildren := (((hparents.setChild (ptrIn_none S) x left).setChild he x
          left.flip).setChild hbS y left).setChild hcS y left.flip
        obtain ⟨hr, hrS, hm⟩ := hchildren.setPlace h.rootIn hyS place
        cases hd : getParent t₁.mem y with
        | none => exact Follows.throw .null
        | some d =>
          rw [hd] at hr hrS hm
          exact Follows.pure
            ⟨hr, hrS, h.numNodes, (hm.setChild hxS d left).swapExtra hE hx hy⟩

theorem TreeSim.promoteNodeChild (h : TreeSim S E t₁ t₂) {parent child' : Option A}
    (hp : PtrIn S parent) (hc : PtrIn S child') :
    TreeSim S E (promoteNodeChild t₁ parent a child') (promoteNodeChild t₂ parent a child') := by
  obtain ⟨hr, hrS, hm⟩ := h.mem.setPlace h.rootIn hc (parent.map fun p => (p, whichDir t₁.mem p (some a)))
  rw [Tree.promoteNodeChild, Tree.promoteNodeChild, ← h.mem.place hp, ← h.root]
  exact ⟨hr, hrS, h.numNodes, hm.setParentIf hp child'⟩

theorem TreeSim.treeRemoveSwap (h : TreeSim S E t₁ t₂) (hE : E = ∅ ∨ S ⊆ E) (ha : a ∈ S) :
    Follows (TreeSim S E) (treeRemoveSwap t₁ a) (treeRemoveSwap t₂ a) := by
  rw [Tree.treeRemoveSwap, Tree.treeRemoveSwap, ← h.mem.child a ha, ← h.mem.child a ha]
  cases hl : child t₁.mem a .left with
  | none => exact Follows.pure h
  | some l =>
    cases hr : child t₁.mem a .right with
    | none => exact Follows.pure h
    | some r =>
      refine (h.mem.firstlast (h.mem.childIn a ha _ r hr) .left).bind ?_
      rintro y _ ⟨rfl, hy⟩
      exact h.swapNodes hE ha hy .left

theorem TreeSim.treeRemove (h : TreeSim S E t₁ t₂) (hE : E = ∅ ∨ S ⊆ E) (ha : a ∈ S) :
    Follows (fun x y => TreeSim S E x.1 y.1 ∧ PtrSim S x.2.1 y.2.1 ∧ PtrSim S x.2.2 y.2.2)
      (treeRemove t₁ a) (treeRemove t₂ a) := by
  refine (h.treeRemoveSwap hE ha).bind ?_
  intro t₁ t₂ h
  have hp := h.mem.parentIn a ha
  have hc : PtrIn S (if (child t₁.mem a .left).isSome then child t₁.mem a .left
      else child t₁.mem a .right) := by
    split
    · exact h.mem.childIn a ha _
    · exact h.mem.childIn a ha _
  simp only [← h.mem.child a ha, ← h.mem.parent a ha]
  refine (Follows.refl _).bind fun _ _ _ => ?_
  have hpro := h.promoteNodeChild (a := a) hp hc
  refine Follows.pure ⟨⟨hpro.root, hpro.rootIn, congrArg (· - 1) hpro.numNodes, ?_⟩, ⟨rfl, hp⟩, rfl, hc⟩
  exact ((hpro.mem.setParent (ptrIn_none S) a).setChild (ptrIn_none S) a .left).setChild
    (ptrIn_none S) a .right

end Write

section RedBlack

variable {S E : Set A} {m₁ : M₁} {m₂ : M₂} {t₁ : TreeTree A M₁} {t₂ : TreeTree A M₂} {a p g : A}

theorem MemSim.setRed (h : MemSim S E m₁ m₂) (node : Option A) (red : Bool) :
    MemSim S E (setRed m₁ node red) (setRed m₂ node red) := by
  cases node with
  | none => exact h
  | some n => exact h.setExtra (fun _ => rfl) fun b hb _ => hb

theorem MemSim.isRed (h : MemSim S E m₁ m₂) (hE : S ⊆ E) {node : Option A} (hn : PtrIn S node) :
    isRed m₁ node = isRed m₂ node := by
  cases node with
  | none => rfl
  | some n => rw [Tree.isRed, Tree.isRed, h.extra n (hE (hn n rfl))]

theorem TreeSim.withMem (h : TreeSim S E t₁ t₂) (hm : MemSim S E m₁ m₂) :
    TreeSim S E { t₁ with mem := m₁ } { t₂ with mem := m₂ } := ⟨h.root, h.rootIn, h.numNodes, hm⟩

theorem TreeSim.rbRotate (h : TreeSim S E t₁ t₂) (ha : a ∈ S) (left : TreeDir) :
    Follows (TreeSim S E) (rbRotate t₁ a left) (rbRotate t₂ a left) := by
  have haS : PtrIn S (some a) := ptrIn_some ha
  rw [Tree.rbRotate, Tree.rbRotate]
  simp only [← h.mem.child a ha, ← h.root]
  refine (Follows.refl _).bind fun _ _ _ => ?_
  cases ht : child t₁.mem a left.flip with
  | none => exact Follows.throw .null
  | some tmp =>
    have ht := h.mem.childIn a ha _ tmp ht
    have htS : PtrIn S (some tmp) := ptrIn_some ht
    have h1 := h.mem.setChild (h.mem.childIn tmp ht left) a left.flip
    have h2 := h1.setParentIf haS (child (setChild t₁.mem a left.flip (child t₁.mem tmp left)) tmp left)
    have h3 := h2.setParent (h2.parentIn a ha) tmp
    simp only [deref_some, pure_bind, ← h.mem.child tmp ht, ← h1.child tmp ht, ← h2.parent a ha,
      ← h3.parent a ha]
    rw [← h3.place (h3.parentIn a ha)]
    obtain ⟨hr, hrS, hm⟩ := h3.setPlace h.rootIn htS _
    exact Follows.pure ⟨hr, hrS, h.numNodes, (hm.setChild haS tmp left).setParent htS a⟩

theorem TreeSim.rbInsertZigZag (h : TreeSim S E t₁ t₂) (ha : a ∈ S) (hp : p ∈ S) (hg : g ∈ S) :
    Follows (fun x y => TreeSim S E x.1 y.1 ∧ NodeSim S x.2.1 y.2.1 ∧ PtrSim S x.2.2.1 y.2.2.1 ∧
      PtrSim S x.2.2.2 y.2.2.2) (rbInsertZigZag t₁ a p g) (rbInsertZigZag t₂ a p g) := by
  rw [Tree.rbInsertZigZag, Tree.rbInsertZigZag, ← h.mem.whichDir hp, ← h.mem.whichDir hg]
  split
  · refine (h.rbRotate hp _).bind ?_
    intro t₁ t₂ h
    have hpp := h.mem.parentIn p hp
    simp only [← h.mem.parent p hp]
    refine Follows.pure ⟨h, ⟨rfl, hp⟩, ⟨rfl, hpp⟩, ?_⟩
    cases hq : getParent t₁.mem p with
    | none => exact ⟨rfl, ptrIn_none S⟩
    | some q =>
      have hqS := hpp q hq
      exact ⟨h.mem.parent q hqS, h.mem.parentIn q hqS⟩
  · exact Follows.pure ⟨h, ⟨rfl, ha⟩, ⟨rfl, ptrIn_some hp⟩, rfl, ptrIn_some hg⟩

theorem TreeSim.rbInsertZigZig (h : TreeSim S E t₁ t₂) (hp : p ∈ S) (hg : g ∈ S) :
    Follows (TreeSim S E) (rbInsertZigZig t₁ a p g) (rbInsertZigZig t₂ a p g) := by
  rw [Tree.rbInsertZigZig, Tree.rbInsertZigZig, ← h.mem.whichDir hp, ← h.mem.whichDir hg]
  split
  · exact h.rbRotate hg _
  · exact Follows.pure h

theorem TreeSim.rbInsertRotate (h : TreeSim S E t₁ t₂) (ha : a ∈ S) {parent gparent : Option A}
    (hp : PtrIn S parent) (hg : PtrIn S gparent) :
    Follows (fun x y => TreeSim S E x.1 y.1 ∧ NodeSim S x.2 y.2) (rbInsertRotate t₁ a parent gparent)
      (rbInsertRotate t₂ a parent gparent) := by
  cases parent with
  | none => exact Follows.throw .null
  | some p =>
    cases gparent with
    | none => exact Follows.throw .null
    | some g =>
      refine (h.rbInsertZigZag ha (hp p rfl) (hg g rfl)).bind ?_
      rintro ⟨t₁, n, parent, gparent⟩ ⟨t₂, n', parent', gparent'⟩ ⟨h, ⟨rfl, hn⟩, ⟨rfl, hp⟩, rfl, hg⟩
      cases parent with
      | none => exact Follows.throw .null
      | some p =>
        cases gparent with
        | none => exact Follows.throw .null
        | some g =>
          refine (h.rbInsertZigZig (hp p rfl) (hg g rfl)).bind ?_
          intro t₁ t₂ h
          exact Follows.pure ⟨h.withMem ((h.mem.setRed _ _).setRed _ _), rfl, hn⟩

theorem TreeSim.rbInsertStep (hE : S ⊆ E) (h : TreeSim S E t₁ t₂) {node : Option A}
    (hn : PtrIn S node) :
    Follows (Follows.RoundRel (fun s s' => TreeSim S E s.1 s'.1 ∧ PtrSim S s.2 s'.2) (TreeSim S E))
      (rbInsertStep (t₁, node)) (rbInsertStep (t₂, node)) := by
  cases node with
  | none => exact Follows.pure h
  | some n =>
    have hnS := hn n rfl
    have hparent := h.mem.parentIn n hnS
    rw [Tree.rbInsertStep, Tree.rbInsertStep]
    simp only [← h.mem.isRed hE hn, ← h.mem.parent n hnS]
    split
    · generalize hparent' : getParent t₁.mem n = parent at hparent ⊢
      have hg : PtrSim S (parent.bind (getParent t₁.mem)) (parent.bind (getParent t₂.mem)) := by
        cases parent with
        | none => exact ⟨rfl, ptrIn_none S⟩
        | some p => exact ⟨h.mem.parent p (hparent p rfl), h.mem.parentIn p (hparent p rfl)⟩
      rw [← hg.1]
      have hgS := hg.2
      generalize parent.bind (getParent t₁.mem) = gparent at hgS ⊢
      have hu : PtrSim S (gparent.bind fun g => child t₁.mem g (whichDir t₁.mem g parent).flip)
          (gparent.bind fun g => child t₂.mem g (whichDir t₂.mem g parent).flip) := by
        cases gparent with
        | none => exact ⟨rfl, ptrIn_none S⟩
        | some g =>
          have hgS := hgS g rfl
          refine ⟨?_, h.mem.childIn g hgS _⟩
          show child t₁.mem g _ = child t₂.mem g _
          rw [← h.mem.whichDir hgS, h.mem.child g hgS]
      rw [← hu.1, ← h.mem.isRed hE hparent, ← h.mem.isRed hE hu.2]
      split
      · exact Follows.pure h
      · split
        · exact Follows.pure ⟨h.withMem (((h.mem.setRed _ _).setRed _ _).setRed _ _), rfl, hgS⟩
        · refine (h.rbInsertRotate hnS hparent hgS).bind ?_
          rintro ⟨t₁, n⟩ ⟨t₂, _⟩ ⟨h, rfl, hn⟩
          exact Follows.pure ⟨h, rfl, ptrIn_some hn⟩
    · exact Follows.pure h

/-- An insertion gives the new node a colour, so it joins `E` too. -/
theorem TreeSim.rbInsertHere (hE : S ⊆ E) (h : TreeSim S E t₁ t₂) (cmp : K → K → Int) (keyOf : A → K)
    {cookie : Option (TreeCookie A)} (hc : ∀ c, cookie = some c → PtrIn S c.node) :
    Follows (InsertSim S E a (insert a E)) (rbInsertHere cmp keyOf t₁ a cookie)
      (rbInsertHere cmp keyOf t₂ a cookie) := by
  refine (h.treeInsertHere cmp keyOf hc).bind ?_
  rintro ⟨r, t₁⟩ ⟨r', t₂⟩ ⟨rfl, ⟨hr, ht⟩ | ⟨hr, ht⟩⟩
  · cases r with
    | none => cases hr
    | some b => exact Follows.pure ⟨rfl, Or.inl ⟨rfl, ht⟩⟩
  · obtain rfl : r = none := hr
    have hred : TreeSim (insert a S) (insert a E) { t₁ with mem := Tree.setRed t₁.mem (some a) true }
        { t₂ with mem := Tree.setRed t₂.mem (some a) true } :=
      ⟨ht.root, ht.rootIn, ht.numNodes, ht.mem.setExtra (fun _ => rfl)
        fun b hb hne => Set.mem_of_mem_insert_of_ne hb hne⟩
    refine Follows.bind (R := TreeSim (insert a S) (insert a E)) (Follows.loop
      (fun s s' => TreeSim (insert a S) (insert a E) s.1 s'.1 ∧ PtrSim (insert a S) s.2 s'.2) ?_
      ⟨hred, rfl, ptrIn_some (Set.mem_insert a S)⟩) ?_
    · rintro ⟨t₁, node⟩ ⟨t₂, _⟩ ⟨h, rfl, hn⟩
      exact h.rbInsertStep (Set.insert_subset_insert hE) hn
    · intro t₁ t₂ h
      refine Follows.pure ⟨rfl, Or.inr ⟨rfl, h.root, h.rootIn, h.numNodes, ?_⟩⟩
      rw [← h.root]
      exact h.mem.setRed _ _

theorem TreeSim.rbRemoveRedSibling (hE : S ⊆ E) (h : TreeSim S E t₁ t₂) (hp : p ∈ S)
    (left : TreeDir) :
    Follows (fun x y => TreeSim S E x.1 y.1 ∧ PtrSim S x.2 y.2) (rbRemoveRedSibling t₁ p left)
      (rbRemoveRedSibling t₂ p left) := by
  have hs := h.mem.childIn p hp left.flip
  rw [Tree.rbRemoveRedSibling, Tree.rbRemoveRedSibling]
  simp only [← h.mem.child p hp, ← h.mem.isRed hE hs]
  split
  · refine ((h.withMem ((h.mem.setRed _ _).setRed _ _)).rbRotate hp left).bind ?_
    intro t₁ t₂ h
    exact Follows.pure ⟨h, h.mem.child p hp _, h.mem.childIn p hp _⟩
  · exact Follows.pure ⟨h, rfl, hs⟩

theorem TreeSim.rbRemoveNearRed (hE : S ⊆ E) (h : TreeSim S E t₁ t₂) (hp : p ∈ S) {s : A}
    (hs : s ∈ S) (left : TreeDir) :
    Follows (fun x y => TreeSim S E x.1 y.1 ∧ PtrSim S x.2 y.2) (rbRemoveNearRed t₁ p s left)
      (rbRemoveNearRed t₂ p s left) := by
  rw [Tree.rbRemoveNearRed, Tree.rbRemoveNearRed, ← h.mem.child s hs, ← h.mem.child s hs,
    ← h.mem.isRed hE (h.mem.childIn s hs left.flip)]
  split
  · refine ((h.withMem ((h.mem.setRed _ _).setRed _ _)).rbRotate hs left.flip).bind ?_
    intro t₁ t₂ h
    exact Follows.pure ⟨h, h.mem.child p hp _, h.mem.childIn p hp _⟩
  · exact Follows.pure ⟨h, rfl, ptrIn_some hs⟩

theorem TreeSim.rbRemoveFarRed (hE : S ⊆ E) (h : TreeSim S E t₁ t₂) (hp : p ∈ S)
    {sibling : Option A} (hs : PtrIn S sibling) (left : TreeDir) :
    Follows (TreeSim S E) (rbRemoveFarRed t₁ p sibling left) (rbRemoveFarRed t₂ p sibling left) := by
  rw [Tree.rbRemoveFarRed, Tree.rbRemoveFarRed, ← h.mem.isRed hE (ptrIn_some hp)]
  cases sibling with
  | none => exact Follows.throw .null
  | some s =>
    have hm := (h.mem.setRed (some s) (isRed t₁.mem (some p))).setRed (some p) false
    simp only [deref_some, pure_bind, ← hm.child s (hs s rfl)]
    exact (h.withMem (hm.setRed _ _)).rbRotate hp left

theorem TreeSim.rbRemoveBlackSibling (hE : S ⊆ E) (h : TreeSim S E t₁ t₂) (hp : p ∈ S) {s : A}
    (hs : s ∈ S) (left : TreeDir) :
    Follows (fun x y => TreeSim S E x.1 y.1 ∧ PtrSim S x.2 y.2) (rbRemoveBlackSibling t₁ p s left)
      (rbRemoveBlackSibling t₂ p s left) := by
  rw [Tree.rbRemoveBlackSibling, Tree.rbRemoveBlackSibling, ← h.mem.child s hs, ← h.mem.child s hs,
    ← h.mem.isRed hE (h.mem.childIn s hs left), ← h.mem.isRed hE (h.mem.childIn s hs left.flip)]
  split
  · exact Follows.pure ⟨h.withMem (h.mem.setRed _ _), rfl, ptrIn_some hp⟩
  · refine (h.rbRemoveNearRed hE hp hs left).bind ?_
    rintro ⟨t₁, sibling⟩ ⟨t₂, _⟩ ⟨h, rfl, hs⟩
    refine (h.rbRemoveFarRed hE hp hs left).bind ?_
    intro t₁ t₂ h
    exact Follows.pure ⟨h, h.root, h.rootIn⟩

theorem TreeSim.rbRemoveStep (hE : S ⊆ E) (h : TreeSim S E t₁ t₂) {node parent : Option A}
    (hn : PtrIn S node) (hp : PtrIn S parent) :
    Follows (Follows.RoundRel
      (fun s s' => TreeSim S E s.1 s'.1 ∧ PtrSim S s.2.1 s'.2.1 ∧ PtrSim S s.2.2 s'.2.2)
      (fun x y => TreeSim S E x.1 y.1 ∧ PtrSim S x.2 y.2))
      (rbRemoveStep (t₁, node, parent)) (rbRemoveStep (t₂, node, parent)) := by
  rw [Tree.rbRemoveStep, Tree.rbRemoveStep]
  simp only [← h.root, ← h.mem.isRed hE hn]
  split
  · cases parent with
    | none => exact Follows.throw .null
    | some p =>
      have hpS := hp p rfl
      simp only [deref_some, pure_bind, ← h.mem.whichDir hpS]
      refine (h.rbRemoveRedSibling hE hpS _).bind ?_
      rintro ⟨t₁', sibling⟩ ⟨t₂', _⟩ ⟨h', rfl, hs⟩
      cases sibling with
      | none => exact Follows.throw .null
      | some s =>
        refine (h'.rbRemoveBlackSibling hE hpS (hs s rfl) _).bind ?_
        rintro ⟨t₁, node⟩ ⟨t₂, _⟩ ⟨h, rfl, hn⟩
        cases node with
        | none => exact Follows.throw .null
        | some n =>
          exact Follows.pure ⟨h, ⟨rfl, hn⟩, h.mem.parent n (hn n rfl), h.mem.parentIn n (hn n rfl)⟩
  · exact Follows.pure ⟨h, rfl, hn⟩

theorem TreeSim.rbRemove (hE : S ⊆ E) (h : TreeSim S E t₁ t₂) (ha : a ∈ S) :
    Follows (TreeSim S E) (rbRemove t₁ a) (rbRemove t₂ a) := by
  refine (h.treeRemove (Or.inr hE) ha).bind ?_
  rintro ⟨t₁, parent, child'⟩ ⟨t₂, _, _⟩ ⟨h, ⟨rfl, hp⟩, rfl, hc⟩
  replace h : TreeSim S E t₁ t₂ := h
  simp only [← h.root, ← h.mem.isRed hE (ptrIn_some ha)]
  split
  · exact Follows.pure h
  · split
    · exact Follows.pure h
    · refine Follows.bind (R := fun (x : TreeTree A M₁ × Option A) (y : TreeTree A M₂ × Option A) =>
        TreeSim S E x.1 y.1 ∧ PtrSim S x.2 y.2) (Follows.loop
        (fun s s' => TreeSim S E s.1 s'.1 ∧ PtrSim S s.2.1 s'.2.1 ∧ PtrSim S s.2.2 s'.2.2) ?_
        ⟨h, ⟨rfl, hc⟩, rfl, hp⟩) ?_
      · rintro ⟨t₁, node, parent⟩ ⟨t₂, _, _⟩ ⟨h, ⟨rfl, hn⟩, rfl, hp⟩
        exact h.rbRemoveStep hE hn hp
      · rintro ⟨t₁, node⟩ ⟨t₂, _⟩ ⟨h, rfl, -⟩
        exact Follows.pure (h.withMem (h.mem.setRed _ _))

end RedBlack

end Libjeffpc.Tree
