import Libjeffpc.Tree.Proofs.FindProofs
import Libjeffpc.Tree.Proofs.FixupProofs

/-!
# What the two flavours have in common

A flavour is a pair of `insert_here` and `remove`; `IsFlavour` is what its callers may rely on: the
in-order list changes by one item, only nodes of the tree and the item itself are written, and a
shape that is `Good` stays so. For `rb_*` trees `Good` is red-black balance, for `bst_*` trees it says
nothing.
-/

set_option linter.unusedSectionVars false

namespace Libjeffpc.Tree

open Lib

variable {A M K : Type} [DecidableEq A] [TreeMem A M] [LawfulTreeMem A M]

/-- The operations in which the flavours differ. -/
structure Flavour (A M K : Type) where
  insertHere : (K → K → Int) → (A → K) → TreeTree A M → A → Option (TreeCookie A) →
    Comp (Option A × TreeTree A M)
  remove : TreeTree A M → A → Comp (TreeTree A M)

def rb (A M K : Type) [DecidableEq A] [TreeMem A M] : Flavour A M K := ⟨rbInsertHere, rbRemove⟩

def bst (A M K : Type) [DecidableEq A] [TreeMem A M] : Flavour A M K := ⟨bstInsertHere, bstRemove⟩

/-- The tree `t'` is `t` with other items: `l` before, `l'` now, `S` the nodes that may be written. -/
structure Changed (Good : BTree A → Prop) (t t' : TreeTree A M) (s' : BTree A) (l' S : List A) :
    Prop where
  rep : Rep t' s'
  good : Good s'
  list : s'.toList = l'
  off : SameOff S t.mem t'.mem

structure IsFlavour (F : Flavour A M K) (Good : BTree A → Prop) : Prop where
  good_nil : Good .nil
  insert_at : ∀ cmp keyOf (t : TreeTree A M) (k : Ctx A) a, Rep t (k.plug .nil) →
    Good (k.plug .nil) → a ∉ (k.plug .nil).toList →
    ∃ t' s', F.insertHere cmp keyOf t a (some (cookieOf k)) = pure (none, t') ∧
      Changed Good t t' s' (k.before ++ a :: k.after) (a :: (k.plug .nil).toList) ∧
      t'.numNodes = t.numNodes + 1
  insert_find : ∀ cmp keyOf (t : TreeTree A M) a, F.insertHere cmp keyOf t a none = do
    match ← treeFind cmp keyOf t (keyOf a) (some ⟨none, .left⟩) with
    | (some tmp, _) => pure (some tmp, t)
    | (none, cookie) =>
      let cookie ← deref cookie
      F.insertHere cmp keyOf t a (some cookie)
  remove_mem : ∀ (t : TreeTree A M) s x, Rep t s → Good s → x ∈ s.toList →
    ∃ t' s' l r, F.remove t x = pure t' ∧ s.toList = l ++ x :: r ∧
      Changed Good t t' s' (l ++ r) s.toList ∧ t'.numNodes = t.numNodes - 1

/-- Red-black balance. -/
structure RbBalanced (s : BTree A) : Prop where
  bal : ∃ m, s.Bal m
  black : s.red = false

theorem RbBalanced.nil : RbBalanced (.nil : BTree A) := ⟨⟨0, by simp⟩, rfl⟩

section RedBlack

variable {t : TreeTree A M} {s : BTree A} {k : Ctx A} {a : A}

/-- The new leaf is red, so only the colours of it and its parent can be wrong. -/
theorem rbInsertHere_at (cmp : K → K → Int) (keyOf : A → K) (h : Rep t (k.plug .nil))
    (hb : RbBalanced (k.plug .nil)) (ha : a ∉ (k.plug .nil).toList) :
    ∃ t' s', rbInsertHere cmp keyOf t a (some (cookieOf k)) = pure (none, t') ∧
      Changed RbBalanced t t' s' (k.before ++ a :: k.after) (a :: (k.plug .nil).toList) ∧
      t'.numNodes = t.numNodes + 1 := by
  obtain ⟨hrep1, hnum1, hoff1⟩ := treeInsertAt_spec h ha .left
  obtain ⟨m, hbal⟩ := hb.bal
  obtain ⟨n, hk, hn, -⟩ := Ctx.balCtx_of_plug hbal hb.black
  have hrep2 := hrep1.setRed true
  obtain ⟨t2, s2, hrun, hrep3, hlist, ⟨m', hbal'⟩, hnum2, hoff2⟩ :=
    rbInsertLoop_spec hrep2 ⟨rfl, hn⟩ ⟨rfl, hn⟩ hk
  have hmem : ∀ c z, z ∈ (k.plug (.mk .left a c .nil .nil)).toList → z ∈ a :: (k.plug .nil).toList := by
    intro c z hz
    rw [Ctx.mem_plug, BTree.mem_toList_mk] at hz
    rw [List.mem_cons, Ctx.mem_plug]
    simp only [BTree.toList_nil, List.not_mem_nil, or_false] at hz ⊢
    tauto
  obtain ⟨-, hred, hoff3⟩ := rbRemoveLoop_exit (k := []) hrep3 (Or.inr rfl) none
  rw [Ctx.plug_nil, hlist] at hoff3
  rw [← hrep3.root] at hred hoff3
  refine ⟨{ t2 with mem := setRed t2.mem t2.root false }, s2.blacken, ?_,
    ⟨hred, ⟨⟨m', hbal'⟩, blacken_red s2⟩, ?_, ?_⟩, hnum2.trans hnum1⟩
  · simp only [rbInsertHere, treeInsertHere, pure_bind, hrun]
  · rw [BTree.toList_blacken, hlist, Ctx.toList_plug]
    simp [BTree.mk, BTree.toList]
  · have h1 : SameOff (a :: (k.plug .nil).toList) t.mem
        (setRed (treeInsertAt t a (cookieOf k)).mem (some a) true) := hoff1.setRed (by simp) true
    exact (h1.trans (hoff2.mono (hmem true))).trans (hoff3.mono (hmem true))

theorem rbRemove_mem (h : Rep t s) (hb : RbBalanced s) (hx : a ∈ s.toList) :
    ∃ t' s' l r, rbRemove t a = pure t' ∧ s.toList = l ++ a :: r ∧
      Changed RbBalanced t t' s' (l ++ r) s.toList ∧ t'.numNodes = t.numNodes - 1 := by
  obtain ⟨t1, k, d, c, e, hrun, hrep, hcol, hshape, hnum, hoff, l, r, hl, hlr⟩ := treeRemove_spec h hx
  obtain ⟨m, hbal⟩ := hb.bal
  have hbal1 : (Ctx.plug k (.mk d a c .nil e)).Bal m := by
    rw [← BTree.bal_shape, hshape, BTree.bal_shape]
    exact hbal
  have hred1 : (Ctx.plug k (.mk d a c .nil e)).red = false := by
    rw [← BTree.red_shape, hshape, BTree.red_shape]
    exact hb.black
  obtain ⟨n, hk, hn, hok⟩ := Ctx.balCtx_of_plug hbal1 hred1
  have hmem : ∀ z ∈ (Ctx.plug k e).toList, z ∈ s.toList := by
    intro z hz
    rw [hlr, List.mem_append] at hz
    rw [hl, List.mem_append, List.mem_cons]
    tauto
  have hisred : isRed t1.mem (some a) = c := hcol
  by_cases hnone : t1.root = none
  · refine ⟨t1, _, l, r, by simp [rbRemove, hrun, hnone], hl, ⟨hrep, ?_, hlr, hoff⟩, hnum⟩
    rw [hrep.root, BTree.ptr_eq_none] at hnone
    rw [hnone]
    exact RbBalanced.nil
  cases c with
  | true =>
    -- a red node on a path can go
    obtain ⟨-, he, -, hbe⟩ := BTree.bal_red.mp hn
    obtain ⟨m', hm', hblack⟩ := Ctx.bal_plug hk hbe (by simp [he])
    exact ⟨t1, _, l, r, by simp [rbRemove, hrun, hisred], hl,
      ⟨hrep, ⟨⟨m', hm'⟩, hblack⟩, hlr, hoff⟩, hnum⟩
  | false =>
    obtain ⟨n', rfl, -, hbe⟩ := BTree.bal_black.mp hn
    have hdef : Deficit e n' := by
      cases her : e.red with
      | false => exact Or.inl ⟨her, hbe⟩
      | true =>
        obtain ⟨b, c', x, y, rfl⟩ := BTree.exists_mk (red_ptr_ne her) .left
        obtain rfl : c' = true := by simpa using her
        obtain ⟨-, -, bx, by'⟩ := BTree.bal_red.mp hbe
        refine Or.inr ⟨her, ?_⟩
        rw [BTree.blacken_mk]
        exact BTree.bal_black_succ.mpr ⟨bx, by'⟩
    obtain ⟨t2, node, s2, hloop, hrep2, hlist, hbal2, hblack, hnum2, hoff2⟩ :=
      rbRemoveLoop_spec hrep hdef hk
    refine ⟨{ t2 with mem := setRed t2.mem node false }, s2, l, r, ?_, hl,
      ⟨hrep2, ⟨hbal2, hblack⟩, hlist.trans hlr, hoff.trans (hoff2.mono hmem)⟩, hnum2.trans hnum⟩
    simp only [rbRemove, hrun, pure_bind, hnone, if_false, hisred, Bool.false_eq_true, hloop]

theorem rb_isFlavour : IsFlavour (rb A M K) RbBalanced where
  good_nil := RbBalanced.nil
  insert_at cmp keyOf _ _ _ h hb ha := rbInsertHere_at cmp keyOf h hb ha
  insert_find cmp keyOf t a := by
    show rbInsertHere cmp keyOf t a none = _
    rw [rbInsertHere, treeInsertHere]
    simp only [bind_assoc]
    refine bind_congr fun r => ?_
    rcases r with ⟨_ | tmp, cookie⟩
    · cases cookie <;> rfl
    · rfl
  remove_mem _ _ _ h hb hx := rbRemove_mem h hb hx

end RedBlack

theorem bst_isFlavour : IsFlavour (bst A M K) (fun _ => True) where
  good_nil := trivial
  insert_at cmp keyOf t k a h _ ha := by
    obtain ⟨hrep, hnum, hoff⟩ := treeInsertAt_spec h ha .left
    refine ⟨_, _, rfl, ⟨hrep, trivial, ?_, hoff⟩, hnum⟩
    rw [Ctx.toList_plug]
    simp [BTree.mk, BTree.toList]
  insert_find cmp keyOf t a := by
    show bstInsertHere cmp keyOf t a none = _
    rw [bstInsertHere, treeInsertHere]
    refine bind_congr fun r => ?_
    rcases r with ⟨_ | tmp, cookie⟩
    · cases cookie <;> rfl
    · rfl
  remove_mem t s x h _ hx := by
    obtain ⟨t1, k, d, c, e, hrun, hrep, -, -, hnum, hoff, l, r, hl, hlr⟩ := treeRemove_spec h hx
    refine ⟨t1, _, l, r, ?_, hl, ⟨hrep, trivial, hlr, hoff⟩, hnum⟩
    show bstRemove t x = _
    simp [bstRemove, hrun]

section Insert

variable {F : Flavour A M K} {Good : BTree A → Prop} {cmp : K → K → Int} {keyOf : A → K}
  {t : TreeTree A M} {s : BTree A}

/-- What an insertion into a tree with the items of `s` does when nothing compares equal. -/
def Inserted (Good : BTree A → Prop) (cmp : K → K → Int) (keyOf : A → K) (t : TreeTree A M)
    (s : BTree A) (a : A) (run : Comp (Option A × TreeTree A M)) : Prop :=
  ∃ t' s' l r, run = pure (none, t') ∧ s.toList = l ++ r ∧
    Changed Good t t' s' (l ++ a :: r) (a :: s.toList) ∧ Increasing cmp keyOf (l ++ a :: r) ∧
    t'.numNodes = t.numNodes + 1

theorem IsFlavour.insert_cookie (hF : IsFlavour F Good) (hc : IsCmp cmp) {k : Ctx A} {a : A}
    (h : Rep t (k.plug .nil)) (hg : Good (k.plug .nil))
    (hs : Increasing cmp keyOf (k.plug .nil).toList) (hk : Around cmp keyOf (keyOf a) k) :
    Inserted Good cmp keyOf t (k.plug .nil) a (F.insertHere cmp keyOf t a (some (cookieOf k))) := by
  have ha : a ∉ (k.plug .nil).toList := fun hm => hk.ne hm (hc.refl _)
  obtain ⟨t', s', hrun, hch, hnum⟩ := hF.insert_at cmp keyOf t k a h hg ha
  refine ⟨t', s', k.before, k.after, hrun, ?_, hch, hk.increasing hc hs, hnum⟩
  rw [Ctx.toList_plug]
  simp

/-- `insert`: the item that compares equal, or the new item in its place. -/
theorem IsFlavour.insert_spec (hF : IsFlavour F Good) (hc : IsCmp cmp) (h : Rep t s) (hg : Good s)
    (hs : Increasing cmp keyOf s.toList) (a : A) :
    (∃ b, F.insertHere cmp keyOf t a none = pure (some b, t) ∧ b ∈ s.toList ∧
      cmp (keyOf a) (keyOf b) = 0) ∨
    ((∀ b ∈ s.toList, cmp (keyOf a) (keyOf b) ≠ 0) ∧
      Inserted Good cmp keyOf t s a (F.insertHere cmp keyOf t a none)) := by
  rw [hF.insert_find]
  rcases treeFind_spec hc h hs (keyOf a) (some ⟨none, .left⟩) with
    ⟨b, hrun, hb, h0⟩ | ⟨k, hrun, rfl, hk⟩
  · exact Or.inl ⟨b, by simp [hrun], hb, h0⟩
  · refine Or.inr ⟨fun b hb => hk.ne hb, ?_⟩
    have := hF.insert_cookie hc h hg hs hk
    simpa only [hrun, pure_bind, Option.map_some, deref_some] using this

/-- What is known of a reachable tree. -/
structure Shaped (Good : BTree A → Prop) (cmp : K → K → Int) (keyOf : A → K) (t : TreeTree A M)
    (s : BTree A) : Prop where
  rep : Rep t s
  good : Good s
  increasing : Increasing cmp keyOf s.toList
  numNodes : t.numNodes = s.size

theorem Shaped.inserted (h : Shaped Good cmp keyOf t s) {a : A}
    {run : Comp (Option A × TreeTree A M)} (hi : Inserted Good cmp keyOf t s a run) :
    ∃ t' s', Shaped Good cmp keyOf t' s' ∧ run = pure (none, t') ∧ s'.toList.Perm (a :: s.toList) := by
  obtain ⟨t', s', l, l', hrun, hl, hch, hinc, hnum⟩ := hi
  refine ⟨t', s', ⟨hch.rep, hch.good, by rw [hch.list]; exact hinc, ?_⟩, hrun, ?_⟩
  · rw [hnum, h.numNodes, ← BTree.length_toList, ← BTree.length_toList, hch.list, hl]
    simp only [List.length_append, List.length_cons]
    omega
  · rw [hch.list, hl]
    exact List.perm_middle

theorem Shaped.create (hF : IsFlavour F Good) {cmp : K → K → Int} {keyOf : A → K} (m : M) :
    Shaped Good cmp keyOf (rbCreate m) .nil :=
  ⟨⟨rfl, trivial, List.nodup_nil⟩, hF.good_nil, List.Pairwise.nil, rfl⟩

/-- The program writes to objects outside of the tree. -/
theorem Shaped.outside (h : Shaped Good cmp keyOf t s) {keyOf' : A → K} {t' : TreeTree A M}
    (hroot : t'.root = t.root) (hnum : t'.numNodes = t.numNodes)
    (hnode : ∀ a, Member t a → (∀ d, child t'.mem a d = child t.mem a d) ∧
      getParent t'.mem a = getParent t.mem a ∧ getExtra t'.mem a = getExtra t.mem a)
    (hkey : ∀ a, Member t a → keyOf' a = keyOf a) : Shaped Good cmp keyOf' t' s := by
  have hm : ∀ a ∈ s.toList, Member t a := fun a ha => (h.rep.member_iff a).mpr ha
  exact ⟨⟨hroot.trans h.rep.root, h.rep.repr.frame fun a ha => hnode a (hm a ha), h.rep.nodup⟩, h.good,
    h.increasing.congr fun a ha => hkey a (hm a ha), hnum.trans h.numNodes⟩

theorem Shaped.insert (h : Shaped Good cmp keyOf t s) (hF : IsFlavour F Good) (hc : IsCmp cmp) {a : A}
    {r : Option A} {t' : TreeTree A M} (hrun : F.insertHere cmp keyOf t a none = pure (r, t')) :
    ∃ s', Shaped Good cmp keyOf t' s' := by
  rcases hF.insert_spec hc h.rep h.good h.increasing a with ⟨b, hrun', -⟩ | ⟨-, hins⟩
  · obtain rfl : t' = t := congrArg Prod.snd (pure_inj (hrun.symm.trans hrun'))
    exact ⟨s, h⟩
  · obtain ⟨t1, s', hs', hrun', -⟩ := h.inserted hins
    obtain rfl : t' = t1 := congrArg Prod.snd (pure_inj (hrun.symm.trans hrun'))
    exact ⟨s', hs'⟩

/-- The failed search behind a cookie. -/
theorem Shaped.cookie (h : Shaped Good cmp keyOf t s) (hc : IsCmp cmp) {key : K} {cookie₀ cookie : TreeCookie A}
    (hfind : treeFind cmp keyOf t key (some cookie₀) = pure (none, some cookie)) :
    ∃ k, cookie = cookieOf k ∧ s = Ctx.plug k .nil ∧ Around cmp keyOf key k := by
  rcases treeFind_spec hc h.rep h.increasing key (some cookie₀) with ⟨b, hrun, -⟩ | ⟨k, hrun, hp, hk⟩
  · cases pure_inj (hfind.symm.trans hrun)
  · cases pure_inj (hfind.symm.trans hrun)
    exact ⟨k, rfl, hp, hk⟩

theorem Shaped.insertHere (h : Shaped Good cmp keyOf t s) (hF : IsFlavour F Good) (hc : IsCmp cmp) {a : A}
    {r : Option A} {t' : TreeTree A M} {key : K} {cookie₀ cookie : TreeCookie A}
    (hfind : treeFind cmp keyOf t key (some cookie₀) = pure (none, some cookie))
    (hkey : cmp key (keyOf a) = 0) (hrun : F.insertHere cmp keyOf t a (some cookie) = pure (r, t')) :
    ∃ s', Shaped Good cmp keyOf t' s' := by
  obtain ⟨k, rfl, rfl, hk⟩ := h.cookie hc hfind
  obtain ⟨t1, s', hs', hrun', -⟩ :=
    h.inserted (hF.insert_cookie hc h.rep h.good h.increasing (hk.congr hc hkey))
  obtain rfl : t' = t1 := congrArg Prod.snd (pure_inj (hrun.symm.trans hrun'))
  exact ⟨s', hs'⟩

theorem Shaped.removed (h : Shaped Good cmp keyOf t s) (hF : IsFlavour F Good) {a : A} (ha : Member t a) :
    ∃ t' s', Shaped Good cmp keyOf t' s' ∧ F.remove t a = pure t' ∧ s.toList.Perm (a :: s'.toList) := by
  obtain ⟨t', s', l, r, hrun, hl, hch, hnum⟩ := hF.remove_mem t s a h.rep h.good ((h.rep.member_iff a).mp ha)
  have hinc := h.increasing
  rw [hl] at hinc
  refine ⟨t', s', ⟨hch.rep, hch.good, by rw [hch.list]; exact hinc.remove, ?_⟩, hrun, ?_⟩
  · rw [hnum, h.numNodes, ← BTree.length_toList, ← BTree.length_toList, hch.list, hl]
    simp only [List.length_append, List.length_cons]
    omega
  · rw [hch.list, hl]
    exact List.perm_middle

/-- Items inserted one after the other. -/
def Flavour.insertAll (F : Flavour A M K) (cmp : K → K → Int) (keyOf : A → K) :
    TreeTree A M → List A → Comp (TreeTree A M)
  | t, [] => pure t
  | t, a :: items => do
    let r ← F.insertHere cmp keyOf t a none
    F.insertAll cmp keyOf r.2 items

/-- Items that all compare different get into the tree, by induction on the items. -/
theorem IsFlavour.insertAll_spec (hF : IsFlavour F Good) (hc : IsCmp cmp) {P : TreeTree A M → Prop}
    (hP : ∀ {t t' a r}, P t → F.insertHere cmp keyOf t a none = pure (r, t') → P t') {items : List A}
    (hp : P t) (hs : Shaped Good cmp keyOf t s)
    (hne : ∀ a ∈ items, ∀ b ∈ s.toList, cmp (keyOf a) (keyOf b) ≠ 0)
    (hd : items.Pairwise fun a b => cmp (keyOf b) (keyOf a) ≠ 0) :
    ∃ t' s', F.insertAll cmp keyOf t items = pure t' ∧ P t' ∧ Shaped Good cmp keyOf t' s' ∧
      s'.toList.Perm (items ++ s.toList) := by
  induction items generalizing t s with
  | nil => exact ⟨t, s, rfl, hp, hs, List.Perm.refl _⟩
  | cons a items ih =>
    rw [List.forall_mem_cons] at hne
    rw [List.pairwise_cons] at hd
    obtain ⟨-, hins⟩ := (hF.insert_spec hc hs.rep hs.good hs.increasing a).resolve_left
      (by rintro ⟨b, -, hb, h0⟩; exact hne.1 b hb h0)
    obtain ⟨t1, s1, hs1, hrun, hperm⟩ := hs.inserted hins
    obtain ⟨t', s', hrun', hp', hs', hperm'⟩ := ih (hP hp hrun) hs1 (fun b hb c hc => by
      rcases List.mem_cons.mp (hperm.mem_iff.mp hc) with rfl | hc
      · exact hd.1 b hb
      · exact hne.2 b hb c hc) hd.2
    refine ⟨t', s', ?_, hp', hs', hperm'.trans ?_⟩
    · rw [Flavour.insertAll, hrun, pure_bind, hrun']
    · exact (List.Perm.append_left items hperm).trans List.perm_middle

end Insert

end Libjeffpc.Tree
