import Libjeffpc.Tree.OrderedSet
import Libjeffpc.Tree.Proofs.InvariantProofs

/-!
# Both flavours refine the ordered set

The simulation relation `Sim` ties a tree to a set: the in-order list of the tree is increasing and
has the items of the set, and a cookie leads to the hole where the missed key belongs.
-/

set_option linter.unusedSectionVars false

namespace Libjeffpc.Tree

open Lib

section Spec

variable {A K : Type} [DecidableEq A] {cmp : K → K → Int} {σ σ' σ'' : SetState A K}
  {c : Call A K} {cs : List (Call A K)} {r r' : Result A} {rs rs' : List (Result A)}

/-- No two items of the set compare equal. -/
def SetState.Distinct (cmp : K → K → Int) (σ : SetState A K) : Prop :=
  ∀ a ∈ σ.items, ∀ b ∈ σ.items, cmp (σ.keyOf a) (σ.keyOf b) = 0 → a = b

/-- The items that compare equal with a key are one item. -/
theorem SetState.Distinct.unique (hc : IsCmp cmp) (hd : σ.Distinct cmp) {key : K} {a b : A}
    (ha : a ∈ σ.items) (hb : b ∈ σ.items) (h1 : cmp key (σ.keyOf a) = 0)
    (h2 : cmp key (σ.keyOf b) = 0) : a = b :=
  hd a ha b hb ((hc.eq_congr_left h1).mp h2)

/-- A least item is the only one, and so is a greatest item. -/
theorem SetState.Distinct.extreme (hc : IsCmp cmp) (hd : σ.Distinct cmp) {a b : A}
    (ha : a ∈ σ.items) (hb : b ∈ σ.items) (h1 : cmp (σ.keyOf a) (σ.keyOf b) ≤ 0)
    (h2 : cmp (σ.keyOf b) (σ.keyOf a) ≤ 0) : a = b := by
  refine hd a ha b hb ?_
  have := hc.swap (σ.keyOf a) (σ.keyOf b)
  omega

/-- The set determines what a call returns and does. -/
theorem SetStep.det (hc : IsCmp cmp) (hd : σ.Distinct cmp) (h : SetStep cmp σ c r σ')
    (h' : SetStep cmp σ c r' σ'') : r' = r ∧ σ'' = σ' := by
  cases h with
  | insertPresent hb h1 =>
    cases h' with
    | insertPresent hb' h2 => rw [hd.unique hc hb hb' h1 h2]; exact ⟨rfl, rfl⟩
    | insertNew h2 => exact absurd h1 (h2 _ hb)
  | insertNew h1 =>
    cases h' with
    | insertPresent hb' h2 => exact absurd h2 (h1 _ hb')
    | insertNew h2 => exact ⟨rfl, rfl⟩
  | findHit hb h1 =>
    cases h' with
    | findHit hb' h2 => rw [hd.unique hc hb hb' h1 h2]; exact ⟨rfl, rfl⟩
    | findMiss h2 => exact absurd h1 (h2 _ hb)
  | findMiss h1 =>
    cases h' with
    | findHit hb' h2 => exact absurd h2 (h1 _ hb')
    | findMiss h2 => exact ⟨rfl, rfl⟩
  | firstItem ha h1 =>
    cases h' with
    | firstItem ha' h2 => rw [hd.extreme hc ha ha' (h1 _ ha') (h2 _ ha)]; exact ⟨rfl, rfl⟩
    | firstNone h2 => simp [h2] at ha
  | firstNone h1 =>
    cases h' with
    | firstItem ha' h2 => simp [h1] at ha'
    | firstNone h2 => exact ⟨rfl, rfl⟩
  | lastItem ha h1 =>
    cases h' with
    | lastItem ha' h2 => rw [hd.extreme hc ha ha' (h2 _ ha) (h1 _ ha')]; exact ⟨rfl, rfl⟩
    | lastNone h2 => simp [h2] at ha
  | lastNone h1 =>
    cases h' with
    | lastItem ha' h2 => simp [h1] at ha'
    | lastNone h2 => exact ⟨rfl, rfl⟩
  | insertHere => cases h'; exact ⟨rfl, rfl⟩
  | remove => cases h'; exact ⟨rfl, rfl⟩
  | numnodes => cases h'; exact ⟨rfl, rfl⟩
  | isEmpty => cases h'; exact ⟨rfl, rfl⟩
  | rekey => cases h'; exact ⟨rfl, rfl⟩

end Spec

variable {A M K : Type} [DecidableEq A] [TreeMem A M] [LawfulTreeMem A M] {cmp : K → K → Int}

/-- The tree of `τ`, which has the shape `s`, holds the set `σ`. -/
structure Holds (Good : BTree A → Prop) (cmp : K → K → Int) (σ : SetState A K)
    (τ : TreeState A M K) (s : BTree A) : Prop where
  rep : Rep τ.tree s
  good : Good s
  keys : τ.keyOf = σ.keyOf
  increasing : Increasing cmp σ.keyOf s.toList
  items : ∀ a, a ∈ σ.items ↔ a ∈ s.toList
  numNodes : τ.tree.numNodes = s.size
  cookie : ∀ key, σ.missed = some key →
    ∃ k, τ.cookie = some (cookieOf k) ∧ s = Ctx.plug k .nil ∧ Around cmp σ.keyOf key k

def Sim (Good : BTree A → Prop) (cmp : K → K → Int) (σ : SetState A K) (τ : TreeState A M K) : Prop :=
  ∃ s, Holds Good cmp σ τ s

section Sim

variable {F : Flavour A M K} {Good : BTree A → Prop} {σ : SetState A K} {τ : TreeState A M K}
  {s : BTree A}

theorem Holds.distinct (hc : IsCmp cmp) (h : Holds Good cmp σ τ s) : σ.Distinct cmp :=
  fun a ha b hb hab => h.increasing.eq_of_cmp hc ((h.items a).mp ha) ((h.items b).mp hb) hab

theorem Holds.card (h : Holds Good cmp σ τ s) : σ.items.card = s.size := by
  have hs : σ.items = s.toList.toFinset := by
    ext a
    rw [h.items, List.mem_toFinset]
  rw [hs, List.toFinset_card_of_nodup h.rep.nodup, BTree.length_toList]

/-- A call that leaves the tree alone. -/
theorem Holds.forget (h : Holds Good cmp σ τ s) :
    Holds Good cmp { σ with missed := none } { τ with cookie := none } s :=
  ⟨h.rep, h.good, h.keys, h.increasing, h.items, h.numNodes, by simp⟩

theorem Holds.inserted (h : Holds Good cmp σ τ s) {a : A} {run : Comp (Option A × TreeTree A M)}
    (hi : Inserted Good cmp σ.keyOf τ.tree s a run) :
    ∃ t', run = pure (none, t') ∧ Sim Good cmp { σ with items := insert a σ.items, missed := none }
      { τ with tree := t', cookie := none } := by
  obtain ⟨t', s', l, l', hrun, hl, hch, hinc, hnum⟩ := hi
  refine ⟨t', hrun, s', hch.rep, hch.good, h.keys, by rw [hch.list]; exact hinc, ?_, ?_, by simp⟩
  · intro b
    rw [Finset.mem_insert, h.items, hch.list, hl]
    simp only [List.mem_append, List.mem_cons]
    tauto
  · show t'.numNodes = _
    rw [hnum, h.numNodes, ← BTree.length_toList, ← BTree.length_toList, hch.list, hl]
    simp only [List.length_append, List.length_cons]
    omega

theorem Holds.removed (hF : IsFlavour F Good) (h : Holds Good cmp σ τ s) {a : A}
    (ha : a ∈ σ.items) :
    ∃ t', F.remove τ.tree a = pure t' ∧ Sim Good cmp { σ with items := σ.items.erase a, missed := none }
      { τ with tree := t', cookie := none } := by
  obtain ⟨t', s', l, r, hrun, hl, hch, hnum⟩ := hF.remove_mem _ s a h.rep h.good ((h.items a).mp ha)
  have hinc := h.increasing
  have hnd := h.rep.nodup
  rw [hl] at hinc hnd
  refine ⟨t', hrun, s', hch.rep, hch.good, h.keys, by rw [hch.list]; exact hinc.remove, ?_, ?_,
    by simp⟩
  · intro b
    have hal : a ∉ l ++ r := (List.nodup_cons.mp (List.nodup_middle.mp hnd)).1
    rw [Finset.mem_erase, h.items, hch.list, hl]
    by_cases hb : b = a
    · subst hb
      simp only [ne_eq, not_true_eq_false, false_and, hal]
    · simp only [ne_eq, hb, not_false_eq_true, true_and, List.mem_append, List.mem_cons, false_or]
  · show t'.numNodes = _
    rw [hnum, h.numNodes, ← BTree.length_toList, ← BTree.length_toList, hch.list, hl]
    simp only [List.length_append, List.length_cons]
    omega

theorem Holds.first (hc : IsCmp cmp) (h : Holds Good cmp σ τ s) :
    SetStep cmp σ .first (.item s.toList.head?) { σ with missed := none } := by
  cases hl : s.toList with
  | nil =>
    refine .firstNone (Finset.eq_empty_of_forall_notMem fun a ha => ?_)
    rw [h.items, hl] at ha
    simp at ha
  | cons a l =>
    have hinc := h.increasing
    rw [hl] at hinc
    refine .firstItem (by rw [h.items, hl]; simp) (fun b hb => hinc.head_le hc ?_)
    rw [← hl]
    exact (h.items b).mp hb

theorem Holds.last (hc : IsCmp cmp) (h : Holds Good cmp σ τ s) :
    SetStep cmp σ .last (.item s.toList.getLast?) { σ with missed := none } := by
  rcases List.eq_nil_or_concat s.toList with hl | ⟨l, a, hl⟩
  · rw [hl]
    refine .lastNone (Finset.eq_empty_of_forall_notMem fun a ha => ?_)
    rw [h.items, hl] at ha
    simp at ha
  · rw [List.concat_eq_append] at hl
    have hinc := h.increasing
    rw [hl] at hinc ⊢
    rw [List.getLast?_concat]
    refine .lastItem (by rw [h.items, hl]; simp) (fun b hb => hinc.le_last hc ?_)
    rw [← hl]
    exact (h.items b).mp hb

/-- A legal call on the tree returns what the set says, and the two stay related. -/
theorem step_sim (hc : IsCmp cmp) (hF : IsFlavour F Good) (h : Holds Good cmp σ τ s) {c : Call A K}
    (hl : Legal cmp σ c) :
    ∃ r σ' τ', F.step cmp τ c = pure (r, τ') ∧ SetStep cmp σ c r σ' ∧ Sim Good cmp σ' τ' := by
  have hkeys := h.keys
  cases c with
  | insert a =>
    rcases hF.insert_spec hc h.rep h.good h.increasing a with ⟨b, hrun, hb, h0⟩ | ⟨hne, hi⟩
    · exact ⟨_, _, _, by simp [Flavour.step, hkeys, hrun],
        .insertPresent ((h.items b).mpr hb) h0, s, h.forget⟩
    · obtain ⟨t', hrun, hsim⟩ := h.inserted hi
      exact ⟨_, _, _, by simp [Flavour.step, hkeys, hrun],
        .insertNew (fun b hb => hne b ((h.items b).mp hb)), hkeys ▸ hsim⟩
  | insertHere a =>
    obtain ⟨key, hm, h0⟩ := hl
    obtain ⟨k, hck, rfl, hk⟩ := h.cookie key hm
    obtain ⟨t', hrun, hsim⟩ := h.inserted
      (hF.insert_cookie hc h.rep h.good h.increasing (hk.congr hc h0))
    exact ⟨_, _, _, by simp [Flavour.step, hkeys, hck, hrun], .insertHere, hkeys ▸ hsim⟩
  | remove a =>
    obtain ⟨t', hrun, hsim⟩ := h.removed hF hl
    exact ⟨_, _, _, by simp [Flavour.step, hrun], .remove, hsim⟩
  | find key =>
    rcases treeFind_spec hc h.rep h.increasing key (some ⟨none, .left⟩) with
      ⟨b, hrun, hb, h0⟩ | ⟨k, hrun, hp, hk⟩
    · exact ⟨_, _, _, by simp [Flavour.step, hkeys, hrun], .findHit ((h.items b).mpr hb) h0, s,
        h.forget⟩
    · refine ⟨_, _, { τ with cookie := some (cookieOf k) }, by simp [Flavour.step, hkeys, hrun],
        .findMiss (fun b hb => hk.ne ?_), s, h.rep, h.good, hkeys, h.increasing, h.items, h.numNodes,
        ?_⟩
      · rw [← hp]
        exact (h.items b).mp hb
      · rintro key' ⟨⟩
        exact ⟨k, rfl, hp, hk⟩
  | first =>
    exact ⟨_, _, _, by simp [Flavour.step, treeFirst_spec h.rep], h.first hc, s, h.forget⟩
  | last =>
    exact ⟨_, _, _, by simp [Flavour.step, treeLast_spec h.rep], h.last hc, s, h.forget⟩
  | numnodes =>
    refine ⟨_, _, _, rfl, ?_, s, h.forget⟩
    rw [treeNumnodes, h.numNodes, ← h.card]
    exact .numnodes
  | isEmpty =>
    refine ⟨_, _, _, rfl, ?_, s, h.forget⟩
    have he : treeIsEmpty τ.tree = decide (σ.items = ∅) := by
      rw [treeIsEmpty, h.numNodes, ← h.card, Bool.eq_iff_iff]
      simp
    rw [he]
    exact .isEmpty
  | rekey keyOf =>
    have hl' : ∀ a ∈ s.toList, keyOf a = σ.keyOf a := fun a ha => hl a ((h.items a).mpr ha)
    exact ⟨_, _, _, rfl, .rekey, s, h.rep, h.good, rfl, h.increasing.congr hl', h.items, h.numNodes,
      by simp⟩

/-- A legal sequence of calls, by induction on it. -/
theorem run_sim (hc : IsCmp cmp) (hF : IsFlavour F Good) (h : Sim Good cmp σ τ)
    {cs : List (Call A K)} (hl : LegalRun cmp σ cs) :
    ∃ rs σ' τ', F.run cmp τ cs = pure (rs, τ') ∧ SetRun cmp σ cs rs σ' ∧ Sim Good cmp σ' τ' ∧
      ∀ rs' σ'', SetRun cmp σ cs rs' σ'' → rs' = rs ∧ σ'' = σ' := by
  induction cs generalizing σ τ with
  | nil =>
    refine ⟨[], σ, τ, rfl, .nil σ, h, ?_⟩
    intro rs' σ'' h'
    cases h'
    exact ⟨rfl, rfl⟩
  | cons c cs ih =>
    obtain ⟨s, hs⟩ := h
    obtain ⟨hl1, hl2⟩ := hl
    obtain ⟨r, σ1, τ1, hrun1, hstep, hsim1⟩ := step_sim hc hF hs hl1
    obtain ⟨rs, σ2, τ2, hrun2, hset, hsim2, hdet⟩ := ih hsim1 (hl2 r σ1 hstep)
    refine ⟨r :: rs, σ2, τ2, by simp [Flavour.run, hrun1, hrun2], .cons hstep hset, hsim2, ?_⟩
    intro rs' σ'' h'
    cases h' with
    | cons hstep' hset' =>
      obtain ⟨rfl, rfl⟩ := hstep.det hc (hs.distinct hc) hstep'
      obtain ⟨rfl, rfl⟩ := hdet _ _ hset'
      exact ⟨rfl, rfl⟩

end Sim

theorem sim_empty {F : Flavour A M K} {Good : BTree A → Prop} (hF : IsFlavour F Good)
    (keyOf : A → K) (t : TreeTree A M) (hr : t.root = none) (hn : t.numNodes = 0) :
    Sim Good cmp (SetState.empty keyOf) ⟨t, keyOf, none⟩ :=
  ⟨.nil, ⟨hr, trivial, by simp⟩, hF.good_nil, rfl, List.Pairwise.nil, by simp [SetState.empty],
    by simp [hn, BTree.size], by simp [SetState.empty]⟩

/-- For every legal sequence of calls from an empty tree, the set has exactly one run, both flavours
return its results, and both trees then have its items. -/
theorem flavours_refine_ordered_set {M₁ M₂ : Type} [TreeMem A M₁] [LawfulTreeMem A M₁]
    [TreeMem A M₂] [LawfulTreeMem A M₂] (hc : IsCmp cmp) (keyOf : A → K) (m₁ : M₁) (m₂ : M₂)
    (cs : List (Call A K)) (hl : LegalRun cmp (SetState.empty keyOf) cs) :
    ∃ rs σ, SetRun cmp (SetState.empty keyOf) cs rs σ ∧
      (∀ rs' σ', SetRun cmp (SetState.empty keyOf) cs rs' σ' → rs' = rs ∧ σ' = σ) ∧
      (∃ τ, (rb A M₁ K).run cmp ⟨rbCreate m₁, keyOf, none⟩ cs = pure (rs, τ) ∧
        ∀ a, Member τ.tree a ↔ a ∈ σ.items) ∧
      (∃ τ, (bst A M₂ K).run cmp ⟨bstCreate m₂, keyOf, none⟩ cs = pure (rs, τ) ∧
        ∀ a, Member τ.tree a ↔ a ∈ σ.items) := by
  obtain ⟨rs, σ, τ₁, hrun₁, hset, ⟨s₁, hs₁⟩, hdet⟩ := run_sim hc rb_isFlavour
    (sim_empty rb_isFlavour keyOf (rbCreate m₁) rfl rfl) hl
  obtain ⟨rs', σ', τ₂, hrun₂, hset', ⟨s₂, hs₂⟩, -⟩ := run_sim hc bst_isFlavour
    (sim_empty bst_isFlavour keyOf (bstCreate m₂) rfl rfl) hl
  obtain ⟨rfl, rfl⟩ := hdet rs' σ' hset'
  exact ⟨rs', σ', hset, hdet,
    ⟨τ₁, hrun₁, fun a => (hs₁.rep.member_iff a).trans (hs₁.items a).symm⟩,
    ⟨τ₂, hrun₂, fun a => (hs₂.rep.member_iff a).trans (hs₂.items a).symm⟩⟩

/-- A program that inserts 5, looks for 7, inserts it where it belongs, and removes 5. -/
theorem flavours_refine_ordered_set_insert_remove :
    ∃ rs σ, SetRun intCmp (SetState.empty id)
      [.insert (5 : Int), .find 7, .insertHere 7, .remove 5, .first] rs σ ∧
      ∃ τ, (rb Int (PlainMem Int) Int).run intCmp ⟨rbCreate (freshMem Int), id, none⟩
        [.insert 5, .find 7, .insertHere 7, .remove 5, .first] = pure (rs, τ) := by
  have hl : LegalRun intCmp (SetState.empty id)
      [.insert (5 : Int), .find 7, .insertHere 7, .remove 5, .first] := by
    refine ⟨trivial, fun r σ h => ?_⟩
    cases h with
    | insertPresent hb => simp [SetState.empty] at hb
    | insertNew =>
      refine ⟨trivial, fun r σ h => ?_⟩
      cases h with
      | findHit hb h0 =>
        simp only [SetState.empty, Finset.mem_insert, Finset.notMem_empty, or_false] at hb
        subst hb
        exact absurd h0 (by decide)
      | findMiss =>
        refine ⟨⟨7, rfl, by decide⟩, fun r σ h => ?_⟩
        cases h
        refine ⟨by simp [SetState.empty, Legal], fun r σ h => ?_⟩
        cases h
        exact ⟨trivial, fun _ _ _ => trivial⟩
  obtain ⟨rs, σ, hset, -, ⟨τ, hrun, -⟩, -⟩ :=
    flavours_refine_ordered_set intCmp_isCmp id (freshMem Int) (freshMem Int) _ hl
  exact ⟨rs, σ, hset, τ, hrun⟩

end Libjeffpc.Tree
