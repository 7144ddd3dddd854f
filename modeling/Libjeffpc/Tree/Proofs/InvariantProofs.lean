import Libjeffpc.Tree.Proofs.FlavourProofs

/-!
# The red-black invariant over whole runs

A program that uses one red-black tree creates it, inserts and removes items, and does what it likes
with objects that are not in the tree. `RbReachable` are the states it can be in; the keys of the
objects are part of the state, since an object may get another key while it is not in the tree.
-/

set_option linter.unusedSectionVars false

namespace Libjeffpc.Tree

open Lib

variable {A M K : Type} [DecidableEq A] [TreeMem A M]

inductive RbReachable (cmp : K → K → Int) : (A → K) → TreeTree A M → Prop where
  | create (keyOf : A → K) (m : M) : RbReachable cmp keyOf (rbCreate m)
  /-- The program writes to objects outside of the tree. -/
  | outside {keyOf keyOf' : A → K} {t t' : TreeTree A M} (h : RbReachable cmp keyOf t)
      (hroot : t'.root = t.root) (hnum : t'.numNodes = t.numNodes)
      (hnode : ∀ a, Member t a → (∀ d, child t'.mem a d = child t.mem a d) ∧
        getParent t'.mem a = getParent t.mem a ∧ getExtra t'.mem a = getExtra t.mem a)
      (hkey : ∀ a, Member t a → keyOf' a = keyOf a) : RbReachable cmp keyOf' t'
  /-- `rb_insert`, or `rb_insert_here` with NULL. -/
  | insert {keyOf : A → K} {t t' : TreeTree A M} {a : A} {r : Option A} (h : RbReachable cmp keyOf t)
      (hrun : rbInsertHere cmp keyOf t a none = pure (r, t')) : RbReachable cmp keyOf t'
  /-- `rb_insert_here` with the cookie of a failed `rb_find` for the key of the item. -/
  | insertHere {keyOf : A → K} {t t' : TreeTree A M} {a : A} {r : Option A} {key : K}
      {cookie₀ cookie : TreeCookie A} (h : RbReachable cmp keyOf t)
      (hfind : rbFind cmp keyOf t key (some cookie₀) = pure (none, some cookie))
      (hkey : cmp key (keyOf a) = 0)
      (hrun : rbInsertHere cmp keyOf t a (some cookie) = pure (r, t')) : RbReachable cmp keyOf t'
  | remove {keyOf : A → K} {t t' : TreeTree A M} {a : A} (h : RbReachable cmp keyOf t)
      (ha : Member t a) (hrun : rbRemove t a = pure t') : RbReachable cmp keyOf t'

structure RbInvariant (cmp : K → K → Int) (keyOf : A → K) (t : TreeTree A M) (s : BTree A) :
    Prop where
  rep : Rep t s
  increasing : Increasing cmp keyOf s.toList
  rootBlack : s.red = false
  noRedRed : s.NoRedRed
  blackHeight : ∃ n, s.BlackHeight n
  height : s.height ≤ 2 * Nat.log 2 (s.size + 1)
  numNodes : t.numNodes = s.size

variable [LawfulTreeMem A M] {cmp : K → K → Int} {keyOf : A → K} {t : TreeTree A M} {s : BTree A}

theorem RbInvariant.of_shaped (h : Shaped RbBalanced cmp keyOf t s) : RbInvariant cmp keyOf t s := by
  obtain ⟨⟨n, hbal⟩, hblack⟩ := h.good
  exact ⟨h.rep, h.increasing, hblack, hbal.1, ⟨n, hbal.2⟩, BTree.height_le_log hbal hblack, h.numNodes⟩

/-- One step lemma for each kind of step, put together by induction on the run. -/
theorem RbReachable.shaped (hc : IsCmp cmp) (h : RbReachable cmp keyOf t) :
    ∃ s, Shaped RbBalanced cmp keyOf t s := by
  induction h with
  | create keyOf m => exact ⟨.nil, Shaped.create (rb_isFlavour (K := K)) m⟩
  | outside _ hroot hnum hnode hkey ih =>
    obtain ⟨s, hs⟩ := ih
    exact ⟨s, hs.outside hroot hnum hnode hkey⟩
  | @insert keyOf t t' a r _ hrun ih =>
    obtain ⟨s, hs⟩ := ih
    exact hs.insert rb_isFlavour hc hrun
  | @insertHere keyOf t t' a r key cookie₀ cookie _ hfind hkey hrun ih =>
    obtain ⟨s, hs⟩ := ih
    exact hs.insertHere rb_isFlavour hc hfind hkey hrun
  | @remove keyOf t t' a _ ha hrun ih =>
    obtain ⟨s, hs⟩ := ih
    obtain ⟨t1, s', hs', hrun', -⟩ := hs.removed (rb_isFlavour (K := K)) ha
    obtain rfl : t' = t1 := pure_inj (hrun.symm.trans hrun')
    exact ⟨s', hs'⟩

/-- In every reachable state the tree is a red-black search tree, and every operation that the state
allows returns: none dereferences NULL, fails an assertion or runs forever. -/
theorem rb_reachable_invariant (hc : IsCmp cmp) (h : RbReachable cmp keyOf t) :
    (∃ s, RbInvariant cmp keyOf t s) ∧
    (∀ a, ∃ r t', rbInsertHere cmp keyOf t a none = pure (r, t')) ∧
    (∀ key cookie, ∃ r, rbFind cmp keyOf t key cookie = pure r) ∧
    (∀ key cookie₀ cookie a, rbFind cmp keyOf t key (some cookie₀) = pure (none, some cookie) →
      cmp key (keyOf a) = 0 → ∃ r t', rbInsertHere cmp keyOf t a (some cookie) = pure (r, t')) ∧
    (∀ a, Member t a → ∃ t', rbRemove t a = pure t') := by
  obtain ⟨s, hs⟩ := h.shaped hc
  refine ⟨⟨s, .of_shaped hs⟩, ?_, ?_, ?_, ?_⟩
  · intro a
    rcases (rb_isFlavour (M := M)).insert_spec hc hs.rep hs.good hs.increasing a with
      ⟨b, hrun, -⟩ | ⟨-, t', _, _, _, hrun, -⟩
    · exact ⟨_, _, hrun⟩
    · exact ⟨_, _, hrun⟩
  · intro key cookie
    rcases treeFind_spec hc hs.rep hs.increasing key cookie with ⟨b, hrun, -⟩ | ⟨k, hrun, -⟩
    · exact ⟨_, hrun⟩
    · exact ⟨_, hrun⟩
  · intro key cookie₀ cookie a hfind hkey
    obtain ⟨k, rfl, rfl, hk⟩ := hs.cookie hc hfind
    obtain ⟨t', _, _, _, hrun, -⟩ := (rb_isFlavour (M := M)).insert_cookie hc hs.rep hs.good
      hs.increasing (hk.congr hc hkey)
    exact ⟨_, _, hrun⟩
  · intro a ha
    obtain ⟨t', _, -, hrun, -⟩ := hs.removed (rb_isFlavour (K := K)) ha
    exact ⟨t', hrun⟩

/-- The comparison of integers by their difference. -/
def intCmp (a b : Int) : Int := a - b

theorem intCmp_isCmp : IsCmp intCmp :=
  ⟨fun a b => by simp only [intCmp]; omega, fun a b c => by simp only [intCmp]; omega⟩

/-- Memory in which no node has been used. -/
def freshMem (A : Type) : PlainMem A := fun _ => ⟨fun _ => none, none, 0⟩

theorem increasing_int {l : List Int} : Increasing intCmp id l ↔ l.Pairwise (· < ·) :=
  List.Pairwise.iff fun a b => by simp only [intCmp, id]; omega

theorem eq_of_increasing {l l' : List Int} (hperm : l.Perm l') (hl : Increasing intCmp id l)
    (hl' : l'.Pairwise (· < ·)) : l = l' :=
  hperm.eq_of_pairwise (fun a _ _ _ hab hba => absurd (hab.trans hba) (lt_irrefl a)) (increasing_int.mp hl) hl'

/-- Integers inserted one after the other into an empty tree. -/
theorem insertAll_int {F : Flavour Int (PlainMem Int) Int} {Good : BTree Int → Prop} (hF : IsFlavour F Good)
    {P : TreeTree Int (PlainMem Int) → Prop}
    (hP : ∀ {t t' a r}, P t → F.insertHere intCmp id t a none = pure (r, t') → P t')
    (hp : P (rbCreate (freshMem Int))) {items l : List Int} (hperm : items.Perm l) (hl : l.Pairwise (· < ·)) :
    ∃ t s, F.insertAll intCmp id (rbCreate (freshMem Int)) items = pure t ∧ P t ∧
      Shaped Good intCmp id t s ∧ s.toList = l := by
  have hnodup : items.Nodup := hperm.nodup_iff.mpr (hl.imp ne_of_lt)
  obtain ⟨t, s, hrun, hp', hs, hperm'⟩ := hF.insertAll_spec intCmp_isCmp hP hp
    (Shaped.create hF (freshMem Int)) (fun _ _ _ hb => by cases hb)
    (hnodup.imp fun hab => by simp only [intCmp, id]; omega)
  rw [BTree.toList_nil, List.append_nil] at hperm'
  exact ⟨t, s, hrun, hp', hs, eq_of_increasing (hperm'.trans hperm) hs.increasing hl⟩

/-- The root of a balanced tree of three items is the middle one. -/
theorem RbBalanced.middle {s : BTree A} {a b c : A} (h : RbBalanced s) (hs : s.toList = [a, b, c]) :
    ∃ l r col, s = .node l b col r ∧ l.toList = [a] ∧ r.toList = [c] := by
  cases s with
  | nil => cases hs
  | node l x col r =>
    obtain ⟨⟨m, hbal⟩, rfl⟩ := h
    obtain ⟨n, -, hl, hr⟩ := (BTree.bal_black (d := .left)).mp hbal
    have hlen : l.toList.length + r.toList.length = 2 := by
      have hlen := congrArg List.length hs
      simp only [BTree.toList, List.length_append, List.length_cons, List.length_nil] at hlen
      omega
    have hone : l.toList.length = 1 ∧ r.toList.length = 1 := by
      rw [BTree.length_toList, BTree.length_toList] at hlen ⊢
      cases n with
      | zero =>
        have := BTree.size_le_one hl
        have := BTree.size_le_one hr
        omega
      | succ n =>
        have hpow : 2 ≤ 2 ^ (n + 1) := Nat.le_self_pow (by omega) 2
        have := BTree.two_pow_le_size hl
        have := BTree.two_pow_le_size hr
        omega
    obtain ⟨y, hy⟩ := List.length_eq_one_iff.mp hone.1
    obtain ⟨z, hz⟩ := List.length_eq_one_iff.mp hone.2
    rw [BTree.toList, hy, hz] at hs
    cases hs
    exact ⟨l, r, false, rfl, hy, hz⟩

/-- The insertion of 3 rotates at the root, and then the root is removed. -/
theorem rb_reachable_invariant_insert : ∃ t t' : TreeTree Int (PlainMem Int),
    (rb Int (PlainMem Int) Int).insertAll intCmp id (rbCreate (freshMem Int)) [1, 2, 3] = pure t ∧
      t.root = some 2 ∧ rbRemove t 2 = pure t' ∧ RbReachable intCmp id t' ∧
      ∃ s, RbInvariant intCmp id t' s := by
  obtain ⟨t, s, hrun, hreach, hs, hl⟩ := insertAll_int (P := RbReachable intCmp id) rb_isFlavour .insert
    (.create id _) (List.Perm.refl [1, 2, 3]) (by decide)
  obtain ⟨l, r, col, rfl, -, -⟩ := hs.good.middle hl
  have hroot : t.root = some 2 := hs.rep.root
  obtain ⟨-, -, -, -, hremove⟩ := rb_reachable_invariant intCmp_isCmp hreach
  obtain ⟨t', hrun'⟩ := hremove 2 (.root hroot)
  have hreach' := hreach.remove (.root hroot) hrun'
  exact ⟨t, t', hrun, hroot, hrun', hreach', (rb_reachable_invariant intCmp_isCmp hreach').1⟩

end Libjeffpc.Tree
