import Libjeffpc.Tree.Iterate
import Libjeffpc.Tree.Proofs.InvariantProofs

/-!
# Neighbours and walks in the trees of both flavours
-/

set_option linter.unusedSectionVars false

namespace Libjeffpc.Tree

open Lib

variable {A M K : Type} [DecidableEq A] [TreeMem A M] [LawfulTreeMem A M] {cmp : K → K → Int}
  {keyOf : A → K} {t : TreeTree A M} {s : BTree A} {F : Flavour A M K} {Good : BTree A → Prop}

theorem Flavour.Reachable.shaped (hc : IsCmp cmp) (hF : IsFlavour F Good)
    (h : F.Reachable cmp keyOf t) : ∃ s, Shaped Good cmp keyOf t s := by
  induction h with
  | create keyOf m => exact ⟨.nil, Shaped.create hF m⟩
  | outside _ hroot hnum hnode hkey ih =>
    obtain ⟨s, hs⟩ := ih
    exact ⟨s, hs.outside hroot hnum hnode hkey⟩
  | @insert keyOf t t' a r _ hrun ih =>
    obtain ⟨s, hs⟩ := ih
    exact hs.insert hF hc hrun
  | @insertHere keyOf t t' a r key cookie₀ cookie _ hfind hkey hrun ih =>
    obtain ⟨s, hs⟩ := ih
    exact hs.insertHere hF hc hfind hkey hrun
  | @remove keyOf t t' a _ ha hrun ih =>
    obtain ⟨s, hs⟩ := ih
    obtain ⟨t1, s', hs', hrun', -⟩ := hs.removed hF ha
    obtain rfl := pure_inj (hrun.symm.trans hrun')
    exact ⟨s', hs'⟩

/-- A tree of either flavour. -/
theorem reachable_shaped (hc : IsCmp cmp) (hF : F = rb A M K ∨ F = bst A M K)
    (h : F.Reachable cmp keyOf t) : ∃ Good s, Shaped Good cmp keyOf t s := by
  rcases hF with rfl | rfl
  · exact ⟨_, h.shaped hc rb_isFlavour⟩
  · exact ⟨_, h.shaped hc bst_isFlavour⟩

/-! ## Neighbours -/

/-- One round of `tree_nearest`. -/
def nearestStep (m : M) (d : TreeDir) (s : A × TreeDir) : Comp ((A × TreeDir) ⊕ Option A) :=
  if s.2 = d then pure (.inr (some s.1))
  else do
    assert (s.2 = d.flip)
    match getParent m s.1 with
    | none => pure (.inr none)
    | some p => pure (.inl (p, whichDir m p (some s.1)))

/-- The climb ends at the first node that has the hole on the side `d`. -/
theorem nearest_climb {m : M} {f : Frame A} {k : Ctx A} {u : BTree A} (d : TreeDir)
    (h : Repr m none (Ctx.plug (f :: k) u)) (hn : (Ctx.plug (f :: k) u).toList.Nodup) :
    loop (nearestStep m d) (f.a, f.dir) = pure (Ctx.rest d (f :: k)).head? := by
  induction k generalizing f u with
  | nil =>
    rcases Dir.eq_or_eq_flip d f.dir with hd | hd
    · exact loop_done (by simp [nearestStep, hd, Ctx.rest])
    · obtain ⟨-, -, hp, -⟩ := (repr_plug.mp h).1
      have hpar : getParent m f.a = none := hp
      exact loop_done (by simp [nearestStep, hd, hpar, Ctx.rest])
  | cons g k ih =>
    rcases Dir.eq_or_eq_flip d f.dir with hd | hd
    · exact loop_done (by simp [nearestStep, hd, Ctx.rest])
    · obtain ⟨-, -, hp, -⟩ := (repr_plug.mp h).1
      have hpar : getParent m f.a = some g.a := hp
      have hctx := ((repr_plug (k := g :: k) (s := .mk f.dir f.a f.red u f.sib)).mp h).1
      have hdir : whichDir m g.a (some f.a) = g.dir := by
        rw [BTree.ptr_mk] at hctx
        exact whichDir_eq hctx (head_sib_ne (k := g :: k) (s := .mk f.dir f.a f.red u f.sib)
          (Ctx.nodup_plug.mp hn) (BTree.mem_of_ptr (BTree.ptr_mk f.dir f.a f.red u f.sib)) g rfl)
      have hnext : loop (nearestStep m d) (f.a, f.dir) = loop (nearestStep m d) (g.a, g.dir) :=
        loop_next (by simp [nearestStep, hd, hpar, hdir])
      have hrest : Ctx.rest d (f :: g :: k) = Ctx.rest d (g :: k) := by
        conv_lhs => rw [Ctx.rest]
        simp [hd]
      rw [hnext, hrest]
      exact ih h hn

/-- The cookie of a failed search leads to the items next to the hole. -/
theorem treeNearest_spec {k : Ctx A} (h : Rep t (k.plug .nil)) (gt : Bool) :
    treeNearest t.mem (cookieOf k) gt =
      pure (Ctx.rest (if gt then Dir.left else Dir.right) k).head? := by
  cases k with
  | nil => rfl
  | cons f k => exact nearest_climb _ h.repr h.nodup

theorem rest_left (k : Ctx A) : Ctx.rest .left k = k.after := by
  induction k with
  | nil => rfl
  | cons f k ih =>
    obtain ⟨d, a, c, u⟩ := f
    cases d <;> simp [Ctx.rest, Ctx.after, ih, Dir.list]

theorem rest_right (k : Ctx A) : Ctx.rest .right k = k.before.reverse := by
  induction k with
  | nil => rfl
  | cons f k ih =>
    obtain ⟨d, a, c, u⟩ := f
    cases d <;> simp [Ctx.rest, Ctx.before, ih, Dir.list]

/-- The item after the hole is the least of the greater ones. -/
theorem Around.nearest_gt {k : Ctx A} {key : K} (hc : IsCmp cmp)
    (h : Shaped Good cmp keyOf t (k.plug .nil)) (hk : Around cmp keyOf key k) :
    IsNearest t (fun a => cmp key (keyOf a) < 0) (fun a b => cmp (keyOf a) (keyOf b) ≤ 0)
      k.after.head? := by
  have hmem : ∀ b, Member t b ↔ b ∈ k.before ∨ b ∈ k.after := by
    intro b
    rw [h.rep.member_iff, Ctx.toList_plug, BTree.toList_nil, List.append_nil, List.mem_append]
  have hside : ∀ b, Member t b → cmp key (keyOf b) < 0 → b ∈ k.after := by
    intro b hb hlt
    rcases (hmem b).mp hb with hb | hb
    · have := hk.before b hb
      omega
    · exact hb
  have hinc := h.increasing
  rw [Ctx.toList_plug, BTree.toList_nil, List.append_nil] at hinc
  have hinc := (List.pairwise_append.mp hinc).2.1
  cases ha : k.after with
  | nil =>
    intro b hb hlt
    have := hside b hb hlt
    rw [ha] at this
    cases this
  | cons a l =>
    rw [ha] at hside hinc
    have hmema : a ∈ k.after := by rw [ha]; exact List.mem_cons_self
    refine ⟨(hmem a).mpr (Or.inr hmema), hk.after a hmema, ?_⟩
    intro b hb hlt
    exact Increasing.head_le hc hinc (hside b hb hlt)

/-- The item before the hole is the greatest of the smaller ones. -/
theorem Around.nearest_lt {k : Ctx A} {key : K} (hc : IsCmp cmp)
    (h : Shaped Good cmp keyOf t (k.plug .nil)) (hk : Around cmp keyOf key k) :
    IsNearest t (fun a => 0 < cmp key (keyOf a)) (fun a b => cmp (keyOf b) (keyOf a) ≤ 0)
      k.before.reverse.head? := by
  have hmem : ∀ b, Member t b ↔ b ∈ k.before ∨ b ∈ k.after := by
    intro b
    rw [h.rep.member_iff, Ctx.toList_plug, BTree.toList_nil, List.append_nil, List.mem_append]
  have hside : ∀ b, Member t b → 0 < cmp key (keyOf b) → b ∈ k.before := by
    intro b hb hgt
    rcases (hmem b).mp hb with hb | hb
    · exact hb
    · have := hk.after b hb
      omega
  have hinc := h.increasing
  rw [Ctx.toList_plug, BTree.toList_nil, List.append_nil] at hinc
  have hinc := (List.pairwise_append.mp hinc).1
  rcases List.eq_nil_or_concat k.before with ha | ⟨l, a, ha⟩
  · rw [ha]
    intro b hb hgt
    have := hside b hb hgt
    rw [ha] at this
    cases this
  · rw [List.concat_eq_append] at ha
    have hmema : a ∈ k.before := by rw [ha]; simp
    rw [ha] at hside hinc
    rw [ha, List.reverse_append]
    refine ⟨(hmem a).mpr (Or.inl hmema), hk.before a hmema, ?_⟩
    intro b hb hgt
    exact Increasing.le_last hc hinc (hside b hb hgt)

/-- In a reachable tree of either flavour the search for a key that is not in it fails, and its cookie
gives the neighbours of the key on both sides; `tree_nearest` returns without a failed assertion. -/
theorem nearest_of_failed_find (hc : IsCmp cmp) (hF : F = rb A M K ∨ F = bst A M K)
    (h : F.Reachable cmp keyOf t) (key : K) (hkey : ∀ a, Member t a → cmp key (keyOf a) ≠ 0)
    (cookie₀ : TreeCookie A) :
    ∃ cookie, treeFind cmp keyOf t key (some cookie₀) = pure (none, some cookie) ∧
      (∃ r, treeNearest t.mem cookie true = pure r ∧
        IsNearest t (fun a => cmp key (keyOf a) < 0) (fun a b => cmp (keyOf a) (keyOf b) ≤ 0) r) ∧
      (∃ r, treeNearest t.mem cookie false = pure r ∧
        IsNearest t (fun a => 0 < cmp key (keyOf a)) (fun a b => cmp (keyOf b) (keyOf a) ≤ 0) r) := by
  obtain ⟨Good, s, hs⟩ := reachable_shaped hc hF h
  rcases treeFind_spec hc hs.rep hs.increasing key (some cookie₀) with
    ⟨b, -, hb, h0⟩ | ⟨k, hrun, rfl, hk⟩
  · exact absurd h0 (hkey b ((hs.rep.member_iff b).mpr hb))
  · refine ⟨cookieOf k, hrun, ⟨k.after.head?, ?_, hk.nearest_gt hc hs⟩,
      ⟨k.before.reverse.head?, ?_, hk.nearest_lt hc hs⟩⟩
    · rw [treeNearest_spec hs.rep, if_pos rfl, rest_left]
    · rw [treeNearest_spec hs.rep, if_neg Bool.false_ne_true, rest_right]

/-- A search for 4 in the tree of 3, 5 and 7. -/
theorem nearest_of_failed_find_insert : ∃ t cookie,
    (rb Int (PlainMem Int) Int).insertAll intCmp id (rbCreate (freshMem Int)) [5, 3, 7] = pure t ∧
      treeFind intCmp id t 4 (some ⟨none, .left⟩) = pure (none, some cookie) ∧
      treeNearest t.mem cookie true = pure (some 5) ∧ treeNearest t.mem cookie false = pure (some 3) := by
  obtain ⟨t, s, hrun, hreach, hs, hl⟩ := insertAll_int (P := (rb Int (PlainMem Int) Int).Reachable intCmp id)
    rb_isFlavour .insert (.create id _) (show [5, 3, 7].Perm [3, 5, 7] by decide) (by decide)
  have hmem : ∀ a, Member t a ↔ a = 3 ∨ a = 5 ∨ a = 7 := by
    intro a
    rw [hs.rep.member_iff, hl]
    simp
  obtain ⟨cookie, hfind, ⟨above, habove, hgt⟩, below, hbelow, hlt⟩ :=
    nearest_of_failed_find intCmp_isCmp (Or.inl rfl) hreach 4 (fun a ha => by
      rcases (hmem a).mp ha with rfl | rfl | rfl <;> decide) ⟨none, .left⟩
  refine ⟨t, cookie, hrun, hfind, ?_, ?_⟩
  · rw [habove]
    cases above with
    | none => exact absurd (show intCmp 4 5 < 0 by decide) (hgt 5 ((hmem 5).mpr (by simp)))
    | some a =>
      obtain ⟨ha, hside, hnear⟩ := hgt
      have h5 := hnear 5 ((hmem 5).mpr (by simp)) (by decide)
      rcases (hmem a).mp ha with rfl | rfl | rfl
      · exact absurd hside (by decide)
      · rfl
      · exact absurd h5 (by decide)
  · rw [hbelow]
    cases below with
    | none => exact absurd (show 0 < intCmp 4 3 by decide) (hlt 3 ((hmem 3).mpr (by simp)))
    | some a =>
      obtain ⟨ha, hside, -⟩ := hlt
      rcases (hmem a).mp ha with rfl | rfl | rfl
      · rfl
      · exact absurd hside (by decide)
      · exact absurd hside (by decide)

/-! ## Walks -/

theorem treeWalkFrom_spec {next : A → Comp (Option A)} {r : List A}
    (hnext : ∀ l a r', r = l ++ a :: r' → next a = pure r'.head?) :
    treeWalkFrom next r.head? = pure r := by
  suffices h : ∀ (r acc all : List A), (∀ l a r', all = l ++ a :: r' → next a = pure r'.head?) →
      all = acc ++ r → loop (fun (s : Option A × List A) => match s.1 with
        | none => pure (.inr s.2)
        | some a => do
          let b ← next a
          pure (.inl (b, s.2 ++ [a]))) (r.head?, acc) = pure all from
    h r [] r hnext rfl
  intro r
  induction r with
  | nil =>
    intro acc all _ hall
    rw [hall, List.append_nil]
    exact loop_done rfl
  | cons a r ih =>
    intro acc all hn hall
    have hstep : next a = pure r.head? := hn acc a r hall
    refine Eq.trans (loop_next ?_) (ih (acc ++ [a]) all hn (by simp [hall]))
    simp [hstep]

theorem treeWalk_spec (h : Rep t s) (fwd : Bool) :
    treeWalk t fwd = pure ((if fwd then Dir.left else Dir.right).list s.toList) := by
  cases fwd with
  | true =>
    rw [treeWalk]
    simp only [if_true, treeFirst_spec h, pure_bind]
    exact treeWalkFrom_spec fun l a r' hr => treeNextDir_spec h true hr
  | false =>
    rw [treeWalk]
    simp only [Bool.false_eq_true, if_false, treeLast_spec h, pure_bind]
    rw [← List.head?_reverse]
    exact treeWalkFrom_spec fun l a r' hr => treeNextDir_spec h false hr

/-- An item is the next one if it stands there in the list. -/
theorem treeNextDir_eq_some (h : Rep t s) (fwd : Bool) {x y : A} (hx : x ∈ s.toList) :
    treeNextDir t x fwd = pure (some y) ↔
      ∃ l r, (if fwd then Dir.left else Dir.right).list s.toList = l ++ x :: y :: r := by
  constructor
  · intro hnext
    have hx : x ∈ (if fwd then Dir.left else Dir.right).list s.toList := by
      cases fwd <;> simpa [Dir.list] using hx
    obtain ⟨l, r, hlr⟩ := List.append_of_mem hx
    have hhead : r.head? = some y := pure_inj ((treeNextDir_spec h fwd hlr).symm.trans hnext)
    obtain ⟨r', rfl⟩ := List.head?_eq_some_iff.mp hhead
    exact ⟨l, r', hlr⟩
  · rintro ⟨l, r, hlr⟩
    exact treeNextDir_spec h fwd hlr

theorem next_iff_prev (h : Rep t s) {x y : A} (hx : x ∈ s.toList) (hy : y ∈ s.toList) :
    treeNext t x = pure (some y) ↔ treePrev t y = pure (some x) := by
  rw [treeNext, treePrev, treeNextDir_eq_some h true hx, treeNextDir_eq_some h false hy]
  constructor
  · rintro ⟨l, r, hlr⟩
    have hlr : s.toList = l ++ x :: y :: r := hlr
    exact ⟨r.reverse, l.reverse, by simp [Dir.list, hlr]⟩
  · rintro ⟨l, r, hlr⟩
    have hlr : s.toList.reverse = l ++ y :: x :: r := hlr
    exact ⟨r.reverse, l.reverse, by simp [Dir.list, List.reverse_eq_iff.mp hlr]⟩

/-- A walk forward from the first item visits the members of a reachable tree of either flavour in
increasing order, each once; a walk back from the last one visits them in the reverse order, and each
step back undoes a step forward. All steps terminate, from every member. -/
theorem walk_in_order (hc : IsCmp cmp) (hF : F = rb A M K ∨ F = bst A M K)
    (h : F.Reachable cmp keyOf t) :
    (∃ l, treeWalk t true = pure l ∧ treeWalk t false = pure l.reverse ∧ Increasing cmp keyOf l ∧
      l.Nodup ∧ ∀ a, a ∈ l ↔ Member t a) ∧
    (∀ x, Member t x → ∀ fwd, ∃ r, treeNextDir t x fwd = pure r) ∧
    ∀ x y, Member t x → Member t y →
      (treeNext t x = pure (some y) ↔ treePrev t y = pure (some x)) := by
  obtain ⟨Good, s, hs⟩ := reachable_shaped hc hF h
  refine ⟨⟨s.toList, treeWalk_spec hs.rep true, treeWalk_spec hs.rep false, hs.increasing,
    hs.rep.nodup, fun a => (hs.rep.member_iff a).symm⟩, ?_, ?_⟩
  · intro x hx fwd
    have hx : x ∈ (if fwd then Dir.left else Dir.right).list s.toList := by
      have hx := (hs.rep.member_iff x).mp hx
      cases fwd <;> simpa [Dir.list] using hx
    obtain ⟨l, r, hlr⟩ := List.append_of_mem hx
    exact ⟨_, treeNextDir_spec hs.rep fwd hlr⟩
  · intro x y hx hy
    exact next_iff_prev hs.rep ((hs.rep.member_iff x).mp hx) ((hs.rep.member_iff y).mp hy)

theorem walk_in_order_insert : ∃ t,
    (bst Int (PlainMem Int) Int).insertAll intCmp id (rbCreate (freshMem Int)) [5, 3, 7] = pure t ∧
      treeWalk t true = pure [3, 5, 7] ∧ treeWalk t false = pure [7, 5, 3] := by
  obtain ⟨t, s, hrun, hreach, hs, hl⟩ := insertAll_int (P := (bst Int (PlainMem Int) Int).Reachable intCmp id)
    bst_isFlavour .insert (.create id _) (show [5, 3, 7].Perm [3, 5, 7] by decide) (by decide)
  obtain ⟨⟨l, hforward, hback, hinc, hnodup, hmem⟩, -⟩ := walk_in_order intCmp_isCmp (Or.inr rfl) hreach
  have hperm : l.Perm [3, 5, 7] := by
    rw [List.perm_ext_iff_of_nodup hnodup (by decide), ← hl]
    exact fun a => (hmem a).trans (hs.rep.member_iff a)
  obtain rfl := eq_of_increasing hperm hinc (by decide)
  exact ⟨t, hrun, hforward, hback⟩

end Libjeffpc.Tree
