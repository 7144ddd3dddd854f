import Libjeffpc.Lib.Order
import Libjeffpc.Tree.Proofs.InsertProofs

/-!
# Searching and walking a represented tree

`tree_find` descends to the item that compares equal with the key, or to the hole where such an item
belongs. `tree_next` moves to the next item of the in-order list.
-/

set_option linter.unusedSectionVars false

namespace Libjeffpc.Tree

open Lib

variable {A M K : Type} [DecidableEq A] [TreeMem A M] [LawfulTreeMem A M]
  {cmp : K → K → Int} {keyOf : A → K}

/-- Where the search for `key` has to go on: nothing outside of the hole compares equal. -/
structure Around (cmp : K → K → Int) (keyOf : A → K) (key : K) (k : Ctx A) : Prop where
  before : ∀ b ∈ k.before, 0 < cmp key (keyOf b)
  after : ∀ b ∈ k.after, cmp key (keyOf b) < 0

theorem Around.nil {key : K} : Around cmp keyOf key ([] : Ctx A) :=
  ⟨by simp [Ctx.before], by simp [Ctx.after]⟩

theorem Around.left {key : K} {k : Ctx A} {l r : BTree A} {a : A} {c : Bool} (hc : IsCmp cmp)
    (h : Around cmp keyOf key k) (hs : Increasing cmp keyOf (k.plug (.node l a c r)).toList)
    (hlt : cmp key (keyOf a) < 0) : Around cmp keyOf key (⟨.left, a, c, r⟩ :: k) := by
  refine ⟨by simpa [Ctx.before] using h.before, ?_⟩
  intro b hb
  rw [Ctx.after, List.mem_append] at hb
  rcases hb with hb | hb
  · rcases List.mem_cons.mp hb with rfl | hb
    · exact hlt
    · rw [Ctx.toList_plug, BTree.toList] at hs
      have h1 := (List.pairwise_append.mp hs).1
      have h2 := (List.pairwise_append.mp h1).2.1
      have h3 := (List.pairwise_append.mp h2).2.1
      exact hc.lt_of_lt_of_le hlt ((List.pairwise_cons.mp h3).1 b hb).le
  · exact h.after b hb

theorem Around.right {key : K} {k : Ctx A} {l r : BTree A} {a : A} {c : Bool} (hc : IsCmp cmp)
    (h : Around cmp keyOf key k) (hs : Increasing cmp keyOf (k.plug (.node l a c r)).toList)
    (hgt : 0 < cmp key (keyOf a)) : Around cmp keyOf key (⟨.right, a, c, l⟩ :: k) := by
  refine ⟨?_, by simpa [Ctx.after] using h.after⟩
  intro b hb
  rw [Ctx.before, List.mem_append] at hb
  rcases hb with hb | hb
  · exact h.before b hb
  · rcases List.mem_append.mp hb with hb | hb
    · rw [Ctx.toList_plug, BTree.toList] at hs
      have h1 := (List.pairwise_append.mp hs).1
      have h2 := (List.pairwise_append.mp h1).2.1
      have h3 := (List.pairwise_append.mp h2).2.2 b hb a (by simp)
      exact (hc.swap _ _).mp (hc.lt_of_lt_of_le h3 ((hc.swap _ _).mpr hgt).le)
    · rw [List.mem_singleton.mp hb]
      exact hgt

/-- The descent from the subtree in the hole of `k`. -/
theorem treeFindLoop_spec {m : M} {key : K} {k : Ctx A} {s : BTree A} (hc : IsCmp cmp)
    (h : Repr m none (k.plug s)) (hs : Increasing cmp keyOf (k.plug s).toList)
    (hk : Around cmp keyOf key k) :
    (∃ a pos, treeFindLoop cmp keyOf m key s.ptr (cookieOf k) = pure (some a, pos) ∧ a ∈ s.toList ∧
      cmp key (keyOf a) = 0) ∨
    (∃ k', treeFindLoop cmp keyOf m key s.ptr (cookieOf k) = pure (none, cookieOf k') ∧
      k.plug s = Ctx.plug k' .nil ∧ Around cmp keyOf key k') := by
  induction s generalizing k with
  | nil => exact Or.inr ⟨k, loop_done rfl, rfl, hk⟩
  | node l a c r ihl ihr =>
    obtain ⟨-, hl, hr, -⟩ := repr_plug.mp h
    by_cases h0 : cmp key (keyOf a) = 0
    · exact Or.inl ⟨a, cookieOf k, loop_done (by simp [BTree.ptr, h0]), by simp [BTree.toList], h0⟩
    by_cases hlt : cmp key (keyOf a) < 0
    · have hnext : treeFindLoop cmp keyOf m key (BTree.node l a c r).ptr (cookieOf k) =
          treeFindLoop cmp keyOf m key l.ptr (cookieOf (⟨.left, a, c, r⟩ :: k)) :=
        loop_next (by simp [BTree.ptr, h0, hlt, hl, cookieOf, Ctx.ptr, Ctx.place])
      rw [hnext]
      rcases ihl (k := ⟨.left, a, c, r⟩ :: k) h hs (hk.left hc hs hlt) with
        ⟨b, pos, hrun, hb, h0⟩ | ⟨k', hrun, hp, hk'⟩
      · exact Or.inl ⟨b, pos, hrun, by simp [BTree.toList, hb], h0⟩
      · exact Or.inr ⟨k', hrun, hp, hk'⟩
    · have hnext : treeFindLoop cmp keyOf m key (BTree.node l a c r).ptr (cookieOf k) =
          treeFindLoop cmp keyOf m key r.ptr (cookieOf (⟨.right, a, c, l⟩ :: k)) :=
        loop_next (by simp [BTree.ptr, h0, hlt, hr, cookieOf, Ctx.ptr, Ctx.place])
      rw [hnext]
      rcases ihr (k := ⟨.right, a, c, l⟩ :: k) h hs (hk.right hc hs (by omega)) with
        ⟨b, pos, hrun, hb, h0⟩ | ⟨k', hrun, hp, hk'⟩
      · exact Or.inl ⟨b, pos, hrun, by simp [BTree.toList, hb], h0⟩
      · exact Or.inr ⟨k', hrun, hp, hk'⟩

theorem treeFind_spec {t : TreeTree A M} {s : BTree A} (hc : IsCmp cmp) (h : Rep t s)
    (hs : Increasing cmp keyOf s.toList) (key : K) (cookie : Option (TreeCookie A)) :
    (∃ a, treeFind cmp keyOf t key cookie = pure (some a, cookie) ∧ a ∈ s.toList ∧
      cmp key (keyOf a) = 0) ∨
    (∃ k, treeFind cmp keyOf t key cookie = pure (none, cookie.map fun _ => cookieOf k) ∧
      s = Ctx.plug k .nil ∧ Around cmp keyOf key k) := by
  rcases treeFindLoop_spec (k := []) hc h.repr hs (Around.nil : Around cmp keyOf key []) with
    ⟨a, pos, hrun, ha, h0⟩ | ⟨k, hrun, hp, hk⟩
  · refine Or.inl ⟨a, ?_, ha, h0⟩
    rw [treeFind, h.root]
    erw [hrun]
    rfl
  · refine Or.inr ⟨k, ?_, hp, hk⟩
    rw [treeFind, h.root]
    erw [hrun]
    rfl

/-- The hole of a failed search is outside of every item that compares equal. -/
theorem Around.ne {key : K} {k : Ctx A} (h : Around cmp keyOf key k) {a : A}
    (ha : a ∈ (k.plug .nil).toList) : cmp key (keyOf a) ≠ 0 := by
  rw [Ctx.toList_plug, BTree.toList_nil, List.append_nil, List.mem_append] at ha
  rcases ha with ha | ha
  · have := h.before a ha
    omega
  · have := h.after a ha
    omega

theorem Around.congr {key key' : K} {k : Ctx A} (hc : IsCmp cmp) (h : Around cmp keyOf key k)
    (he : cmp key key' = 0) : Around cmp keyOf key' k :=
  ⟨fun b hb => (hc.gt_congr_left he).mp (h.before b hb),
    fun b hb => (hc.lt_congr_left he).mp (h.after b hb)⟩

/-- An item put into the hole of a failed search keeps the order. -/
theorem Around.increasing {k : Ctx A} {a : A} (hc : IsCmp cmp) (h : Around cmp keyOf (keyOf a) k)
    (hs : Increasing cmp keyOf (k.plug .nil).toList) :
    Increasing cmp keyOf (k.before ++ a :: k.after) := by
  rw [Ctx.toList_plug, BTree.toList_nil, List.append_nil] at hs
  exact hs.insert hc h.before h.after

theorem rest_eq_nil {k : Ctx A} {d : TreeDir} (hk : ∀ f ∈ k, f.dir = d) : Ctx.rest d.flip k = [] := by
  induction k with
  | nil => rfl
  | cons f k ih =>
    rw [Ctx.rest, ih (fun g hg => hk g (List.mem_cons_of_mem _ hg)), hk f List.mem_cons_self,
      if_neg (Dir.ne_flip d)]
    rfl

/-- `firstlast` from the root of a subtree gives its first item in that direction. -/
theorem firstlast_head {m : M} {par : Option A} {s : BTree A} {r : A} (h : Repr m par s)
    (hr : s.ptr = some r) (d : TreeDir) :
    ∃ y l, firstlast m r d = pure y ∧ d.list s.toList = y :: l := by
  obtain ⟨k, y, c, e, rfl, hk, hrun⟩ := firstlast_spec h hr d
  refine ⟨y, d.list e.toList ++ Ctx.rest d k, hrun, ?_⟩
  rw [Ctx.list_plug, rest_eq_nil hk, BTree.list_mk]
  simp

theorem firstlastObj_spec {t : TreeTree A M} {s : BTree A} (h : Rep t s) (d : TreeDir) :
    firstlastObj t d = pure (d.list s.toList).head? := by
  rw [firstlastObj, h.root]
  cases hs : s.ptr with
  | none =>
    rw [BTree.ptr_eq_none.mp hs]
    simp
  | some r =>
    obtain ⟨y, l, hrun, hl⟩ := firstlast_head h.repr hs d
    simp [hrun, hl]

theorem treeFirst_spec {t : TreeTree A M} {s : BTree A} (h : Rep t s) :
    treeFirst t = pure s.toList.head? := firstlastObj_spec h .left

theorem treeLast_spec {t : TreeTree A M} {s : BTree A} (h : Rep t s) :
    treeLast t = pure s.toList.getLast? := by
  have hl := firstlastObj_spec h .right
  rw [Dir.list, List.head?_reverse] at hl
  exact hl

/-- The climb ends at the first node that has the subtree on the side the walk comes from. -/
theorem treeNextUp_spec {m : M} {k : Ctx A} {a : A} {c : Bool} {x y : BTree A} {d e : TreeDir}
    (h : Repr m none (k.plug (.mk e a c x y))) (hn : (k.plug (.mk e a c x y)).toList.Nodup) :
    treeNextUp m d d.flip a = pure (Ctx.rest d k).head? := by
  induction k generalizing e a c x y with
  | nil =>
    obtain ⟨-, -, hp, -⟩ := repr_mk.mp h
    exact loop_done (by simp [hp, Ctx.rest])
  | cons f k ih =>
    obtain ⟨hk, hs⟩ := repr_plug.mp h
    obtain ⟨-, -, hp, -⟩ := repr_mk.mp hs
    have hpar : getParent m a = some f.a := hp
    have hdir : whichDir m f.a (some a) = f.dir := by
      have := whichDir_eq hk (fun he => head_sib_ne (Ctx.nodup_plug.mp hn)
        (BTree.mem_of_ptr (BTree.ptr_mk e a c x y)) f rfl (by rw [← he, BTree.ptr_mk]))
      rwa [BTree.ptr_mk] at this
    rcases Dir.eq_or_eq_flip d f.dir with hd | hd
    · exact loop_done (by simp [hpar, hdir, hd, Ctx.rest])
    · have hnext : treeNextUp m d d.flip a = treeNextUp m d d.flip f.a :=
        loop_next (by simp [hpar, hdir, hd])
      have hrest : Ctx.rest d (f :: k) = Ctx.rest d k := by simp [Ctx.rest, hd]
      rw [hnext, hrest]
      exact ih h hn

/-- `tree_next` and `tree_prev` give the item that follows in the direction of the walk. -/
theorem treeNextDir_spec {t : TreeTree A M} {s : BTree A} (h : Rep t s) (fwd : Bool) {x : A}
    {l r : List A} (hx : (if fwd then Dir.left else Dir.right).list s.toList = l ++ x :: r) :
    treeNextDir t x fwd = pure r.head? := by
  set d : TreeDir := if fwd then .left else .right with hd
  have hright : (if fwd then Dir.right else Dir.left) = d.flip := by cases fwd <;> rfl
  have hnd : (d.list s.toList).Nodup := by
    cases hd' : d <;> simp [Dir.list, h.nodup]
  have hxs : x ∈ s.toList := by
    have : x ∈ d.list s.toList := by rw [hx]; simp
    cases hd' : d <;> simpa [hd', Dir.list] using this
  obtain ⟨k, c, a, b, rfl⟩ := Ctx.exists_plug hxs
  obtain ⟨u, v, huv⟩ : ∃ u v, BTree.node a x c b = .mk d x c u v := by
    cases d with
    | left => exact ⟨a, b, rfl⟩
    | right => exact ⟨b, a, rfl⟩
  rw [huv] at h hx hnd
  -- the two ways to cut the list at `x` are the same
  have hr : r = d.list v.toList ++ Ctx.rest d k := by
    rw [Ctx.list_plug, BTree.list_mk] at hx hnd
    have hsplit : ((Ctx.rest d.flip k).reverse ++ d.list u.toList) ++ x :: (d.list v.toList ++
        Ctx.rest d k) = l ++ x :: r := by rw [← hx]; simp
    have hnd' : (((Ctx.rest d.flip k).reverse ++ d.list u.toList) ++ x :: (d.list v.toList ++
        Ctx.rest d k)).Nodup := by simpa using hnd
    obtain ⟨hx1, -⟩ := List.nodup_cons.mp (List.nodup_middle.mp hnd')
    rw [List.mem_append, not_or] at hx1
    exact ((List.append_cons_inj_of_notMem hx1.1 hx1.2).mp hsplit).2.2.symm
  obtain ⟨-, hv, -, -, -, hvr⟩ := repr_mk.mp (repr_plug.mp h.repr).2
  rw [treeNextDir]
  simp only [hright, Dir.flip_flip, hv]
  cases hvp : v.ptr with
  | none =>
    rw [BTree.ptr_eq_none.mp hvp] at hr
    rw [treeNextUp_spec h.repr h.nodup, hr]
    simp
  | some q =>
    obtain ⟨y, l', hrun, hl'⟩ := firstlast_head hvr hvp d
    simp [hrun, hr, hl']

theorem treeNext_spec {t : TreeTree A M} {s : BTree A} (h : Rep t s) {x : A} {l r : List A}
    (hx : s.toList = l ++ x :: r) : treeNext t x = pure r.head? := treeNextDir_spec h true hx

end Libjeffpc.Tree
