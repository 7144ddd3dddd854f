import Libjeffpc.Tree.Destroy
import Libjeffpc.Tree.Proofs.IterateProofs

/-!
# `tree_destroy_nodes` is a post-order traversal

The memory of the nodes that are left does not change, so all is said in terms of the tree at the
beginning: the last node that was returned is the root of the subtree in the hole of a context `k`, the
nodes of `pending k` are still to come, and the cursor points to the first node of `k`.
-/

set_option linter.unusedSectionVars false

namespace Libjeffpc.Tree

open Lib

variable {A M : Type} [DecidableEq A] [TreeMem A M] [LawfulTreeMem A M] {t : TreeTree A M}
  {s u : BTree A} {k : Ctx A} {freed : List A}

/-- The cursor after the subtree in the hole is through. -/
def cursorOf : Ctx A → Cursor A
  | [] => .done
  | f :: _ => .at f.a f.dir.flip

theorem node_view {m : M} {a : A} (h : a ∉ freed) :
    Live.node (view m freed) a = pure ⟨child m a, getParent m a, getExtra m a⟩ := by
  rw [Live.node, view, if_neg h]

theorem free_view (m : M) (freed : List A) (a : A) :
    Live.free (view m freed) a = view m (freed ++ [a]) := by
  funext b
  rw [Live.free, view]
  by_cases hb : b = a
  · rw [if_pos hb, view, if_pos (by simp [hb])]
  · simp [view, hb]

theorem liveWhichDir {m : M} {p : A} (h : p ∉ freed) (tgt : Option A) :
    Live.whichDir (view m freed) p tgt = pure (whichDir m p tgt) := by
  rw [Live.whichDir, node_view h, pure_bind, whichDir]

/-- The way to the leftmost node of a subtree, which does not leave the subtree. -/
theorem liveFirstlast_spec {m : M} {par : Option A} {r : A} (h : Repr m par u) (hr : u.ptr = some r)
    (hfreed : ∀ a ∈ u.toList, a ∉ freed) :
    ∃ k y c e, u = Ctx.plug k (.node .nil y c e) ∧ (∀ f ∈ k, f.dir = .left) ∧
      Live.firstlast (view m freed) r .left = pure y := by
  induction u generalizing par r with
  | nil => cases hr
  | node l a c e ihl ihe =>
    obtain rfl : a = r := Option.some.inj hr
    obtain ⟨hl, -, -, -, hlr, -⟩ := h
    have hnode := node_view (m := m) (hfreed a (by simp [BTree.toList]))
    cases l with
    | nil =>
      refine ⟨[], a, c, e, rfl, by simp, loop_done ?_⟩
      rw [hnode, pure_bind]
      simp only [hl, BTree.ptr_nil]
    | node l' b c' e' =>
      obtain ⟨k, y, d, e'', hu, hk, hrun⟩ := ihl hlr rfl fun x hx => hfreed x (by
        rw [BTree.toList]
        exact List.mem_append_left _ hx)
      refine ⟨k ++ [⟨.left, a, c, e⟩], y, d, e'', ?_, ?_, ?_⟩
      · rw [Ctx.plug_append, ← hu]
        rfl
      · intro f hf
        rcases List.mem_append.mp hf with hf | hf
        · exact hk f hf
        · rw [List.mem_singleton.mp hf]
      · refine (loop_next ?_).trans hrun
        rw [hnode, pure_bind]
        simp only [hl, BTree.ptr]

/-- The parent of the node that is returned is the next one to look at. -/
theorem liveSaveParent_spec {x : A} (h : Rep t (k.plug u)) (hx : u.ptr = some x) (hxf : x ∉ freed)
    (hk : ∀ a ∈ k.pending, a ∉ freed) :
    Live.destroyNodesSaveParent (t.live freed) x = pure (cursorOf k) := by
  cases k with
  | nil =>
    have hroot : t.root = some x := h.root.trans hx
    simp [Live.destroyNodesSaveParent, TreeTree.live, hroot, cursorOf]
  | cons f k =>
    have hnd := Ctx.nodup_plug.mp h.nodup
    have hxu : x ∈ u.toList := BTree.mem_of_ptr hx
    have hfx : f.a ∉ freed := hk f.a (by simp [Ctx.pending])
    obtain ⟨hctx, hu⟩ := repr_plug.mp h.repr
    have hpar : getParent t.mem x = some f.a := by
      obtain ⟨c, l, r, rfl⟩ := BTree.eq_mk_of_ptr hx .left
      exact (repr_mk.mp hu).2.2.1
    have hroot : t.root ≠ some x := by
      intro hroot
      obtain ⟨c, l, r, hs⟩ := BTree.eq_mk_of_ptr (h.root.symm.trans hroot) .left
      have hrepr := h.repr
      rw [hs] at hrepr
      have hnone : getParent t.mem x = none := (repr_mk.mp hrepr).2.2.1
      rw [hpar] at hnone
      cases hnone
    have hdir : whichDir t.mem f.a (some x) = f.dir := by
      rw [hx] at hctx
      exact whichDir_eq hctx (head_sib_ne hnd hxu f rfl)
    simp [Live.destroyNodesSaveParent, TreeTree.live, hroot, node_view hxf, hpar, liveWhichDir hfx, hdir,
      cursorOf]

/-- The first node in post-order of the subtree in the hole. -/
theorem liveStep_spec {r : A} (h : Rep t (k.plug u)) (hr : u.ptr = some r)
    (hrest : ∀ a ∈ u.postorder ++ k.pending, a ∉ freed) :
    ∃ x k' u', Live.destroyNodesStep (t.live freed) r = pure (x, cursorOf k') ∧
      k.plug u = Ctx.plug k' u' ∧ u'.ptr = some x ∧ u.postorder ++ k.pending = x :: k'.pending := by
  induction hn : u.size using Nat.strong_induction_on generalizing u k r with
  | _ n ih =>
    have hufreed : ∀ a ∈ u.toList, a ∉ freed := fun a ha =>
      hrest a (List.mem_append_left _ ((BTree.postorder_perm u).mem_iff.mpr ha))
    obtain ⟨k1, y, c, e, rfl, hk1, hfirst⟩ := liveFirstlast_spec (repr_plug.mp h.repr).2 hr hufreed
    have hyf : y ∉ freed := hufreed y (Ctx.mem_plug.mpr (Or.inr (by simp [BTree.toList])))
    rw [Ctx.postorder_plug hk1] at hrest ⊢
    rw [← Ctx.plug_append] at h ⊢
    have hright : child t.mem y .right = e.ptr := (repr_plug.mp h.repr).2.2.1
    have hnode := node_view (m := t.mem) hyf
    cases e with
    | nil =>
      have hsave := liveSaveParent_spec (x := y) h rfl hyf fun a ha => hrest a
        (List.mem_append_right _ ha)
      refine ⟨y, k1 ++ k, _, loop_done ?_, rfl, rfl, rfl⟩
      show (Live.firstlast (view t.mem freed) r .left >>= _) = _
      rw [hfirst, pure_bind]
      show (Live.node (view t.mem freed) y >>= _) = _
      rw [hnode, pure_bind]
      simp only [hright, BTree.ptr_nil, hsave, pure_bind]
    | node l b c' r' =>
      -- the node has a right subtree, which comes first
      have hplug : Ctx.plug (k1 ++ k) (.node .nil y c (.node l b c' r')) =
          Ctx.plug (⟨.right, y, c, .nil⟩ :: (k1 ++ k)) (.node l b c' r') := rfl
      have hpost : (BTree.node .nil y c (.node l b c' r')).postorder ++ Ctx.pending (k1 ++ k) =
          (BTree.node l b c' r').postorder ++ Ctx.pending (⟨.right, y, c, .nil⟩ :: (k1 ++ k)) := by
        simp [BTree.postorder, Ctx.pending]
      have hsize : (BTree.node l b c' r').size < n := by
        have hlen := (Ctx.plug_perm k1 (.node .nil y c (.node l b c' r'))).length_eq
        rw [BTree.length_toList, hn, List.length_append, BTree.length_toList] at hlen
        simp only [BTree.size] at hlen ⊢
        omega
      rw [hplug] at h ⊢
      rw [hpost] at hrest ⊢
      obtain ⟨x, k', u', hrun, hp, hx, hpend⟩ := ih _ hsize h rfl hrest rfl
      refine ⟨x, k', u', ?_, hp, hx, hpend⟩
      refine (loop_next ?_).trans hrun
      show (Live.firstlast (view t.mem freed) r .left >>= _) = _
      rw [hfirst, pure_bind]
      show (Live.node (view t.mem freed) y >>= _) = _
      rw [hnode, pure_bind]
      simp only [hright, BTree.ptr]

theorem Rep.root_plug {f : Frame A} (h : Rep t (Ctx.plug (f :: k) u)) : ∃ r, t.root = some r := by
  rw [h.root]
  have hmem : f.a ∈ (Ctx.plug (f :: k) u).toList := Ctx.mem_plug.mpr (Or.inl (by simp [Ctx.addrs]))
  cases hs : Ctx.plug (f :: k) u with
  | nil =>
    rw [hs] at hmem
    cases hmem
  | node l a c r => exact ⟨a, rfl⟩

/-- A call that processes the node above the hole. -/
theorem liveDestroy_self {f : Frame A} {dir : TreeDir} (h : Rep t (Ctx.plug (f :: k) u))
    (hrest : ∀ a ∈ f.a :: k.pending, a ∉ freed)
    (hnext : Live.rightNext (view t.mem freed) f.a dir = pure none) :
    Live.treeDestroyNodes (t.live freed) (.at f.a dir) =
      pure (some f.a, cursorOf k, t.live freed) := by
  obtain ⟨r, hroot⟩ := h.root_plug
  have hsave := liveSaveParent_spec (k := k) (u := .mk f.dir f.a f.red u f.sib) (x := f.a) h (by simp)
    (hrest f.a List.mem_cons_self) fun a ha => hrest a (List.mem_cons_of_mem _ ha)
  have hlive : (t.live freed).root = some r := hroot
  rw [Live.treeDestroyNodes, hlive]
  dsimp only
  show (Live.rightNext (view t.mem freed) f.a dir >>= _) = _
  rw [hnext, pure_bind]
  simp only [Live.destroyNodesSelf, hsave, pure_bind]

/-- A call with the cursor of `k` returns the next pending node. -/
theorem liveDestroy_at {f : Frame A} (h : Rep t (Ctx.plug (f :: k) u))
    (hrest : ∀ a ∈ Ctx.pending (f :: k), a ∉ freed) :
    ∃ x k' u', Live.treeDestroyNodes (t.live freed) (cursorOf (f :: k)) =
        pure (some x, cursorOf k', t.live freed) ∧
      Ctx.plug (f :: k) u = Ctx.plug k' u' ∧ u'.ptr = some x ∧
      Ctx.pending (f :: k) = x :: k'.pending := by
  obtain ⟨d, a, c, sib⟩ := f
  obtain ⟨⟨hc, hc', -⟩, -⟩ := repr_plug.mp h.repr
  have haf : a ∉ freed := hrest a (by simp [Ctx.pending])
  have hself : ∀ b ∈ a :: k.pending, b ∉ freed := fun b hb => hrest b (by
    rw [Ctx.pending]
    exact List.mem_append_right _ hb)
  cases d with
  | right =>
    refine ⟨a, k, .mk .right a c u sib, ?_, rfl, by simp, rfl⟩
    exact liveDestroy_self h hself rfl
  | left =>
    have hnext : Live.rightNext (view t.mem freed) a .right = pure sib.ptr := by
      rw [Live.rightNext, if_pos rfl, node_view haf, pure_bind]
      exact congrArg pure hc'
    cases sib with
    | nil =>
      refine ⟨a, k, .mk .left a c u .nil, ?_, rfl, by simp, rfl⟩
      exact liveDestroy_self h hself hnext
    | node l b c' r =>
      have hplug : Ctx.plug (⟨.left, a, c, .node l b c' r⟩ :: k) u =
          Ctx.plug (⟨.right, a, c, u⟩ :: k) (.node l b c' r) := rfl
      have hpend : Ctx.pending (⟨.left, a, c, .node l b c' r⟩ :: k) =
          (BTree.node l b c' r).postorder ++ Ctx.pending (⟨.right, a, c, u⟩ :: k) := by
        simp [Ctx.pending]
      obtain ⟨q, hroot⟩ := h.root_plug
      have hlive : (t.live freed).root = some q := hroot
      rw [hplug] at h ⊢
      rw [hpend] at hrest ⊢
      obtain ⟨x, k', u', hrun, hp, hx, hpend'⟩ := liveStep_spec h rfl hrest
      refine ⟨x, k', u', ?_, hp, hx, hpend'⟩
      show Live.treeDestroyNodes (t.live freed) (.at a .right) = _
      rw [Live.treeDestroyNodes, hlive]
      dsimp only
      show (Live.rightNext (view t.mem freed) a .right >>= _) = _
      rw [hnext, pure_bind]
      simp only [BTree.ptr, hrun, pure_bind]

theorem live_free (t : TreeTree A M) (freed : List A) (a : A) :
    { t.live freed with mem := Live.free (t.live freed).mem a } = t.live (freed ++ [a]) := by
  rw [TreeTree.live, TreeTree.live, free_view]

/-- The loop of the callers once the subtree in the hole of `k` is through. -/
theorem destroyAll_loop (h : Rep t (k.plug u)) (hu : u ≠ .nil) {all : List A}
    (hall : all = freed ++ k.pending) (hnd : all.Nodup) :
    loop Live.destroyRound (freed, cursorOf k, t.live freed) =
      pure (all, .done, { t.live all with root := none, numNodes := 0 }) := by
  induction hp : k.pending generalizing k u freed with
  | nil =>
    cases k with
    | nil =>
      rw [hp, List.append_nil] at hall
      subst hall
      obtain ⟨r, hr⟩ : ∃ r, t.root = some r := by
        rw [h.root]
        cases u with
        | nil => exact absurd rfl hu
        | node l a c r => exact ⟨a, rfl⟩
      have hlive : (t.live all).root = some r := hr
      refine loop_done ?_
      rw [Live.destroyRound, Live.treeDestroyNodes, hlive]
      rfl
    | cons f k => simp [Ctx.pending] at hp
  | cons a l ih =>
    cases k with
    | nil => cases hp
    | cons f k =>
      have hdisj : ∀ b ∈ Ctx.pending (f :: k), b ∉ freed := by
        intro b hb hbf
        rw [hall] at hnd
        exact (List.nodup_append.mp hnd).2.2 b hbf b hb rfl
      obtain ⟨x, k', u', hrun, hplug, hx, hpend⟩ := liveDestroy_at h hdisj
      obtain ⟨rfl, rfl⟩ := List.cons.inj (hp.symm.trans hpend)
      have hu' : u' ≠ .nil := by
        rintro rfl
        cases hx
      have hall' : all = freed ++ [a] ++ k'.pending := by simp [hall, hpend]
      refine (loop_next ?_).trans (ih (hplug ▸ h) hu' hall' rfl)
      rw [Live.destroyRound, hrun, pure_bind, ← live_free]

/-- Two ways to cut a list at the same item. -/
theorem cut_eq {l l' r r' : List A} {a : A} (hnd : (l ++ a :: r).Nodup)
    (h : l ++ a :: r = l' ++ a :: r') : l = l' := by
  obtain ⟨ha, -⟩ := List.nodup_cons.mp (List.nodup_middle.mp hnd)
  rw [List.mem_append, not_or] at ha
  exact ((List.append_cons_inj_of_notMem ha.1 ha.2).mp h).1

/-- Children come before their parent. -/
theorem postorder_child {m : M} {par : Option A} (h : Repr m par s) (hnd : s.postorder.Nodup) {a b : A}
    {d : TreeDir} {l r : List A} (hs : s.postorder = l ++ a :: r) (hb : child m a d = some b) :
    b ∈ l := by
  induction s generalizing par l r with
  | nil => simp [BTree.postorder] at hs
  | node u x c v ihu ihv =>
    obtain ⟨hl, hr, -, -, hu, hv⟩ := h
    rw [BTree.postorder] at hs hnd
    obtain ⟨hnuv, -, -⟩ := List.nodup_append.mp hnd
    obtain ⟨hnu, hnv, -⟩ := List.nodup_append.mp hnuv
    rw [hs] at hnd
    have ha : a ∈ u.postorder ++ v.postorder ++ [x] := by simp [hs]
    rw [List.mem_append, List.mem_append, List.mem_singleton] at ha
    rcases ha with (ha | ha) | rfl
    · obtain ⟨l', r', hl'⟩ := List.append_of_mem ha
      have hcut : l = l' := cut_eq hnd (by rw [← hs, hl', List.append_assoc, List.append_assoc]; rfl)
      rw [hcut]
      exact ihu hu hnu hl'
    · obtain ⟨l', r', hl'⟩ := List.append_of_mem ha
      have hcut : l = u.postorder ++ l' := cut_eq hnd (by
        rw [← hs, hl', ← List.append_assoc, List.append_assoc (u.postorder ++ l')]
        rfl)
      rw [hcut]
      exact List.mem_append_right _ (ihv hv hnv hl')
    · have hcut : l = u.postorder ++ v.postorder := cut_eq hnd hs.symm
      rw [hcut, List.mem_append]
      cases d with
      | left =>
        rw [hl] at hb
        exact Or.inl ((BTree.postorder_perm u).mem_iff.mpr (BTree.mem_of_ptr hb))
      | right =>
        rw [hr] at hb
        exact Or.inr ((BTree.postorder_perm v).mem_iff.mpr (BTree.mem_of_ptr hb))

/-- The loop of the callers, from a zeroed cookie. -/
theorem destroyAll_spec (h : Rep t s) (hn : t.numNodes = s.size) :
    ∃ cursor, Live.destroyAll (t.live []) =
      pure (s.postorder, cursor, { t.live s.postorder with root := none, numNodes := 0 }) := by
  have hnd : s.postorder.Nodup := (BTree.postorder_perm s).nodup_iff.mpr h.nodup
  cases s with
  | nil =>
    have hroot : t.root = none := h.root
    have hlive : t.live [] = { t.live [] with root := none, numNodes := 0 } := by
      rw [TreeTree.live, hroot, hn]
      rfl
    refine ⟨.start, loop_done ?_⟩
    rw [hlive]
    rfl
  | node l a c r =>
    have hroot : (t.live []).root = some a := h.root
    obtain ⟨x, k, u, hrun, hplug, hx, hpend⟩ := liveStep_spec (k := []) (r := a) h rfl
      (fun _ _ => List.not_mem_nil)
    have hu : u ≠ .nil := by
      rintro rfl
      cases hx
    have hfirst : Live.destroyRound ([], .start, t.live []) =
        pure (.inl ([x], cursorOf k, t.live [x])) := by
      have hfree := live_free t [] x
      rw [List.nil_append] at hfree
      rw [Live.destroyRound, Live.treeDestroyNodes, hroot]
      dsimp only
      rw [hrun, pure_bind, pure_bind, ← hfree]
      rfl
    have hall : (BTree.node l a c r).postorder = [x] ++ k.pending := by
      rw [← List.append_nil (BTree.postorder _)]
      exact hpend
    refine ⟨.done, (loop_next hfirst).trans (destroyAll_loop ?_ hu hall hnd)⟩
    rw [← hplug]
    exact h

/-- Destruction of any tree returns its items in post-order, then NULL, and leaves an empty tree. None of
the calls touches an item that has been returned, for these are freed. -/
theorem destroy_nodes_postorder (t : TreeTree A M) (s : BTree A) (h : Rep t s)
    (hn : t.numNodes = s.size) :
    ∃ items t' cursor, Live.destroyAll (t.live []) = pure (items, cursor, t') ∧
      items = s.postorder ∧ items.Nodup ∧ (∀ a, a ∈ items ↔ Member t a) ∧ items.length = t.numNodes ∧
      (∀ l a r d b, items = l ++ a :: r → child t.mem a d = some b → b ∈ l) ∧
      t'.root = none ∧ t'.numNodes = 0 ∧ t'.mem = view t.mem items ∧
      ∀ c, Live.treeDestroyNodes t' c = pure (none, c, t') := by
  have hperm := BTree.postorder_perm s
  have hnd : s.postorder.Nodup := hperm.nodup_iff.mpr h.nodup
  obtain ⟨cursor, hrun⟩ := destroyAll_spec h hn
  refine ⟨_, _, cursor, hrun, rfl, hnd, ?_, ?_, ?_, rfl, rfl, rfl, fun c => rfl⟩
  · intro a
    rw [hperm.mem_iff, h.member_iff]
  · rw [hperm.length_eq, BTree.length_toList, hn]
  · intro l a r d b hs hb
    exact postorder_child h.repr hnd hs hb

/-- The tree of 1, 2 and 3. -/
theorem destroy_nodes_postorder_insert : ∃ t t' cursor,
    (rb Int (PlainMem Int) Int).insertAll intCmp id (rbCreate (freshMem Int)) [1, 2, 3] = pure t ∧
      Live.destroyAll (t.live []) = pure ([1, 3, 2], cursor, t') ∧ t'.root = none ∧ t'.numNodes = 0 := by
  obtain ⟨t, s, hrun, -, hs, hl⟩ := insertAll_int (P := fun _ => True) rb_isFlavour (fun _ _ => trivial) trivial
    (List.Perm.refl [1, 2, 3]) (by decide)
  obtain ⟨items, t', cursor, hdestroy, hitems, -, -, -, -, hroot, hzero, -⟩ :=
    destroy_nodes_postorder t s hs.rep hs.numNodes
  obtain ⟨l, r, col, rfl, hleft, hright⟩ := hs.good.middle hl
  have hl1 : l.postorder = [1] := List.perm_singleton.mp (hleft ▸ BTree.postorder_perm l)
  have hr3 : r.postorder = [3] := List.perm_singleton.mp (hright ▸ BTree.postorder_perm r)
  obtain rfl : items = [1, 3, 2] := by
    rw [hitems, BTree.postorder, hl1, hr3]
    rfl
  exact ⟨t, t', cursor, hrun, hdestroy, hroot, hzero⟩

/-! ## While nothing has been freed -/

theorem live_node (m : M) (a : A) :
    Live.node (view m []) a = pure ⟨child m a, getParent m a, getExtra m a⟩ :=
  node_view List.not_mem_nil

theorem live_firstlast (m : M) (a : A) (d : TreeDir) :
    Live.firstlast (view m []) a d = firstlast m a d := by
  rw [Live.firstlast]
  simp only [live_node, pure_bind]
  rfl

theorem live_saveParent (t : TreeTree A M) (a : A) :
    Live.destroyNodesSaveParent (t.live []) a = destroyNodesSaveParent t a := by
  rw [Live.destroyNodesSaveParent, destroyNodesSaveParent]
  simp only [TreeTree.live, live_node, pure_bind, liveWhichDir List.not_mem_nil]

theorem live_step (t : TreeTree A M) (a : A) :
    Live.destroyNodesStep (t.live []) a = destroyNodesStep t a := by
  have hmem : (t.live []).mem = view t.mem [] := rfl
  rw [Live.destroyNodesStep]
  simp only [live_saveParent, hmem, live_firstlast, live_node, pure_bind]
  rfl

theorem live_rightNext (m : M) (a : A) (dir : TreeDir) :
    Live.rightNext (view m []) a dir = pure (if dir = .right then child m a .right else none) := by
  rw [Live.rightNext]
  split
  · rw [live_node, pure_bind]
  · rfl

/-- The two models of `tree_destroy_nodes` agree as long as no node has been freed. -/
theorem live_treeDestroyNodes (t : TreeTree A M) (cursor : Cursor A) :
    Live.treeDestroyNodes (t.live []) cursor = (do
      let (r, c, t') ← treeDestroyNodes t cursor
      pure (r, c, t'.live [])) := by
  have hmem : (t.live []).mem = view t.mem [] := rfl
  have hroot : (t.live []).root = t.root := rfl
  rw [Live.treeDestroyNodes, treeDestroyNodes, hroot]
  cases t.root with
  | none => rfl
  | some root =>
    cases cursor with
    | done => rfl
    | start => simp only [live_step, bind_assoc, pure_bind]
    | «at» n dir =>
      simp only [hmem, live_rightNext, pure_bind]
      cases (if dir = .right then child t.mem n .right else none) with
      | some r => simp only [live_step, bind_assoc, pure_bind]
      | none => simp only [Live.destroyNodesSelf, destroyNodesSelf, live_saveParent, bind_assoc, pure_bind]

end Libjeffpc.Tree
