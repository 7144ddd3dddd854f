import Libjeffpc.Lib.RedBlack
import Libjeffpc.Tree.Proofs.RemoveProofs

/-!
# The repair loop of `rb_insert_here`

The loop moves a red node whose parent may be red towards the root. Its invariant: the tree is
balanced but for that pair, that is, the subtrees of the node are balanced, black and of one black
height, and so is everything outside of the node (`BalCtx`).
-/

set_option linter.unusedSectionVars false

namespace Libjeffpc.Tree

open Lib

variable {A M : Type} [DecidableEq A] [TreeMem A M] [LawfulTreeMem A M]

section Access

variable {t : TreeTree A M} {k : Ctx A} {s x y : BTree A} {f : Frame A} {d : TreeDir} {a : A} {c : Bool}

theorem Rep.isRed_eq (h : Rep t (k.plug s)) : isRed t.mem s.ptr = s.red := by
  cases s with
  | nil => rfl
  | node l a c r => exact (repr_plug.mp h.repr).2.2.2.2.1

theorem Rep.isRed_mk (h : Rep t (k.plug (.mk d a c x y))) : isRed t.mem (some a) = c := by
  simpa using h.isRed_eq

theorem Rep.parent_eq (h : Rep t (k.plug (.mk d a c x y))) : getParent t.mem a = Ctx.ptr none k :=
  (repr_mk.mp (repr_plug.mp h.repr).2).2.2.1

theorem Rep.child_eq (h : Rep t (k.plug (.mk d a c x y))) : child t.mem a d = x.ptr :=
  (repr_mk.mp (repr_plug.mp h.repr).2).1

theorem Rep.child_flip_eq (h : Rep t (k.plug (.mk d a c x y))) : child t.mem a d.flip = y.ptr :=
  (repr_mk.mp (repr_plug.mp h.repr).2).2.1

theorem Rep.whichDir_eq (h : Rep t (Ctx.plug (f :: k) s)) (hne : s ≠ .nil ∨ f.sib ≠ .nil) :
    whichDir t.mem f.a s.ptr = f.dir := by
  refine Tree.whichDir_eq (repr_plug.mp h.repr).1 (fun he => ?_)
  cases hs : s.ptr with
  | none =>
    rw [hs] at he
    rw [BTree.ptr_eq_none.mp hs, BTree.ptr_eq_none.mp he.symm] at hne
    simp at hne
  | some a =>
    exact head_sib_ne (Ctx.nodup_plug.mp h.nodup) (BTree.mem_of_ptr hs) f rfl (by rw [← hs, he])

/-- The same tree seen from another position. -/
theorem Rep.congr {s' : BTree A} (h : Rep t s) (he : s = s') : Rep t s' := he ▸ h

end Access

theorem red_ptr_ne {s : BTree A} (h : s.red = true) : s ≠ .nil := by
  rintro rfl
  simp at h

theorem blacken_eq {s : BTree A} (h : s.red = false) : s.blacken = s := by
  cases s with
  | nil => rfl
  | node l a c r => cases h; rfl

section Rotations

variable {t : TreeTree A M} {k : Ctx A} {d : TreeDir} {n p g : A} {x y z u : BTree A}

/-- The first rotation turns the case where `node` and `parent` are on different sides into the one
where they are on the same side. -/
theorem rbInsertZigZag_inner
    (h : Rep t (k.plug (.mk d g false (.mk d p true z (.mk d n true x y)) u))) :
    ∃ t', rbInsertZigZag t n p g = pure (t', p, some n, some g) ∧
      Rep t' (k.plug (.mk d g false (.mk d n true (.mk d p true z x) y) u)) ∧
      t'.numNodes = t.numNodes ∧ SameOff (k.plug (.mk d g false
        (.mk d p true z (.mk d n true x y)) u)).toList t.mem t'.mem := by
  have h1 : Rep t (Ctx.plug (⟨d.flip, p, true, z⟩ :: ⟨d, g, false, u⟩ :: k) (.mk d n true x y)) :=
    h.congr (by simp [BTree.mk_flip])
  have h2 : Rep t (Ctx.plug (⟨d, g, false, u⟩ :: k) (.mk d p true z (.mk d n true x y))) := h
  have hd1 : whichDir t.mem p (some n) = d.flip := by
    simpa using h1.whichDir_eq (Or.inl (red_ptr_ne (by simp)))
  have hd2 : whichDir t.mem g (some p) = d := by
    simpa using h2.whichDir_eq (Or.inl (red_ptr_ne (by simp)))
  obtain ⟨t', hrun, hrep, hnum, hoff⟩ := rbRotate_spec h2
  have hp' : Rep t' (Ctx.plug (⟨d, n, true, y⟩ :: ⟨d, g, false, u⟩ :: k) (.mk d p true z x)) := hrep
  refine ⟨t', ?_, hrep, hnum, hoff⟩
  rw [rbInsertZigZag, hd1, hd2, if_pos (Dir.flip_ne d), Dir.flip_flip, hrun]
  simp [hp'.parent_eq, hrep.parent_eq, Ctx.ptr]

/-- The first rotation is not done where `node` and `parent` are on the same side. -/
theorem rbInsertZigZag_outer
    (h : Rep t (k.plug (.mk d g false (.mk d p true (.mk d n true x y) z) u))) :
    rbInsertZigZag t n p g = pure (t, n, some p, some g) := by
  have h1 : Rep t (Ctx.plug (⟨d, p, true, z⟩ :: ⟨d, g, false, u⟩ :: k) (.mk d n true x y)) := h
  have h2 : Rep t (Ctx.plug (⟨d, g, false, u⟩ :: k) (.mk d p true (.mk d n true x y) z)) := h
  have hd1 : whichDir t.mem p (some n) = d := by
    simpa using h1.whichDir_eq (Or.inl (red_ptr_ne (by simp)))
  have hd2 : whichDir t.mem g (some p) = d := by
    simpa using h2.whichDir_eq (Or.inl (red_ptr_ne (by simp)))
  rw [rbInsertZigZag, hd1, hd2, if_neg (by simp)]

/-- The second rotation and the recolouring after it. -/
theorem rbInsertZigZig_spec
    (h : Rep t (k.plug (.mk d g false (.mk d p true (.mk d n true x y) z) u))) :
    ∃ t', rbInsertZigZig t n p g = pure t' ∧
      Rep { t' with mem := setRed (setRed t'.mem (some p) false) (some g) true }
        (k.plug (.mk d p false (.mk d n true x y) (.mk d g true z u))) ∧
      t'.numNodes = t.numNodes ∧ SameOff (k.plug (.mk d g false
        (.mk d p true (.mk d n true x y) z) u)).toList t.mem
        (setRed (setRed t'.mem (some p) false) (some g) true) := by
  have h1 : Rep t (Ctx.plug (⟨d, p, true, z⟩ :: ⟨d, g, false, u⟩ :: k) (.mk d n true x y)) := h
  have h2 : Rep t (Ctx.plug (⟨d, g, false, u⟩ :: k) (.mk d p true (.mk d n true x y) z)) := h
  have hd1 : whichDir t.mem p (some n) = d := by
    simpa using h1.whichDir_eq (Or.inl (red_ptr_ne (by simp)))
  have hd2 : whichDir t.mem g (some p) = d := by
    simpa using h2.whichDir_eq (Or.inl (red_ptr_ne (by simp)))
  have h3 : Rep t (k.plug (.mk d.flip g false u (.mk d.flip p true z (.mk d n true x y)))) :=
    h.congr (by simp [BTree.mk_flip])
  obtain ⟨t', hrun, hrep, hnum, hoff⟩ := rbRotate_spec h3
  have hr1 := hrep.setRed false
  have hr2 : Rep { t' with mem := setRed t'.mem (some p) false }
      (Ctx.plug (⟨d.flip, p, false, .mk d n true x y⟩ :: k) (.mk d.flip g false u z)) := hr1
  have hr3 := hr2.setRed true
  have hlist : (k.plug (.mk d.flip g false u (.mk d.flip p true z (.mk d n true x y)))) =
      (k.plug (.mk d g false (.mk d p true (.mk d n true x y) z) u)) := by simp [BTree.mk_flip]
  rw [hlist] at hoff
  refine ⟨t', ?_, hr3.congr (by simp [BTree.mk_flip]), hnum, (hoff.setRed ?_ _).setRed ?_ _⟩
  · rw [rbInsertZigZig, hd1, hd2, if_pos rfl, hrun]
  · simp [Ctx.mem_plug, BTree.mem_toList_mk]
  · simp [Ctx.mem_plug, BTree.mem_toList_mk]

end Rotations

section Step

variable {t : TreeTree A M} {k : Ctx A} {d e : TreeDir} {n p g : A} {x y u v : BTree A}

/-- A round below a black node, or at the root, leaves the loop. -/
theorem rbInsertStep_done (h : Rep t (k.plug (.mk d n true x y)))
    (hk : ∀ f ∈ k.head?, f.red = false) : rbInsertStep (t, some n) = pure (.inr t) := by
  have hp : isRed t.mem (Ctx.ptr none k) = false := by
    cases k with
    | nil => rfl
    | cons f k =>
      have h' : Rep t (Ctx.plug k (.mk f.dir f.a f.red (.mk d n true x y) f.sib)) := h
      exact h'.isRed_mk.trans (hk f rfl)
  simp only [rbInsertStep, h.isRed_mk, h.parent_eq, hp, if_true]

section Uncle

variable (h : Rep t (k.plug (.mk e g false (.mk d p true (.mk .left n true x y) u) v)))

include h

/-- What a round reads below a red node: `parent`, `gparent` and `uncle`. -/
theorem rbInsertStep_reads : isRed t.mem (some n) = true ∧ getParent t.mem n = some p ∧
    getParent t.mem p = some g ∧ isRed t.mem (some p) = true ∧
    child t.mem g (whichDir t.mem g (some p)).flip = v.ptr ∧ isRed t.mem v.ptr = v.red := by
  have h1 : Rep t (Ctx.plug (⟨d, p, true, u⟩ :: ⟨e, g, false, v⟩ :: k) (.mk .left n true x y)) := h
  have h2 : Rep t (Ctx.plug (⟨e, g, false, v⟩ :: k) (.mk d p true (.mk .left n true x y) u)) := h
  have h3 : Rep t (Ctx.plug (⟨e.flip, g, false, .mk d p true (.mk .left n true x y) u⟩ :: k) v) :=
    h.congr (by simp [BTree.mk_flip])
  have hd : whichDir t.mem g (some p) = e := by
    simpa using h2.whichDir_eq (Or.inl (red_ptr_ne (by simp)))
  refine ⟨h1.isRed_mk, h1.parent_eq, h2.parent_eq, h2.isRed_mk, ?_, h3.isRed_eq⟩
  rw [hd, h.child_flip_eq]

/-- A round with a red uncle recolours three nodes and goes on at the grandparent. -/
theorem rbInsertStep_recolor (hv : v.red = true) :
    ∃ t', rbInsertStep (t, some n) = pure (.inl (t', some g)) ∧
      Rep t' (k.plug (.mk e g true (.mk d p false (.mk .left n true x y) u) v.blacken)) ∧
      t'.numNodes = t.numNodes ∧ SameOff (k.plug (.mk e g false
        (.mk d p true (.mk .left n true x y) u) v)).toList t.mem t'.mem := by
  obtain ⟨r1, r2, r3, r4, r5, r6⟩ := rbInsertStep_reads h
  obtain ⟨q, c, w, w', rfl⟩ := BTree.exists_mk (red_ptr_ne hv) .left
  obtain rfl : c = true := by simpa using hv
  rw [BTree.ptr_mk] at r5 r6
  have h2 : Rep t (Ctx.plug (⟨e, g, false, .mk .left q true w w'⟩ :: k)
      (.mk d p true (.mk .left n true x y) u)) := h
  have h3 := h2.setRed false
  have h4 : Rep { t with mem := setRed t.mem (some p) false } (Ctx.plug (⟨e.flip, g, false,
      .mk d p false (.mk .left n true x y) u⟩ :: k) (.mk .left q true w w')) :=
    h3.congr (by simp [BTree.mk_flip])
  have h5 := h4.setRed false
  have h6 : Rep { t with mem := setRed (setRed t.mem (some p) false) (some q) false }
      (k.plug (.mk e g false (.mk d p false (.mk .left n true x y) u) (.mk .left q false w w'))) :=
    h5.congr (by simp [BTree.mk_flip])
  have h7 := h6.setRed true
  refine ⟨_, ?_, h7.congr (by simp), rfl,
    (((SameOff.refl _ _).setRed ?_ _).setRed ?_ _).setRed ?_ _⟩
  · simp only [rbInsertStep, r1, r2, r3, r4, r5, r6, if_true, Option.bind_some]
    simp
  all_goals simp [Ctx.mem_plug, BTree.mem_toList_mk]

/-- A round with a black uncle rotates; the red node is then below a black one. -/
theorem rbInsertStep_rotate (hv : v.red = false) (hu : u.red = false) {m : Nat}
    (bx : x.red = false ∧ x.Bal m) (by' : y.red = false ∧ y.Bal m) (bu : u.Bal m) (bv : v.Bal m) :
    ∃ t' n' p' a b w, rbInsertStep (t, some n) = pure (.inl (t', some n')) ∧
      Rep t' (k.plug (.mk e p' false (.mk e n' true a b) w)) ∧
      (BTree.mk e p' false (.mk e n' true a b) w).Bal (m + 1) ∧
      (BTree.mk e p' false (.mk e n' true a b) w).toList =
        (BTree.mk e g false (.mk d p true (.mk .left n true x y) u) v).toList ∧
      t'.numNodes = t.numNodes ∧ SameOff (k.plug (.mk e g false
        (.mk d p true (.mk .left n true x y) u) v)).toList t.mem t'.mem := by
  obtain ⟨r1, r2, r3, r4, r5, r6⟩ := rbInsertStep_reads h
  have hstep : ∀ r, rbInsertRotate t n (some p) (some g) = pure r →
      rbInsertStep (t, some n) = pure (.inl (r.1, some r.2)) := by
    intro r hr
    simp only [rbInsertStep, r1, r2, r3, r4, r5, r6, hv, if_true, Option.bind_some, hr, pure_bind]
    simp
  obtain ⟨a, b, hab, ba, bb⟩ : ∃ a b, BTree.mk .left n true x y = .mk e n true a b ∧
      (a.red = false ∧ a.Bal m) ∧ (b.red = false ∧ b.Bal m) := by
    cases e with
    | left => exact ⟨x, y, rfl, bx, by'⟩
    | right => exact ⟨y, x, (BTree.mk_flip .right n true x y), by', bx⟩
  rw [hab] at h ⊢
  rcases Dir.eq_or_eq_flip e d with rfl | rfl
  · obtain ⟨t', hrun, hrep, hnum, hoff⟩ := rbInsertZigZig_spec h
    refine ⟨_, n, p, a, b, .mk d g true u v, ?_, hrep, ?_, ?_, hnum, hoff⟩
    · refine hstep (_, n) ?_
      simp [rbInsertRotate, rbInsertZigZag_outer h, hrun]
    · exact BTree.bal_black_succ.mpr ⟨BTree.bal_red.mpr ⟨ba.1, bb.1, ba.2, bb.2⟩,
        BTree.bal_red.mpr ⟨hu, hv, bu, bv⟩⟩
    · cases d <;> simp [BTree.mk, BTree.toList]
  · rw [BTree.mk_flip] at h ⊢
    obtain ⟨t1, hrun1, hrep1, hnum1, hoff1⟩ := rbInsertZigZag_inner h
    obtain ⟨t', hrun, hrep, hnum, hoff⟩ := rbInsertZigZig_spec hrep1
    have hl : (BTree.mk e g false (.mk e n true (.mk e p true u a) b) v).toList =
        (BTree.mk e g false (.mk e p true u (.mk e n true a b)) v).toList := by
      cases e <;> simp [BTree.mk, BTree.toList]
    refine ⟨_, p, n, u, a, .mk e g true b v, ?_, hrep, ?_, ?_, hnum.trans hnum1,
      hoff1.trans (hoff.mono (fun z hz => ?_))⟩
    · refine hstep (_, p) ?_
      simp [rbInsertRotate, hrun1, hrun]
    · exact BTree.bal_black_succ.mpr ⟨BTree.bal_red.mpr ⟨hu, ba.1, bu, ba.2⟩,
        BTree.bal_red.mpr ⟨bb.1, hv, bb.2, bv⟩⟩
    · cases e <;> simp [BTree.mk, BTree.toList]
    · rw [Ctx.toList_plug, hl, ← Ctx.toList_plug] at hz
      exact hz

end Uncle

end Step

/-- The repair loop of `rb_insert_here` ends with a tree that is balanced once its root is black. -/
theorem rbInsertLoop_spec {t : TreeTree A M} {k : Ctx A} {n : A} {x y : BTree A} {m : Nat}
    (h : Rep t (k.plug (.mk .left n true x y))) (bx : x.red = false ∧ x.Bal m)
    (by' : y.red = false ∧ y.Bal m) (hk : k.BalCtx m) :
    ∃ t' s, loop rbInsertStep (t, some n) = pure t' ∧ Rep t' s ∧
      s.toList = (k.plug (.mk .left n true x y)).toList ∧ (∃ m', s.blacken.Bal m') ∧
      t'.numNodes = t.numNodes ∧
      SameOff (k.plug (.mk .left n true x y)).toList t.mem t'.mem := by
  -- a recolouring goes two frames up
  induction hl : k.length using Nat.strong_induction_on generalizing t k n x y m with
  | _ len ih =>
    match k, hl with
    | [], _ =>
      refine ⟨t, _, loop_done (rbInsertStep_done h (by simp)), h, rfl, ⟨m + 1, ?_⟩, rfl,
        SameOff.refl _ _⟩
      rw [Ctx.plug_nil, BTree.blacken_mk]
      exact BTree.bal_black_succ.mpr ⟨bx.2, by'.2⟩
    | ⟨d, p, false, u⟩ :: k, _ =>
      refine ⟨t, _, loop_done (rbInsertStep_done h (by simp)), h, rfl, ?_, rfl, SameOff.refl _ _⟩
      obtain ⟨m', hb, hr⟩ := Ctx.bal_plug hk
        (BTree.bal_red (d := .left) (a := n) |>.mpr ⟨bx.1, by'.1, bx.2, by'.2⟩) (fun _ => rfl)
      exact ⟨m', by rw [blacken_eq hr]; exact hb⟩
    | ⟨d, p, true, u⟩ :: k, hl =>
      obtain ⟨bu, hu, hok, hk1⟩ := Ctx.balCtx_red.mp hk
      match k, hok with
      | ⟨e, g, false, v⟩ :: k, _ =>
        obtain ⟨bv, hk2⟩ := Ctx.balCtx_black.mp hk1
        have bp : (BTree.mk d p false (.mk .left n true x y) u).Bal (m + 1) :=
          BTree.bal_black_succ.mpr ⟨BTree.bal_red.mpr ⟨bx.1, by'.1, bx.2, by'.2⟩, bu⟩
        cases hv : v.red with
        | true =>
          obtain ⟨t', hstep, hrep, hnum, hoff⟩ := rbInsertStep_recolor h hv
          have bv' : v.blacken.red = false ∧ v.blacken.Bal (m + 1) := by
            obtain ⟨q, c, w, w', rfl⟩ := BTree.exists_mk (red_ptr_ne hv) .left
            obtain rfl : c = true := by simpa using hv
            obtain ⟨-, -, b1, b2⟩ := BTree.bal_red.mp bv
            rw [BTree.blacken_mk]
            exact ⟨by simp, BTree.bal_black_succ.mpr ⟨b1, b2⟩⟩
          have hlist : ∀ c c' w, w = v ∨ w = v.blacken →
              (Ctx.plug k (.mk e g c (.mk d p c' (.mk .left n true x y) u) w)).toList =
              (Ctx.plug k (.mk e g false (.mk d p true (.mk .left n true x y) u) v)).toList := by
            rintro c c' w (rfl | rfl) <;> rw [Ctx.toList_plug, Ctx.toList_plug] <;>
              cases e <;> cases d <;> simp [BTree.mk, BTree.toList]
          obtain ⟨a, b, hab, ba, bb⟩ : ∃ a b,
              BTree.mk e g true (.mk d p false (.mk .left n true x y) u) v.blacken = .mk .left g true a b ∧
              (a.red = false ∧ a.Bal (m + 1)) ∧ (b.red = false ∧ b.Bal (m + 1)) := by
            cases e with
            | left => exact ⟨_, _, rfl, ⟨by simp, bp⟩, bv'⟩
            | right => exact ⟨_, _, rfl, bv', ⟨by simp, bp⟩⟩
          have hlab := hlist true false v.blacken (Or.inr rfl)
          rw [hab] at hrep hlab
          obtain ⟨t2, s, hrun, hrep2, hs, hbal, hnum2, hoff2⟩ :=
            ih k.length (by simp at hl; omega) hrep ba bb hk2 rfl
          refine ⟨t2, s, by rw [loop_next hstep, hrun], hrep2, hs.trans hlab, hbal,
            hnum2.trans hnum, hoff.trans (hoff2.mono (fun z hz => ?_))⟩
          rw [hlab] at hz
          exact hz
        | false =>
          obtain ⟨t', n', p', a, b, w, hstep, hrep, hbal, hlist, hnum, hoff⟩ :=
            rbInsertStep_rotate h hv hu bx by' bu bv
          have hrep' : Rep t' (Ctx.plug (⟨e, p', false, w⟩ :: k) (.mk e n' true a b)) := hrep
          obtain ⟨m', hb, hr⟩ := Ctx.bal_plug hk2 hbal (fun h => by simp at h)
          refine ⟨t', _, ?_, hrep, ?_, ⟨m', by rw [blacken_eq hr]; exact hb⟩, hnum, hoff⟩
          · rw [loop_next hstep, loop_done (rbInsertStep_done hrep' (by simp))]
          · rw [Ctx.toList_plug, hlist, ← Ctx.toList_plug]
            rfl

end Libjeffpc.Tree
