import Libjeffpc.Tree.Proofs.InsertProofs

/-!
# The repair loop of `rb_remove`

The loop moves a subtree that lacks one black node towards the root. Its invariant: everything
outside of the subtree is balanced for one more black node than the subtree has (`Deficit`). A
subtree with a red root ends the loop, since painting the root black supplies the missing node.
-/

set_option linter.unusedSectionVars false

namespace Libjeffpc.Tree

open Lib

variable {A M : Type} [DecidableEq A] [TreeMem A M] [LawfulTreeMem A M]

/-- A subtree that lacks one black node to have black height `m + 1`. -/
def Deficit (s : BTree A) (m : Nat) : Prop :=
  (s.red = false ∧ s.Bal m) ∨ (s.red = true ∧ s.blacken.Bal (m + 1))

section Blocks

variable {t : TreeTree A M} {k : Ctx A} {d : TreeDir} {p q : A} {c : Bool} {s near far : BTree A}

theorem rbRemoveRedSibling_red (h : Rep t (k.plug (.mk d p c s (.mk d q true near far)))) :
    ∃ t', rbRemoveRedSibling t p d = pure (t', near.ptr) ∧
      Rep t' (k.plug (.mk d q false (.mk d p true s near) far)) ∧ t'.numNodes = t.numNodes ∧
      SameOff (k.plug (.mk d p c s (.mk d q true near far))).toList t.mem t'.mem := by
  have h1 : Rep t (Ctx.plug (⟨d.flip, p, c, s⟩ :: k) (.mk d q true near far)) :=
    h.congr (by simp [BTree.mk_flip])
  have h2 := h1.setRed false
  have h3 : Rep { t with mem := setRed t.mem (some q) false }
      (k.plug (.mk d p c s (.mk d q false near far))) := h2.congr (by simp [BTree.mk_flip])
  obtain ⟨t', hrun, hrep, hnum, hoff⟩ := rbRotate_spec (h3.setRed true)
  have hp : Rep t' (Ctx.plug (⟨d, q, false, far⟩ :: k) (.mk d p true s near)) := hrep
  refine ⟨t', ?_, hrep, hnum, SameOff.trans (((SameOff.refl _ _).setRed ?_ _).setRed ?_ _)
    (hoff.mono (fun z hz => ?_))⟩
  · have hsib : child t.mem p d.flip = some q := by simpa using h.child_flip_eq
    simp only [rbRemoveRedSibling, hsib, h1.isRed_mk, if_true, hrun, pure_bind, hp.child_flip_eq]
  · simp [Ctx.mem_plug, BTree.mem_toList_mk]
  · simp [Ctx.mem_plug, BTree.mem_toList_mk]
  · simpa [Ctx.mem_plug, BTree.mem_toList_mk] using hz

theorem rbRemoveRedSibling_black {sib : BTree A} (h : Rep t (k.plug (.mk d p c s sib)))
    (hs : sib.red = false) : rbRemoveRedSibling t p d = pure (t, sib.ptr) := by
  have h1 : Rep t (Ctx.plug (⟨d.flip, p, c, s⟩ :: k) sib) := h.congr (by simp [BTree.mk_flip])
  simp [rbRemoveRedSibling, h.child_flip_eq, h1.isRed_eq, hs]

/-- A red near child and a black far child of the sibling: the rotation at the sibling. -/
theorem rbRemoveNearRed_near {r : A} {a b : BTree A}
    (h : Rep t (k.plug (.mk d p c s (.mk d q false (.mk d r true a b) far)))) (hf : far.red = false) :
    ∃ t', rbRemoveNearRed t p q d = pure (t', some r) ∧
      Rep t' (k.plug (.mk d p c s (.mk d r false a (.mk d q true b far)))) ∧
      t'.numNodes = t.numNodes ∧
      SameOff (k.plug (.mk d p c s (.mk d q false (.mk d r true a b) far))).toList t.mem t'.mem := by
  have h1 : Rep t (Ctx.plug (⟨d, q, false, far⟩ :: ⟨d.flip, p, c, s⟩ :: k) (.mk d r true a b)) :=
    h.congr (by simp [BTree.mk_flip])
  have h2 : Rep t (Ctx.plug (⟨d.flip, q, false, .mk d r true a b⟩ :: ⟨d.flip, p, c, s⟩ :: k) far) :=
    h.congr (by simp [BTree.mk_flip])
  have h3 : Rep t (Ctx.plug (⟨d.flip, p, c, s⟩ :: k) (.mk d q false (.mk d r true a b) far)) :=
    h.congr (by simp [BTree.mk_flip])
  have h4 := h1.setRed false
  have h5 : Rep { t with mem := setRed t.mem (some r) false }
      (Ctx.plug (⟨d.flip, p, c, s⟩ :: k) (.mk d.flip q false far (.mk d.flip r false b a))) :=
    h4.congr (by simp [BTree.mk_flip])
  obtain ⟨t', hrun, hrep, hnum, hoff⟩ := rbRotate_spec (h5.setRed true)
  have hrep' : Rep t' (k.plug (.mk d p c s (.mk d r false a (.mk d q true b far)))) :=
    hrep.congr (by simp [BTree.mk_flip])
  refine ⟨t', ?_, hrep', hnum, SameOff.trans (((SameOff.refl _ _).setRed ?_ _).setRed ?_ _)
    (hoff.mono (fun z hz => ?_))⟩
  · have hnear : child t.mem q d = some r := by simpa using h3.child_eq
    have hsib : child t'.mem p d.flip = some r := by simpa using hrep'.child_flip_eq
    simp only [rbRemoveNearRed, h3.child_flip_eq, h2.isRed_eq, hf, if_true, hnear, hrun, pure_bind,
      hsib]
  · simp [Ctx.mem_plug, BTree.mem_toList_mk]
  · simp [Ctx.mem_plug, BTree.mem_toList_mk]
  · simp [Ctx.mem_plug, BTree.mem_toList_mk] at hz ⊢
    tauto

theorem rbRemoveNearRed_far (h : Rep t (k.plug (.mk d p c s (.mk d q false near far))))
    (hf : far.red = true) : rbRemoveNearRed t p q d = pure (t, some q) := by
  have h2 : Rep t (Ctx.plug (⟨d.flip, q, false, near⟩ :: ⟨d.flip, p, c, s⟩ :: k) far) :=
    h.congr (by simp [BTree.mk_flip])
  have h3 : Rep t (Ctx.plug (⟨d.flip, p, c, s⟩ :: k) (.mk d q false near far)) :=
    h.congr (by simp [BTree.mk_flip])
  simp [rbRemoveNearRed, h3.child_flip_eq, h2.isRed_eq, hf]

/-- A red far child of the sibling: the rotation at the parent ends the repair. -/
theorem rbRemoveFarRed_spec {w : A} {a b : BTree A}
    (h : Rep t (k.plug (.mk d p c s (.mk d q false near (.mk d w true a b))))) :
    ∃ t', rbRemoveFarRed t p (some q) d = pure t' ∧
      Rep t' (k.plug (.mk d q c (.mk d p false s near) (.mk d w false a b))) ∧
      t'.numNodes = t.numNodes ∧
      SameOff (k.plug (.mk d p c s (.mk d q false near (.mk d w true a b)))).toList t.mem t'.mem := by
  have h1 : Rep t (Ctx.plug (⟨d.flip, p, c, s⟩ :: k) (.mk d q false near (.mk d w true a b))) :=
    h.congr (by simp [BTree.mk_flip])
  have h2 := h1.setRed c
  have h3 : Rep { t with mem := setRed t.mem (some q) c }
      (k.plug (.mk d p c s (.mk d q c near (.mk d w true a b)))) := h2.congr (by simp [BTree.mk_flip])
  have h4 := h3.setRed false
  have h5 : Rep { t with mem := setRed (setRed t.mem (some q) c) (some p) false }
      (Ctx.plug (⟨d.flip, q, c, near⟩ :: ⟨d.flip, p, false, s⟩ :: k) (.mk d w true a b)) :=
    h4.congr (by simp [BTree.mk_flip])
  have h6 : Rep { t with mem := setRed (setRed t.mem (some q) c) (some p) false }
      (Ctx.plug (⟨d.flip, p, false, s⟩ :: k) (.mk d q c near (.mk d w true a b))) :=
    h4.congr (by simp [BTree.mk_flip])
  have h7 := h5.setRed false
  have h8 : Rep { t with mem := setRed (setRed (setRed t.mem (some q) c) (some p) false) (some w) false }
      (k.plug (.mk d p false s (.mk d q c near (.mk d w false a b)))) :=
    h7.congr (by simp [BTree.mk_flip])
  obtain ⟨t', hrun, hrep, hnum, hoff⟩ := rbRotate_spec h8
  refine ⟨t', ?_, hrep, hnum, SameOff.trans ((((SameOff.refl _ _).setRed ?_ _).setRed ?_ _).setRed ?_ _)
    (hoff.mono (fun z hz => ?_))⟩
  · have hw := h6.child_flip_eq
    rw [BTree.ptr_mk] at hw
    simp only [rbRemoveFarRed, h.isRed_mk, deref_some, pure_bind, hw, hrun]
  · simp [Ctx.mem_plug, BTree.mem_toList_mk]
  · simp [Ctx.mem_plug, BTree.mem_toList_mk]
  · simp [Ctx.mem_plug, BTree.mem_toList_mk]
  · simpa [Ctx.mem_plug, BTree.mem_toList_mk] using hz

end Blocks

section Round

variable {t : TreeTree A M} {k : Ctx A} {d : TreeDir} {p q : A} {c : Bool} {s near far : BTree A}
  {m : Nat}

/-- Two black children of the sibling: the sibling becomes red and the defect moves up. -/
theorem rbRemoveBlackSibling_up (h : Rep t (k.plug (.mk d p c s (.mk d q false near far))))
    (hn : near.red = false) (hf : far.red = false) :
    ∃ t', rbRemoveBlackSibling t p q d = pure (t', some p) ∧
      Rep t' (k.plug (.mk d p c s (.mk d q true near far))) ∧ t'.numNodes = t.numNodes ∧
      SameOff (k.plug (.mk d p c s (.mk d q false near far))).toList t.mem t'.mem := by
  have h1 : Rep t (Ctx.plug (⟨d.flip, p, c, s⟩ :: k) (.mk d q false near far)) :=
    h.congr (by simp [BTree.mk_flip])
  have h2 : Rep t (Ctx.plug (⟨d, q, false, far⟩ :: ⟨d.flip, p, c, s⟩ :: k) near) := h1
  have h3 : Rep t (Ctx.plug (⟨d.flip, q, false, near⟩ :: ⟨d.flip, p, c, s⟩ :: k) far) :=
    h1.congr (by simp [BTree.mk_flip])
  have h4 := h1.setRed true
  refine ⟨_, ?_, h4.congr (by simp [BTree.mk_flip]), rfl, (SameOff.refl _ _).setRed ?_ _⟩
  · simp [rbRemoveBlackSibling, h1.child_eq, h1.child_flip_eq, h2.isRed_eq, h3.isRed_eq, hn, hf]
  · simp [Ctx.mem_plug, BTree.mem_toList_mk]

/-- A red child of the sibling: the repair ends with a balanced tree. -/
theorem rbRemoveBlackSibling_end (h : Rep t (k.plug (.mk d p c s (.mk d q false near far))))
    (hr : near.red = true ∨ far.red = true) (bs : s.Bal m)
    (bq : (BTree.mk d q false near far).Bal (m + 1))
    (hk : k.BalCtx (if c then m + 1 else m + 2)) (hc : c = true → k.redOk = true) :
    ∃ t' s', rbRemoveBlackSibling t p q d = pure (t', t'.root) ∧ Rep t' s' ∧
      s'.toList = (k.plug (.mk d p c s (.mk d q false near far))).toList ∧
      (∃ m', s'.Bal m') ∧ s'.red = false ∧ t'.numNodes = t.numNodes ∧
      SameOff (k.plug (.mk d p c s (.mk d q false near far))).toList t.mem t'.mem := by
  obtain ⟨bn, bf⟩ := BTree.bal_black_succ.mp bq
  have h1 : Rep t (Ctx.plug (⟨d.flip, p, c, s⟩ :: k) (.mk d q false near far)) :=
    h.congr (by simp [BTree.mk_flip])
  have h2 : Rep t (Ctx.plug (⟨d, q, false, far⟩ :: ⟨d.flip, p, c, s⟩ :: k) near) := h1
  have h3 : Rep t (Ctx.plug (⟨d.flip, q, false, near⟩ :: ⟨d.flip, p, c, s⟩ :: k) far) :=
    h1.congr (by simp [BTree.mk_flip])
  have hif : ¬(isRed t.mem (child t.mem q d) = false ∧ isRed t.mem (child t.mem q d.flip) = false) := by
    rw [h1.child_eq, h1.child_flip_eq, h2.isRed_eq, h3.isRed_eq]
    rintro ⟨hn, hf⟩
    rcases hr with hr | hr <;> simp_all
  -- whichever child is red, the block after the first rotation sees a red far child
  obtain ⟨t1, r, near', w, a, b, hrun1, hrep1, hlist1, bn', ba, bb, hnum1, hoff1⟩ :
      ∃ t1 r near' w a b, rbRemoveNearRed t p q d = pure (t1, some r) ∧
        Rep t1 (k.plug (.mk d p c s (.mk d r false near' (.mk d w true a b)))) ∧
        (k.plug (.mk d p c s (.mk d r false near' (.mk d w true a b)))).toList =
          (k.plug (.mk d p c s (.mk d q false near far))).toList ∧
        near'.Bal m ∧ a.Bal m ∧ b.Bal m ∧ t1.numNodes = t.numNodes ∧
        SameOff (k.plug (.mk d p c s (.mk d q false near far))).toList t.mem t1.mem := by
    cases hf : far.red with
    | true =>
      obtain ⟨w, c', a, b, rfl⟩ := BTree.exists_mk (red_ptr_ne hf) d
      obtain rfl : c' = true := by simpa using hf
      obtain ⟨-, -, ba, bb⟩ := BTree.bal_red.mp bf
      exact ⟨t, q, near, w, a, b, rbRemoveNearRed_far h hf, h, rfl, bn, ba, bb, rfl,
        SameOff.refl _ _⟩
    | false =>
      have hn : near.red = true := hr.resolve_right (by simp [hf])
      obtain ⟨r, c', a, b, rfl⟩ := BTree.exists_mk (red_ptr_ne hn) d
      obtain rfl : c' = true := by simpa using hn
      obtain ⟨-, -, ba, bb⟩ := BTree.bal_red.mp bn
      obtain ⟨t1, hrun, hrep, hnum, hoff⟩ := rbRemoveNearRed_near h hf
      refine ⟨t1, r, a, q, b, far, hrun, hrep, ?_, ba, bb, bf, hnum, hoff⟩
      rw [Ctx.toList_plug, Ctx.toList_plug]
      cases d <;> simp [BTree.mk, BTree.toList]
  obtain ⟨t2, hrun2, hrep2, hnum2, hoff2⟩ := rbRemoveFarRed_spec hrep1
  have hbal : (BTree.mk d r c (.mk d p false s near') (.mk d w false a b)).Bal
      (if c then m + 1 else m + 2) := by
    have b1 : (BTree.mk d p false s near').Bal (m + 1) := BTree.bal_black_succ.mpr ⟨bs, bn'⟩
    have b2 : (BTree.mk d w false a b).Bal (m + 1) := BTree.bal_black_succ.mpr ⟨ba, bb⟩
    cases c with
    | true => exact BTree.bal_red.mpr ⟨by simp, by simp, b1, b2⟩
    | false => exact BTree.bal_black_succ.mpr ⟨b1, b2⟩
  obtain ⟨m', hb, hred⟩ := Ctx.bal_plug hk hbal (by simpa using hc)
  refine ⟨t2, _, ?_, hrep2, ?_, ⟨m', hb⟩, hred, hnum2.trans hnum1,
    hoff1.trans (hoff2.mono (fun z hz => hlist1 ▸ hz))⟩
  · rw [rbRemoveBlackSibling, if_neg hif, hrun1]
    simp [hrun2]
  · rw [← hlist1, Ctx.toList_plug, Ctx.toList_plug]
    cases d <;> simp [BTree.mk, BTree.toList]

/-- What a round leaves behind: a defect at a position, or a balanced tree. -/
def RoundEnds (k0 : Ctx A) (l : List A) (t' : TreeTree A M) (node : Option A) : Prop :=
  (∃ k s m, Rep t' (Ctx.plug k s) ∧ node = s.ptr ∧ s ≠ .nil ∧ (Ctx.plug k s).toList = l ∧
    Deficit s m ∧ Ctx.BalCtx k (m + 1) ∧ (s.red = true ∨ k = k0)) ∨
  (∃ s, Rep t' s ∧ node = t'.root ∧ s ≠ .nil ∧ s.toList = l ∧ (∃ m, s.Bal m) ∧ s.red = false)

/-- The second half of a round, for a black sibling. -/
theorem rbRemoveBlackSibling_spec (h : Rep t (k.plug (.mk d p c s (.mk d q false near far))))
    (hs : s.red = false ∧ s.Bal m) (bq : (BTree.mk d q false near far).Bal (m + 1))
    (hk : k.BalCtx (if c then m + 1 else m + 2)) (hc : c = true → k.redOk = true) {k0 : Ctx A}
    (hk0 : c = true ∨ k = k0) :
    ∃ t' node, rbRemoveBlackSibling t p q d = pure (t', node) ∧
      RoundEnds k0 (k.plug (.mk d p c s (.mk d q false near far))).toList t' node ∧
      t'.numNodes = t.numNodes ∧
      SameOff (k.plug (.mk d p c s (.mk d q false near far))).toList t.mem t'.mem := by
  obtain ⟨bn, bf⟩ := BTree.bal_black_succ.mp bq
  by_cases hr : near.red = true ∨ far.red = true
  · obtain ⟨t', s', hrun, hrep, hlist, hbal, hred, hnum, hoff⟩ :=
      rbRemoveBlackSibling_end h hr hs.2 bq hk hc
    refine ⟨t', _, hrun, Or.inr ⟨s', hrep, rfl, ?_, hlist, hbal, hred⟩, hnum, hoff⟩
    rintro rfl
    have : p ∈ (BTree.nil : BTree A).toList := by
      rw [hlist]; simp [Ctx.mem_plug, BTree.mem_toList_mk]
    simp at this
  · rw [not_or] at hr
    have hn : near.red = false := by simpa using hr.1
    have hf : far.red = false := by simpa using hr.2
    obtain ⟨t', hrun, hrep, hnum, hoff⟩ := rbRemoveBlackSibling_up h hn hf
    have b1 : (BTree.mk d q true near far).Bal m := BTree.bal_red.mpr ⟨hn, hf, bn, bf⟩
    refine ⟨t', _, hrun, Or.inl ⟨k, _, if c then m else m + 1, hrep, by simp, ?_, ?_, ?_, ?_,
      hk0.imp_left (by simp)⟩, hnum, hoff⟩
    · intro he
      have := congrArg BTree.ptr he
      simp at this
    · rw [Ctx.toList_plug, Ctx.toList_plug]
      cases d <;> simp [BTree.mk, BTree.toList]
    · cases c with
      | true =>
        refine Or.inr ⟨by simp, ?_⟩
        rw [BTree.blacken_mk]
        exact BTree.bal_black_succ.mpr ⟨hs.2, b1⟩
      | false => exact Or.inl ⟨by simp, BTree.bal_black_succ.mpr ⟨hs.2, b1⟩⟩
    · cases c <;> exact hk

/-- A whole round at a black node that is not the root. -/
theorem rbRemoveStep_round {sib : BTree A} (h : Rep t (Ctx.plug (⟨d, p, c, sib⟩ :: k) s))
    (hs : s.red = false ∧ s.Bal m) (hk : Ctx.BalCtx (⟨d, p, c, sib⟩ :: k) (m + 1)) :
    ∃ t' n, rbRemoveStep (t, s.ptr, some p) = pure (.inl (t', some n, getParent t'.mem n)) ∧
      RoundEnds k (Ctx.plug (⟨d, p, c, sib⟩ :: k) s).toList t' (some n) ∧
      t'.numNodes = t.numNodes ∧
      SameOff (Ctx.plug (⟨d, p, c, sib⟩ :: k) s).toList t.mem t'.mem := by
  have bsib : sib.Bal (m + 1) := hk.1
  have hsn := BTree.ne_nil_of_bal bsib
  have hdir : whichDir t.mem p s.ptr = d := h.whichDir_eq (Or.inr hsn)
  have hred : isRed t.mem s.ptr = false := h.isRed_eq.trans hs.1
  have hroot : s.ptr ≠ t.root := by
    rw [h.root]
    intro he
    cases hsp : s.ptr with
    | none =>
      rw [hsp] at he
      have hp : p ∈ (Ctx.plug (⟨d, p, c, sib⟩ :: k) s).toList := by
        simp [Ctx.mem_plug, BTree.mem_toList_mk]
      rw [BTree.ptr_eq_none.mp he.symm] at hp
      simp at hp
    | some x => simpa using (root_eq_iff (Ctx.nodup_plug.mp h.nodup) hsp).mp (by rw [← he, hsp])
  have h' : Rep t (k.plug (.mk d p c s sib)) := h
  -- the first half of the round ends with a black sibling `q` of `node`
  obtain ⟨t1, k1, c1, q, near, far, hrun1, hrep1, hlist1, bq, hk1, hc1, hor, hnum1, hoff1⟩ :
      ∃ t1 k1 c1 q near far, rbRemoveRedSibling t p d = pure (t1, some q) ∧
        Rep t1 (Ctx.plug k1 (.mk d p c1 s (.mk d q false near far))) ∧
        (Ctx.plug k1 (.mk d p c1 s (.mk d q false near far))).toList =
          (Ctx.plug (⟨d, p, c, sib⟩ :: k) s).toList ∧
        (BTree.mk d q false near far).Bal (m + 1) ∧
        Ctx.BalCtx k1 (if c1 then m + 1 else m + 2) ∧ (c1 = true → Ctx.redOk k1 = true) ∧
        (c1 = true ∨ k1 = k) ∧ t1.numNodes = t.numNodes ∧
        SameOff (Ctx.plug (⟨d, p, c, sib⟩ :: k) s).toList t.mem t1.mem := by
    cases hsr : sib.red with
    | false =>
      obtain ⟨q, c', near, far, rfl⟩ := BTree.exists_mk hsn d
      obtain rfl : c' = false := by simpa using hsr
      refine ⟨t, k, c, q, near, far, ?_, h', rfl, bsib, ?_, ?_, Or.inr rfl, rfl, SameOff.refl _ _⟩
      · simpa using rbRemoveRedSibling_black h' hsr
      · exact hk.2.2
      · exact fun hc => (hk.2.1 hc).2
    | true =>
      obtain ⟨q, c', near, far, rfl⟩ := BTree.exists_mk hsn d
      obtain rfl : c' = true := by simpa using hsr
      obtain rfl : c = false := by
        cases c with
        | false => rfl
        | true => exact absurd (hk.2.1 rfl).1 (by simp)
      obtain ⟨hn, hf, bn, bf⟩ := BTree.bal_red.mp bsib
      obtain ⟨q', c', near', far', rfl⟩ := BTree.exists_mk (BTree.ne_nil_of_bal bn) d
      obtain rfl : c' = false := by simpa using hn
      obtain ⟨t1, hrun, hrep, hnum, hoff⟩ := rbRemoveRedSibling_red h'
      refine ⟨t1, ⟨d, q, false, far⟩ :: k, true, q', near', far', by simpa using hrun, hrep, ?_, bn,
        Ctx.balCtx_black.mpr ⟨bf, hk.2.2⟩, fun _ => rfl, Or.inl rfl, hnum, hoff⟩
      rw [Ctx.plug_cons, Ctx.plug_cons, Ctx.toList_plug, Ctx.toList_plug]
      cases d <;> simp [BTree.mk, BTree.toList]
  obtain ⟨t', node, hrun2, hends, hnum2, hoff2⟩ := rbRemoveBlackSibling_spec hrep1 hs bq hk1 hc1 hor
  rw [hlist1] at hends hoff2
  have hnode : ∃ n, node = some n := by
    rcases hends with ⟨_, s', _, -, he, hne, -⟩ | ⟨s', hrep', he, hne, -⟩
    · rw [he]
      exact Option.ne_none_iff_exists'.mp (by simpa using hne)
    · rw [he, hrep'.root]
      exact Option.ne_none_iff_exists'.mp (by simpa using hne)
  obtain ⟨n, rfl⟩ := hnode
  refine ⟨t', n, ?_, hends, hnum2.trans hnum1, hoff1.trans hoff2⟩
  rw [rbRemoveStep]
  simp only [hroot, hred, ne_eq, not_false_eq_true, and_self, if_true, deref_some, pure_bind, hdir,
    hrun1, hrun2]

end Round

section Loop

variable {t : TreeTree A M} {k : Ctx A} {s : BTree A} {m : Nat}

/-- The loop ends at a red node and at the root, and the write after it paints that node black. -/
theorem rbRemoveLoop_exit (h : Rep t (k.plug s)) (he : s.red = true ∨ k = []) (parent : Option A) :
    loop rbRemoveStep (t, s.ptr, parent) = pure (t, s.ptr) ∧
      Rep { t with mem := setRed t.mem s.ptr false } (k.plug s.blacken) ∧
      SameOff (k.plug s).toList t.mem (setRed t.mem s.ptr false) := by
  refine ⟨loop_done ?_, ?_, ?_⟩
  · rcases he with he | rfl
    · simp [rbRemoveStep, h.isRed_eq, he]
    · simp [rbRemoveStep, h.root]
  · cases s with
    | nil => exact h
    | node l a c r => exact Rep.setRed (d := .left) h false
  · cases s with
    | nil => exact SameOff.refl _ _
    | node l a c r =>
      exact (SameOff.refl _ _).setRed (by simp [Ctx.mem_plug, BTree.toList]) _

/-- What `rb_remove` has done after its loop and the last write. -/
def LoopEnds (l : List A) (t : TreeTree A M) (start : Comp (TreeTree A M × Option A)) : Prop :=
  ∃ t' node s', start = pure (t', node) ∧ Rep { t' with mem := setRed t'.mem node false } s' ∧
    s'.toList = l ∧ (∃ m', s'.Bal m') ∧ s'.red = false ∧ t'.numNodes = t.numNodes ∧
    SameOff l t.mem (setRed t'.mem node false)

theorem blacken_red (s : BTree A) : s.blacken.red = false := by
  cases s <;> rfl

/-- The loop at a defect where it ends at once. -/
theorem rbRemoveLoop_end (h : Rep t (k.plug s)) (he : s.red = true ∨ k = []) (hd : Deficit s m)
    (hk : k.BalCtx (m + 1)) (parent : Option A) :
    LoopEnds (k.plug s).toList t (loop rbRemoveStep (t, s.ptr, parent)) := by
  obtain ⟨hrun, hrep, hoff⟩ := rbRemoveLoop_exit h he parent
  have hlist : (k.plug s.blacken).toList = (k.plug s).toList := by
    rw [Ctx.toList_plug, Ctx.toList_plug, BTree.toList_blacken]
  have hbal : (∃ m', (k.plug s.blacken).Bal m') ∧ (k.plug s.blacken).red = false := by
    rcases hd with ⟨hb, hm⟩ | ⟨-, hm⟩
    · obtain rfl : k = [] := he.resolve_left (by simp [hb])
      exact ⟨⟨m, by rw [Ctx.plug_nil, blacken_eq hb]; exact hm⟩, blacken_red s⟩
    · obtain ⟨m', hb, hr⟩ := Ctx.bal_plug hk hm (by simp [blacken_red])
      exact ⟨⟨m', hb⟩, hr⟩
  exact ⟨t, _, _, hrun, hrep, hlist, hbal.1, hbal.2, rfl, hoff⟩

/-- The repair loop of `rb_remove` ends, by induction on the path from the defect to the root. -/
theorem rbRemoveLoop_spec (h : Rep t (k.plug s)) (hd : Deficit s m) (hk : k.BalCtx (m + 1)) :
    LoopEnds (k.plug s).toList t (loop rbRemoveStep (t, s.ptr, Ctx.ptr none k)) := by
  induction k generalizing t s m with
  | nil => exact rbRemoveLoop_end h (Or.inr rfl) hd hk _
  | cons f k ih =>
    rcases hd with hd | hd
    · obtain ⟨t1, n, hstep, hends, hnum, hoff⟩ := rbRemoveStep_round h hd hk
      have hnext : loop rbRemoveStep (t, s.ptr, Ctx.ptr none (f :: k)) =
          loop rbRemoveStep (t1, some n, getParent t1.mem n) := loop_next hstep
      -- what the rest of the loop does, it does to the tree this round leaves
      have hlift : LoopEnds (Ctx.plug (f :: k) s).toList t1
          (loop rbRemoveStep (t1, some n, getParent t1.mem n)) →
          LoopEnds (Ctx.plug (f :: k) s).toList t
            (loop rbRemoveStep (t, s.ptr, Ctx.ptr none (f :: k))) := by
        rintro ⟨t2, node, s2, hrun, hrep, hlist, hbal, hred, hnum2, hoff2⟩
        exact ⟨t2, node, s2, hnext.trans hrun, hrep, hlist, hbal, hred, hnum2.trans hnum,
          hoff.trans hoff2⟩
      apply hlift
      rcases hends with ⟨k', s', m', hrep, hn, hne, hlist, hdef, hbal, hor⟩ |
        ⟨s', hrep, hn, hne, hlist, ⟨m', hbal⟩, hred⟩
      · rw [← hlist, hn]
        rcases hor with hr | rfl
        · exact rbRemoveLoop_end hrep (Or.inl hr) hdef hbal _
        · obtain ⟨a, c, x, y, rfl⟩ := BTree.exists_mk hne .left
          obtain rfl : n = a := by simpa using hn
          rw [hrep.parent_eq]
          exact ih hrep hdef hbal
      · rw [← hlist, hn, hrep.root]
        exact rbRemoveLoop_end (k := []) hrep (Or.inr rfl) (Or.inl ⟨hred, hbal⟩) trivial _
    · exact rbRemoveLoop_end h (Or.inl hd.1) (Or.inr hd) hk _

end Loop

end Libjeffpc.Tree
