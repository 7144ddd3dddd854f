import Libjeffpc.Tree.Proofs.RotateProofs

/-!
# Inserting a leaf and taking a node out of a represented tree

`__swap_nodes` exchanges a node with its successor and leaves the colours in place; after it the
node to be removed has at most one child, which `__promote_node_child` puts in its place.
-/

set_option linter.unusedSectionVars false

namespace Libjeffpc.Tree

open Lib

variable {A M : Type} [DecidableEq A] [TreeMem A M] [LawfulTreeMem A M]

/-- The cookie of a failed search that ended in the hole of `k`. -/
def cookieOf (k : Ctx A) : TreeCookie A := ⟨Ctx.ptr none k, (k.place.map Prod.snd).getD .left⟩

theorem SameOff.setRed {S : List A} {m m' : M} (h : SameOff S m m') {a : A} (ha : a ∈ S) (c : Bool) :
    SameOff S m (Tree.setRed m' (some a) c) := h.setExtra ha _

theorem treeInsertAt_spec {t : TreeTree A M} {k : Ctx A} {a : A} (h : Rep t (k.plug .nil))
    (ha : a ∉ (k.plug .nil).toList) (d : TreeDir) :
    Rep (treeInsertAt t a (cookieOf k)) (k.plug (.mk d a (redAt t.mem a) .nil .nil)) ∧
      (treeInsertAt t a (cookieOf k)).numNodes = t.numNodes + 1 ∧
      SameOff (a :: (k.plug .nil).toList) t.mem (treeInsertAt t a (cookieOf k)).mem := by
  obtain ⟨hroot, hrepr, hnd⟩ := h
  obtain ⟨hk, -⟩ := repr_plug.mp hrepr
  have hnk : k.addrs.Nodup := by simpa using Ctx.nodup_plug.mp hnd
  have hak : a ∉ k.addrs := fun h => ha (Ctx.mem_plug.mpr (Or.inl h))
  set m1 := setParent (setChild (setChild t.mem a .left none) a .right none) a (Ctx.ptr none k) with hm1
  have hrun : treeInsertAt t a (cookieOf k) =
      { root := (setPlace t.root m1 k.place (some a)).1, numNodes := t.numNodes + 1,
        mem := (setPlace t.root m1 k.place (some a)).2 } := by
    cases k <;> rfl
  set m' := (setPlace t.root m1 k.place (some a)).2 with hm'
  have hpa : ∀ e, k.place ≠ some (a, e) := fun e he => hak (Ctx.place_mem he)
  have ca : ∀ e, child m' a e = none := by
    intro e
    rw [hm', child_setPlace_ne (hpa e), hm1, LawfulTreeMem.child_setParent]
    cases e with
    | left => rw [LawfulTreeMem.child_setChild_ne _ _ _ _ _ _ (by simp)]; simp
    | right => simp
  have pne : ∀ b, b ≠ a → getParent m' b = getParent t.mem b := by
    intro b hb
    simp [hm', hm1, LawfulTreeMem.getParent_setParent_ne, hb]
  have cne : ∀ b, b ≠ a → ∀ e, k.place ≠ some (b, e) → child m' b e = child t.mem b e := by
    intro b hb e he
    simp [hm', child_setPlace_ne he, hm1, LawfulTreeMem.child_setChild_ne, hb]
  have ene : ∀ b, getExtra m' b = getExtra t.mem b := by
    intro b; simp [hm', hm1]
  rw [hrun]
  have hka : ∀ b ∈ k.addrs, b ≠ a := fun b hb hba => hak (hba ▸ hb)
  refine ⟨⟨?_, repr_plug.mpr ⟨?_, repr_mk.mpr ⟨ca _, ca _, by simp [hm', hm1], ?_, trivial,
    trivial⟩⟩, ?_⟩, rfl, ?_⟩
  · have := root_setPlace (m := m1) (t := .mk d a (redAt t.mem a) .nil .nil) hroot
    rwa [BTree.ptr_mk] at this
  · rw [BTree.ptr_mk]
    exact hk.refill hnk (fun b hb e he => cne b (hka b hb) e he)
      (fun b e he => child_setPlace_self he) (fun b hb => ⟨pne b (hka b hb), ene b⟩)
  · rw [redAt, ene]; rfl
  · refine Ctx.nodup_plug.mpr ?_
    refine List.nodup_append.mpr ⟨hnk, ?_, ?_⟩
    · cases d <;> simp [BTree.mk, BTree.toList]
    · intro b hb b' hb'
      rw [BTree.mem_toList_mk] at hb'
      simp only [BTree.toList_nil, List.not_mem_nil, or_false] at hb'
      rw [hb']
      exact hka b hb
  · intro b hb
    rw [List.mem_cons, not_or] at hb
    have hbk : b ∉ k.addrs := fun h => hb.2 (Ctx.mem_plug.mpr (Or.inl h))
    exact ⟨fun e => cne b hb.1 e (fun he => hbk (Ctx.place_mem he)), pne b hb.1, ene b⟩

theorem ptr_plug_last {k : Ctx A} {s : BTree A} {f : Frame A} (h : f ∈ k.getLast?) :
    (k.plug s).ptr = some f.a := by
  induction k generalizing s with
  | nil => simp at h
  | cons g k ih =>
    cases k with
    | nil =>
      obtain rfl : g = f := by simpa using h
      simp
    | cons g' k => exact ih (by simpa using h)

/-- The root pointer tells whether a node is the root. -/
theorem root_eq_iff {k : Ctx A} {s : BTree A} {x : A} (hn : (k.addrs ++ s.toList).Nodup)
    (hx : s.ptr = some x) : (k.plug s).ptr = some x ↔ k = [] := by
  constructor
  · intro h
    by_contra hk
    obtain ⟨f, hf⟩ : ∃ f, f ∈ k.getLast? := ⟨k.getLast hk, List.getLast?_eq_some_getLast hk⟩
    rw [ptr_plug_last hf, Option.some.injEq] at h
    have h1 := Ctx.mem_addrs (List.mem_of_mem_getLast? hf)
    rw [h] at h1
    exact (List.nodup_append.mp hn).2.2 x h1 x (BTree.mem_of_ptr hx) rfl
  · rintro rfl
    exact hx

/-- The place of the node to be exchanged, as `__swap_nodes` computes it. -/
theorem swap_place {t : TreeTree A M} {k : Ctx A} {s : BTree A} {x : A} (h : Rep t (k.plug s))
    (hx : s.ptr = some x) :
    swapPlace t x = pure k.place := by
  have hnd := Ctx.nodup_plug.mp h.nodup
  have hroot := root_eq_iff hnd hx
  obtain ⟨c, l, r, rfl⟩ := BTree.eq_mk_of_ptr hx .left
  obtain ⟨hk, hs⟩ := repr_plug.mp h.repr
  rw [BTree.ptr_mk] at hk
  have hp := (repr_mk.mp hs).2.2.1
  cases k with
  | nil => rw [swapPlace, h.root, if_pos (hroot.mpr rfl)]; rfl
  | cons f k =>
    rw [swapPlace, h.root, if_neg (fun he => by simpa using hroot.mp he), hp]
    have hd := whichDir_eq hk (head_sib_ne hnd (BTree.mem_of_ptr hx) f rfl)
    simp [Ctx.ptr, Ctx.place, hd]

section Swap

variable {t : TreeTree A M} {k : Ctx A} {d : TreeDir} {x y : A} {cx cy : Bool} {b e : BTree A}

/-- The colours after an exchange, and what else the exchange of the colours leaves alone. -/
theorem swap_extra (m : M) {x y : A} (hxy : x ≠ y) :
    let m' := setExtra (setExtra m x (getExtra m y)) y (getExtra m x)
    redAt m' x = redAt m y ∧ redAt m' y = redAt m x ∧
      (∀ z, z ≠ x → z ≠ y → getExtra m' z = getExtra m z) ∧
      (∀ z u, child m' z u = child m z u) ∧ (∀ z, getParent m' z = getParent m z) := by
  refine ⟨?_, ?_, fun z hzx hzy => ?_, fun z u => by simp, fun z => by simp⟩
  · simp [redAt, LawfulTreeMem.getExtra_setExtra_ne, hxy]
  · simp [redAt]
  · simp [LawfulTreeMem.getExtra_setExtra_ne, hzx, hzy]

theorem swapNodes_adjacent (h : Rep t (k.plug (.mk d x cx b (.mk d y cy .nil e)))) (hb : b ≠ .nil) :
    ∃ t', swapNodes t x y d = pure t' ∧ Rep t' (k.plug (.mk d y cx b (.mk d x cy .nil e))) ∧
      t'.numNodes = t.numNodes ∧
      SameOff (k.plug (.mk d x cx b (.mk d y cy .nil e))).toList t.mem t'.mem := by
  have hplace := swap_place h (x := x) (by simp)
  obtain ⟨hroot, hrepr, hnd⟩ := h
  obtain ⟨hk, hs⟩ := repr_plug.mp hrepr
  obtain ⟨hxb, hxy, hxp, hxc, hbr, hyr⟩ := repr_mk.mp hs
  obtain ⟨hyl, hye, hyp, hyc, -, her⟩ := repr_mk.mp hyr
  rw [BTree.ptr_mk] at hk hxy
  rw [BTree.ptr_nil] at hyl
  have hperm : (k.plug (.mk d x cx b (.mk d y cy .nil e))).toList.Perm
      (k.addrs ++ x :: (b.toList ++ y :: e.toList)) :=
    (Ctx.plug_perm k _).trans (List.Perm.append_left _ ((BTree.toList_mk_perm d x cx _ _).trans
      (List.Perm.cons _ (List.Perm.append_left _ (BTree.toList_mk_perm d y cy _ _)))))
  have hperm' : (k.plug (.mk d y cx b (.mk d x cy .nil e))).toList.Perm
      (k.addrs ++ y :: (b.toList ++ x :: e.toList)) :=
    (Ctx.plug_perm k _).trans (List.Perm.append_left _ ((BTree.toList_mk_perm d y cx _ _).trans
      (List.Perm.cons _ (List.Perm.append_left _ (BTree.toList_mk_perm d x cy _ _)))))
  have hnd' := hperm.nodup_iff.mp hnd
  obtain ⟨b', hb'⟩ : ∃ b', b.ptr = some b' := Option.ne_none_iff_exists'.mp (by simpa using hb)
  have hbm := BTree.mem_of_ptr hb'
  have hne : x ≠ y := by grind
  have hbn : ∀ z ∈ b.toList, z ≠ x ∧ z ≠ y ∧ z ∉ e.toList ∧ z ∉ k.addrs := by grind
  have hen : ∀ z ∈ e.toList, z ≠ x ∧ z ≠ y ∧ z ∉ b.toList ∧ z ∉ k.addrs := by grind
  have hkn : ∀ z ∈ k.addrs, z ≠ x ∧ z ≠ y ∧ z ∉ b.toList ∧ z ∉ e.toList := by grind
  have hex : e.ptr ≠ some x := fun he => (hen x (BTree.mem_of_ptr he)).1 rfl
  have hey : e.ptr ≠ some y := fun he => (hen y (BTree.mem_of_ptr he)).2.1 rfl
  have hplx : ∀ u, k.place ≠ some (x, u) := fun u hu => (hkn x (Ctx.place_mem hu)).1 rfl
  have hply : ∀ u, k.place ≠ some (y, u) := fun u hu => (hkn y (Ctx.place_mem hu)).2.1 rfl
  set m1 := setParent (setParent (setParent t.mem x (some y)) y (Ctx.ptr none k)) b' (some y) with hm1
  set m2 := setChild (setChild (setChild (setChild (setParentIf m1 e.ptr (some x)) x d none)
    x d.flip e.ptr) y d b.ptr) y d.flip (some x) with hm2
  set m3 := (setPlace t.root m2 k.place (some y)).2 with hm3
  obtain ⟨xx, xy, xne, xc, xp⟩ := swap_extra m3 hne
  set m' := setExtra (setExtra m3 x (getExtra m3 y)) y (getExtra m3 x) with hm'
  have hrun : swapNodes t x y d =
      pure { t with root := (setPlace t.root m2 k.place (some y)).1, mem := m' } := by
    have hd : decide (x ≠ y) = true := decide_eq_true hne
    simp only [swapNodes, hd, assert_true, hyl, decide_true, hplace, pure_bind, hxp, hxb, hye, hxy,
      if_true, hb', deref_some]
    rw [← hb']
  have ce : ∀ z, getExtra m3 z = getExtra t.mem z := by
    intro z; simp [hm3, hm2, hm1]
  have cxd : child m' x d = none := by
    rw [xc, hm3, child_setPlace_ne (hplx d), hm2]
    simp [LawfulTreeMem.child_setChild_ne, hne]
  have cxf : child m' x d.flip = e.ptr := by
    rw [xc, hm3, child_setPlace_ne (hplx _), hm2]
    simp [LawfulTreeMem.child_setChild_ne, hne]
  have cyd : child m' y d = b.ptr := by
    rw [xc, hm3, child_setPlace_ne (hply d), hm2]
    simp [LawfulTreeMem.child_setChild_ne]
  have cyf : child m' y d.flip = some x := by
    rw [xc, hm3, child_setPlace_ne (hply _), hm2]
    simp
  have px : getParent m' x = some y := by
    have := (hbn b' hbm).1
    simp [xp, hm3, hm2, hm1, getParent_setParentIf_ne hex, LawfulTreeMem.getParent_setParent_ne,
      this.symm, hne]
  have py : getParent m' y = Ctx.ptr none k := by
    have := (hbn b' hbm).2.1
    simp [xp, hm3, hm2, hm1, getParent_setParentIf_ne hey, LawfulTreeMem.getParent_setParent_ne,
      this.symm]
  have cne : ∀ z, z ≠ x → z ≠ y → ∀ u, k.place ≠ some (z, u) → child m' z u = child t.mem z u := by
    intro z hzx hzy u hu
    rw [xc, hm3, child_setPlace_ne hu, hm2, hm1]
    simp [LawfulTreeMem.child_setChild_ne, hzx, hzy]
  have pne : ∀ z, z ≠ x → z ≠ y → z ≠ b' → e.ptr ≠ some z → getParent m' z = getParent t.mem z := by
    intro z hzx hzy hzb hze
    simp [xp, hm3, hm2, hm1, getParent_setParentIf_ne hze, LawfulTreeMem.getParent_setParent_ne,
      hzx, hzy, hzb]
  have ene : ∀ z, z ≠ x → z ≠ y → getExtra m' z = getExtra t.mem z := fun z hzx hzy => by
    rw [xne z hzx hzy, ce]
  have hplk : ∀ z u, z ∉ k.addrs → k.place ≠ some (z, u) := fun z u hz hu => hz (Ctx.place_mem hu)
  refine ⟨_, hrun, ⟨?_, ?_, ?_⟩, rfl, ?_⟩
  · have := root_setPlace (m := m2) (t := .mk d y cx b (.mk d x cy .nil e)) hroot
    rwa [BTree.ptr_mk] at this
  · refine repr_plug.mpr ⟨?_, repr_mk.mpr ⟨cyd, by simpa using cyf, py, ?_, ?_, repr_mk.mpr ⟨cxd, cxf,
      px, ?_, trivial, ?_⟩⟩⟩
    · rw [BTree.ptr_mk]
      refine hk.refill (List.nodup_append.mp hnd').1
        (fun z hz u hu => cne z (hkn z hz).1 (hkn z hz).2.1 u hu) (fun z u hu => ?_)
        (fun z hz => ⟨pne z (hkn z hz).1 (hkn z hz).2.1 (fun he => (hkn z hz).2.2.1 (he ▸ hbm))
          (fun he => (hkn z hz).2.2.2 (BTree.mem_of_ptr he)), ene z (hkn z hz).1 (hkn z hz).2.1⟩)
      rw [xc, hm3, child_setPlace_self hu]
    · rw [xy, redAt, ce]; exact hxc
    · refine hbr.reroot (by grind)
        (fun z hz u => cne z (hbn z hz).1 (hbn z hz).2.1 u (hplk z u (hbn z hz).2.2.2))
        (fun z hz => ene z (hbn z hz).1 (hbn z hz).2.1)
        (fun z hz hzr => pne z (hbn z hz).1 (hbn z hz).2.1 (fun he => hzr (by rw [he, hb']))
          (fun he => (hbn z hz).2.2.1 (BTree.mem_of_ptr he))) (fun z hz => ?_)
      obtain rfl : b' = z := by rw [hb'] at hz; simpa using hz
      have : e.ptr ≠ some b' := fun he => (hbn b' hbm).2.2.1 (BTree.mem_of_ptr he)
      simp [xp, hm3, hm2, hm1, getParent_setParentIf_ne this]
    · rw [xx, redAt, ce]; exact hyc
    · refine her.reroot (by grind)
        (fun z hz u => cne z (hen z hz).1 (hen z hz).2.1 u (hplk z u (hen z hz).2.2.2))
        (fun z hz => ene z (hen z hz).1 (hen z hz).2.1)
        (fun z hz hzr => pne z (hen z hz).1 (hen z hz).2.1 (fun he => (hen z hz).2.2.1 (he ▸ hbm))
          hzr) (fun z hz => ?_)
      simp [xp, hm3, hm2, hm1, getParent_setParentIf_self hz]
  · refine hperm'.nodup_iff.mpr ?_
    grind
  · intro z hz
    rw [hperm.mem_iff] at hz
    have hz' : z ≠ x ∧ z ≠ y ∧ z ∉ b.toList ∧ z ∉ e.toList ∧ z ∉ k.addrs := by grind
    obtain ⟨hzx, hzy, hzb, hze, hzk⟩ := hz'
    exact ⟨fun u => cne z hzx hzy u (hplk z u hzk), pne z hzx hzy (fun he => hzb (he ▸ hbm))
      (fun he => hze (BTree.mem_of_ptr he)), ene z hzx hzy⟩

/-- The exchange with a successor that is not a child; `f.a` is the parent of the successor. -/
theorem swapNodes_distant {f : Frame A} {k2 : Ctx A}
    (h : Rep t (k.plug (.mk d x cx b (Ctx.plug (f :: k2) (.mk d y cy .nil e))))) (hb : b ≠ .nil)
    (hf : f.dir = d) :
    ∃ t', swapNodes t x y d = pure t' ∧
      Rep t' (k.plug (.mk d y cx b (Ctx.plug (f :: k2) (.mk d x cy .nil e)))) ∧
      t'.numNodes = t.numNodes ∧
      SameOff (k.plug (.mk d x cx b (Ctx.plug (f :: k2) (.mk d y cy .nil e)))).toList t.mem t'.mem := by
  have hplace := swap_place h (x := x) (by simp)
  obtain ⟨hroot, hrepr, hnd⟩ := h
  obtain ⟨hk, hs⟩ := repr_plug.mp hrepr
  obtain ⟨hxb, hxr, hxp, hxc, hbr, hrr⟩ := repr_mk.mp hs
  obtain ⟨hk2, hyr⟩ := repr_plug.mp hrr
  obtain ⟨hyl, hye, hyp, hyc, -, her⟩ := repr_mk.mp hyr
  rw [BTree.ptr_mk] at hk hk2
  rw [BTree.ptr_nil] at hyl
  rw [show Ctx.ptr (some x) (f :: k2) = some f.a from rfl] at hyp
  obtain ⟨g, hg⟩ : ∃ g, g ∈ (f :: k2).getLast? :=
    ⟨(f :: k2).getLast (by simp), List.getLast?_eq_some_getLast (by simp)⟩
  have hgm := Ctx.mem_addrs (List.mem_of_mem_getLast? hg)
  have hfm : f.a ∈ Ctx.addrs (f :: k2) := by simp [Ctx.addrs]
  have hplf : Ctx.place (f :: k2) = some (f.a, d) := by rw [← hf]; rfl
  rw [ptr_plug_last hg] at hxr
  have hperm : (k.plug (.mk d x cx b (Ctx.plug (f :: k2) (.mk d y cy .nil e)))).toList.Perm
      (k.addrs ++ x :: (b.toList ++ (Ctx.addrs (f :: k2) ++ y :: e.toList))) :=
    (Ctx.plug_perm k _).trans (List.Perm.append_left _ ((BTree.toList_mk_perm d x cx _ _).trans
      (List.Perm.cons _ (List.Perm.append_left _ ((Ctx.plug_perm _ _).trans
        (List.Perm.append_left _ (BTree.toList_mk_perm d y cy _ _)))))))
  have hperm' : (k.plug (.mk d y cx b (Ctx.plug (f :: k2) (.mk d x cy .nil e)))).toList.Perm
      (k.addrs ++ y :: (b.toList ++ (Ctx.addrs (f :: k2) ++ x :: e.toList))) :=
    (Ctx.plug_perm k _).trans (List.Perm.append_left _ ((BTree.toList_mk_perm d y cx _ _).trans
      (List.Perm.cons _ (List.Perm.append_left _ ((Ctx.plug_perm _ _).trans
        (List.Perm.append_left _ (BTree.toList_mk_perm d x cy _ _)))))))
  have hnd' := hperm.nodup_iff.mp hnd
  generalize hk2' : f :: k2 = kk at *
  obtain ⟨b', hb'⟩ : ∃ b', b.ptr = some b' := Option.ne_none_iff_exists'.mp (by simpa using hb)
  have hbm := BTree.mem_of_ptr hb'
  have hne : x ≠ y := by grind
  have hbn : ∀ z ∈ b.toList, z ≠ x ∧ z ≠ y ∧ z ∉ e.toList ∧ z ∉ k.addrs ∧ z ∉ Ctx.addrs kk := by grind
  have hen : ∀ z ∈ e.toList, z ≠ x ∧ z ≠ y ∧ z ∉ b.toList ∧ z ∉ k.addrs ∧ z ∉ Ctx.addrs kk := by grind
  have hkn : ∀ z ∈ k.addrs, z ≠ x ∧ z ≠ y ∧ z ∉ b.toList ∧ z ∉ e.toList ∧ z ∉ Ctx.addrs kk := by grind
  have hcn : ∀ z ∈ Ctx.addrs kk, z ≠ x ∧ z ≠ y ∧ z ∉ b.toList ∧ z ∉ e.toList ∧ z ∉ k.addrs := by grind
  have hex : e.ptr ≠ some x := fun he => (hen x (BTree.mem_of_ptr he)).1 rfl
  have hey : e.ptr ≠ some y := fun he => (hen y (BTree.mem_of_ptr he)).2.1 rfl
  have hplx : ∀ u, k.place ≠ some (x, u) := fun u hu => (hkn x (Ctx.place_mem hu)).1 rfl
  have hply : ∀ u, k.place ≠ some (y, u) := fun u hu => (hkn y (Ctx.place_mem hu)).2.1 rfl
  have hgx := (hcn _ hgm).1
  have hgy := (hcn _ hgm).2.1
  have hfx := (hcn _ hfm).1
  have hfy := (hcn _ hfm).2.1
  have hbx := (hbn _ hbm).1
  have hby := (hbn _ hbm).2.1
  have hbg : b' ≠ g.a := fun he => (hbn _ hbm).2.2.2.2 (he ▸ hgm)
  set m1 := setParent (setParent (setParent (setParent t.mem x (some f.a)) y (Ctx.ptr none k)) b'
    (some y)) g.a (some y) with hm1
  set m2 := setChild (setChild (setChild (setChild (setParentIf m1 e.ptr (some x)) x d none)
    x d.flip e.ptr) y d b.ptr) y d.flip (some g.a) with hm2
  set m3 := setChild (setPlace t.root m2 k.place (some y)).2 f.a d (some x) with hm3
  obtain ⟨xx, xy, xne, xc, xp⟩ := swap_extra m3 hne
  set m' := setExtra (setExtra m3 x (getExtra m3 y)) y (getExtra m3 x) with hm'
  have hrun : swapNodes t x y d =
      pure { t with root := (setPlace t.root m2 k.place (some y)).1, mem := m' } := by
    have hd : decide (x ≠ y) = true := decide_eq_true hne
    have hd' : (some g.a = some y) = False := by simp [hgy]
    simp only [swapNodes, hd, assert_true, hyl, decide_true, hplace, pure_bind, hxp, hxb, hye, hxr,
      hd', if_false, hb', deref_some, hyp]
    rw [← hb']
  have ce : ∀ z, getExtra m3 z = getExtra t.mem z := by
    intro z; simp [hm3, hm2, hm1]
  have cm3 : ∀ z u, ¬(z = f.a ∧ u = d) → k.place ≠ some (z, u) → child m' z u = child m2 z u := by
    intro z u hz hu
    rw [xc, hm3, LawfulTreeMem.child_setChild_ne _ _ _ _ _ _ hz, child_setPlace_ne hu]
  have cxd : child m' x d = none := by
    rw [cm3 x d (fun hz => hfx hz.1.symm) (hplx d), hm2]
    simp [LawfulTreeMem.child_setChild_ne, hne]
  have cxf : child m' x d.flip = e.ptr := by
    rw [cm3 x _ (fun hz => hfx hz.1.symm) (hplx _), hm2]
    simp [LawfulTreeMem.child_setChild_ne, hne]
  have cyd : child m' y d = b.ptr := by
    rw [cm3 y d (fun hz => hfy hz.1.symm) (hply d), hm2]
    simp [LawfulTreeMem.child_setChild_ne]
  have cyf : child m' y d.flip = some g.a := by
    rw [cm3 y _ (fun hz => hfy hz.1.symm) (hply _), hm2]
    simp
  have px : getParent m' x = some f.a := by
    simp [xp, hm3, hm2, hm1, getParent_setParentIf_ne hex, LawfulTreeMem.getParent_setParent_ne,
      hne, hgx.symm, hbx.symm]
  have py : getParent m' y = Ctx.ptr none k := by
    simp [xp, hm3, hm2, hm1, getParent_setParentIf_ne hey, LawfulTreeMem.getParent_setParent_ne,
      hgy.symm, hby.symm]
  have cne : ∀ z, z ≠ x → z ≠ y → ∀ u, ¬(z = f.a ∧ u = d) → k.place ≠ some (z, u) →
      child m' z u = child t.mem z u := by
    intro z hzx hzy u hz hu
    rw [cm3 z u hz hu, hm2, hm1]
    simp [LawfulTreeMem.child_setChild_ne, hzx, hzy]
  have pne : ∀ z, z ≠ x → z ≠ y → z ≠ b' → z ≠ g.a → e.ptr ≠ some z →
      getParent m' z = getParent t.mem z := by
    intro z hzx hzy hzb hzg hze
    simp [xp, hm3, hm2, hm1, getParent_setParentIf_ne hze, LawfulTreeMem.getParent_setParent_ne,
      hzx, hzy, hzb, hzg]
  have ene : ∀ z, z ≠ x → z ≠ y → getExtra m' z = getExtra t.mem z := fun z hzx hzy => by
    rw [xne z hzx hzy, ce]
  have hplk : ∀ z u, z ∉ k.addrs → k.place ≠ some (z, u) := fun z u hz hu => hz (Ctx.place_mem hu)
  refine ⟨_, hrun, ⟨?_, ?_, ?_⟩, rfl, ?_⟩
  · have := root_setPlace (m := m2) (t := .mk d y cx b (Ctx.plug kk (.mk d x cy .nil e))) hroot
    rwa [BTree.ptr_mk] at this
  · refine repr_plug.mpr ⟨?_, repr_mk.mpr ⟨cyd, ?_, py, ?_, ?_, repr_plug.mpr ⟨?_,
      repr_mk.mpr ⟨cxd, cxf, ?_, ?_, trivial, ?_⟩⟩⟩⟩
    · rw [BTree.ptr_mk]
      refine hk.refill (List.nodup_append.mp hnd').1
        (fun z hz u hu => cne z (hkn z hz).1 (hkn z hz).2.1 u
          (fun he => (hkn z hz).2.2.2.2 (he.1 ▸ hfm)) hu) (fun z u hu => ?_)
        (fun z hz => ⟨pne z (hkn z hz).1 (hkn z hz).2.1 (fun he => (hkn z hz).2.2.1 (he ▸ hbm))
          (fun he => (hkn z hz).2.2.2.2 (he ▸ hgm)) (fun he => (hkn z hz).2.2.2.1 (BTree.mem_of_ptr he)),
          ene z (hkn z hz).1 (hkn z hz).2.1⟩)
      have hz := hkn z (Ctx.place_mem hu)
      rw [xc, hm3, LawfulTreeMem.child_setChild_ne _ _ _ _ _ _
        (fun he : z = f.a ∧ u = d => hz.2.2.2.2 (he.1 ▸ hfm)), child_setPlace_self hu]
    · rw [ptr_plug_last hg]; exact cyf
    · rw [xy, redAt, ce]; exact hxc
    · refine hbr.reroot (by grind)
        (fun z hz u => cne z (hbn z hz).1 (hbn z hz).2.1 u (fun he => (hbn z hz).2.2.2.2 (he.1 ▸ hfm))
          (hplk z u (hbn z hz).2.2.2.1))
        (fun z hz => ene z (hbn z hz).1 (hbn z hz).2.1)
        (fun z hz hzr => pne z (hbn z hz).1 (hbn z hz).2.1 (fun he => hzr (by rw [he, hb']))
          (fun he => (hbn z hz).2.2.2.2 (he ▸ hgm))
          (fun he => (hbn z hz).2.2.1 (BTree.mem_of_ptr he))) (fun z hz => ?_)
      obtain rfl : b' = z := by rw [hb'] at hz; simpa using hz
      have : e.ptr ≠ some b' := fun he => (hbn b' hbm).2.2.1 (BTree.mem_of_ptr he)
      simp [xp, hm3, hm2, hm1, getParent_setParentIf_ne this, LawfulTreeMem.getParent_setParent_ne, hbg]
    · rw [BTree.ptr_mk]
      refine hk2.change (by grind)
        (fun z hz u hu => cne z (hcn z hz).1 (hcn z hz).2.1 u (fun he => hu ?_)
          (hplk z u (hcn z hz).2.2.2.2)) (fun z u hu => ?_)
        (fun z hz => ene z (hcn z hz).1 (hcn z hz).2.1)
        (fun z hz hzl => pne z (hcn z hz).1 (hcn z hz).2.1 (fun he => (hcn z hz).2.2.1 (he ▸ hbm))
          (hzl g hg) (fun he => (hcn z hz).2.2.2.1 (BTree.mem_of_ptr he))) (fun f' hf' => ?_)
      · rw [hplf, he.1, he.2]
      · rw [hplf] at hu
        obtain ⟨rfl, rfl⟩ := by simpa using hu
        rw [xc, hm3, LawfulTreeMem.child_setChild_self]
      · obtain rfl : g = f' := Option.some.inj (hg.symm.trans hf')
        have : e.ptr ≠ some g.a := fun he => (hcn g.a hgm).2.2.2.1 (BTree.mem_of_ptr he)
        simp [xp, hm3, hm2, hm1, getParent_setParentIf_ne this]
    · rw [← hk2']; exact px
    · rw [xx, redAt, ce]; exact hyc
    · refine her.reroot (by grind)
        (fun z hz u => cne z (hen z hz).1 (hen z hz).2.1 u (fun he => (hen z hz).2.2.2.2 (he.1 ▸ hfm))
          (hplk z u (hen z hz).2.2.2.1))
        (fun z hz => ene z (hen z hz).1 (hen z hz).2.1)
        (fun z hz hzr => pne z (hen z hz).1 (hen z hz).2.1 (fun he => (hen z hz).2.2.1 (he ▸ hbm))
          (fun he => (hen z hz).2.2.2.2 (he ▸ hgm)) hzr) (fun z hz => ?_)
      simp [xp, hm3, hm2, hm1, getParent_setParentIf_self hz]
  · refine hperm'.nodup_iff.mpr ?_
    grind
  · intro z hz
    rw [hperm.mem_iff] at hz
    have hz' : z ≠ x ∧ z ≠ y ∧ z ∉ b.toList ∧ z ∉ e.toList ∧ z ∉ k.addrs ∧ z ∉ Ctx.addrs kk := by grind
    obtain ⟨hzx, hzy, hzb, hze, hzk, hzc⟩ := hz'
    exact ⟨fun u => cne z hzx hzy u (fun he => hzc (he.1 ▸ hfm)) (hplk z u hzk),
      pne z hzx hzy (fun he => hzb (he ▸ hbm)) (fun he => hzc (he ▸ hgm))
        (fun he => hze (BTree.mem_of_ptr he)), ene z hzx hzy⟩

end Swap

/-- `firstlast` walks down one side of a subtree. -/
theorem firstlast_spec {m : M} {par : Option A} {s : BTree A} {r : A} (h : Repr m par s)
    (hr : s.ptr = some r) (d : TreeDir) :
    ∃ k y c e, s = Ctx.plug k (.mk d y c .nil e) ∧ (∀ f ∈ k, f.dir = d) ∧
      firstlast m r d = pure y := by
  induction hn : s.size using Nat.strong_induction_on generalizing s par r with
  | _ n ih =>
    obtain ⟨c, x, e, rfl⟩ := BTree.eq_mk_of_ptr hr d
    obtain ⟨hx, -, -, -, hxr, -⟩ := repr_mk.mp h
    by_cases hxn : x = .nil
    · subst hxn
      refine ⟨[], r, c, e, rfl, by simp, loop_done ?_⟩
      rw [BTree.ptr_nil] at hx
      simp [hx]
    · obtain ⟨r', hr'⟩ := Option.ne_none_iff_exists'.mp (by simpa using hxn : x.ptr ≠ none)
      have hlt : x.size < n := by rw [← hn]; cases d <;> simp only [BTree.mk, BTree.size] <;> omega
      obtain ⟨k, y, c', e', rfl, hk, hrun⟩ := ih x.size hlt hxr hr' rfl
      refine ⟨k ++ [⟨d, r, c, e⟩], y, c', e', by rw [Ctx.plug_append]; rfl, ?_, ?_⟩
      · intro f hf
        rcases List.mem_append.mp hf with hf | hf
        · exact hk f hf
        · rw [List.mem_singleton.mp hf]
      · rw [← hrun, firstlast, firstlast, loop_next]
        simp [hx, hr']

theorem before_eq_nil {k : Ctx A} (h : ∀ f ∈ k, f.dir = .left) : Ctx.before k = [] := by
  induction k with
  | nil => rfl
  | cons f k ih =>
    rw [Ctx.before, ih (fun g hg => h g (List.mem_cons_of_mem _ hg)), h f List.mem_cons_self]
    rfl

/-- After the first block of `tree_remove` the node has an empty subtree on a side `d`, the shape
and the colours are those of the tree before, and only the node itself has left its position. -/
theorem treeRemoveSwap_spec {t : TreeTree A M} {s : BTree A} {x : A} (h : Rep t s)
    (hx : x ∈ s.toList) :
    ∃ t' k d c e, treeRemoveSwap t x = pure t' ∧ Rep t' (Ctx.plug k (.mk d x c .nil e)) ∧
      (Ctx.plug k (.mk d x c .nil e)).shape = s.shape ∧ t'.numNodes = t.numNodes ∧
      SameOff s.toList t.mem t'.mem ∧
      ∃ l r, s.toList = l ++ x :: r ∧ (Ctx.plug k e).toList = l ++ r := by
  obtain ⟨k, c, l, r, rfl⟩ := Ctx.exists_plug hx
  obtain ⟨h1, h2, -, -, hl, hr⟩ := (repr_plug.mp h.repr).2
  have hlist : ∀ c d e, (Ctx.plug k (.mk d x c .nil e)).toList = k.before ++ (x :: e.toList) ++ k.after
      ∨ (Ctx.plug k (.mk d x c .nil e)).toList = k.before ++ (e.toList ++ [x]) ++ k.after := by
    intro c d e
    rw [Ctx.toList_plug]
    cases d with
    | left => exact Or.inl rfl
    | right => exact Or.inr rfl
  by_cases hln : l = .nil
  · subst hln
    refine ⟨t, k, .left, c, r, ?_, h, rfl, rfl, SameOff.refl _ _, k.before, r.toList ++ k.after, ?_, ?_⟩
    · rw [treeRemoveSwap, h1]
      rfl
    · rw [Ctx.toList_plug]; simp [BTree.toList]
    · rw [Ctx.toList_plug]; simp
  by_cases hrn : r = .nil
  · subst hrn
    refine ⟨t, k, .right, c, l, ?_, h, rfl, rfl, SameOff.refl _ _, k.before ++ l.toList, k.after, ?_, ?_⟩
    · rw [treeRemoveSwap, h2]
      cases child t.mem x .left <;> rfl
    · rw [Ctx.toList_plug]; simp [BTree.toList]
    · rw [Ctx.toList_plug]
  obtain ⟨a, ha⟩ := Option.ne_none_iff_exists'.mp (by simpa using hln : l.ptr ≠ none)
  obtain ⟨b, hb⟩ := Option.ne_none_iff_exists'.mp (by simpa using hrn : r.ptr ≠ none)
  obtain ⟨k2, y, cy, e, rfl, hk2, hfl⟩ := firstlast_spec hr hb .left
  have hrun : treeRemoveSwap t x = swapNodes t x y .left := by
    simp only [treeRemoveSwap, h1, ha, h2, hb, hfl, pure_bind]
  have hswap : ∃ t', swapNodes t x y .left = pure t' ∧
      Rep t' (k.plug (.mk .left y c l (Ctx.plug k2 (.mk .left x cy .nil e)))) ∧
      t'.numNodes = t.numNodes ∧
      SameOff (k.plug (.mk .left x c l (Ctx.plug k2 (.mk .left y cy .nil e)))).toList t.mem t'.mem := by
    cases k2 with
    | nil => exact swapNodes_adjacent h hln
    | cons f k2 => exact swapNodes_distant h hln (hk2 f List.mem_cons_self)
  obtain ⟨t', ht', hrep, hnum, hoff⟩ := hswap
  have hplug : ∀ u, k.plug (.mk .left y c l (Ctx.plug k2 u)) =
      Ctx.plug (k2 ++ ⟨.right, y, c, l⟩ :: k) u := fun u => by rw [Ctx.plug_append]; rfl
  rw [hplug] at hrep
  refine ⟨t', _, .left, cy, e, hrun.trans ht', hrep, ?_, hnum, hoff, k.before ++ l.toList,
    y :: e.toList ++ k2.after ++ k.after, ?_, ?_⟩
  · rw [← hplug]
    refine Ctx.shape_plug ?_
    show (BTree.mk .left y c l _).shape = (BTree.mk .left x c l _).shape
    rw [BTree.shape_mk, BTree.shape_mk, Ctx.shape_plug (t := .mk .left y cy .nil e) (by simp)]
  · rw [Ctx.toList_plug, BTree.toList, Ctx.toList_plug, before_eq_nil hk2]
    simp [BTree.mk, BTree.toList]
  · rw [← hplug, Ctx.toList_plug]
    show k.before ++ (l.toList ++ y :: (Ctx.plug k2 e).toList) ++ k.after = _
    rw [Ctx.toList_plug, before_eq_nil hk2]
    simp

/-- `tree_remove`: the node leaves the tree, and its only subtree takes its place. -/
theorem treeRemove_spec {t : TreeTree A M} {s : BTree A} {x : A} (h : Rep t s) (hx : x ∈ s.toList) :
    ∃ t' k d c e, treeRemove t x = pure (t', Ctx.ptr none k, e.ptr) ∧ Rep t' (Ctx.plug k e) ∧
      redAt t'.mem x = c ∧ (Ctx.plug k (.mk d x c .nil e)).shape = s.shape ∧
      t'.numNodes = t.numNodes - 1 ∧ SameOff s.toList t.mem t'.mem ∧
      ∃ l r, s.toList = l ++ x :: r ∧ (Ctx.plug k e).toList = l ++ r := by
  obtain ⟨t1, k, d, c, e, hswap, hrep, hshape, hnum, hoff, l, r, hl, hlr⟩ := treeRemoveSwap_spec h hx
  have hxl : ∀ b, b ∈ (Ctx.plug k (.mk d x c .nil e)).toList → b ∈ s.toList := by
    intro b hb
    rw [Ctx.mem_plug, BTree.mem_toList_mk] at hb
    have : b = x ∨ b ∈ (Ctx.plug k e).toList := by rw [Ctx.mem_plug]; simpa using by tauto
    rw [hlr] at this
    rw [hl]
    simp only [List.mem_append, List.mem_cons] at this ⊢
    tauto
  obtain ⟨hroot, hrepr, hnd⟩ := hrep
  obtain ⟨hk, hs⟩ := repr_plug.mp hrepr
  obtain ⟨hxd, hxf, hxp, hxc, -, her⟩ := repr_mk.mp hs
  rw [BTree.ptr_mk] at hk
  rw [BTree.ptr_nil] at hxd
  have hnd' := ((Ctx.plug_perm k _).trans (List.Perm.append_left _
    (BTree.toList_mk_perm d x c .nil e))).nodup_iff.mp hnd
  simp only [BTree.toList_nil, List.nil_append] at hnd'
  have hkn : ∀ b ∈ k.addrs, b ≠ x ∧ b ∉ e.toList := by grind
  have hen : ∀ b ∈ e.toList, b ≠ x ∧ b ∉ k.addrs := by grind
  have hsib := head_sib_ne (Ctx.nodup_plug.mp hnd) (x := x) (BTree.mem_toList_mk.mpr (Or.inl rfl))
  have hpl := place_eq hk hsib
  have hassert : (child t1.mem x .left = none ∨ child t1.mem x .right = none) := by
    cases d with
    | left => exact Or.inl hxd
    | right => exact Or.inr hxd
  have hchild : (if (child t1.mem x .left).isSome then child t1.mem x .left
      else child t1.mem x .right) = e.ptr := by
    cases d with
    | left => rw [hxd]; exact hxf
    | right =>
      rw [show child t1.mem x .left = e.ptr from hxf, show child t1.mem x .right = none from hxd]
      cases e.ptr <;> rfl
  set m1 := setParentIf (setPlace t1.root t1.mem k.place e.ptr).2 e.ptr (Ctx.ptr none k) with hm1
  set m' := setChild (setChild (setParent m1 x none) x .left none) x .right none with hm'
  have hrun : treeRemove t x = pure
      ({ root := (setPlace t1.root t1.mem k.place e.ptr).1, numNodes := t1.numNodes - 1, mem := m' },
        Ctx.ptr none k, e.ptr) := by
    simp only [treeRemove, hswap, pure_bind, decide_eq_true hassert, assert_true, hchild, hxp,
      promoteNodeChild, hpl]
    rfl
  have cne : ∀ b, b ≠ x → ∀ u, k.place ≠ some (b, u) → child m' b u = child t1.mem b u := by
    intro b hb u hu
    simp [hm', hm1, LawfulTreeMem.child_setChild_ne, hb, child_setPlace_ne hu]
  have pne : ∀ b, b ≠ x → e.ptr ≠ some b → getParent m' b = getParent t1.mem b := by
    intro b hb he
    simp [hm', hm1, LawfulTreeMem.getParent_setParent_ne, hb, getParent_setParentIf_ne he]
  have ene : ∀ b, getExtra m' b = getExtra t1.mem b := by
    intro b; simp [hm', hm1]
  have hplk : ∀ z u, z ∉ k.addrs → k.place ≠ some (z, u) := fun z u hz hu => hz (Ctx.place_mem hu)
  refine ⟨_, k, d, c, e, hrun, ⟨?_, repr_plug.mpr ⟨?_, ?_⟩, ?_⟩, ?_, hshape, by rw [← hnum], ?_,
    l, r, hl, hlr⟩
  · exact root_setPlace hroot
  · refine hk.refill (List.nodup_append.mp hnd').1 (fun b hb u hu => cne b (hkn b hb).1 u hu)
      (fun b u hu => ?_) (fun b hb => ⟨pne b (hkn b hb).1
        (fun he => (hkn b hb).2 (BTree.mem_of_ptr he)), ene b⟩)
    have hb := (hkn b (Ctx.place_mem hu)).1
    simp [hm', hm1, LawfulTreeMem.child_setChild_ne, hb, child_setPlace_self hu]
  · refine her.reroot (by grind) (fun b hb u => cne b (hen b hb).1 u (hplk b u (hen b hb).2))
      (fun b _ => ene b) (fun b hb hbr => pne b (hen b hb).1 hbr) (fun b hb => ?_)
    have := (hen b (BTree.mem_of_ptr hb)).1
    simp [hm', hm1, LawfulTreeMem.getParent_setParent_ne, this, getParent_setParentIf_self hb]
  · refine Ctx.nodup_plug.mpr ?_
    grind
  · rw [redAt, ene]; exact hxc
  · refine hoff.trans (fun b hb => ?_)
    have hbt : b ∉ (Ctx.plug k (.mk d x c .nil e)).toList := fun hb' => hb (hxl b hb')
    rw [Ctx.mem_plug, BTree.mem_toList_mk, not_or, not_or, not_or] at hbt
    obtain ⟨hbk, hbx, -, hbe⟩ := hbt
    exact ⟨fun u => cne b hbx u (hplk b u hbk), pne b hbx (fun he => hbe (BTree.mem_of_ptr he)),
      ene b⟩

end Libjeffpc.Tree
