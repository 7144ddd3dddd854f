import Libjeffpc.Tree.Repr
import Libjeffpc.Tree.RbTree

/-!
# Recolouring and rotating a represented tree
-/

set_option linter.unusedSectionVars false

namespace Libjeffpc.Tree

open Lib

variable {A M : Type} [DecidableEq A] [TreeMem A M] [LawfulTreeMem A M]

section Access

variable {m : M} {root p q node : Option A} {place : Option (A × TreeDir)} {b : A} {e : TreeDir}

@[simp] theorem child_setParentIf : child (setParentIf m node p) b e = child m b e := by
  cases node <;> simp [setParentIf]

@[simp] theorem getExtra_setParentIf : getExtra (setParentIf m node p) b = getExtra m b := by
  cases node <;> simp [setParentIf]

theorem getParent_setParentIf_self (h : node = some b) :
    getParent (setParentIf m node p) b = p := by
  subst h; simp [setParentIf]

theorem getParent_setParentIf_ne (h : node ≠ some b) :
    getParent (setParentIf m node p) b = getParent m b := by
  cases node with
  | none => rfl
  | some n => exact LawfulTreeMem.getParent_setParent_ne _ _ _ _ (fun hb => h (by rw [hb]))

@[simp] theorem getParent_setPlace : getParent (setPlace root m place p).2 b = getParent m b := by
  cases place <;> simp [setPlace]

@[simp] theorem getExtra_setPlace : getExtra (setPlace root m place p).2 b = getExtra m b := by
  cases place <;> simp [setPlace]

theorem child_setPlace_self (h : place = some (b, e)) :
    child (setPlace root m place p).2 b e = p := by
  subst h; simp [setPlace]

theorem child_setPlace_ne (h : place ≠ some (b, e)) :
    child (setPlace root m place p).2 b e = child m b e := by
  cases place with
  | none => rfl
  | some n =>
    refine LawfulTreeMem.child_setChild_ne _ _ _ _ _ _ (fun hb => h ?_)
    rw [hb.1, hb.2]

end Access

/-- `which_dir` finds the side of a hole, unless both children of the node above are NULL. -/
theorem whichDir_eq {m : M} {par hole : Option A} {f : Frame A} {k : Ctx A}
    (h : ReprCtx m par hole (f :: k)) (hne : hole ≠ f.sib.ptr) : whichDir m f.a hole = f.dir := by
  obtain ⟨h1, h2, -⟩ := h
  rw [whichDir]
  cases hd : f.dir with
  | left => rw [hd] at h1; simp [h1]
  | right =>
    rw [hd] at h2
    simp only [Dir.flip] at h2
    rw [h2, if_neg (fun h => hne h.symm)]

/-- The node above a subtree does not have it on both sides. -/
theorem head_sib_ne {k : Ctx A} {s : BTree A} {x : A} (hn : (k.addrs ++ s.toList).Nodup)
    (hx : x ∈ s.toList) : ∀ f ∈ k.head?, some x ≠ f.sib.ptr := by
  intro f hf he
  cases k with
  | nil => simp at hf
  | cons g k =>
    obtain rfl : g = f := by simpa using hf
    have h1 : x ∈ Ctx.addrs (g :: k) := by simp [Ctx.addrs, BTree.mem_of_ptr he.symm]
    exact (List.nodup_append.mp hn).2.2 x h1 x hx rfl

theorem place_eq {m : M} {hole : Option A} {k : Ctx A} (h : ReprCtx m none hole k)
    (hne : ∀ f ∈ k.head?, hole ≠ f.sib.ptr) :
    ((Ctx.ptr none k).map fun p => (p, whichDir m p hole)) = k.place := by
  cases k with
  | nil => rfl
  | cons f k => simp [Ctx.ptr, Ctx.place, whichDir_eq h (hne f rfl)]

/-- The root pointer after the subtree at `k` is replaced. -/
theorem root_setPlace {k : Ctx A} {s t : BTree A} {root : Option A} {m : M}
    (h : root = (k.plug s).ptr) : (setPlace root m k.place t.ptr).1 = (k.plug t).ptr := by
  cases k with
  | nil => rfl
  | cons f k => exact h.trans (ptr_plug (f :: k) (Or.inl (by simp)))

/-- Changing the colour of a node. -/
theorem Rep.setRed {t : TreeTree A M} {k : Ctx A} {d : TreeDir} {a : A} {c : Bool} {x y : BTree A}
    (h : Rep t (k.plug (.mk d a c x y))) (c' : Bool) :
    Rep { t with mem := setRed t.mem (some a) c' } (k.plug (.mk d a c' x y)) := by
  obtain ⟨hroot, hrepr, hnd⟩ := h
  obtain ⟨hk, hs⟩ := repr_plug.mp hrepr
  obtain ⟨h1, h2, h3, -, h5, h6⟩ := repr_mk.mp hs
  have hperm := ((Ctx.plug_perm k _).trans (List.Perm.append_left _ (BTree.toList_mk_perm d a c x y)))
  have hnd' := hperm.nodup_iff.mp hnd
  have key : ∀ b, b ≠ a → (∀ e, child (Tree.setRed t.mem (some a) c') b e = child t.mem b e) ∧
      getParent (Tree.setRed t.mem (some a) c') b = getParent t.mem b ∧
      getExtra (Tree.setRed t.mem (some a) c') b = getExtra t.mem b := by
    intro b hb
    simp [Tree.setRed, LawfulTreeMem.getExtra_setExtra_ne _ _ _ _ hb]
  have hxa : ∀ b ∈ x.toList, b ≠ a := by grind
  have hya : ∀ b ∈ y.toList, b ≠ a := by grind
  have hka : ∀ b ∈ k.addrs, b ≠ a := by grind
  refine ⟨?_, repr_plug.mpr ⟨?_, ?_⟩, ?_⟩
  · exact hroot.trans (ptr_plug k (Or.inr (by simp)))
  · rw [BTree.ptr_mk] at hk ⊢
    exact hk.frame (fun b hb => key b (hka b hb))
  · refine repr_mk.mpr ⟨?_, ?_, ?_, ?_, ?_, ?_⟩
    · simpa [Tree.setRed] using h1
    · simpa [Tree.setRed] using h2
    · simpa [Tree.setRed] using h3
    · cases c' <;> simp [redAt, Tree.setRed]
    · exact h5.frame (fun b hb => key b (hxa b hb))
    · exact h6.frame (fun b hb => key b (hya b hb))
  · exact ((Ctx.plug_perm k _).trans
      (List.Perm.append_left _ (BTree.toList_mk_perm d a c' x y))).nodup_iff.mpr hnd'

/-- `rb_rotate` moves the node on the side away from `d` up into the place of its parent. -/
theorem rbRotate_spec {t : TreeTree A M} {k : Ctx A} {d : TreeDir} {p q : A} {cp cq : Bool}
    {x y z : BTree A} (h : Rep t (k.plug (.mk d p cp x (.mk d q cq y z)))) :
    ∃ t', rbRotate t p d = pure t' ∧ Rep t' (k.plug (.mk d q cq (.mk d p cp x y) z)) ∧
      t'.numNodes = t.numNodes ∧
      SameOff (k.plug (.mk d p cp x (.mk d q cq y z))).toList t.mem t'.mem := by
  obtain ⟨hroot, hrepr, hnd⟩ := h
  obtain ⟨hk, hs⟩ := repr_plug.mp hrepr
  obtain ⟨hpx, hpq, hpp, hpc, hx, hq⟩ := repr_mk.mp hs
  obtain ⟨hqy, hqz, hqp, hqc, hy, hz⟩ := repr_mk.mp hq
  rw [BTree.ptr_mk] at hk hpq
  have hperm : (k.plug (.mk d p cp x (.mk d q cq y z))).toList.Perm
      (k.addrs ++ p :: (x.toList ++ q :: (y.toList ++ z.toList))) :=
    (Ctx.plug_perm k _).trans (List.Perm.append_left _ ((BTree.toList_mk_perm d p cp _ _).trans
      (List.Perm.cons _ (List.Perm.append_left _ (BTree.toList_mk_perm d q cq _ _)))))
  have hnd' := hperm.nodup_iff.mp hnd
  have hsib := head_sib_ne (Ctx.nodup_plug.mp hnd) (x := p) (BTree.mem_toList_mk.mpr (Or.inl rfl))
  have hpq' : p ≠ q := by grind
  have hyp : y.ptr ≠ some p := fun he => by have := BTree.mem_of_ptr he; grind
  have hyq : y.ptr ≠ some q := fun he => by have := BTree.mem_of_ptr he; grind
  have hplp : ∀ e, k.place ≠ some (p, e) := fun e he => by have := Ctx.place_mem he; grind
  have hplq : ∀ e, k.place ≠ some (q, e) := fun e he => by have := Ctx.place_mem he; grind
  set m1 := setChild t.mem p d.flip y.ptr with hm1
  set m2 := setParent (setParentIf m1 y.ptr (some p)) q (Ctx.ptr none k) with hm2
  have hm1q : child m1 q d = y.ptr := by
    rw [hm1, LawfulTreeMem.child_setChild_ne _ _ _ _ _ _ (fun hh => hpq' hh.1.symm), hqy]
  have hm1p : getParent (setParentIf m1 y.ptr (some p)) p = Ctx.ptr none k := by
    rw [getParent_setParentIf_ne hyp, hm1, LawfulTreeMem.getParent_setChild, hpp]
  have hm2p : getParent m2 p = Ctx.ptr none k := by
    rw [hm2, LawfulTreeMem.getParent_setParent_ne _ _ _ _ hpq', hm1p]
  -- the parent still points to `p` when its pointer is redirected
  have hk2 : ReprCtx m2 none (some p) k := by
    refine hk.frame (fun b hb => ?_)
    have hbp : b ≠ p := by grind
    have hbq : b ≠ q := by grind
    have hby : y.ptr ≠ some b := fun he => by have := BTree.mem_of_ptr he; grind
    refine ⟨fun e => ?_, ?_, ?_⟩
    · simp [hm2, hm1, LawfulTreeMem.child_setChild_ne, hbp]
    · simp [hm2, hm1, LawfulTreeMem.getParent_setParent_ne, hbq, getParent_setParentIf_ne hby]
    · simp [hm2, hm1]
  have hpl := place_eq hk2 hsib
  set m3 := (setPlace t.root m2 k.place (some q)).2 with hm3
  set m' := setParent (setChild m3 q d (some p)) p (some q) with hm'
  have hrun : rbRotate t p d =
      pure { t with root := (setPlace t.root m2 k.place (some q)).1, mem := m' } := by
    simp only [rbRotate, hpq, Option.isSome_some, assert_true, pure_bind, deref_some, hqy, ← hm1,
      hm1q, hm1p, ← hm2, hm2p, hpl]
    rfl
  have ccp : child m' p d = x.ptr := by
    simp [hm', hm3, hm2, hm1, LawfulTreeMem.child_setChild_ne, hpq', child_setPlace_ne (hplp d), hpx]
  have ccpf : child m' p d.flip = y.ptr := by
    simp [hm', hm3, hm2, hm1, LawfulTreeMem.child_setChild_ne, hpq', child_setPlace_ne (hplp _)]
  have ccqf : child m' q d.flip = z.ptr := by
    simp [hm', hm3, hm2, hm1, LawfulTreeMem.child_setChild_ne, hpq'.symm,
      child_setPlace_ne (hplq _), hqz]
  have pp : getParent m' p = some q := by simp [hm']
  have pq : getParent m' q = Ctx.ptr none k := by
    simp [hm', hm3, hm2, LawfulTreeMem.getParent_setParent_ne, hpq'.symm]
  have cne : ∀ b, b ≠ p → b ≠ q → ∀ e, k.place ≠ some (b, e) → child m' b e = child t.mem b e := by
    intro b hbp hbq e hpl
    simp [hm', hm3, hm2, hm1, LawfulTreeMem.child_setChild_ne, hbp, hbq, child_setPlace_ne hpl]
  have pne : ∀ b, b ≠ p → b ≠ q → y.ptr ≠ some b → getParent m' b = getParent t.mem b := by
    intro b hbp hbq hby
    simp [hm', hm3, hm2, hm1, LawfulTreeMem.getParent_setParent_ne, hbp, hbq,
      getParent_setParentIf_ne hby]
  have ene : ∀ b, getExtra m' b = getExtra t.mem b := by
    intro b; simp [hm', hm3, hm2, hm1]
  have hplk : ∀ b e, b ∉ k.addrs → k.place ≠ some (b, e) := fun b e hb he => hb (Ctx.place_mem he)
  -- every node but `p`, `q`, the root of `y` and the one above `p` is as before
  have same : ∀ b, b ≠ p → b ≠ q → b ∉ y.toList → b ∉ k.addrs →
      (∀ e, child m' b e = child t.mem b e) ∧ getParent m' b = getParent t.mem b ∧
      getExtra m' b = getExtra t.mem b := fun b hbp hbq hby hbk =>
    ⟨fun e => cne b hbp hbq e (hplk b e hbk),
      pne b hbp hbq (fun he => hby (BTree.mem_of_ptr he)), ene b⟩
  have hkn : ∀ b ∈ k.addrs, b ≠ p ∧ b ≠ q ∧ b ∉ y.toList := by grind
  refine ⟨_, hrun, ⟨?_, ?_, ?_⟩, rfl, ?_⟩
  · have := root_setPlace (m := m2) (t := .mk d q cq (.mk d p cp x y) z) hroot
    rwa [BTree.ptr_mk] at this
  · refine repr_plug.mpr ⟨?_, repr_mk.mpr ⟨by simp [hm'], ccqf, pq, ?_, repr_mk.mpr ⟨ccp, ccpf, pp,
      ?_, ?_, ?_⟩, ?_⟩⟩
    · rw [BTree.ptr_mk]
      refine hk.refill (List.nodup_append.mp hnd').1
        (fun b hb e he => cne b (hkn b hb).1 (hkn b hb).2.1 e he) (fun b e he => ?_)
        (fun b hb => ⟨pne b (hkn b hb).1 (hkn b hb).2.1
          (fun he => (hkn b hb).2.2 (BTree.mem_of_ptr he)), ene b⟩)
      have hb := hkn b (Ctx.place_mem he)
      simp [hm', LawfulTreeMem.child_setChild_ne, hb.2.1, hm3, child_setPlace_self he]
    · rw [redAt, ene]; exact hqc
    · rw [redAt, ene]; exact hpc
    · exact hx.frame (fun b hb => same b (by grind) (by grind) (by grind) (by grind))
    · have hyn : ∀ b ∈ y.toList, b ≠ p ∧ b ≠ q ∧ b ∉ k.addrs := by grind
      refine hy.reroot (by grind)
        (fun b hb e => cne b (hyn b hb).1 (hyn b hb).2.1 e (hplk b e (hyn b hb).2.2))
        (fun b _ => ene b) (fun b hb hne => pne b (hyn b hb).1 (hyn b hb).2.1 hne) (fun b hb => ?_)
      have hby := hyn b (BTree.mem_of_ptr hb)
      simp [hm', hm3, hm2, LawfulTreeMem.getParent_setParent_ne, hby.1, hby.2.1,
        getParent_setParentIf_self hb]
    · exact hz.frame (fun b hb => same b (by grind) (by grind) (by grind) (by grind))
  · rw [Ctx.toList_plug, BTree.toList_rotate, ← Ctx.toList_plug]; exact hnd
  · intro b hb
    rw [hperm.mem_iff] at hb
    exact same b (by grind) (by grind) (by grind) (by grind)

end Libjeffpc.Tree
