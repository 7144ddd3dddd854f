import Libjeffpc.Tree.Tree

/-!
# What a tree in memory represents

`Repr m par s`: the nodes of `s` have in the memory `m` the children, the parent and the colour they
have in `s`, where `par` is the parent of the root of `s`. `ReprCtx` says the same of a tree with a
hole. The lemmas at the end are the frame rules of the two: what the nodes of a tree look like after
writes that touch only the parent of its root, or only the pointer into a hole.
-/

namespace Libjeffpc.Tree

open Lib

variable {A M : Type} [TreeMem A M]

/-- The colour of a node: `is_red` of a pointer that is not NULL. -/
def redAt (m : M) (a : A) : Bool := decide (getExtra m a ≠ 0)

def Repr (m : M) : Option A → BTree A → Prop
  | _, .nil => True
  | par, .node l a c r => child m a .left = l.ptr ∧ child m a .right = r.ptr ∧
      getParent m a = par ∧ redAt m a = c ∧ Repr m (some a) l ∧ Repr m (some a) r

/-- The nodes around a hole that `hole` points into; `par` is the parent of the whole tree. -/
def ReprCtx (m : M) (par : Option A) : Option A → Ctx A → Prop
  | _, [] => True
  | hole, f :: k => child m f.a f.dir = hole ∧ child m f.a f.dir.flip = f.sib.ptr ∧
      getParent m f.a = Ctx.ptr par k ∧ redAt m f.a = f.red ∧ Repr m (some f.a) f.sib ∧
      ReprCtx m par (some f.a) k

/-- The tree `t` represents `s`. -/
structure Rep (t : TreeTree A M) (s : BTree A) : Prop where
  root : t.root = s.ptr
  repr : Repr t.mem none s
  nodup : s.toList.Nodup

/-- The nodes outside of `S` are untouched. -/
def SameOff (S : List A) (m m' : M) : Prop :=
  ∀ a, a ∉ S → (∀ d, child m' a d = child m a d) ∧ getParent m' a = getParent m a ∧
    getExtra m' a = getExtra m a

/-- A node reached from the root through child pointers: an item of the tree. -/
inductive Member (t : TreeTree A M) : A → Prop where
  | root {a : A} (h : t.root = some a) : Member t a
  | child {a b : A} {d : TreeDir} (ha : Member t a) (h : child t.mem a d = some b) : Member t b

@[simp] theorem repr_nil (m : M) (par : Option A) : Repr m par .nil := trivial

@[simp] theorem reprCtx_nil (m : M) (par hole : Option A) : ReprCtx m par hole [] := trivial

theorem repr_mk {m : M} {par : Option A} {d : TreeDir} {a : A} {c : Bool} {x y : BTree A} :
    Repr m par (.mk d a c x y) ↔ child m a d = x.ptr ∧ child m a d.flip = y.ptr ∧
      getParent m a = par ∧ redAt m a = c ∧ Repr m (some a) x ∧ Repr m (some a) y := by
  cases d with
  | left => exact Iff.rfl
  | right => simp only [BTree.mk, Repr, Dir.flip]; tauto

theorem reprCtx_cons {m : M} {par hole : Option A} {f : Frame A} {k : Ctx A} :
    ReprCtx m par hole (f :: k) ↔ child m f.a f.dir = hole ∧ child m f.a f.dir.flip = f.sib.ptr ∧
      getParent m f.a = Ctx.ptr par k ∧ redAt m f.a = f.red ∧ Repr m (some f.a) f.sib ∧
      ReprCtx m par (some f.a) k := Iff.rfl

/-- A filled context is represented by its two parts. -/
theorem repr_plug {m : M} {par : Option A} {k : Ctx A} {s : BTree A} :
    Repr m par (k.plug s) ↔ ReprCtx m par s.ptr k ∧ Repr m (Ctx.ptr par k) s := by
  induction k generalizing s with
  | nil => simp [Ctx.ptr]
  | cons f k ih =>
    rw [Ctx.plug_cons, ih, repr_mk, reprCtx_cons, BTree.ptr_mk]
    simp only [Ctx.ptr]
    tauto

theorem ptr_plug (k : Ctx A) {s s' : BTree A} (h : k ≠ [] ∨ s.ptr = s'.ptr) :
    (k.plug s).ptr = (k.plug s').ptr := by
  induction k generalizing s s' with
  | nil => exact h.resolve_left (fun h => h rfl)
  | cons f k ih => exact ih (Or.inr (by simp))

section Frame

/-- Writes to other nodes, and to the parent field of the root. -/
theorem Repr.reroot {m m' : M} {par par' : Option A} {s : BTree A} (h : Repr m par s)
    (hn : s.toList.Nodup)
    (hc : ∀ a ∈ s.toList, ∀ d, child m' a d = child m a d)
    (he : ∀ a ∈ s.toList, getExtra m' a = getExtra m a)
    (hp : ∀ a ∈ s.toList, s.ptr ≠ some a → getParent m' a = getParent m a)
    (hr : ∀ a, s.ptr = some a → getParent m' a = par') : Repr m' par' s := by
  induction s generalizing par par' with
  | nil => trivial
  | node l a c r ihl ihr =>
    obtain ⟨h1, h2, -, h4, h5, h6⟩ := h
    have hn' := hn
    rw [BTree.toList, List.nodup_middle, List.nodup_cons, List.mem_append, not_or] at hn'
    obtain ⟨⟨hal, har⟩, hnlr⟩ := hn'
    have hnl := (List.nodup_append.mp hnlr).1
    have hnr := (List.nodup_append.mp hnlr).2.1
    have ml : ∀ b, b ∈ l.toList → b ∈ (BTree.node l a c r).toList := fun b hb => by
      simp [BTree.toList, hb]
    have mr : ∀ b, b ∈ r.toList → b ∈ (BTree.node l a c r).toList := fun b hb => by
      simp [BTree.toList, hb]
    have ma : a ∈ (BTree.node l a c r).toList := by simp [BTree.toList]
    have kl : ∀ b ∈ l.toList, getParent m' b = getParent m b := fun b hb =>
      hp b (ml b hb) (by simp only [BTree.ptr]; rintro ⟨⟩; exact hal hb)
    have kr : ∀ b ∈ r.toList, getParent m' b = getParent m b := fun b hb =>
      hp b (mr b hb) (by simp only [BTree.ptr]; rintro ⟨⟩; exact har hb)
    refine ⟨by rw [hc a ma, h1], by rw [hc a ma, h2], hr a rfl, ?_, ?_, ?_⟩
    · rw [redAt, he a ma]; exact h4
    · refine ihl h5 hnl (fun b hb => hc b (ml b hb)) (fun b hb => he b (ml b hb))
        (fun b hb _ => kl b hb) (fun b hb => ?_)
      have hb' := BTree.mem_of_ptr hb
      rw [kl b hb']
      obtain ⟨c', x, y, rfl⟩ := BTree.eq_mk_of_ptr hb .left
      exact (repr_mk.mp h5).2.2.1
    · refine ihr h6 hnr (fun b hb => hc b (mr b hb)) (fun b hb => he b (mr b hb))
        (fun b hb _ => kr b hb) (fun b hb => ?_)
      have hb' := BTree.mem_of_ptr hb
      rw [kr b hb']
      obtain ⟨c', x, y, rfl⟩ := BTree.eq_mk_of_ptr hb .left
      exact (repr_mk.mp h6).2.2.1

/-- Writes to other nodes only. -/
theorem Repr.frame {m m' : M} {par : Option A} {s : BTree A} (h : Repr m par s)
    (hs : ∀ a ∈ s.toList, (∀ d, child m' a d = child m a d) ∧ getParent m' a = getParent m a ∧
      getExtra m' a = getExtra m a) : Repr m' par s := by
  induction s generalizing par with
  | nil => trivial
  | node l a c r ihl ihr =>
    obtain ⟨h1, h2, h3, h4, h5, h6⟩ := h
    obtain ⟨ha1, ha2, ha3⟩ := hs a (by simp [BTree.toList])
    refine ⟨by rw [ha1, h1], by rw [ha1, h2], by rw [ha2, h3], by rw [redAt, ha3]; exact h4, ?_, ?_⟩
    · exact ihl h5 (fun b hb => hs b (by simp [BTree.toList, hb]))
    · exact ihr h6 (fun b hb => hs b (by simp [BTree.toList, hb]))

/-- Writes to other nodes, to the pointer into the hole and to the parent field of the root. -/
theorem ReprCtx.change {m m' : M} {par par' hole hole' : Option A} {k : Ctx A}
    (h : ReprCtx m par hole k) (hn : k.addrs.Nodup)
    (hc : ∀ a ∈ k.addrs, ∀ d, k.place ≠ some (a, d) → child m' a d = child m a d)
    (hh : ∀ a d, k.place = some (a, d) → child m' a d = hole')
    (he : ∀ a ∈ k.addrs, getExtra m' a = getExtra m a)
    (hp : ∀ a ∈ k.addrs, (∀ f ∈ k.getLast?, a ≠ f.a) → getParent m' a = getParent m a)
    (hl : ∀ f ∈ k.getLast?, getParent m' f.a = par') : ReprCtx m' par' hole' k := by
  induction k generalizing hole hole' with
  | nil => trivial
  | cons f k ih =>
    obtain ⟨h1, h2, h3, h4, h5, h6⟩ := h
    rw [Ctx.addrs, List.nodup_cons, List.mem_append, not_or] at hn
    obtain ⟨⟨hfs, hfk⟩, hn⟩ := hn
    obtain ⟨hns, hnk, hdis⟩ := List.nodup_append.mp hn
    have mf : f.a ∈ Ctx.addrs (f :: k) := by simp [Ctx.addrs]
    have ms : ∀ b ∈ f.sib.toList, b ∈ Ctx.addrs (f :: k) := fun b hb => by simp [Ctx.addrs, hb]
    have mk : ∀ b ∈ Ctx.addrs k, b ∈ Ctx.addrs (f :: k) := fun b hb => by simp [Ctx.addrs, hb]
    have hlast : ∀ g ∈ k.getLast?, g.a ∈ Ctx.addrs k := fun g hg =>
      Ctx.mem_addrs (List.mem_of_mem_getLast? hg)
    refine ⟨hh _ _ rfl, ?_, ?_, by rw [redAt, he _ mf]; exact h4, ?_, ?_⟩
    · rw [hc f.a mf _ (by simp [Ctx.place]), h2]
    · cases k with
      | nil => exact hl f rfl
      | cons g k =>
        rw [hp f.a mf, h3]
        · rfl
        · intro g' hg' he
          exact hfk (he ▸ hlast g' (by simpa using hg'))
    · refine h5.frame (fun b hb => ⟨fun d => hc b (ms b hb) d ?_, hp b (ms b hb) ?_, he b (ms b hb)⟩)
      · rintro ⟨⟩; exact hfs hb
      · cases k with
        | nil => rintro g ⟨⟩ rfl; exact hfs hb
        | cons g' k =>
          intro g hg hb'
          exact hdis b hb g.a (hlast g (by simpa using hg)) hb'
    · refine ih h6 hnk (fun b hb d hbd => hc b (mk b hb) d ?_) (fun b d hbd => ?_)
        (fun b hb => he b (mk b hb)) (fun b hb hbl => hp b (mk b hb) ?_) (fun g hg => hl g ?_)
      · rintro ⟨⟩; exact hfk hb
      · have hb := Ctx.place_mem hbd
        rw [hc b (mk b hb)]
        · cases k with
          | nil => simp [Ctx.place] at hbd
          | cons g k =>
            obtain ⟨rfl, rfl⟩ := by simpa [Ctx.place] using hbd
            exact (reprCtx_cons.mp h6).1
        · rintro ⟨⟩; exact hfk hb
      · cases k with
        | nil => simp [Ctx.addrs] at hb
        | cons g' k => intro g hg; exact hbl g (by simpa using hg)
      · cases k with
        | nil => simp at hg
        | cons g' k => simpa using hg

theorem ReprCtx.last_parent {m : M} {par hole : Option A} {k : Ctx A} (h : ReprCtx m par hole k) :
    ∀ f ∈ k.getLast?, getParent m f.a = par := by
  induction k generalizing hole with
  | nil => simp
  | cons f k ih =>
    intro g hg
    cases k with
    | nil =>
      obtain rfl : f = g := by simpa using hg
      exact h.2.2.1
    | cons f' k => exact ih h.2.2.2.2.2 g (by simpa using hg)

/-- Writes to other nodes and to the pointer into the hole. -/
theorem ReprCtx.refill {m m' : M} {par hole hole' : Option A} {k : Ctx A}
    (h : ReprCtx m par hole k) (hn : k.addrs.Nodup)
    (hc : ∀ a ∈ k.addrs, ∀ d, k.place ≠ some (a, d) → child m' a d = child m a d)
    (hh : ∀ a d, k.place = some (a, d) → child m' a d = hole')
    (hs : ∀ a ∈ k.addrs, getParent m' a = getParent m a ∧ getExtra m' a = getExtra m a) :
    ReprCtx m' par hole' k := by
  refine h.change hn hc hh (fun a ha => (hs a ha).2) (fun a ha _ => (hs a ha).1) (fun f hf => ?_)
  rw [(hs f.a (Ctx.mem_addrs (List.mem_of_mem_getLast? hf))).1]
  exact h.last_parent f hf

/-- Writes to other nodes only. -/
theorem ReprCtx.frame {m m' : M} {par hole : Option A} {k : Ctx A} (h : ReprCtx m par hole k)
    (hs : ∀ a ∈ k.addrs, (∀ d, child m' a d = child m a d) ∧ getParent m' a = getParent m a ∧
      getExtra m' a = getExtra m a) : ReprCtx m' par hole k := by
  induction k generalizing hole with
  | nil => trivial
  | cons f k ih =>
    obtain ⟨h1, h2, h3, h4, h5, h6⟩ := h
    obtain ⟨hf1, hf2, hf3⟩ := hs f.a (by simp [Ctx.addrs])
    refine ⟨by rw [hf1, h1], by rw [hf1, h2], by rw [hf2, h3], by rw [redAt, hf3]; exact h4, ?_, ?_⟩
    · exact h5.frame (fun b hb => hs b (by simp [Ctx.addrs, hb]))
    · exact ih h6 (fun b hb => hs b (by simp [Ctx.addrs, hb]))

end Frame

namespace SameOff

variable {S S' : List A} {m m' m'' : M}

theorem refl (S : List A) (m : M) : SameOff S m m := fun _ _ => ⟨fun _ => rfl, rfl, rfl⟩

theorem trans (h : SameOff S m m') (h' : SameOff S m' m'') : SameOff S m m'' := fun a ha =>
  ⟨fun d => by rw [(h' a ha).1, (h a ha).1], by rw [(h' a ha).2.1, (h a ha).2.1],
    by rw [(h' a ha).2.2, (h a ha).2.2]⟩

theorem mono (h : SameOff S m m') (hS : ∀ a ∈ S, a ∈ S') : SameOff S' m m' := fun a ha =>
  h a (fun hs => ha (hS a hs))

variable [LawfulTreeMem A M]

theorem setExtra (h : SameOff S m m') {a : A} (ha : a ∈ S) (x : Fin 4) :
    SameOff S m (TreeMem.setExtra m' a x) := fun b hb => by
  have hne : b ≠ a := fun hba => hb (hba ▸ ha)
  refine ⟨fun e => ?_, ?_, ?_⟩
  · rw [LawfulTreeMem.child_setExtra, (h b hb).1]
  · rw [LawfulTreeMem.getParent_setExtra, (h b hb).2.1]
  · rw [LawfulTreeMem.getExtra_setExtra_ne _ _ _ _ hne, (h b hb).2.2]

end SameOff

/-- The items of a represented tree are its nodes. -/
theorem Rep.member_iff {t : TreeTree A M} {s : BTree A} (h : Rep t s) (a : A) :
    Member t a ↔ a ∈ s.toList := by
  constructor
  · intro hm
    have hsub : ∃ k u, s = Ctx.plug k u ∧ u.ptr = some a := by
      induction hm with
      | root hr => exact ⟨[], s, rfl, by rw [← h.root, hr]⟩
      | @child a b d _ hc ih =>
        obtain ⟨k, u, rfl, hu⟩ := ih
        obtain ⟨c, x, y, rfl⟩ := BTree.eq_mk_of_ptr hu d
        obtain ⟨hx, -⟩ := repr_mk.mp (repr_plug.mp h.repr).2
        exact ⟨⟨d, a, c, y⟩ :: k, x, rfl, by rw [← hx, hc]⟩
    obtain ⟨k, u, rfl, hu⟩ := hsub
    exact Ctx.mem_plug.mpr (Or.inr (BTree.mem_of_ptr hu))
  · intro ha
    obtain ⟨k, c, l, r, rfl⟩ := Ctx.exists_plug ha
    obtain ⟨hk, -⟩ := repr_plug.mp h.repr
    have hroot := h.root
    clear h ha
    revert hk hroot
    generalize hu : BTree.node l a c r = u
    have hup : u.ptr = some a := by rw [← hu]; rfl
    clear hu
    induction k generalizing u a with
    | nil => intro _ hroot; exact .root (hroot.trans hup)
    | cons f k ih =>
      intro hk hroot
      obtain ⟨h1, -, -, -, -, h6⟩ := hk
      exact .child (ih f.a (BTree.mk f.dir f.a f.red u f.sib) (by simp) (by simpa using h6) hroot)
        (h1.trans hup)

end Libjeffpc.Tree
