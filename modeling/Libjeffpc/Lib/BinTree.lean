import Mathlib.Tactic

/-!
# Binary trees, their contexts, and red-black balance

Binary trees whose nodes carry a label and a colour, seen from a position: a context `Ctx` is the
path from a hole up to the root, and `plug` fills the hole. Every mirror image is one statement
about a direction `d`: `BTree.mk d a c x y` has `x` on the side `d` and `y` on the other side.
-/

namespace Libjeffpc.Lib

/-- A side of a node. -/
inductive Dir where
  | left
  | right
  deriving DecidableEq, Repr

/-- The other side. -/
def Dir.flip : Dir → Dir
  | .left => .right
  | .right => .left

@[simp] theorem Dir.flip_flip (d : Dir) : d.flip.flip = d := by cases d <;> rfl

@[simp] theorem Dir.flip_ne (d : Dir) : d.flip ≠ d := by cases d <;> simp [Dir.flip]

@[simp] theorem Dir.ne_flip (d : Dir) : d ≠ d.flip := by cases d <;> simp [Dir.flip]

theorem Dir.eq_or_eq_flip (d e : Dir) : e = d ∨ e = d.flip := by
  cases d <;> cases e <;> simp [Dir.flip]

/-- A list from left to right, in the order of a walk away from `d`. -/
def Dir.list {α : Type} (d : Dir) (l : List α) : List α :=
  match d with
  | .left => l
  | .right => l.reverse

@[simp] theorem Dir.list_nil {α : Type} (d : Dir) : d.list ([] : List α) = [] := by cases d <;> rfl

theorem Dir.list_flip {α : Type} (d : Dir) (l : List α) : d.flip.list l = (d.list l).reverse := by
  cases d <;> simp [Dir.flip, Dir.list]

/-- A binary tree with a label and a colour (`true` is red) in every node. -/
inductive BTree (α : Type) where
  | nil
  | node (l : BTree α) (a : α) (red : Bool) (r : BTree α)
  deriving DecidableEq, Repr

variable {α : Type}

namespace BTree

/-- The label of the root. -/
def ptr : BTree α → Option α
  | nil => none
  | node _ a _ _ => some a

/-- The colour of the root; the empty tree is black. -/
def red : BTree α → Bool
  | nil => false
  | node _ _ c _ => c

/-- The tree with a black root. -/
def blacken : BTree α → BTree α
  | nil => nil
  | node l a _ r => node l a false r

/-- The labels in symmetric order. -/
def toList : BTree α → List α
  | nil => []
  | node l a _ r => l.toList ++ a :: r.toList

/-- The labels in post-order: children before their parent. -/
def postorder : BTree α → List α
  | nil => []
  | node l a _ r => l.postorder ++ r.postorder ++ [a]

/-- The number of nodes. -/
def size : BTree α → Nat
  | nil => 0
  | node l _ _ r => l.size + r.size + 1

/-- The number of nodes on a longest path from the root. -/
def height : BTree α → Nat
  | nil => 0
  | node l _ _ r => max l.height r.height + 1

/-- The node `a` with the subtree `x` on the side `d` and `y` on the other side. -/
def mk (d : Dir) (a : α) (c : Bool) (x y : BTree α) : BTree α :=
  match d with
  | .left => node x a c y
  | .right => node y a c x

@[simp] theorem ptr_nil : (nil : BTree α).ptr = none := rfl

@[simp] theorem ptr_mk (d : Dir) (a : α) (c : Bool) (x y : BTree α) :
    (mk d a c x y).ptr = some a := by
  cases d <;> rfl

@[simp] theorem red_nil : (nil : BTree α).red = false := rfl

@[simp] theorem red_mk (d : Dir) (a : α) (c : Bool) (x y : BTree α) : (mk d a c x y).red = c := by
  cases d <;> rfl

@[simp] theorem blacken_mk (d : Dir) (a : α) (c : Bool) (x y : BTree α) :
    (mk d a c x y).blacken = mk d a false x y := by
  cases d <;> rfl

@[simp] theorem toList_nil : (nil : BTree α).toList = [] := rfl

@[simp] theorem toList_blacken (t : BTree α) : t.blacken.toList = t.toList := by
  cases t <;> rfl

@[simp] theorem ptr_blacken (t : BTree α) : t.blacken.ptr = t.ptr := by
  cases t <;> rfl

@[simp] theorem ptr_eq_none {t : BTree α} : t.ptr = none ↔ t = nil := by
  cases t <;> simp [ptr]

/-- A node seen from either side. -/
theorem mk_flip (d : Dir) (a : α) (c : Bool) (x y : BTree α) : mk d.flip a c x y = mk d a c y x := by
  cases d <;> rfl

/-- Every tree that is not empty is a node, seen from any side. -/
theorem exists_mk {t : BTree α} (h : t ≠ nil) (d : Dir) : ∃ a c x y, t = mk d a c x y := by
  cases t with
  | nil => exact absurd rfl h
  | node l a c r =>
    cases d with
    | left => exact ⟨a, c, l, r, rfl⟩
    | right => exact ⟨a, c, r, l, rfl⟩

theorem eq_mk_of_ptr {t : BTree α} {a : α} (h : t.ptr = some a) (d : Dir) :
    ∃ c x y, t = mk d a c x y := by
  obtain ⟨b, c, x, y, rfl⟩ := exists_mk (t := t) (by rintro rfl; simp at h) d
  rw [ptr_mk, Option.some.injEq] at h
  exact ⟨c, x, y, by rw [h]⟩

@[simp] theorem length_toList (t : BTree α) : t.toList.length = t.size := by
  induction t with
  | nil => rfl
  | node l a c r ihl ihr => simp [toList, size, ihl, ihr]; omega

/-- The labels of a node, up to their order. -/
theorem toList_mk_perm (d : Dir) (a : α) (c : Bool) (x y : BTree α) :
    (mk d a c x y).toList.Perm (a :: (x.toList ++ y.toList)) := by
  cases d with
  | left => exact List.perm_middle
  | right => exact List.perm_middle.trans (List.Perm.cons a List.perm_append_comm)

theorem mem_toList_mk {d : Dir} {a b : α} {c : Bool} {x y : BTree α} :
    b ∈ (mk d a c x y).toList ↔ b = a ∨ b ∈ x.toList ∨ b ∈ y.toList := by
  rw [(toList_mk_perm d a c x y).mem_iff, List.mem_cons, List.mem_append]

theorem mem_of_ptr {t : BTree α} {a : α} (h : t.ptr = some a) : a ∈ t.toList := by
  obtain ⟨c, x, y, rfl⟩ := eq_mk_of_ptr h .left
  exact mem_toList_mk.mpr (Or.inl rfl)

theorem list_mk (d : Dir) (a : α) (c : Bool) (x y : BTree α) :
    d.list (mk d a c x y).toList = d.list x.toList ++ a :: d.list y.toList := by
  cases d <;> simp [Dir.list, mk, toList]

/-- A rotation keeps the symmetric order. -/
theorem toList_rotate (d : Dir) (p q : α) (cp cq cp' cq' : Bool) (x y z : BTree α) :
    (mk d q cq' (mk d p cp' x y) z).toList = (mk d p cp x (mk d q cq y z)).toList := by
  cases d <;> simp [mk, toList]

theorem postorder_perm (t : BTree α) : t.postorder.Perm t.toList := by
  induction t with
  | nil => exact List.Perm.refl _
  | node l a c r ihl ihr =>
    rw [postorder, toList, List.append_assoc]
    refine List.Perm.append ihl ?_
    exact (List.perm_append_comm).trans (List.Perm.cons a ihr)

/-- The tree without its labels. -/
def shape : BTree α → BTree Unit
  | nil => nil
  | node l _ c r => node l.shape () c r.shape

@[simp] theorem shape_mk (d : Dir) (a : α) (c : Bool) (x y : BTree α) :
    (mk d a c x y).shape = mk d () c x.shape y.shape := by
  cases d <;> rfl

theorem red_shape (t : BTree α) : t.shape.red = t.red := by
  cases t <;> rfl

end BTree

/-- One step of the path from a hole to the root: the hole is on the side `dir` of the node `a`. -/
structure Frame (α : Type) where
  dir : Dir
  a : α
  red : Bool
  sib : BTree α

/-- A tree with a hole, as the path from the hole up to the root. -/
abbrev Ctx (α : Type) := List (Frame α)

namespace Ctx

/-- Fill the hole. -/
def plug : Ctx α → BTree α → BTree α
  | [], t => t
  | f :: k, t => plug k (BTree.mk f.dir f.a f.red t f.sib)

/-- The node above the hole; `par` is the one above the whole tree. -/
def ptr (par : Option α) : Ctx α → Option α
  | [] => par
  | f :: _ => some f.a

/-- The node above the hole, and the side of it where the hole is. -/
def place : Ctx α → Option (α × Dir)
  | [] => none
  | f :: _ => some (f.a, f.dir)

/-- The labels outside of the hole. -/
def addrs : Ctx α → List α
  | [] => []
  | f :: k => f.a :: (f.sib.toList ++ addrs k)

/-- The labels to the left of the hole. -/
def before : Ctx α → List α
  | [] => []
  | f :: k => before k ++ (match f.dir with | .left => [] | .right => f.sib.toList ++ [f.a])

/-- The labels to the right of the hole. -/
def after : Ctx α → List α
  | [] => []
  | f :: k => (match f.dir with | .left => f.a :: f.sib.toList | .right => []) ++ after k

@[simp] theorem plug_nil (t : BTree α) : plug [] t = t := rfl

@[simp] theorem plug_cons (f : Frame α) (k : Ctx α) (t : BTree α) :
    plug (f :: k) t = plug k (BTree.mk f.dir f.a f.red t f.sib) := rfl

theorem place_mem {k : Ctx α} {a : α} {d : Dir} (h : place k = some (a, d)) : a ∈ addrs k := by
  cases k with
  | nil => simp [place] at h
  | cons f k =>
    obtain ⟨rfl, -⟩ := by simpa [place] using h
    simp [addrs]

theorem mem_addrs {k : Ctx α} {f : Frame α} (h : f ∈ k) : f.a ∈ addrs k := by
  induction k with
  | nil => simp at h
  | cons g k ih =>
    rcases List.mem_cons.mp h with rfl | h
    · simp [addrs]
    · simp [addrs, ih h]

theorem plug_append (k k' : Ctx α) (t : BTree α) : plug (k ++ k') t = plug k' (plug k t) := by
  induction k generalizing t with
  | nil => rfl
  | cons f k ih => exact ih _

theorem toList_plug (k : Ctx α) (t : BTree α) :
    (plug k t).toList = before k ++ t.toList ++ after k := by
  induction k generalizing t with
  | nil => simp [before, after]
  | cons f k ih =>
    obtain ⟨d, a, c, s⟩ := f
    rw [plug_cons, ih]
    cases d <;> simp [before, after, BTree.mk, BTree.toList]

theorem addrs_perm (k : Ctx α) : (addrs k).Perm (before k ++ after k) := by
  induction k with
  | nil => exact List.Perm.refl _
  | cons f k ih =>
    obtain ⟨d, a, c, s⟩ := f
    cases d with
    | left =>
      simp only [addrs, before, after, List.append_nil]
      refine (List.Perm.cons a (List.Perm.append_left _ ih)).trans ?_
      refine (List.perm_append_comm_assoc (a :: s.toList) _ _)
    | right =>
      simp only [addrs, before, after, List.nil_append]
      refine (List.Perm.cons a (List.Perm.append_left _ ih)).trans ?_
      have h : (a :: (s.toList ++ (before k ++ after k))).Perm
          ((s.toList ++ [a]) ++ (before k ++ after k)) := by
        rw [List.append_assoc]
        exact List.perm_middle.symm
      refine h.trans ?_
      rw [List.append_assoc (before k)]
      exact List.perm_append_comm_assoc _ _ _

theorem shape_plug {k : Ctx α} {s t : BTree α} (h : s.shape = t.shape) :
    (plug k s).shape = (plug k t).shape := by
  induction k generalizing s t with
  | nil => exact h
  | cons f k ih => exact ih (by simp [h])

/-- The labels beyond the hole, in the order of a walk away from `d`. -/
def rest (d : Dir) : Ctx α → List α
  | [] => []
  | f :: k => (if f.dir = d then f.a :: d.list f.sib.toList else []) ++ rest d k

theorem list_plug (d : Dir) (k : Ctx α) (t : BTree α) :
    d.list (plug k t).toList = (rest d.flip k).reverse ++ d.list t.toList ++ rest d k := by
  induction k generalizing t with
  | nil => simp [rest]
  | cons f k ih =>
    obtain ⟨e, a, c, s⟩ := f
    rw [plug_cons, ih]
    rcases Dir.eq_or_eq_flip d e with rfl | rfl
    · simp [rest, BTree.list_mk]
    · rw [BTree.mk_flip, BTree.list_mk]
      simp [rest, Dir.list_flip]

/-- The labels that follow in post-order once those of the hole are through. -/
def pending : Ctx α → List α
  | [] => []
  | f :: k => (match f.dir with | .left => f.sib.postorder | .right => []) ++ f.a :: pending k

/-- The labels of the hole come before those that are pending, if the path to it goes left. -/
theorem postorder_plug {k : Ctx α} (hk : ∀ f ∈ k, f.dir = .left) (k' : Ctx α) (t : BTree α) :
    (plug k t).postorder ++ pending k' = t.postorder ++ pending (k ++ k') := by
  induction k generalizing t with
  | nil => rfl
  | cons f k ih =>
    obtain ⟨d, a, c, s⟩ := f
    obtain rfl : d = .left := hk ⟨d, a, c, s⟩ List.mem_cons_self
    rw [plug_cons, ih (fun g hg => hk g (List.mem_cons_of_mem _ hg))]
    simp [BTree.mk, BTree.postorder, pending]

/-- The labels of a filled context are those of the hole and those outside. -/
theorem plug_perm (k : Ctx α) (t : BTree α) : (plug k t).toList.Perm (addrs k ++ t.toList) := by
  rw [toList_plug]
  refine List.Perm.trans ?_ (List.Perm.append_right _ (addrs_perm k).symm)
  rw [List.append_assoc, List.append_assoc]
  exact List.Perm.append_left _ List.perm_append_comm

theorem mem_plug {k : Ctx α} {t : BTree α} {b : α} :
    b ∈ (plug k t).toList ↔ b ∈ addrs k ∨ b ∈ t.toList := by
  rw [(plug_perm k t).mem_iff, List.mem_append]

theorem nodup_plug {k : Ctx α} {t : BTree α} :
    (plug k t).toList.Nodup ↔ (addrs k ++ t.toList).Nodup :=
  (plug_perm k t).nodup_iff

/-- Every label is the root of a subtree. -/
theorem exists_plug {t : BTree α} {a : α} (h : a ∈ t.toList) :
    ∃ k c l r, t = plug k (BTree.node l a c r) := by
  induction t with
  | nil => simp at h
  | node l b c r ihl ihr =>
    rw [BTree.toList, List.mem_append, List.mem_cons] at h
    rcases h with h | rfl | h
    · obtain ⟨k, c', l', r', rfl⟩ := ihl h
      exact ⟨k ++ [⟨.left, b, c, r⟩], c', l', r', by rw [plug_append]; rfl⟩
    · exact ⟨[], c, l, r, rfl⟩
    · obtain ⟨k, c', l', r', rfl⟩ := ihr h
      exact ⟨k ++ [⟨.right, b, c, l⟩], c', l', r', by rw [plug_append]; rfl⟩

end Ctx

end Libjeffpc.Lib
