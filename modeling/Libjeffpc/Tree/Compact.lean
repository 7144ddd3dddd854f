import Libjeffpc.Tree.Tree

/-!
# The compact layout of tree nodes (`tree_private.h`, `tree_impl.h`)

With `JEFFPC_TREE_COMPACT` the parent pointer and the two bits of the extra field share one word. Nodes
are at addresses that are multiples of 4, so the pointer leaves the two low bits of the word free.
-/

namespace Libjeffpc.Tree

/-- The address of a node: not NULL, and a multiple of 4. -/
abbrev NodeAddr := { a : UInt64 // a ≠ 0 ∧ a &&& 3 = 0 }

/-- A pointer as a `uintptr_t`. -/
def ofPtr : Option NodeAddr → UInt64
  | none => 0
  | some a => a.1

/-- A `uintptr_t` as a pointer. -/
def toPtr (w : UInt64) : Option NodeAddr := if h : w ≠ 0 ∧ w &&& 3 = 0 then some ⟨w, h⟩ else none

/-- `struct tree_node` with `JEFFPC_TREE_COMPACT`. -/
structure CompactNode where
  children : TreeDir → Option NodeAddr
  parentAndExtra : UInt64

/-- The memory of nodes with `JEFFPC_TREE_COMPACT`. -/
abbrev CompactMem := NodeAddr → CompactNode

theorem toNat_and_three_lt (w : UInt64) : (w &&& 3).toNat < 4 := by
  have h : (w &&& 3).toNat = w.toNat % 4 := by
    rw [UInt64.toNat_and]
    exact Nat.and_two_pow_sub_one_eq_mod w.toNat 2
  omega

instance : TreeMem NodeAddr CompactMem where
  child m a d := (m a).children d
  setChild m a d p := fun b =>
    if b = a then { m a with children := fun e => if e = d then p else (m a).children e } else m b
  getParent m a := toPtr ((m a).parentAndExtra &&& ~~~3)
  setParent m a p := fun b =>
    if b = a then
      { m a with parentAndExtra := ((m a).parentAndExtra &&& 3) ||| (ofPtr p &&& ~~~3) }
    else m b
  getExtra m a := ⟨((m a).parentAndExtra &&& 3).toNat, toNat_and_three_lt _⟩
  setExtra m a x := fun b =>
    if b = a then
      { m a with parentAndExtra :=
          ((m a).parentAndExtra &&& ~~~3) ||| (UInt64.ofNat x.val &&& 3) }
    else m b

section Word

theorem and_or_mask (w v t : UInt64) : ((w &&& t) ||| (v &&& ~~~t)) &&& t = w &&& t := by
  refine UInt64.toBitVec_inj.mp (BitVec.eq_of_getLsbD_eq fun i hi => ?_)
  simp only [UInt64.toBitVec_and, UInt64.toBitVec_or, UInt64.toBitVec_not, BitVec.getLsbD_and,
    BitVec.getLsbD_or, BitVec.getLsbD_not, hi, decide_true, Bool.true_and]
  cases t.toBitVec.getLsbD i <;> simp

theorem and_or_mask_not (w v t : UInt64) : ((w &&& t) ||| (v &&& ~~~t)) &&& ~~~t = v &&& ~~~t := by
  refine UInt64.toBitVec_inj.mp (BitVec.eq_of_getLsbD_eq fun i hi => ?_)
  simp only [UInt64.toBitVec_and, UInt64.toBitVec_or, UInt64.toBitVec_not, BitVec.getLsbD_and,
    BitVec.getLsbD_or, BitVec.getLsbD_not, hi, decide_true, Bool.true_and]
  cases t.toBitVec.getLsbD i <;> simp

theorem and_not_of_and_eq_zero {w t : UInt64} (h : w &&& t = 0) : w &&& ~~~t = w := by
  have hor : (w &&& t) ||| (w &&& ~~~t) = w := by
    refine UInt64.toBitVec_inj.mp (BitVec.eq_of_getLsbD_eq fun i hi => ?_)
    simp only [UInt64.toBitVec_and, UInt64.toBitVec_or, UInt64.toBitVec_not, BitVec.getLsbD_and,
      BitVec.getLsbD_or, BitVec.getLsbD_not, hi, decide_true, Bool.true_and]
    cases t.toBitVec.getLsbD i <;> simp
  rw [h] at hor
  simpa using hor

theorem toPtr_ofPtr (p : Option NodeAddr) : toPtr (ofPtr p &&& ~~~3) = p := by
  cases p with
  | none => rfl
  | some a =>
    have ha : ofPtr (some a) &&& ~~~3 = a.1 := and_not_of_and_eq_zero a.2.2
    rw [ha, toPtr, dif_pos a.2]

end Word

instance : LawfulTreeMem NodeAddr CompactMem where
  child_setChild_self m a d p := by simp [child, setChild]
  child_setChild_ne m a b d e p h := by
    by_cases hb : b = a
    · subst hb
      simp [child, setChild, show e ≠ d from fun he => h ⟨rfl, he⟩]
    · simp [child, setChild, hb]
  child_setParent m a b e p := by by_cases hb : b = a <;> simp [child, setParent, hb]
  child_setExtra m a b e x := by by_cases hb : b = a <;> simp [child, setExtra, hb]
  getParent_setChild m a b d p := by by_cases hb : b = a <;> simp [getParent, setChild, hb]
  getParent_setParent_self m a p := by
    simp only [getParent, setParent, if_true, and_or_mask_not, toPtr_ofPtr]
  getParent_setParent_ne m a b p h := by simp [getParent, setParent, h]
  getParent_setExtra m a b x := by
    by_cases hb : b = a
    · subst hb
      simp only [getParent, setExtra, if_true]
      rw [UInt64.or_comm, and_or_mask_not]
    · simp [getParent, setExtra, hb]
  getExtra_setChild m a b d p := by by_cases hb : b = a <;> simp [getExtra, setChild, hb]
  getExtra_setParent m a b p := by
    by_cases hb : b = a
    · subst hb
      simp only [getExtra, setParent, if_true, and_or_mask]
    · simp [getExtra, setParent, hb]
  getExtra_setExtra_self m a x := by
    refine Fin.ext ?_
    simp only [getExtra, setExtra, if_true]
    rw [UInt64.or_comm, and_or_mask]
    fin_cases x <;> rfl
  getExtra_setExtra_ne m a b x h := by simp [getExtra, setExtra, h]

end Libjeffpc.Tree
