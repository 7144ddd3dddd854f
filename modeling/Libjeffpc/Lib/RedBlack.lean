import Libjeffpc.Lib.BinTree

/-!
# Red-black balance

`Bal t n`: no red node of `t` has a red child and every path from the root of `t` to an empty
subtree goes through `n` black nodes. `BalCtx k n` is the same of a tree with a hole whose content
is to have black height `n`. Repairing a tree after an insertion or a removal is moving a defect in
the hole towards the root; the lemmas of this file are the single moves.
-/

namespace Libjeffpc.Lib

variable {α : Type}

namespace BTree

/-- No red node has a red child. -/
def NoRedRed : BTree α → Prop
  | nil => True
  | node l _ c r => (c = true → l.red = false ∧ r.red = false) ∧ NoRedRed l ∧ NoRedRed r

/-- Every path from the root to an empty subtree goes through `n` black nodes. -/
def BlackHeight : BTree α → Nat → Prop
  | nil, n => n = 0
  | node l _ c r, n => ∃ m, n = (if c then m else m + 1) ∧ BlackHeight l m ∧ BlackHeight r m

/-- The two balance conditions together. -/
def Bal (t : BTree α) (n : Nat) : Prop := t.NoRedRed ∧ t.BlackHeight n

@[simp] theorem bal_nil {n : Nat} : Bal (nil : BTree α) n ↔ n = 0 := by
  simp [Bal, NoRedRed, BlackHeight]

theorem bal_red {d : Dir} {a : α} {x y : BTree α} {n : Nat} :
    Bal (mk d a true x y) n ↔ x.red = false ∧ y.red = false ∧ Bal x n ∧ Bal y n := by
  cases d <;> simp [Bal, mk, NoRedRed, BlackHeight] <;> tauto

theorem bal_black {d : Dir} {a : α} {x y : BTree α} {n : Nat} :
    Bal (mk d a false x y) n ↔ ∃ m, n = m + 1 ∧ Bal x m ∧ Bal y m := by
  cases d <;> simp only [Bal, mk, NoRedRed, BlackHeight, Bool.false_eq_true, false_imp_iff,
    true_and, if_false] <;> constructor
  all_goals rintro ⟨h1, h2⟩
  all_goals grind

theorem bal_black_succ {d : Dir} {a : α} {x y : BTree α} {n : Nat} :
    Bal (mk d a false x y) (n + 1) ↔ Bal x n ∧ Bal y n := by
  rw [bal_black]
  constructor
  · rintro ⟨m, hm, hx, hy⟩
    obtain rfl : n = m := by omega
    exact ⟨hx, hy⟩
  · rintro ⟨hx, hy⟩
    exact ⟨n, rfl, hx, hy⟩

/-- Balance does not depend on the labels. -/
theorem bal_shape {t : BTree α} {n : Nat} : Bal t.shape n ↔ Bal t n := by
  induction t generalizing n with
  | nil => exact Iff.rfl
  | node l a c r ihl ihr =>
    cases c with
    | true =>
      have h := bal_red (d := .left) (a := ()) (x := l.shape) (y := r.shape) (n := n)
      rw [red_shape, red_shape, ihl, ihr] at h
      exact h.trans (bal_red (d := .left)).symm
    | false =>
      have h := bal_black (d := .left) (a := ()) (x := l.shape) (y := r.shape) (n := n)
      simp only [ihl, ihr] at h
      exact h.trans (bal_black (d := .left)).symm

/-- A tree of positive black height is not empty. -/
theorem ne_nil_of_bal {t : BTree α} {n : Nat} (h : Bal t (n + 1)) : t ≠ nil := by
  rintro rfl
  simp at h

/-- A tree without black nodes is empty, or it is a red leaf. -/
theorem eq_nil_of_bal {t : BTree α} (h : Bal t 0) (hred : t.red = false) : t = nil := by
  cases t with
  | nil => rfl
  | node l a c r =>
    obtain rfl : c = false := hred
    obtain ⟨m, hm, -⟩ := (bal_black (d := .left)).mp h
    cases hm

theorem size_le_one {t : BTree α} (h : Bal t 0) : t.size ≤ 1 := by
  cases t with
  | nil => exact Nat.zero_le 1
  | node l a c r =>
    cases c with
    | false => cases eq_nil_of_bal h rfl
    | true =>
      obtain ⟨hl, hr, hbl, hbr⟩ := (bal_red (d := .left)).mp h
      obtain rfl := eq_nil_of_bal hbl hl
      obtain rfl := eq_nil_of_bal hbr hr
      exact le_rfl

/-- A tree of black height `n` has at least `2 ^ n - 1` nodes. -/
theorem two_pow_le_size {t : BTree α} {n : Nat} (h : Bal t n) : 2 ^ n ≤ t.size + 1 := by
  obtain ⟨-, h⟩ := h
  induction t generalizing n with
  | nil => obtain rfl : n = 0 := h; simp
  | node l a c r ihl ihr =>
    obtain ⟨m, rfl, hl, hr⟩ := h
    have hl' := ihl hl
    have hr' := ihr hr
    cases c with
    | true => simp only [size, if_true]; omega
    | false => simp only [size, Bool.false_eq_true, if_false, pow_succ]; omega

/-- The height is at most twice the black height, plus one below a red root. -/
theorem height_le {t : BTree α} {n : Nat} (h : Bal t n) :
    t.height ≤ 2 * n + (if t.red then 1 else 0) := by
  induction t generalizing n with
  | nil => simp [height]
  | node l a c r ihl ihr =>
    cases c with
    | true =>
      obtain ⟨hl, hr, bl, br⟩ := (bal_red (d := .left)).mp h
      have h1 := ihl bl
      have h2 := ihr br
      rw [hl] at h1
      rw [hr] at h2
      simp only [height, red, if_true, Bool.false_eq_true, if_false] at *
      omega
    | false =>
      obtain ⟨m, rfl, bl, br⟩ := (bal_black (d := .left)).mp h
      have h1 := ihl bl
      have h2 := ihr br
      simp only [height, red, Bool.false_eq_true, if_false]
      split at h1 <;> split at h2 <;> omega

/-- A balanced tree with a black root is at most `2 * log2 (n + 1)` high. -/
theorem height_le_log {t : BTree α} {n : Nat} (h : Bal t n) (hb : t.red = false) :
    t.height ≤ 2 * Nat.log 2 (t.size + 1) := by
  have h1 := height_le h
  rw [hb] at h1
  have h2 : n ≤ Nat.log 2 (t.size + 1) := Nat.le_log_of_pow_le (by omega) (two_pow_le_size h)
  simp only [Bool.false_eq_true, if_false] at h1
  omega

end BTree

namespace Ctx

open BTree

/-- The hole may hold a tree with a red root: it is below a black node. -/
def redOk : Ctx α → Bool
  | [] => false
  | f :: _ => !f.red

/-- The balance conditions outside of a hole whose content has black height `n`. -/
def BalCtx : Ctx α → Nat → Prop
  | [], _ => True
  | f :: k, n => Bal f.sib n ∧ (f.red = true → f.sib.red = false ∧ redOk k = true) ∧
      BalCtx k (if f.red then n else n + 1)

theorem balCtx_red {d : Dir} {a : α} {s : BTree α} {k : Ctx α} {n : Nat} :
    BalCtx (⟨d, a, true, s⟩ :: k) n ↔
      Bal s n ∧ s.red = false ∧ redOk k = true ∧ BalCtx k n := by
  simp [BalCtx]; tauto

theorem balCtx_black {d : Dir} {a : α} {s : BTree α} {k : Ctx α} {n : Nat} :
    BalCtx (⟨d, a, false, s⟩ :: k) n ↔ Bal s n ∧ BalCtx k (n + 1) := by
  simp [BalCtx]

/-- Filling a balanced context with a balanced tree gives a balanced tree with a black root. -/
theorem bal_plug {k : Ctx α} {t : BTree α} {n : Nat} (hk : BalCtx k n) (ht : Bal t n)
    (hr : t.red = true → redOk k = true) : ∃ m, Bal (plug k t) m ∧ (plug k t).red = false := by
  induction k generalizing t n with
  | nil =>
    refine ⟨n, ht, ?_⟩
    cases h : t.red with
    | false => simp [h]
    | true => exact absurd (hr h) (by simp [redOk])
  | cons f k ih =>
    obtain ⟨d, a, c, s⟩ := f
    cases c with
    | true =>
      obtain ⟨bs, hs, hk1, hk2⟩ := balCtx_red.mp hk
      have htb : t.red = false := by
        by_contra h
        simpa [redOk] using hr (by simpa using h)
      exact ih hk2 (bal_red.mpr ⟨htb, hs, ht, bs⟩) (fun _ => hk1)
    | false =>
      obtain ⟨bs, hk2⟩ := balCtx_black.mp hk
      exact ih hk2 (bal_black_succ.mpr ⟨ht, bs⟩) (fun h => by simp at h)

/-- A balanced tree with a black root, cut at any position. -/
theorem balCtx_of_plug {k : Ctx α} {t : BTree α} {m : Nat} (h : Bal (plug k t) m)
    (hr : (plug k t).red = false) :
    ∃ n, BalCtx k n ∧ Bal t n ∧ (t.red = true → redOk k = true) := by
  induction k generalizing t with
  | nil =>
    refine ⟨m, trivial, h, fun ht => ?_⟩
    rw [plug_nil, ht] at hr
    exact absurd hr (by simp)
  | cons f k ih =>
    obtain ⟨d, a, c, s⟩ := f
    obtain ⟨n, hk, hb, hok⟩ := ih h hr
    cases c with
    | true =>
      obtain ⟨ht, hs, bt, bs⟩ := bal_red.mp hb
      exact ⟨n, balCtx_red.mpr ⟨bs, hs, hok (by simp), hk⟩, bt, fun h => by simp [ht] at h⟩
    | false =>
      obtain ⟨n', rfl, bt, bs⟩ := bal_black.mp hb
      exact ⟨n', balCtx_black.mpr ⟨bs, hk⟩, bt, fun _ => rfl⟩

end Ctx

end Libjeffpc.Lib
