import Mathlib.Tactic

/-!
# Three-way comparison functions

A comparison function returns a number whose sign says how its arguments are ordered. Only the sign
matters, and two different arguments may compare equal.
-/

namespace Libjeffpc.Lib

variable {K A : Type} {cmp : K → K → Int}

/-- The sign of `cmp` is a total order of the classes of arguments that compare equal. -/
structure IsCmp (cmp : K → K → Int) : Prop where
  swap : ∀ a b, cmp a b < 0 ↔ 0 < cmp b a
  trans : ∀ a b c, cmp a b ≤ 0 → cmp b c ≤ 0 → cmp a c ≤ 0

namespace IsCmp

variable {a b c : K}

theorem refl (h : IsCmp cmp) (a : K) : cmp a a = 0 := by
  have := h.swap a a
  omega

theorem lt_of_lt_of_le (h : IsCmp cmp) (hab : cmp a b < 0) (hbc : cmp b c ≤ 0) : cmp a c < 0 := by
  by_contra hac
  have hca : cmp c a ≤ 0 := by
    have := h.swap a c
    omega
  have hba := h.trans b c a hbc hca
  have := h.swap a b
  omega

theorem lt_of_le_of_lt (h : IsCmp cmp) (hab : cmp a b ≤ 0) (hbc : cmp b c < 0) : cmp a c < 0 := by
  by_contra hac
  have hca : cmp c a ≤ 0 := by
    have := h.swap a c
    omega
  have hcb := h.trans c a b hca hab
  have := h.swap b c
  omega

theorem eq_symm (h : IsCmp cmp) (hab : cmp a b = 0) : cmp b a = 0 := by
  have h1 := h.swap a b
  have h2 := h.swap b a
  omega

/-- Arguments that compare equal compare alike with everything. -/
theorem lt_congr_left (h : IsCmp cmp) (hab : cmp a b = 0) : cmp a c < 0 ↔ cmp b c < 0 :=
  ⟨h.lt_of_le_of_lt (h.eq_symm hab).le, h.lt_of_le_of_lt hab.le⟩

theorem gt_congr_left (h : IsCmp cmp) (hab : cmp a b = 0) : 0 < cmp a c ↔ 0 < cmp b c := by
  rw [← h.swap c a, ← h.swap c b]
  exact ⟨fun hc => h.lt_of_lt_of_le hc hab.le, fun hc => h.lt_of_lt_of_le hc (h.eq_symm hab).le⟩

theorem eq_congr_left (h : IsCmp cmp) (hab : cmp a b = 0) : cmp a c = 0 ↔ cmp b c = 0 := by
  have h1 := h.lt_congr_left (c := c) hab
  have h2 := h.gt_congr_left (c := c) hab
  omega

end IsCmp

/-- The items are listed in strictly increasing order of their keys. -/
def Increasing (cmp : K → K → Int) (keyOf : A → K) (l : List A) : Prop :=
  l.Pairwise fun a b => cmp (keyOf a) (keyOf b) < 0

namespace Increasing

variable {keyOf : A → K} {l r : List A} {a b : A}

theorem remove (h : Increasing cmp keyOf (l ++ a :: r)) : Increasing cmp keyOf (l ++ r) :=
  List.Pairwise.sublist (List.Sublist.append_left (List.sublist_cons_self a r) l) h

theorem insert (hc : IsCmp cmp) (h : Increasing cmp keyOf (l ++ r))
    (hl : ∀ b ∈ l, 0 < cmp (keyOf a) (keyOf b)) (hr : ∀ b ∈ r, cmp (keyOf a) (keyOf b) < 0) :
    Increasing cmp keyOf (l ++ a :: r) := by
  obtain ⟨h1, h2, h3⟩ := List.pairwise_append.mp h
  refine List.pairwise_append.mpr ⟨h1, List.pairwise_cons.mpr ⟨hr, h2⟩, ?_⟩
  intro b hb c hcm
  rcases List.mem_cons.mp hcm with rfl | hcm
  · exact (hc.swap _ _).mpr (hl b hb)
  · exact h3 b hb c hcm

/-- Two items that compare equal are the same item. -/
theorem eq_of_cmp (hc : IsCmp cmp) (h : Increasing cmp keyOf l) (ha : a ∈ l) (hb : b ∈ l)
    (hab : cmp (keyOf a) (keyOf b) = 0) : a = b := by
  induction l with
  | nil => simp at ha
  | cons x l ih =>
    obtain ⟨h1, h2⟩ := List.pairwise_cons.mp h
    rcases List.mem_cons.mp ha with rfl | ha' <;> rcases List.mem_cons.mp hb with rfl | hb'
    · rfl
    · have := h1 b hb'
      omega
    · have h3 := h1 a ha'
      have := (hc.swap _ _).mp h3
      omega
    · exact ih h2 ha' hb'

theorem congr {keyOf' : A → K} (h : Increasing cmp keyOf l) (hk : ∀ a ∈ l, keyOf' a = keyOf a) :
    Increasing cmp keyOf' l := by
  refine List.Pairwise.imp_of_mem (fun {a b} ha hb hab => ?_) h
  rw [hk a ha, hk b hb]
  exact hab

/-- The first item is the least one. -/
theorem head_le (hc : IsCmp cmp) (h : Increasing cmp keyOf (a :: l)) (hb : b ∈ a :: l) :
    cmp (keyOf a) (keyOf b) ≤ 0 := by
  rcases List.mem_cons.mp hb with rfl | hb
  · exact (hc.refl _).le
  · exact ((List.pairwise_cons.mp h).1 b hb).le

/-- The last item is the greatest one. -/
theorem le_last (hc : IsCmp cmp) (h : Increasing cmp keyOf (l ++ [a])) (hb : b ∈ l ++ [a]) :
    cmp (keyOf b) (keyOf a) ≤ 0 := by
  rcases List.mem_append.mp hb with hb | hb
  · exact ((List.pairwise_append.mp h).2.2 b hb a (by simp)).le
  · rw [List.mem_singleton.mp hb]
    exact (hc.refl _).le

end Increasing

end Libjeffpc.Lib
