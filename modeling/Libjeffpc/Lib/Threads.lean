import Mathlib.Tactic

/-!
# Counting threads

A system of threads is a function from their names to their local states. `count f P` is the number
of threads whose state satisfies `P`; a step of one thread changes it by what that thread adds.
-/

namespace Libjeffpc.Lib.Threads

variable {T S : Type} [Fintype T]

/-- How many threads are in a state that satisfies `P`. -/
def count (f : T → S) (P : S → Prop) [DecidablePred P] : Nat :=
  (Finset.univ.filter fun w => P (f w)).card

/-- The step of one thread. -/
theorem count_update [DecidableEq T] (f : T → S) (w : T) (v : S) (P : S → Prop) [DecidablePred P] :
    count (Function.update f w v) P + (if P (f w) then 1 else 0) =
      count f P + (if P v then 1 else 0) := by
  have hsplit : ∀ g : T → S, count g P =
      ((Finset.univ.erase w).filter fun x => P (g x)).card + (if P (g w) then 1 else 0) := by
    intro g
    rw [count, ← Finset.insert_erase (Finset.mem_univ w), Finset.filter_insert]
    split
    · rw [Finset.card_insert_of_notMem (by simp)]
      simp
    · simp
  have hsame : ((Finset.univ.erase w).filter fun x => P (Function.update f w v x)) =
      (Finset.univ.erase w).filter fun x => P (f x) := by
    refine Finset.filter_congr fun x hx => ?_
    rw [Function.update_of_ne (Finset.ne_of_mem_erase hx)]
  rw [hsplit f, hsplit (Function.update f w v), hsame, Function.update_self]
  omega

/-- No thread is in such a state. -/
theorem count_eq_zero {f : T → S} {P : S → Prop} [DecidablePred P] (h : ∀ w, ¬P (f w)) :
    count f P = 0 := by
  rw [count, Finset.card_eq_zero, Finset.filter_eq_empty_iff]
  exact fun w _ => h w

/-- Every thread is in such a state. -/
theorem count_eq_card {f : T → S} {P : S → Prop} [DecidablePred P] (h : ∀ w, P (f w)) :
    count f P = Fintype.card T := by
  rw [count, Finset.filter_true_of_mem fun w _ => h w, Finset.card_univ]

theorem count_le {f g : T → S} {P : S → Prop} [DecidablePred P] (h : ∀ w, P (f w) → P (g w)) :
    count f P ≤ count g P :=
  Finset.card_le_card fun w hw => by
    simp only [Finset.mem_filter, Finset.mem_univ, true_and] at hw ⊢
    exact h w hw

/-- One thread comes into such a state, and none leaves it. -/
theorem count_lt {f g : T → S} {P : S → Prop} [DecidablePred P] (h : ∀ w, P (f w) → P (g w)) {w : T}
    (hf : ¬P (f w)) (hg : P (g w)) : count f P < count g P := by
  refine Finset.card_lt_card ⟨fun w hw => ?_, fun hsub => ?_⟩
  · simp only [Finset.mem_filter, Finset.mem_univ, true_and] at hw ⊢
    exact h w hw
  · have hw := hsub (x := w) (by simpa using hg)
    exact hf (by simpa using hw)

/-- What all threads have together. -/
def total (f : T → S) (w : S → Nat) : Nat := ∑ t, w (f t)

theorem total_update [DecidableEq T] (f : T → S) (t : T) (v : S) (w : S → Nat) :
    total (Function.update f t v) w + w (f t) = total f w + w v := by
  have hsplit : ∀ g : T → S, total g w = w (g t) + ∑ t' ∈ Finset.univ.erase t, w (g t') :=
    fun g => (Finset.add_sum_erase _ _ (Finset.mem_univ t)).symm
  have hsame : ∑ t' ∈ Finset.univ.erase t, w (Function.update f t v t') = ∑ t' ∈ Finset.univ.erase t, w (f t') :=
    Finset.sum_congr rfl fun t' ht => by rw [Function.update_of_ne (Finset.ne_of_mem_erase ht)]
  rw [hsplit f, hsplit (Function.update f t v), hsame, Function.update_self]
  omega

theorem le_total (g : T → S) (t : T) (w : S → Nat) : w (g t) ≤ total g w :=
  Finset.single_le_sum (f := fun t => w (g t)) (fun _ _ => Nat.zero_le _) (Finset.mem_univ t)

theorem total_pos_iff {f : T → S} {w : S → Nat} : 0 < total f w ↔ ∃ t, 0 < w (f t) := by
  rw [total, Finset.sum_pos_iff]
  exact ⟨fun ⟨t, _, ht⟩ => ⟨t, ht⟩, fun ⟨t, ht⟩ => ⟨t, Finset.mem_univ t, ht⟩⟩

/-- Two threads together. -/
theorem add_le_total [DecidableEq T] (g : T → S) {t t' : T} (h : t ≠ t') (w : S → Nat) :
    w (g t) + w (g t') ≤ total g w := by
  rw [total, ← Finset.add_sum_erase _ _ (Finset.mem_univ t)]
  refine Nat.add_le_add_left ?_ _
  exact Finset.single_le_sum (f := fun t => w (g t)) (fun _ _ => Nat.zero_le _)
    (Finset.mem_erase.mpr ⟨h.symm, Finset.mem_univ t'⟩)

end Libjeffpc.Lib.Threads
