import Mathlib.Tactic
import Mathlib.Logic.Relation

/-!
# Directed graphs without infinite walks

`Grounded E`: every walk along the edges of `E` ends. Such a graph has no cycle, and stays grounded
when an edge is added whose target does not reach its source.
-/

namespace Libjeffpc.Lib

open Relation

variable {V : Type} {E E' : V → V → Prop}

/-- Every walk ends. -/
def Grounded (E : V → V → Prop) : Prop := WellFounded fun b a => E a b

/-- Some walk comes back to where it started. -/
def Cyclic (E : V → V → Prop) : Prop := ∃ a, TransGen E a a

theorem Grounded.not_cyclic (h : Grounded E) : ¬Cyclic E := by
  rintro ⟨a, ha⟩
  have hw : WellFounded (TransGen fun b a => E a b) := h.transGen
  have hs : TransGen (fun b a => E a b) a a := by
    rw [← transGen_swap] at ha
    exact ha
  exact hw.irrefl.irrefl a hs

theorem Cyclic.mono (hE : ∀ a b, E a b → TransGen E' a b) (h : Cyclic E) : Cyclic E' := by
  obtain ⟨a, ha⟩ := h
  exact ⟨a, TransGen.closed (fun a b hab => hE a b hab) a a ha⟩

/-- An edge from `c` to `d` is added, and `d` does not reach `c`. -/
theorem Grounded.insert {c d : V} (h : Grounded E) (hd : ¬ReflTransGen E d c)
    (hE : ∀ a b, E' a b → E a b ∨ (a = c ∧ b = d)) : Grounded E' := by
  -- what does not reach `c` has the same walks as before
  have hfar : ∀ x, ¬ReflTransGen E x c → Acc (fun b a => E' a b) x := by
    intro x
    induction x using h.induction with
    | _ x ih =>
      intro hx
      refine Acc.intro x fun y hxy => ?_
      rcases hE x y hxy with hxy | ⟨rfl, rfl⟩
      · exact ih y hxy (fun hy => hx (.head hxy hy))
      · exact absurd .refl hx
  refine ⟨fun x => ?_⟩
  induction x using h.induction with
  | _ x ih =>
    refine Acc.intro x fun y hxy => ?_
    rcases hE x y hxy with hxy | ⟨rfl, rfl⟩
    · exact ih y hxy
    · exact hfar y hd

end Libjeffpc.Lib
