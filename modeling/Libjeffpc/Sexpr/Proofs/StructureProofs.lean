import Libjeffpc.Sexpr.Proofs.EqualProofs

/-!
# When `sexpr_equal` is the equality of structure

`Alike` is not transitive: a NULL pointer is alike to the empty cons cell, and that to a cons cell of
two empty lists, but NULL is not alike to the latter.
-/

namespace Libjeffpc.Sexpr

open Lib

variable {A : Type}

/-! ## Symmetry -/

mutual

theorem Alike.symm : ∀ {v w : Ref A}, Alike v w → Alike w v
  | .cons x h t, w, hvw => by
    cases w with
    | cons y h' t' =>
      obtain ⟨hh, ht⟩ := alike_cons.mp hvw
      exact alike_cons.mpr ⟨hh.symm, ht.symm⟩
    | null => exact alike_null.mpr (null_alike.mp hvw)
    | _ =>
      cases hvw with
      | same heq => exact .same heq.symm
  | .array x vs, w, hvw => by
    cases hvw with
    | same heq => exact .same heq.symm
    | array h => exact .array h.symm
  | .nvl x ps, w, hvw => by
    cases hvw with
    | same heq => exact .same heq.symm
    | nvl h => exact .nvl h.symm
  | .null, w, hvw => null_alike.mpr (alike_null.mp hvw)
  | .vtNull _, w, hvw => by cases hvw with | same heq => exact .same heq.symm
  | .int _ _, w, hvw => by cases hvw with | same heq => exact .same heq.symm
  | .str _ _, w, hvw => by cases hvw with | same heq => exact .same heq.symm
  | .sym _ _, w, hvw => by cases hvw with | same heq => exact .same heq.symm
  | .bool _ _, w, hvw => by cases hvw with | same heq => exact .same heq.symm
  | .char _ _, w, hvw => by cases hvw with | same heq => exact .same heq.symm
  | .blob _ _, w, hvw => by cases hvw with | same heq => exact .same heq.symm

theorem AlikeElems.symm : ∀ {vs ws : List (Ref A)}, AlikeElems vs ws → AlikeElems ws vs
  | [], _, h => by
    cases h
    exact .nil
  | v :: vs, _, h => by
    cases h with
    | cons h hs => exact .cons h.symm hs.symm

theorem AlikePairs.symm : ∀ {ps qs : List (CStr × Ref A)}, AlikePairs ps qs → AlikePairs qs ps
  | [], _, h => by
    cases h
    exact .nil
  | (name, v) :: ps, _, h => by
    cases h with
    | cons h hs => exact .cons h.symm hs.symm

end

theorem Consistent.symm {a b : Ref A} (h : Consistent a b) : Consistent b a :=
  fun x y hx hy => h x y hx.symm hy.symm

/-! ## The objects of a value -/

theorem mem_elemObjects {vals : List (Ref A)} {v x : Ref A} (hv : v ∈ vals) (hx : x ∈ v.objects) :
    x ∈ Ref.elemObjects vals := by
  induction vals with
  | nil => cases hv
  | cons w vals ih =>
    rw [Ref.elemObjects, List.mem_append]
    rcases List.mem_cons.mp hv with rfl | hv
    · exact .inl hx
    · exact .inr (ih hv)

theorem mem_pairObjects {pairs : List (CStr × Ref A)} {p : CStr × Ref A} {x : Ref A} (hp : p ∈ pairs)
    (hx : x ∈ p.2.objects) : x ∈ Ref.pairObjects pairs := by
  induction pairs with
  | nil => cases hp
  | cons q pairs ih =>
    rw [Ref.pairObjects, List.mem_append]
    rcases List.mem_cons.mp hp with rfl | hp
    · exact .inl hx
    · exact .inr (ih hp)

theorem Reaches.mem_objects {v x : Ref A} (h : Reaches v x) : x = .null ∨ x ∈ v.objects := by
  induction h with
  | refl v => cases v <;> simp [Ref.objects]
  | head _ ih => exact ih.imp_right fun h => List.mem_cons_of_mem _ (List.mem_append_left _ h)
  | tail _ ih => exact ih.imp_right fun h => List.mem_cons_of_mem _ (List.mem_append_right _ h)
  | elem hv _ ih => exact ih.imp_right fun h => List.mem_cons_of_mem _ (mem_elemObjects hv h)
  | value hp _ ih => exact ih.imp_right fun h => List.mem_cons_of_mem _ (mem_pairObjects hp h)

theorem addr_eq_none {v : Ref A} (h : v.addr = none) : v = .null := by
  cases v with
  | null => rfl
  | _ => cases h

theorem consistent_of_objects {a b : Ref A} (h : ∀ x ∈ a.objects ++ b.objects, ∀ y ∈ a.objects ++ b.objects,
    x.addr = y.addr → x = y) : Consistent a b := by
  have hmem : ∀ {x}, Reaches a x ∨ Reaches b x → x = .null ∨ x ∈ a.objects ++ b.objects := by
    rintro x (hx | hx)
    · exact hx.mem_objects.imp_right (List.mem_append_left _)
    · exact hx.mem_objects.imp_right (List.mem_append_right _)
  intro x y hx hy haddr
  rcases hmem hx with rfl | hx
  · exact (addr_eq_none haddr.symm).symm
  · rcases hmem hy with rfl | hy
    · exact addr_eq_none haddr
    · exact h x hx y hy haddr

theorem symbolFree_of_objects {v : Ref A} (h : ∀ x ∈ v.objects, x.type ≠ some .sym) : SymbolFree v := by
  intro a s hr
  rcases hr.mem_objects with hx | hx
  · cases hx
  · exact h _ hx rfl

/-! ## Symbols -/

mutual

theorem Meets.not_symbolFree : ∀ {a b : Ref A}, Meets a b → ¬SymbolFree a
  | .sym x s, b, _, hfree => hfree x s (.refl _)
  | .cons x h t, b, hm, hfree => by
    cases hm with
    | head _ hm => exact hm.not_symbolFree fun a s hr => hfree a s (.head hr)
    | tail _ _ hm => exact hm.not_symbolFree fun a s hr => hfree a s (.tail hr)
  | .array x vs, b, hm, hfree => by
    cases hm with
    | array _ _ hm =>
      obtain ⟨v, hv, hnot⟩ := hm.not_symbolFree
      exact hnot fun a s hr => hfree a s (.elem hv hr)
  | .nvl x ps, b, hm, hfree => by
    cases hm with
    | nvl _ hm =>
      obtain ⟨p, hp, hnot⟩ := hm.not_symbolFree
      exact hnot fun a s hr => hfree a s (.value hp hr)
  | .null, b, hm, _ => by cases hm
  | .vtNull _, b, hm, _ => by cases hm
  | .int _ _, b, hm, _ => by cases hm
  | .str _ _, b, hm, _ => by cases hm
  | .bool _ _, b, hm, _ => by cases hm
  | .char _ _, b, hm, _ => by cases hm
  | .blob _ _, b, hm, _ => by cases hm

theorem MeetsElems.not_symbolFree : ∀ {vs ws : List (Ref A)}, MeetsElems vs ws →
    ∃ v ∈ vs, ¬SymbolFree v
  | [], _, h => by cases h
  | v :: vs, _, h => by
    cases h with
    | here hm => exact ⟨v, by simp, hm.not_symbolFree⟩
    | there _ hs =>
      obtain ⟨u, hu, hnot⟩ := hs.not_symbolFree
      exact ⟨u, by simp [hu], hnot⟩

theorem MeetsPairs.not_symbolFree : ∀ {ps qs : List (CStr × Ref A)}, MeetsPairs ps qs →
    ∃ p ∈ ps, ¬SymbolFree p.2
  | [], _, h => by cases h
  | (name, v) :: ps, _, h => by
    cases h with
    | here hm => exact ⟨(name, v), by simp, hm.not_symbolFree⟩
    | there _ hs =>
      obtain ⟨p, hp, hnot⟩ := hs.not_symbolFree
      exact ⟨p, by simp [hp], hnot⟩

end

/-! ## Lengths -/

/-- The length of a list; what does not end in the empty list has none. -/
def listLength : Val → Int
  | .nil => 0
  | .cons _ tail => if listLength tail < 0 then -1 else listLength tail + 1
  | _ => -1

theorem sexprLength_eq : ∀ a : Ref A, sexprLength a = listLength a.toVal
  | .cons x h t => by
    cases hn : sexprIsNull (.cons x h t) with
    | true => rw [sexprLength, if_pos hn, toVal_eq_nil.mpr hn, listLength]
    | false =>
      rw [sexprLength, if_neg (by simp [hn]), toVal_cons hn, listLength, sexprLength_eq t]
  | .null => rfl
  | .vtNull _ => rfl
  | .int _ _ => rfl
  | .str _ _ => rfl
  | .sym _ _ => rfl
  | .bool _ _ => rfl
  | .char _ _ => rfl
  | .blob _ _ => rfl
  | .array _ _ => rfl
  | .nvl _ _ => rfl

/-! ## Equality -/

section Equality

variable [DecidableEq A] {a b c : Ref A}

/-- Values without symbols are compared without a failed assertion. -/
theorem sexprEqual_symbolFree (hc : Consistent a b) (ha : SymbolFree a) :
    ∃ r, sexprEqual a b = pure r ∧ (r = true ↔ Alike a b) :=
  (sexprEqual_spec a b hc).returns fun hm => hm.not_symbolFree ha

theorem sexprEqual_true_iff (hc : Consistent a b) (ha : SymbolFree a) :
    sexprEqual a b = pure true ↔ Alike a b := by
  obtain ⟨r, hr, hrP⟩ := sexprEqual_symbolFree hc ha
  rw [hr, ← hrP]
  exact ⟨fun h => pure_inj h, fun h => by rw [h]⟩

theorem sexprEqual_comm (hc : Consistent a b) (ha : SymbolFree a) (hb : SymbolFree b) :
    sexprEqual a b = sexprEqual b a := by
  obtain ⟨r, hr, hrP⟩ := sexprEqual_symbolFree hc ha
  obtain ⟨r', hr', hrP'⟩ := sexprEqual_symbolFree hc.symm hb
  have hiff : r = true ↔ r' = true := hrP.trans (Iff.trans ⟨Alike.symm, Alike.symm⟩ hrP'.symm)
  rw [hr, hr', Bool.eq_iff_iff.mpr hiff]

end Equality

/-- `sexpr_equal` decides the equality of structure for two values exactly if these are equal, or differ
elsewhere than at an empty cons cell that faces a cons cell of two empty lists. It is reflexive and
symmetric in any case; where it decides the equality of structure it is transitive, and equal lists
have the same length. -/
theorem sexpr_equal_structural_iff [DecidableEq A] (a b c : Ref A) (hab : Consistent a b)
    (hbc : Consistent b c) (hac : Consistent a c) (ha : SymbolFree a) (hb : SymbolFree b) :
    ((∃ r, sexprEqual a b = pure r ∧ (r = true ↔ a.toVal = b.toVal)) ↔
      (a.toVal = b.toVal ∨ ¬Alike a b)) ∧
    sexprEqual a a = pure true ∧ sexprEqual a b = sexprEqual b a ∧
    ((a.toVal = b.toVal ∨ ¬Alike a b) → sexprEqual a b = pure true →
      sexprLength a = sexprLength b ∧
      ((b.toVal = c.toVal ∨ ¬Alike b c) → sexprEqual b c = pure true → sexprEqual a c = pure true)) := by
  refine ⟨?_, ?_, sexprEqual_comm hab ha hb, fun hcond heq => ?_⟩
  · obtain ⟨r, hr, hrP⟩ := sexprEqual_symbolFree hab ha
    constructor
    · rintro ⟨r', hr', hrP'⟩
      obtain rfl : r = r' := pure_inj (hr.symm.trans hr')
      by_cases hval : a.toVal = b.toVal
      · exact Or.inl hval
      · exact Or.inr fun halike => hval (hrP'.mp (hrP.mpr halike))
    · intro hcond
      refine ⟨r, hr, hrP.trans ⟨fun halike => ?_, .same⟩⟩
      exact hcond.resolve_right fun hno => hno halike
  · rw [sexprEqual.eq_def, if_pos rfl]
  · have hval : a.toVal = b.toVal :=
      hcond.resolve_right fun hno => hno ((sexprEqual_true_iff hab ha).mp heq)
    refine ⟨by rw [sexprLength_eq, sexprLength_eq, hval], fun hcond' heq' => ?_⟩
    have hval' : b.toVal = c.toVal :=
      hcond'.resolve_right fun hno => hno ((sexprEqual_true_iff hbc hb).mp heq')
    exact (sexprEqual_true_iff hac ha).mpr (.same (hval.trans hval'))

/-- The list `(7 8)` with the objects that start at a number. -/
def numbers (x : Nat) : Ref Nat :=
  .cons x (.int (x + 1) 7) (.cons (x + 2) (.int (x + 3) 8) (.cons (x + 4) .null .null))

theorem consistent_numbers {x y : Nat} (h : x + 4 < y) : Consistent (numbers x) (numbers y) := by
  refine consistent_of_objects fun u hu v hv => List.inj_on_of_nodup_map ?_ hu hv
  simp [numbers, Ref.objects, Ref.addr]
  omega

/-- The same list three times. -/
theorem sexpr_equal_structural_iff_list :
    sexprEqual (numbers 0) (numbers 5) = pure true ∧ sexprLength (numbers 0) = sexprLength (numbers 5) ∧
      (sexprEqual (numbers 5) (numbers 10) = pure true → sexprEqual (numbers 0) (numbers 10) = pure true) := by
  have hfree : ∀ x, SymbolFree (numbers x) := fun x => symbolFree_of_objects (by
    simp [numbers, Ref.objects, Ref.type])
  obtain ⟨hiff, -, -, hlist⟩ := sexpr_equal_structural_iff (numbers 0) (numbers 5) (numbers 10)
    (consistent_numbers (by decide)) (consistent_numbers (by decide)) (consistent_numbers (by decide)) (hfree 0)
    (hfree 5)
  obtain ⟨r, hr, hrP⟩ := hiff.mpr (.inl rfl)
  have heq : sexprEqual (numbers 0) (numbers 5) = pure true := by rw [hr, hrP.mpr rfl]
  obtain ⟨hlength, htrans⟩ := hlist (.inl rfl) heq
  exact ⟨heq, hlength, htrans (.inl rfl)⟩

/-- `()`. -/
def emptyCell : Ref Nat := .cons 0 .null .null

/-- `(())`, as the parser builds it. -/
def cellOfEmpty : Ref Nat := .cons 1 emptyCell emptyCell

/-- The empty list and the list that contains it are taken for equal, but not NULL and that list. -/
theorem sexpr_equal_confuses_empty :
    Consistent emptyCell cellOfEmpty ∧ SymbolFree emptyCell ∧ SymbolFree cellOfEmpty ∧
    sexprEqual emptyCell cellOfEmpty = pure true ∧ emptyCell.toVal ≠ cellOfEmpty.toVal ∧
    sexprLength emptyCell = 0 ∧ sexprLength cellOfEmpty = 1 ∧
    sexprEqual .null emptyCell = pure true ∧ sexprEqual .null cellOfEmpty = pure false := by
  refine ⟨consistent_of_objects ?_, symbolFree_of_objects ?_, symbolFree_of_objects ?_, rfl, ?_, rfl, rfl, rfl, rfl⟩
  · simp [emptyCell, cellOfEmpty, Ref.objects, Ref.addr]
  · simp [emptyCell, Ref.objects, Ref.type]
  · simp [emptyCell, cellOfEmpty, Ref.objects, Ref.type]
  · intro h
    cases h

/-- `sexpr_equal` returns, with the right answer for two symbols, exactly if it does not meet two
different symbol objects. -/
theorem sexpr_equal_returns_iff [DecidableEq A] (a b : Ref A) (hc : Consistent a b) :
    (∃ r, sexprEqual a b = pure r ∧
      ∀ x s y t, a = .sym x s → b = .sym y t → (r = true ↔ s = t)) ↔ ¬Meets a b := by
  have hspec := sexprEqual_spec a b hc
  constructor
  · rintro ⟨r, hr, -⟩ hm
    cases (hspec.aborts hm).symm.trans hr
  · intro hno
    obtain ⟨r, hr, hrP⟩ := hspec.returns hno
    refine ⟨r, hr, ?_⟩
    rintro x s y t rfl rfl
    have hxy : x = y := by
      by_contra hne
      exact hno (.sym hne)
    have heq : Ref.sym x s = Ref.sym y t :=
      hc _ _ (Or.inl (.refl _)) (Or.inr (.refl _)) (congrArg some hxy)
    cases heq
    exact ⟨fun _ => rfl, fun _ => hrP.mpr (.same rfl)⟩

/-- The list `(n a)`. -/
def numberAndSymbol (x : Nat) (n : UInt64) : Ref Nat :=
  .cons x (.int (x + 1) n) (.cons (x + 2) (.sym (x + 3) (cstr [97])) (.cons (x + 4) .null .null))

/-- The lists `(7 a)` and `(8 a)` differ before the symbols. -/
theorem sexpr_equal_returns_iff_list :
    ∃ r, sexprEqual (numberAndSymbol 0 7) (numberAndSymbol 5 8) = pure r := by
  have hc : Consistent (numberAndSymbol 0 7) (numberAndSymbol 5 8) := by
    refine consistent_of_objects fun u hu v hv => List.inj_on_of_nodup_map ?_ hu hv
    simp [numberAndSymbol, Ref.objects, Ref.addr]
  obtain ⟨r, hr, -⟩ := (sexpr_equal_returns_iff _ _ hc).mpr (by
    intro hm
    cases hm with
    | head _ hm => cases hm
    | tail _ halike _ =>
      cases halike with
      | same heq => simp [Ref.toVal] at heq)
  exact ⟨r, hr⟩

/-- Two symbols with the same name. -/
theorem sexpr_equal_aborts_on_symbols :
    Consistent (.sym 0 ⟨[97, 98], by decide⟩ : Ref Nat) (.sym 1 ⟨[97, 98], by decide⟩) ∧
    sexprEqual (.sym 0 ⟨[97, 98], by decide⟩ : Ref Nat) (.sym 1 ⟨[97, 98], by decide⟩) =
      throw .assert := by
  refine ⟨consistent_of_objects ?_, rfl⟩
  simp [Ref.objects, Ref.addr]

end Libjeffpc.Sexpr
