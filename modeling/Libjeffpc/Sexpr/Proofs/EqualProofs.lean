import Libjeffpc.Sexpr.Structure

/-!
# What `sexpr_equal` decides

It fails an assertion when it comes to two symbols, and decides `Alike` otherwise.
-/

namespace Libjeffpc.Sexpr

open Lib

variable {A : Type}

/-! ## Empty lists -/

theorem isNone_iff {v : Ref A} : v.isNone = true ↔ v = .null := by
  cases v <;> simp [Ref.isNone]

theorem emptyCons_iff {a : A} {h t : Ref A} :
    sexprIsNull (.cons a h t) = true ↔ h = .null ∧ t = .null := by
  show (h.isNone && t.isNone) = true ↔ _
  rw [Bool.and_eq_true, isNone_iff, isNone_iff]

/-- The empty list is only alike to itself. -/
theorem alike_null {v : Ref A} : Alike .null v ↔ sexprIsNull v = true := by
  constructor
  · rintro ⟨h⟩
    exact toVal_eq_nil.mp h.symm
  · intro h
    exact .same (by rw [toVal_eq_nil.mpr h, Ref.toVal])

theorem null_alike {v : Ref A} : Alike v .null ↔ sexprIsNull v = true := by
  constructor
  · rintro ⟨h⟩
    exact toVal_eq_nil.mp h
  · intro h
    exact .same (by rw [toVal_eq_nil.mpr h, Ref.toVal])

/-- Cons cells are alike if their heads and their tails are. -/
theorem alike_cons {x y : A} {h t h' t' : Ref A} :
    Alike (.cons x h t) (.cons y h' t') ↔ Alike h h' ∧ Alike t t' := by
  cases hl : sexprIsNull (.cons x h t) with
  | true =>
    obtain ⟨rfl, rfl⟩ := emptyCons_iff.mp hl
    rw [alike_null, alike_null]
    constructor
    · intro halike
      cases halike with
      | same heq =>
        have hnil : (Ref.cons y h' t').toVal = .nil := heq.symm.trans (toVal_eq_nil.mpr hl)
        obtain ⟨rfl, rfl⟩ := emptyCons_iff.mp (toVal_eq_nil.mp hnil)
        exact ⟨rfl, rfl⟩
      | left hh ht => exact ⟨hh, ht⟩
      | right hh ht => exact ⟨rfl, rfl⟩
      | cons hl' => rw [hl] at hl'; cases hl'
    · rintro ⟨hh, ht⟩
      exact .left hh ht
  | false =>
    cases hr : sexprIsNull (.cons y h' t') with
    | true =>
      obtain ⟨rfl, rfl⟩ := emptyCons_iff.mp hr
      rw [null_alike, null_alike]
      constructor
      · intro halike
        cases halike with
        | same heq =>
          have hnil : (Ref.cons x h t).toVal = .nil := heq.trans (toVal_eq_nil.mpr hr)
          rw [toVal_eq_nil.mp hnil] at hl
          cases hl
        | left => cases hl
        | right hh ht => exact ⟨hh, ht⟩
        | cons _ hr' => rw [hr] at hr'; cases hr'
      · rintro ⟨hh, ht⟩
        exact .right hh ht
    | false =>
      constructor
      · intro halike
        cases halike with
        | same heq =>
          rw [toVal_cons hl, toVal_cons hr, Val.cons.injEq] at heq
          exact ⟨.same heq.1, .same heq.2⟩
        | left => cases hl
        | right => cases hr
        | cons _ _ hh ht => exact ⟨hh, ht⟩
      · rintro ⟨hh, ht⟩
        exact .cons hl hr hh ht

theorem alikeElems_of_toVals {vs ws : List (Ref A)} (h : toVals vs = toVals ws) : AlikeElems vs ws := by
  induction vs generalizing ws with
  | nil =>
    cases ws with
    | nil => exact .nil
    | cons w ws => cases h
  | cons v vs ih =>
    cases ws with
    | nil => cases h
    | cons w ws =>
      rw [toVals, toVals, List.cons.injEq] at h
      exact .cons (.same h.1) (ih h.2)

theorem alikePairs_of_toPairs {ps qs : List (CStr × Ref A)} (h : toPairs ps = toPairs qs) :
    AlikePairs ps qs := by
  induction ps generalizing qs with
  | nil =>
    cases qs with
    | nil => exact .nil
    | cons q qs => cases h
  | cons p ps ih =>
    obtain ⟨name, v⟩ := p
    cases qs with
    | nil => cases h
    | cons q qs =>
      obtain ⟨name', w⟩ := q
      rw [toPairs, toPairs, List.cons.injEq, Prod.mk.injEq] at h
      obtain ⟨⟨rfl, hv⟩, hps⟩ := h
      exact .cons (.same hv) (ih hps)

theorem alike_array {x y : A} {vs ws : List (Ref A)} :
    Alike (.array x vs) (.array y ws) ↔ AlikeElems vs ws := by
  constructor
  · intro h
    cases h with
    | same heq =>
      rw [Ref.toVal, Ref.toVal, Val.array.injEq] at heq
      exact alikeElems_of_toVals heq
    | array h => exact h
  · exact .array

theorem alike_nvl {x y : A} {ps qs : List (CStr × Ref A)} :
    Alike (.nvl x ps) (.nvl y qs) ↔ AlikePairs ps qs := by
  constructor
  · intro h
    cases h with
    | same heq =>
      rw [Ref.toVal, Ref.toVal, Val.nvl.injEq] at heq
      exact alikePairs_of_toPairs heq
    | nvl h => exact h
  · exact .nvl

/-- Values that are alike have the same type; that of an empty list is VT_CONS. -/
theorem Alike.type_eq {v w : Ref A} (h : Alike v w) : v.toVal.type = w.toVal.type := by
  have hcons : ∀ (a : A) (h t : Ref A), (Ref.cons a h t).toVal.type = .cons := by
    intro a h t
    rw [Ref.toVal]
    split <;> rfl
  cases h with
  | same h => rw [h]
  | left => rw [hcons, hcons]
  | right => rw [hcons, hcons]
  | cons => rw [hcons, hcons]
  | array => rfl
  | nvl => rfl

theorem type_toVal {v : Ref A} {τ : ValType} (h : v.type = some τ) : v.toVal.type = τ := by
  cases v with
  | null => cases h
  | cons a hd tl =>
    cases h
    rw [Ref.toVal]
    split <;> rfl
  | _ =>
    cases h
    rfl

theorem AlikeElems.length_eq {vs ws : List (Ref A)} (h : AlikeElems vs ws) : vs.length = ws.length := by
  induction vs generalizing ws with
  | nil =>
    cases h
    rfl
  | cons v vs ih =>
    cases h with
    | cons _ hs => rw [List.length_cons, List.length_cons, ih hs]

/-! ## One comparison -/

theorem Meets.addr_ne {a b : Ref A} (h : Meets a b) : a.addr ≠ b.addr := by
  cases h <;> simpa [Ref.addr]

theorem Meets.type_eq {a b : Ref A} (h : Meets a b) :
    a ≠ .null ∧ b ≠ .null ∧ a.type = b.type := by
  cases h <;> simp [Ref.type]

theorem type_of_isNone {v : Ref A} (h : v.isNone = false) : ∃ τ, v.type = some τ := by
  cases v with
  | null => cases h
  | _ => exact ⟨_, rfl⟩

theorem consistent_head {x y : A} {h t h' t' : Ref A} (hc : Consistent (.cons x h t) (.cons y h' t')) :
    Consistent h h' :=
  fun u v hu hv => hc u v (hu.imp .head .head) (hv.imp .head .head)

theorem consistent_tail {x y : A} {h t h' t' : Ref A} (hc : Consistent (.cons x h t) (.cons y h' t')) :
    Consistent t t' :=
  fun u v hu hv => hc u v (hu.imp .tail .tail) (hv.imp .tail .tail)

theorem consistent_elem {x y : A} {vs ws : List (Ref A)} (hc : Consistent (.array x vs) (.array y ws))
    {v w : Ref A} (hv : v ∈ vs) (hw : w ∈ ws) : Consistent v w :=
  fun p q hp hq => hc p q (hp.imp (.elem hv) (.elem hw)) (hq.imp (.elem hv) (.elem hw))

theorem consistent_value {x y : A} {ps qs : List (CStr × Ref A)}
    (hc : Consistent (.nvl x ps) (.nvl y qs)) {p q : CStr × Ref A} (hp : p ∈ ps) (hq : q ∈ qs) :
    Consistent p.2 q.2 :=
  fun u v hu hv => hc u v (hu.imp (.value hp) (.value hq)) (hv.imp (.value hp) (.value hq))

/-- A comparison, and if it succeeds another one. -/
theorem and_spec {c d : Comp Bool} {M N : Prop} {P Q : Prop}
    (hc : M → c = throw .assert) (hc' : ¬M → ∃ r, c = pure r ∧ (r = true ↔ P))
    (hd : N → d = throw .assert) (hd' : ¬N → ∃ r, d = pure r ∧ (r = true ↔ Q)) :
    ((M ∨ (P ∧ N)) → (do if ← c then d else pure false) = (throw .assert : Comp Bool)) ∧
    (¬(M ∨ (P ∧ N)) → ∃ r, (do if ← c then d else pure false) = (pure r : Comp Bool) ∧
      (r = true ↔ P ∧ Q)) := by
  by_cases hM : M
  · refine ⟨fun _ => ?_, fun h => absurd (Or.inl hM) h⟩
    rw [hc hM]
    rfl
  · obtain ⟨r, hr, hrP⟩ := hc' hM
    rw [hr]
    cases r with
    | false =>
      have hP : ¬P := fun hP => by cases hrP.mpr hP
      refine ⟨fun h => ?_, fun _ => ⟨false, rfl, by simp [hP]⟩⟩
      rcases h with h | h
      · exact absurd h hM
      · exact absurd h.1 hP
    | true =>
      have hP : P := hrP.mp rfl
      refine ⟨fun h => ?_, fun h => ?_⟩
      · rcases h with h | h
        · exact absurd h hM
        · exact hd h.2
      · obtain ⟨r, hr, hrQ⟩ := hd' fun hN => h (Or.inr ⟨hP, hN⟩)
        exact ⟨r, hr, by rw [hrQ]; simp [hP]⟩

variable [DecidableEq A]

/-- What a comparison does. -/
structure EqualSpec (a b : Ref A) : Prop where
  aborts : Meets a b → sexprEqual a b = throw .assert
  returns : ¬Meets a b → ∃ r, sexprEqual a b = pure r ∧ (r = true ↔ Alike a b)

/-- A comparison that ends before it looks into the objects. -/
theorem EqualSpec.of_returns {a b : Ref A} (hno : ¬Meets a b) {r : Bool} (h : sexprEqual a b = pure r)
    (hr : r = true ↔ Alike a b) : EqualSpec a b :=
  ⟨fun hm => absurd hm hno, fun _ => ⟨r, h, hr⟩⟩

/-- Equal pointers, NULL pointers and objects of different types are not looked into. -/
theorem EqualSpec.of_same_type {a b : Ref A} (hc : Consistent a b)
    (h : a.addr ≠ b.addr → a.type = b.type → a ≠ .null → EqualSpec a b) : EqualSpec a b := by
  by_cases haddr : a.addr = b.addr
  · obtain rfl : a = b := hc a b (Or.inl (.refl a)) (Or.inr (.refl b)) haddr
    refine .of_returns (fun hm => hm.addr_ne rfl) (r := true) ?_ ⟨fun _ => .same rfl, fun _ => rfl⟩
    rw [sexprEqual.eq_def, if_pos rfl]
  · cases ha : a.isNone with
    | true =>
      obtain rfl := isNone_iff.mp ha
      have hb : b.isNone = false := by
        cases hb : b.isNone with
        | true => exact absurd (by rw [isNone_iff.mp hb]) haddr
        | false => rfl
      refine .of_returns (fun hm => hm.type_eq.1 rfl) (r := b.isEmptyCons) ?_ ?_
      · rw [sexprEqual.eq_def, if_neg haddr]
        simp [ha, hb]
      · rw [alike_null, sexprIsNull, hb, Bool.false_or]
    | false =>
      cases hb : b.isNone with
      | true =>
        obtain rfl := isNone_iff.mp hb
        refine .of_returns (fun hm => hm.type_eq.2.1 rfl) (r := a.isEmptyCons) ?_ ?_
        · rw [sexprEqual.eq_def, if_neg haddr]
          simp [ha, hb]
        · rw [null_alike, sexprIsNull, ha, Bool.false_or]
      | false =>
        by_cases htype : a.type = b.type
        · refine h haddr htype ?_
          rintro rfl
          cases ha
        · refine .of_returns (fun hm => htype hm.type_eq.2.2) (r := false) ?_ ?_
          · rw [sexprEqual.eq_def, if_neg haddr, ha, hb, if_neg (by simp), if_pos htype]
          · refine ⟨fun hf => absurd hf (by simp), fun halike => ?_⟩
            obtain ⟨τ, hτ⟩ := type_of_isNone ha
            obtain ⟨τ', hτ'⟩ := type_of_isNone hb
            have heq := halike.type_eq
            rw [type_toVal hτ, type_toVal hτ'] at heq
            exact absurd (by rw [hτ, hτ', heq]) htype

/-! ## Objects of the same type -/

/-- Objects that hold no references. -/
theorem EqualSpec.of_scalar {a b : Ref A} {r : Bool} (hno : ¬Meets a b) (h : sexprEqual a b = pure r)
    (hr : r = true ↔ a.toVal = b.toVal) (hsame : Alike a b → a.toVal = b.toVal) : EqualSpec a b :=
  .of_returns hno h (hr.trans ⟨.same, hsame⟩)

/-- What a comparison of two lists does. -/
structure ElemsSpec (vs ws : List (Ref A)) : Prop where
  aborts : MeetsElems vs ws → equalElems vs ws = throw .assert
  returns : ¬MeetsElems vs ws → ∃ r, equalElems vs ws = pure r ∧ (r = true ↔ AlikeElems vs ws)

structure PairsSpec (ps qs : List (CStr × Ref A)) : Prop where
  aborts : MeetsPairs ps qs → equalPairs ps qs = throw .assert
  returns : ¬MeetsPairs ps qs → ∃ r, equalPairs ps qs = pure r ∧ (r = true ↔ AlikePairs ps qs)

theorem sym_spec {x y : A} {s t : CStr} (hne : (Ref.sym x s).addr ≠ (Ref.sym y t).addr) :
    EqualSpec (.sym x s) (.sym y t) := by
  have hxy : x ≠ y := fun h => hne (by rw [h]; rfl)
  refine ⟨fun _ => ?_, fun hno => absurd (.sym hxy) hno⟩
  rw [sexprEqual.eq_def, if_neg hne]
  rfl

theorem str_spec {x y : A} {s t : CStr} (hne : (Ref.str x s).addr ≠ (Ref.str y t).addr) :
    EqualSpec (.str x s) (.str y t) := by
  refine .of_scalar (r := decide (strcmp s t = 0)) (by rintro ⟨⟩) ?_ ?_ (by rintro ⟨h⟩; exact h)
  · rw [sexprEqual.eq_def, if_neg hne]
    rfl
  · simp [Ref.toVal, strcmp_eq_zero]

theorem cons_spec {x y : A} {h t h' t' : Ref A} (hne : (Ref.cons x h t).addr ≠ (Ref.cons y h' t').addr)
    (hh : EqualSpec h h') (ht : EqualSpec t t') : EqualSpec (.cons x h t) (.cons y h' t') := by
  have hxy : x ≠ y := fun he => hne (by rw [he]; rfl)
  have heq : sexprEqual (.cons x h t) (.cons y h' t') =
      (do if ← sexprEqual h h' then sexprEqual t t' else pure false) := by
    rw [sexprEqual.eq_def, if_neg hne]
    rfl
  have hmeets : Meets (.cons x h t) (.cons y h' t') ↔ Meets h h' ∨ (Alike h h' ∧ Meets t t') := by
    constructor
    · intro hm
      cases hm with
      | head _ hm => exact Or.inl hm
      | tail _ ha hm => exact Or.inr ⟨ha, hm⟩
    · rintro (hm | ⟨ha, hm⟩)
      · exact .head hxy hm
      · exact .tail hxy ha hm
  obtain ⟨haborts, hreturns⟩ := and_spec hh.aborts hh.returns ht.aborts ht.returns
  constructor
  · intro hm
    rw [heq]
    exact haborts (hmeets.mp hm)
  · intro hno
    rw [heq]
    obtain ⟨r, hr, hrP⟩ := hreturns (mt hmeets.mpr hno)
    exact ⟨r, hr, hrP.trans alike_cons.symm⟩

theorem elems_cons_spec {v w : Ref A} {vs ws : List (Ref A)} (hv : EqualSpec v w)
    (hvs : ElemsSpec vs ws) : ElemsSpec (v :: vs) (w :: ws) := by
  have hmeets : MeetsElems (v :: vs) (w :: ws) ↔ Meets v w ∨ (Alike v w ∧ MeetsElems vs ws) := by
    constructor
    · intro hm
      cases hm with
      | here hm => exact Or.inl hm
      | there ha hm => exact Or.inr ⟨ha, hm⟩
    · rintro (hm | ⟨ha, hm⟩)
      · exact .here hm
      · exact .there ha hm
  have halike : AlikeElems (v :: vs) (w :: ws) ↔ Alike v w ∧ AlikeElems vs ws :=
    ⟨fun h => by cases h with | cons h hs => exact ⟨h, hs⟩, fun h => .cons h.1 h.2⟩
  obtain ⟨haborts, hreturns⟩ := and_spec hv.aborts hv.returns hvs.aborts hvs.returns
  constructor
  · intro hm
    rw [equalElems]
    exact haborts (hmeets.mp hm)
  · intro hno
    rw [equalElems]
    obtain ⟨r, hr, hrP⟩ := hreturns (mt hmeets.mpr hno)
    exact ⟨r, hr, hrP.trans halike.symm⟩

theorem array_spec {x y : A} {vs ws : List (Ref A)}
    (hne : (Ref.array x vs).addr ≠ (Ref.array y ws).addr)
    (h : vs.length = ws.length → ElemsSpec vs ws) : EqualSpec (.array x vs) (.array y ws) := by
  have hxy : x ≠ y := fun he => hne (by rw [he]; rfl)
  have heq : sexprEqual (.array x vs) (.array y ws) =
      if vs.length ≠ ws.length then pure false else equalElems vs ws := by
    rw [sexprEqual.eq_def, if_neg hne]
    rfl
  by_cases hlen : vs.length = ws.length
  · rw [if_neg (by simpa using hlen)] at heq
    obtain ⟨haborts, hreturns⟩ := h hlen
    constructor
    · intro hm
      cases hm with
      | array _ _ hm => rw [heq, haborts hm]
    · intro hno
      obtain ⟨r, hr, hrP⟩ := hreturns fun hm => hno (.array hxy hlen hm)
      exact ⟨r, heq.trans hr, hrP.trans alike_array.symm⟩
  · rw [if_pos hlen] at heq
    refine .of_returns ?_ heq ?_
    · intro hm
      cases hm with
      | array _ hlen' _ => exact hlen hlen'
    · rw [alike_array]
      exact ⟨fun hf => absurd hf (by simp), fun ha => absurd ha.length_eq hlen⟩

theorem pairs_cons_spec {name name' : CStr} {v w : Ref A} {ps qs : List (CStr × Ref A)}
    (hv : EqualSpec v w) (hps : PairsSpec ps qs) : PairsSpec ((name, v) :: ps) ((name', w) :: qs) := by
  by_cases hname : name = name'
  · subst hname
    have hmeets : MeetsPairs ((name, v) :: ps) ((name, w) :: qs) ↔
        Meets v w ∨ (Alike v w ∧ MeetsPairs ps qs) := by
      constructor
      · intro hm
        cases hm with
        | here hm => exact Or.inl hm
        | there ha hm => exact Or.inr ⟨ha, hm⟩
      · rintro (hm | ⟨ha, hm⟩)
        · exact .here hm
        · exact .there ha hm
    have halike : AlikePairs ((name, v) :: ps) ((name, w) :: qs) ↔ Alike v w ∧ AlikePairs ps qs :=
      ⟨fun h => by cases h with | cons h hs => exact ⟨h, hs⟩, fun h => .cons h.1 h.2⟩
    have heq : equalPairs ((name, v) :: ps) ((name, w) :: qs) =
        (do if ← sexprEqual v w then equalPairs ps qs else pure false) := by
      rw [equalPairs, if_neg (by simp [strcmp_eq_zero])]
    obtain ⟨haborts, hreturns⟩ := and_spec hv.aborts hv.returns hps.aborts hps.returns
    constructor
    · intro hm
      rw [heq]
      exact haborts (hmeets.mp hm)
    · intro hno
      rw [heq]
      obtain ⟨r, hr, hrP⟩ := hreturns (mt hmeets.mpr hno)
      exact ⟨r, hr, hrP.trans halike.symm⟩
  · have heq : equalPairs ((name, v) :: ps) ((name', w) :: qs) = pure false := by
      rw [equalPairs, if_pos (by simpa [strcmp_eq_zero] using hname)]
    constructor
    · intro hm
      cases hm <;> exact absurd rfl hname
    · intro _
      refine ⟨false, heq, fun hf => absurd hf (by simp), fun ha => ?_⟩
      cases ha
      exact absurd rfl hname

theorem nvl_spec {x y : A} {ps qs : List (CStr × Ref A)} (hne : (Ref.nvl x ps).addr ≠ (Ref.nvl y qs).addr)
    (h : PairsSpec ps qs) : EqualSpec (.nvl x ps) (.nvl y qs) := by
  have hxy : x ≠ y := fun he => hne (by rw [he]; rfl)
  have heq : sexprEqual (.nvl x ps) (.nvl y qs) = equalPairs ps qs := by
    rw [sexprEqual.eq_def, if_neg hne]
    rfl
  constructor
  · intro hm
    cases hm with
    | nvl _ hm => rw [heq, h.aborts hm]
  · intro hno
    obtain ⟨r, hr, hrP⟩ := h.returns fun hm => hno (.nvl hxy hm)
    exact ⟨r, heq.trans hr, hrP.trans alike_nvl.symm⟩

mutual

/-- The recursion of `sexpr_equal`: it follows the first value. -/
theorem sexprEqual_spec : ∀ a b : Ref A, Consistent a b → EqualSpec a b
  | .null, _, hc => .of_same_type hc fun _ _ hnull => absurd rfl hnull
  | .vtNull x, b, hc => .of_same_type hc fun hne ht _ => by
    cases b with
    | vtNull y =>
      refine .of_scalar (r := true) (by rintro ⟨⟩) ?_ (by simp [Ref.toVal]) (by rintro ⟨h⟩; exact h)
      rw [sexprEqual.eq_def, if_neg hne]
      rfl
    | _ => cases ht
  | .int x i, b, hc => .of_same_type hc fun hne ht _ => by
    cases b with
    | int y j =>
      refine .of_scalar (r := decide (i = j)) (by rintro ⟨⟩) ?_ (by simp [Ref.toVal]) (by rintro ⟨h⟩; exact h)
      rw [sexprEqual.eq_def, if_neg hne]
      rfl
    | _ => cases ht
  | .str x s, b, hc => .of_same_type hc fun hne ht _ => by
    cases b with
    | str y t => exact str_spec hne
    | _ => cases ht
  | .sym x s, b, hc => .of_same_type hc fun hne ht _ => by
    cases b with
    | sym y t => exact sym_spec hne
    | _ => cases ht
  | .bool x b, c, hc => .of_same_type hc fun hne ht _ => by
    cases c with
    | bool y c =>
      refine .of_scalar (r := decide (b = c)) (by rintro ⟨⟩) ?_ (by simp [Ref.toVal]) (by rintro ⟨h⟩; exact h)
      rw [sexprEqual.eq_def, if_neg hne]
      rfl
    | _ => cases ht
  | .char x c, b, hc => .of_same_type hc fun hne ht _ => by
    cases b with
    | char y d =>
      refine .of_scalar (r := decide (c = d)) (by rintro ⟨⟩) ?_ (by simp [Ref.toVal]) (by rintro ⟨h⟩; exact h)
      rw [sexprEqual.eq_def, if_neg hne]
      rfl
    | _ => cases ht
  | .blob x bs, b, hc => .of_same_type hc fun hne ht _ => by
    cases b with
    | blob y cs =>
      refine .of_scalar (r := decide (bs = cs)) (by rintro ⟨⟩) ?_ (by simp [Ref.toVal]) (by rintro ⟨h⟩; exact h)
      rw [sexprEqual.eq_def, if_neg hne]
      rfl
    | _ => cases ht
  | .cons x h t, b, hc => .of_same_type hc fun hne ht _ => by
    cases b with
    | cons y h' t' =>
      exact cons_spec hne (sexprEqual_spec h h' (consistent_head hc)) (sexprEqual_spec t t' (consistent_tail hc))
    | _ => cases ht
  | .array x vs, b, hc => .of_same_type hc fun hne ht _ => by
    cases b with
    | array y ws =>
      exact array_spec hne (equalElems_spec vs ws fun v hv w hw => consistent_elem hc hv hw)
    | _ => cases ht
  | .nvl x ps, b, hc => .of_same_type hc fun hne ht _ => by
    cases b with
    | nvl y qs => exact nvl_spec hne (equalPairs_spec ps qs fun p hp q hq => consistent_value hc hp hq)
    | _ => cases ht

theorem equalElems_spec : ∀ vs ws : List (Ref A), (∀ v ∈ vs, ∀ w ∈ ws, Consistent v w) →
    vs.length = ws.length → ElemsSpec vs ws
  | [], ws, _, hlen => by
    obtain rfl : ws = [] := List.eq_nil_of_length_eq_zero hlen.symm
    exact ⟨by rintro ⟨⟩, fun _ => ⟨true, by rw [equalElems]; simp, fun _ => .nil, fun _ => rfl⟩⟩
  | v :: vs, [], _, hlen => by cases hlen
  | v :: vs, w :: ws, hc, hlen => by
    refine elems_cons_spec (sexprEqual_spec v w (hc v (by simp) w (by simp))) ?_
    exact equalElems_spec vs ws (fun v hv w hw => hc v (by simp [hv]) w (by simp [hw])) (by simpa using hlen)

theorem equalPairs_spec : ∀ ps qs : List (CStr × Ref A), (∀ p ∈ ps, ∀ q ∈ qs, Consistent p.2 q.2) →
    PairsSpec ps qs
  | [], [], _ =>
    ⟨by rintro ⟨⟩, fun _ => ⟨true, by rw [equalPairs], fun _ => .nil, fun _ => rfl⟩⟩
  | [], q :: qs, _ =>
    ⟨by rintro ⟨⟩, fun _ => ⟨false, by simp [equalPairs], fun h => absurd h (by simp), by rintro ⟨⟩⟩⟩
  | (name, v) :: ps, [], _ =>
    ⟨by rintro ⟨⟩, fun _ => ⟨false, by simp [equalPairs], fun h => absurd h (by simp), by rintro ⟨⟩⟩⟩
  | (name, v) :: ps, (name', w) :: qs, hc => by
    have hv : Consistent v w := hc (name, v) (by simp) (name', w) (by simp)
    refine pairs_cons_spec (sexprEqual_spec v w hv) ?_
    exact equalPairs_spec ps qs fun p hp q hq => hc p (by simp [hp]) q (by simp [hq])

end

end Libjeffpc.Sexpr
