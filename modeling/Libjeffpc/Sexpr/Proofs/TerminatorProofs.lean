import Libjeffpc.Sexpr.Proofs.EqualProofs
import Libjeffpc.Sexpr.Proofs.BuildProofs
import Libjeffpc.Sexpr.Proofs.EvalProofs

/-!
# Evaluation and the ends of lists
-/

namespace Libjeffpc.Sexpr

open Lib

/-! ## The builtin functions -/

theorem fxnAdd_implements : fxnAdd.Implements Literal.int? .int where
  valmember x a := by cases x <;> rfl
  valmember_null := rfl
  alloc x seen n h := valAllocInt_yields h x

theorem fxnMult_implements : fxnMult.Implements Literal.int? .int where
  valmember x a := by cases x <;> rfl
  valmember_null := rfl
  alloc x seen n h := valAllocInt_yields h x

theorem fxnAnd_implements : fxnAnd.Implements Literal.bool? .bool where
  valmember x a := by cases x <;> rfl
  valmember_null := rfl
  alloc x seen n h := valAllocBool_yields h x

theorem fxnOr_implements : fxnOr.Implements Literal.bool? .bool where
  valmember x a := by cases x <;> rfl
  valmember_null := rfl
  alloc x seen n h := valAllocBool_yields h x

theorem foldl_and (bs : List Bool) (b : Bool) : bs.foldl and b = (b && bs.all id) := by
  induction bs generalizing b with
  | nil => simp
  | cons c bs ih => rw [List.foldl_cons, ih, List.all_cons, Bool.and_assoc]; rfl

theorem foldl_or (bs : List Bool) (b : Bool) : bs.foldl or b = (b || bs.any id) := by
  induction bs generalizing b with
  | nil => simp
  | cons c bs ih => rw [List.foldl_cons, ih, List.any_cons, Bool.or_assoc]; rfl

section Functions

variable {env : SexprEvalEnv} {end_ : Terminator} {seen : Set (Ref Addr)} {n : Nat}

theorem fxnEqual_spec {a b : Expr} {u v tail : Ref Addr} (ha : EvalSpec (sexprEval env) end_ a u)
    (hb : EvalSpec (sexprEval env) end_ b v) (hlist : Lists end_ [u, v] tail) (hheap : Heap seen n)
    (hreach : ∀ x, Reaches tail x → x ∈ seen) :
    Yields seen (Op.equal.apply [outcome end_ a, outcome end_ b]) (fxnEqual tail env n) := by
  have hu : ∀ x, Reaches u x → x ∈ seen := fun x hx => hreach x (hlist.reaches (by simp) hx)
  have hv : ∀ x, Reaches v x → x ∈ seen := fun x hx => hreach x (hlist.reaches (by simp) hx)
  have hrun : fxnEqual tail env n =
      (sexprEval env u n >>= fun p => sexprEval env v p.2 >>= fun q =>
        (liftM (sexprEqual p.1 q.1) >>= valAllocBool : EvalM (Ref Addr)) q.2) := by
    cases hlist with
    | cons _ hlist =>
      cases hlist with
      | cons =>
        rw [fxnEqual.eq_def]
        rfl
  rw [hrun]
  have hyu := ha seen n hheap hu
  cases hoa : outcome end_ a with
  | none =>
    rw [hoa] at hyu
    obtain ⟨f, hf⟩ := hyu
    exact ⟨f, by rw [hf]; rfl⟩
  | some x =>
    rw [hoa] at hyu
    obtain ⟨i, n1, seen1, hc1, hsub1, hheap1, hmem1⟩ := hyu
    have hyv := hb seen1 n1 hheap1 fun y hy => hsub1 (hv y hy)
    rw [hc1, pure_bind]
    cases hob : outcome end_ b with
    | none =>
      rw [hob] at hyv
      obtain ⟨f, hf⟩ := hyv
      exact ⟨f, by rw [hf]; rfl⟩
    | some y =>
      rw [hob] at hyv
      obtain ⟨j, n2, seen2, hc2, hsub2, hheap2, hmem2⟩ := hyv
      have heq : sexprEqual (x.ref i) (y.ref j) = pure (decide (x = y)) :=
        sexprEqual_literal fun hij => hheap2.agree _ (hsub2 hmem1) _ hmem2 (by
          subst hij
          cases x <;> cases y <;> rfl)
      rw [hc2, pure_bind, heq]
      exact (valAllocBool_yields hheap2 _).mono (hsub1.trans hsub2)

/-- `fxn_if` evaluates its condition first. -/
theorem fxnIf_eq {u v w tail : Ref Addr} (hlist : Lists end_ [u, v, w] tail) :
    fxnIf tail env n = (sexprEval env u n >>= fun p =>
      (match p.1 with
        | .bool _ c => sexprEval env (if c then v else w)
        | .null => throw .null
        | _ => throw .assert : EvalM (Ref Addr)) p.2) := by
  cases hlist with
  | cons _ hlist =>
    cases hlist with
    | cons _ hlist =>
      cases hlist with
      | cons =>
        rw [fxnIf.eq_def]
        rfl

theorem fxnIf_spec {c t f : Expr} {u v w tail : Ref Addr} (hc : EvalSpec (sexprEval env) end_ c u)
    (ht : EvalSpec (sexprEval env) end_ t v) (hf : EvalSpec (sexprEval env) end_ f w)
    (hlist : Lists end_ [u, v, w] tail) (hheap : Heap seen n)
    (hreach : ∀ x, Reaches tail x → x ∈ seen) :
    Yields seen (Op.cond.apply [outcome end_ c, outcome end_ t, outcome end_ f])
      (fxnIf tail env n) := by
  have hu : ∀ x, Reaches u x → x ∈ seen := fun x hx => hreach x (hlist.reaches (by simp) hx)
  have hv : ∀ x, Reaches v x → x ∈ seen := fun x hx => hreach x (hlist.reaches (by simp) hx)
  have hw : ∀ x, Reaches w x → x ∈ seen := fun x hx => hreach x (hlist.reaches (by simp) hx)
  rw [fxnIf_eq hlist]
  have hyu := hc seen n hheap hu
  cases hoc : outcome end_ c with
  | none =>
    rw [hoc] at hyu
    obtain ⟨e, he⟩ := hyu
    exact ⟨e, by rw [he]; rfl⟩
  | some x =>
    rw [hoc] at hyu
    obtain ⟨i, n1, seen1, hc1, hsub1, hheap1, hmem1⟩ := hyu
    rw [hc1, pure_bind]
    cases x with
    | int k => exact ⟨.assert, rfl⟩
    | bool b =>
      cases b with
      | true => exact (ht seen1 n1 hheap1 fun y hy => hsub1 (hv y hy)).mono hsub1
      | false => exact (hf seen1 n1 hheap1 fun y hy => hsub1 (hw y hy)).mono hsub1

/-- A call looks up its function first. -/
theorem sexprEval_call (a x : Addr) (name : CStr) (tail : Ref Addr) :
    sexprEval env (.cons a (.sym x name) tail) n = (fxnlookup env name n >>= fun p =>
      (match p.1 with
        | none => throw .assert
        | some fxn => evalFound fxn tail env : EvalM (Ref Addr)) p.2) := by
  rw [sexprEval.eq_def]
  dsimp only
  rw [evalCons.eq_def]
  rfl

/-- The function that an operator names is called if it gets the right number of arguments. -/
theorem sexprEval_app (henv : Standard env) (op : Op) (a x : Addr) (tail : Ref Addr) :
    sexprEval env (.cons a (.sym x op.name) tail) n =
      (match op with
        | .add => fxnReduce fxnAdd tail env
        | .mult => fxnReduce fxnMult tail env
        | .and => fxnReduce fxnAnd tail env
        | .or => fxnReduce fxnOr tail env
        | .equal => if sexprLength tail = 2 then fxnEqual tail env else throw .assert
        | .cond => if sexprLength tail = 3 then fxnIf tail env else throw .assert :
        EvalM (Ref Addr)) n := by
  rw [sexprEval_call, henv op n, pure_bind]
  cases op with
  | equal =>
    show evalFound ⟨_, .fxnEqual, some 2⟩ tail env n = _
    rw [evalFound.eq_def]
    by_cases hlen : sexprLength tail = 2 <;> simp [hlen]
  | cond =>
    show evalFound ⟨_, .fxnIf, some 3⟩ tail env n = _
    rw [evalFound.eq_def]
    by_cases hlen : sexprLength tail = 3 <;> simp [hlen]
  | add =>
    show evalFound ⟨_, .fxnAdd, none⟩ tail env n = _
    rw [evalFound.eq_def]
    rfl
  | mult =>
    show evalFound ⟨_, .fxnMult, none⟩ tail env n = _
    rw [evalFound.eq_def]
    rfl
  | and =>
    show evalFound ⟨_, .fxnAnd, none⟩ tail env n = _
    rw [evalFound.eq_def]
    rfl
  | or =>
    show evalFound ⟨_, .fxnOr, none⟩ tail env n = _
    rw [evalFound.eq_def]
    rfl

theorem outcomes_length (end_ : Terminator) (es : List Expr) :
    (outcomes end_ es).length = es.length := by
  induction es with
  | nil => rfl
  | cons e es ih => rw [outcomes, List.length_cons, List.length_cons, ih]

theorem apply_equal_none {args : List (Option Literal)} (h : args.length ≠ 2) :
    Op.equal.apply args = none := by
  rw [Op.apply.eq_def]
  split <;> simp_all

theorem apply_cond_none {args : List (Option Literal)} (h : args.length ≠ 3) :
    Op.cond.apply args = none := by
  rw [Op.apply.eq_def]
  split <;> simp_all

theorem Lists.argumentCount {es : List Expr} {vs : List (Ref Addr)} {tail : Ref Addr}
    (hlist : Lists end_ vs tail) (hb : List.Forall₂ (Builds end_) es vs) :
    sexprLength tail = es.length := by
  have hne : ∀ v ∈ vs, v ≠ .null := by
    clear hlist
    induction hb with
    | nil => simp
    | cons he _ ih =>
      intro v hv
      rcases List.mem_cons.mp hv with rfl | hv
      · exact he.ne_null
      · exact ih v hv
  rw [hlist.length hne, hb.length_eq]

/-- An application, given what its arguments evaluate to. -/
theorem sexprEval_app_spec (henv : Standard env) {op : Op} {es : List Expr} {vs : List (Ref Addr)}
    {tail : Ref Addr} (a x : Addr) (hb : List.Forall₂ (Builds end_) es vs)
    (hspec : List.Forall₂ (EvalSpec (sexprEval env) end_) es vs) (hlist : Lists end_ vs tail) :
    EvalSpec (sexprEval env) end_ (.app op es) (.cons a (.sym x op.name) tail) := by
  intro seen n hheap hreach
  have hargs : ∀ y, Reaches tail y → y ∈ seen := fun y hy => hreach y (.tail hy)
  have helem : List.Forall₂ (EvalSpec (evalElement env) end_) es vs :=
    List.Forall₂.mp (fun _ _ => evalElement_spec) hb hspec
  have hlen : sexprLength tail = es.length := hlist.argumentCount hb
  rw [sexprEval_app henv, outcome, Op.applyAt]
  cases op with
  | add =>
    have h := fxnReduce_spec fxnAdd_implements helem hlist hheap hargs
    rw [if_pos (by decide)]
    simp only [Op.apply, List.sum_eq_foldl]
    exact h
  | mult =>
    have h := fxnReduce_spec fxnMult_implements helem hlist hheap hargs
    rw [if_pos (by decide)]
    simp only [Op.apply, List.prod_eq_foldl]
    exact h
  | and =>
    have h := fxnReduce_spec fxnAnd_implements helem hlist hheap hargs
    simp only [fxnAnd, boolReduce, foldl_and, Bool.true_and] at h
    rw [if_pos (by decide)]
    exact h
  | or =>
    have h := fxnReduce_spec fxnOr_implements helem hlist hheap hargs
    simp only [fxnOr, boolReduce, foldl_or, Bool.false_or] at h
    rw [if_pos (by decide)]
    exact h
  | equal =>
    rw [if_neg (by decide)]
    by_cases h2 : es.length = 2
    · dsimp only
      rw [if_pos (by omega)]
      cases hspec with
      | nil => cases h2
      | cons hu hspec =>
        cases hspec with
        | nil => cases h2
        | cons hv hspec =>
          cases hspec with
          | cons => simp at h2
          | nil => exact fxnEqual_spec hu hv hlist hheap hargs
    · dsimp only
      rw [apply_equal_none (by rw [outcomes_length]; exact h2), if_neg (by omega)]
      exact ⟨.assert, rfl⟩
  | cond =>
    rw [if_neg (by decide)]
    by_cases h3 : es.length = 3
    · dsimp only
      rw [if_pos (by omega)]
      cases hspec with
      | nil => cases h3
      | cons hu hspec =>
        cases hspec with
        | nil => cases h3
        | cons hv hspec =>
          cases hspec with
          | nil => cases h3
          | cons hw hspec =>
            cases hspec with
            | cons => simp at h3
            | nil => exact fxnIf_spec hu hv hw hlist hheap hargs
    · dsimp only
      rw [apply_cond_none (by rw [outcomes_length]; exact h3), if_neg (by omega)]
      exact ⟨.assert, rfl⟩

mutual

/-- The evaluator and the semantics agree on every expression, at any depth. -/
theorem sexprEval_spec (henv : Standard env) :
    ∀ (e : Expr) (v : Ref Addr), Builds end_ e v → EvalSpec (sexprEval env) end_ e v
  | .literal x, v, h => by
    cases h with
    | literal a x =>
      intro seen n hheap hreach
      refine ⟨a, n, seen, ?_, subset_rfl, hheap, hreach _ (.refl _)⟩
      rw [sexprEval.eq_def]
      cases x <;> rfl
  | .app op args, v, h => by
    cases h with
    | app a hargs hlist x => exact sexprEval_app_spec henv a x hargs (sexprEvalAll_spec henv _ _ hargs) hlist

theorem sexprEvalAll_spec (henv : Standard env) :
    ∀ (es : List Expr) (vs : List (Ref Addr)), List.Forall₂ (Builds end_) es vs →
      List.Forall₂ (EvalSpec (sexprEval env) end_) es vs
  | [], _, h => by
    cases h
    exact .nil
  | e :: es, _, h => by
    cases h with
    | cons he hes => exact .cons (sexprEval_spec henv e _ he) (sexprEvalAll_spec henv es _ hes)

end

/-- The evaluation of a whole expression, from the objects that it consists of. -/
theorem sexprEval_yields (henv : Standard env) {e : Expr} {v : Ref Addr} (hb : Builds end_ e v)
    (ha : Allocated n v) :
    Yields {x | Reaches v x ∨ IsStatic x} (outcome end_ e) (sexprEval env v n) :=
  sexprEval_spec henv e v hb _ n ha.heap fun _ hx => Or.inl hx

end Functions

/-! ## Outcomes and values -/

mutual

/-- With NULL at the end of every list the outcome is the value. -/
theorem outcome_null : ∀ e : Expr, outcome .null e = e.denote
  | .literal x => rfl
  | .app op args => by
    rw [outcome, Expr.denote, outcomes_null args, Op.applyAt]
    split <;> rfl

theorem outcomes_null : ∀ es : List Expr, outcomes .null es = denoteAll es
  | [] => rfl
  | e :: es => by rw [outcomes, denoteAll, outcome_null e, outcomes_null es]

end

theorem apply_equal {o o' : Option Literal} {r : Literal} :
    Op.equal.apply [o, o'] = some r ↔
      ∃ x y, o = some x ∧ o' = some y ∧ r = .bool (decide (x = y)) := by
  cases o with
  | none => simp [Op.apply]
  | some x =>
    cases o' with
    | none => simp [Op.apply]
    | some y => simp [Op.apply, eq_comm]

theorem apply_cond {c t f : Option Literal} {r : Literal} :
    Op.cond.apply [c, t, f] = some r ↔
      (c = some (.bool true) ∧ t = some r) ∨ (c = some (.bool false) ∧ f = some r) := by
  cases c with
  | none => simp [Op.apply]
  | some x =>
    cases x with
    | int i => simp [Op.apply]
    | bool b => cases b <;> simp [Op.apply]

theorem not_reduces_equal {a b : Expr} :
    ¬Reduces (.app .equal [a, b]) ↔ ¬Reduces a ∧ ¬Reduces b := by
  constructor
  · exact fun h => ⟨fun ha => h (.left ha), fun hb => h (.right hb)⟩
  · rintro ⟨ha, hb⟩ h
    cases h with
    | reduction h => exact h.1 rfl
    | left h => exact ha h
    | right h => exact hb h

theorem not_reduces_cond {c t f : Expr} :
    ¬Reduces (.app .cond [c, t, f]) ↔ ¬Reduces c ∧ (c.denote = some (.bool true) → ¬Reduces t) ∧
      (c.denote = some (.bool false) → ¬Reduces f) := by
  constructor
  · exact fun h => ⟨fun hc => h (.test hc), fun hd ht => h (.yes hd ht), fun hd hf => h (.no hd hf)⟩
  · rintro ⟨hc, ht, hf⟩ h
    cases h with
    | reduction h => exact h.2 rfl
    | test h => exact hc h
    | yes hd h => exact ht hd h
    | no hd h => exact hf hd h

theorem outcome_app_of_not_reduction {end_ : Terminator} {op : Op} (h : ¬op.IsReduction)
    (args : List Expr) : outcome end_ (.app op args) = op.apply (outcomes end_ args) := by
  rw [outcome, Op.applyAt, if_neg h]

theorem outcome_empty_reduction {op : Op} {args : List Expr} {x : Literal} (h : op.IsReduction) :
    outcome .empty (.app op args) = some x ↔
      (Expr.app op args).denote = some x ∧ ¬Reduces (.app op args) := by
  rw [outcome, Op.applyAt, if_pos h]
  constructor
  · intro h
    cases h
  · rintro ⟨-, hno⟩
    exact absurd (.reduction h) hno

/-- With an empty cons cell at the end of every list there is an outcome if no reduction is applied. -/
theorem outcome_empty (e : Expr) (x : Literal) :
    outcome .empty e = some x ↔ e.denote = some x ∧ ¬Reduces e := by
  match e with
  | .literal y =>
    have hno : ¬Reduces (.literal y) := by rintro ⟨⟩
    exact ⟨fun h => ⟨h, hno⟩, fun h => h.1⟩
  | .app .equal args =>
    rw [outcome_app_of_not_reduction (by decide), Expr.denote]
    match args with
    | [a, b] =>
      show Op.equal.apply [outcome .empty a, outcome .empty b] = _ ↔
        Op.equal.apply [a.denote, b.denote] = _ ∧ _
      simp only [apply_equal, not_reduces_equal, outcome_empty a, outcome_empty b]
      constructor
      · rintro ⟨y, z, ⟨hy, hya⟩, ⟨hz, hzb⟩, hr⟩
        exact ⟨⟨y, z, hy, hz, hr⟩, hya, hzb⟩
      · rintro ⟨⟨y, z, hy, hz, hr⟩, hya, hzb⟩
        exact ⟨y, z, ⟨hy, hya⟩, ⟨hz, hzb⟩, hr⟩
    | [] =>
      rw [apply_equal_none (by simp [outcomes]), apply_equal_none (by simp [denoteAll])]
      simp
    | [a] =>
      rw [apply_equal_none (by simp [outcomes]), apply_equal_none (by simp [denoteAll])]
      simp
    | a :: b :: c :: es =>
      rw [apply_equal_none (by simp [outcomes]), apply_equal_none (by simp [denoteAll])]
      simp
  | .app .cond args =>
    rw [outcome_app_of_not_reduction (by decide), Expr.denote]
    match args with
    | [c, t, f] =>
      show Op.cond.apply [outcome .empty c, outcome .empty t, outcome .empty f] = _ ↔
        Op.cond.apply [c.denote, t.denote, f.denote] = _ ∧ _
      simp only [apply_cond, not_reduces_cond, outcome_empty c, outcome_empty t, outcome_empty f]
      constructor
      · rintro (⟨⟨hc, hcr⟩, ht, htr⟩ | ⟨⟨hc, hcr⟩, hf, hfr⟩)
        · exact ⟨Or.inl ⟨hc, ht⟩, hcr, fun _ => htr, fun h => by simp [hc] at h⟩
        · exact ⟨Or.inr ⟨hc, hf⟩, hcr, fun h => by simp [hc] at h, fun _ => hfr⟩
      · rintro ⟨⟨hc, ht⟩ | ⟨hc, hf⟩, hcr, htr, hfr⟩
        · exact Or.inl ⟨⟨hc, hcr⟩, ht, htr hc⟩
        · exact Or.inr ⟨⟨hc, hcr⟩, hf, hfr hc⟩
    | [] =>
      rw [apply_cond_none (by simp [outcomes]), apply_cond_none (by simp [denoteAll])]
      simp
    | [a] =>
      rw [apply_cond_none (by simp [outcomes]), apply_cond_none (by simp [denoteAll])]
      simp
    | [a, b] =>
      rw [apply_cond_none (by simp [outcomes]), apply_cond_none (by simp [denoteAll])]
      simp
    | a :: b :: c :: d :: es =>
      rw [apply_cond_none (by simp [outcomes]), apply_cond_none (by simp [denoteAll])]
      simp
  | .app .add args => exact outcome_empty_reduction (by decide)
  | .app .mult args => exact outcome_empty_reduction (by decide)
  | .app .and args => exact outcome_empty_reduction (by decide)
  | .app .or args => exact outcome_empty_reduction (by decide)

theorem Literal.ref_toVal (x : Literal) (a : Addr) : (x.ref a).toVal = x.toVal := by
  cases x <;> rfl

theorem Yields.returns_iff {seen : Set (Ref Addr)} {o : Option Literal} {c : Comp (Ref Addr × Nat)}
    (h : Yields seen o c) (u : Val) :
    (∃ r n', c = pure (r, n') ∧ r.toVal = u) ↔ ∃ x, o = some x ∧ x.toVal = u := by
  cases o with
  | none =>
    obtain ⟨f, hf⟩ := h
    simp only [hf, reduceCtorEq, false_and, exists_false, iff_false]
    rintro ⟨r, n', hr, -⟩
    cases hr
  | some x =>
    obtain ⟨a, n', seen', hc, -⟩ := h
    constructor
    · rintro ⟨r, m, hr, hu⟩
      have heq : (x.ref a, n') = (r, m) := pure_inj (hc.symm.trans hr)
      refine ⟨x, rfl, ?_⟩
      rw [← hu, ← (Prod.mk.inj heq).1, Literal.ref_toVal]
    · rintro ⟨y, hy, hu⟩
      obtain rfl := Option.some.inj hy
      exact ⟨x.ref a, n', hc, by rw [Literal.ref_toVal, hu]⟩

/-- An expression evaluates to the same value, without an abort, for both ends of lists exactly if it has
a value and none of `+`, `*`, `and` and `or` is applied on the way to it. With NULL at the end of every
list it is enough that it has a value. -/
theorem sexpr_eval_terminator_iff (env : SexprEvalEnv) (henv : Standard env) (e : Expr)
    (v w : Ref Addr) (n m : Nat) (hv : Builds .null e v) (hw : Builds .empty e w)
    (hav : Allocated n v) (haw : Allocated m w) :
    ((∃ r s n' m', sexprEval env v n = pure (r, n') ∧ sexprEval env w m = pure (s, m') ∧
      r.toVal = s.toVal) ↔ (e.denote ≠ none ∧ ¬Reduces e)) ∧
    (∀ x, e.denote = some x → ∃ r n', sexprEval env v n = pure (r, n') ∧ r.toVal = x.toVal) := by
  have hyv := (sexprEval_yields henv hv hav).returns_iff
  have hyw := (sexprEval_yields henv hw haw).returns_iff
  simp only [outcome_null] at hyv
  simp only [outcome_empty] at hyw
  refine ⟨⟨?_, ?_⟩, fun x hx => (hyv x.toVal).mpr ⟨x, hx, rfl⟩⟩
  · rintro ⟨r, s, n', m', -, hs, -⟩
    obtain ⟨x, ⟨hx, hno⟩, -⟩ := (hyw s.toVal).mp ⟨s, m', hs, rfl⟩
    exact ⟨by simp [hx], hno⟩
  · rintro ⟨hsome, hno⟩
    obtain ⟨x, hx⟩ := Option.ne_none_iff_exists'.mp hsome
    obtain ⟨r, n', hr, hru⟩ := (hyv x.toVal).mpr ⟨x, hx, rfl⟩
    obtain ⟨s, m', hs, hsu⟩ := (hyw x.toVal).mpr ⟨x, ⟨hx, hno⟩, rfl⟩
    exact ⟨r, s, n', m', hr, hs, by rw [hru, hsu]⟩

theorem standard_emptyenv : Standard emptyenv := fun op n => by cases op <;> rfl

/-- `(if (= 1 1) 10 (+ 1 2))`: the branch that is not taken does not matter. -/
def lazySum : Expr :=
  .app .cond [.app .equal [.literal (.int 1), .literal (.int 1)], .literal (.int 10),
    .app .add [.literal (.int 1), .literal (.int 2)]]

theorem sexpr_eval_terminator_iff_lazySum : ∃ v w n m, lazySum.build .null 0 = pure (v, n) ∧
    lazySum.build .empty 0 = pure (w, m) ∧ ∃ r s n' m', sexprEval emptyenv v n = pure (r, n') ∧
      sexprEval emptyenv w m = pure (s, m') ∧ r.toVal = s.toVal := by
  obtain ⟨v, n, hv, -, hbv, hav⟩ := build_spec .null lazySum 0
  obtain ⟨w, m, hw, -, hbw, haw⟩ := build_spec .empty lazySum 0
  have h := sexpr_eval_terminator_iff emptyenv standard_emptyenv lazySum v w n m hbv hbw hav.allocated
    haw.allocated
  have hno : ¬Reduces lazySum := by
    have hlit : ∀ x, ¬Reduces (.literal x) := by rintro x ⟨⟩
    refine not_reduces_cond.mpr ⟨not_reduces_equal.mpr ⟨hlit _, hlit _⟩, fun _ => hlit _, ?_⟩
    intro hfalse
    exact absurd hfalse (by decide)
  exact ⟨v, w, n, m, hv, hw, h.1.mpr ⟨by decide, hno⟩⟩

/-- `(+ 1 2)`. -/
def sum : Expr := .app .add [.literal (.int 1), .literal (.int 2)]

/-- The sum is computed if its list ends in NULL, and aborts if it ends in an empty cons cell. -/
theorem sexpr_eval_sum_aborts : ∃ v w n m, sum.build .null 0 = pure (v, n) ∧
    sum.build .empty 0 = pure (w, m) ∧
    (∃ r n', sexprEval emptyenv v n = pure (r, n') ∧ r.toVal = .int 3) ∧
    ∃ f, sexprEval emptyenv w m = throw f := by
  obtain ⟨v, n, hv, -, hbv, hav⟩ := build_spec .null sum 0
  obtain ⟨w, m, hw, -, hbw, haw⟩ := build_spec .empty sum 0
  have hyv := sexprEval_yields standard_emptyenv hbv hav.allocated
  have hyw := sexprEval_yields standard_emptyenv hbw haw.allocated
  exact ⟨v, w, n, m, hv, hw, (hyv.returns_iff (.int 3)).mpr ⟨.int 3, by decide, rfl⟩, hyw⟩

/-! ## Well-typed expressions -/

theorem members_of_hasType {α : Type} {member : Literal → Option α} {s : Ty}
    (hmember : ∀ x : Literal, x.type = s → ∃ y, member x = some y) {es : List Expr}
    (h : ∀ e ∈ es, ∃ x, e.denote = some x ∧ x.type = s) :
    ∃ xs, members member (denoteAll es) = some xs := by
  induction es with
  | nil => exact ⟨[], rfl⟩
  | cons e es ih =>
    obtain ⟨x, hx, hs⟩ := h e (by simp)
    obtain ⟨y, hy⟩ := hmember x hs
    obtain ⟨ys, hys⟩ := ih fun e' he' => h e' (by simp [he'])
    refine ⟨y :: ys, ?_⟩
    rw [members] at hys ⊢
    rw [denoteAll, List.mapM_cons, hx, Option.bind_some, hy, hys]
    rfl

theorem Literal.int?_of_type {x : Literal} (h : x.type = .int) : ∃ i, x.int? = some i := by
  cases x with
  | int i => exact ⟨i, rfl⟩
  | bool b => cases h

theorem Literal.bool?_of_type {x : Literal} (h : x.type = .bool) : ∃ b, x.bool? = some b := by
  cases x with
  | int i => cases h
  | bool b => exact ⟨b, rfl⟩

/-- A well-typed expression has a value of its type. -/
theorem HasType.denote {e : Expr} {s : Ty} (h : HasType e s) : ∃ x, e.denote = some x ∧ x.type = s := by
  induction h with
  | literal x => exact ⟨x, rfl, rfl⟩
  | add _ ih =>
    obtain ⟨xs, hxs⟩ := members_of_hasType (fun _ => Literal.int?_of_type) ih
    exact ⟨.int xs.sum, by rw [Expr.denote, Op.apply, hxs]; rfl, rfl⟩
  | mult _ ih =>
    obtain ⟨xs, hxs⟩ := members_of_hasType (fun _ => Literal.int?_of_type) ih
    exact ⟨.int xs.prod, by rw [Expr.denote, Op.apply, hxs]; rfl, rfl⟩
  | and _ ih =>
    obtain ⟨bs, hbs⟩ := members_of_hasType (fun _ => Literal.bool?_of_type) ih
    exact ⟨.bool (bs.all id), by rw [Expr.denote, Op.apply, hbs]; rfl, rfl⟩
  | or _ ih =>
    obtain ⟨bs, hbs⟩ := members_of_hasType (fun _ => Literal.bool?_of_type) ih
    exact ⟨.bool (bs.any id), by rw [Expr.denote, Op.apply, hbs]; rfl, rfl⟩
  | equal _ _ iha ihb =>
    obtain ⟨x, hx, -⟩ := iha
    obtain ⟨y, hy, -⟩ := ihb
    exact ⟨.bool (decide (x = y)), apply_equal.mpr ⟨x, y, hx, hy, rfl⟩, rfl⟩
  | @cond c t f s _ _ _ ihc iht ihf =>
    obtain ⟨x, hx, hxt⟩ := ihc
    obtain ⟨y, hy, hyt⟩ := iht
    obtain ⟨z, hz, hzt⟩ := ihf
    obtain ⟨b, hb⟩ := Literal.bool?_of_type hxt
    cases x with
    | int i => cases hb
    | bool b =>
      cases b with
      | true => exact ⟨y, apply_cond.mpr (Or.inl ⟨hx, hy⟩), hyt⟩
      | false => exact ⟨z, apply_cond.mpr (Or.inr ⟨hx, hz⟩), hzt⟩

/-- A well-typed expression whose lists end in NULL is evaluated to its value, and it can be built in
this way. -/
theorem sexpr_eval_well_typed (e : Expr) (s : Ty) (h : HasType e s) :
    (∃ x, e.denote = some x ∧ x.type = s ∧ ∀ (v : Ref Addr) (n : Nat), Builds .null e v →
      Allocated n v → ∃ r n', sexprEval emptyenv v n = pure (r, n') ∧ r.toVal = x.toVal) ∧
    ∀ n, ∃ v n', e.build .null n = pure (v, n') ∧ Builds .null e v ∧ Allocated n' v := by
  constructor
  · obtain ⟨x, hx, hs⟩ := h.denote
    refine ⟨x, hx, hs, fun v n hb ha => ?_⟩
    have hy := sexprEval_yields standard_emptyenv hb ha
    exact (hy.returns_iff x.toVal).mpr ⟨x, by rw [outcome_null, hx], rfl⟩
  · intro n
    obtain ⟨v, n', hv, -, hb, hw⟩ := build_spec .null e n
    exact ⟨v, n', hv, hb, hw.allocated⟩

/-- `(+ 1 2)` is 3. -/
theorem sexpr_eval_well_typed_sum : HasType sum .int ∧ ∃ v n r n', sum.build .null 0 = pure (v, n) ∧
    sexprEval emptyenv v n = pure (r, n') ∧ r.toVal = .int 3 := by
  have htype : HasType sum .int := by
    refine .add fun e he => ?_
    rcases List.mem_cons.mp he with rfl | he
    · exact .literal (.int 1)
    · rcases List.mem_cons.mp he with rfl | he
      · exact .literal (.int 2)
      · cases he
  obtain ⟨⟨x, hx, -, heval⟩, hbuild⟩ := sexpr_eval_well_typed sum .int htype
  obtain ⟨v, n, hv, hb, ha⟩ := hbuild 0
  obtain ⟨r, n', hr, hru⟩ := heval v n hb ha
  have hthree : sum.denote = some (.int 3) := by decide
  obtain rfl := Option.some.inj (hx.symm.trans hthree)
  exact ⟨htype, v, n, r, n', hv, hr, hru⟩

end Libjeffpc.Sexpr
