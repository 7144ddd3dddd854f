import Libjeffpc.Sexpr.Expr

/-!
# What `sexpr_eval` makes of an expression

`Heap` is kept by every step: the objects that have been seen, among them the static ones, are known by
their addresses, and the addresses of new objects are not in use. The outcome of an expression depends
on how its lists end, for `__REDUCE` stops at NULL only.
-/

namespace Libjeffpc.Sexpr

open Lib

/-! ## Objects and addresses -/

/-- The objects seen so far, of the first `n` objects and the static ones. -/
structure Heap (seen : Set (Ref Addr)) (n : Nat) : Prop where
  agree : ∀ x ∈ seen, ∀ y ∈ seen, x.addr = y.addr → x = y
  static : ∀ x, IsStatic x → x ∈ seen
  below : ∀ x ∈ seen, ∀ k, x.addr = some (.obj k) → k < n

theorem IsStatic.addr_ne {x : Ref Addr} (h : IsStatic x) (k : Nat) : x.addr ≠ some (.obj k) := by
  rcases h with rfl | rfl | rfl | ⟨i, rfl⟩ <;> simp [Ref.addr, valEmptyCons]

theorem IsStatic.eq_of_addr {x y : Ref Addr} (hx : IsStatic x) (hy : IsStatic y)
    (h : x.addr = y.addr) : x = y := by
  rcases hx with rfl | rfl | rfl | ⟨i, rfl⟩ <;> rcases hy with rfl | rfl | rfl | ⟨j, rfl⟩ <;>
    simp_all [Ref.addr, valEmptyCons]

theorem IsStatic.ne_null {x : Ref Addr} (h : IsStatic x) : x ≠ .null := by
  rcases h with rfl | rfl | rfl | ⟨i, rfl⟩ <;> simp [valEmptyCons]

theorem eq_null_of_addr {x : Ref Addr} (h : x.addr = none) : x = .null := by
  cases x with
  | null => rfl
  | _ => cases h

/-- What an expression starts with. -/
theorem Allocated.heap {n : Nat} {v : Ref Addr} (h : Allocated n v) :
    Heap {x | Reaches v x ∨ IsStatic x} n := by
  obtain ⟨hcons, halloc⟩ := h
  have hmixed : ∀ x y, Reaches v x → IsStatic y → x.addr = y.addr → x = y := by
    intro x y hx hy haddr
    have hne : x ≠ .null := by
      rintro rfl
      exact hy.ne_null (eq_null_of_addr haddr.symm)
    rcases halloc x hx hne with hs | ⟨k, -, hk⟩
    · exact hs.eq_of_addr hy haddr
    · exact absurd (haddr.symm.trans hk) (hy.addr_ne k)
  refine ⟨?_, fun x hx => Or.inr hx, ?_⟩
  · rintro x (hx | hx) y (hy | hy) haddr
    · exact hcons x y (Or.inl hx) (Or.inl hy) haddr
    · exact hmixed x y hx hy haddr
    · exact (hmixed y x hy hx haddr.symm).symm
    · exact hx.eq_of_addr hy haddr
  · rintro x (hx | hx) k hk
    · have hne : x ≠ .null := by
        rintro rfl
        cases hk
      rcases halloc x hx hne with hs | ⟨k', hlt, hk'⟩
      · exact absurd hk (hs.addr_ne k)
      · rw [hk] at hk'
        cases hk'
        exact hlt
    · exact absurd hk (hx.addr_ne k)

/-- A computation that returns a literal, in a heap that has grown, or faults. -/
def Yields (seen : Set (Ref Addr)) (o : Option Literal) (c : Comp (Ref Addr × Nat)) : Prop :=
  match o with
  | some x => ∃ a n' seen', c = pure (x.ref a, n') ∧ seen ⊆ seen' ∧ Heap seen' n' ∧ x.ref a ∈ seen'
  | none => ∃ f, c = throw f

theorem Yields.mono {seen seen' : Set (Ref Addr)} {o : Option Literal} {c : Comp (Ref Addr × Nat)}
    (h : Yields seen' o c) (hsub : seen ⊆ seen') : Yields seen o c := by
  cases o with
  | none => exact h
  | some x =>
    obtain ⟨a, n', seen'', hc, hsub', hheap, hmem⟩ := h
    exact ⟨a, n', seen'', hc, hsub.trans hsub', hheap, hmem⟩

theorem valAllocBool_yields {seen : Set (Ref Addr)} {n : Nat} (h : Heap seen n) (b : Bool) :
    Yields seen (some (.bool b)) (valAllocBool b n) := by
  refine ⟨_, n, seen, rfl, subset_rfl, h, h.static _ ?_⟩
  cases b with
  | true => exact Or.inl rfl
  | false => exact Or.inr (Or.inl rfl)

theorem valAllocInt_yields {seen : Set (Ref Addr)} {n : Nat} (h : Heap seen n) (i : UInt64) :
    Yields seen (some (.int i)) (valAllocInt i n) := by
  rw [valAllocInt]
  split
  next hlt =>
    refine ⟨_, n, seen, rfl, subset_rfl, h, h.static _ ?_⟩
    refine Or.inr (Or.inr (Or.inr ⟨⟨i.toNat, hlt⟩, ?_⟩))
    rw [UInt64.ofNat_toNat]
    rfl
  next =>
    refine ⟨.obj n, n + 1, insert (.int (.obj n) i) seen, rfl, Set.subset_insert _ _, ?_,
      Set.mem_insert _ _⟩
    -- the new address is not in use
    have hnew : ∀ y ∈ seen, y.addr ≠ some (.obj n) := fun y hy hk => (h.below y hy n hk).false
    refine ⟨?_, fun x hx => Set.mem_insert_of_mem _ (h.static x hx), ?_⟩
    · rintro x (rfl | hx) y (rfl | hy) haddr
      · rfl
      · exact absurd haddr.symm (hnew y hy)
      · exact absurd haddr (hnew x hx)
      · exact h.agree x hx y hy haddr
    · rintro x (rfl | hx) k hk
      · cases hk
        omega
      · have := h.below x hx k hk
        omega

/-- Literals are compared by their values. -/
theorem sexprEqual_literal {x y : Literal} {a b : Addr} (h : a = b → x.ref a = y.ref b) :
    sexprEqual (x.ref a) (y.ref b) = pure (decide (x = y)) := by
  by_cases hab : a = b
  · have hxy : x = y := by
      have heq := h hab
      cases x <;> cases y <;> cases heq <;> rfl
    subst hab hxy
    cases x <;> simp [sexprEqual.eq_def, Literal.ref]
  · have hne : (some a : Option Addr) ≠ some b := fun heq => hab (Option.some.inj heq)
    cases x <;> cases y <;>
      simp [sexprEqual.eq_def, Literal.ref, Ref.addr, Ref.isNone, Ref.type, hne]

/-! ## The lists of arguments -/

theorem Lists.length {end_ : Terminator} {vs : List (Ref Addr)} {tail : Ref Addr}
    (h : Lists end_ vs tail) (hvs : ∀ v ∈ vs, v ≠ .null) : sexprLength tail = vs.length := by
  induction h with
  | nil h =>
    cases h with
    | null => rfl
    | empty a => rfl
  | @cons a v tail vs _ ih =>
    have hv : v ≠ .null := hvs v (by simp)
    have hnull : sexprIsNull (.cons a v tail) = false := by
      show (v.isNone && tail.isNone) = false
      cases v with
      | null => exact absurd rfl hv
      | _ => rfl
    have hlen := ih fun w hw => hvs w (by simp [hw])
    rw [sexprLength, if_neg (by simp [hnull]), hlen, if_neg (by omega), List.length_cons]
    omega

theorem Builds.ne_null {end_ : Terminator} {e : Expr} {v : Ref Addr} (h : Builds end_ e v) :
    v ≠ .null := by
  cases h with
  | literal a x => cases x <;> simp [Literal.ref]
  | app => simp

theorem Lists.reaches {end_ : Terminator} {vs : List (Ref Addr)} {tail v x : Ref Addr}
    (h : Lists end_ vs tail) (hv : v ∈ vs) (hx : Reaches v x) : Reaches tail x := by
  induction h with
  | nil => cases hv
  | cons a _ ih =>
    rcases List.mem_cons.mp hv with rfl | hv
    · exact .head hx
    · exact .tail (ih hv)

/-! ## Outcomes -/

instance : DecidablePred Op.IsReduction := fun _ => inferInstanceAs (Decidable (_ ∧ _))

/-- The reductions fail if the list does not end in NULL. -/
def Terminator.reduced : Terminator → Option Literal → Option Literal
  | null, o => o
  | empty, _ => none

def Op.applyAt (end_ : Terminator) (op : Op) (args : List (Option Literal)) : Option Literal :=
  if op.IsReduction then end_.reduced (op.apply args) else op.apply args

mutual

def outcome (end_ : Terminator) : Expr → Option Literal
  | .literal x => some x
  | .app op args => op.applyAt end_ (outcomes end_ args)

def outcomes (end_ : Terminator) : List Expr → List (Option Literal)
  | [] => []
  | e :: es => outcome end_ e :: outcomes end_ es

end

/-- What the evaluation of `v` makes of the expression `e`. -/
def EvalSpec (eval : Ref Addr → EvalM (Ref Addr)) (end_ : Terminator) (e : Expr) (v : Ref Addr) :
    Prop :=
  ∀ seen n, Heap seen n → (∀ x, Reaches v x → x ∈ seen) → Yields seen (outcome end_ e) (eval v n)

variable {env : SexprEvalEnv}

theorem evalElement_literal (x : Literal) (a : Addr) : evalElement env (x.ref a) = pure (x.ref a) := by
  cases x <;> simp [evalElement.eq_def, Literal.ref, Ref.type]

/-- The loop around the evaluation of an argument makes one round. -/
theorem evalElement_spec {end_ : Terminator} {e : Expr} {v : Ref Addr} (hb : Builds end_ e v)
    (h : EvalSpec (sexprEval env) end_ e v) : EvalSpec (evalElement env) end_ e v := by
  intro seen n hheap hreach
  cases hb with
  | literal a x =>
    rw [evalElement_literal]
    exact ⟨a, n, seen, rfl, subset_rfl, hheap, hreach _ (.refl _)⟩
  | @app a op args vs tail hargs hlist x =>
    have hrun : evalElement env (.cons a (.sym x op.name) tail) n =
        (sexprEval env (.cons a (.sym x op.name) tail) n >>= fun r => evalElement env r.1 r.2) := by
      rw [evalElement.eq_def]
      rfl
    rw [hrun]
    have hy := h seen n hheap hreach
    cases ho : outcome end_ (.app op args) with
    | none =>
      rw [ho] at hy
      obtain ⟨f, hf⟩ := hy
      exact ⟨f, by rw [hf]; rfl⟩
    | some y =>
      rw [ho] at hy
      obtain ⟨b, n', seen', hc, hrest⟩ := hy
      refine ⟨b, n', seen', ?_, hrest⟩
      rw [hc, pure_bind, evalElement_literal]
      rfl

/-! ## Reductions -/

section Reductions

variable {α : Type} {r : Reduce α} {member : Literal → Option α} {end_ : Terminator}

/-- What a reduction takes from its arguments, and what it makes of the result. -/
structure Reduce.Implements (r : Reduce α) (member : Literal → Option α) (lit : α → Literal) :
    Prop where
  valmember : ∀ (x : Literal) (a : Addr), r.valmember (x.ref a) = member x
  valmember_null : r.valmember .null = none
  alloc : ∀ (x : α) (seen : Set (Ref Addr)) (n : Nat), Heap seen n →
    Yields seen (some (lit x)) (r.alloc x n)

theorem reduceArgs_cons (a : Addr) (v tail : Ref Addr) (ret : α) (n : Nat) :
    reduceArgs r env (.cons a v tail) ret n = (do
      let (el, n') ← evalElement env v n
      match r.valmember el with
      | none => throw .assert
      | some x => reduceArgs r env tail (r.op ret x) n') := by
  rw [reduceArgs.eq_def]
  show (evalElement env v n >>= fun p => _) = _
  refine congrArg _ (funext fun ⟨el, n'⟩ => ?_)
  dsimp only
  cases r.valmember el <;> rfl

/-- The loop goes on to the end of the list, unless the value of an argument is missing. -/
theorem reduceArgs_spec {lit : α → Literal} (hr : r.Implements member lit) {es : List Expr}
    {vs : List (Ref Addr)} {tail : Ref Addr}
    (hspec : List.Forall₂ (EvalSpec (evalElement env) end_) es vs) (hlist : Lists end_ vs tail) :
    ∀ (ret : α) (seen : Set (Ref Addr)) (n : Nat), Heap seen n → (∀ x, Reaches tail x → x ∈ seen) →
      match members member (outcomes end_ es) with
      | some xs => ∃ last n' seen', Ends end_ last ∧ seen ⊆ seen' ∧ Heap seen' n' ∧
          reduceArgs r env tail ret n = reduceArgs r env last (xs.foldl r.op ret) n'
      | none => ∃ f, reduceArgs r env tail ret n = throw f := by
  induction hspec generalizing tail with
  | nil =>
    intro ret seen n hheap _
    cases hlist with
    | nil hend => exact ⟨tail, n, seen, hend, subset_rfl, hheap, rfl⟩
  | @cons e v es vs hv _ ih =>
    intro ret seen n hheap hreach
    cases hlist with
    | @cons a _ tail _ hlist =>
      have hy := hv seen n hheap fun x hx => hreach x (.head hx)
      rw [reduceArgs_cons]
      simp only [outcomes, members, List.mapM_cons] at ih ⊢
      cases ho : outcome end_ e with
      | none =>
        rw [ho] at hy
        obtain ⟨f, hf⟩ := hy
        exact ⟨f, by rw [hf]; rfl⟩
      | some y =>
        rw [ho] at hy
        obtain ⟨b, n', seen', hc, hsub, hheap', hmem⟩ := hy
        rw [hc]
        simp only [pure_bind, hr.valmember, Option.bind_some]
        cases hm : member y with
        | none => exact ⟨.assert, rfl⟩
        | some m =>
          have hrest := ih hlist (r.op ret m) seen' n' hheap' fun x hx => hsub (hreach x (.tail hx))
          cases hms : List.mapM (fun arg : Option Literal => arg.bind member) (outcomes end_ es) with
          | none =>
            rw [hms] at hrest
            exact hrest
          | some ms =>
            rw [hms] at hrest
            obtain ⟨last, n'', seen'', hend, hsub', hrest⟩ := hrest
            exact ⟨last, n'', seen'', hend, hsub.trans hsub', hrest⟩

/-- At NULL the loop is left; the empty cons cell has no head. -/
theorem reduceArgs_end {lit : α → Literal} (hr : r.Implements member lit) {last : Ref Addr} (ret : α)
    (n : Nat) (h : Ends end_ last) :
    reduceArgs r env last ret n =
      match end_ with
      | .null => pure (ret, n)
      | .empty => throw .assert := by
  cases h with
  | null =>
    rw [reduceArgs.eq_def]
    rfl
  | empty a =>
    have hel : evalElement env .null n = pure (.null, n) := by
      rw [evalElement.eq_def]
      rfl
    rw [reduceArgs_cons, hel]
    simp only [pure_bind, hr.valmember_null]

theorem fxnReduce_spec {lit : α → Literal} (hr : r.Implements member lit) {es : List Expr}
    {vs : List (Ref Addr)} {tail : Ref Addr}
    (hspec : List.Forall₂ (EvalSpec (evalElement env) end_) es vs) (hlist : Lists end_ vs tail)
    {seen : Set (Ref Addr)} {n : Nat} (hheap : Heap seen n) (hreach : ∀ x, Reaches tail x → x ∈ seen) :
    Yields seen
      (end_.reduced
        ((members member (outcomes end_ es)).map fun xs => lit (xs.foldl r.op r.ident)))
      (fxnReduce r tail env n) := by
  have hrun : fxnReduce r tail env n = (do
      let (ret, n') ← reduceArgs r env tail r.ident n
      r.alloc ret n') := by
    rw [fxnReduce.eq_def]
    rfl
  rw [hrun]
  have hargs := reduceArgs_spec hr hspec hlist r.ident seen n hheap hreach
  cases hm : members member (outcomes end_ es) with
  | none =>
    rw [hm] at hargs
    obtain ⟨f, hf⟩ := hargs
    rw [hf]
    cases end_ <;> exact ⟨f, rfl⟩
  | some xs =>
    rw [hm] at hargs
    obtain ⟨last, n', seen', hend, hsub, hheap', heq⟩ := hargs
    rw [heq, reduceArgs_end hr _ _ hend]
    cases end_ with
    | null =>
      simp only [pure_bind]
      exact (hr.alloc _ seen' n' hheap').mono hsub
    | empty => exact ⟨.assert, rfl⟩

end Reductions

end Libjeffpc.Sexpr
