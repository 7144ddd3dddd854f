import Libjeffpc.Sexpr.Proofs.EvalProofs

/-!
# The lists that are allocated for an expression

The objects of one argument are allocated before those of the next, and the cons cells come last.
-/

namespace Libjeffpc.Sexpr

open Lib

variable {lo mid hi : Nat} {v w : Ref Addr}

/-- All objects of a value are static or among those from `lo` to `hi`. -/
structure Within (lo hi : Nat) (v : Ref Addr) : Prop where
  consistent : Consistent v v
  range : ∀ x, Reaches v x → x ≠ .null →
    IsStatic x ∨ ∃ k, lo ≤ k ∧ k < hi ∧ x.addr = some (.obj k)

theorem Within.allocated (h : Within lo hi v) : Allocated hi v := by
  refine ⟨h.consistent, fun x hx hne => ?_⟩
  rcases h.range x hx hne with hs | ⟨k, -, hlt, hk⟩
  · exact Or.inl hs
  · exact Or.inr ⟨k, hlt, hk⟩

theorem Within.mono {lo' hi' : Nat} (h : Within lo hi v) (hlo : lo' ≤ lo) (hhi : hi ≤ hi') :
    Within lo' hi' v := by
  refine ⟨h.consistent, fun x hx hne => ?_⟩
  rcases h.range x hx hne with hs | ⟨k, hle, hlt, hk⟩
  · exact Or.inl hs
  · exact Or.inr ⟨k, hlo.trans hle, hlt.trans_le hhi, hk⟩

/-- Objects of different ranges are different, unless they are static. -/
theorem Within.eq_of_addr {lo' hi' : Nat} (hv : Within lo mid v) (hw : Within lo' hi' w)
    (hle : mid ≤ lo') {x y : Ref Addr} (hx : Reaches v x) (hy : Reaches w y) (h : x.addr = y.addr) :
    x = y := by
  by_cases hxn : x = .null
  · subst hxn
    exact (eq_null_of_addr h.symm).symm
  · have hyn : y ≠ .null := by
      rintro rfl
      exact hxn (eq_null_of_addr h)
    rcases hv.range x hx hxn with hs | ⟨k, -, hk, hxk⟩ <;>
      rcases hw.range y hy hyn with hs' | ⟨k', hk', -, hyk⟩
    · exact hs.eq_of_addr hs' h
    · exact absurd (h.trans hyk) (hs.addr_ne k')
    · exact absurd (h.symm.trans hxk) (hs'.addr_ne k)
    · rw [hxk, hyk] at h
      cases h
      omega

theorem within_null (lo hi : Nat) : Within lo hi .null := by
  have hnull : ∀ {x : Ref Addr}, Reaches .null x → x = .null := by
    rintro x ⟨⟩
    rfl
  refine ⟨fun x y hx hy _ => ?_, fun x hx hne => absurd (hnull hx) hne⟩
  rw [hnull (hx.elim id id), hnull (hy.elim id id)]

/-- A value that consists of one object. -/
theorem within_object (h : ∀ x, Reaches v x → x = v)
    (hrange : IsStatic v ∨ ∃ k, lo ≤ k ∧ k < hi ∧ v.addr = some (.obj k)) : Within lo hi v := by
  refine ⟨fun x y hx hy _ => ?_, fun x hx _ => ?_⟩
  · rw [h x (hx.elim id id), h y (hy.elim id id)]
  · rw [h x hx]
    exact hrange

theorem within_literal {x : Literal} {a : Addr}
    (hrange : IsStatic (x.ref a) ∨ ∃ k, lo ≤ k ∧ k < hi ∧ a = .obj k) : Within lo hi (x.ref a) := by
  refine within_object (fun y hy => ?_) ?_
  · cases x <;> cases hy <;> rfl
  · rcases hrange with hs | ⟨k, hle, hlt, rfl⟩
    · exact Or.inl hs
    · exact Or.inr ⟨k, hle, hlt, by cases x <;> rfl⟩

theorem within_valEmptyCons (lo hi : Nat) : Within lo hi valEmptyCons := by
  have hreach : ∀ x, Reaches valEmptyCons x → x = valEmptyCons ∨ x = .null := by
    intro x hx
    cases hx with
    | refl => exact Or.inl rfl
    | head h =>
      cases h
      exact Or.inr rfl
    | tail h =>
      cases h
      exact Or.inr rfl
  refine ⟨fun x y hx hy haddr => ?_, fun x hx hne => ?_⟩
  · rcases hreach x (hx.elim id id) with rfl | rfl <;> rcases hreach y (hy.elim id id) with rfl | rfl <;>
      first
      | rfl
      | cases haddr
  · exact Or.inl (Or.inr (Or.inr (Or.inl ((hreach x hx).resolve_right hne))))

/-- A new cons cell. -/
theorem Within.cons (hv : Within lo mid v) (hw : Within mid hi w) (hlo : lo ≤ mid) (hmid : mid ≤ hi) :
    Within lo (hi + 1) (.cons (.obj hi) v w) := by
  have hv' := hv.mono le_rfl hmid
  have hw' := hw.mono hlo le_rfl
  -- no object below has the new address
  have hnew : ∀ x, Reaches v x ∨ Reaches w x → x.addr ≠ some (.obj hi) := by
    intro x hx haddr
    have hne : x ≠ .null := by
      rintro rfl
      cases haddr
    have hrange : IsStatic x ∨ ∃ k, lo ≤ k ∧ k < hi ∧ x.addr = some (.obj k) :=
      hx.elim (fun hx => hv'.range x hx hne) (fun hx => hw'.range x hx hne)
    rcases hrange with hs | ⟨k, -, hlt, hk⟩
    · exact hs.addr_ne hi haddr
    · rw [hk] at haddr
      cases haddr
      omega
  have hsplit : ∀ x, Reaches (.cons (.obj hi) v w) x →
      x = .cons (.obj hi) v w ∨ Reaches v x ∨ Reaches w x := by
    intro x hx
    cases hx with
    | refl => exact Or.inl rfl
    | head h => exact Or.inr (Or.inl h)
    | tail h => exact Or.inr (Or.inr h)
  refine ⟨fun x y hx hy haddr => ?_, fun x hx hne => ?_⟩
  · rcases hsplit x (hx.elim id id) with rfl | hx <;> rcases hsplit y (hy.elim id id) with rfl | hy
    · rfl
    · exact absurd haddr.symm (hnew y hy)
    · exact absurd haddr (hnew x hx)
    · rcases hx with hx | hx <;> rcases hy with hy | hy
      · exact hv.consistent x y (Or.inl hx) (Or.inl hy) haddr
      · exact hv.eq_of_addr hw le_rfl hx hy haddr
      · exact (hv.eq_of_addr hw le_rfl hy hx haddr.symm).symm
      · exact hw.consistent x y (Or.inl hx) (Or.inl hy) haddr
  · rcases hsplit x hx with rfl | hx | hx
    · exact Or.inr ⟨hi, by omega, by omega, rfl⟩
    · exact (hv'.mono le_rfl (Nat.le_succ hi)).range x hx hne
    · exact (hw'.mono le_rfl (Nat.le_succ hi)).range x hx hne

/-! ## Lists -/

/-- The values have been allocated one after the other. -/
inductive WithinAll : Nat → Nat → List (Ref Addr) → Prop
  | nil {lo hi : Nat} (h : lo ≤ hi) : WithinAll lo hi []
  | cons {lo mid hi : Nat} {v : Ref Addr} {vs : List (Ref Addr)} (hle : lo ≤ mid) (hne : v ≠ .null)
      (h : Within lo mid v) (hs : WithinAll mid hi vs) : WithinAll lo hi (v :: vs)

theorem WithinAll.le {vs : List (Ref Addr)} (h : WithinAll lo hi vs) : lo ≤ hi := by
  induction h with
  | nil h => exact h
  | cons hle _ _ _ ih => exact hle.trans ih

/-- Both ways to make a list allocate its cells from the last one to the first one. -/
theorem list_spec {end_ : Terminator} {last : Ref Addr} {f : List (Ref Addr) → EvalM (Ref Addr)}
    (hend : Ends end_ last) (hlast : ∀ lo hi, Within lo hi last) (hnil : f [] = pure last)
    (hcons : ∀ v vs, f (v :: vs) = f vs >>= valAllocCons v) {vs : List (Ref Addr)}
    (h : WithinAll lo mid vs) :
    ∀ hi, mid ≤ hi → ∃ tail hi', f vs hi = pure (tail, hi') ∧ hi ≤ hi' ∧ Lists end_ vs tail ∧
      Within lo hi' tail := by
  induction h with
  | nil h => exact fun hi hle => ⟨last, hi, by rw [hnil]; rfl, le_rfl, .nil hend, hlast _ _⟩
  | @cons lo mid mid' v vs hle hne hv hs ih =>
    intro hi hmid
    obtain ⟨tail, hi', hrun, hle', hlist, hwithin⟩ := ih hi hmid
    refine ⟨.cons (.obj hi') v tail, hi' + 1, ?_, by omega, .cons _ hlist, ?_⟩
    · have halloc : valAllocCons v tail hi' = pure (.cons (.obj hi') v tail, hi' + 1) := by
        rw [valAllocCons]
        cases v with
        | null => exact absurd rfl hne
        | _ => rfl
      rw [hcons]
      show (f vs hi >>= fun p => valAllocCons v p.1 p.2) = _
      rw [hrun, pure_bind, halloc]
    · have := hs.le
      exact hv.cons hwithin hle (by omega)

theorem terminatorList_spec (end_ : Terminator) {v : Ref Addr} {vs : List (Ref Addr)}
    (h : WithinAll lo hi (v :: vs)) :
    ∃ tail hi', end_.list (v :: vs) hi = pure (tail, hi') ∧ hi ≤ hi' ∧ Lists end_ (v :: vs) tail ∧
      Within lo hi' tail := by
  cases end_ with
  | null =>
    exact list_spec (f := arrayToList) .null within_null rfl (fun _ _ => rfl) h hi le_rfl
  | empty =>
    exact list_spec (f := parsedList) (.empty _) within_valEmptyCons rfl (fun _ _ => rfl) h hi le_rfl

/-! ## Expressions -/

theorem build_literal (end_ : Terminator) (x : Literal) (n : Nat) :
    ∃ a n', (Expr.literal x).build end_ n = pure (x.ref a, n') ∧ n ≤ n' ∧ Within n n' (x.ref a) := by
  cases x with
  | bool b =>
    refine ⟨_, n, rfl, le_rfl, within_literal (Or.inl ?_)⟩
    cases b with
    | true => exact Or.inl rfl
    | false => exact Or.inr (Or.inl rfl)
  | int i =>
    rw [Expr.build, valAllocInt]
    split
    next hlt =>
      refine ⟨_, n, rfl, le_rfl, within_literal (Or.inl ?_)⟩
      refine Or.inr (Or.inr (Or.inr ⟨⟨i.toNat, hlt⟩, ?_⟩))
      rw [UInt64.ofNat_toNat]
      rfl
    next =>
      exact ⟨.obj n, n + 1, rfl, by omega, within_literal (Or.inr ⟨n, le_rfl, by omega, rfl⟩)⟩

mutual

/-- Every expression can be built, with either end of lists, from objects that did not exist before. -/
theorem build_spec (end_ : Terminator) : ∀ (e : Expr) (n : Nat),
    ∃ v n', e.build end_ n = pure (v, n') ∧ n ≤ n' ∧ Builds end_ e v ∧ Within n n' v
  | .literal x, n => by
    obtain ⟨a, n', hrun, hle, hwithin⟩ := build_literal end_ x n
    exact ⟨x.ref a, n', hrun, hle, .literal a x, hwithin⟩
  | .app op args, n => by
    obtain ⟨vs, n1, hrun, hbuilds, hwithin⟩ := buildAll_spec end_ args (n + 1)
    have hsym : Within n (n + 1) (.sym (.obj n) op.name) :=
      within_object (by rintro x ⟨⟩; rfl) (Or.inr ⟨n, le_rfl, by omega, rfl⟩)
    obtain ⟨tail, n2, hlist, hle, hlists, hall⟩ :=
      terminatorList_spec end_ (.cons (Nat.le_succ n) (by simp) hsym hwithin)
    have hle' := hwithin.le
    cases hlists with
    | cons a hlists =>
      refine ⟨_, n2, ?_, by omega, .app a hbuilds hlists _, hall⟩
      show (buildAll end_ args (n + 1) >>= fun p => end_.list (.sym (.obj n) op.name :: p.1) p.2) = _
      rw [hrun, pure_bind, hlist]

theorem buildAll_spec (end_ : Terminator) : ∀ (es : List Expr) (n : Nat),
    ∃ vs n', buildAll end_ es n = pure (vs, n') ∧ List.Forall₂ (Builds end_) es vs ∧ WithinAll n n' vs
  | [], n => ⟨[], n, rfl, .nil, .nil le_rfl⟩
  | e :: es, n => by
    obtain ⟨v, n1, hv, hle, hb, hwithin⟩ := build_spec end_ e n
    obtain ⟨vs, n2, hvs, hbs, hwithins⟩ := buildAll_spec end_ es n1
    refine ⟨v :: vs, n2, ?_, .cons hb hbs, .cons hle hb.ne_null hwithin hwithins⟩
    show (e.build end_ n >>= fun p => buildAll end_ es p.2 >>= fun q => pure (p.1 :: q.1, q.2)) = _
    rw [hv, pure_bind, hvs, pure_bind]

end

end Libjeffpc.Sexpr
