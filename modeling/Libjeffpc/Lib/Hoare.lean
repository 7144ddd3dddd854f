import Libjeffpc.Lib.Comp

/-!
# Procedures that report errors

A C function that works on some state and returns 0 or an error is a `Proc`. A failed procedure keeps
the state it has reached: nothing is rolled back for it. `Returns f s r s'` says that `f`, started in
`s`, terminates without a fault, with the result `r` in the state `s'`. `Triple f s Q` is total
correctness: `f` returns, and the result and the final state satisfy `Q`.
-/

namespace Libjeffpc.Lib

/-- A procedure on the state `σ` that may report an error of `ε`. -/
abbrev Proc (σ ε α : Type) := ExceptT ε (StateT σ Comp) α

variable {σ ε α β : Type}

theorem lift_pure_bind (a : α) (f : α → Proc σ ε β) :
    ((liftM (pure a : Comp α) : Proc σ ε α) >>= f) = f a := rfl

def Returns (f : Proc σ ε α) (s : σ) (r : Except ε α) (s' : σ) : Prop :=
  StateT.run (ExceptT.run f) s = pure (r, s')

def Triple (f : Proc σ ε α) (s : σ) (Q : Except ε α → σ → Prop) : Prop :=
  ∃ r s', Returns f s r s' ∧ Q r s'

namespace Returns

theorem unique {f : Proc σ ε α} {s s1 s2 : σ} {r1 r2 : Except ε α} (h1 : Returns f s r1 s1)
    (h2 : Returns f s r2 s2) : r1 = r2 ∧ s1 = s2 := by
  have h : (r1, s1) = (r2, s2) := pure_inj (h1.symm.trans h2)
  exact Prod.mk.inj h

theorem pure (a : α) (s : σ) : Returns (Pure.pure a : Proc σ ε α) s (.ok a) s := rfl

theorem throw (e : ε) (s : σ) : Returns (MonadExcept.throw e : Proc σ ε α) s (.error e) s := rfl

theorem get (s : σ) : Returns (MonadState.get : Proc σ ε σ) s (.ok s) s := rfl

theorem set (s s' : σ) : Returns (MonadStateOf.set s' : Proc σ ε PUnit) s (.ok ⟨⟩) s' := rfl

theorem modifyGet (f : σ → α × σ) (s : σ) :
    Returns (MonadState.modifyGet f : Proc σ ε α) s (.ok (f s).1) (f s).2 := rfl

theorem lift (a : α) (s : σ) :
    Returns (liftM (Pure.pure a : Comp α) : Proc σ ε α) s (.ok a) s := rfl

theorem bind {f : Proc σ ε α} {g : α → Proc σ ε β} {s s' s'' : σ} {a : α} {r : Except ε β}
    (hf : Returns f s (.ok a) s') (hg : Returns (g a) s' r s'') : Returns (f >>= g) s r s'' := by
  rw [Returns, ExceptT.run_bind, StateT.run_bind, hf, pure_bind]
  exact hg

theorem bind_error {f : Proc σ ε α} {g : α → Proc σ ε β} {s s' : σ} {e : ε}
    (hf : Returns f s (.error e) s') : Returns (f >>= g) s (.error e) s' := by
  rw [Returns, ExceptT.run_bind, StateT.run_bind, hf, pure_bind]
  rfl

/-- A sequence that succeeds is two procedures that succeed. -/
theorem of_bind {f : Proc σ ε α} {g : α → Proc σ ε β} {s s'' : σ} {c : β}
    (h : Returns (f >>= g) s (.ok c) s'') :
    ∃ a s', Returns f s (.ok a) s' ∧ Returns (g a) s' (.ok c) s'' := by
  rw [Returns, ExceptT.run_bind, StateT.run_bind] at h
  cases hf : (StateT.run (ExceptT.run f) s : Comp _) with
  | none =>
    rw [hf] at h
    cases h
  | some r =>
    cases r with
    | error e =>
      rw [hf] at h
      cases h
    | ok r =>
      obtain ⟨r, s'⟩ := r
      cases r with
      | error e =>
        rw [hf] at h
        cases h
      | ok a =>
        rw [hf] at h
        exact ⟨a, s', hf, h⟩

/-- What is left to run once the first procedure has returned. -/
theorem tail {f : Proc σ ε α} {g : α → Proc σ ε β} {s s' s'' : σ} {a : α} {r : Except ε β}
    (h : Returns (f >>= g) s r s'') (hf : Returns f s (.ok a) s') : Returns (g a) s' r s'' := by
  rw [Returns, ExceptT.run_bind, StateT.run_bind, hf, pure_bind] at h
  exact h

theorem of_lift {c : Comp α} {s s' : σ} {a : α} (h : Returns (liftM c : Proc σ ε α) s (.ok a) s') :
    c = Pure.pure a ∧ s' = s := by
  cases c with
  | none =>
    have h : (none : Option (Except Fault (Except ε α × σ))) = some (.ok (.ok a, s')) := h
    cases h
  | some r =>
    cases r with
    | error e =>
      have h : (some (.error e) : Option (Except Fault (Except ε α × σ))) = some (.ok (.ok a, s')) := h
      cases h
    | ok x =>
      have h : (Pure.pure (.ok x, s) : Comp (Except ε α × σ)) = Pure.pure (.ok a, s') := h
      obtain ⟨hx, hs⟩ := Prod.mk.inj (pure_inj h)
      cases hx
      exact ⟨rfl, hs.symm⟩

end Returns

/-- A procedure leaves the defined behaviour. -/
def Faults (f : Proc σ ε α) (s : σ) : Prop := ∃ e, StateT.run (ExceptT.run f) s = (throw e : Comp _)

namespace Faults

theorem not_returns {f : Proc σ ε α} {s s' : σ} {r : Except ε α} (hf : Faults f s) :
    ¬Returns f s r s' := by
  intro h
  obtain ⟨e, he⟩ := hf
  cases he.symm.trans h

theorem lift (e : Fault) (s : σ) : Faults (liftM (throw e : Comp α) : Proc σ ε α) s := ⟨e, rfl⟩

theorem bind {f : Proc σ ε α} {s : σ} (hf : Faults f s) (g : α → Proc σ ε β) : Faults (f >>= g) s := by
  obtain ⟨e, he⟩ := hf
  refine ⟨e, ?_⟩
  rw [ExceptT.run_bind, StateT.run_bind, he]
  rfl

/-- The fault is in what follows. -/
theorem after {f : Proc σ ε α} {g : α → Proc σ ε β} {s s' : σ} {a : α} (hf : Returns f s (.ok a) s')
    (hg : Faults (g a) s') : Faults (f >>= g) s := by
  obtain ⟨e, he⟩ := hg
  refine ⟨e, ?_⟩
  rw [ExceptT.run_bind, StateT.run_bind, hf, pure_bind]
  exact he

end Faults

namespace Triple

variable {f : Proc σ ε α} {g : α → Proc σ ε β} {s : σ} {Q : Except ε α → σ → Prop}
  {R : Except ε β → σ → Prop}

theorem of_returns {r : Except ε α} {s' : σ} (h : Returns f s r s') (hq : Q r s') : Triple f s Q :=
  ⟨r, s', h, hq⟩

theorem pure {a : α} (h : Q (.ok a) s) : Triple (Pure.pure a) s Q := ⟨_, _, Returns.pure a s, h⟩

theorem throw {e : ε} (h : Q (.error e) s) : Triple (MonadExcept.throw e) s Q :=
  ⟨_, _, Returns.throw e s, h⟩

/-- The second procedure starts where the first one ends; an error of the first is the result. -/
theorem bind (hf : Triple f s Q) (hok : ∀ a s', Q (.ok a) s' → Triple (g a) s' R)
    (herr : ∀ e s', Q (.error e) s' → R (.error e) s') : Triple (f >>= g) s R := by
  obtain ⟨r, s', hr, hq⟩ := hf
  cases r with
  | ok a =>
    obtain ⟨r', s'', hr', hq'⟩ := hok a s' hq
    exact ⟨r', s'', hr.bind hr', hq'⟩
  | error e => exact ⟨_, s', hr.bind_error, herr e s' hq⟩

theorem mono {Q' : Except ε α → σ → Prop} (hf : Triple f s Q) (h : ∀ r s', Q r s' → Q' r s') :
    Triple f s Q' := by
  obtain ⟨r, s', hr, hq⟩ := hf
  exact ⟨r, s', hr, h r s' hq⟩

/-- What a procedure returns satisfies its specification. -/
theorem post {r : Except ε α} {s' : σ} (hf : Triple f s Q) (h : Returns f s r s') : Q r s' := by
  obtain ⟨r0, s0, h0, hq⟩ := hf
  obtain ⟨rfl, rfl⟩ := h0.unique h
  exact hq

end Triple

end Libjeffpc.Lib
