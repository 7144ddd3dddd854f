import Libjeffpc.Lib.Comp

/-!
# Two computations side by side

`Follows R c₁ c₂` says that what `c₁` does `c₂` does too: it faults in the same way, or returns a
result that is related by `R`. If each of two computations follows the other, they agree also on
divergence. The rules go through two computations that are written in the same way, and `Follows.loop`
through two loops whose rounds keep a relation between their states.
-/

namespace Libjeffpc.Lib

variable {α β α' β' : Type}

/-- Two outcomes that are the same up to `R`. -/
def OutcomeRel (R : α → β → Prop) : Except Fault α → Except Fault β → Prop
  | .ok a, .ok b => R a b
  | .error e, .error e' => e = e'
  | _, _ => False

def Follows (R : α → β → Prop) (c₁ : Comp α) (c₂ : Comp β) : Prop :=
  ∀ r : Except Fault α, (c₁ : Option _) = some r →
    ∃ r' : Except Fault β, (c₂ : Option _) = some r' ∧ OutcomeRel R r r'

/-- `loop` without its monad. Its induction rule is about the results that are returned. -/
def loopOption {σ ρ : Type} (body : σ → Option (Except Fault (σ ⊕ ρ))) (s : σ) :
    Option (Except Fault ρ) := do
  match ← body s with
  | .ok x =>
    match x with
    | .inl s' => (by apply loopOption : (σ → Option (Except Fault (σ ⊕ ρ))) → σ → Option (Except Fault ρ)) body s'
    | .inr r => some (.ok r)
  | .error e => some (.error e)
partial_fixpoint

theorem loopRound_eq {σ ρ : Type} (body : σ → Comp (σ ⊕ ρ)) (f : σ → Comp ρ) (s : σ) :
    (body s >>= fun x => match x with
      | .inl s' => f s'
      | .inr r => pure r) =
    Option.bind (body s) fun x : Except Fault (σ ⊕ ρ) => match x with
      | .ok x => match x with
        | .inl s' => f s'
        | .inr r => some (.ok r)
      | .error e => some (.error e) := by
  refine congrArg (Option.bind (body s)) (funext fun x => ?_)
  rcases x with e | (s' | r) <;> rfl

theorem loop_eq_loopOption {σ ρ : Type} (body : σ → Comp (σ ⊕ ρ)) : loop body = loopOption body := by
  delta loop loopOption
  congr 1
  funext f s
  exact loopRound_eq body f s

namespace Follows

variable {R : α → β → Prop} {Q : α' → β' → Prop}

theorem pure {a : α} {b : β} (h : R a b) :
    Follows R (Pure.pure a : Comp α) (Pure.pure b : Comp β) := by
  intro r hr
  have hr : some (.ok a) = some r := hr
  obtain rfl := Option.some.inj hr
  exact ⟨.ok b, rfl, h⟩

theorem throw (e : Fault) : Follows R (MonadExcept.throw e : Comp α) (MonadExcept.throw e : Comp β) := by
  intro r hr
  have hr : some (.error e) = some r := hr
  obtain rfl := Option.some.inj hr
  exact ⟨.error e, rfl, rfl⟩

/-- The second halves may rely on what the first half has returned. -/
theorem bind_of_eq {c₁ : Comp α} {c₂ : Comp β} {f₁ : α → Comp α'} {f₂ : β → Comp β'}
    (hc : Follows R c₁ c₂) (hf : ∀ a b, c₁ = Pure.pure a → R a b → Follows Q (f₁ a) (f₂ b)) :
    Follows Q (c₁ >>= f₁) (c₂ >>= f₂) := by
  intro r hr
  cases h₁ : (c₁ : Option (Except Fault α)) with
  | none =>
    rw [h₁] at hr
    cases hr
  | some x =>
    obtain ⟨y, h₂, hxy⟩ := hc x h₁
    rw [h₁] at hr
    rw [h₂]
    cases x with
    | error e =>
      cases y with
      | ok b => exact hxy.elim
      | error e' =>
        obtain rfl : e = e' := hxy
        obtain rfl := Option.some.inj hr
        exact ⟨_, rfl, rfl⟩
    | ok a =>
      cases y with
      | error e' => exact hxy.elim
      | ok b => exact hf a b h₁ hxy r hr

theorem bind {c₁ : Comp α} {c₂ : Comp β} {f₁ : α → Comp α'} {f₂ : β → Comp β'}
    (hc : Follows R c₁ c₂) (hf : ∀ a b, R a b → Follows Q (f₁ a) (f₂ b)) :
    Follows Q (c₁ >>= f₁) (c₂ >>= f₂) := hc.bind_of_eq fun a b _ => hf a b

theorem mono {R' : α → β → Prop} {c₁ : Comp α} {c₂ : Comp β} (hc : Follows R c₁ c₂)
    (h : ∀ a b, R a b → R' a b) : Follows R' c₁ c₂ := by
  intro r hr
  obtain ⟨r', hr', hrel⟩ := hc r hr
  refine ⟨r', hr', ?_⟩
  cases r with
  | ok a =>
    cases r' with
    | ok b => exact h a b hrel
    | error e => exact hrel
  | error e =>
    cases r' with
    | ok b => exact hrel
    | error e' => exact hrel

theorem map {c₁ : Comp α} {c₂ : Comp β} {f₁ : α → α'} {f₂ : β → β'} (hc : Follows R c₁ c₂)
    (hf : ∀ a b, R a b → Q (f₁ a) (f₂ b)) : Follows Q (f₁ <$> c₁) (f₂ <$> c₂) := by
  rw [map_eq_pure_bind, map_eq_pure_bind]
  exact hc.bind fun a b hab => pure (hf a b hab)

/-- A computation that both sides make. -/
theorem refl (c : Comp α) : Follows (fun a b => a = b) c c := by
  intro r hr
  refine ⟨r, hr, ?_⟩
  cases r <;> rfl

/-- What two rounds make of states that are related. -/
def RoundRel {σ₁ σ₂ : Type} (I : σ₁ → σ₂ → Prop) (R : α → β → Prop) : σ₁ ⊕ α → σ₂ ⊕ β → Prop
  | .inl s, .inl s' => I s s'
  | .inr a, .inr b => R a b
  | _, _ => False

/-- Two loops in lockstep. The induction is on the approximations of the first loop. -/
theorem loop {σ₁ σ₂ : Type} {body₁ : σ₁ → Comp (σ₁ ⊕ α)} {body₂ : σ₂ → Comp (σ₂ ⊕ β)}
    (I : σ₁ → σ₂ → Prop) (hbody : ∀ s s', I s s' → Follows (RoundRel I R) (body₁ s) (body₂ s'))
    {s : σ₁} {s' : σ₂} (hs : I s s') : Follows R (Lib.loop body₁ s) (Lib.loop body₂ s') := by
  suffices h : ∀ (s : σ₁) (r : Except Fault α), loopOption body₁ s = some r →
      ∀ s', I s s' → ∃ r' : Except Fault β, (Lib.loop body₂ s' : Option _) = some r' ∧
        OutcomeRel R r r' by
    intro r hr
    rw [loop_eq_loopOption] at hr
    exact h s r hr s' hs
  refine loopOption.partial_correctness body₁ (fun s r => ∀ s', I s s' → ∃ r' : Except Fault β,
    (Lib.loop body₂ s' : Option _) = some r' ∧ OutcomeRel R r r') ?_
  intro f ih s r hr s' hs'
  rw [Lib.loop]
  refine Follows.bind (Q := R) (hbody s s' hs') (fun x y hxy => ?_) r ((loopRound_eq body₁ f s).trans hr)
  cases x with
  | inl t =>
    cases y with
    | inl t' => exact fun r hr => ih t r hr t' hxy
    | inr b => exact hxy.elim
  | inr a =>
    cases y with
    | inl t' => exact hxy.elim
    | inr b => exact pure hxy

/-- What a computation returns is what the one that follows it returns. -/
theorem eq_pure {c₁ : Comp α} {c₂ : Comp β} (hc : Follows R c₁ c₂) {a : α} (h : c₁ = Pure.pure a) :
    ∃ b, c₂ = Pure.pure b ∧ R a b := by
  obtain ⟨r, hr, hrel⟩ := hc (.ok a) h
  cases r with
  | ok b => exact ⟨b, hr, hrel⟩
  | error e => exact hrel.elim

end Follows

/-- The computations do the same: both return, both fault in the same way, or both diverge. -/
def Agree (R : α → β → Prop) (c₁ : Comp α) (c₂ : Comp β) : Prop :=
  Follows R c₁ c₂ ∧ Follows (fun b a => R a b) c₂ c₁

/-- A sequence that returns is two computations that return. -/
theorem of_bind_eq_pure {c : Comp α} {f : α → Comp β} {b : β} (h : c >>= f = pure b) :
    ∃ a, c = pure a ∧ f a = pure b := by
  cases hc : (c : Option (Except Fault α)) with
  | none =>
    rw [hc] at h
    cases h
  | some r =>
    cases r with
    | error e =>
      rw [hc] at h
      cases h
    | ok a =>
      rw [hc] at h
      exact ⟨a, rfl, h⟩

end Libjeffpc.Lib
