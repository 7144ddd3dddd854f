import Mathlib.Tactic
import Libjeffpc.Lib.Sizes

/-!
# Computations that may fault, and their loops

A C function is read as a computation that returns, faults (a NULL pointer is dereferenced, an
assertion fails, an index is out of bounds) or runs forever. `Comp α` is `Option (Except Fault α)`:
`none` is divergence. An unbounded `while` loop is `loop body`, the least fixed point of its body, so
a proof that a computation is equal to `pure r` is a proof that it terminates without a fault.
-/

namespace Libjeffpc.Lib

/-- What a computation does when it leaves the defined behaviour of the language. -/
inductive Fault where
  /-- A NULL pointer is dereferenced. -/
  | null
  /-- An `ASSERT` or a `VERIFY` fails, or `panic` is called. -/
  | assert
  /-- An access outside of an allocation. -/
  | bounds
  /-- An error code is used as a pointer. -/
  | code
  /-- A computation with a signed type overflows. -/
  | overflow
  deriving DecidableEq, Repr

/-- A computation: it returns, faults, or diverges (`none`). -/
abbrev Comp (α : Type) := ExceptT Fault Option α

theorem pure_inj {α : Type} {a b : α} (h : (pure a : Comp α) = pure b) : a = b := by
  injection h with h
  injection h

/-- What comes before a result returns. -/
theorem bind_eq_pure {α β : Type} {x : Comp α} {f : α → Comp β} {b : β} (h : x >>= f = pure b) :
    ∃ a, x = pure a ∧ f a = pure b := by
  rcases x with _ | _ | a
  · cases h
  · injection h with h
    cases h
  · exact ⟨a, rfl, h⟩

/-- Dereference a pointer. -/
def deref {α : Type} : Option α → Comp α
  | some a => pure a
  | none => throw .null

@[simp] theorem deref_some {α : Type} (a : α) : deref (some a) = pure a := rfl

/-- `ASSERT(c)`. -/
def assert (c : Bool) : Comp Unit := if c then pure () else throw .assert

@[simp] theorem assert_true : assert true = pure () := rfl

/-- A loop whose body either asks for another round (`inl`) or leaves the loop (`inr`). -/
-- Calls in the body of a least fixed point name the function by `apply`: the elaborated body then holds
-- the function alone, without a mark for the place of the call.
def loop {σ ρ : Type} (body : σ → Comp (σ ⊕ ρ)) (s : σ) : Comp ρ := do
  match ← body s with
  | .inl s' => (by apply loop : (σ → Comp (σ ⊕ ρ)) → σ → Comp ρ) body s'
  | .inr r => pure r
partial_fixpoint

/-- A round that leaves the loop ends it. -/
theorem loop_done {σ ρ : Type} {body : σ → Comp (σ ⊕ ρ)} {s : σ} {r : ρ}
    (h : body s = pure (.inr r)) : loop body s = pure r := by
  rw [loop, h, pure_bind]

/-- A round that asks for another one. -/
theorem loop_next {σ ρ : Type} {body : σ → Comp (σ ⊕ ρ)} {s s' : σ}
    (h : body s = pure (.inl s')) : loop body s = loop body s' := by
  rw [loop, h, pure_bind]

/-- A round that asks for another one after something else. -/
theorem loop_bind_next {σ ρ α : Type} {body : σ → Comp (σ ⊕ ρ)} {s : σ} {x : Comp α} {f : α → σ}
    (h : body s = x >>= fun a => pure (.inl (f a))) : loop body s = x >>= fun a => loop body (f a) := by
  rw [loop, h, bind_assoc]
  simp only [pure_bind]

/-- A round that leaves the loop after something else. -/
theorem loop_bind_done {σ ρ α : Type} {body : σ → Comp (σ ⊕ ρ)} {s : σ} {x : Comp α} {f : α → ρ}
    (h : body s = x >>= fun a => pure (.inr (f a))) : loop body s = x >>= fun a => pure (f a) := by
  rw [loop, h, bind_assoc]
  simp only [pure_bind]

/-- A round that faults. -/
theorem loop_fault {σ ρ : Type} {body : σ → Comp (σ ⊕ ρ)} {s : σ} {e : Fault}
    (h : body s = throw e) : loop body s = throw e := by
  rw [loop, h]
  rfl

end Libjeffpc.Lib
