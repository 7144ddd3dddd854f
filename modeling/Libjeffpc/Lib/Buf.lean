import Libjeffpc.Lib.Comp

/-!
# Buffers

An array in memory is the list of its elements. An access outside of it is a fault, so that a function
that returns has stayed within its arrays. A buffer that is filled from its start is a list of what is
written and a list of what is free.
-/

namespace Libjeffpc.Lib

variable {α : Type}

/-- `buf[i]`. -/
def fetch (buf : List α) (i : Nat) : Comp α :=
  match buf[i]? with
  | some a => pure a
  | none => throw .bounds

/-- `buf[i] = a`. -/
def store (buf : List α) (i : Nat) (a : α) : Comp (List α) :=
  if i < buf.length then pure (buf.set i a) else throw .bounds

/-- The `len` elements from `buf + i` on. -/
def slice (buf : List α) (i len : Nat) : Comp (List α) :=
  if i + len ≤ buf.length then pure ((buf.drop i).take len) else throw .bounds

theorem fetch_eq {buf : List α} {i : Nat} {a : α} (h : buf[i]? = some a) : fetch buf i = pure a := by
  rw [fetch, h]

/-- An element of what follows the start of a buffer. -/
theorem fetch_add {buf rest : List α} {a : α} {i k : Nat} (hi : i = buf.length + k)
    (ha : rest[k]? = some a) : fetch (buf ++ rest) i = pure a := by
  refine fetch_eq ?_
  rw [hi, List.getElem?_append_right (Nat.le_add_right _ _), Nat.add_sub_cancel_left, ha]

theorem store_add {buf rest : List α} {b : α} {i k : Nat} (hi : i = buf.length + k)
    (hk : k < rest.length) : store (buf ++ rest) i b = pure (buf ++ rest.set k b) := by
  rw [store, if_pos (by simp [hi, hk]), hi, List.set_append_right _ _ (Nat.le_add_right _ _),
    Nat.add_sub_cancel_left]

theorem fetch_append {buf rest : List α} {a : α} {i : Nat} (h : i = buf.length) :
    fetch (buf ++ a :: rest) i = pure a :=
  fetch_add (k := 0) h rfl

/-- The next element of a buffer is written. -/
theorem store_append {buf rest : List α} {a b : α} {i : Nat} (h : i = buf.length) :
    store (buf ++ a :: rest) i b = pure (buf ++ b :: rest) :=
  store_add (k := 0) h (Nat.succ_pos _)

theorem slice_append {pre mid post : List α} {i len : Nat} (hi : i = pre.length) (hlen : len = mid.length) :
    slice (pre ++ (mid ++ post)) i len = pure mid := by
  rw [slice, if_pos (by simp [hi, hlen]), hi, hlen, List.drop_left, List.take_left]

/-! ## The first elements -/

theorem exists_two {l : List α} (h : 2 ≤ l.length) : ∃ x y rest, l = x :: y :: rest := by
  match l with
  | x :: y :: rest => exact ⟨x, y, rest, rfl⟩
  | [] => simp at h
  | [x] => simp at h

theorem exists_three {l : List α} (h : 3 ≤ l.length) : ∃ x y z rest, l = x :: y :: z :: rest := by
  match l with
  | [] => simp at h
  | x :: l =>
    obtain ⟨y, z, rest, rfl⟩ := exists_two (Nat.le_of_succ_le_succ h)
    exact ⟨x, y, z, rest, rfl⟩

theorem exists_four {l : List α} (h : 4 ≤ l.length) : ∃ w x y z rest, l = w :: x :: y :: z :: rest := by
  match l with
  | [] => simp at h
  | w :: l =>
    obtain ⟨x, y, z, rest, rfl⟩ := exists_three (Nat.le_of_succ_le_succ h)
    exact ⟨w, x, y, z, rest, rfl⟩

end Libjeffpc.Lib
