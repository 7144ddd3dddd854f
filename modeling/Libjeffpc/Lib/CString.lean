import Mathlib.Data.List.TakeWhile
import Libjeffpc.Lib.Order

/-!
# C strings

A C string is the sequence of its bytes before the terminating NUL, so no byte of it is 0. `strcmp`
compares two strings as unsigned bytes.
-/

namespace Libjeffpc.Lib

abbrev Bytes := List UInt8

/-- The bytes of a C string. -/
abbrev CStr := { b : Bytes // (0 : UInt8) ∉ b }

/-- The empty string. -/
def CStr.empty : CStr := ⟨[], by simp⟩

/-- What a C function sees of a byte string: the bytes before the first NUL. -/
def cstr (b : Bytes) : CStr :=
  ⟨b.takeWhile (· ≠ 0), fun h => by simpa using List.mem_takeWhile_imp h⟩

theorem cstr_val (s : CStr) : cstr s.1 = s := by
  refine Subtype.ext (List.takeWhile_eq_self_iff.mpr fun x hx => ?_)
  simpa using fun h : x = 0 => s.2 (h ▸ hx)

/-- Nothing after a NUL is seen. -/
theorem cstr_append_nul (b rest : Bytes) : cstr (b ++ 0 :: rest) = cstr b := by
  refine Subtype.ext ?_
  show (b ++ 0 :: rest).takeWhile (· ≠ 0) = b.takeWhile (· ≠ 0)
  rw [List.takeWhile_append]
  split_ifs with hlen
  · have heq := (List.takeWhile_prefix (· ≠ (0 : UInt8))).eq_of_length hlen
    rw [heq, List.takeWhile_cons_of_neg (by simp), List.append_nil]
  · rfl

/-- The difference of the first bytes that differ; a string that ends has the byte 0 there. -/
def strcmpBytes : Bytes → Bytes → Int
  | [], [] => 0
  | [], b :: _ => -(b.toNat : Int)
  | a :: _, [] => a.toNat
  | a :: as, b :: bs => if a = b then strcmpBytes as bs else (a.toNat : Int) - b.toNat

def strcmp (a b : CStr) : Int := strcmpBytes a.1 b.1

theorem strcmpBytes_neg (a b : Bytes) : strcmpBytes a b = -strcmpBytes b a := by
  induction a generalizing b with
  | nil => cases b <;> simp [strcmpBytes]
  | cons x a ih =>
    cases b with
    | nil => simp [strcmpBytes]
    | cons y b =>
      by_cases h : x = y
      · subst h
        simpa [strcmpBytes] using ih b
      · simp [strcmpBytes, h, Ne.symm h]

theorem toNat_pos {x : UInt8} (h : x ≠ 0) : 0 < x.toNat := by
  have h0 : x.toNat ≠ 0 := fun h0 => h (UInt8.toNat_inj.mp h0)
  omega

theorem strcmpBytes_trans {a b c : Bytes} (hb : (0 : UInt8) ∉ b) (ha : (0 : UInt8) ∉ a)
    (h1 : strcmpBytes a b ≤ 0) (h2 : strcmpBytes b c ≤ 0) : strcmpBytes a c ≤ 0 := by
  induction a generalizing b c with
  | nil => cases c <;> simp [strcmpBytes]
  | cons x a ih =>
    rw [List.mem_cons, not_or] at ha
    cases b with
    | nil =>
      have := toNat_pos (Ne.symm ha.1)
      simp only [strcmpBytes] at h1
      omega
    | cons y b =>
      rw [List.mem_cons, not_or] at hb
      cases c with
      | nil =>
        have := toNat_pos (Ne.symm hb.1)
        simp only [strcmpBytes] at h2
        omega
      | cons z c =>
        have hxy : x ≠ y → x.toNat ≠ y.toNat := fun h he => h (UInt8.toNat_inj.mp he)
        have hyz : y ≠ z → y.toNat ≠ z.toNat := fun h he => h (UInt8.toNat_inj.mp he)
        simp only [strcmpBytes] at h1 h2 ⊢
        by_cases e1 : x = y
        · subst e1
          by_cases e2 : x = z
          · subst e2
            simp only [if_true] at h1 h2 ⊢
            exact ih hb.2 ha.2 h1 h2
          · rw [if_neg e2] at h2 ⊢
            exact h2
        · rw [if_neg e1] at h1
          by_cases e2 : y = z
          · subst e2
            rw [if_neg e1]
            exact h1
          · rw [if_neg e2] at h2
            have e3 : x ≠ z := by
              rintro rfl
              have := hxy e1
              omega
            rw [if_neg e3]
            omega

theorem strcmp_isCmp : IsCmp strcmp where
  swap a b := by
    rw [strcmp, strcmp, strcmpBytes_neg a.1 b.1]
    omega
  trans a b _ := strcmpBytes_trans b.2 a.2

/-- Strings that compare equal are equal. -/
theorem strcmp_eq_zero {a b : CStr} : strcmp a b = 0 ↔ a = b := by
  constructor
  · intro h
    obtain ⟨a, ha⟩ := a
    obtain ⟨b, hb⟩ := b
    refine Subtype.ext ?_
    show a = b
    have h : strcmpBytes a b = 0 := h
    clear * - h ha hb
    induction a generalizing b with
    | nil =>
      cases b with
      | nil => rfl
      | cons y b =>
        rw [List.mem_cons, not_or] at hb
        have := toNat_pos (Ne.symm hb.1)
        simp only [strcmpBytes] at h
        omega
    | cons x a ih =>
      rw [List.mem_cons, not_or] at ha
      cases b with
      | nil =>
        have := toNat_pos (Ne.symm ha.1)
        simp only [strcmpBytes] at h
        omega
      | cons y b =>
        rw [List.mem_cons, not_or] at hb
        by_cases e : x = y
        · subst e
          simp only [strcmpBytes, if_true] at h
          rw [ih ha.2 b hb.2 h]
        · have hxy : x.toNat ≠ y.toNat := fun he => e (UInt8.toNat_inj.mp he)
          simp only [strcmpBytes, if_neg e] at h
          omega
  · rintro rfl
    exact strcmp_isCmp.refl a

end Libjeffpc.Lib
