import Mathlib.Tactic

/-!
# Bits of numbers

Parts of a number that do not overlap are put together with `|||` and taken apart with masks.
-/

namespace Libjeffpc.Lib

/-- Parts that do not overlap are added. -/
theorem or_add {k a b : Nat} (ha : a % 2 ^ k = 0) (hb : b < 2 ^ k) : a ||| b = a + b := by
  have hmul := Nat.div_add_mod a (2 ^ k)
  rw [ha, Nat.add_zero] at hmul
  rw [← hmul, Nat.two_pow_add_eq_or_of_lt hb]

theorem and_six (n : Nat) : n &&& 0x3f = n % 64 := Nat.and_two_pow_sub_one_eq_mod n 6

theorem and_eight (n : Nat) : n &&& 0xff = n % 256 := Nat.and_two_pow_sub_one_eq_mod n 8

theorem ofNat_congr {a b : Nat} (h : a % 256 = b % 256) : UInt8.ofNat a = .ofNat b := by
  refine UInt8.toNat_inj.mp ?_
  rw [UInt8.toNat_ofNat', UInt8.toNat_ofNat']
  exact h

/-- A property of bytes is checked for the 256 of them. -/
theorem forall_byte {P : UInt8 → Prop} (h : ∀ n : Fin 256, P (.ofNat n)) (c : UInt8) : P c := by
  have hc := h ⟨c.toNat, c.toNat_lt⟩
  rwa [UInt8.ofNat_toNat] at hc

end Libjeffpc.Lib
