import Libjeffpc.Int.ByteOrder

/-!
# What the byte order conversions do

Whatever the processor, the memory image of a converted number is its big-endian representation, and
an unaligned load reads the number that the bytes stand for.
-/

namespace Libjeffpc.Int

open Lib

/-! ## Byte swapping -/

theorem bswap64_byte (x : UInt64) {k : Nat} (hk : k < 8) (i : Nat) (hi : i < 8) :
    (bswap64 x).toBitVec.getLsbD (8 * k + i) = x.toBitVec.getLsbD (8 * (7 - k) + i) := by
  simp only [bswap64]
  interval_cases k <;> interval_cases i <;> simp

theorem bswap32_byte (x : UInt32) {k : Nat} (hk : k < 4) (i : Nat) (hi : i < 8) :
    (bswap32 x).toBitVec.getLsbD (8 * k + i) = x.toBitVec.getLsbD (8 * (3 - k) + i) := by
  simp only [bswap32]
  interval_cases k <;> interval_cases i <;> simp

theorem bswap16_byte (x : UInt16) {k : Nat} (hk : k < 2) (i : Nat) (hi : i < 8) :
    (bswap16 x).toBitVec.getLsbD (8 * k + i) = x.toBitVec.getLsbD (8 * (1 - k) + i) := by
  simp only [bswap16]
  interval_cases k <;> interval_cases i <;> simp

/-- Two numbers with the same bits in two of their bytes have the same bytes there. -/
theorem ofNat_div_congr {v w : Nat} {x : BitVec v} {y : BitVec w} {j k : Nat}
    (h : ∀ i < 8, x.getLsbD (j + i) = y.getLsbD (k + i)) :
    UInt8.ofNat (x.toNat / 2 ^ j) = UInt8.ofNat (y.toNat / 2 ^ k) := by
  refine UInt8.toNat_inj.mp (Nat.eq_of_testBit_eq fun i => ?_)
  rw [UInt8.toNat_ofNat', UInt8.toNat_ofNat', Nat.testBit_mod_two_pow, Nat.testBit_mod_two_pow,
    Nat.testBit_div_two_pow, Nat.testBit_div_two_pow]
  by_cases hi : i < 8
  · have hbit := h i hi
    rw [BitVec.getLsbD, BitVec.getLsbD, Nat.add_comm j, Nat.add_comm k] at hbit
    rw [hbit]
  · simp [hi]

/-- A number whose bytes are those of another one the other way around. -/
theorem reverse_beBytes {w m n : Nat} (h : ∀ k < w, UInt8.ofNat (m / 2 ^ (8 * k))
    = UInt8.ofNat (n / 2 ^ (8 * (w - 1 - k)))) : (beBytes w m).reverse = beBytes w n := by
  refine List.ext_getElem (by simp) fun i h1 h2 => ?_
  have hi : i < w := by simpa using h2
  rw [List.getElem_reverse, getElem_beBytes, getElem_beBytes, length_beBytes]
  have hk := h i hi
  rwa [show w - 1 - (w - 1 - i) = i by omega]

theorem store_cpu64ToBe (e : Endian) (x : UInt64) :
    e.store 8 (cpu64ToBe e x).toNat = beBytes 8 x.toNat := by
  cases e with
  | big => rfl
  | little => exact reverse_beBytes fun k hk => ofNat_div_congr (bswap64_byte x hk)

theorem store_cpu32ToBe (e : Endian) (x : UInt32) :
    e.store 4 (cpu32ToBe e x).toNat = beBytes 4 x.toNat := by
  cases e with
  | big => rfl
  | little => exact reverse_beBytes fun k hk => ofNat_div_congr (bswap32_byte x hk)

theorem store_cpu16ToBe (e : Endian) (x : UInt16) :
    e.store 2 (cpu16ToBe e x).toNat = beBytes 2 x.toNat := by
  cases e with
  | big => rfl
  | little => exact reverse_beBytes fun k hk => ofNat_div_congr (bswap16_byte x hk)

theorem store_cpu8ToBe (e : Endian) (x : UInt8) :
    e.store 1 (cpu8ToBe e x).toNat = beBytes 1 x.toNat := by
  cases e with
  | big => rfl
  | little =>
    have hx : bswap8 x = x := by
      refine UInt8.toNat_inj.mp ?_
      rw [bswap8, UInt8.toNat_and]
      exact Nat.and_two_pow_sub_one_of_lt_two_pow (UInt8.toNat_lt x)
    simp [Endian.store, cpu8ToBe, beBytes, hx]

/-! ## Unaligned loads -/

theorem shiftLeft_or {a b n : Nat} (h : b < 2 ^ n) : a <<< n ||| b = a * 2 ^ n + b := by
  rw [← Nat.shiftLeft_add_eq_or_of_lt h, Nat.shiftLeft_eq]

/-- A byte that is shifted inside of a word loses no bits. -/
theorem shiftLeft_mod {b w n : Nat} (hb : b < 2 ^ 8) (hn : n + 8 ≤ w) :
    b <<< n % 2 ^ w = b <<< n := by
  refine Nat.mod_eq_of_lt ?_
  rw [Nat.shiftLeft_eq]
  calc b * 2 ^ n < 2 ^ 8 * 2 ^ n := Nat.mul_lt_mul_of_pos_right hb (Nat.two_pow_pos n)
    _ = 2 ^ (n + 8) := by rw [← Nat.pow_add, Nat.add_comm]
    _ ≤ 2 ^ w := Nat.pow_le_pow_right (by omega) hn

theorem be16ToCpuUnaligned_toNat (p : Fin 2 → UInt8) :
    (be16ToCpuUnaligned p).toNat = beValue [p 0, p 1] := by
  have h0 := UInt8.toNat_lt (p 0)
  have h1 := UInt8.toNat_lt (p 1)
  simp only [be16ToCpuUnaligned, UInt16.toNat_or, UInt16.toNat_shiftLeft, UInt8.toNat_toUInt16,
    UInt16.reduceToNat, Nat.reduceMod]
  rw [shiftLeft_mod h0 (by omega), shiftLeft_or h1]
  simp only [beValue, List.foldl]
  omega

theorem be32ToCpuUnaligned_toNat (p : Fin 4 → UInt8) :
    (be32ToCpuUnaligned p).toNat = beValue [p 0, p 1, p 2, p 3] := by
  have h0 := UInt8.toNat_lt (p 0)
  have h1 := UInt8.toNat_lt (p 1)
  have h2 := UInt8.toNat_lt (p 2)
  have h3 := UInt8.toNat_lt (p 3)
  simp only [be32ToCpuUnaligned, UInt32.toNat_or, UInt32.toNat_shiftLeft, UInt8.toNat_toUInt32,
    UInt32.reduceToNat, Nat.reduceMod, Nat.or_assoc]
  rw [shiftLeft_mod h0 (by omega), shiftLeft_mod h1 (by omega), shiftLeft_mod h2 (by omega),
    shiftLeft_or h3, shiftLeft_or (a := (p 1).toNat) (by omega),
    shiftLeft_or (a := (p 0).toNat) (by omega)]
  simp only [beValue, List.foldl]
  omega

theorem be64ToCpuUnaligned_toNat (p : Fin 8 → UInt8) :
    (be64ToCpuUnaligned p).toNat = beValue [p 0, p 1, p 2, p 3, p 4, p 5, p 6, p 7] := by
  have h0 := UInt8.toNat_lt (p 0)
  have h1 := UInt8.toNat_lt (p 1)
  have h2 := UInt8.toNat_lt (p 2)
  have h3 := UInt8.toNat_lt (p 3)
  have h4 := UInt8.toNat_lt (p 4)
  have h5 := UInt8.toNat_lt (p 5)
  have h6 := UInt8.toNat_lt (p 6)
  have h7 := UInt8.toNat_lt (p 7)
  simp only [be64ToCpuUnaligned, UInt64.toNat_or, UInt64.toNat_shiftLeft, UInt8.toNat_toUInt64,
    UInt64.reduceToNat, Nat.reduceMod, Nat.or_assoc]
  rw [shiftLeft_mod h0 (by omega), shiftLeft_mod h1 (by omega), shiftLeft_mod h2 (by omega),
    shiftLeft_mod h3 (by omega), shiftLeft_mod h4 (by omega), shiftLeft_mod h5 (by omega),
    shiftLeft_mod h6 (by omega), shiftLeft_or h7,
    shiftLeft_or (a := (p 5).toNat) (by omega), shiftLeft_or (a := (p 4).toNat) (by omega),
    shiftLeft_or (a := (p 3).toNat) (by omega), shiftLeft_or (a := (p 2).toNat) (by omega),
    shiftLeft_or (a := (p 1).toNat) (by omega), shiftLeft_or (a := (p 0).toNat) (by omega)]
  simp only [beValue, List.foldl]
  omega

end Libjeffpc.Int
