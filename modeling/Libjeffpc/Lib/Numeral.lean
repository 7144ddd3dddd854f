import Mathlib.Data.Nat.Digits.Lemmas
import Libjeffpc.Lib.CString

/-!
# Numbers as text

The decimal and hexadecimal numerals that `printf` writes, as bytes, and the numbers that such bytes
stand for.
-/

namespace Libjeffpc.Lib

/-- The byte of a character. -/
def ch (c : Char) : UInt8 := .ofNat c.toNat

/-- The bytes of a text. -/
def text (cs : List Char) : Bytes := cs.map ch

def isDigit (c : UInt8) : Bool := ch '0' ≤ c && c ≤ ch '9'

def digit (d : Nat) : UInt8 := ch '0' + .ofNat d

def digitValue (c : UInt8) : Nat := (c - ch '0').toNat

/-- `%u`. -/
def decimal (n : Nat) : Bytes :=
  if n = 0 then [digit 0] else (Nat.digits 10 n).reverse.map digit

/-- The number that decimal digits stand for. -/
def decimalValue (b : Bytes) : Nat := Nat.ofDigits 10 (b.map digitValue).reverse

/-- An upper case hexadecimal digit. -/
def hexDigit (d : Nat) : UInt8 := if d < 10 then ch '0' + .ofNat d else ch 'A' + .ofNat (d - 10)

/-- A hexadecimal digit of either case. -/
def hexValue (c : UInt8) : Option Nat :=
  if isDigit c then some (digitValue c)
  else if ch 'A' ≤ c && c ≤ ch 'F' then some (10 + (c - ch 'A').toNat)
  else if ch 'a' ≤ c && c ≤ ch 'f' then some (10 + (c - ch 'a').toNat)
  else none

/-- `%04X`, of a number below 2^16. -/
def hex4 (n : Nat) : Bytes :=
  [hexDigit (n / 4096 % 16), hexDigit (n / 256 % 16), hexDigit (n / 16 % 16), hexDigit (n % 16)]

def hex4Value (a b c d : UInt8) : Option Nat := do
  return 4096 * (← hexValue a) + 256 * (← hexValue b) + 16 * (← hexValue c) + (← hexValue d)

theorem isDigit_digit {d : Nat} (h : d < 10) : isDigit (digit d) := by
  have hall : ∀ d : Fin 10, isDigit (digit d) := by decide
  exact hall ⟨d, h⟩

theorem digitValue_digit {d : Nat} (h : d < 10) : digitValue (digit d) = d := by
  have hall : ∀ d : Fin 10, digitValue (digit d) = d := by decide
  exact hall ⟨d, h⟩

theorem hexValue_hexDigit {d : Nat} (h : d < 16) : hexValue (hexDigit d) = some d := by
  have hall : ∀ d : Fin 16, hexValue (hexDigit d) = some d.1 := by decide
  exact hall ⟨d, h⟩

theorem hex4Value_hex4 {n : Nat} (h : n < 2 ^ 16) {a b c d : UInt8} (hn : hex4 n = [a, b, c, d]) :
    hex4Value a b c d = some n := by
  simp only [hex4, List.cons.injEq, and_true] at hn
  obtain ⟨rfl, rfl, rfl, rfl⟩ := hn
  simp only [hex4Value, hexValue_hexDigit (Nat.mod_lt _ (by decide : 0 < 16)), Option.pure_def,
    Option.bind_eq_bind, Option.bind_some, Option.some.injEq]
  omega

/-- The digits of a positive number. -/
theorem decimal_of_pos {n : Nat} (h : n ≠ 0) : decimal n = (Nat.digits 10 n).reverse.map digit :=
  if_neg h

theorem decimal_ne_nil (n : Nat) : decimal n ≠ [] := by
  by_cases h : n = 0
  · simp [decimal, h]
  · simp [decimal_of_pos h, Nat.digits_ne_nil_iff_ne_zero.mpr h]

theorem isDigit_decimal (n : Nat) : ∀ c ∈ decimal n, isDigit c := by
  intro c hc
  by_cases h : n = 0
  · rw [decimal, if_pos h, List.mem_singleton] at hc
    rw [hc]
    exact isDigit_digit (by decide)
  · rw [decimal_of_pos h] at hc
    obtain ⟨d, hd, rfl⟩ := List.mem_map.mp hc
    exact isDigit_digit (Nat.digits_lt_base (by decide) (List.mem_reverse.mp hd))

theorem decimalValue_decimal (n : Nat) : decimalValue (decimal n) = n := by
  by_cases h : n = 0
  · rw [decimal, if_pos h, h]
    rfl
  · have hmap : ((Nat.digits 10 n).map digit).map digitValue = Nat.digits 10 n := by
      have hid : ∀ d ∈ Nat.digits 10 n, (digitValue ∘ digit) d = id d := fun d hd =>
        digitValue_digit (Nat.digits_lt_base (by decide) hd)
      rw [List.map_map, List.map_congr_left hid, List.map_id]
    rw [decimalValue, decimal_of_pos h, List.map_reverse, List.map_reverse, List.reverse_reverse, hmap,
      Nat.ofDigits_digits]

/-- Only 0 starts with the digit 0. -/
theorem decimal_head {n : Nat} {b : Bytes} (h : decimal n = digit 0 :: b) : n = 0 ∧ b = [] := by
  by_cases hn : n = 0
  · rw [decimal, if_pos hn, List.cons.injEq] at h
    exact ⟨hn, h.2.symm⟩
  · exfalso
    have hne : Nat.digits 10 n ≠ [] := Nat.digits_ne_nil_iff_ne_zero.mpr hn
    have hlast := Nat.getLast_digit_ne_zero 10 hn
    have hlt : (Nat.digits 10 n).getLast hne < 10 :=
      Nat.digits_lt_base (by decide) (List.getLast_mem hne)
    have hrev : (Nat.digits 10 n).reverse =
        (Nat.digits 10 n).getLast hne :: (Nat.digits 10 n).dropLast.reverse := by
      conv_lhs => rw [← List.dropLast_append_getLast hne]
      simp
    rw [decimal_of_pos hn, hrev, List.map_cons, List.cons.injEq] at h
    have hval := congrArg digitValue h.1
    rw [digitValue_digit hlt, digitValue_digit (by decide)] at hval
    exact hlast hval

end Libjeffpc.Lib
