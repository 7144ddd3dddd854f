import Libjeffpc.Errno
import Libjeffpc.Lib.Strtoull

/-!
# String to integer conversion (`int.h`)

`str2u64_full` and the functions of the other widths, which are generated by one macro.
-/

namespace Libjeffpc.Int

open Lib

/-- `STR_TO_INT`: the return value, and `*i`. -/
def strToInt (imax : Nat) (s : CStr) (base : Base) (terminator : UInt8) : Except Errno Unit × Nat :=
  if s.1.headD 0 = ch '-' then (.error .ERANGE, 0)
  else
    let (tmp, endptr, erange) := strtoull s.1 base
    if erange then (.error .ERANGE, 0)
    else if endptr = s.1 then (.error .EINVAL, 0)
    else if endptr.headD 0 ≠ terminator then (.error .EINVAL, 0)
    else if tmp > imax then (.error .ERANGE, 0)
    else (.ok (), tmp)

def str2u64Full := strToInt 0xffffffffffffffff

def str2u32Full := strToInt 0x00000000ffffffff

def str2u16Full := strToInt 0x000000000000ffff

def str2u8Full := strToInt 0x00000000000000ff

/-- `str2u64`: base 10, and the text ends at its NUL. -/
def str2u64 (s : CStr) : Except Errno Unit × Nat := str2u64Full s ten 0

inductive Width where
  | w8
  | w16
  | w32
  | w64

def Width.bits : Width → Nat
  | w8 => 8
  | w16 => 16
  | w32 => 32
  | w64 => 64

/-- The conversion to a width. -/
def Width.str2u : Width → CStr → Base → UInt8 → Except Errno Unit × Nat
  | w8 => str2u8Full
  | w16 => str2u16Full
  | w32 => str2u32Full
  | w64 => str2u64Full

/-! ## What a conversion should do -/

/-- Only a number without a sign that has `bits` bits is converted, and to itself. -/
def Converts (bits : Nat) (base : Base) (text : Bytes) (r : Except Errno Unit × Nat) : Prop :=
  (r.1 = .ok () → Denotes base text false r.2 ∧ r.2 < 2 ^ bits) ∧
  ∀ neg n, Denotes base text neg n → neg = true ∨ 2 ^ bits ≤ n → r.1 ≠ .ok ()

/-- A number before the terminator has a minus sign after white space and is small modulo 2^64, or the
terminator is also in what precedes the digits of a number that is small. -/
def Misread (bits : Nat) (base : Base) (terminator : UInt8) (s : Bytes) : Prop :=
  let p := scan base s
  let n := numeral base p.digits
  p.digits ≠ [] ∧ p.rest.headD 0 = terminator ∧
  ((p.space ≠ [] ∧ p.sign = [ch '-'] ∧ n < 2 ^ 64 ∧ (2 ^ 64 - n) % 2 ^ 64 < 2 ^ bits) ∨
  (p.sign ≠ [ch '-'] ∧ n < 2 ^ bits ∧
    (terminator ∈ p.space ++ p.sign ∨ terminator ∈ p.lead ∧ n ≠ 0)))

end Libjeffpc.Int
