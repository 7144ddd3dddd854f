import Mathlib.Tactic
import Libjeffpc.Lib.CString
import Libjeffpc.Lib.Sizes

/-!
# Numbers as bytes

`beBytes w n` is the number `n` in `w` bytes, most significant byte first, and `beValue` the number
that bytes stand for. How a processor stores a number is `Endian.store`.
-/

namespace Libjeffpc.Lib

/-- The number that bytes stand for, the most significant first. -/
def beValue (b : Bytes) : Nat := b.foldl (fun n x => 256 * n + x.toNat) 0

/-- The `w` low bytes of a number, the most significant first. -/
def beBytes : Nat → Nat → Bytes
  | 0, _ => []
  | w + 1, n => beBytes w (n / 256) ++ [UInt8.ofNat n]

@[simp] theorem length_beBytes (w n : Nat) : (beBytes w n).length = w := by
  induction w generalizing n with
  | zero => rfl
  | succ w ih => simp [beBytes, ih]

theorem getElem_beBytes (w n i : Nat) (h : i < (beBytes w n).length) :
    (beBytes w n)[i] = UInt8.ofNat (n / 2 ^ (8 * (w - 1 - i))) := by
  induction w generalizing n with
  | zero => simp [beBytes] at h
  | succ w ih =>
    have hi : i < w + 1 := by simpa using h
    simp only [beBytes]
    by_cases hw : i < w
    · rw [List.getElem_append_left (by simpa using hw), ih, Nat.div_div_eq_div_mul]
      rw [show 8 * (w + 1 - 1 - i) = 8 + 8 * (w - 1 - i) by omega, Nat.pow_add]
    · obtain rfl : i = w := by omega
      rw [List.getElem_append_right (by simp)]
      simp

@[simp] theorem beValue_nil : beValue [] = 0 := rfl

@[simp] theorem beValue_concat (b : Bytes) (x : UInt8) :
    beValue (b ++ [x]) = 256 * beValue b + x.toNat := by
  simp [beValue]

theorem beValue_beBytes {w n : Nat} (h : n < 256 ^ w) : beValue (beBytes w n) = n := by
  induction w generalizing n with
  | zero =>
    have hn : n = 0 := by simpa using h
    simp [beBytes, hn]
  | succ w ih =>
    have hdiv : n / 256 < 256 ^ w := by
      rw [pow_succ] at h
      omega
    rw [beBytes, beValue_concat, ih hdiv, UInt8.toNat_ofNat']
    omega

theorem beValue_lt (b : Bytes) : beValue b < 256 ^ b.length := by
  induction b using List.reverseRecOn with
  | nil => simp
  | append_singleton b x ih =>
    have hx : x.toNat < 256 := UInt8.toNat_lt x
    rw [beValue_concat, List.length_append, List.length_singleton, pow_succ]
    omega

/-- The byte order of a processor. -/
inductive Endian where
  | big
  | little
  deriving DecidableEq, Repr

/-- The `w` bytes a processor writes to memory for a number. -/
def Endian.store : Endian → Nat → Nat → Bytes
  | .big, w, n => beBytes w n
  | .little, w, n => (beBytes w n).reverse

end Libjeffpc.Lib
