import Libjeffpc.Sexpr.Proofs.ParserProofs

/-!
# What the reader accepts

The scanner returns 0 for the end of the input, for an illegal character and for a string that does not end.
The parser cannot tell them from each other, and it gives up where its stack is full.
-/

namespace Libjeffpc.SexprText

open Lib Scanner

variable {str s : Bytes} {ts : List Token} {v : Val} {m : Mode} {size : Nat → ℕ+}

/-! ## The input -/

/-- How much of an input is read. -/
def readLength (n : Nat) : Nat := if n % 2 ^ 32 < 2 ^ 31 then n % 2 ^ 32 else 0

theorem toInt_ofNat (n : Nat) :
    (Int32.ofNat n).toInt = if n % 2 ^ 32 < 2 ^ 31 then ((n % 2 ^ 32 : Nat) : Int) else ((n % 2 ^ 32 : Nat) : Int) - 2 ^ 32 := by
  rw [Int32.toInt_ofNat', Int.bmod_def]
  simp only [Int32.size]
  split_ifs <;> omega

theorem inputProc_from (size : Nat → ℕ+) (input : Bytes) (n pos : Nat) (hn : readLength input.length = pos + n) :
    inputProc size input pos = (input.drop pos).take n := by
  have hle : readLength input.length ≤ input.length := by
    rw [readLength]
    split_ifs
    · exact Nat.mod_le _ _
    · exact Nat.zero_le _
  have hnum : (Int32.ofNat (input.length - pos)).toInt = n ∨
      n = 0 ∧ (Int32.ofNat (input.length - pos)).toInt ≤ 0 := by
    rw [toInt_ofNat]
    rw [readLength] at hn
    split_ifs at hn ⊢ <;> omega
  induction n using Nat.strong_induction_on generalizing pos with
  | _ n ih =>
    rw [inputProc]
    by_cases hzero : n = 0
    · subst hzero
      have hstop : (Int32.ofNat (input.length - pos)).toInt ≤ 0 := by omega
      rw [dif_pos hstop, List.take_zero]
    · obtain hnum : (Int32.ofNat (input.length - pos)).toInt = n := by omega
      have hgo : ¬ (Int32.ofNat (input.length - pos)).toInt ≤ 0 := by omega
      have hsize := (size pos).pos
      rw [dif_neg hgo]
      simp only [hnum, Int.toNat_natCast]
      generalize hk : min n (size pos : Nat) = k
      have hpos : 0 < k := by omega
      have hkn : k ≤ n := by omega
      have hnext : (Int32.ofNat (input.length - (pos + k))).toInt = (n - k : Nat) ∨
          n - k = 0 ∧ (Int32.ofNat (input.length - (pos + k))).toInt ≤ 0 := by
        rw [toInt_ofNat] at hnum ⊢
        rw [readLength] at hn hle
        split_ifs at hn hle hnum ⊢ <;> omega
      rw [ih (n - k) (by omega) (pos + k) (by omega) hnext, ← List.drop_drop]
      have hsplit : (input.drop pos).take n = (input.drop pos).take (k + (n - k)) := by
        rw [Nat.add_sub_cancel' hkn]
      rw [hsplit, List.take_add]

theorem inputProc_eq (size : Nat → ℕ+) (str : Bytes) : inputProc size str 0 = str.take (readLength str.length) := by
  rw [inputProc_from size str (readLength str.length) 0 (Nat.zero_add _).symm, List.drop_zero]

theorem inputProc_short (size : Nat → ℕ+) (hlen : str.length < 2 ^ 31) : inputProc size str 0 = str := by
  have hmod : str.length % 2 ^ 32 = str.length := Nat.mod_eq_of_lt (by omega)
  rw [inputProc_eq, readLength, hmod, if_pos hlen, List.take_length]

/-! ## The end of a scan -/

theorem sexprParse_iff : sexprParse size str = .ok v ↔
    Parses (lexer.scan .initial (inputProc size str 0)).1 v ∧
      (lexer.scan .initial (inputProc size str 0)).2 ≠ .error := by
  rw [sexprParse]
  rcases lexer.scan .initial (inputProc size str 0) with ⟨ts, r⟩
  cases r with
  | error => simp
  | _ =>
    rw [← sexprReaderParse_iff]
    rcases hread : sexprReaderParse ts with _ | w <;> simp [hread]

theorem step_end (buf : Bytes) : lexer.step (.string buf) [] = .stop .unterminated := rfl

/-! ## The language -/

theorem Splits.scan (h : Splits str ts) : lexer.scan .initial str = (ts, .eof) := scan_eq_iff.mpr ⟨_, _, h, rfl⟩

theorem Cut.scan (h : Cut str ts) :
    (lexer.scan .initial str).1 = ts ∧ (lexer.scan .initial str).2 ≠ .eof ∧ (lexer.scan .initial str).2 ≠ .error := by
  obtain ⟨m, rest, hs, hstop⟩ := h
  rcases hstop with hstop | hstop
  · rw [scan_eq_iff.mpr ⟨m, rest, hs, hstop⟩]
    exact ⟨rfl, nofun, nofun⟩
  · rw [scan_eq_iff.mpr ⟨m, rest, hs, hstop⟩]
    exact ⟨rfl, nofun, nofun⟩

theorem step_lparen (s : Bytes) : lexer.step .initial (ch '(' :: s) = .token .lparen (.initial, s) := rfl

theorem step_rparen (s : Bytes) : lexer.step .initial (ch ')' :: s) = .token .rparen (.initial, s) := rfl

end Libjeffpc.SexprText
