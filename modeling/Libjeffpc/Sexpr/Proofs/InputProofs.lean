import Libjeffpc.Sexpr.Input
import Libjeffpc.Sexpr.Proofs.ReaderProofs

/-!
# How much of the input the reader is fed

A call delivers what is left of the first `readLength` bytes, or as much of it as there is room for.
-/

namespace Libjeffpc.SexprText

open Lib

variable {size : Nat → Int32} {str : Bytes}

theorem readLength_le (n : Nat) : readLength n ≤ n := by
  rw [readLength]
  split_ifs
  · exact Nat.mod_le _ _
  · exact Nat.zero_le _

theorem readLength_eq_iff {n : Nat} : readLength n = n ↔ n < 2 ^ 31 := by
  rw [readLength]
  split_ifs <;> omega

/-- The state after `p` bytes. -/
def ParserState.at (str : Bytes) (p : Nat) : ParserState := ⟨str, .ofNat str.length, .ofNat p⟩

/-- What is left, as an `int`. -/
theorem left_toInt (hlen : str.length < 2 ^ 64) {p : Nat} (hp : p ≤ readLength str.length) :
    let num : Int32 := (UInt64.ofNat str.length - UInt64.ofNat p).toUInt32.toInt32
    num.toInt = (readLength str.length - p : Nat) ∨ readLength str.length - p = 0 ∧ num.toInt ≤ 0 := by
  have hle := readLength_le str.length
  have hdiff : UInt64.ofNat str.length - UInt64.ofNat p = UInt64.ofNat (str.length - p) :=
    (UInt64.ofNat_sub (by omega)).symm
  have hnum : (UInt64.ofNat (str.length - p)).toUInt32.toInt32 = Int32.ofNat (str.length - p) := by
    rw [UInt64.toUInt32_ofNat']
    rfl
  intro num
  have htoInt : num.toInt = (Int32.ofNat (str.length - p)).toInt := by rw [← hnum, ← hdiff]
  rw [htoInt, toInt_ofNat]
  rw [readLength] at hp hle ⊢
  split_ifs at hp hle ⊢ <;> omega

/-- One call: as many of the bytes that are left as there is room for. -/
theorem sexprReaderInputProc_at (hlen : str.length < 2 ^ 64) {p m : Nat} {room : Int32} (hroom : 0 < room.toInt)
    (hp : p ≤ readLength str.length) (hm : m = min (readLength str.length - p) room.toInt.toNat) :
    ∃ num : Int32, num.toInt = m ∧
      sexprReaderInputProc room (.at str p) = (num, (str.drop p).take m, .at str (p + m)) := by
  rw [sexprReaderInputProc, ParserState.at]
  have hnum := left_toInt hlen hp
  dsimp only at hnum ⊢
  generalize (UInt64.ofNat str.length - UInt64.ofNat p).toUInt32.toInt32 = num at hnum ⊢
  have hle := readLength_le str.length
  have hpos : (UInt64.ofNat p).toNat = p := UInt64.toNat_ofNat_of_lt' (by simp only [UInt64.size]; omega)
  by_cases hstop : num ≤ 0
  · have hzero : num.toInt ≤ 0 := Int32.le_iff_toInt_le.mp hstop
    obtain rfl : m = 0 := by omega
    refine ⟨0, rfl, ?_⟩
    rw [if_pos hstop, List.take_zero]
    rfl
  · have hgo : 0 < num.toInt := by
      have := mt Int32.le_iff_toInt_le.mpr hstop
      rw [Int32.toInt_zero] at this
      omega
    have hmin : (if room < num then room else num).toInt = m := by
      split_ifs with hlt
      · have := Int32.lt_iff_toInt_lt.mp hlt
        omega
      · have := mt Int32.lt_iff_toInt_lt.mpr hlt
        omega
    refine ⟨_, hmin, ?_⟩
    rw [if_neg hstop, hmin, hpos, Int.toNat_natCast, ParserState.at, UInt64.ofNat_add]
    congr 4
    rw [UInt64.ofInt]
    congr 1
    omega

/-! ## All calls -/

/-- How far the calls before call `k` get. -/
def reached (size : Nat → Int32) (str : Bytes) : Nat → Nat
  | 0 => 0
  | k + 1 => reached size str k + min (readLength str.length - reached size str k) (size k).toInt.toNat

theorem reached_le (k : Nat) : reached size str k ≤ readLength str.length := by
  induction k with
  | zero => exact Nat.zero_le _
  | succ k ih =>
    rw [reached]
    omega

section Calls

variable (hsize : ∀ k, 0 < (size k).toInt) (hlen : str.length < 2 ^ 64)

include hsize

theorem le_reached (k : Nat) : min k (readLength str.length) ≤ reached size str k := by
  induction k with
  | zero => exact Nat.zero_le _
  | succ k ih =>
    have hk := hsize k
    rw [reached]
    omega

include hlen

theorem stateBefore_eq (k : Nat) : stateBefore size str k = .at str (reached size str k) := by
  induction k with
  | zero => rfl
  | succ k ih =>
    obtain ⟨num, -, hcall⟩ := sexprReaderInputProc_at hlen (hsize k) (reached_le k) rfl
    rw [stateBefore, ih, hcall]
    rfl

theorem call_spec (k : Nat) : ∃ m, reached size str (k + 1) = reached size str k + m ∧
    (returned size str k).toInt = m ∧ chunk size str k = (str.drop (reached size str k)).take m ∧
    m = min (readLength str.length - reached size str k) (size k).toInt.toNat := by
  obtain ⟨num, hnum, hcall⟩ := sexprReaderInputProc_at hlen (hsize k) (reached_le k) rfl
  refine ⟨_, rfl, ?_, ?_, rfl⟩
  · rw [returned, stateBefore_eq hsize hlen, hcall]
    exact hnum
  · rw [chunk, stateBefore_eq hsize hlen, hcall]

/-- The chunks of the first calls, one after the other. -/
theorem flatMap_chunk (k : Nat) : (List.range k).flatMap (chunk size str) = str.take (reached size str k) := by
  induction k with
  | zero => rfl
  | succ k ih =>
    obtain ⟨m, hnext, -, hchunk, -⟩ := call_spec hsize hlen k
    rw [List.range_succ, List.flatMap_append, ih, List.flatMap_singleton, hchunk, hnext, List.take_add]

theorem returned_eq_zero {k : Nat} : returned size str k = 0 ↔ reached size str k = readLength str.length := by
  obtain ⟨m, -, hreturned, -, hm⟩ := call_spec hsize hlen k
  have hroom := hsize k
  have hle := @reached_le size str k
  rw [← Int32.toInt_inj, hreturned, Int32.toInt_zero]
  omega

theorem call_length (k : Nat) : ((chunk size str k).length : Int) = (returned size str k).toInt := by
  obtain ⟨m, -, hreturned, hchunk, hm⟩ := call_spec hsize hlen k
  have hle := @reached_le size str k
  have hread := readLength_le str.length
  rw [hreturned, hchunk, List.length_take, List.length_drop]
  omega

theorem feeds_read : ∃ n, (∀ k < n, returned size str k ≠ 0) ∧ returned size str n = 0 ∧
    (List.range n).flatMap (chunk size str) = str.take (readLength str.length) := by
  have hall : ∃ n, reached size str n = readLength str.length := by
    refine ⟨readLength str.length, ?_⟩
    have hle := @reached_le size str (readLength str.length)
    have hge := @le_reached size str hsize (readLength str.length)
    omega
  classical
  refine ⟨Nat.find hall, fun k hk => ?_, (returned_eq_zero hsize hlen).mpr (Nat.find_spec hall), ?_⟩
  · exact mt (returned_eq_zero hsize hlen).mp (Nat.find_min hall hk)
  · rw [flatMap_chunk hsize hlen, Nat.find_spec hall]

/-- The room that the calls have makes no difference to what `sexpr_parse` reads. -/
theorem feeds_inputProc (room : Nat → ℕ+) : ∃ n, (∀ k < n, returned size str k ≠ 0) ∧ returned size str n = 0 ∧
    (List.range n).flatMap (chunk size str) = inputProc room str 0 := by
  rw [inputProc_eq]
  exact feeds_read hsize hlen

theorem feeds_of_short (hshort : str.length < 2 ^ 31) : Feeds size str where
  whole := by
    obtain ⟨n, hbefore, hn, hall⟩ := feeds_read hsize hlen
    rw [readLength_eq_iff.mpr hshort, List.take_length] at hall
    exact ⟨n, hbefore, hn, hall⟩
  length_eq := call_length hsize hlen
  fits k := by
    obtain ⟨m, -, hreturned, -, hm⟩ := call_spec hsize hlen k
    have hroom := hsize k
    rw [call_length hsize hlen, hreturned]
    omega
  inside k := by
    have hle := @reached_le size str k
    have hread := readLength_le str.length
    rw [stateBefore_eq hsize hlen, ParserState.at, UInt64.le_iff_toNat_le,
      UInt64.toNat_ofNat_of_lt' (by simp only [UInt64.size]; omega),
      UInt64.toNat_ofNat_of_lt' (by simp only [UInt64.size]; omega)]
    omega

/-- A longer input is not read to its end. -/
theorem not_feeds (hlong : 2 ^ 31 ≤ str.length) : ¬Feeds size str := by
  rintro ⟨⟨n, hbefore, hn, hall⟩, -, -, -⟩
  rw [flatMap_chunk hsize hlen, (returned_eq_zero hsize hlen).mp hn] at hall
  have hlength := congrArg List.length hall
  have hread := mt readLength_eq_iff.mp (Nat.not_lt.mpr hlong)
  rw [List.length_take, Nat.min_eq_left (readLength_le _)] at hlength
  exact hread hlength

end Calls

/-- The whole input is read if its length is an `int`. -/
theorem sexpr_reader_input_iff (hsize : ∀ k, 0 < (size k).toInt) (hlen : str.length < 2 ^ 64) :
    Feeds size str ↔ str.length < 2 ^ 31 := by
  constructor
  · intro h
    by_contra hlong
    exact not_feeds hsize hlen (Nat.not_lt.mp hlong) h
  · exact feeds_of_short hsize hlen

/-- The lexer asks for three bytes, and then for two at a time. -/
theorem sexpr_reader_input_iff_chunks :
    Feeds (fun k => if k = 0 then 3 else 2) (text ['(', 'a', ' ', 'b', ' ', '.', ' ', 'c', ')']) := by
  have hsize : ∀ k : Nat, 0 < (if k = 0 then 3 else 2 : Int32).toInt := by
    intro k
    split_ifs <;> decide
  exact (sexpr_reader_input_iff hsize (by decide)).mpr (by decide)

/-- Nothing is read of 2 GiB. -/
theorem sexpr_reader_input_two_gib : ¬Feeds (fun _ => 8192) (List.replicate (2 ^ 31) (ch '(')) ∧
    returned (fun _ => 8192) (List.replicate (2 ^ 31) (ch '(')) 0 = 0 := by
  have hlength : (List.replicate (2 ^ 31) (ch '(')).length = 2 ^ 31 := List.length_replicate
  have hroom : ∀ k : Nat, 0 < ((fun _ => 8192 : Nat → Int32) k).toInt := fun _ => (by decide : 0 < (8192 : Int32).toInt)
  have hlen : (List.replicate (2 ^ 31) (ch '(')).length < 2 ^ 64 := by
    rw [hlength]
    decide
  refine ⟨not_feeds hroom hlen (by rw [hlength]), (returned_eq_zero hroom hlen).mpr ?_⟩
  rw [hlength]
  rfl

end Libjeffpc.SexprText
