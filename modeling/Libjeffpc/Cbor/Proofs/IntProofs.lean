import Libjeffpc.Cbor.Entry
import Libjeffpc.Cbor.Proofs.UnpackProofs

/-!
# Signed integers

`cbor_unpack_int` tries an unsigned integer first and a negative one second. The argument of a negative
integer is taken for its magnitude, so that every negative integer it returns is off by one.
-/

namespace Libjeffpc.Cbor

open Lib

/-! ## The two attempts -/

theorem unpackCborInt_mismatch {b : Buffer} (hb : b.Valid) (k : Nat) {expected type : MajorType}
    {bs t : Bytes} {n : Nat} (hr : b.rest = bs ++ t) (h : Head type bs n) (hne : expected ≠ type) :
    ∃ s, Returns (unpackCborInt expected) ⟨b, k⟩ (.error .EILSEQ) s ∧ s.allocs = k := by
  rw [← h.ofNat] at h
  obtain ⟨extra, arg, hlt, rfl, _⟩ := head_iff.mp h
  have hread := readCborType_cons hb k hr
  rw [majorType_typeByte type hlt] at hread
  refine ⟨⟨b.advance 1, k⟩, hread.bind ?_, rfl⟩
  simp only
  rw [if_pos hne]
  exact (Returns.throw _ _).bind_error

theorem withTmp_head {b : Buffer} (hb : b.Valid) (k : Nat) {type : MajorType} {bs t : Bytes} {n : Nat}
    (hr : b.rest = bs ++ t) (h : Head type bs n) :
    Returns (withTmp (unpackCborInt type)) ⟨b, k⟩ (.ok (.ofNat n)) ⟨b.advance bs.length, k⟩ := by
  have hle : bs.length ≤ b.rest.length := by
    rw [hr, List.length_append]
    omega
  rw [← h.ofNat] at h
  have hret := unpackCborInt_head hb.view k (by rw [hb.rest_view, hr]) h
  exact (onTmp_returns hret).bind ((returns_liftExcept _ _).bind
    ((syncBuffers_returns hb k (Nat.zero_add _) hle).bind (Returns.pure _ _)))

theorem withTmp_mismatch {b : Buffer} (hb : b.Valid) (k : Nat) {expected type : MajorType}
    {bs t : Bytes} {n : Nat} (hr : b.rest = bs ++ t) (h : Head type bs n) (hne : expected ≠ type) :
    Returns (withTmp (unpackCborInt expected)) ⟨b, k⟩ (.error .EILSEQ) ⟨b, k⟩ := by
  obtain ⟨s, hret, hs⟩ := unpackCborInt_mismatch hb.view k (by rw [hb.rest_view, hr]) h hne
  have htmp := onTmp_returns hret
  rw [hs] at htmp
  exact htmp.bind (returns_liftError _ _).bind_error

/-! ## Numbers -/

theorem toInt64_toInt {n : Nat} (h : n < 2 ^ 63) : (UInt64.ofNat n).toInt64.toInt = n := by
  have hsize : Int64.ofNat n = (UInt64.ofNat n).toInt64 := rfl
  rw [← hsize, Int64.toInt_ofNat_of_lt h]

/-- The value that is returned for the argument of a negative integer. -/
theorem magnitude_toInt {n : Nat} (h : n ≤ 2 ^ 63) :
    (~~~UInt64.ofNat n + 1).toInt64.toInt = -n := by
  have hneg : ~~~UInt64.ofNat n + 1 = -UInt64.ofNat n := by
    rw [UInt64.neg_eq_not_add]
  have hsize : (-UInt64.ofNat n).toInt64 = -Int64.ofNat n := rfl
  rw [hneg, hsize, Int64.toInt_neg_ofNat_of_le h]

/-! ## `cbor_unpack_int` -/

theorem cborUnpackInt_uint {b : Buffer} (hb : b.Valid) (k : Nat) {bs t : Bytes} {n : Nat}
    (hr : b.rest = bs ++ t) (h : Head .uint bs n) :
    (n < 2 ^ 63 → Returns cborUnpackInt ⟨b, k⟩ (.ok (UInt64.ofNat n).toInt64) ⟨b.advance bs.length, k⟩) ∧
      (2 ^ 63 ≤ n → Returns cborUnpackInt ⟨b, k⟩ (.error .EOVERFLOW) ⟨b, k⟩) := by
  have hle : bs.length ≤ b.rest.length := by
    rw [hr, List.length_append]
    omega
  have htmp := onTmp_returns (withTmp_head hb.view k (by rw [hb.rest_view, hr]) h)
  constructor
  · intro hlt
    refine htmp.bind ?_
    simp only [h.ofNat]
    rw [if_neg (by omega)]
    exact (syncBuffers_returns hb k (Nat.zero_add _) hle).bind (Returns.pure _ _)
  · intro hge
    refine htmp.bind ?_
    simp only [h.ofNat]
    rw [if_pos (by omega)]
    exact (Returns.throw _ _).bind_error

theorem cborUnpackInt_nint {b : Buffer} (hb : b.Valid) (k : Nat) {bs t : Bytes} {n : Nat}
    (hr : b.rest = bs ++ t) (h : Head .nint bs n) :
    (n ≤ 2 ^ 63 →
      Returns cborUnpackInt ⟨b, k⟩ (.ok (~~~UInt64.ofNat n + 1).toInt64) ⟨b.advance bs.length, k⟩) ∧
      (2 ^ 63 < n → Returns cborUnpackInt ⟨b, k⟩ (.error .EOVERFLOW) ⟨b, k⟩) := by
  have hle : bs.length ≤ b.rest.length := by
    rw [hr, List.length_append]
    omega
  have hrv : b.view.rest = bs ++ t := by rw [hb.rest_view, hr]
  have hfirst := onTmp_returns (withTmp_mismatch hb.view k hrv h (show MajorType.uint ≠ .nint by decide))
  have hsecond := onTmp_returns (withTmp_head hb.view k hrv h)
  constructor
  · intro hlt
    refine hfirst.bind (hsecond.bind ?_)
    simp only [h.ofNat]
    rw [if_neg (by omega)]
    exact (syncBuffers_returns hb k (Nat.zero_add _) hle).bind (Returns.pure _ _)
  · intro hge
    refine hfirst.bind (hsecond.bind ?_)
    simp only [h.ofNat]
    rw [if_pos (by omega)]
    exact (Returns.throw _ _).bind_error

theorem decodesInt_uint {b : Buffer} (hb : b.Valid) (k : Nat) {bs t : Bytes} {n : Nat}
    (hr : b.rest = bs ++ t) (h : Head .uint bs n) : DecodesInt b k bs.length n := by
  obtain ⟨hsmall, hlarge⟩ := cborUnpackInt_uint hb k hr h
  refine ⟨fun hv => ?_, fun hv => ?_⟩
  · have hn : n < 2 ^ 63 := by omega
    exact ⟨_, _, hsmall hn, toInt64_toInt hn, rfl⟩
  · exact ⟨_, hlarge (by omega), rfl⟩

theorem decodesInt_nint {b : Buffer} (hb : b.Valid) (k : Nat) {bs t : Bytes} {n : Nat}
    (hr : b.rest = bs ++ t) (h : Head .nint bs n) : DecodesInt b k bs.length (-1 - n) ↔ 2 ^ 63 < n := by
  obtain ⟨hsmall, hlarge⟩ := cborUnpackInt_nint hb k hr h
  constructor
  · rintro ⟨hvalue, hoverflow⟩
    by_contra hn
    have hret := hsmall (by omega)
    rcases Nat.lt_or_ge n (2 ^ 63) with hlt | hge
    · obtain ⟨i, s, hret', hi, _⟩ := hvalue (by omega)
      have heq := Except.ok.inj (hret.unique hret').1
      rw [← heq, magnitude_toInt (by omega)] at hi
      omega
    · obtain ⟨s, hret', _⟩ := hoverflow (by omega)
      cases (hret.unique hret').1
  · intro hv
    exact ⟨fun hrange => by omega, fun _ => ⟨_, hlarge hv, rfl⟩⟩

/-- The encoded integer is decoded, or found too large, exactly if it is not negative or has an argument
above `2 ^ 63`. -/
theorem cbor_unpack_int_iff (b : Buffer) (hb : b.Valid) (k : Nat) (bs t : Bytes) (v : Int)
    (hr : b.rest = bs ++ t) (h : EncodedInt bs v) :
    DecodesInt b k bs.length v ↔ 0 ≤ v ∨ v < -2 ^ 63 - 1 := by
  cases h with
  | uint h => exact iff_of_true (decodesInt_uint hb k hr h) (.inl (by omega))
  | nint h =>
    rw [decodesInt_nint hb k hr h]
    omega

/-- 500, in three bytes. -/
theorem cbor_unpack_int_iff_unsigned : DecodesInt (.ofBytes [0x19, 0x01, 0xf4, 0xff]) 0 3 500 := by
  have hhead : Head .uint [0x19, 0x01, 0xf4] 500 := @Head.two .uint [0x01, 0xf4] rfl
  exact (cbor_unpack_int_iff _ (Buffer.ofBytes_valid (by decide)) 0 [0x19, 0x01, 0xf4] [0xff] 500 rfl
    (.uint hhead)).mpr (.inl (by decide))

/-- The one byte of -1 is decoded to 0. -/
theorem cbor_unpack_int_minus_one : EncodedInt [0x20] (-1) ∧ ¬ DecodesInt (.ofBytes [0x20]) 0 1 (-1) ∧
    ∃ s, Returns cborUnpackInt ⟨.ofBytes [0x20], 0⟩ (.ok 0) s := by
  have hhead : Head .nint [0x20] 0 := @Head.direct .nint 0 (by decide)
  have hret := (cborUnpackInt_nint (Buffer.ofBytes_valid (by decide)) 0
    (show (Buffer.ofBytes [0x20]).rest = [0x20] ++ [] from rfl) hhead).1 (by decide)
  refine ⟨.nint hhead, ?_, _, hret⟩
  intro hdec
  obtain ⟨i, s, hret', hi, _⟩ := hdec.1 (by decide)
  have heq := Except.ok.inj (hret.unique hret').1
  rw [← heq] at hi
  exact absurd hi (by decide)

end Libjeffpc.Cbor
