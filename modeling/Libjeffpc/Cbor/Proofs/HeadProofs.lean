import Libjeffpc.Buffer.Reader
import Libjeffpc.Cbor.Grammar
import Libjeffpc.Cbor.Unpack
import Libjeffpc.Int.Proofs.ByteOrderProofs

/-!
# Reading heads

The functions that read the first byte of an item and its argument accept the heads of the grammar.
-/

namespace Libjeffpc.Cbor

open Lib Libjeffpc.Int

/-! ## The first byte -/

theorem extraOf_toNat (x : UInt8) : (extraOf x).toNat = x.toNat % 32 := by
  rw [extraOf, UInt8.toNat_and]
  exact Nat.and_two_pow_sub_one_eq_mod x.toNat 5

theorem majorType_toNat (x : UInt8) : (majorType x).code.toNat = x.toNat / 32 := by
  have hx : (x >>> 5).toNat = x.toNat / 32 := by
    rw [UInt8.toNat_shiftRight]
    exact Nat.shiftRight_eq_div_pow x.toNat 5
  have hlt : x.toNat / 32 < 8 := by
    have := UInt8.toNat_lt x
    omega
  rw [majorType, hx]
  generalize x.toNat / 32 = q at hlt
  interval_cases q <;> rfl

theorem code_lt (type : MajorType) : type.code.toNat < 8 := by
  cases type <;> decide

theorem code_injective {s t : MajorType} (h : s.code.toNat = t.code.toNat) : s = t := by
  cases s <;> cases t <;> first | rfl | exact absurd h (by decide)

theorem typeByte_toNat (type : MajorType) {a : Nat} (ha : a < 32) :
    (typeByte type a).toNat = 32 * type.code.toNat + a := by
  have := code_lt type
  rw [typeByte, UInt8.toNat_ofNat', Nat.mod_eq_of_lt (by omega)]

theorem extraOf_lt (x : UInt8) : (extraOf x).toNat < 32 := by
  rw [extraOf_toNat]
  omega

/-- A byte is its major type and its additional information. -/
theorem typeByte_eta (x : UInt8) : typeByte (majorType x) (extraOf x).toNat = x := by
  refine UInt8.toNat_inj.mp ?_
  rw [typeByte_toNat _ (extraOf_lt x), majorType_toNat, extraOf_toNat]
  omega

theorem majorType_typeByte (type : MajorType) {a : Nat} (ha : a < 32) :
    majorType (typeByte type a) = type := by
  refine code_injective ?_
  rw [majorType_toNat, typeByte_toNat type ha]
  omega

theorem extraOf_typeByte (type : MajorType) {a : Nat} (ha : a < 32) :
    extraOf (typeByte type a) = UInt8.ofNat a := by
  refine UInt8.toNat_inj.mp ?_
  rw [extraOf_toNat, typeByte_toNat type ha, UInt8.toNat_ofNat', Nat.mod_eq_of_lt (b := 2 ^ 8)]
  all_goals omega

/-! ## Loads -/

theorem load_rest {b : Buffer} (hb : b.Valid) {n : Nat} (h0 : n ≠ 0) (hn : n ≤ b.rest.length) :
    ∃ p, load b.bufferDataCurrent n = pure p ∧ List.ofFn p = b.rest.take n := by
  have hlr := hb.length_rest
  have hoff := hb.off_le
  have hsize := hb.size_le_memory
  have hne : b.off ≠ b.size := by omega
  cases hd : b.data with
  | none =>
    have hm : b.memory = [] := by simp [Buffer.memory, hd]
    rw [hm, List.length_nil] at hsize
    omega
  | some mem =>
    have hm : b.memory = mem := by simp [Buffer.memory, hd]
    have hle : n ≤ (mem.drop b.off).length := by
      rw [← hm, List.length_drop]
      omega
    refine ⟨fun i => (mem.drop b.off).get ⟨i, i.2.trans_le hle⟩, ?_, ?_⟩
    · simp only [load, Buffer.bufferDataCurrent, hd, if_neg hne, deref_some, pure_bind, dif_pos hle]
    · have htake : b.rest.take n = (mem.drop b.off).take n := by
        rw [hb.rest_eq, hm, List.take_take, Nat.min_eq_left hn]
      rw [htake]
      refine List.ext_getElem (by simpa using hle) fun i h1 h2 => ?_
      simp

/-! ## `read_cbor_type` -/

/-- The byte that `read_cbor_type` consumes. -/
def TypeOf (bs _t : Bytes) (r : MajorType × UInt8) : Prop :=
  bs = [typeByte r.1 r.2.toNat] ∧ r.2.toNat < 32

theorem readCborType_cons {b : Buffer} (hb : b.Valid) (k : Nat) {x : UInt8} {t : Bytes}
    (h : b.rest = x :: t) :
    Returns readCborType ⟨b, k⟩ (.ok (majorType x, extraOf x)) ⟨b.advance 1, k⟩ := by
  have hread := bufferRead_rest hb k (show 1 ≤ ssizeMax by decide)
  rw [h] at hread
  exact hread.bind (Returns.pure _ _)

theorem readCborType_nil {b : Buffer} (hb : b.Valid) (k : Nat) (h : b.rest = []) :
    Returns readCborType ⟨b, k⟩ (.error .EINVAL) ⟨b, k⟩ := by
  have hread := bufferRead_rest hb k (show 1 ≤ ssizeMax by decide)
  rw [h] at hread
  exact hread.bind (Returns.throw _ _)

theorem readCborType_sound (n : Nat) : Sound n readCborType TypeOf := by
  intro b k hb _
  cases h : b.rest with
  | nil => exact Triple.of_returns (readCborType_nil hb k h) (by simp)
  | cons x t =>
    refine Triple.of_returns (readCborType_cons hb k h) ?_
    intro a ha
    cases ha
    exact ⟨[x], t, rfl, rfl, by rw [typeByte_eta], extraOf_lt x⟩

theorem readCborType_complete : Complete readCborType TypeOf := by
  rintro bs t ⟨type, extra⟩ ⟨rfl, hlt⟩ b k hb hr
  have h := readCborType_cons hb k hr
  rw [majorType_typeByte type hlt, extraOf_typeByte type hlt, UInt8.ofNat_toNat] at h
  exact ⟨k, h⟩

/-! ## `get_addl_bytes` -/

/-- The argument that follows the first byte. -/
def Addl (extra : UInt8) (bs _t : Bytes) (v : UInt64) : Prop :=
  ∃ size, addlSize extra = .ok size ∧ bs.length = size.size ∧
    v.toNat = if size = .none then extra.toNat else beValue bs

/-- The value of the argument. -/
def addlValue (extra : UInt8) (bs : Bytes) : AddlSize → UInt64
  | .none => extra.toUInt64
  | _ => .ofNat (beValue bs)

theorem loadAddl_rest {b : Buffer} (hb : b.Valid) (extra : UInt8) {size : AddlSize}
    (hn : size.size ≤ b.rest.length) :
    loadAddl b.bufferDataCurrent extra size
      = pure (addlValue extra (b.rest.take size.size) size) := by
  cases size with
  | none => rfl
  | one =>
    obtain ⟨p, hp, hofFn⟩ := load_rest hb (n := 1) (by decide) hn
    have hval : (be8ToCpuUnaligned p).toUInt64 = .ofNat (beValue (List.ofFn p)) := by
      refine UInt64.toNat_inj.mp ?_
      have := UInt8.toNat_lt (p 0)
      simp [be8ToCpuUnaligned, beValue, List.ofFn_succ]
    rw [loadAddl, hp, pure_bind, hval, hofFn]
    rfl
  | two =>
    obtain ⟨p, hp, hofFn⟩ := load_rest hb (n := 2) (by decide) hn
    have hval : (be16ToCpuUnaligned p).toUInt64 = .ofNat (beValue (List.ofFn p)) := by
      refine UInt64.toNat_inj.mp ?_
      have hlt := beValue_lt [p 0, p 1]
      rw [UInt16.toNat_toUInt64, be16ToCpuUnaligned_toNat, UInt64.toNat_ofNat',
        show List.ofFn p = [p 0, p 1] from rfl, Nat.mod_eq_of_lt (hlt.trans (by norm_num))]
    rw [loadAddl, hp, pure_bind, hval, hofFn]
    rfl
  | four =>
    obtain ⟨p, hp, hofFn⟩ := load_rest hb (n := 4) (by decide) hn
    have hval : (be32ToCpuUnaligned p).toUInt64 = .ofNat (beValue (List.ofFn p)) := by
      refine UInt64.toNat_inj.mp ?_
      have hlt := beValue_lt [p 0, p 1, p 2, p 3]
      rw [UInt32.toNat_toUInt64, be32ToCpuUnaligned_toNat, UInt64.toNat_ofNat',
        show List.ofFn p = [p 0, p 1, p 2, p 3] from rfl, Nat.mod_eq_of_lt (hlt.trans (by norm_num))]
    rw [loadAddl, hp, pure_bind, hval, hofFn]
    rfl
  | eight =>
    obtain ⟨p, hp, hofFn⟩ := load_rest hb (n := 8) (by decide) hn
    have hval : be64ToCpuUnaligned p = .ofNat (beValue (List.ofFn p)) := by
      refine UInt64.toNat_inj.mp ?_
      have hlt := beValue_lt [p 0, p 1, p 2, p 3, p 4, p 5, p 6, p 7]
      rw [be64ToCpuUnaligned_toNat, UInt64.toNat_ofNat',
        show List.ofFn p = [p 0, p 1, p 2, p 3, p 4, p 5, p 6, p 7] from rfl,
        Nat.mod_eq_of_lt (hlt.trans_eq (by norm_num))]
    rw [loadAddl, hp, pure_bind, hval, hofFn]
    rfl

theorem addlValue_toNat {extra : UInt8} {bs : Bytes} {size : AddlSize} (h : bs.length = size.size) :
    (addlValue extra bs size).toNat = if size = .none then extra.toNat else beValue bs := by
  have hlt := beValue_lt bs
  rw [h] at hlt
  cases size <;>
    simp_all only [addlValue, UInt64.toNat_ofNat', AddlSize.size, reduceCtorEq, if_true, if_false,
      UInt8.toNat_toUInt64] <;>
    exact Nat.mod_eq_of_lt (by omega)

theorem getAddlBytes_returns {b : Buffer} (hb : b.Valid) (k : Nat) {extra : UInt8} {size : AddlSize}
    (hsize : addlSize extra = .ok size) (hn : size.size ≤ b.rest.length) :
    Returns (getAddlBytes extra) ⟨b, k⟩ (.ok (addlValue extra (b.rest.take size.size) size))
      ⟨b.advance size.size, k⟩ := by
  have hrem : ¬ b.bufferRemain < size.size := by
    rw [hb.bufferRemain_eq]
    omega
  unfold getAddlBytes
  rw [hsize]
  refine (returns_liftExcept _ _).bind ((returns_getBuffer _).bind ?_)
  simp only
  rw [if_neg hrem, loadAddl_rest hb extra hn]
  exact (Returns.pure _ _).bind ((bufferSeek_cur hb k hn).bind (Returns.pure _ _))

/-- Additional information that no argument has. -/
theorem getAddlBytes_reserved {extra : UInt8} {e : Errno} (s : BufferState)
    (h : addlSize extra = .error e) : Returns (getAddlBytes extra) s (.error e) s := by
  unfold getAddlBytes
  rw [h]
  exact (returns_liftError e _).bind_error

/-- The argument ends before it is complete. -/
theorem getAddlBytes_short {b : Buffer} (hb : b.Valid) (k : Nat) {extra : UInt8} {size : AddlSize}
    (hsize : addlSize extra = .ok size) (hn : b.rest.length < size.size) :
    Returns (getAddlBytes extra) ⟨b, k⟩ (.error .EINVAL) ⟨b, k⟩ := by
  have hrem : b.bufferRemain < size.size := by
    rw [hb.bufferRemain_eq]
    exact hn
  unfold getAddlBytes
  rw [hsize]
  refine (returns_liftExcept _ _).bind ((returns_getBuffer _).bind ?_)
  simp only
  rw [if_pos hrem]
  exact Returns.throw _ _

theorem getAddlBytes_sound (n : Nat) (extra : UInt8) : Sound n (getAddlBytes extra) (Addl extra) := by
  intro b k hb _
  cases hsize : addlSize extra with
  | error e => exact Triple.of_returns (getAddlBytes_reserved ⟨b, k⟩ hsize) (by simp)
  | ok size =>
    by_cases hn : size.size ≤ b.rest.length
    · refine Triple.of_returns (getAddlBytes_returns hb k hsize hn) ?_
      intro a ha
      cases ha
      have hlen : (b.rest.take size.size).length = size.size := by
        rw [List.length_take, Nat.min_eq_left hn]
      refine ⟨b.rest.take size.size, b.rest.drop size.size, (List.take_append_drop _ _).symm, ?_,
        size, hsize, hlen, addlValue_toNat hlen⟩
      rw [hlen]
    · exact Triple.of_returns (getAddlBytes_short hb k hsize (by omega)) (by simp)

theorem getAddlBytes_complete (extra : UInt8) : Complete (getAddlBytes extra) (Addl extra) := by
  rintro bs t v ⟨size, hsize, hlen, hv⟩ b k hb hr
  have hn : size.size ≤ b.rest.length := by
    rw [hr, List.length_append]
    omega
  have h := getAddlBytes_returns hb k hsize hn
  have htake : b.rest.take size.size = bs := by
    rw [hr, ← hlen, List.take_left]
  have hval : addlValue extra bs size = v := by
    refine UInt64.toNat_inj.mp ?_
    rw [addlValue_toNat hlen, hv]
  rw [htake, hval, ← hlen] at h
  exact ⟨k, h⟩

/-! ## Heads of the grammar -/

theorem addlSize_le {n : Nat} (h : n ≤ 23) : addlSize (.ofNat n) = .ok .none := by
  interval_cases n <;> rfl

theorem addlSize_cases {extra : UInt8} {size : AddlSize} (h : addlSize extra = .ok size) :
    (size = .none ∧ extra.toNat ≤ 23) ∨ (size = .one ∧ extra = 24) ∨ (size = .two ∧ extra = 25) ∨
      (size = .four ∧ extra = 26) ∨ (size = .eight ∧ extra = 27) := by
  unfold addlSize at h
  split_ifs at h with h1 h2 h3 h4 h5
  · exact .inr (.inl ⟨(Except.ok.inj h).symm, h1⟩)
  · exact .inr (.inr (.inl ⟨(Except.ok.inj h).symm, h2⟩))
  · exact .inr (.inr (.inr (.inl ⟨(Except.ok.inj h).symm, h3⟩)))
  · exact .inr (.inr (.inr (.inr ⟨(Except.ok.inj h).symm, h4⟩)))
  · exact .inl ⟨(Except.ok.inj h).symm, by simpa [UInt8.lt_iff_toNat_lt] using h5⟩

/-- A head is its first byte and its argument. -/
theorem head_iff {type : MajorType} {bs : Bytes} {v : UInt64} :
    Head type bs v.toNat ↔ ∃ (extra : UInt8) (arg : Bytes), extra.toNat < 32 ∧
      bs = typeByte type extra.toNat :: arg ∧ Addl extra arg [] v := by
  constructor
  · intro h
    generalize hn : v.toNat = n at h
    cases h with
    | direct h =>
      have hnat : (UInt8.ofNat n).toNat = n := by
        rw [UInt8.toNat_ofNat', Nat.mod_eq_of_lt (by omega)]
      refine ⟨.ofNat n, [], by omega, by rw [hnat], .none, addlSize_le h, rfl, ?_⟩
      rw [if_pos rfl, hnat, hn]
    | one h => exact ⟨24, _, by decide, rfl, .one, rfl, h, hn⟩
    | two h => exact ⟨25, _, by decide, rfl, .two, rfl, h, hn⟩
    | four h => exact ⟨26, _, by decide, rfl, .four, rfl, h, hn⟩
    | eight h => exact ⟨27, _, by decide, rfl, .eight, rfl, h, hn⟩
  · rintro ⟨extra, arg, _, rfl, size, hsize, hlen, hv⟩
    rcases addlSize_cases hsize with ⟨rfl, he⟩ | ⟨rfl, rfl⟩ | ⟨rfl, rfl⟩ | ⟨rfl, rfl⟩ | ⟨rfl, rfl⟩
    · rw [List.eq_nil_of_length_eq_zero hlen, hv, if_pos rfl]
      exact .direct he
    all_goals rw [hv, if_neg (by simp)]
    · exact .one hlen
    · exact .two hlen
    · exact .four hlen
    · exact .eight hlen

theorem Head.ne_nil {type : MajorType} {bs : Bytes} {n : Nat} (h : Head type bs n) : bs ≠ [] := by
  cases h <;> simp

theorem Head.lt {type : MajorType} {bs : Bytes} {n : Nat} (h : Head type bs n) : n < 2 ^ 64 := by
  cases h with
  | direct h => omega
  | one h | two h | four h | eight h =>
    rename_i b
    have hlt := beValue_lt b
    rw [h] at hlt
    omega

theorem Head.ofNat {type : MajorType} {bs : Bytes} {n : Nat} (h : Head type bs n) :
    (UInt64.ofNat n).toNat = n := by
  rw [UInt64.toNat_ofNat', Nat.mod_eq_of_lt h.lt]

/-! ## `unpack_cbor_int` -/

theorem unpackCborInt_sound (n : Nat) (type : MajorType) :
    Sound n (unpackCborInt type) fun bs _ v => Head type bs v.toNat := by
  refine ((readCborType_sound n).bind (G := fun r bs t v => type = r.1 ∧ Addl r.2 bs t v)
    fun r => ?_).mono ?_
  · refine Sound.ite (fun h => ?_) fun h => ?_
    · exact Sound.throw_bind _ _
    · exact (getAddlBytes_sound n r.2).mono fun bs t v hv => ⟨by simpa using h, hv⟩
  · rintro bs t v ⟨⟨ty, extra⟩, b1, b2, rfl, ⟨rfl, hlt⟩, rfl, hv⟩
    exact head_iff.mpr ⟨extra, b2, hlt, rfl, hv⟩

/-- The two parts of a head are read one after the other; no memory is asked for. -/
theorem head_returns {b : Buffer} (hb : b.Valid) (k : Nat) {type : MajorType} {bs t : Bytes} {v : UInt64}
    (hr : b.rest = bs ++ t) (h : Head type bs v.toNat) : ∃ extra,
      Returns readCborType ⟨b, k⟩ (.ok (type, extra)) ⟨b.advance 1, k⟩ ∧
      Returns (getAddlBytes extra) ⟨b.advance 1, k⟩ (.ok v) ⟨b.advance bs.length, k⟩ := by
  obtain ⟨extra, arg, hlt, rfl, size, hsize, hlen, hv⟩ := head_iff.mp h
  have hread := readCborType_cons hb k hr
  rw [majorType_typeByte type hlt, extraOf_typeByte type hlt, UInt8.ofNat_toNat] at hread
  have hr1 : (b.advance 1).rest = arg ++ t := by
    rw [Buffer.rest_advance, hr]
    rfl
  have hb1 : (b.advance 1).Valid := hb.advance (by rw [hr]; simp)
  have haddl := getAddlBytes_returns hb1 k hsize (by rw [hr1, List.length_append]; omega)
  have hval : addlValue extra arg size = v := by
    refine UInt64.toNat_inj.mp ?_
    rw [addlValue_toNat hlen, hv]
  rw [hr1, ← hlen, List.take_left, hval, Buffer.advance_advance] at haddl
  refine ⟨extra, hread, ?_⟩
  rw [List.length_cons, Nat.add_comm]
  exact haddl

theorem unpackCborInt_head {b : Buffer} (hb : b.Valid) (k : Nat) {type : MajorType} {bs t : Bytes}
    {v : UInt64} (hr : b.rest = bs ++ t) (h : Head type bs v.toNat) :
    Returns (unpackCborInt type) ⟨b, k⟩ (.ok v) ⟨b.advance bs.length, k⟩ := by
  obtain ⟨extra, hread, haddl⟩ := head_returns hb k hr h
  refine hread.bind ?_
  simp only [ne_eq, not_true_eq_false, if_false]
  exact haddl

theorem unpackCborInt_complete (type : MajorType) :
    Complete (unpackCborInt type) fun bs _ v => Head type bs v.toNat :=
  fun _ _ _ h _ k hb hr => ⟨k, unpackCborInt_head hb k hr h⟩

end Libjeffpc.Cbor
