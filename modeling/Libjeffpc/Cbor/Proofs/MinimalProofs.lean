import Libjeffpc.Buffer.Proofs.OutputProofs
import Libjeffpc.Cbor.Entry
import Libjeffpc.Cbor.Proofs.OutputProofs

/-!
# Heads are minimal, and read whatever their width

The length of a head bounds its argument, and together with the argument it determines the head.
-/

namespace Libjeffpc.Cbor

open Lib Libjeffpc.Int

variable {type : MajorType} {p q bs : Bytes} {n : Nat}

theorem beValue_injective {b c : Bytes} (hlen : b.length = c.length) (h : beValue b = beValue c) : b = c := by
  induction b using List.reverseRecOn generalizing c with
  | nil => exact (List.eq_nil_of_length_eq_zero hlen.symm).symm
  | append_singleton b x ih =>
    rcases List.eq_nil_or_concat c with rfl | ⟨c, y, rfl⟩
    · rw [List.length_append, List.length_singleton] at hlen
      cases hlen
    · rw [List.concat_eq_append] at h hlen ⊢
      rw [beValue_concat, beValue_concat] at h
      rw [List.length_append, List.length_append, List.length_singleton, List.length_singleton] at hlen
      have hx := UInt8.toNat_lt x
      have hy := UInt8.toNat_lt y
      obtain rfl := ih (c := c) (by omega) (by omega)
      obtain rfl : x = y := UInt8.toNat_inj.mp (by omega)
      rfl

/-- The widths. -/
theorem Head.width (h : Head type p n) : (p.length = 1 ∧ n ≤ 23) ∨ (p.length = 2 ∧ n < 2 ^ 8) ∨
    (p.length = 3 ∧ n < 2 ^ 16) ∨ (p.length = 5 ∧ n < 2 ^ 32) ∨ (p.length = 9 ∧ n < 2 ^ 64) := by
  cases h with
  | direct h => exact .inl ⟨rfl, h⟩
  | one h | two h | four h | eight h =>
    rename_i b
    have hlt := beValue_lt b
    rw [h] at hlt
    rw [List.length_cons, h]
    omega

theorem Head.unique_of_length (hp : Head type p n) (hq : Head type q n) (hlen : p.length = q.length) : p = q := by
  generalize hn : n = n' at hq
  cases hp <;> cases hq <;> simp only [List.length_cons, List.length_nil] at hlen
  case direct.direct => rw [hn]
  all_goals first
    | exact congrArg _ (beValue_injective (by omega) hn)
    | omega

theorem Head.shortest {l : Nat} (hp : Head type p n) (hlen : p.length = l) (h1 : 1 < l → 23 < n)
    (h2 : 2 < l → 2 ^ 8 ≤ n) (h3 : 3 < l → 2 ^ 16 ≤ n) (h5 : 5 < l → 2 ^ 32 ≤ n) : Shortest type n p := by
  have hwidth := hp.width
  refine ⟨hp, fun q hq => ?_, ?_⟩
  · have hq' := hq.width
    rcases Nat.lt_trichotomy p.length q.length with hlt | heq | hgt
    · exact .inr hlt
    · exact .inl (hp.unique_of_length hq heq).symm
    · omega
  · rcases hwidth with ⟨h, -⟩ | ⟨h, -⟩ | ⟨h, -⟩ | ⟨h, -⟩ | ⟨h, -⟩ <;> simp [h]

theorem outputHead_shortest (type : MajorType) (v : UInt64) :
    (outputHead type v).error = none ∧ Shortest type v.toNat (outputHead type v).bytes := by
  have hbytes : ∀ w, v.toNat < 256 ^ w → beValue (beBytes w v.toNat) = v.toNat := fun w hw => beValue_beBytes hw
  have hlen : ∀ w, (beBytes w v.toNat).length = w := fun w => length_beBytes w v.toNat
  have hlt := UInt64.toNat_lt v
  rw [outputHead]
  split_ifs with h23 h8 h16 h32
  all_goals simp only [UInt64.le_iff_toNat_le, UInt64.reduceToNat] at h23
  · exact ⟨rfl, (Head.direct h23).shortest (l := 1) rfl (by omega) (by omega) (by omega) (by omega)⟩
  all_goals simp only [UInt64.le_iff_toNat_le, UInt64.reduceToNat] at h8
  · have hhead := @Head.one type _ (hlen 1)
    rw [hbytes 1 (by omega)] at hhead
    exact ⟨rfl, hhead.shortest (l := 2) rfl (by omega) (by omega) (by omega) (by omega)⟩
  all_goals simp only [UInt64.le_iff_toNat_le, UInt64.reduceToNat] at h16
  · have hhead := @Head.two type _ (hlen 2)
    rw [hbytes 2 (by omega)] at hhead
    exact ⟨rfl, hhead.shortest (l := 3) rfl (by omega) (by omega) (by omega) (by omega)⟩
  all_goals simp only [UInt64.le_iff_toNat_le, UInt64.reduceToNat] at h32
  · have hhead := @Head.four type _ (hlen 4)
    rw [hbytes 4 (by omega)] at hhead
    exact ⟨rfl, hhead.shortest (l := 5) rfl (by omega) (by omega) (by omega) (by omega)⟩
  · have hhead := @Head.eight type _ (hlen 8)
    rw [hbytes 8 (by omega)] at hhead
    exact ⟨rfl, hhead.shortest (l := 9) rfl (by omega) (by omega) (by omega) (by omega)⟩

theorem writeChunks_packs (m : Machine) (chunks : List Bytes) :
    Packs (Output.writeChunks m chunks) fun p => p = chunks.flatten := by
  induction chunks with
  | nil => exact Packs.pure
  | cons c chunks ih =>
    refine ((bufferAppend_packs m c).bind ih).mono ?_
    rintro p - ⟨_, _, rfl, rfl, rfl⟩
    rfl

theorem write_packs {m : Machine} {o : Output} (ho : o.error = none) : Packs (o.write m) fun p => p = o.bytes := by
  have hwrite : o.write m = Output.writeChunks m o.chunks := by
    rw [Output.write, ho]
    exact bind_pure_unit
  rw [hwrite]
  exact writeChunks_packs m o.chunks

/-! ## Reading -/

theorem readHead_head {b : Buffer} (hb : b.Valid) (k : Nat) {t : Bytes} {v : UInt64} (hr : b.rest = bs ++ t)
    (h : Head type bs v.toNat) : Returns readHead ⟨b, k⟩ (.ok (type, v)) ⟨b.advance bs.length, k⟩ := by
  obtain ⟨extra, hread, haddl⟩ := head_returns hb k hr h
  exact hread.bind (haddl.bind (Returns.pure _ _))

/-- A head that ends too early. -/
theorem readHead_truncated {b : Buffer} (hb : b.Valid) (k : Nat) {t : Bytes} {v : UInt64} (hr : b.rest ++ t = bs)
    (ht : t ≠ []) (h : Head type bs v.toNat) : ∃ s, Returns readHead ⟨b, k⟩ (.error .EINVAL) s := by
  obtain ⟨extra, arg, hlt, rfl, size, hsize, hlen, -⟩ := head_iff.mp h
  cases hrest : b.rest with
  | nil => exact ⟨_, (readCborType_nil hb k hrest).bind_error⟩
  | cons x p =>
    rw [hrest, List.cons_append, List.cons.injEq] at hr
    obtain ⟨rfl, rfl⟩ := hr
    have hread := readCborType_cons hb k hrest
    rw [majorType_typeByte type hlt, extraOf_typeByte type hlt, UInt8.ofNat_toNat] at hread
    have hb1 : (b.advance 1).Valid := hb.advance (by rw [hrest]; simp)
    have hshort : (b.advance 1).rest.length < size.size := by
      have hpos := List.length_pos_iff.mpr ht
      rw [Buffer.rest_advance, hrest, List.drop_succ_cons, List.drop_zero, ← hlen, List.length_append]
      omega
    exact ⟨_, hread.bind (getAddlBytes_short hb1 k hsize hshort).bind_error⟩

/-- The additional values that no head has. -/
theorem readHead_reserved {b : Buffer} (hb : b.Valid) (k : Nat) {t : Bytes} {x : Nat} (hx : 28 ≤ x) (hx' : x ≤ 31)
    (hr : b.rest = typeByte type x :: t) : ∃ s, Returns readHead ⟨b, k⟩ (.error .EINVAL) s := by
  have hread := readCborType_cons hb k hr
  have hsize : addlSize (.ofNat x) = .error .EINVAL := by
    interval_cases x <;> rfl
  rw [majorType_typeByte type (by omega), extraOf_typeByte type (by omega)] at hread
  exact ⟨_, hread.bind (getAddlBytes_reserved _ hsize).bind_error⟩

/-- The shortest head is written, on any machine, and every head is read. -/
theorem cbor_heads (type : MajorType) (a : UInt64) : ∃ p, Shortest type a.toNat p ∧
    (∀ m b k, b.HasSpace m p.length →
      ∃ s, Returns (packCborType m type a) ⟨b, k⟩ (.ok ()) s ∧ s.buffer.contents = b.contents ++ p) ∧
    (∀ m b k s, IsHeap b → Returns (packCborType m type a) ⟨b, k⟩ (.ok ()) s →
      s.buffer.contents = b.contents ++ p) ∧
    (∀ bs t b k, Head type bs a.toNat → b.Valid → b.rest = bs ++ t →
      Returns readHead ⟨b, k⟩ (.ok (type, a)) ⟨b.advance bs.length, k⟩) ∧
    (∀ bs t b k, Head type bs a.toNat → b.Valid → b.rest ++ t = bs → t ≠ [] →
      ∃ s, Returns readHead ⟨b, k⟩ (.error .EINVAL) s) ∧
    ∀ x t b k, 28 ≤ x → x ≤ 31 → b.Valid → b.rest = typeByte type x :: t →
      ∃ s, Returns readHead ⟨b, k⟩ (.error .EINVAL) s := by
  obtain ⟨herror, hshort⟩ := outputHead_shortest type a
  refine ⟨_, hshort, fun m b k hspace => ?_, fun m b k s hb hret => ?_, fun bs t b k h hb hr => readHead_head hb k hr h,
    fun bs t b k h hb hr ht => readHead_truncated hb k hr ht h, fun x t b k hx hx' hb hr => readHead_reserved hb k hx hx' hr⟩
  · rw [packCborType_eq]
    exact write_space herror hspace
  · rw [packCborType_eq] at hret
    obtain ⟨p, rfl, -, hcontents⟩ := write_packs herror b k s hb hret
    exact hcontents

end Libjeffpc.Cbor
