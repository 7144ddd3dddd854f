import Libjeffpc.Lib.Bits
import Libjeffpc.Unicode.Unicode

/-!
# UTF-8 validation is encodability

The encoder and the decoder are compared with `seq`, the bytes of a codepoint in arithmetic. What the
decoder accepts starts with the bytes of the codepoint that it returns, and what starts with the bytes
of a codepoint is accepted.
-/

namespace Libjeffpc.Unicode

open Lib

/-! ## Bytes -/

/-- The codepoints that are encoded. -/
def Valid (cp : Nat) : Prop := cp ≤ 0x10ffff ∧ ¬(0xd800 ≤ cp ∧ cp ≤ 0xdfff)

theorem utf32IsValid_iff {cp : Nat} : utf32IsValid cp = true ↔ Valid cp := by
  rw [utf32IsValid, Valid]
  split_ifs with h
  · simp [h]
  · simpa using fun _ => h

/-- The first byte of a sequence, by its range. -/
def firstOf (c : Nat) : Option First :=
  if c < 0x80 then some ⟨1, c, 0x00, 0x7f⟩
  else if c < 0xc0 then none
  else if c < 0xe0 then some ⟨2, (c - 0xc0) * 2 ^ 6, 0x080, 0x7ff⟩
  else if c < 0xf0 then some ⟨3, (c - 0xe0) * 2 ^ 12, 0x0800, 0xffff⟩
  else if c < 0xf8 then some ⟨4, (c - 0xf0) * 2 ^ 18, 0x010000, 0x10ffff⟩
  else none

theorem firstOf_one {c : Nat} (h : c < 0x80) : firstOf c = some ⟨1, c, 0x00, 0x7f⟩ := if_pos h

theorem firstOf_two {c : Nat} (h : 0xc0 ≤ c) (h' : c < 0xe0) :
    firstOf c = some ⟨2, (c - 0xc0) * 2 ^ 6, 0x080, 0x7ff⟩ := by
  rw [firstOf, if_neg (by omega), if_neg (by omega), if_pos h']

theorem firstOf_three {c : Nat} (h : 0xe0 ≤ c) (h' : c < 0xf0) :
    firstOf c = some ⟨3, (c - 0xe0) * 2 ^ 12, 0x0800, 0xffff⟩ := by
  rw [firstOf, if_neg (by omega), if_neg (by omega), if_neg (by omega), if_pos h']

theorem firstOf_four {c : Nat} (h : 0xf0 ≤ c) (h' : c < 0xf8) :
    firstOf c = some ⟨4, (c - 0xf0) * 2 ^ 18, 0x010000, 0x10ffff⟩ := by
  rw [firstOf, if_neg (by omega), if_neg (by omega), if_neg (by omega), if_neg (by omega), if_pos h']

theorem decodeFirst_eq (c : UInt8) : decodeFirst c = firstOf c.toNat := by
  revert c
  exact forall_byte (by decide +kernel)

/-- An additional byte. -/
def IsCont (c : UInt8) : Prop := 0x80 ≤ c.toNat ∧ c.toNat < 0xc0

theorem cont_iff (c : UInt8) : c &&& 0xc0 = 0x80 ↔ IsCont c := by
  have hall : ∀ c : UInt8, c &&& 0xc0 = 0x80 ↔ 0x80 ≤ c.toNat ∧ c.toNat < 0xc0 :=
    forall_byte (by decide +kernel)
  exact hall c

theorem cont_bits (c : UInt8) : (c &&& 0x3f).toNat = c.toNat % 64 := by
  rw [UInt8.toNat_and]
  exact and_six _

/-! ## Encoding -/

/-- The last `n` bytes of a sequence. -/
def contBytes (cp : Nat) : Nat → Bytes
  | 0 => []
  | n + 1 => .ofNat (0x80 + cp / 2 ^ (6 * n) % 64) :: contBytes cp n

theorem length_contBytes (cp n : Nat) : (contBytes cp n).length = n := by
  induction n with
  | zero => rfl
  | succ n ih => rw [contBytes, List.length_cons, ih]

/-- The bytes of a codepoint. -/
def seq (cp : Nat) : Bytes :=
  if cp ≤ 0x7f then [.ofNat cp]
  else if cp ≤ 0x7ff then .ofNat (0xc0 + cp / 2 ^ 6) :: contBytes cp 1
  else if cp ≤ 0xffff then .ofNat (0xe0 + cp / 2 ^ 12) :: contBytes cp 2
  else .ofNat (0xf0 + cp / 2 ^ 18) :: contBytes cp 3

theorem encodeRest_run {cp len n i : Nat} {done free : Bytes} (hlen : len = i + n)
    (hdone : done.length = i) (hfree : n ≤ free.length) :
    encodeRest cp len n i (done ++ free) = pure (done ++ contBytes cp n ++ free.drop n) := by
  induction n generalizing i done free with
  | zero => simp [encodeRest, contBytes]
  | succ n ih =>
    obtain ⟨w, free, rfl⟩ := List.exists_cons_of_length_pos (Nat.lt_of_lt_of_le (Nat.succ_pos n) hfree)
    have hshift : 6 * (len - i - 1) = 6 * n := by omega
    have hor : 0x80 ||| cp / 2 ^ (6 * n) % 64 = 0x80 + cp / 2 ^ (6 * n) % 64 :=
      or_add (k := 6) (by decide) (Nat.mod_lt _ (by decide))
    have hdone' : (done ++ [UInt8.ofNat (0x80 + cp / 2 ^ (6 * n) % 64)]).length = i + 1 := by
      simp [hdone]
    have hrun := ih (by omega) hdone' (Nat.le_of_succ_le_succ hfree)
    rw [encodeRest, hshift, Nat.shiftRight_eq_div_pow, and_six, hor, store_append hdone.symm, pure_bind]
    rw [List.append_assoc, List.singleton_append] at hrun
    rw [hrun]
    simp [contBytes]

/-- A sequence of more than one byte. -/
theorem encode_long {cp k : Nat} {first : UInt8} {buf : Bytes} (hroom : k + 1 ≤ buf.length) :
    (do
      let buf ← store buf 0 first
      let buf ← encodeRest cp (k + 1) k 1 buf
      pure ((.ok (k + 1) : Except Errno Nat), buf)) =
    (pure (.ok (k + 1), first :: contBytes cp k ++ buf.drop (k + 1)) :
      Comp (Except Errno Nat × Bytes)) := by
  obtain ⟨w, buf, rfl⟩ := List.exists_cons_of_length_pos (Nat.lt_of_lt_of_le (Nat.succ_pos k) hroom)
  have hstore : store (w :: buf) 0 first = pure (first :: buf) := if_pos (Nat.succ_pos _)
  have hrun := @encodeRest_run cp _ _ _ _ _ (Nat.add_comm k 1) (show [first].length = 1 from rfl)
    (Nat.le_of_succ_le_succ hroom)
  rw [List.singleton_append] at hrun
  rw [hstore, pure_bind, hrun, pure_bind]
  rfl

/-- The bits of the first byte that give the length. -/
theorem first_byte {cp len : Nat} (hcp : cp < 2 ^ (8 - len)) :
    UInt8.ofNat (cp ||| 0xff <<< (8 - len)) = .ofNat (0xff * 2 ^ (8 - len) + cp) := by
  rw [Nat.or_comm, Nat.shiftLeft_eq, or_add (by simp) hcp]

theorem utf32ToUtf8_run {cp : Nat} (hv : Valid cp) (buf : Bytes) (hroom : (seq cp).length ≤ buf.length) :
    utf32ToUtf8 cp buf = pure (.ok (seq cp).length, seq cp ++ buf.drop (seq cp).length) := by
  have hvalid : utf32IsValid cp = true := utf32IsValid_iff.mpr hv
  have hle := hv.1
  rw [utf32ToUtf8, hvalid]
  simp only [Bool.not_true, Bool.false_eq_true, if_false, hle, decide_true, assert_true, pure_bind]
  rw [seq] at hroom ⊢
  by_cases h1 : cp ≤ 0x7f
  · simp only [if_pos h1] at hroom ⊢
    obtain ⟨w, buf, rfl⟩ := List.exists_cons_of_length_pos hroom
    simp [store]
  by_cases h2 : cp ≤ 0x7ff
  · simp only [if_neg h1, if_pos h2, List.length_cons, length_contBytes] at hroom ⊢
    have hfirst : UInt8.ofNat (cp >>> (6 * (2 - 1)) ||| 0xff <<< (8 - 2)) = .ofNat (0xc0 + cp / 2 ^ 6) := by
      rw [Nat.shiftRight_eq_div_pow, first_byte (by omega)]
      exact ofNat_congr (by omega)
    rw [if_neg (by omega), if_neg (by decide), hfirst]
    exact encode_long hroom
  by_cases h3 : cp ≤ 0xffff
  · simp only [if_neg h1, if_neg h2, if_pos h3, List.length_cons, length_contBytes] at hroom ⊢
    have hfirst : UInt8.ofNat (cp >>> (6 * (3 - 1)) ||| 0xff <<< (8 - 3)) = .ofNat (0xe0 + cp / 2 ^ 12) := by
      rw [Nat.shiftRight_eq_div_pow, first_byte (by omega)]
      exact ofNat_congr (by omega)
    rw [if_neg (by omega), if_neg (by decide), hfirst]
    exact encode_long hroom
  · simp only [if_neg h1, if_neg h2, if_neg h3, List.length_cons, length_contBytes] at hroom ⊢
    have hfirst : UInt8.ofNat (cp >>> (6 * (4 - 1)) ||| 0xff <<< (8 - 4)) = .ofNat (0xf0 + cp / 2 ^ 18) := by
      rw [Nat.shiftRight_eq_div_pow, first_byte (by omega)]
      exact ofNat_congr (by omega)
    rw [if_neg (by omega), if_neg (by decide), hfirst]
    exact encode_long hroom

theorem length_seq_le (cp : Nat) : (seq cp).length ≤ 4 := by
  rw [seq]
  split_ifs <;> simp [length_contBytes]

theorem seq_ne_nil (cp : Nat) : seq cp ≠ [] := by
  rw [seq]
  split_ifs <;> simp

theorem encoding_eq {cp : Nat} (hv : Valid cp) : encoding cp = seq cp := by
  rw [encoding, utf32ToUtf8_run hv [0, 0, 0, 0] (length_seq_le cp)]
  exact List.take_left

/-! ## Decoding -/

/-- The bits of additional bytes. -/
def restValue : Bytes → Nat
  | [] => 0
  | c :: cs => c.toNat % 64 * 2 ^ (6 * cs.length) + restValue cs

theorem pow_six_succ (n : Nat) : 2 ^ (6 * (n + 1)) = 2 ^ (6 * n) * 64 := by
  rw [Nat.mul_add, Nat.pow_add]

theorem restValue_lt (cs : Bytes) : restValue cs < 2 ^ (6 * cs.length) := by
  induction cs with
  | nil => exact Nat.one_pos
  | cons c cs ih =>
    have hlt : c.toNat % 64 < 64 := Nat.mod_lt _ (by decide)
    rw [restValue, List.length_cons, pow_six_succ]
    nlinarith

theorem isCont_contBytes (cp n : Nat) : ∀ c ∈ contBytes cp n, IsCont c := by
  induction n with
  | zero => simp [contBytes]
  | succ n ih =>
    rw [contBytes, List.forall_mem_cons]
    refine ⟨?_, ih⟩
    rw [IsCont, UInt8.toNat_ofNat']
    omega

theorem restValue_contBytes (cp n : Nat) : restValue (contBytes cp n) = cp % 2 ^ (6 * n) := by
  induction n with
  | zero => simp [contBytes, restValue, Nat.mod_one]
  | succ n ih =>
    have hbyte : (UInt8.ofNat (0x80 + cp / 2 ^ (6 * n) % 64)).toNat % 64 = cp / 2 ^ (6 * n) % 64 := by
      rw [UInt8.toNat_ofNat']
      omega
    rw [contBytes, restValue, hbyte, length_contBytes, ih, pow_six_succ, Nat.mod_mul, Nat.add_comm,
      Nat.mul_comm (2 ^ (6 * n))]

/-- Additional bytes are the bytes of their value. -/
theorem contBytes_restValue {cs : Bytes} (hcs : ∀ c ∈ cs, IsCont c) {v : Nat}
    (hv : v % 2 ^ (6 * cs.length) = restValue cs) : contBytes v cs.length = cs := by
  induction cs generalizing v with
  | nil => rfl
  | cons c cs ih =>
    obtain ⟨hc, hcs⟩ := List.forall_mem_cons.mp hcs
    have hlt := restValue_lt cs
    rw [restValue, List.length_cons, pow_six_succ, Nat.mod_mul] at hv
    have hpos : 0 < 2 ^ (6 * cs.length) := Nat.two_pow_pos _
    have hlow : v % 2 ^ (6 * cs.length) = restValue cs := by
      have := congrArg (· % 2 ^ (6 * cs.length)) hv
      simpa [Nat.add_mul_mod_self_left, Nat.mul_add_mod_self_right, Nat.mod_eq_of_lt hlt] using this
    have hhigh : v / 2 ^ (6 * cs.length) % 64 = c.toNat % 64 := by
      rw [hlow, Nat.add_comm, Nat.mul_comm] at hv
      exact Nat.eq_of_mul_eq_mul_right hpos (Nat.add_right_cancel hv)
    rw [List.length_cons, contBytes, ih hcs hlow, hhigh]
    have hbyte : UInt8.ofNat (0x80 + c.toNat % 64) = c := by
      have hsum : 0x80 + c.toNat % 64 = c.toNat := by
        have := hc.1
        have := hc.2
        omega
      rw [hsum, UInt8.ofNat_toNat]
    rw [hbyte]

/-- One additional byte. -/
theorem decodeRest_cons {n i res len : Nat} {pre cs t : Bytes} {c : UInt8} (hpre : pre.length = i)
    (hlen : len = i + (n + 1)) (hres : res % 2 ^ (6 * (n + 1)) = 0) (hc : IsCont c) :
    decodeRest (pre ++ c :: cs ++ t) len (n + 1) i res =
      decodeRest ((pre ++ [c]) ++ cs ++ t) len n (i + 1) (res + c.toNat % 64 * 2 ^ (6 * n)) := by
  have hshift : 6 * (len - i - 1) = 6 * n := by omega
  have hor : res ||| c.toNat % 64 * 2 ^ (6 * n) = res + c.toNat % 64 * 2 ^ (6 * n) := by
    refine or_add hres ?_
    have hlt : c.toNat % 64 < 64 := Nat.mod_lt _ (by decide)
    have hpos : 0 < 2 ^ (6 * n) := Nat.two_pow_pos _
    rw [pow_six_succ]
    nlinarith
  have hlist : pre ++ c :: cs ++ t = (pre ++ [c]) ++ cs ++ t := by simp
  rw [decodeRest, List.append_assoc, List.cons_append, fetch_append hpre.symm, pure_bind,
    if_neg (not_not.mpr ((cont_iff c).mpr hc)), cont_bits, Nat.shiftLeft_eq, hshift, hor,
    ← List.cons_append, ← List.append_assoc, hlist]

theorem decodeRest_stop {n i res len : Nat} {pre cs t : Bytes} {c : UInt8} (hpre : pre.length = i)
    (hc : ¬IsCont c) : decodeRest (pre ++ c :: cs ++ t) len (n + 1) i res = pure none := by
  rw [decodeRest, List.append_assoc, List.cons_append, fetch_append hpre.symm, pure_bind,
    if_pos (mt (cont_iff c).mp hc)]

/-- The loop adds the bits of the additional bytes. -/
theorem decodeRest_run {n i res len : Nat} {pre cs t : Bytes} (hpre : pre.length = i)
    (hn : cs.length = n) (hlen : len = i + n) (hres : res % 2 ^ (6 * n) = 0) :
    ((∀ c ∈ cs, IsCont c) ∧
      decodeRest (pre ++ cs ++ t) len n i res = pure (some (res + restValue cs))) ∨
    ((¬∀ c ∈ cs, IsCont c) ∧ decodeRest (pre ++ cs ++ t) len n i res = pure none) := by
  induction n generalizing i res pre cs with
  | zero =>
    obtain rfl := List.length_eq_zero_iff.mp hn
    exact Or.inl ⟨by simp, rfl⟩
  | succ n ih =>
    match cs with
    | c :: cs =>
      have hn : cs.length = n := Nat.succ_inj.mp hn
      by_cases hc : IsCont c
      · have hres' : (res + c.toNat % 64 * 2 ^ (6 * n)) % 2 ^ (6 * n) = 0 := by
          rw [Nat.add_mul_mod_self_right]
          rw [pow_six_succ] at hres
          exact Nat.mod_eq_zero_of_dvd ((Nat.dvd_mul_right _ _).trans (Nat.dvd_of_mod_eq_zero hres))
        have hpre' : (pre ++ [c]).length = i + 1 := by simp [hpre]
        rw [decodeRest_cons hpre hlen hres hc, List.forall_mem_cons]
        rcases ih hpre' hn (by omega) hres' with ⟨hcs, hrun⟩ | ⟨hcs, hrun⟩
        · refine Or.inl ⟨⟨hc, hcs⟩, ?_⟩
          rw [hrun, restValue, hn, Nat.add_assoc]
        · exact Or.inr ⟨fun h => hcs h.2, hrun⟩
      · exact Or.inr ⟨fun h => hc (List.forall_mem_cons.mp h).1, decodeRest_stop hpre hc⟩

section Sequence

variable {b : UInt8} {k res mincp maxcp : Nat}

/-- What follows the rest of a sequence, after its first byte. -/
theorem utf8ToUtf32_eq (hfirst : firstOf b.toNat = some ⟨k + 1, res, mincp, maxcp⟩) {cs : Bytes}
    (hcs : cs.length = k) (t : Bytes) (out : Nat) : utf8ToUtf32 (b :: cs ++ t) out = (do
      match ← decodeRest (b :: cs ++ t) (k + 1) k 1 res with
      | none => pure (0, out)
      | some res =>
        if res < mincp then pure (0, out)
        else if res > maxcp then pure (0, out)
        else if !utf32IsValid res then pure (0, out)
        else pure (k + 1, res)) := by
  have hfetch : fetch (b :: cs ++ t) 0 = pure b := rfl
  rw [utf8ToUtf32, if_neg (by simp), hfetch, pure_bind, decodeFirst_eq, hfirst]
  simp only []
  rw [if_neg (by simp [hcs])]
  rfl

/-- The first byte and the additional bytes, if there are enough of them. -/
theorem utf8ToUtf32_cons (hfirst : firstOf b.toNat = some ⟨k + 1, res, mincp, maxcp⟩)
    (hres : res % 2 ^ (6 * k) = 0) {cs : Bytes} (hcs : cs.length = k) (t : Bytes) (out : Nat) :
    ((∀ c ∈ cs, IsCont c) ∧ mincp ≤ res + restValue cs ∧ res + restValue cs ≤ maxcp ∧
      Valid (res + restValue cs) ∧
      utf8ToUtf32 (b :: cs ++ t) out = pure (k + 1, res + restValue cs)) ∨
    (¬((∀ c ∈ cs, IsCont c) ∧ mincp ≤ res + restValue cs ∧ res + restValue cs ≤ maxcp ∧
      Valid (res + restValue cs)) ∧ utf8ToUtf32 (b :: cs ++ t) out = pure (0, out)) := by
  have hrest := decodeRest_run (t := t) (show [b].length = 1 from rfl) hcs (Nat.add_comm k 1) hres
  rw [List.singleton_append] at hrest
  rw [utf8ToUtf32_eq hfirst hcs]
  rcases hrest with ⟨hcont, hrest⟩ | ⟨hcont, hrest⟩
  · rw [hrest, pure_bind]
    dsimp only
    by_cases hmin : res + restValue cs < mincp
    · exact Or.inr ⟨fun h => absurd h.2.1 (by omega), if_pos hmin⟩
    rw [if_neg hmin]
    by_cases hmax : res + restValue cs > maxcp
    · exact Or.inr ⟨fun h => absurd h.2.2.1 (by omega), if_pos hmax⟩
    rw [if_neg hmax]
    by_cases hv : Valid (res + restValue cs)
    · refine Or.inl ⟨hcont, by omega, by omega, hv, ?_⟩
      rw [utf32IsValid_iff.mpr hv]
      rfl
    · refine Or.inr ⟨fun h => hv h.2.2.2, ?_⟩
      rw [Bool.eq_false_iff.mpr (mt utf32IsValid_iff.mp hv)]
      rfl
  · rw [hrest, pure_bind]
    exact Or.inr ⟨fun h => hcont h.1, rfl⟩

/-- Not enough bytes. -/
theorem utf8ToUtf32_short (hfirst : firstOf b.toNat = some ⟨k + 1, res, mincp, maxcp⟩) {rest : Bytes}
    (hrest : rest.length < k) (out : Nat) : utf8ToUtf32 (b :: rest) out = pure (0, out) := by
  have hfetch : fetch (b :: rest) 0 = pure b := rfl
  rw [utf8ToUtf32, if_neg (by simp), hfetch, pure_bind, decodeFirst_eq, hfirst]
  simp only []
  rw [if_pos (by simpa using hrest)]

end Sequence

/-- What the bytes of a codepoint are followed by does not matter. -/
theorem utf8ToUtf32_seq {cp : Nat} (hv : Valid cp) (t : Bytes) (out : Nat) :
    utf8ToUtf32 (seq cp ++ t) out = pure ((seq cp).length, cp) := by
  have hlong : ∀ {b : UInt8} {k mincp maxcp : Nat},
      firstOf b.toNat = some ⟨k + 1, cp / 2 ^ (6 * k) * 2 ^ (6 * k), mincp, maxcp⟩ → mincp ≤ cp →
      cp ≤ maxcp → utf8ToUtf32 (b :: contBytes cp k ++ t) out = pure (k + 1, cp) := by
    intro b k mincp maxcp hfirst hmin hmax
    have hvalue : cp / 2 ^ (6 * k) * 2 ^ (6 * k) + restValue (contBytes cp k) = cp := by
      rw [restValue_contBytes, Nat.mul_comm, Nat.div_add_mod]
    rcases utf8ToUtf32_cons hfirst (Nat.mul_mod_left _ _) (length_contBytes cp k) t out with
      ⟨-, -, -, -, hrun⟩ | ⟨hno, -⟩
    · rw [hrun, hvalue]
    · rw [hvalue] at hno
      exact absurd ⟨isCont_contBytes cp k, hmin, hmax, hv⟩ hno
  have hle := hv.1
  rw [seq]
  split_ifs with h1 h2 h3
  · have hbyte : (UInt8.ofNat cp).toNat = cp := by
      rw [UInt8.toNat_ofNat']
      omega
    refine hlong (k := 0) ?_ (Nat.zero_le _) h1
    rw [hbyte, firstOf_one (by omega), Nat.mul_zero, Nat.pow_zero, Nat.div_one, Nat.mul_one]
  · have hbyte : (UInt8.ofNat (0xc0 + cp / 2 ^ 6)).toNat = 0xc0 + cp / 2 ^ 6 := by
      rw [UInt8.toNat_ofNat']
      omega
    rw [List.length_cons, length_contBytes]
    refine hlong ?_ (by omega : 0x80 ≤ cp) h2
    rw [hbyte, firstOf_two (by omega) (by omega), Nat.add_sub_cancel_left]
  · have hbyte : (UInt8.ofNat (0xe0 + cp / 2 ^ 12)).toNat = 0xe0 + cp / 2 ^ 12 := by
      rw [UInt8.toNat_ofNat']
      omega
    rw [List.length_cons, length_contBytes]
    refine hlong ?_ (by omega : 0x800 ≤ cp) h3
    rw [hbyte, firstOf_three (by omega) (by omega), Nat.add_sub_cancel_left]
  · have hbyte : (UInt8.ofNat (0xf0 + cp / 2 ^ 18)).toNat = 0xf0 + cp / 2 ^ 18 := by
      rw [UInt8.toNat_ofNat']
      omega
    rw [List.length_cons, length_contBytes]
    refine hlong ?_ (by omega : 0x10000 ≤ cp) hle
    rw [hbyte, firstOf_four (by omega) (by omega), Nat.add_sub_cancel_left]

/-- What is accepted are the bytes of the codepoint that is returned. -/
def Found (input : Bytes) (out : Nat) : Prop :=
  utf8ToUtf32 input out = pure (0, out) ∨
  ∃ cp t, Valid cp ∧ input = seq cp ++ t ∧ utf8ToUtf32 input out = pure ((seq cp).length, cp)

/-- A sequence with `k` additional bytes, whose first byte has the bits `hi`. -/
theorem found_cons {b : UInt8} {k hi mincp maxcp : Nat} {rest : Bytes} (base out : Nat)
    (hb : b.toNat = base + hi) (hfirst : firstOf b.toNat = some ⟨k + 1, hi * 2 ^ (6 * k), mincp, maxcp⟩)
    (hseq : ∀ cp, mincp ≤ cp → cp ≤ maxcp →
      seq cp = .ofNat (base + cp / 2 ^ (6 * k)) :: contBytes cp k) : Found (b :: rest) out := by
  by_cases hlen : rest.length < k
  · exact Or.inl (utf8ToUtf32_short hfirst hlen out)
  have hcs : (rest.take k).length = k := by
    rw [List.length_take]
    omega
  have hsplit : b :: rest = b :: rest.take k ++ rest.drop k := by
    rw [List.cons_append, List.take_append_drop]
  have hpos : 0 < 2 ^ (6 * k) := Nat.two_pow_pos _
  have hlt := restValue_lt (rest.take k)
  rw [hcs] at hlt
  rcases utf8ToUtf32_cons hfirst (Nat.mul_mod_left _ _) hcs (rest.drop k) out with
    ⟨hcont, hmin, hmax, hv, hrun⟩ | ⟨-, hrun⟩
  · have hdiv : (hi * 2 ^ (6 * k) + restValue (rest.take k)) / 2 ^ (6 * k) = hi := by
      rw [Nat.mul_comm, Nat.mul_add_div hpos, Nat.div_eq_of_lt hlt, Nat.add_zero]
    have hmod : (hi * 2 ^ (6 * k) + restValue (rest.take k)) % 2 ^ (6 * k) = restValue (rest.take k) := by
      rw [Nat.mul_comm, Nat.mul_add_mod, Nat.mod_eq_of_lt hlt]
    have hbytes := contBytes_restValue hcont (by rw [hcs]; exact hmod)
    rw [hcs] at hbytes
    have hlist : seq (hi * 2 ^ (6 * k) + restValue (rest.take k)) = b :: rest.take k := by
      rw [hseq _ hmin hmax, hdiv, hbytes, ← hb, UInt8.ofNat_toNat]
    refine Or.inr ⟨_, rest.drop k, hv, ?_, ?_⟩
    · rw [hlist, hsplit]
    · rw [hlist, hsplit, hrun, List.length_cons, hcs]
  · rw [← hsplit] at hrun
    exact Or.inl hrun

theorem found (input : Bytes) (out : Nat) : Found input out := by
  cases input with
  | nil => exact Or.inl rfl
  | cons b rest =>
    have hnone : firstOf b.toNat = none → Found (b :: rest) out := by
      intro hfirst
      have hfetch : fetch (b :: rest) 0 = pure b := rfl
      refine Or.inl ?_
      rw [utf8ToUtf32, if_neg (by simp), hfetch, pure_bind, decodeFirst_eq, hfirst]
    by_cases h1 : b.toNat < 0x80
    · have hfirst : firstOf b.toNat = some ⟨0 + 1, b.toNat * 2 ^ (6 * 0), 0x00, 0x7f⟩ := by
        rw [firstOf_one h1, Nat.mul_zero, Nat.pow_zero, Nat.mul_one]
      refine found_cons 0 out (Nat.zero_add _).symm hfirst ?_
      intro cp hmin hmax
      rw [seq, if_pos hmax]
      simp [contBytes]
    by_cases h2 : b.toNat < 0xc0
    · exact hnone (by rw [firstOf, if_neg h1, if_pos h2])
    by_cases h3 : b.toNat < 0xe0
    · refine found_cons (k := 1) 0xc0 out (by omega) (firstOf_two (by omega) h3) ?_
      intro cp hmin hmax
      rw [seq, if_neg (by omega), if_pos hmax]
    by_cases h4 : b.toNat < 0xf0
    · refine found_cons (k := 2) 0xe0 out (by omega) (firstOf_three (by omega) h4) ?_
      intro cp hmin hmax
      rw [seq, if_neg (by omega), if_neg (by omega), if_pos hmax]
    by_cases h5 : b.toNat < 0xf8
    · refine found_cons (k := 3) 0xf0 out (by omega) (firstOf_four (by omega) h5) ?_
      intro cp hmin hmax
      rw [seq, if_neg (by omega), if_neg (by omega), if_neg (by omega)]
    · exact hnone (by rw [firstOf, if_neg h1, if_neg h2, if_neg h3, if_neg h4, if_neg h5])

/-! ## Texts -/

theorem seq_append_inj {cp cp' : Nat} (hv : Valid cp) (hv' : Valid cp') {t t' : Bytes}
    (h : seq cp ++ t = seq cp' ++ t') : cp = cp' ∧ t = t' := by
  have hrun := utf8ToUtf32_seq hv t 0
  rw [h, utf8ToUtf32_seq hv' t' 0] at hrun
  obtain ⟨-, rfl⟩ := Prod.mk.inj (pure_inj hrun)
  exact ⟨rfl, List.append_cancel_left h⟩

theorem encodes_nil_iff {cps : List Nat} (h : Encodes [] cps) : cps = [] := by
  cases cps with
  | nil => rfl
  | cons cp cps =>
    obtain ⟨hv, heq⟩ := h
    rw [List.flatMap_cons, encoding_eq (hv cp List.mem_cons_self)] at heq
    exact absurd (List.append_eq_nil_iff.mp heq.symm).1 (seq_ne_nil cp)

theorem encodes_cons {src t : Bytes} {cp : Nat} {cps : List Nat} (hv : Valid cp) (hsrc : src = seq cp ++ t)
    (h : Encodes t cps) : Encodes src (cp :: cps) := by
  refine ⟨List.forall_mem_cons.mpr ⟨hv, h.1⟩, ?_⟩
  rw [hsrc, h.2, List.flatMap_cons, encoding_eq hv]

/-- A text starts with the bytes of its first codepoint. -/
theorem Encodes.uncons {src : Bytes} {cps : List Nat} (h : Encodes src cps) (hne : src ≠ []) :
    ∃ cp cps' t, cps = cp :: cps' ∧ Valid cp ∧ src = seq cp ++ t ∧ Encodes t cps' := by
  obtain ⟨hv, heq⟩ := h
  cases cps with
  | nil => exact absurd heq hne
  | cons cp cps =>
    obtain ⟨hcp, hcps⟩ := List.forall_mem_cons.mp hv
    rw [List.flatMap_cons, encoding_eq hcp] at heq
    exact ⟨cp, cps, _, rfl, hcp, heq, hcps, rfl⟩

theorem Encodes.unique {src : Bytes} {cps cps' : List Nat} (h : Encodes src cps)
    (h' : Encodes src cps') : cps = cps' := by
  induction cps generalizing src cps' with
  | nil =>
    have hsrc : src = [] := h.2
    rw [hsrc] at h'
    exact (encodes_nil_iff h').symm
  | cons cp cps ih =>
    have hne : src ≠ [] := by
      rintro rfl
      cases encodes_nil_iff h
    obtain ⟨_, _, t, hcons, hv, hsrc, ht⟩ := h.uncons hne
    obtain ⟨rfl, rfl⟩ := List.cons.inj hcons
    obtain ⟨cp', cps', t', rfl, hv', hsrc', ht'⟩ := h'.uncons hne
    obtain ⟨rfl, rfl⟩ := seq_append_inj hv hv' (hsrc.symm.trans hsrc')
    rw [ih ht ht']

/-- The loop from an offset on. -/
theorem valid_run (src : Bytes) (i : Nat) (hi : i ≤ src.length) :
    ∃ r, loop (validStep src) i = pure r ∧ (r = .ok () ∨ r = .error .EILSEQ) ∧
      (r = .ok () ↔ ∃ cps, Encodes (src.drop i) cps) := by
  induction hn : src.length - i using Nat.strong_induction_on generalizing i with
  | _ n ih =>
    by_cases hlt : i < src.length
    · have hne : src.drop i ≠ [] := by
        rw [← List.length_pos_iff, List.length_drop]
        omega
      rcases found (src.drop i) 0 with hrun | ⟨cp, t, hv, hsrc, hrun⟩
      · refine ⟨.error .EILSEQ, loop_done ?_, Or.inr rfl, ?_⟩
        · rw [validStep, if_pos hlt, hrun]
          rfl
        · refine ⟨nofun, ?_⟩
          rintro ⟨cps, hcps⟩
          obtain ⟨cp, _, t, _, hv, hsrc, _⟩ := hcps.uncons hne
          rw [hsrc, utf8ToUtf32_seq hv] at hrun
          have hzero := (Prod.mk.inj (pure_inj hrun)).1
          exact absurd (List.length_eq_zero_iff.mp hzero) (seq_ne_nil cp)
      · have hpos : 0 < (seq cp).length := List.length_pos_iff.mpr (seq_ne_nil cp)
        have hlen : src.length - i = (seq cp).length + t.length := by
          rw [← List.length_drop, hsrc, List.length_append]
        have hstep : validStep src i = pure (.inl (i + (seq cp).length)) := by
          rw [validStep, if_pos hlt, hrun, pure_bind]
          dsimp only
          rw [if_neg (by omega)]
        have hdrop : src.drop (i + (seq cp).length) = t := by
          rw [← List.drop_drop, hsrc, List.drop_left]
        obtain ⟨r, hr, hcases, hiff⟩ := ih _ (by omega) (i + (seq cp).length) (by omega) rfl
        rw [hdrop] at hiff
        refine ⟨r, (loop_next hstep).trans hr, hcases, hiff.trans ⟨?_, ?_⟩⟩
        · rintro ⟨cps, hcps⟩
          exact ⟨cp :: cps, encodes_cons hv hsrc hcps⟩
        · rintro ⟨cps, hcps⟩
          obtain ⟨cp', cps', t', -, hv', hsrc', ht'⟩ := hcps.uncons hne
          obtain ⟨-, rfl⟩ := seq_append_inj hv hv' (hsrc.symm.trans hsrc')
          exact ⟨cps', ht'⟩
    · refine ⟨.ok (), loop_done ?_, Or.inl rfl, fun _ => ⟨[], by simp, ?_⟩, fun _ => rfl⟩
      · rw [validStep, if_neg hlt]
      · exact List.drop_eq_nil_of_le (by omega)

theorem codepoints_run {src : Bytes} {cps : List Nat} (i : Nat) (acc : List Nat)
    (h : Encodes (src.drop i) cps) : loop (codepointsStep src) (i, acc) = pure (some (acc ++ cps)) := by
  induction cps generalizing i acc with
  | nil =>
    have hlen : src.length ≤ i := List.drop_eq_nil_iff.mp h.2
    refine loop_done ?_
    rw [codepointsStep, if_neg (by simpa using hlen), List.append_nil]
  | cons cp cps ih =>
    have hne : src.drop i ≠ [] := by
      intro hnil
      rw [hnil] at h
      cases encodes_nil_iff h
    have hlt : i < src.length := by
      rw [← List.length_pos_iff, List.length_drop] at hne
      omega
    obtain ⟨_, _, t, hcons, hv, hsrc, ht⟩ := h.uncons hne
    obtain ⟨rfl, rfl⟩ := List.cons.inj hcons
    have hdrop : src.drop (i + (seq cp).length) = t := by
      rw [← List.drop_drop, hsrc, List.drop_left]
    have hstep : codepointsStep src (i, acc) = pure (.inl (i + (seq cp).length, acc ++ [cp])) := by
      rw [codepointsStep, if_pos hlt, hsrc, utf8ToUtf32_seq hv, pure_bind]
      dsimp only
      rw [if_neg (by simp [seq_ne_nil cp])]
    rw [loop_next hstep, ih _ _ (by rw [hdrop]; exact ht), List.append_assoc, List.singleton_append]

/-- A byte string is valid if it is the text of codepoints, which are unique and are the ones that the
decoder finds. The decoder gives back what the encoder wrote, whatever follows, and no byte beyond the
end of a string is read. -/
theorem utf8_valid_iff_encoded (s : Bytes) :
    (∃ r, utf8IsValidStr s = pure r ∧ (r = .ok () ∨ r = .error .EILSEQ) ∧
      (r = .ok () ↔ ∃ cps, Encodes s cps)) ∧
    (∀ cps cps', Encodes s cps → Encodes s cps' → cps = cps') ∧
    (∀ cps, Encodes s cps → codepoints s = pure (some cps)) ∧
    (∀ cp, cp ≤ 0x10ffff → ¬(0xd800 ≤ cp ∧ cp ≤ 0xdfff) →
      (∀ buf : Bytes, 4 ≤ buf.length → utf32ToUtf8 cp buf =
        pure (.ok (encoding cp).length, encoding cp ++ buf.drop (encoding cp).length)) ∧
      ∀ t out, utf8ToUtf32 (encoding cp ++ t) out = pure ((encoding cp).length, cp)) ∧
    ∀ out, ∃ r, utf8ToUtf32 s out = pure r := by
  refine ⟨valid_run s 0 (Nat.zero_le _), fun _ _ h h' => h.unique h', ?_, ?_, ?_⟩
  · intro cps h
    exact codepoints_run 0 [] h
  · intro cp hle hsur
    rw [encoding_eq ⟨hle, hsur⟩]
    exact ⟨fun buf hbuf => utf32ToUtf8_run ⟨hle, hsur⟩ buf ((length_seq_le cp).trans hbuf),
      utf8ToUtf32_seq ⟨hle, hsur⟩⟩
  · intro out
    rcases found s out with hrun | ⟨cp, t, hv, hs, hrun⟩
    · exact ⟨_, hrun⟩
    · exact ⟨_, hrun⟩

end Libjeffpc.Unicode
