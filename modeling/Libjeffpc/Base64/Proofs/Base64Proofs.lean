import Libjeffpc.Base64.Base64
import Libjeffpc.Lib.Bits

/-!
# Base64 decoding

The bytes of a text are computed from its codes, group by group, by `decodeCodes`, and the codes of a
text from its bytes by `encodeCodes`. The loops write what these functions say.
-/

namespace Libjeffpc.Base64

open Lib

/-! ## Groups -/

def encodeCodes : Bytes → List (Fin 64)
  | [] => []
  | [x] => [.ofNat 64 (x.toNat * 2 ^ 4 / 2 ^ 6), .ofNat 64 (x.toNat * 2 ^ 4)]
  | [x, y] =>
    let v := (x.toNat * 2 ^ 8 + y.toNat) * 2 ^ 2
    [.ofNat 64 (v / 2 ^ 12), .ofNat 64 (v / 2 ^ 6), .ofNat 64 v]
  | x :: y :: z :: rest =>
    let v := x.toNat * 2 ^ 16 + y.toNat * 2 ^ 8 + z.toNat
    .ofNat 64 (v / 2 ^ 18) :: .ofNat 64 (v / 2 ^ 12) :: .ofNat 64 (v / 2 ^ 6) :: .ofNat 64 v ::
      encodeCodes rest

def decodeCodes : List (Fin 64) → Bytes
  | [] => []
  | [_] => []
  | [a, b] => [.ofNat ((a.1 * 2 ^ 6 + b.1) / 2 ^ 4)]
  | [a, b, c] =>
    let v := (a.1 * 2 ^ 12 + b.1 * 2 ^ 6 + c.1) / 2 ^ 2
    [.ofNat (v / 2 ^ 8), .ofNat v]
  | a :: b :: c :: d :: rest =>
    let v := a.1 * 2 ^ 18 + b.1 * 2 ^ 12 + c.1 * 2 ^ 6 + d.1
    .ofNat (v / 2 ^ 16) :: .ofNat (v / 2 ^ 8) :: .ofNat v :: decodeCodes rest

theorem decodeCodes_encodeCodes (x : Bytes) : decodeCodes (encodeCodes x) = x := by
  induction x using encodeCodes.induct with
  | case1 => simp only [encodeCodes, decodeCodes]
  | case2 x =>
    have hx := x.toNat_lt
    simp only [encodeCodes, decodeCodes, List.cons.injEq, and_true, ← UInt8.toNat_inj,
      UInt8.toNat_ofNat', Fin.val_ofNat]
    omega
  | case3 x y =>
    have hx := x.toNat_lt
    have hy := y.toNat_lt
    simp only [encodeCodes, decodeCodes, List.cons.injEq, and_true, ← UInt8.toNat_inj,
      UInt8.toNat_ofNat', Fin.val_ofNat]
    refine ⟨?_, ?_⟩ <;> omega
  | case4 x y z rest ih =>
    have hx := x.toNat_lt
    have hy := y.toNat_lt
    have hz := z.toNat_lt
    simp only [encodeCodes, decodeCodes, ih, List.cons.injEq, and_true, ← UInt8.toNat_inj,
      UInt8.toNat_ofNat', Fin.val_ofNat]
    refine ⟨?_, ?_, ?_⟩ <;> omega

theorem length_encodeCodes (x : Bytes) : (encodeCodes x).length = (4 * x.length + 2) / 3 := by
  induction x using encodeCodes.induct with
  | case4 x y z rest ih =>
    simp only [encodeCodes, List.length_cons, ih]
    omega
  | _ => simp [encodeCodes]

theorem length_decodeCodes (codes : List (Fin 64)) :
    (decodeCodes codes).length = 3 * codes.length / 4 := by
  induction codes using decodeCodes.induct with
  | case5 a b c d rest ih =>
    simp only [decodeCodes, List.length_cons, ih]
    omega
  | _ => simp [decodeCodes]

/-- Whole groups of bytes. -/
theorem encodeCodes_append {x : Bytes} (h : x.length % 3 = 0) (y : Bytes) :
    encodeCodes (x ++ y) = encodeCodes x ++ encodeCodes y := by
  induction x using encodeCodes.induct with
  | case1 => simp [encodeCodes]
  | case2 a => simp at h
  | case3 a b => simp at h
  | case4 a b c rest ih =>
    have hrest : rest.length % 3 = 0 := by
      simp only [List.length_cons] at h
      omega
    simp only [List.cons_append, encodeCodes, ih hrest]

/-- Whole groups of codes. -/
theorem decodeCodes_append {x : List (Fin 64)} (h : x.length % 4 = 0) (y : List (Fin 64)) :
    decodeCodes (x ++ y) = decodeCodes x ++ decodeCodes y := by
  induction x using decodeCodes.induct with
  | case1 => simp [decodeCodes]
  | case2 a => simp at h
  | case3 a b => simp at h
  | case4 a b c => simp at h
  | case5 a b c d rest ih =>
    have hrest : rest.length % 4 = 0 := by
      simp only [List.length_cons] at h
      omega
    simp only [List.cons_append, decodeCodes, ih hrest]

/-! ## Bits -/

theorem byteBits_append (x y : Bytes) : byteBits (x ++ y) = byteBits x ++ byteBits y :=
  List.flatMap_append

theorem codeBits_append (x y : List (Fin 64)) : codeBits (x ++ y) = codeBits x ++ codeBits y :=
  List.flatMap_append

/-- The 24 bits of a group. -/
theorem byteBits_group {v : Nat} {a b c d : Fin 64}
    (hv : v = a.1 * 2 ^ 18 + b.1 * 2 ^ 12 + c.1 * 2 ^ 6 + d.1) :
    byteBits [.ofNat (v / 2 ^ 16), .ofNat (v / 2 ^ 8), .ofNat v] = codeBits [a, b, c, d] := by
  have ha : a.1 = v / 2 ^ 18 % 2 ^ 6 := by omega
  have hb : b.1 = v / 2 ^ 12 % 2 ^ 6 := by omega
  have hc : c.1 = v / 2 ^ 6 % 2 ^ 6 := by omega
  have hd : d.1 = v % 2 ^ 6 := by omega
  have hbyte : ∀ n, (UInt8.ofNat n).toNat = n % 2 ^ 8 := fun _ => rfl
  simp only [byteBits, codeBits, ha, hb, hc, hd, hbyte, Nat.testBit_mod_two_pow,
    Nat.testBit_div_two_pow, List.flatMap_cons, List.flatMap_nil, List.map_cons, List.map_nil]
  simp

/-- The bits of the bytes are the leading bits of the codes. -/
theorem byteBits_decodeCodes (codes : List (Fin 64)) :
    byteBits (decodeCodes codes) = (codeBits codes).take (8 * (decodeCodes codes).length) := by
  induction codes using decodeCodes.induct with
  | case1 => rfl
  | case2 a => simp [decodeCodes, byteBits]
  | case3 a b =>
    -- the missing codes are 0
    have hgroup := congrArg (List.take 8) (byteBits_group (a := a) (b := b) (c := 0) (d := 0) rfl)
    have hv : (a.1 * 2 ^ 18 + b.1 * 2 ^ 12 + (0 : Fin 64).1 * 2 ^ 6 + (0 : Fin 64).1) / 2 ^ 16 =
        (a.1 * 2 ^ 6 + b.1) / 2 ^ 4 := by
      simp only [Fin.val_zero]
      omega
    rw [hv] at hgroup
    simp only [decodeCodes]
    exact hgroup
  | case4 a b c =>
    have hgroup := congrArg (List.take 16) (byteBits_group (a := a) (b := b) (c := c) (d := 0) rfl)
    have hv : (a.1 * 2 ^ 18 + b.1 * 2 ^ 12 + c.1 * 2 ^ 6 + (0 : Fin 64).1) / 2 ^ 8 =
        (a.1 * 2 ^ 12 + b.1 * 2 ^ 6 + c.1) / 2 ^ 2 := by
      simp only [Fin.val_zero]
      omega
    have hv' : (a.1 * 2 ^ 18 + b.1 * 2 ^ 12 + c.1 * 2 ^ 6 + (0 : Fin 64).1) / 2 ^ 16 =
        (a.1 * 2 ^ 12 + b.1 * 2 ^ 6 + c.1) / 2 ^ 2 / 2 ^ 8 := by
      simp only [Fin.val_zero]
      omega
    rw [hv, hv'] at hgroup
    simp only [decodeCodes]
    exact hgroup
  | case5 a b c d rest ih =>
    have hgroup := byteBits_group (a := a) (b := b) (c := c) (d := d) rfl
    have hlen : (codeBits [a, b, c, d]).length = 24 := rfl
    have hsplit : codeBits (a :: b :: c :: d :: rest) = codeBits [a, b, c, d] ++ codeBits rest :=
      codeBits_append [a, b, c, d] rest
    rw [decodeCodes]
    generalize a.1 * 2 ^ 18 + b.1 * 2 ^ 12 + c.1 * 2 ^ 6 + d.1 = v at hgroup ⊢
    have hbytes : byteBits (.ofNat (v / 2 ^ 16) :: .ofNat (v / 2 ^ 8) :: .ofNat v :: decodeCodes rest) =
        codeBits [a, b, c, d] ++ byteBits (decodeCodes rest) := by
      rw [← hgroup]
      exact byteBits_append [.ofNat (v / 2 ^ 16), .ofNat (v / 2 ^ 8), .ofNat v] _
    rw [hbytes, ih, hsplit, List.take_append, hlen]
    simp only [List.length_cons]
    have hmul : 8 * ((decodeCodes rest).length + 1 + 1 + 1) - 24 = 8 * (decodeCodes rest).length := by
      omega
    have hle : (codeBits [a, b, c, d]).length ≤ 8 * ((decodeCodes rest).length + 1 + 1 + 1) := by
      rw [hlen]
      omega
    rw [hmul, List.take_of_length_le hle]

/-! ## Tables -/

def Alphabet.table : Alphabet → Bytes
  | .standard => b64DecodeTable
  | .urlSafe => b64urlDecodeTable

/-- The code of a character. -/
def Alphabet.code (α : Alphabet) (c : UInt8) : Option (Fin 64) :=
  let v := (α.table.getD c.toNat INV).toNat
  if h : v < 64 then some ⟨v, h⟩ else none

/-- The byte that a table holds for a character. -/
def entry (i : Option (Fin 64)) : UInt8 := i.elim INV fun i => .ofNat i

variable {α : Alphabet}

theorem code_char (i : Fin 64) : α.code (α.chars.getD i 0) = some i := by
  have hall : ∀ i : Fin 64, α.code (α.chars.getD i 0) = some i := by
    cases α <;> decide +kernel
  exact hall i

theorem table_byte (c : UInt8) : α.table[c.toNat]? = some (α.table.getD c.toNat INV) := by
  have hlen : α.table.length = 256 := by cases α <;> decide +kernel
  have hlt := c.toNat_lt
  rw [List.getD_eq_getElem?_getD, List.getElem?_eq_getElem (by omega), Option.getD_some]

/-- An entry of a table is the code of its character, or `INV`. -/
theorem table_inverse (c : UInt8) : α.table.getD c.toNat INV = INV ∨
    (α.table.getD c.toNat INV).toNat < 64 ∧
      α.chars.getD (α.table.getD c.toNat INV).toNat 0 = c := by
  have hall : ∀ p ∈ α.table.zipIdx, p.1 = INV ∨
      p.1.toNat < 64 ∧ α.chars.getD p.1.toNat 0 = .ofNat p.2 := by
    cases α <;> decide +kernel
  have := hall (_, c.toNat) (List.mem_zipIdx_iff_getElem?.mpr (table_byte c))
  rwa [UInt8.ofNat_toNat] at this

theorem char_code {c : UInt8} {i : Fin 64} (h : α.code c = some i) : α.chars.getD i 0 = c := by
  rw [Alphabet.code] at h
  split at h
  · next hlt =>
    obtain rfl := Option.some.inj h
    rcases table_inverse (α := α) c with hinv | ⟨-, hchar⟩
    · rw [hinv] at hlt
      exact absurd hlt (by decide)
    · exact hchar
  · cases h

theorem chars_get (i : Fin 64) : α.chars[i.1]? = some (α.chars.getD i 0) := by
  have hlen : α.chars.length = 64 := by cases α <;> rfl
  rw [List.getD_eq_getElem?_getD, List.getElem?_eq_getElem (by omega), Option.getD_some]

theorem table_get (c : UInt8) : α.table[c.toNat]? = some (entry (α.code c)) := by
  rw [table_byte, Alphabet.code]
  rcases table_inverse (α := α) c with hinv | ⟨hlt, -⟩
  · rw [hinv]
    rfl
  · rw [dif_pos hlt, entry, Option.elim_some, UInt8.ofNat_toNat]

/-- The pad character is no character of a code. -/
theorem code_pad : α.code (ch '=') = none := by
  cases α <;> rfl

theorem inv_or (x : UInt8) : INV ||| x = INV := by
  revert x
  exact forall_byte (by decide +kernel)

theorem entry_toNat (i : Fin 64) : (entry (some i)).toNat = i.1 := by
  show i.1 % 256 = i.1
  omega

/-- `CHECK_INV` finds an invalid character: no code has the bit 0x40. -/
theorem checkInv_entry (a b c d : Option (Fin 64)) :
    checkInv (entry a) (entry b) (entry c) (entry d) =
      !(a.isSome && b.isSome && c.isSome && d.isSome) := by
  rcases a with _ | a
  · simp [checkInv, entry, inv_or]
  rcases b with _ | b
  · simp [checkInv, entry, UInt8.or_comm _ INV, inv_or]
  rcases c with _ | c
  · simp [checkInv, entry, UInt8.or_comm _ INV, inv_or]
  rcases d with _ | d
  · simp [checkInv, entry, UInt8.or_comm _ INV, inv_or]
  have hlt : (entry (some a) ||| entry (some b) ||| entry (some c) ||| entry (some d)).toNat < 2 ^ 6 := by
    simp only [UInt8.toNat_or, entry_toNat]
    exact Nat.or_lt_two_pow (Nat.or_lt_two_pow (Nat.or_lt_two_pow a.2 b.2) c.2) d.2
  have hne : entry (some a) ||| entry (some b) ||| entry (some c) ||| entry (some d) ≠ INV := by
    intro he
    rw [he] at hlt
    exact absurd hlt (by decide)
  simp [checkInv, hne]

/-! ## Encoding -/

theorem fetch_char (n : Nat) :
    fetch α.chars (n &&& 0x3f) = pure (α.chars.getD (Fin.ofNat 64 n) 0) := by
  rw [and_six]
  exact fetch_eq (chars_get (Fin.ofNat 64 n))

theorem spell_append (x y : List (Fin 64)) : α.spell (x ++ y) = α.spell x ++ α.spell y := by
  simp [Alphabet.spell]

theorem spell_cons (i : Fin 64) (codes : List (Fin 64)) :
    α.spell (i :: codes) = α.chars.getD i 0 :: α.spell codes :=
  rfl

theorem length_spell (codes : List (Fin 64)) : (α.spell codes).length = codes.length := by
  simp [Alphabet.spell]

theorem encodeGroup_run {i : Nat} {pre post done free : Bytes} {x y z w₀ w₁ w₂ w₃ : UInt8}
    (hpre : pre.length = i * 3) (hdone : done.length = i * 4) :
    encodeGroup α.chars (pre ++ x :: y :: z :: post) (done ++ w₀ :: w₁ :: w₂ :: w₃ :: free) i =
      pure (done ++ α.spell (encodeCodes [x, y, z]) ++ free) := by
  have hx := x.toNat_lt
  have hy := y.toNat_lt
  have hz := z.toNat_lt
  have hv : x.toNat <<< 16 ||| y.toNat <<< 8 ||| z.toNat =
      x.toNat * 2 ^ 16 + y.toNat * 2 ^ 8 + z.toNat := by
    have hxy : x.toNat * 2 ^ 16 ||| y.toNat * 2 ^ 8 = x.toNat * 2 ^ 16 + y.toNat * 2 ^ 8 :=
      or_add (k := 16) (by omega) (by omega)
    rw [Nat.shiftLeft_eq, Nat.shiftLeft_eq, hxy, or_add (k := 8) (by omega) (by omega)]
  rw [encodeGroup]
  simp only []
  rw [fetch_add (k := 0) hpre.symm rfl, pure_bind, fetch_add (k := 1) (by omega) rfl, pure_bind,
    fetch_add (k := 2) (by omega) rfl, pure_bind, hv]
  simp only [fetch_char, pure_bind, Nat.shiftRight_eq_div_pow]
  rw [store_add (k := 0) (by omega) (by simp), pure_bind, store_add (k := 1) (by omega) (by simp), pure_bind,
    store_add (k := 2) (by omega) (by simp), pure_bind, store_add (k := 3) (by omega) (by simp)]
  simp [encodeCodes, Alphabet.spell]

/-- The first `n` groups. -/
theorem encodeGroups_run {input out : Bytes} (n : Nat) (hin : n * 3 ≤ input.length)
    (hout : n * 4 ≤ out.length) :
    (List.range n).foldlM (encodeGroup α.chars input) out =
      pure (α.spell (encodeCodes (input.take (n * 3))) ++ out.drop (n * 4)) := by
  induction n with
  | zero => simp [encodeCodes, Alphabet.spell]
  | succ n ih =>
    obtain ⟨x, y, z, post, hpost⟩ := exists_three (l := input.drop (n * 3)) (by simp; omega)
    obtain ⟨w₀, w₁, w₂, w₃, free, hfree⟩ := exists_four (l := out.drop (n * 4)) (by simp; omega)
    have hsplit : input = input.take (n * 3) ++ x :: y :: z :: post := by
      rw [← hpost, List.take_append_drop]
    have htake : input.take ((n + 1) * 3) = input.take (n * 3) ++ [x, y, z] := by
      rw [Nat.succ_mul, List.take_add, hpost]
      rfl
    have hdrop : out.drop ((n + 1) * 4) = free := by
      rw [Nat.succ_mul, ← List.drop_drop, hfree]
      rfl
    have hlen : (input.take (n * 3)).length = n * 3 := by
      rw [List.length_take]
      omega
    have hdone : (α.spell (encodeCodes (input.take (n * 3)))).length = n * 4 := by
      rw [length_spell, length_encodeCodes, hlen]
      omega
    have hstep : encodeGroup α.chars (input.take (n * 3) ++ x :: y :: z :: post)
        (α.spell (encodeCodes (input.take (n * 3))) ++ w₀ :: w₁ :: w₂ :: w₃ :: free) n = pure _ :=
      encodeGroup_run hlen hdone
    rw [← hsplit, ← hfree] at hstep
    rw [List.range_succ, List.foldlM_append, ih (by omega) (by omega), pure_bind, List.foldlM_cons, hstep,
      pure_bind, List.foldlM_nil, htake, hdrop, encodeCodes_append (by omega), spell_append]

/-- The last bytes, pad characters and the terminating NUL. -/
theorem encodeTail_run {i : Nat} {pre tail done free : Bytes} (hpre : pre.length = i * 3)
    (htail : tail.length < 3) (hdone : done.length = i * 4) (hfree : 4 * ((tail.length + 2) / 3) < free.length) :
    encodeTail α.chars (pre ++ tail) (done ++ free) i =
      pure (done ++ α.spell (encodeCodes tail) ++ List.replicate ((3 - tail.length) % 3) (ch '=') ++
        0 :: free.drop (4 * ((tail.length + 2) / 3) + 1)) := by
  have hmod : (pre ++ tail).length % 3 = tail.length := by
    rw [List.length_append]
    omega
  rw [encodeTail, hmod]
  match tail with
  | [] =>
    dsimp only [List.length_nil]
    rw [store_add (k := 0) hdone.symm hfree]
    cases free with
    | nil => simp at hfree
    | cons w free => simp [encodeCodes, Alphabet.spell]
  | [x] =>
    have hx := x.toNat_lt
    dsimp only [List.length_singleton]
    obtain ⟨w₀, w₁, w₂, w₃, free, rfl⟩ := exists_four (l := free) (by simp at hfree; omega)
    cases free with
    | nil => simp at hfree
    | cons w₄ free =>
    rw [fetch_add (k := 0) hpre.symm rfl, pure_bind]
    simp only [fetch_char, pure_bind, Nat.shiftRight_eq_div_pow]
    rw [store_add (k := 0) hdone.symm (by simp), pure_bind, store_add (k := 1) (by omega) (by simp),
      pure_bind, store_add (k := 2) (by omega) (by simp), pure_bind,
      store_add (k := 3) (by omega) (by simp), pure_bind, store_add (k := 4) (by omega) (by simp)]
    simp [encodeCodes, Alphabet.spell, Nat.shiftLeft_eq, List.replicate]
  | [x, y] =>
    have hx := x.toNat_lt
    have hy := y.toNat_lt
    have hv : x.toNat <<< 8 ||| y.toNat = x.toNat * 2 ^ 8 + y.toNat := by
      rw [Nat.shiftLeft_eq, or_add (k := 8) (by omega) (by omega)]
    simp only [List.length_cons, List.length_nil, Nat.reduceAdd]
    obtain ⟨w₀, w₁, w₂, w₃, free, rfl⟩ := exists_four (l := free) (by simp at hfree; omega)
    cases free with
    | nil => simp at hfree
    | cons w₄ free =>
    rw [fetch_add (k := 0) hpre.symm rfl, pure_bind, fetch_add (k := 1) (by omega) rfl, pure_bind, hv]
    simp only [fetch_char, pure_bind, Nat.shiftRight_eq_div_pow]
    rw [store_add (k := 0) hdone.symm (by simp), pure_bind, store_add (k := 1) (by omega) (by simp),
      pure_bind, store_add (k := 2) (by omega) (by simp), pure_bind,
      store_add (k := 3) (by omega) (by simp), pure_bind, store_add (k := 4) (by omega) (by simp)]
    simp [encodeCodes, Alphabet.spell, Nat.shiftLeft_eq]

/-- The encoded text of a byte string. -/
def Alphabet.encoded (α : Alphabet) (x : Bytes) : Bytes :=
  α.spell (encodeCodes x) ++ List.replicate ((3 - x.length % 3) % 3) (ch '=')

theorem length_encoded (x : Bytes) : (α.encoded x).length = 4 * ((x.length + 2) / 3) := by
  rw [Alphabet.encoded, List.length_append, length_spell, length_encodeCodes, List.length_replicate]
  omega

theorem encode_run {x out : Bytes} (hroom : 4 * ((x.length + 2) / 3) < out.length) :
    α.encode out x = pure (α.encoded x ++ 0 :: out.drop (4 * ((x.length + 2) / 3) + 1)) := by
  have henc : α.encode out x = b64Encode α.chars x out := by cases α <;> rfl
  have hlen : (x.take (x.length / 3 * 3)).length = x.length / 3 * 3 := by
    rw [List.length_take]
    omega
  have htail : (x.drop (x.length / 3 * 3)).length = x.length % 3 := by
    rw [List.length_drop]
    omega
  have hdone : (α.spell (encodeCodes (x.take (x.length / 3 * 3)))).length = x.length / 3 * 4 := by
    rw [length_spell, length_encodeCodes, hlen]
    omega
  have hfree : 4 * (((x.drop (x.length / 3 * 3)).length + 2) / 3) <
      (out.drop (x.length / 3 * 4)).length := by
    rw [htail, List.length_drop]
    omega
  have hrun := encodeTail_run (α := α) hlen (by omega) hdone hfree
  rw [List.take_append_drop, htail, List.drop_drop] at hrun
  have hcodes : encodeCodes x = encodeCodes (x.take (x.length / 3 * 3)) ++
      encodeCodes (x.drop (x.length / 3 * 3)) := by
    rw [← encodeCodes_append (by omega), List.take_append_drop]
  rw [henc, b64Encode, encodeGroups_run _ (by omega) (by omega), pure_bind, hrun, Alphabet.encoded, hcodes, spell_append]
  have hdrop : x.length / 3 * 4 + (4 * ((x.length % 3 + 2) / 3) + 1) = 4 * ((x.length + 2) / 3) + 1 := by
    omega
  rw [hdrop]

/-! ## Decoding -/

theorem lookup_run {pre rest : Bytes} {c : UInt8} {i k : Nat} (hi : i = pre.length + k)
    (hc : rest[k]? = some c) : lookup α.table (pre ++ rest) i = pure (entry (α.code c)) := by
  rw [lookup, fetch_add hi hc, pure_bind, fetch_eq (table_get c)]

/-- The bytes of a group whose characters are valid. -/
theorem code_bits (a b c d : Fin 64) :
    (entry (some a)).toNat <<< 18 ||| (entry (some b)).toNat <<< 12 ||| (entry (some c)).toNat <<< 6 |||
      (entry (some d)).toNat = a.1 * 2 ^ 18 + b.1 * 2 ^ 12 + c.1 * 2 ^ 6 + d.1 := by
  have hab : a.1 * 2 ^ 18 ||| b.1 * 2 ^ 12 = a.1 * 2 ^ 18 + b.1 * 2 ^ 12 :=
    or_add (k := 18) (by omega) (by omega)
  have habc : (a.1 * 2 ^ 18 + b.1 * 2 ^ 12) ||| c.1 * 2 ^ 6 =
      a.1 * 2 ^ 18 + b.1 * 2 ^ 12 + c.1 * 2 ^ 6 :=
    or_add (k := 12) (by omega) (by omega)
  rw [entry_toNat, entry_toNat, entry_toNat, entry_toNat, Nat.shiftLeft_eq, Nat.shiftLeft_eq,
    Nat.shiftLeft_eq, hab, habc]
  exact or_add (k := 6) (by omega) (by omega)

theorem ofNat_and (n : Nat) : UInt8.ofNat (n &&& 0xff) = .ofNat n := by
  refine UInt8.toNat_inj.mp ?_
  rw [and_eight, UInt8.toNat_ofNat', UInt8.toNat_ofNat']
  omega

/-- The characters of codes. -/
def Spelled (α : Alphabet) (b : Bytes) : Prop := ∃ codes, b = α.spell codes

theorem spelled_cons {c : UInt8} {b : Bytes} :
    Spelled α (c :: b) ↔ (α.code c).isSome ∧ Spelled α b := by
  constructor
  · rintro ⟨codes, hb⟩
    match codes with
    | [] => cases hb
    | i :: codes =>
      rw [spell_cons] at hb
      obtain ⟨rfl, htail⟩ := List.cons.inj hb
      exact ⟨by rw [code_char]; rfl, codes, htail⟩
  · rintro ⟨hc, codes, rfl⟩
    obtain ⟨i, hi⟩ := Option.isSome_iff_exists.mp hc
    refine ⟨i :: codes, ?_⟩
    rw [spell_cons, char_code hi]

theorem decodeGroups_run {n i : Nat} {pre chunk done free : Bytes} (post : Bytes) (hpre : pre.length = i * 4)
    (hchunk : chunk.length = n * 4) (hdone : done.length = i * 3) (hfree : n * 3 ≤ free.length) :
    (∃ codes, chunk = α.spell codes ∧
      decodeGroups α.table (pre ++ chunk ++ post) n i (done ++ free) =
        pure (true, done ++ decodeCodes codes ++ free.drop (n * 3))) ∨
    (¬Spelled α chunk ∧ ∃ out',
      decodeGroups α.table (pre ++ chunk ++ post) n i (done ++ free) = pure (false, out')) := by
  induction n generalizing i pre chunk done free with
  | zero =>
    obtain rfl := List.length_eq_zero_iff.mp (hchunk.trans (Nat.zero_mul 4))
    exact Or.inl ⟨[], rfl, by simp [decodeGroups, decodeCodes]⟩
  | succ n ih =>
    obtain ⟨a, b, c, d, chunk, rfl⟩ := exists_four (l := chunk) (by omega)
    obtain ⟨w₀, w₁, w₂, free, rfl⟩ := exists_three (l := free) (by omega)
    rw [decodeGroups, List.append_assoc]
    rw [lookup_run (k := 0) (by omega) rfl, pure_bind, lookup_run (k := 1) (by omega) rfl, pure_bind,
      lookup_run (k := 2) (by omega) rfl, pure_bind, lookup_run (k := 3) (by omega) rfl, pure_bind,
      checkInv_entry]
    by_cases hvalid : (α.code a).isSome ∧ (α.code b).isSome ∧ (α.code c).isSome ∧ (α.code d).isSome
    · obtain ⟨⟨a', ha⟩, ⟨b', hb⟩, ⟨c', hc⟩, ⟨d', hd⟩⟩ := hvalid.imp Option.isSome_iff_exists.mp
        (And.imp Option.isSome_iff_exists.mp (And.imp Option.isSome_iff_exists.mp
          Option.isSome_iff_exists.mp))
      rw [ha, hb, hc, hd, if_neg (by simp), code_bits]
      simp only [ofNat_and, Nat.shiftRight_eq_div_pow]
      rw [store_add (k := 0) (by omega) (by simp), pure_bind, store_add (k := 1) (by omega) (by simp),
        pure_bind, store_add (k := 2) (by omega) (by simp), pure_bind]
      generalize hv : a'.1 * 2 ^ 18 + b'.1 * 2 ^ 12 + c'.1 * 2 ^ 6 + d'.1 = v
      have hpre' : (pre ++ [a, b, c, d]).length = (i + 1) * 4 := by
        rw [List.length_append, hpre]
        simp only [List.length_cons, List.length_nil]
        omega
      have hdone' : (done ++ [UInt8.ofNat (v / 2 ^ 16), .ofNat (v / 2 ^ 8), .ofNat v]).length =
          (i + 1) * 3 := by
        rw [List.length_append, hdone]
        simp only [List.length_cons, List.length_nil]
        omega
      have hchunk' : chunk.length = n * 4 := by
        simp only [List.length_cons] at hchunk
        omega
      have hfree' : n * 3 ≤ free.length := by
        simp only [List.length_cons] at hfree
        omega
      rcases ih hpre' hchunk' hdone' hfree' with ⟨codes, rfl, hrun⟩ | ⟨hno, out', hrun⟩
      · refine Or.inl ⟨a' :: b' :: c' :: d' :: codes, ?_, ?_⟩
        · rw [spell_cons, spell_cons, spell_cons, spell_cons, char_code ha, char_code hb, char_code hc,
            char_code hd]
        · rw [decodeCodes, hv]
          simpa [Nat.succ_mul] using hrun
      · refine Or.inr ⟨fun hspelled => ?_, out', by simpa using hrun⟩
        simp only [spelled_cons] at hspelled
        exact hno hspelled.2.2.2.2
    · refine Or.inr ⟨fun hspelled => ?_, done ++ w₀ :: w₁ :: w₂ :: free, ?_⟩
      · simp only [spelled_cons] at hspelled
        exact hvalid ⟨hspelled.1, hspelled.2.1, hspelled.2.2.1, hspelled.2.2.2.1⟩
      · rw [if_pos]
        rw [Bool.not_eq_true', Bool.eq_false_iff]
        intro hall
        simp only [Bool.and_eq_true] at hall
        exact hvalid ⟨hall.1.1.1, hall.1.1.2, hall.1.2, hall.2⟩

theorem spelled_append {x y : Bytes} : Spelled α (x ++ y) ↔ Spelled α x ∧ Spelled α y := by
  induction x with
  | nil => exact ⟨fun h => ⟨⟨[], rfl⟩, h⟩, fun h => h.2⟩
  | cons c x ih => rw [List.cons_append, spelled_cons, spelled_cons, ih, and_assoc]

theorem not_spelled_pad {x y : Bytes} : ¬Spelled α (x ++ ch '=' :: y) := by
  intro h
  rw [spelled_append, spelled_cons, code_pad] at h
  exact absurd h.2.1 (by decide)

/-- The last group of a text, full or padded. -/
theorem Padded.last {body : Bytes} {a b c d : UInt8} {codes : List (Fin 64)} {pads : Nat}
    (h : Padded α (body ++ [a, b, c, d]) codes pads) :
    (d ≠ ch '=' ∧ body ++ [a, b, c, d] = α.spell codes) ∨
    (c ≠ ch '=' ∧ d = ch '=' ∧ body ++ [a, b, c] = α.spell codes) ∨
    (c = ch '=' ∧ d = ch '=' ∧ body ++ [a, b] = α.spell codes) := by
  obtain ⟨heq, hle, -⟩ := h
  have hpad : ∀ {x : Bytes} {e : UInt8}, x ++ [e] = α.spell codes → e ≠ ch '=' := by
    rintro x e hs rfl
    exact not_spelled_pad ⟨codes, hs⟩
  match pads with
  | 0 =>
    rw [List.replicate_zero, List.append_nil] at heq
    exact Or.inl ⟨hpad (x := body ++ [a, b, c]) (by simpa using heq), heq⟩
  | 1 =>
    have heq : (body ++ [a, b, c]) ++ [d] = α.spell codes ++ [ch '='] := by simpa using heq
    obtain ⟨hs, hd⟩ := List.append_inj' heq rfl
    obtain ⟨rfl, -⟩ := List.cons.inj hd
    exact Or.inr (Or.inl ⟨hpad (x := body ++ [a, b]) (by simpa using hs), rfl, hs⟩)
  | 2 =>
    have heq : (body ++ [a, b]) ++ [c, d] = α.spell codes ++ [ch '=', ch '='] := by
      simpa [List.replicate] using heq
    obtain ⟨hs, hcd⟩ := List.append_inj' heq rfl
    obtain ⟨rfl, hd⟩ := List.cons.inj hcd
    obtain ⟨rfl, -⟩ := List.cons.inj hd
    exact Or.inr (Or.inr ⟨rfl, rfl, hs⟩)
  | pads + 3 => omega

/-- Groups from the start of the text. -/
theorem decodeGroups_start {n : Nat} {chunk out : Bytes} (post : Bytes) (hchunk : chunk.length = n * 4)
    (hroom : n * 3 ≤ out.length) :
    (∃ codes, chunk = α.spell codes ∧ (decodeCodes codes).length = n * 3 ∧
      decodeGroups α.table (chunk ++ post) n 0 out =
        pure (true, decodeCodes codes ++ out.drop (n * 3))) ∨
    (¬Spelled α chunk ∧ ∃ out', decodeGroups α.table (chunk ++ post) n 0 out = pure (false, out')) := by
  have hrun := decodeGroups_run (α := α) (i := 0) post (show ([] : Bytes).length = 0 * 4 from rfl) hchunk
    (show ([] : Bytes).length = 0 * 3 from rfl) hroom
  rcases hrun with ⟨codes, rfl, hrun⟩ | hrun
  · refine Or.inl ⟨codes, rfl, ?_, hrun⟩
    rw [length_spell] at hchunk
    rw [length_decodeCodes, hchunk]
    omega
  · exact Or.inr hrun

/-- What `b64Decode` returns and leaves in the output. -/
def Decodes (α : Alphabet) (input out : Bytes) : Prop :=
  (∃ codes pads, Padded α input codes pads ∧ b64Decode α.table input out =
    pure (Int.ofNat (decodeCodes codes).length,
      decodeCodes codes ++ out.drop (decodeCodes codes).length)) ∨
  ((¬∃ codes pads, Padded α input codes pads) ∧
    ∃ out', b64Decode α.table input out = pure (-1, out'))

section Last

variable {body out : Bytes} {a b c d : UInt8} {m : Nat}

theorem length_last (hbody : body.length = m * 4) : (body ++ [a, b, c, d]).length = m * 4 + 4 := by
  rw [List.length_append, hbody]
  rfl

/-- Groups, and then the last group. -/
theorem b64Decode_last (hbody : body.length = m * 4) :
    b64Decode α.table (body ++ [a, b, c, d]) out = (do
      let groups := if d = ch '=' then m else m + 1
      let (valid, out) ← decodeGroups α.table (body ++ [a, b, c, d]) groups 0 out
      if valid then decodeTail α.table (body ++ [a, b, c, d]) groups out else pure (-1, out)) := by
  have hlast : fetch (body ++ [a, b, c, d]) (m * 4 + 4 - 1) = pure d :=
    fetch_add (k := 3) (by omega) rfl
  have hgroups : (m * 4 + 4) / 4 = m + 1 := by omega
  rw [b64Decode]
  simp only []
  rw [length_last hbody, if_neg (by omega), if_neg (by omega), hlast, pure_bind, hgroups,
    Nat.add_sub_cancel]

theorem decodeTail_full (hbody : body.length = m * 4) (hd : d ≠ ch '=') (groups : Nat) :
    decodeTail α.table (body ++ [a, b, c, d]) groups out = pure (Int.ofNat (groups * 3), out) := by
  rw [decodeTail]
  simp only []
  rw [length_last hbody, fetch_add (a := c) (k := 2) (by omega) rfl, pure_bind,
    fetch_add (a := d) (k := 3) (by omega) rfl, pure_bind, if_neg fun h => hd h.2, pure_bind, if_neg hd]
  rfl

theorem decodes_full (hbody : body.length = m * 4) (hroom : m * 3 + 3 ≤ out.length) (hd : d ≠ ch '=') :
    Decodes α (body ++ [a, b, c, d]) out := by
  have hlen : (body ++ [a, b, c, d]).length = (m + 1) * 4 := by
    rw [length_last hbody, Nat.succ_mul]
  rw [Decodes, b64Decode_last hbody]
  simp only [if_neg hd]
  have hrun := decodeGroups_start (α := α) [] hlen (by omega : (m + 1) * 3 ≤ out.length)
  rw [List.append_nil] at hrun
  rcases hrun with ⟨codes, hcodes, hcount, hrun⟩ | ⟨hno, out', hrun⟩
  · refine Or.inl ⟨codes, 0, ⟨by simpa using hcodes, by decide, ?_⟩, ?_⟩
    · rw [hcodes, length_spell] at hlen
      omega
    · rw [hrun, pure_bind]
      simp only [if_true]
      rw [decodeTail_full hbody hd, hcount]
  · refine Or.inr ⟨?_, out', ?_⟩
    · rintro ⟨codes, pads, hpadded⟩
      rcases hpadded.last with ⟨-, hs⟩ | ⟨-, hd', -⟩ | ⟨-, hd', -⟩
      · exact hno ⟨codes, hs⟩
      · exact hd hd'
      · exact hd hd'
    · rw [hrun, pure_bind]
      rfl

/-- The last characters `t` before the pad characters. -/
def TailRuns (α : Alphabet) (input t done free : Bytes) (m : Nat) : Prop :=
  (∃ codes, t = α.spell codes ∧ decodeTail α.table input m (done ++ free) =
    pure (Int.ofNat (m * 3 + (t.length - 1)), done ++ decodeCodes codes ++ free.drop (t.length - 1))) ∨
  (¬Spelled α t ∧ decodeTail α.table input m (done ++ free) = pure (-1, done ++ free))

/-- One byte is left. -/
theorem decodeTail_two {done free : Bytes} (hbody : body.length = m * 4)
    (hdone : done.length = m * 3) (hfree : 1 ≤ free.length) :
    TailRuns α (body ++ [a, b, ch '=', ch '=']) [a, b] done free m := by
  have hrun : decodeTail α.table (body ++ [a, b, ch '=', ch '=']) m (done ++ free) =
      if checkInv (entry (α.code a)) (entry (α.code b)) (entry (some 0)) (entry (some 0)) then
        pure (-1, done ++ free)
      else (do
        let v := (entry (α.code a)).toNat <<< 6 ||| (entry (α.code b)).toNat
        let out ← store (done ++ free) (m * 3 + 0) (.ofNat (v >>> 4 &&& 0xff))
        pure (Int.ofNat (m * 3 + 1), out)) := by
    rw [decodeTail]
    simp only []
    rw [length_last hbody, fetch_add (a := ch '=') (k := 2) (by omega) rfl, pure_bind,
      fetch_add (a := ch '=') (k := 3) (by omega) rfl, pure_bind, if_pos ⟨rfl, rfl⟩,
      lookup_run (c := a) (k := 0) (by omega) rfl, pure_bind,
      lookup_run (c := b) (k := 1) (by omega) rfl, pure_bind]
    rfl
  rw [checkInv_entry] at hrun
  obtain ⟨w, free, rfl⟩ := List.exists_cons_of_length_pos hfree
  rw [TailRuns, hrun, spelled_cons, spelled_cons]
  rcases ha : α.code a with _ | x
  · exact Or.inr ⟨by simp, rfl⟩
  rcases hb : α.code b with _ | y
  · exact Or.inr ⟨by simp, rfl⟩
  refine Or.inl ⟨[x, y], ?_, ?_⟩
  · rw [spell_cons, spell_cons, char_code ha, char_code hb]
    rfl
  · have hv : (entry (some x)).toNat <<< 6 ||| (entry (some y)).toNat = x.1 * 2 ^ 6 + y.1 := by
      rw [entry_toNat, entry_toNat, Nat.shiftLeft_eq]
      exact or_add (k := 6) (by omega) (by omega)
    rw [if_neg (by simp), hv]
    dsimp only
    rw [store_add (k := 0) (by omega) (by omega), pure_bind, ofNat_and,
      Nat.shiftRight_eq_div_pow]
    simp [decodeCodes]

/-- Two bytes are left. -/
theorem decodeTail_one {done free : Bytes} (hbody : body.length = m * 4)
    (hdone : done.length = m * 3) (hfree : 2 ≤ free.length) (hc : c ≠ ch '=') :
    TailRuns α (body ++ [a, b, c, ch '=']) [a, b, c] done free m := by
  have hrun : decodeTail α.table (body ++ [a, b, c, ch '=']) m (done ++ free) =
      if checkInv (entry (α.code a)) (entry (α.code b)) (entry (α.code c)) (entry (some 0)) then
        pure (-1, done ++ free)
      else (do
        let v := (entry (α.code a)).toNat <<< 12 ||| (entry (α.code b)).toNat <<< 6 |||
          (entry (α.code c)).toNat
        let out ← store (done ++ free) (m * 3 + 0) (.ofNat (v >>> 2 >>> 8 &&& 0xff))
        let out ← store out (m * 3 + 1) (.ofNat (v >>> 2 >>> 0 &&& 0xff))
        pure (Int.ofNat (m * 3 + 2), out)) := by
    rw [decodeTail]
    simp only []
    rw [length_last hbody, fetch_add (a := c) (k := 2) (by omega) rfl, pure_bind,
      fetch_add (a := ch '=') (k := 3) (by omega) rfl, pure_bind, if_neg fun h => hc h.1, pure_bind,
      if_pos rfl, lookup_run (c := a) (k := 0) (by omega) rfl, pure_bind,
      lookup_run (c := b) (k := 1) (by omega) rfl, pure_bind,
      lookup_run (c := c) (k := 2) (by omega) rfl, pure_bind]
    rfl
  rw [checkInv_entry] at hrun
  obtain ⟨w, w', free, rfl⟩ := exists_two hfree
  rw [TailRuns, hrun, spelled_cons, spelled_cons, spelled_cons]
  rcases ha : α.code a with _ | x
  · exact Or.inr ⟨by simp, rfl⟩
  rcases hb : α.code b with _ | y
  · exact Or.inr ⟨by simp, rfl⟩
  rcases hz : α.code c with _ | z
  · exact Or.inr ⟨by simp, rfl⟩
  refine Or.inl ⟨[x, y, z], ?_, ?_⟩
  · rw [spell_cons, spell_cons, spell_cons, char_code ha, char_code hb, char_code hz]
    rfl
  · have hv : (entry (some x)).toNat <<< 12 ||| (entry (some y)).toNat <<< 6 |||
        (entry (some z)).toNat = x.1 * 2 ^ 12 + y.1 * 2 ^ 6 + z.1 := by
      have hxy : x.1 * 2 ^ 12 ||| y.1 * 2 ^ 6 = x.1 * 2 ^ 12 + y.1 * 2 ^ 6 :=
        or_add (k := 12) (by omega) (by omega)
      rw [entry_toNat, entry_toNat, entry_toNat, Nat.shiftLeft_eq, Nat.shiftLeft_eq, hxy]
      exact or_add (k := 6) (by omega) (by omega)
    rw [if_neg (by simp), hv]
    dsimp only
    rw [store_add (k := 0) (by omega) (by omega), pure_bind,
      store_add (k := 1) (by omega) (by simp), pure_bind, ofNat_and, ofNat_and]
    simp only [Nat.shiftRight_eq_div_pow]
    simp [decodeCodes]

/-- Groups, and then characters that are padded. -/
theorem decodes_padded {t : Bytes} {pads : Nat} (hbody : body.length = m * 4)
    (hpads : pads ≤ 2) (ht : t.length + pads = 4)
    (hinput : body ++ [a, b, c, ch '='] = body ++ t ++ List.replicate pads (ch '='))
    (hlast : ∀ codes pads, Padded α (body ++ [a, b, c, ch '=']) codes pads → Spelled α (body ++ t))
    (htail : ∀ done free, done.length = m * 3 → t.length ≤ free.length + 1 →
      TailRuns α (body ++ [a, b, c, ch '=']) t done free m)
    (hroom : m * 3 + t.length ≤ out.length + 1) : Decodes α (body ++ [a, b, c, ch '=']) out := by
  rw [Decodes, b64Decode_last hbody]
  simp only [if_true]
  rcases decodeGroups_start (α := α) [a, b, c, ch '='] hbody (by omega : m * 3 ≤ out.length) with
    ⟨codes, rfl, hcount, hrun⟩ | ⟨hno, out', hrun⟩
  · rw [hrun, pure_bind]
    simp only [if_true]
    rcases htail (decodeCodes codes) (out.drop (m * 3)) hcount (by rw [List.length_drop]; omega) with
      ⟨codes', rfl, hrun⟩ | ⟨hno, hrun⟩
    · rw [length_spell] at ht hbody
      have hsum : decodeCodes (codes ++ codes') = decodeCodes codes ++ decodeCodes codes' :=
        decodeCodes_append (by omega) _
      have hcount' : (decodeCodes (codes ++ codes')).length =
          m * 3 + ((α.spell codes').length - 1) := by
        rw [hsum, List.length_append, hcount, length_decodeCodes, length_spell]
        omega
      refine Or.inl ⟨codes ++ codes', pads, ⟨?_, hpads, ?_⟩, ?_⟩
      · rw [hinput, spell_append]
      · rw [List.length_append]
        omega
      · rw [hrun, hcount', hsum, List.drop_drop]
    · refine Or.inr ⟨?_, _, hrun⟩
      rintro ⟨codes', pads', hpadded⟩
      exact hno (spelled_append.mp (hlast _ _ hpadded)).2
  · refine Or.inr ⟨?_, out', by rw [hrun, pure_bind]; rfl⟩
    rintro ⟨codes', pads', hpadded⟩
    exact hno (spelled_append.mp (hlast _ _ hpadded)).1

end Last

/-- Room for the bytes of the last group. -/
def lastRoom (c d : UInt8) : Nat := if d = ch '=' then if c = ch '=' then 1 else 2 else 3

theorem decodes_last {body out : Bytes} {a b c d : UInt8} {m : Nat} (hbody : body.length = m * 4)
    (hroom : m * 3 + lastRoom c d ≤ out.length) : Decodes α (body ++ [a, b, c, d]) out := by
  rw [lastRoom] at hroom
  by_cases hd : d = ch '='
  · subst hd
    rw [if_pos rfl] at hroom
    by_cases hc : c = ch '='
    · subst hc
      rw [if_pos rfl] at hroom
      refine decodes_padded (t := [a, b]) hbody le_rfl rfl (by simp [List.replicate]) ?_ ?_ ?_
      · intro codes pads hpadded
        rcases hpadded.last with ⟨hd, -⟩ | ⟨hc, -⟩ | ⟨-, -, hs⟩
        · exact absurd rfl hd
        · exact absurd rfl hc
        · exact ⟨codes, hs⟩
      · intro done free hdone hfree
        exact decodeTail_two hbody hdone (by simpa using hfree)
      · simpa using hroom
    · rw [if_neg hc] at hroom
      refine decodes_padded (t := [a, b, c]) hbody (by decide : 1 ≤ 2) rfl (by simp) ?_ ?_ ?_
      · intro codes pads hpadded
        rcases hpadded.last with ⟨hd, -⟩ | ⟨-, -, hs⟩ | ⟨hc', -⟩
        · exact absurd rfl hd
        · exact ⟨codes, hs⟩
        · exact absurd hc' hc
      · intro done free hdone hfree
        exact decodeTail_one hbody hdone (by simpa using hfree) hc
      · simpa using hroom
  · rw [if_neg hd] at hroom
    exact decodes_full hbody hroom hd

/-- A last group. -/
theorem exists_last {input : Bytes} (hne : input ≠ []) (hlen : input.length % 4 = 0) :
    ∃ m body a b c d, input = body ++ [a, b, c, d] ∧ body.length = m * 4 := by
  have hpos := List.length_pos_iff.mpr hne
  obtain ⟨a, b, c, d, rest, hrest⟩ := exists_four (l := input.drop (input.length - 4))
    (by rw [List.length_drop]; omega)
  have hnil : rest = [] := by
    have hcount := congrArg List.length hrest
    rw [List.length_drop] at hcount
    simp only [List.length_cons] at hcount
    exact List.length_eq_zero_iff.mp (by omega)
  subst hnil
  refine ⟨input.length / 4 - 1, input.take (input.length - 4), a, b, c, d, ?_, ?_⟩
  · rw [← hrest, List.take_append_drop]
  · rw [List.length_take]
    omega

theorem decodes_nil (out : Bytes) : Decodes α [] out :=
  Or.inl ⟨[], 0, ⟨rfl, by decide, rfl⟩, rfl⟩

theorem decodes_of_room {input out : Bytes} (hroom : 3 * (input.length / 4) ≤ out.length) :
    Decodes α input out := by
  by_cases hne : input = []
  · rw [hne]
    exact decodes_nil out
  by_cases hlen : input.length % 4 = 0
  · obtain ⟨m, body, a, b, c, d, rfl, hbody⟩ := exists_last hne hlen
    refine decodes_last hbody ?_
    have hle : lastRoom c d ≤ 3 := by
      rw [lastRoom]
      split_ifs <;> decide
    rw [length_last hbody] at hroom
    omega
  · refine Or.inr ⟨?_, out, ?_⟩
    · rintro ⟨codes, pads, heq, -, hgroups⟩
      rw [heq, List.length_append, length_spell, List.length_replicate] at hlen
      exact hlen hgroups
    · have hpos : input.length ≠ 0 := fun h => hne (List.length_eq_zero_iff.mp h)
      rw [b64Decode]
      simp only []
      rw [if_neg hpos, if_pos hlen]

/-! ## The codes of a text -/

theorem spell_injective {codes codes' : List (Fin 64)} (h : α.spell codes = α.spell codes') :
    codes = codes' := by
  have hmap : ∀ codes : List (Fin 64), (α.spell codes).map α.code = codes.map some := by
    intro codes
    rw [Alphabet.spell, List.map_map]
    exact List.map_congr_left fun i _ => code_char i
  have heq := congrArg (List.map α.code) h
  rw [hmap, hmap] at heq
  exact List.map_injective_iff.mpr (Option.some_injective _) heq

/-- The characters before the padding. -/
theorem Padded.takeWhile {input : Bytes} {codes : List (Fin 64)} {pads : Nat}
    (h : Padded α input codes pads) : input.takeWhile (· ≠ ch '=') = α.spell codes := by
  have hall : ∀ c ∈ α.spell codes, c ≠ ch '=' := by
    rintro c hc rfl
    obtain ⟨x, y, hxy⟩ := List.append_of_mem hc
    exact not_spelled_pad ⟨codes, hxy.symm⟩
  rw [h.input_eq, List.takeWhile_append_of_pos fun c hc => decide_eq_true (hall c hc)]
  cases pads with
  | zero => simp
  | succ pads => simp [List.replicate_succ]

theorem Padded.unique {input : Bytes} {codes codes' : List (Fin 64)} {pads pads' : Nat}
    (h : Padded α input codes pads) (h' : Padded α input codes' pads') :
    codes = codes' ∧ pads = pads' := by
  obtain rfl : codes = codes' := spell_injective (h.takeWhile.symm.trans h'.takeWhile)
  have hlen := congrArg List.length (h.input_eq.symm.trans h'.input_eq)
  simp only [List.length_append, List.length_replicate] at hlen
  exact ⟨rfl, by omega⟩

theorem Padded.length_bytes {input : Bytes} {codes : List (Fin 64)} {pads : Nat}
    (h : Padded α input codes pads) :
    (decodeCodes codes).length = 3 * (codes.length / 4) + padBytes pads := by
  obtain ⟨-, hle, hgroups⟩ := h
  rw [length_decodeCodes]
  match pads with
  | 0 =>
    rw [padBytes]
    omega
  | 1 =>
    rw [padBytes]
    omega
  | 2 =>
    rw [padBytes]
    · omega
    · decide
    · decide
  | pads + 3 => omega

theorem padded_encoded (x : Bytes) :
    Padded α (α.encoded x) (encodeCodes x) ((3 - x.length % 3) % 3) := by
  refine ⟨rfl, by omega, ?_⟩
  rw [length_encodeCodes]
  have hmod : x.length % 3 = 0 ∨ x.length % 3 = 1 ∨ x.length % 3 = 2 := by omega
  rcases hmod with hmod | hmod | hmod
  all_goals
    rw [hmod]
    omega

theorem decode_eq (input out : Bytes) : α.decode out input = b64Decode α.table input out := by
  cases α <;> rfl

/-- A text of valid codes is decoded within the room of its bytes. -/
theorem decode_padded {input out : Bytes} {codes : List (Fin 64)} {pads : Nat}
    (h : Padded α input codes pads) (hroom : (decodeCodes codes).length ≤ out.length) :
    α.decode out input = pure (Int.ofNat (decodeCodes codes).length,
      decodeCodes codes ++ out.drop (decodeCodes codes).length) := by
  have hdecodes : Decodes α input out := by
    by_cases hne : input = []
    · rw [hne]
      exact decodes_nil out
    have hlen : input.length % 4 = 0 := by
      rw [h.input_eq, List.length_append, length_spell, List.length_replicate]
      exact h.groups
    obtain ⟨m, body, a, b, c, d, rfl, hbody⟩ := exists_last hne hlen
    refine decodes_last hbody ?_
    rw [length_decodeCodes] at hroom
    rw [lastRoom]
    rcases h.last with ⟨hd, hs⟩ | ⟨hc, rfl, hs⟩ | ⟨rfl, rfl, hs⟩
    all_goals
      have hcount := congrArg List.length hs
      rw [length_spell, List.length_append, hbody] at hcount
      simp only [List.length_cons, List.length_nil] at hcount
    · rw [if_neg hd]
      omega
    · rw [if_pos rfl, if_neg hc]
      omega
    · rw [if_pos rfl, if_pos rfl]
      omega
  rcases hdecodes with ⟨codes', pads', hpadded, hrun⟩ | ⟨hno, -⟩
  · obtain ⟨rfl, -⟩ := h.unique hpadded
    rw [decode_eq, hrun]
  · exact absurd ⟨codes, pads, h⟩ hno

/-- Encoding writes the characters and the NUL that `base64_required_length` makes room for, and decoding
these characters gives the bytes back. The output of the encoder is an object of the C program. -/
theorem base64_round_trip (α : Alphabet) (x out back : Bytes) (hsize : out.length < 2 ^ 64)
    (hout : 4 * ((x.length + 2) / 3) < out.length) (hback : x.length ≤ back.length) :
    ∃ enc, α.encode out x = pure (enc ++ 0 :: out.drop (enc.length + 1)) ∧
      enc.length = base64RequiredLength x.length ∧
      α.decode back enc = pure (Int.ofNat x.length, x ++ back.drop x.length) := by
  refine ⟨α.encoded x, ?_, ?_, ?_⟩
  · rw [length_encoded]
    exact encode_run hout
  · have hlt : x.length + 2 < 2 ^ 64 := by omega
    rw [length_encoded, base64RequiredLength, Nat.mod_eq_of_lt hlt, Nat.mod_eq_of_lt (by omega),
      Nat.mul_comm]
  · have hrun := @decode_padded α _ back _ _ (padded_encoded x)
    rw [decodeCodes_encodeCodes] at hrun
    exact hrun hback

/-- Four bytes are encoded with two pad characters. -/
theorem base64_round_trip_four : ∃ enc,
    Alphabet.urlSafe.encode (List.replicate 9 1) [0xfb, 0xff, 0, 7] =
        pure (enc ++ 0 :: (List.replicate 9 1).drop (enc.length + 1)) ∧
      enc.length = base64RequiredLength 4 ∧
      Alphabet.urlSafe.decode [1, 1, 1, 1, 1] enc = pure (Int.ofNat 4, [0xfb, 0xff, 0, 7] ++ [1]) :=
  base64_round_trip .urlSafe [0xfb, 0xff, 0, 7] (List.replicate 9 1) [1, 1, 1, 1, 1] (by decide)
    (by decide) (by decide)

/-- Decoding accepts the padded texts and no other ones. The bytes of a padded text are the leading bits
of its codes. -/
theorem base64_decode_exact (α : Alphabet) (input out : Bytes)
    (hroom : 3 * (input.length / 4) ≤ out.length) :
    ∃ r out', α.decode out input = pure (r, out') ∧
      (r = -1 ↔ ¬∃ codes pads, Padded α input codes pads) ∧
      ∀ codes pads, Padded α input codes pads →
        r = Int.ofNat (3 * (codes.length / 4) + padBytes pads) ∧
        byteBits (out'.take r.toNat) = (codeBits codes).take (8 * r.toNat) := by
  rcases decodes_of_room (α := α) hroom with ⟨codes, pads, hpadded, hrun⟩ | ⟨hno, out', hrun⟩
  · refine ⟨_, _, (decode_eq _ _).trans hrun, ?_, ?_⟩
    · constructor
      · intro hr
        cases hr
      · intro hno
        exact absurd ⟨codes, pads, hpadded⟩ hno
    · intro codes' pads' hpadded'
      obtain ⟨rfl, rfl⟩ := hpadded.unique hpadded'
      refine ⟨by rw [hpadded.length_bytes], ?_⟩
      have hr : (Int.ofNat (decodeCodes codes).length).toNat = (decodeCodes codes).length := rfl
      rw [hr, List.take_left, byteBits_decodeCodes]
  · refine ⟨_, _, (decode_eq _ _).trans hrun, ⟨fun _ => hno, fun _ => rfl⟩, ?_⟩
    intro codes pads hpadded
    exact absurd ⟨codes, pads, hpadded⟩ hno

/-- A pad character in an inner group. -/
theorem base64_decode_exact_inner : ∃ r out',
    Alphabet.standard.decode (List.replicate 6 0) [81, 81, 61, 61, 81, 81, 61, 61] = pure (r, out') ∧
      (r = -1 ↔ ¬∃ codes pads, Padded .standard [81, 81, 61, 61, 81, 81, 61, 61] codes pads) ∧
      ∀ codes pads, Padded .standard [81, 81, 61, 61, 81, 81, 61, 61] codes pads →
        r = Int.ofNat (3 * (codes.length / 4) + padBytes pads) ∧
        byteBits (out'.take r.toNat) = (codeBits codes).take (8 * r.toNat) :=
  base64_decode_exact .standard [81, 81, 61, 61, 81, 81, 61, 61] (List.replicate 6 0) (by decide)

end Libjeffpc.Base64
