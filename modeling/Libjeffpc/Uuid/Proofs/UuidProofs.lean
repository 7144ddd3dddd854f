import Libjeffpc.Lib.Bits
import Libjeffpc.Uuid.Uuid

/-!
# `xuuid_parse` and `xuuid_unparse`

`Decides c raw P raw'` says that a condition, with the UUID `raw` before it, terminates without a fault, is
true if and only if `P` holds, and leaves `raw'` if it is true. The fields of the text follow each other, and
so do the bytes that they are parsed to.
-/

namespace Libjeffpc.Uuid

open Lib

/-! ## Digits -/

theorem parseDigit_eq (c : UInt8) : parseDigit c.toInt8 = ((hexValue c).map Int.ofNat).getD (-1) := by
  revert c
  exact forall_byte (by decide +kernel)

def hexAt (inp : Bytes) (i : Nat) : Prop := ∃ c, inp[i]? = some c ∧ (hexValue c).isSome

/-- The byte of two digits. -/
def byteOf (a b : UInt8) : UInt8 := .ofNat ((hexValue a).getD 0 <<< 4 ||| (hexValue b).getD 0)

/-- `n` bytes of two digits each, from position `q` on. -/
def bytesFrom (inp : Bytes) (q : Nat) : Nat → Bytes
  | 0 => []
  | n + 1 => byteOf (inp.getD q 0) (inp.getD (q + 1) 0) :: bytesFrom inp (q + 2) n

theorem length_bytesFrom (inp : Bytes) (q n : Nat) : (bytesFrom inp q n).length = n := by
  induction n generalizing q with
  | zero => rfl
  | succ n ih => rw [bytesFrom, List.length_cons, ih]

/-- The digits that `hexdump` writes for a byte. -/
def hexDigits (b : UInt8) : Bytes := [lowercase.getD (b >>> 4).toNat 0, lowercase.getD (b &&& 0xf).toNat 0]

theorem hexDigits_hex (b : UInt8) : ∀ c ∈ hexDigits b, (hexValue c).isSome := by
  have hall : ∀ b : UInt8, (hexDigits b).all (fun c => (hexValue c).isSome) = true :=
    forall_byte (by decide +kernel)
  exact List.all_eq_true.mp (hall b)

theorem byteOf_hexDigits (b : UInt8) :
    byteOf (lowercase.getD (b >>> 4).toNat 0) (lowercase.getD (b &&& 0xf).toNat 0) = b := by
  revert b
  exact forall_byte (by decide +kernel)

theorem lowercase_hexValue {a : UInt8} {x : Nat} (h : hexValue a = some x) :
    x < 16 ∧ lowercase.getD x 0 = lower a := by
  have hall : ∀ a : UInt8, ∀ x ∈ hexValue a, x < 16 ∧ lowercase.getD x 0 = lower a :=
    forall_byte (by decide +kernel)
  exact hall a x h

theorem halves {x y : Nat} (hx : x < 16) (hy : y < 16) :
    ((UInt8.ofNat (x <<< 4 ||| y)) >>> 4).toNat = x ∧ ((UInt8.ofNat (x <<< 4 ||| y)) &&& 0xf).toNat = y := by
  have hall : ∀ x y : Fin 16, ((UInt8.ofNat (x.1 <<< 4 ||| y.1)) >>> 4).toNat = x.1 ∧
      ((UInt8.ofNat (x.1 <<< 4 ||| y.1)) &&& 0xf).toNat = y.1 := by decide +kernel
  exact hall ⟨x, hx⟩ ⟨y, hy⟩

/-- Two digits come back in lower case. -/
theorem hexDigits_byteOf {a b : UInt8} (ha : (hexValue a).isSome) (hb : (hexValue b).isSome) :
    hexDigits (byteOf a b) = [lower a, lower b] := by
  obtain ⟨x, hx⟩ := Option.isSome_iff_exists.mp ha
  obtain ⟨y, hy⟩ := Option.isSome_iff_exists.mp hb
  obtain ⟨hxlt, hxlow⟩ := lowercase_hexValue hx
  obtain ⟨hylt, hylow⟩ := lowercase_hexValue hy
  obtain ⟨hhigh, hlow⟩ := halves hxlt hylt
  rw [hexDigits, byteOf, hx, hy, Option.getD_some, Option.getD_some, hhigh, hlow, hxlow, hylow]

/-! ## Conditions -/

def Decides (c : Parse) (raw : Bytes) (P : Prop) (raw' : Bytes) : Prop :=
  ∃ b r, c raw = pure (b, r) ∧ (b = true ↔ P) ∧ (b = true → r = raw')

section Conditions

variable {c d : Parse} {inp raw raw' raw'' : Bytes} {P Q : Prop}

theorem and_true {r : Bytes} (h : c raw = pure (true, r)) : (c <&&> d) raw = d r := by
  show c raw >>= _ = _
  rw [h, pure_bind]
  rfl

theorem and_false {r : Bytes} (h : c raw = pure (false, r)) : (c <&&> d) raw = pure (false, r) := by
  show c raw >>= _ = _
  rw [h, pure_bind]
  rfl

theorem and_fault {e : Fault} (h : c raw = throw e) : (c <&&> d) raw = throw e := by
  show c raw >>= _ = _
  rw [h]
  rfl

/-- The second condition is only looked at if the first one is true. -/
theorem Decides.and (hc : Decides c raw P raw') (hd : P → Decides d raw' Q raw'') :
    Decides (c <&&> d) raw (P ∧ Q) raw'' := by
  obtain ⟨b, r, hrun, hiff, hraw⟩ := hc
  cases b with
  | false =>
    refine ⟨false, r, and_false hrun, ?_, nofun⟩
    simp only [Bool.false_eq_true, false_iff] at hiff ⊢
    exact fun h => hiff h.1
  | true =>
    obtain rfl := hraw rfl
    obtain ⟨b', r', hrun', hiff', hraw'⟩ := hd (hiff.mp rfl)
    refine ⟨b', r', (and_true hrun).trans hrun', ?_, hraw'⟩
    rw [hiff']
    exact ⟨fun h => ⟨hiff.mp rfl, h⟩, And.right⟩

theorem isChar_run {i : Nat} {a x : UInt8} (h : inp[i]? = some a) :
    isChar inp i x raw = pure (decide (a = x), raw) := by
  show (fetch inp i >>= _ : Comp _) >>= _ = _
  rw [fetch_eq h]
  rfl

theorem isChar_fault {i : Nat} {x : UInt8} (h : inp.length ≤ i) : isChar inp i x raw = throw .bounds := by
  show (fetch inp i >>= _ : Comp _) >>= _ = _
  rw [fetch, List.getElem?_eq_none h]
  rfl

theorem isChar_decides (i : Nat) (x : UInt8) (h : i < inp.length) :
    Decides (isChar inp i x) raw (inp[i]? = some x) raw := by
  refine ⟨_, _, isChar_run (List.getElem?_eq_getElem h), ?_, fun _ => rfl⟩
  rw [List.getElem?_eq_getElem h, decide_eq_true_iff, Option.some.injEq]

/-- The terminator is looked at if it is required. -/
theorem nul_decides (reqNul : Bool) (h : 36 < inp.length) :
    Decides (pure !reqNul <||> isChar inp 36 0) raw (reqNul = true → inp[36]? = some 0) raw := by
  cases reqNul with
  | false => exact ⟨true, raw, rfl, by simp, fun _ => rfl⟩
  | true =>
    obtain ⟨b, r, hrun, hiff, hraw⟩ := isChar_decides 36 0 h
    exact ⟨b, r, hrun, by simpa using hiff, hraw⟩

theorem parsePart_round {o p n i : Nat} {a b : UInt8} (ha : inp[p + 2 * i]? = some a)
    (hb : inp[p + (2 * i + 1)]? = some b) :
    parsePart inp o p (n + 1) i raw =
      if (hexValue a).isSome ∧ (hexValue b).isSome then
        store raw (o + i) (byteOf a b) >>= fun raw => parsePart inp o p n (i + 1) raw
      else pure (false, raw) := by
  rw [parsePart]
  show ((fetch inp _ >>= _ : Comp _) >>= _ : Comp _) = _
  rw [fetch_eq ha]
  show ((fetch inp _ >>= _ : Comp _) >>= _ : Comp _) = _
  rw [fetch_eq hb]
  show (if _ then _ else _ : Parse) raw = _
  rw [parseDigit_eq, parseDigit_eq, byteOf]
  rcases hexValue a with _ | x
  · rfl
  · rcases hexValue b with _ | y
    · rw [if_pos (by simp), if_neg (by simp)]
      rfl
    · rw [if_neg (by simp), if_pos (by simp)]
      show ((store raw _ _ >>= _ : Comp _) >>= _ : Comp _) = _
      simp only [Option.map_some, Option.getD_some, Int.toNat_natCast, Int.ofNat_eq_natCast]
      rcases (store raw (o + i) (.ofNat (x <<< 4 ||| y)) : Comp _) with _ | (_ | r) <;> rfl

/-- One field of the text. -/
theorem parsePart_decides {o p n i : Nat} {done free : Bytes} (hin : p + 2 * (i + n) ≤ inp.length)
    (hdone : done.length = o + i) (hfree : n ≤ free.length) :
    Decides (parsePart inp o p n i) (done ++ free) (∀ j < 2 * n, hexAt inp (p + 2 * i + j))
      (done ++ bytesFrom inp (p + 2 * i) n ++ free.drop n) := by
  induction n generalizing i done free with
  | zero => exact ⟨true, done ++ free, rfl, by simp, fun _ => by simp [bytesFrom]⟩
  | succ n ih =>
    obtain ⟨f, free, rfl⟩ : ∃ f rest, free = f :: rest := List.exists_cons_of_length_pos (by omega)
    have hlen : p + 2 * i + 1 < inp.length := by omega
    have ha : inp[p + 2 * i]? = some inp[p + 2 * i] := List.getElem?_eq_getElem _
    have hb : inp[p + (2 * i + 1)]? = some inp[p + 2 * i + 1] := List.getElem?_eq_getElem hlen
    generalize inp[p + 2 * i] = a at ha
    generalize inp[p + 2 * i + 1] = b at hb
    have hbyte : bytesFrom inp (p + 2 * i) (n + 1) = byteOf a b :: bytesFrom inp (p + 2 * (i + 1)) n := by
      have hget : inp.getD (p + 2 * i) 0 = a := by rw [List.getD_eq_getElem?_getD, ha, Option.getD_some]
      have hget' : inp.getD (p + 2 * i + 1) 0 = b := by
        rw [Nat.add_assoc, List.getD_eq_getElem?_getD, hb, Option.getD_some]
      rw [bytesFrom, hget, hget']
      rfl
    by_cases hhex : (hexValue a).isSome ∧ (hexValue b).isSome
    · obtain ⟨b', r, hrun, hiff, hraw⟩ := @ih (i + 1) (done ++ [byteOf a b]) free
        (by omega) (by rw [List.length_append, hdone]; rfl) (by simpa using hfree)
      refine ⟨b', r, ?_, ?_, fun htrue => ?_⟩
      · rw [parsePart_round ha hb, if_pos hhex, store_append hdone.symm, pure_bind, ← hrun,
          List.append_assoc, List.singleton_append]
      · rw [hiff]
        constructor
        · intro hall j hj
          rcases j with _ | _ | j
          · exact ⟨a, ha, hhex.1⟩
          · exact ⟨b, hb, hhex.2⟩
          · have := hall j (by omega)
            have hpos : p + 2 * (i + 1) + j = p + 2 * i + (j + 1 + 1) := by omega
            rwa [hpos] at this
        · intro hall j hj
          have hpos : p + 2 * (i + 1) + j = p + 2 * i + (j + 2) := by omega
          rw [hpos]
          exact hall (j + 2) (by omega)
      · rw [hraw htrue, hbyte, List.drop_succ_cons]
        simp
    · refine ⟨false, done ++ f :: free, by rw [parsePart_round ha hb, if_neg hhex], ?_, nofun⟩
      simp only [Bool.false_eq_true, false_iff]
      intro hall
      obtain ⟨a', ha', hhexa⟩ := hall 0 (by omega)
      obtain ⟨b', hb', hhexb⟩ := hall 1 (by omega)
      obtain rfl := Option.some.inj (ha.symm.trans ha')
      obtain rfl := Option.some.inj (hb.symm.trans hb')
      exact hhex ⟨hhexa, hhexb⟩

theorem field_decides (o p n : Nat) (done free : Bytes) (hin : p + 2 * n ≤ inp.length) (hdone : done.length = o)
    (hfree : n ≤ free.length) :
    Decides (parsePart inp o p n 0) (done ++ free) (∀ j < 2 * n, hexAt inp (p + j))
      (done ++ bytesFrom inp p n ++ free.drop n) :=
  parsePart_decides (by rwa [Nat.zero_add]) hdone hfree

end Conditions

/-! ## Parsing -/

/-- The bytes that the five fields stand for. -/
def parsed (inp : Bytes) : Bytes :=
  bytesFrom inp 0 4 ++ bytesFrom inp 9 2 ++ bytesFrom inp 14 2 ++ bytesFrom inp 19 2 ++ bytesFrom inp 24 6

theorem length_parsed (inp : Bytes) : (parsed inp).length = 16 := by
  simp only [parsed, List.length_append, length_bytesFrom]

theorem startsWithUuid_iff {inp : Bytes} : StartsWithUuid inp ↔
    inp[8]? = some (ch '-') ∧ inp[13]? = some (ch '-') ∧ inp[18]? = some (ch '-') ∧ inp[23]? = some (ch '-') ∧
      (∀ j < 8, hexAt inp (0 + j)) ∧ (∀ j < 4, hexAt inp (9 + j)) ∧ (∀ j < 4, hexAt inp (14 + j)) ∧
      (∀ j < 4, hexAt inp (19 + j)) ∧ ∀ j < 12, hexAt inp (24 + j) := by
  constructor
  · intro h
    have hsep : ∀ i ∈ separators, inp[i]? = some (ch '-') := by
      intro i hi
      have hlt : i < 36 := by
        simp only [separators, List.mem_cons, List.not_mem_nil, or_false] at hi
        omega
      have hchar := h i hlt
      rwa [if_pos hi] at hchar
    have hhex : ∀ i < 36, i ∉ separators → hexAt inp i := by
      intro i hi hno
      have hchar := h i hi
      rwa [if_neg hno] at hchar
    have hno : ∀ i, i ≠ 8 → i ≠ 13 → i ≠ 18 → i ≠ 23 → i ∉ separators := by
      intro i h8 h13 h18 h23
      simp [separators, h8, h13, h18, h23]
    refine ⟨hsep 8 (by decide), hsep 13 (by decide), hsep 18 (by decide), hsep 23 (by decide), ?_, ?_, ?_, ?_, ?_⟩ <;>
      exact fun j hj => hhex _ (by omega) (hno _ (by omega) (by omega) (by omega) (by omega))
  · rintro ⟨h8, h13, h18, h23, ha, hb, hc, hd, he⟩ i hi
    have hfield : ∀ q n, q ≤ i → i < q + n → (∀ j < n, hexAt inp (q + j)) → hexAt inp i := by
      intro q n hq hn h
      have := h (i - q) (by omega)
      rwa [Nat.add_sub_cancel' hq] at this
    split_ifs with hsep
    · simp only [separators, List.mem_cons, List.not_mem_nil, or_false] at hsep
      rcases hsep with rfl | rfl | rfl | rfl <;> assumption
    · simp only [separators, List.mem_cons, List.not_mem_nil, or_false, not_or] at hsep
      rcases Nat.lt_or_ge i 8 with hlt | hge
      · exact hfield 0 8 (by omega) (by omega) ha
      rcases Nat.lt_or_ge i 13 with hlt | hge
      · exact hfield 9 4 (by omega) (by omega) hb
      rcases Nat.lt_or_ge i 18 with hlt | hge
      · exact hfield 14 4 (by omega) (by omega) hc
      rcases Nat.lt_or_ge i 23 with hlt | hge
      · exact hfield 19 4 (by omega) (by omega) hd
      · exact hfield 24 12 (by omega) (by omega) he

/-- Parsing within an array of more than 36 bytes. -/
theorem xuuidParseReq_decides {inp raw : Bytes} (reqNul : Bool) (hin : 36 < inp.length) (hraw : raw.length = 16) :
    Decides (xuuidParseReq inp reqNul) raw (StartsWithUuid inp ∧ (reqNul = true → inp[36]? = some 0))
      (parsed inp) := by
  have hfields : parsed inp = [] ++ bytesFrom inp 0 4 ++ bytesFrom inp 9 2 ++ bytesFrom inp 14 2 ++
      bytesFrom inp 19 2 ++ bytesFrom inp 24 6 ++ ((((raw.drop 4).drop 2).drop 2).drop 2).drop 6 := by
    simp only [parsed, List.nil_append, List.drop_drop]
    rw [List.drop_eq_nil_of_le (by omega), List.append_nil]
  have hdone : ∀ (done : Bytes) (p n : Nat), (done ++ bytesFrom inp p n).length = done.length + n := fun _ _ _ => by
    rw [List.length_append, length_bytesFrom]
  have h0 := field_decides 0 0 4 [] raw (show 0 + 2 * 4 ≤ inp.length by omega) rfl (by omega)
  have h1 := field_decides 4 9 2 _ (raw.drop 4) (show 9 + 2 * 2 ≤ inp.length by omega) (hdone [] 0 4)
    (by rw [List.length_drop]; omega)
  have h2 := field_decides 6 14 2 _ ((raw.drop 4).drop 2) (show 14 + 2 * 2 ≤ inp.length by omega)
    (by rw [hdone _ 9 2, hdone [] 0 4]; rfl) (by rw [List.drop_drop, List.length_drop]; omega)
  have h3 := field_decides 8 19 2 _ (((raw.drop 4).drop 2).drop 2) (show 19 + 2 * 2 ≤ inp.length by omega)
    (by rw [hdone _ 14 2, hdone _ 9 2, hdone [] 0 4]; rfl) (by rw [List.drop_drop, List.drop_drop, List.length_drop]; omega)
  have h4 := field_decides 10 24 6 _ ((((raw.drop 4).drop 2).drop 2).drop 2) (show 24 + 2 * 6 ≤ inp.length by omega)
    (by rw [hdone _ 19 2, hdone _ 14 2, hdone _ 9 2, hdone [] 0 4]; rfl)
    (by rw [List.drop_drop, List.drop_drop, List.drop_drop, List.length_drop]; omega)
  have hdash : ∀ i < 37, Decides (isChar inp i (ch '-')) raw (inp[i]? = some (ch '-')) raw :=
    fun i hi => isChar_decides i (ch '-') (by omega)
  have hchain := (hdash 8 (by omega)).and fun _ => (hdash 13 (by omega)).and fun _ =>
    (hdash 18 (by omega)).and fun _ => (hdash 23 (by omega)).and fun _ =>
    (nul_decides reqNul hin).and fun _ => h0.and fun _ => h1.and fun _ => h2.and fun _ => h3.and fun _ => h4
  obtain ⟨b, r, hrun, hiff, hparsed⟩ := hchain
  refine ⟨b, r, hrun, ?_, fun h => (hparsed h).trans hfields.symm⟩
  rw [hiff, startsWithUuid_iff]
  tauto

/-! ## Unparsing -/

/-- The digits of bytes. -/
def hexText (b : Bytes) : Bytes := b.flatMap hexDigits

theorem length_hexText (b : Bytes) : (hexText b).length = 2 * b.length := by
  induction b with
  | nil => rfl
  | cons x b ih =>
    rw [hexText, List.flatMap_cons, List.length_append, List.length_cons]
    change 2 + (hexText b).length = _
    omega

theorem fetch_lowercase {n : Nat} (h : n < 16) : fetch lowercase n = pure (lowercase.getD n 0) := by
  have hlen : lowercase.length = 16 := rfl
  refine fetch_eq ?_
  rw [List.getD_eq_getElem?_getD, List.getElem?_eq_getElem (by omega), Option.getD_some]

/-- The digits take the place of as many bytes. -/
theorem hexdump_run (pre mid post inp : Bytes) (off : Nat) (hoff : pre.length = off)
    (hmid : mid.length = 2 * inp.length) :
    hexdump (pre ++ (mid ++ post)) off inp false = pure (pre ++ (hexText inp ++ post)) := by
  rw [hexdump]
  have hloop : ∀ k ≤ inp.length, (List.range k).foldlM (fun out i => do
      let b ← fetch inp i
      let out ← store out (off + i * 2) (← fetch lowercase (b >>> 4).toNat)
      store out (off + (i * 2 + 1)) (← fetch lowercase (b &&& 0xf).toNat)) (pre ++ (mid ++ post)) =
      (pure (pre ++ (hexText (inp.take k) ++ (mid.drop (2 * k) ++ post))) : Comp Bytes) := by
    intro k hk
    induction k with
    | zero => rfl
    | succ k ih =>
      have hget : inp[k]? = some inp[k] := List.getElem?_eq_getElem _
      generalize inp[k] = b at hget
      have htake : inp.take (k + 1) = inp.take k ++ [b] := by rw [List.take_add_one, hget, Option.toList_some]
      obtain ⟨x, y, rest, hrest⟩ := exists_two (l := mid.drop (2 * k)) (by rw [List.length_drop]; omega)
      have hdrop : mid.drop (2 * (k + 1)) = rest := by
        rw [show 2 * (k + 1) = 2 * k + 2 by omega, ← List.drop_drop, hrest]
        rfl
      have hhigh : (b >>> 4).toNat < 16 := by
        revert b
        exact fun b _ _ => forall_byte (P := fun b => (b >>> 4).toNat < 16) (by decide +kernel) b
      have hlow : (b &&& 0xf).toNat < 16 := by
        revert b
        exact fun b _ _ _ => forall_byte (P := fun b => (b &&& 0xf).toNat < 16) (by decide +kernel) b
      have hpos : (pre ++ hexText (inp.take k)).length = off + k * 2 := by
        rw [List.length_append, length_hexText, List.length_take, hoff]
        omega
      rw [List.range_succ, List.foldlM_append, ih (by omega), pure_bind, List.foldlM_cons, hrest, hdrop, htake]
      rw [fetch_eq hget, pure_bind, fetch_lowercase hhigh, pure_bind, fetch_lowercase hlow]
      rw [← List.append_assoc, List.cons_append, store_append hpos.symm, pure_bind, pure_bind]
      rw [List.cons_append, store_add (k := 1) (by rw [hpos]; rfl) (by simp), pure_bind, List.foldlM_nil]
      rw [hexText, hexText, List.flatMap_append, List.flatMap_singleton, hexDigits]
      simp
  have hall := hloop inp.length le_rfl
  rw [List.take_length, List.drop_eq_nil_of_le (by omega), List.nil_append] at hall
  exact hall

/-- The text of a UUID. -/
def unparsed (raw : Bytes) : Bytes :=
  hexText (raw.take 4) ++ ch '-' :: (hexText ((raw.drop 4).take 2) ++ ch '-' :: (hexText ((raw.drop 6).take 2) ++
    ch '-' :: (hexText ((raw.drop 8).take 2) ++ ch '-' :: hexText ((raw.drop 10).take 6))))

theorem exists_split {l : Bytes} (n : Nat) (h : n < l.length) :
    ∃ a x b, l = a ++ x :: b ∧ a.length = n ∧ b = l.drop (n + 1) := by
  refine ⟨l.take n, l[n], l.drop (n + 1), ?_, ?_, rfl⟩
  · rw [List.cons_getElem_drop_succ, List.take_append_drop]
  · rw [List.length_take]
    omega

theorem xuuidUnparse_run {raw out : Bytes} (hraw : raw.length = 16) (hout : 37 ≤ out.length) :
    xuuidUnparse raw out = pure (unparsed raw ++ 0 :: out.drop 37) := by
  obtain ⟨a, w, t, rfl, ha, ht⟩ := exists_split 8 (show 8 < out.length by omega)
  rw [List.length_append, List.length_cons, ha] at hout
  obtain ⟨b, x, t', rfl, hb, ht'⟩ := exists_split 4 (show 4 < t.length by omega)
  rw [List.length_append, List.length_cons, hb] at hout
  obtain ⟨c, y, t, rfl, hc, -⟩ := exists_split 4 (show 4 < t'.length by omega)
  rw [List.length_append, List.length_cons, hc] at hout
  obtain ⟨d, z, t', rfl, hd, -⟩ := exists_split 4 (show 4 < t.length by omega)
  rw [List.length_append, List.length_cons, hd] at hout
  obtain ⟨e, n, rest, rfl, he, -⟩ := exists_split 12 (show 12 < t'.length by omega)
  have hpart : ∀ i len, i + len ≤ 16 → slice raw i len = pure ((raw.drop i).take len) ∧
      (hexText ((raw.drop i).take len)).length = 2 * len ∧ ((raw.drop i).take len).length = len := by
    intro i len hlen
    have hlength : ((raw.drop i).take len).length = len := by
      rw [List.length_take, List.length_drop]
      omega
    exact ⟨by rw [slice, if_pos (by omega)], by rw [length_hexText, hlength], hlength⟩
  obtain ⟨hs0, ha', hl0⟩ := hpart 0 4 (by omega)
  obtain ⟨hs1, hb', hl1⟩ := hpart 4 2 (by omega)
  obtain ⟨hs2, hc', hl2⟩ := hpart 6 2 (by omega)
  obtain ⟨hs3, hd', hl3⟩ := hpart 8 2 (by omega)
  obtain ⟨hs4, he', hl4⟩ := hpart 10 6 (by omega)
  rw [unparsed]
  rw [List.drop_zero] at hs0 ha' hl0
  generalize raw.take 4 = p0 at hs0 ha' hl0 ⊢
  generalize (raw.drop 4).take 2 = p1 at hs1 hb' hl1 ⊢
  generalize (raw.drop 6).take 2 = p2 at hs2 hc' hl2 ⊢
  generalize (raw.drop 8).take 2 = p3 at hs3 hd' hl3 ⊢
  generalize (raw.drop 10).take 6 = p4 at hs4 he' hl4 ⊢
  have hrest : (a ++ w :: (b ++ x :: (c ++ y :: (d ++ z :: (e ++ n :: rest))))).drop 37 = rest := by
    have hpre : (a ++ w :: (b ++ x :: (c ++ y :: (d ++ z :: (e ++ [n]))))).length = 37 := by
      simp [ha, hb, hc, hd, he]
    rw [← hpre]
    simp
  have h0 := hexdump_run [] a (w :: (b ++ x :: (c ++ y :: (d ++ z :: (e ++ n :: rest))))) p0 0 rfl (by omega)
  have h1 := hexdump_run (hexText p0 ++ [w]) b (x :: (c ++ y :: (d ++ z :: (e ++ n :: rest)))) p1 9
    (by simp [ha']) (by omega)
  have h2 := hexdump_run (hexText p0 ++ w :: (hexText p1 ++ [x])) c (y :: (d ++ z :: (e ++ n :: rest))) p2 14
    (by simp [ha', hb']) (by omega)
  have h3 := hexdump_run (hexText p0 ++ w :: (hexText p1 ++ x :: (hexText p2 ++ [y]))) d (z :: (e ++ n :: rest)) p3 19
    (by simp [ha', hb', hc']) (by omega)
  have h4 := hexdump_run (hexText p0 ++ w :: (hexText p1 ++ x :: (hexText p2 ++ y :: (hexText p3 ++ [z])))) e
    (n :: rest) p4 24 (by simp [ha', hb', hc', hd']) (by omega)
  have hstore : ∀ (buf : Bytes) (old new : UInt8) (rest : Bytes) (i : Nat), i = buf.length →
      store (buf ++ old :: rest) i new = pure (buf ++ new :: rest) := fun _ _ _ _ _ h => store_append h
  have h5 := hstore (hexText p0) w (ch '-')
    (hexText p1 ++ x :: (hexText p2 ++ y :: (hexText p3 ++ z :: (hexText p4 ++ n :: rest)))) 8 ha'.symm
  have h6 := hstore (hexText p0 ++ ch '-' :: hexText p1) x (ch '-')
    (hexText p2 ++ y :: (hexText p3 ++ z :: (hexText p4 ++ n :: rest))) 13 (by simp [ha', hb'])
  have h7 := hstore (hexText p0 ++ ch '-' :: (hexText p1 ++ ch '-' :: hexText p2)) y (ch '-')
    (hexText p3 ++ z :: (hexText p4 ++ n :: rest)) 18 (by simp [ha', hb', hc'])
  have h8 := hstore (hexText p0 ++ ch '-' :: (hexText p1 ++ ch '-' :: (hexText p2 ++ ch '-' :: hexText p3))) z (ch '-')
    (hexText p4 ++ n :: rest) 23 (by simp [ha', hb', hc', hd'])
  have h9 := hstore
    (hexText p0 ++ ch '-' :: (hexText p1 ++ ch '-' :: (hexText p2 ++ ch '-' :: (hexText p3 ++ ch '-' :: hexText p4))))
    n 0 rest 36 (by simp [ha', hb', hc', hd', he'])
  simp only [List.nil_append, List.append_assoc, List.cons_append] at h0 h1 h2 h3 h4 h5 h6 h7 h8 h9
  rw [xuuidUnparse, hs0, pure_bind, h0, pure_bind, hs1, pure_bind, h1, pure_bind, hs2, pure_bind, h2, pure_bind, hs3,
    pure_bind, h3, pure_bind, hs4, pure_bind, h4, pure_bind, h5, pure_bind, h6, pure_bind, h7, pure_bind, h8,
    pure_bind, h9, hrest]
  simp only [List.append_assoc, List.cons_append]

/-! ## Round trips -/

theorem hexText_bytesFrom {inp : Bytes} {q n : Nat} (h : ∀ j < 2 * n, hexAt inp (q + j)) :
    hexText (bytesFrom inp q n) = ((inp.drop q).take (2 * n)).map lower := by
  induction n generalizing q with
  | zero => rfl
  | succ n ih =>
    obtain ⟨a, ha, hhexa⟩ := h 0 (by omega)
    obtain ⟨b, hb, hhexb⟩ := h 1 (by omega)
    rw [Nat.add_zero] at ha
    have hdrop : inp.drop q = a :: b :: inp.drop (q + 2) := by
      obtain ⟨hlt, rfl⟩ := List.getElem?_eq_some_iff.mp ha
      obtain ⟨hlt', rfl⟩ := List.getElem?_eq_some_iff.mp hb
      rw [List.drop_eq_getElem_cons hlt, List.drop_eq_getElem_cons hlt']
    have hrest : ∀ j < 2 * n, hexAt inp (q + 2 + j) := by
      intro j hj
      have := h (j + 2) (by omega)
      rwa [show q + (j + 2) = q + 2 + j by omega] at this
    rw [bytesFrom, hexText, List.flatMap_cons, ← hexText, ih hrest, hdrop, List.getD_eq_getElem?_getD,
      List.getD_eq_getElem?_getD, ha, hb, Option.getD_some, Option.getD_some, hexDigits_byteOf hhexa hhexb]
    rfl

/-- What is parsed comes back in lower case. -/
theorem unparsed_parsed {inp : Bytes} (h : StartsWithUuid inp) : unparsed (parsed inp) = (inp.take 36).map lower := by
  obtain ⟨h8, h13, h18, h23, ha, hb, hc, hd, he⟩ := startsWithUuid_iff.mp h
  have hfields : (parsed inp).take 4 = bytesFrom inp 0 4 ∧ ((parsed inp).drop 4).take 2 = bytesFrom inp 9 2 ∧
      ((parsed inp).drop 6).take 2 = bytesFrom inp 14 2 ∧ ((parsed inp).drop 8).take 2 = bytesFrom inp 19 2 ∧
      ((parsed inp).drop 10).take 6 = bytesFrom inp 24 6 := ⟨rfl, rfl, rfl, rfl, rfl⟩
  have hdash : ∀ {i n : Nat}, inp[i]? = some (ch '-') →
      (inp.drop i).take (n + 1) = ch '-' :: (inp.drop (i + 1)).take n := by
    intro i n hi
    obtain ⟨hlt, hget⟩ := List.getElem?_eq_some_iff.mp hi
    rw [List.drop_eq_getElem_cons hlt, List.take_succ_cons, hget]
  have hsplit : ∀ i n m : Nat, (inp.drop i).take (n + m) = (inp.drop i).take n ++ (inp.drop (i + n)).take m := by
    intro i n m
    rw [List.take_add, List.drop_drop]
  have htake : inp.take 36 = (inp.drop 0).take 8 ++ ch '-' :: ((inp.drop 9).take 4 ++ ch '-' ::
      ((inp.drop 14).take 4 ++ ch '-' :: ((inp.drop 19).take 4 ++ ch '-' :: (inp.drop 24).take 12))) := by
    rw [← hdash (n := 12) h23, ← hsplit 19 4 13, ← hdash (n := 17) h18, ← hsplit 14 4 18, ← hdash (n := 22) h13,
      ← hsplit 9 4 23, ← hdash (n := 27) h8, ← hsplit 0 8 28]
    rfl
  rw [unparsed, hfields.1, hfields.2.1, hfields.2.2.1, hfields.2.2.2.1, hfields.2.2.2.2, hexText_bytesFrom ha,
    hexText_bytesFrom hb, hexText_bytesFrom hc, hexText_bytesFrom hd, hexText_bytesFrom he, htake]
  simp only [List.map_append, List.map_cons]
  rfl

/-- A field that `hexdump` has written. -/
theorem bytesFrom_hexText (pre b post : Bytes) {q n : Nat} (hq : q = pre.length) (hn : n = b.length) :
    bytesFrom (pre ++ (hexText b ++ post)) q n = b ∧ ∀ j < 2 * n, hexAt (pre ++ (hexText b ++ post)) (q + j) := by
  subst hq hn
  constructor
  · induction b generalizing pre with
    | nil => rfl
    | cons x b ih =>
      have hassoc : pre ++ (hexText (x :: b) ++ post) = pre ++ hexDigits x ++ (hexText b ++ post) := by
        simp [hexText]
      have hget : ∀ k, (pre ++ hexDigits x ++ (hexText b ++ post)).getD (pre.length + k) 0 =
          (hexDigits x ++ (hexText b ++ post)).getD k 0 := by
        intro k
        rw [List.append_assoc, List.getD_eq_getElem?_getD, List.getElem?_append_right (Nat.le_add_right _ _),
          Nat.add_sub_cancel_left, ← List.getD_eq_getElem?_getD]
      have hih := ih (pre ++ hexDigits x)
      rw [List.length_append] at hih
      have hfirst := hget 0
      rw [Nat.add_zero] at hfirst
      rw [hassoc, List.length_cons, bytesFrom, hfirst, hget 1]
      exact congrArg₂ List.cons (byteOf_hexDigits x) hih
  · intro j hj
    have hlt : j < (hexText b).length := by rwa [length_hexText]
    refine ⟨(hexText b)[j], ?_, ?_⟩
    · rw [List.getElem?_append_right (Nat.le_add_right _ _), Nat.add_sub_cancel_left, List.getElem?_append_left hlt,
        List.getElem?_eq_getElem hlt]
    · obtain ⟨x, -, hmem⟩ := List.mem_flatMap.mp (List.getElem_mem hlt)
      exact hexDigits_hex x _ hmem

theorem parsed_unparsed {raw : Bytes} (hraw : raw.length = 16) (rest : Bytes) :
    StartsWithUuid (unparsed raw ++ rest) ∧ parsed (unparsed raw ++ rest) = raw ∧ (unparsed raw).length = 36 := by
  have hpart : ∀ i len, i + len ≤ 16 → ((raw.drop i).take len).length = len ∧
      (hexText ((raw.drop i).take len)).length = 2 * len := by
    intro i len hlen
    have hlength : ((raw.drop i).take len).length = len := by
      rw [List.length_take, List.length_drop]
      omega
    exact ⟨hlength, by rw [length_hexText, hlength]⟩
  have hjoin : raw = raw.take 4 ++ (raw.drop 4).take 2 ++ (raw.drop 6).take 2 ++ (raw.drop 8).take 2 ++
      (raw.drop 10).take 6 := by
    rw [← List.take_add, ← List.take_add, ← List.take_add, ← List.take_add, List.take_of_length_le (by omega)]
  obtain ⟨l0, ha⟩ := hpart 0 4 (by omega)
  obtain ⟨l1, hb⟩ := hpart 4 2 (by omega)
  obtain ⟨l2, hc⟩ := hpart 6 2 (by omega)
  obtain ⟨l3, hd⟩ := hpart 8 2 (by omega)
  obtain ⟨l4, he⟩ := hpart 10 6 (by omega)
  rw [unparsed]
  rw [List.drop_zero] at l0 ha
  generalize raw.take 4 = p0 at l0 ha hjoin ⊢
  generalize (raw.drop 4).take 2 = p1 at l1 hb hjoin ⊢
  generalize (raw.drop 6).take 2 = p2 at l2 hc hjoin ⊢
  generalize (raw.drop 8).take 2 = p3 at l3 hd hjoin ⊢
  generalize (raw.drop 10).take 6 = p4 at l4 he hjoin ⊢
  generalize htext : hexText p0 ++ ch '-' :: (hexText p1 ++ ch '-' :: (hexText p2 ++ ch '-' ::
    (hexText p3 ++ ch '-' :: hexText p4))) ++ rest = inp
  have h0 := bytesFrom_hexText [] p0 (ch '-' :: (hexText p1 ++ ch '-' :: (hexText p2 ++ ch '-' :: (hexText p3 ++
    ch '-' :: (hexText p4 ++ rest))))) (q := 0) rfl l0.symm
  have h1 := bytesFrom_hexText (hexText p0 ++ [ch '-']) p1 (ch '-' :: (hexText p2 ++ ch '-' :: (hexText p3 ++
    ch '-' :: (hexText p4 ++ rest)))) (q := 9) (by simp [ha]) l1.symm
  have h2 := bytesFrom_hexText (hexText p0 ++ ch '-' :: (hexText p1 ++ [ch '-'])) p2 (ch '-' :: (hexText p3 ++
    ch '-' :: (hexText p4 ++ rest))) (q := 14) (by simp [ha, hb]) l2.symm
  have h3 := bytesFrom_hexText (hexText p0 ++ ch '-' :: (hexText p1 ++ ch '-' :: (hexText p2 ++ [ch '-']))) p3
    (ch '-' :: (hexText p4 ++ rest)) (q := 19) (by simp [ha, hb, hc]) l3.symm
  have h4 := bytesFrom_hexText (hexText p0 ++ ch '-' :: (hexText p1 ++ ch '-' :: (hexText p2 ++ ch '-' ::
    (hexText p3 ++ [ch '-'])))) p4 rest (q := 24) (by simp [ha, hb, hc, hd]) l4.symm
  simp only [List.nil_append, List.append_assoc, List.cons_append] at h0 h1 h2 h3 h4 htext
  rw [htext] at h0 h1 h2 h3 h4
  have hget : ∀ (pre post : Bytes) (i : Nat), i = pre.length → (pre ++ ch '-' :: post)[i]? = some (ch '-') := by
    rintro pre post i rfl
    rw [List.getElem?_append_right le_rfl, Nat.sub_self]
    rfl
  refine ⟨startsWithUuid_iff.mpr ⟨?_, ?_, ?_, ?_, h0.2, h1.2, h2.2, h3.2, h4.2⟩, ?_, ?_⟩
  · rw [← htext]
    exact hget (hexText p0) _ 8 ha.symm
  · rw [← htext]
    simpa using hget (hexText p0 ++ ch '-' :: hexText p1) (hexText p2 ++ ch '-' :: (hexText p3 ++ ch '-' ::
      (hexText p4 ++ rest))) 13 (by simp [ha, hb])
  · rw [← htext]
    simpa using hget (hexText p0 ++ ch '-' :: (hexText p1 ++ ch '-' :: hexText p2)) (hexText p3 ++ ch '-' ::
      (hexText p4 ++ rest)) 18 (by simp [ha, hb, hc])
  · rw [← htext]
    simpa using hget (hexText p0 ++ ch '-' :: (hexText p1 ++ ch '-' :: (hexText p2 ++ ch '-' :: hexText p3)))
      (hexText p4 ++ rest) 23 (by simp [ha, hb, hc, hd])
  · rw [parsed, h0.1, h1.1, h2.1, h3.1, h4.1, ← hjoin]
  · simp [ha, hb, hc, hd, he]

/-! ## The results -/

/-- A `struct xuuid`. -/
abbrev Xuuid := { raw : Bytes // raw.length = 16 }

theorem startsWithUuid_append {s rest : Bytes} (h : 36 ≤ s.length) :
    StartsWithUuid (s ++ rest) ↔ StartsWithUuid s := by
  have hget : ∀ i < 36, (s ++ rest)[i]? = s[i]? := fun i hi => List.getElem?_append_left (by omega)
  constructor
  · intro hs i hi
    rw [← hget i hi]
    exact hs i hi
  · intro hs i hi
    rw [hget i hi]
    exact hs i hi

/-- The terminator is at position 36 if and only if the string ends there. -/
theorem nul_at_36 {s : CStr} {rest : Bytes} (h : 36 ≤ s.1.length) :
    (s.1 ++ 0 :: rest)[36]? = some 0 ↔ s.1.length = 36 := by
  rcases Nat.lt_or_ge 36 s.1.length with hlt | hge
  · rw [List.getElem?_append_left hlt]
    refine ⟨fun hget => absurd (List.mem_of_getElem? hget) s.2, fun hlen => by omega⟩
  · have hlen : s.1.length = 36 := by omega
    refine ⟨fun _ => hlen, fun _ => ?_⟩
    rw [List.getElem?_append_right hge, hlen]
    rfl

theorem xuuid_text_round_trip (old : Xuuid) :
    (∀ (u : Xuuid) (out : Bytes), 37 ≤ out.length →
      ∃ out', xuuidUnparse u.1 out = pure out' ∧ xuuidParse out' old.1 = pure (true, u.1)) ∧
    ∀ (s : CStr) (rest : Bytes), 36 ≤ s.1.length →
      ∃ b b' raw raw', xuuidParseNoNul (s.1 ++ 0 :: rest) old.1 = pure (b, raw) ∧
        xuuidParse (s.1 ++ 0 :: rest) old.1 = pure (b', raw') ∧
        (b = true ↔ StartsWithUuid s.1) ∧ (b' = true ↔ StartsWithUuid s.1 ∧ s.1.length = 36) ∧
        ∀ (r : Bytes), (b = true ∧ r = raw ∨ b' = true ∧ r = raw') → ∀ out : Bytes, 37 ≤ out.length →
          xuuidUnparse r out = pure ((s.1.take 36).map lower ++ 0 :: out.drop 37) := by
  constructor
  · intro u out hout
    obtain ⟨hstarts, hparsed, hlen⟩ := parsed_unparsed u.2 (0 :: out.drop 37)
    have hin : 36 < (unparsed u.1 ++ 0 :: out.drop 37).length := by
      rw [List.length_append, hlen, List.length_cons]
      omega
    have hnul : (unparsed u.1 ++ 0 :: out.drop 37)[36]? = some 0 := by
      rw [List.getElem?_append_right (by omega), hlen]
      rfl
    obtain ⟨b, r, hrun, hiff, hr⟩ := xuuidParseReq_decides true hin old.2
    obtain rfl : b = true := hiff.mpr ⟨hstarts, fun _ => hnul⟩
    obtain rfl : r = u.1 := (hr rfl).trans hparsed
    exact ⟨_, xuuidUnparse_run u.2 hout, hrun⟩
  · intro s rest hs
    have hin : 36 < (s.1 ++ 0 :: rest).length := by
      rw [List.length_append, List.length_cons]
      omega
    obtain ⟨b, raw, hrun, hiff, hraw⟩ := xuuidParseReq_decides false hin old.2
    obtain ⟨b', raw', hrun', hiff', hraw'⟩ := xuuidParseReq_decides true hin old.2
    rw [startsWithUuid_append hs] at hiff hiff'
    refine ⟨b, b', raw, raw', hrun, hrun', ?_, ?_, ?_⟩
    · simpa using hiff
    · rw [hiff', nul_at_36 hs]
      simp
    · intro r hr out hout
      have hparsed : StartsWithUuid s.1 ∧ r = parsed (s.1 ++ 0 :: rest) := by
        rcases hr with ⟨hb, rfl⟩ | ⟨hb, rfl⟩
        · exact ⟨(hiff.mp hb).1, hraw hb⟩
        · exact ⟨(hiff'.mp hb).1, hraw' hb⟩
      obtain ⟨hstarts, rfl⟩ := hparsed
      rw [xuuidUnparse_run (length_parsed _) hout, unparsed_parsed ((startsWithUuid_append hs).mpr hstarts),
        List.take_append_of_le_length hs]

/-- A UUID with digits of either case, and something behind it. -/
def mixedText : CStr :=
  cstr (text ['8', '1', 'B', '2', 'e', '1', 'a', 'a', '-', '4', '0', 'F', '8', '-', '4', '2', 'D', '7', '-', '9', 'f', '0',
    'c', '-', '0', '0', '1', '1', '2', '2', '3', '3', '4', '4', '5', '5', '/', 'x'])

theorem xuuid_text_round_trip_mixed :
    (∃ out', xuuidUnparse (parsed mixedText.1) (List.replicate 40 1) = pure out' ∧
      xuuidParse out' (List.replicate 16 0) = pure (true, parsed mixedText.1)) ∧
    ∃ raw raw', xuuidParseNoNul (mixedText.1 ++ [0]) (List.replicate 16 0) = pure (true, raw) ∧
      xuuidParse (mixedText.1 ++ [0]) (List.replicate 16 0) = pure (false, raw') ∧
      xuuidUnparse raw (List.replicate 37 0) = pure ((mixedText.1.take 36).map lower ++ [0]) := by
  obtain ⟨hunparse, hparse⟩ := xuuid_text_round_trip ⟨List.replicate 16 0, rfl⟩
  refine ⟨hunparse ⟨parsed mixedText.1, length_parsed _⟩ (List.replicate 40 1) (by decide), ?_⟩
  obtain ⟨b, b', raw, raw', hrun, hrun', hb, hb', hlower⟩ := hparse mixedText [] (by decide)
  obtain rfl : b = true := hb.mpr (by decide)
  obtain rfl : b' = false := Bool.eq_false_iff.mpr fun h => absurd (hb'.mp h).2 (by decide)
  exact ⟨raw, raw', hrun, hrun', hlower raw (.inl ⟨rfl, rfl⟩) (List.replicate 37 0) (by decide)⟩

/-! ## Looks behind the terminator -/

section Bounds

variable {s : CStr} {raw : Bytes} {d : Parse} {i : Nat}

/-- A check for a separator, and what follows it. -/
theorem dash_returns : (∃ r, (isChar (s.1 ++ [0]) i (ch '-') <&&> d) raw = pure r) ↔
    i ≤ s.1.length ∧ (s.1[i]? = some (ch '-') → ∃ r, d raw = pure r) := by
  rcases Nat.lt_or_ge s.1.length i with hlt | hge
  · have hfault : isChar (s.1 ++ [0]) i (ch '-') raw = throw .bounds :=
      isChar_fault (by rw [List.length_append, List.length_singleton]; omega)
    rw [and_fault hfault]
    exact ⟨nofun, fun h => absurd h.1 (Nat.not_le.mpr hlt)⟩
  · have hin : i < (s.1 ++ [0]).length := by
      rw [List.length_append, List.length_singleton]
      omega
    have hchar : (s.1 ++ [0])[i]? = some (ch '-') ↔ s.1[i]? = some (ch '-') := by
      rcases Nat.eq_or_lt_of_le hge with rfl | hlt
      · rw [List.getElem?_append_right le_rfl, Nat.sub_self, List.getElem?_eq_none le_rfl]
        exact ⟨fun h => absurd (Option.some.inj h) (by decide), nofun⟩
      · rw [List.getElem?_append_left hlt]
    obtain ⟨b, r, hrun, hiff, hraw⟩ := @isChar_decides _ raw i (ch '-') hin
    rw [hchar] at hiff
    cases b with
    | false =>
      rw [and_false hrun]
      exact ⟨fun _ => ⟨hge, fun h => absurd (hiff.mpr h) (by decide)⟩, fun _ => ⟨_, rfl⟩⟩
    | true =>
      obtain rfl := hraw rfl
      rw [and_true hrun]
      exact ⟨fun h => ⟨hge, fun _ => h⟩, fun h => h.2 (hiff.mp rfl)⟩

/-- The terminator is looked for behind a string of less than 36 bytes. -/
theorem nul_faults (hshort : s.1.length < 36) :
    ((pure !true <||> isChar (s.1 ++ [0]) 36 0) <&&> d) raw = throw .bounds := by
  have hfault : isChar (s.1 ++ [0]) 36 0 raw = throw .bounds :=
    isChar_fault (by rw [List.length_append, List.length_singleton]; omega)
  exact and_fault hfault

end Bounds

/-- No place behind the terminator is looked at if the string is long enough for its separators. -/
theorem xuuid_parse_in_bounds_iff (s : CStr) (old : Xuuid) :
    (∃ r, xuuidParse (s.1 ++ [0]) old.1 = pure r) ↔ LongEnough s.1 := by
  rcases Nat.lt_or_ge s.1.length 36 with hshort | hlong
  · rw [xuuidParse, xuuidParseReq, dash_returns, dash_returns, dash_returns, dash_returns, nul_faults hshort]
    constructor
    · rintro ⟨h8, h⟩
      exact ⟨h8, fun a => (h a).1, fun a b => ((h a).2 b).1, fun a b c => (((h a).2 b).2 c).1,
        fun a b c d => nomatch (((h a).2 b).2 c).2 d⟩
    · rintro ⟨h8, h13, h18, h23, h36⟩
      exact ⟨h8, fun a => ⟨h13 a, fun b => ⟨h18 a b, fun c => ⟨h23 a b c, fun d =>
        absurd (h36 a b c d) (Nat.not_le.mpr hshort)⟩⟩⟩⟩
  · have hin : 36 < (s.1 ++ [0]).length := by
      rw [List.length_append, List.length_singleton]
      omega
    obtain ⟨b, r, hrun, -, -⟩ := xuuidParseReq_decides true hin old.2
    exact ⟨fun _ => ⟨by omega, fun _ => by omega, fun _ _ => by omega, fun _ _ _ => by omega,
      fun _ _ _ _ => hlong⟩, fun _ => ⟨_, hrun⟩⟩

/-- The string that lacks the last character. -/
def truncated : CStr := cstr (text
  ['9', 'e', '9', 'a', '1', '9', 'f', '3', '-', 'f', 'b', '8', '5', '-', '6', 'c', '3', 'd', '-', '9', 'a', '9', '1',
    '-', 'b', '5', 'a', '9', 'e', 'f', 'e', 'e', '2', 'd', '9'])

theorem xuuid_parse_behind_nul : truncated.1.length = 35 ∧
    xuuidParse (truncated.1 ++ [0]) (List.replicate 16 0) = throw .bounds :=
  ⟨rfl, rfl⟩

end Libjeffpc.Uuid
