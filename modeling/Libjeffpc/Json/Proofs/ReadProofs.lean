import Libjeffpc.Json.Proofs.TextProofs

/-!
# JSON text that is read

The reader gets a value back from its text. The text of an element is never empty, and the reader
needs one round for every element and level, so the length of the text limits how many it needs.
-/

namespace Libjeffpc.Json

open Lib

theorem readChars_quote (rest : Bytes) : readChars (ch '"' :: rest) = some ([], rest) := by
  rw [readChars.eq_def]
  rfl

theorem readChars_byte {c : UInt8} (hq : c ≠ ch '"') (hb : c ≠ ch '\\') (h : ¬c < 0x20) (rest : Bytes) :
    readChars (c :: rest) = (readChars rest).map fun p => (c :: p.1, p.2) := by
  rw [readChars.eq_def]
  simp only [hq, hb, h, if_false]
  cases readChars rest <;> rfl

theorem readChars_escape {c e : UInt8} (h : unescape e = some c) (hu : e ≠ ch 'u') (rest : Bytes) :
    readChars (ch '\\' :: e :: rest) = (readChars rest).map fun p => (c :: p.1, p.2) := by
  have hq : ch '\\' ≠ ch '"' := by decide
  rw [readChars.eq_def]
  simp only [hq, hu, h, if_false, if_true]
  cases readChars rest <;> rfl

theorem readChars_unicode {a b c d : UInt8} {n : Nat} {bytes : Bytes} (h : hex4Value a b c d = some n)
    (hn : utf8 n = some bytes) (rest : Bytes) :
    readChars (ch '\\' :: ch 'u' :: a :: b :: c :: d :: rest) =
      (readChars rest).map fun p => (bytes ++ p.1, p.2) := by
  have hq : ch '\\' ≠ ch '"' := by decide
  rw [readChars.eq_def]
  simp only [hq, if_false, if_true, h, Option.bind_eq_bind, Option.bind_some, hn]
  cases readChars rest <;> rfl

/-- One byte of a string is read back. -/
theorem readChars_escaped (c : UInt8) (bs : Bytes) :
    readChars (escaped c ++ bs) = (readChars bs).map fun p => (c :: p.1, p.2) := by
  by_cases h : c ≤ 0x1f
  · rcases escaped_ctrl h with ⟨e, he, hu, hne⟩ | he
    · rw [he]
      exact readChars_escape hu hne bs
    · have hn := toNat_lt_of_ctrl h
      have hutf : utf8 c.toNat = some [c] := by
        rw [utf8, if_pos (by omega), UInt8.ofNat_toNat]
      rw [he]
      exact readChars_unicode (hex4Value_hex4 (by omega) rfl) hutf bs
  · by_cases hc : c = ch '"' ∨ c = ch '\\'
    · obtain ⟨he, hu, hne⟩ := escaped_quote h hc
      rw [he]
      exact readChars_escape hu hne bs
    · rw [escaped_plain h hc]
      rw [not_or] at hc
      have h20 : ¬c < 0x20 := by
        rw [UInt8.le_iff_toNat_le] at h
        rw [UInt8.lt_iff_toNat_lt]
        change ¬c.toNat ≤ 31 at h
        show ¬c.toNat < 32
        omega
      exact readChars_byte hc.1 hc.2 h20 bs

theorem readChars_string (str rest : Bytes) :
    readChars ((str.map escaped).flatten ++ ch '"' :: rest) = some (str, rest) := by
  induction str with
  | nil => exact readChars_quote rest
  | cons c str ih =>
    rw [List.map_cons, List.flatten_cons, List.append_assoc, readChars_escaped, ih]
    rfl

theorem readString_output (s : CStr) (rest : Bytes) :
    readString ((s.1.map escaped).flatten ++ ch '"' :: rest) = some (s, rest) := by
  rw [readString, readChars_string]
  simp only [Option.bind_eq_bind, Option.bind_some]
  rw [dif_pos s.2]
  rfl

theorem readNumber_decimal (i : UInt64) {rest : Bytes} (h : Delimited rest) :
    readNumber (decimal i.toNat ++ rest) = some (i, rest) := by
  have hrest : ∀ c t, rest = c :: t → isDigit c = false := by
    intro c t ht
    have := h c t ht
    simp only [inNumber, Bool.or_eq_false_iff] at this
    exact this.1.1.1
  have hspan : (decimal i.toNat ++ rest).takeWhile isDigit = decimal i.toNat ∧
      (decimal i.toNat ++ rest).dropWhile isDigit = rest := by
    rw [List.takeWhile_append_of_pos (isDigit_decimal _), List.dropWhile_append_of_pos (isDigit_decimal _)]
    cases rest with
    | nil => simp
    | cons c t => simp [hrest c t rfl]
  have hzero : ¬((decimal i.toNat).head? = some (ch '0') ∧ (decimal i.toNat).length ≠ 1) := by
    rintro ⟨hhead, hlen⟩
    obtain ⟨t, ht⟩ := List.head?_eq_some_iff.mp hhead
    have hnil := (decimal_head ht).2
    rw [ht, hnil] at hlen
    exact hlen rfl
  have hnum : rest.head?.any inNumber = false := by
    cases rest with
    | nil => rfl
    | cons c t => exact h c t rfl
  rw [readNumber, hspan.1, hspan.2]
  simp only [hzero, if_false, hnum, Bool.false_eq_true, decimalValue_decimal, UInt64.toNat_lt, if_true,
    UInt64.ofNat_toNat]

theorem skipWs_cons {c : UInt8} (h : isWs c = false) (bs : Bytes) : skipWs (c :: bs) = c :: bs := by
  rw [skipWs, List.dropWhile_cons_of_neg (by simp [h])]

theorem delimited_cons {c : UInt8} (h : inNumber c = false) (bs : Bytes) : Delimited (c :: bs) := by
  intro c' t ht
  cases ht
  exact h

theorem isDigit_ne {c : UInt8} (h : isDigit c) :
    isWs c = false ∧ c ≠ ch '"' ∧ c ≠ ch '[' ∧ c ≠ ch ']' ∧ c ≠ ch '\x7b' := by
  have hne : ∀ x, isDigit x = false → c ≠ x := by
    rintro x hx rfl
    rw [hx] at h
    cases h
  refine ⟨?_, hne _ (by decide), hne _ (by decide), hne _ (by decide), hne _ (by decide)⟩
  simp only [isWs, Bool.or_eq_false_iff, decide_eq_false_iff_not]
  exact ⟨⟨⟨hne _ (by decide), hne _ (by decide)⟩, hne _ (by decide)⟩, hne _ (by decide)⟩

theorem decimal_cons (n : Nat) : ∃ c t, decimal n = c :: t ∧ isDigit c := by
  obtain ⟨c, t, ht⟩ := List.exists_cons_of_ne_nil (decimal_ne_nil n)
  exact ⟨c, t, ht, isDigit_decimal n c (by rw [ht]; simp)⟩

/-- The first byte of a value is none of those that the reader skips or takes for an end. -/
theorem output_head {v : Val} (h : Plain v) :
    ∃ c t, (output v).bytes = c :: t ∧ isWs c = false ∧ c ≠ ch ']' := by
  cases h with
  | null => exact ⟨ch 'n', _, rfl, by decide, by decide⟩
  | int i =>
    obtain ⟨c, t, ht, hc⟩ := decimal_cons i.toNat
    refine ⟨c, t, ?_, (isDigit_ne hc).1, (isDigit_ne hc).2.2.2.1⟩
    rw [output, Output.bytes, Output.chunk, List.flatten_singleton, ht]
  | bool b =>
    cases b with
    | false => exact ⟨ch 'f', _, rfl, by decide, by decide⟩
    | true => exact ⟨ch 't', _, rfl, by decide, by decide⟩
  | str s => exact ⟨ch '"', _, bytes_outputString _, by decide, by decide⟩
  | @array vals h =>
    cases vals with
    | nil => exact ⟨ch '[', _, bytes_emptyArray, by decide, by decide⟩
    | cons v vals => exact ⟨ch '[', _, bytes_array h, by decide, by decide⟩
  | @nvl pairs hsorted h =>
    cases pairs with
    | nil => exact ⟨ch '\x7b', _, bytes_emptyObject, by decide, by decide⟩
    | cons p pairs => exact ⟨ch '\x7b', _, bytes_object h, by decide, by decide⟩

/-- The reader gets a value back from its text. -/
def Reads (v : Val) : Prop := ∀ n rest, (output v).bytes.length ≤ n → Delimited rest →
  readVal n ((output v).bytes ++ rest) = some (v, rest)

theorem readElems_output {v : Val} {vals : List Val} (h : ∀ w ∈ v :: vals, Reads w) {n : Nat}
    (rest : Bytes) (hn : ((output v).bytes ++
      (vals.map fun v => [ch ','] ++ (output v).bytes).flatten).length < n) :
    readElems n ((output v).bytes ++ ((vals.map fun v => [ch ','] ++ (output v).bytes).flatten ++
      ch ']' :: rest)) = some (v :: vals, rest) := by
  induction vals generalizing v n with
  | nil =>
    obtain ⟨k, rfl⟩ : ∃ k, n = k + 1 := ⟨n - 1, by omega⟩
    simp only [List.map_nil, List.flatten_nil, List.append_nil, List.nil_append] at hn ⊢
    have hread := h v (by simp) k (ch ']' :: rest) (by omega) (delimited_cons (by decide) _)
    have hskip : skipWs (ch ']' :: rest) = ch ']' :: rest := skipWs_cons (by decide) _
    rw [readElems, hread]
    simp only [Option.bind_eq_bind, Option.bind_some, hskip]
    rfl
  | cons w vals ih =>
    obtain ⟨k, rfl⟩ : ∃ k, n = k + 1 := ⟨n - 1, by omega⟩
    simp only [List.map_cons, List.flatten_cons, List.cons_append, List.nil_append, List.append_assoc,
      List.length_append, List.length_cons] at hn ⊢
    have hread := h v (by simp) k (ch ',' :: ((output w).bytes ++ ((vals.map fun v =>
      ch ',' :: (output v).bytes).flatten ++ ch ']' :: rest))) (by omega) (delimited_cons (by decide) _)
    have hskip : ∀ bs, skipWs (ch ',' :: bs) = ch ',' :: bs := skipWs_cons (by decide)
    have htail := ih (n := k) (fun u hu => h u (List.mem_cons_of_mem _ hu)) (by
      simp only [List.length_append, List.cons_append, List.nil_append]
      omega)
    simp only [List.cons_append, List.nil_append] at htail
    rw [readElems, hread]
    simp only [Option.bind_eq_bind, Option.bind_some, hskip, if_true, htail]
    rfl

/-- A member, up to the value and what follows it. -/
theorem readMembers_member (p : CStr × Val) (k : Nat) {after rest : Bytes} {c : UInt8} (hv : Reads p.2)
    (hk : (memberBytes p).length ≤ k) (hafter : Delimited after) (hskip : skipWs after = c :: rest) :
    readMembers (k + 1) (memberBytes p ++ after) =
      if c = ch ',' then (readMembers k rest).bind fun r => some (p :: r.1, r.2)
      else if c = ch '\x7d' then some ([p], rest)
      else none := by
  obtain ⟨name, v⟩ := p
  have hv : Reads v := hv
  simp only [memberBytes, bytes_outputString, List.cons_append, List.append_assoc, List.nil_append,
    List.length_cons, List.length_append] at hk ⊢
  have hread : readVal k ((output v).bytes ++ after) = some (v, after) := hv k after (by omega) hafter
  have hquote : ∀ bs, skipWs (ch '"' :: bs) = ch '"' :: bs := skipWs_cons (by decide)
  have hcolon : ∀ bs, skipWs (ch ':' :: bs) = ch ':' :: bs := skipWs_cons (by decide)
  rw [readMembers, hquote]
  simp only [if_true, readString_output, Option.bind_eq_bind, Option.bind_some, hcolon, hread, hskip]
  rfl

theorem readMembers_output {p : CStr × Val} {pairs : List (CStr × Val)}
    (h : ∀ q ∈ p :: pairs, Reads q.2) {n : Nat} (rest : Bytes)
    (hn : (memberBytes p ++ (pairs.map fun p => [ch ','] ++ memberBytes p).flatten).length < n) :
    readMembers n (memberBytes p ++ ((pairs.map fun p => [ch ','] ++ memberBytes p).flatten ++
      ch '\x7d' :: rest)) = some (p :: pairs, rest) := by
  induction pairs generalizing p n with
  | nil =>
    obtain ⟨k, rfl⟩ : ∃ k, n = k + 1 := ⟨n - 1, by omega⟩
    simp only [List.map_nil, List.flatten_nil, List.append_nil, List.nil_append] at hn ⊢
    have hskip : skipWs (ch '\x7d' :: rest) = ch '\x7d' :: rest := skipWs_cons (by decide) _
    rw [readMembers_member p k (h p (by simp)) (by omega) (delimited_cons (by decide) _) hskip]
    rfl
  | cons q pairs ih =>
    obtain ⟨k, rfl⟩ : ∃ k, n = k + 1 := ⟨n - 1, by omega⟩
    simp only [List.map_cons, List.flatten_cons, List.cons_append, List.nil_append, List.append_assoc,
      List.length_append, List.length_cons] at hn ⊢
    have hskip : ∀ bs, skipWs (ch ',' :: bs) = ch ',' :: bs := skipWs_cons (by decide)
    have htail := ih (n := k) (fun u hu => h u (List.mem_cons_of_mem _ hu)) (by
      simp only [List.length_append, List.cons_append, List.nil_append]
      omega)
    simp only [List.cons_append, List.nil_append] at htail
    rw [readMembers_member p k (h p (by simp)) (by omega) (delimited_cons (by decide) _) (hskip _), if_pos rfl, htail]
    rfl

theorem readVal_literal {c : UInt8} {bs : Bytes} (hw : isWs c = false)
    (hc : c ≠ ch '"' ∧ c ≠ ch '[' ∧ c ≠ ch '\x7b' ∧ isDigit c = false) (n : Nat) :
    readVal (n + 1) (c :: bs) = readLiteral (c :: bs) := by
  obtain ⟨h1, h2, h3, h4⟩ := hc
  rw [readVal, skipWs_cons hw]
  simp only [h1, h2, h3, h4, if_false, Bool.false_eq_true]

theorem readVal_array {bs : Bytes} (h : (skipWs bs).head? ≠ some (ch ']')) (n : Nat) :
    readVal (n + 1) (ch '[' :: bs) = (readElems n bs).map fun p => (.array p.1, p.2) := by
  have hq : ch '[' ≠ ch '"' := by decide
  rw [readVal, skipWs_cons (by decide)]
  simp only [hq, h, if_false, if_true]
  cases readElems n bs <;> rfl

theorem readVal_object {bs : Bytes} (h : (skipWs bs).head? ≠ some (ch '\x7d')) (n : Nat) :
    readVal (n + 1) (ch '\x7b' :: bs) =
      (readMembers n bs).map fun p => (.nvl (nvSetAll [] p.1), p.2) := by
  have hq : ch '\x7b' ≠ ch '"' ∧ ch '\x7b' ≠ ch '[' := by decide
  rw [readVal, skipWs_cons (by decide)]
  simp only [hq.1, hq.2, h, if_false, if_true]
  cases readMembers n bs <;> rfl

theorem reads_plain {v : Val} (h : Plain v) : Reads v := by
  induction h with
  | null =>
    rintro (_ | n) rest hn _
    · cases hn
    · exact readVal_literal (by decide) (by decide) n
  | int i =>
    intro n rest hn hrest
    obtain ⟨c, t, ht, hc⟩ := decimal_cons i.toNat
    obtain ⟨hw, h1, h2, -, h3⟩ := isDigit_ne hc
    have hbytes : (output (.int i)).bytes = decimal i.toNat := by
      rw [output, Output.bytes, Output.chunk, List.flatten_singleton]
    rw [hbytes, ht] at hn
    obtain ⟨k, rfl⟩ : ∃ k, n = k + 1 := ⟨n - 1, by rw [List.length_cons] at hn; omega⟩
    have hnum := readNumber_decimal i hrest
    rw [hbytes, ht, List.cons_append, readVal, skipWs_cons hw]
    rw [ht, List.cons_append] at hnum
    simp only [h1, h2, h3, hc, if_false, if_true, hnum]
    rfl
  | bool b =>
    rintro (_ | n) rest hn _
    · cases b <;> cases hn
    · cases b with
      | false => exact readVal_literal (by decide) (by decide) n
      | true => exact readVal_literal (by decide) (by decide) n
  | str s =>
    intro n rest hn _
    have hbytes : (output (.str s)).bytes = ch '"' :: ((s.1.map escaped).flatten ++ [ch '"']) :=
      bytes_outputString _
    rw [hbytes, List.length_cons] at hn
    obtain ⟨k, rfl⟩ : ∃ k, n = k + 1 := ⟨n - 1, by omega⟩
    rw [hbytes, List.cons_append, List.append_assoc, readVal, skipWs_cons (by decide)]
    simp only [if_true, List.cons_append, List.nil_append, readString_output]
    rfl
  | @array vals h ih =>
    intro n rest hn _
    cases vals with
    | nil =>
      rw [bytes_emptyArray, List.length_cons] at hn
      obtain ⟨k, rfl⟩ : ∃ k, n = k + 1 := ⟨n - 1, by omega⟩
      rw [bytes_emptyArray, List.cons_append, readVal, skipWs_cons (by decide)]
      rfl
    | cons v vals =>
      rw [bytes_array h, List.length_cons, List.length_append, List.length_singleton] at hn
      obtain ⟨k, rfl⟩ : ∃ k, n = k + 1 := ⟨n - 1, by omega⟩
      have helems := readElems_output (n := k) ih rest (by omega)
      obtain ⟨c, t, ht, hw, hne⟩ := output_head (h v (by simp))
      have hhead : ∀ bs, (skipWs ((output v).bytes ++ bs)).head? ≠ some (ch ']') := by
        intro bs
        rw [ht, List.cons_append, skipWs_cons hw, List.head?_cons]
        exact fun heq => hne (Option.some.inj heq)
      rw [bytes_array h, List.cons_append, List.append_assoc, List.append_assoc,
        readVal_array (hhead _), List.singleton_append, helems]
      rfl
  | @nvl pairs hsorted h ih =>
    intro n rest hn _
    cases pairs with
    | nil =>
      rw [bytes_emptyObject, List.length_cons] at hn
      obtain ⟨k, rfl⟩ : ∃ k, n = k + 1 := ⟨n - 1, by omega⟩
      rw [bytes_emptyObject, List.cons_append, readVal, skipWs_cons (by decide)]
      rfl
    | cons p pairs =>
      rw [bytes_object h, List.length_cons, List.length_append, List.length_singleton] at hn
      obtain ⟨k, rfl⟩ : ∃ k, n = k + 1 := ⟨n - 1, by omega⟩
      have hmembers := readMembers_output (n := k) ih rest (by omega)
      have hhead : ∀ bs, (skipWs (memberBytes p ++ bs)).head? ≠ some (ch '\x7d') := by
        intro bs
        rw [memberBytes, bytes_outputString, List.cons_append, List.cons_append, skipWs_cons (by decide),
          List.head?_cons]
        decide
      rw [bytes_object h, List.cons_append, List.append_assoc, List.append_assoc,
        readVal_object (hhead _), List.singleton_append, hmembers, Option.map_some,
        nvSetAll_sorted hsorted]

/-- The text of a value determines it. -/
theorem output_injective {v w : Val} (hv : Plain v) (hw : Plain w)
    (h : (output v).bytes = (output w).bytes) : v = w := by
  have hnil : Delimited [] := by
    intro c t ht
    cases ht
  have h1 := reads_plain hv _ [] (le_refl _) hnil
  have h2 := reads_plain hw _ [] (le_refl _) hnil
  rw [h, h2] at h1
  exact (congrArg Prod.fst (Option.some.inj h1)).symm

theorem read_output {v : Val} (hv : Plain v) {rest : Bytes} (h : Delimited rest) :
    read ((output v).bytes ++ rest) = some (v, rest) :=
  reads_plain hv _ rest (by rw [List.length_append]; omega) h

end Libjeffpc.Json
