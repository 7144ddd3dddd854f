import Libjeffpc.Json.Text

/-!
# JSON text that is written

The packing functions write the text of a value, and that text is a JSON value.
-/

namespace Libjeffpc.Json

open Lib

/-! ## Writing -/

section Write

variable (m : Machine)

theorem packChar_eq (c : UInt8) :
    (if c ≤ 0x1f then escapeCtrlChar m c
      else if c = ch '"' ∨ c = ch '\\' then bufferAppendCstr m [ch '\\', c]
      else bufferAppendC m c) = bufferAppend m (escaped c) := by
  unfold escaped
  split_ifs with h1 h2
  · unfold escapeCtrlChar
    cases hm : mapped c with
    | some str => rfl
    | none =>
      have hc : ¬c.toUInt32 > 0xffff := by
        have := UInt8.toNat_lt c
        rw [gt_iff_lt, UInt32.lt_iff_toNat_lt, UInt8.toNat_toUInt32]
        show ¬0xffff < c.toNat
        omega
      simp only [escapeChar, if_neg hc, UInt8.toNat_toUInt32]
      rfl
  · rfl
  · rfl

theorem packChars_eq (str : Bytes) : packChars m str = Output.writeChunks m (str.map escaped) := by
  induction str with
  | nil => rfl
  | cons c str ih =>
    rw [packChars, List.map_cons, Output.writeChunks, ← packChar_eq, ← ih]
    split_ifs <;> rfl

theorem jsonPackStr_eq (s : CStr) : jsonPackStr m s = (outputString s.1).write m := by
  rw [jsonPackStr, jsonPackCstrLen, packChars_eq, Output.write, outputString, List.cons_append,
    Output.writeChunks, Output.writeChunks_append]
  simp only [Output.writeChunks, bind_assoc, bind_pure_unit]
  rfl

mutual

theorem jsonPackVal_eq : ∀ v : Val, jsonPackVal m v = (output v).write m
  | .null => by rw [jsonPackVal, output, Output.write_chunk]; rfl
  | .int i => by rw [jsonPackVal, output, Output.write_chunk]; rfl
  | .str s => by rw [jsonPackVal, output, jsonPackStr_eq]
  | .sym _ => by rw [jsonPackVal, output, Output.write_fail]
  | .bool b => by rw [jsonPackVal, output, Output.write_chunk]; rfl
  | .nil => by rw [jsonPackVal, output, Output.write_fail]
  | .cons _ _ => by rw [jsonPackVal, output, Output.write_fail]
  | .char _ => by rw [jsonPackVal, output, Output.write_fail]
  | .blob _ => by rw [jsonPackVal, output, Output.write_fail]
  | .array vals => by
    rw [jsonPackVal, output, Output.write_andThen, Output.write_andThen, Output.write_chunk,
      Output.write_chunk, packElems_eq]
    rfl
  | .nvl pairs => by
    rw [jsonPackVal, output, Output.write_andThen, Output.write_andThen, Output.write_chunk,
      Output.write_chunk, packPairs_eq]
    rfl

theorem packElems_eq (i : Nat) : ∀ vals : List Val, packElems m i vals = (outputElems i vals).write m
  | [] => by rw [packElems, outputElems, Output.write_done]
  | v :: vals => by
    rw [packElems, outputElems, Output.write_andThen, Output.write_andThen, jsonPackVal_eq v,
      packElems_eq (i + 1) vals]
    split_ifs with hi
    · rw [Output.write_chunk]
      rfl
    · rw [Output.write_done, pure_bind]

theorem packPairs_eq (first : Bool) :
    ∀ pairs : List (CStr × Val), packPairs m first pairs = (outputPairs first pairs).write m
  | [] => by rw [packPairs, outputPairs, Output.write_done]
  | (name, value) :: pairs => by
    rw [packPairs, outputPairs, Output.write_andThen, Output.write_andThen, Output.write_andThen,
      Output.write_andThen, jsonPackVal_eq value, packPairs_eq false pairs, jsonPackStr_eq,
      Output.write_chunk]
    split_ifs with hf
    · rw [Output.write_chunk]
      rfl
    · rw [Output.write_done, pure_bind]
      rfl

end

end Write

/-! ## The text of a value -/

theorem bytes_outputString (str : Bytes) :
    (outputString str).bytes = ch '"' :: ((str.map escaped).flatten ++ [ch '"']) := by
  simp [outputString, Output.bytes]

/-- A member of an object. -/
def memberBytes (p : CStr × Val) : Bytes := (outputString p.1.1).bytes ++ ch ':' :: (output p.2).bytes

section Bytes

variable {vals : List Val} {pairs : List (CStr × Val)}

/-- Elements that are not the first one. -/
theorem outputElems_tail (h : ∀ v ∈ vals, (output v).error = none) {i : Nat} (hi : i ≠ 0) :
    (outputElems i vals).error = none ∧
      (outputElems i vals).bytes = (vals.map fun v => [ch ','] ++ (output v).bytes).flatten := by
  induction vals generalizing i with
  | nil => exact ⟨rfl, rfl⟩
  | cons v vals ih =>
    obtain ⟨hv, hvals⟩ := List.forall_mem_cons.mp h
    obtain ⟨herr, hbytes⟩ := ih hvals (Nat.succ_ne_zero i)
    have hsep : (Output.chunk [ch ',']).error = none := rfl
    rw [outputElems, if_pos hi, Output.error_andThen hsep, Output.error_andThen hv,
      Output.bytes_andThen hsep, Output.bytes_andThen hv, hbytes]
    refine ⟨herr, ?_⟩
    simp [Output.chunk, Output.bytes]

theorem outputElems_cons {v : Val} (hv : (output v).error = none)
    (h : ∀ v ∈ vals, (output v).error = none) :
    (outputElems 0 (v :: vals)).error = none ∧ (outputElems 0 (v :: vals)).bytes =
      (output v).bytes ++ (vals.map fun v => [ch ','] ++ (output v).bytes).flatten := by
  obtain ⟨herr, hbytes⟩ := outputElems_tail h Nat.one_ne_zero
  have hdone : Output.done.error = none := rfl
  rw [outputElems, if_neg (by simp), Output.error_andThen hdone, Output.error_andThen hv,
    Output.bytes_andThen hdone, Output.bytes_andThen hv, hbytes]
  exact ⟨herr, rfl⟩

/-- Members that are not the first one. -/
theorem outputPairs_tail (h : ∀ p ∈ pairs, (output p.2).error = none) :
    (outputPairs false pairs).error = none ∧
      (outputPairs false pairs).bytes = (pairs.map fun p => [ch ','] ++ memberBytes p).flatten := by
  induction pairs with
  | nil => exact ⟨rfl, rfl⟩
  | cons p pairs ih =>
    obtain ⟨name, value⟩ := p
    obtain ⟨hv, hpairs⟩ := List.forall_mem_cons.mp h
    obtain ⟨herr, hbytes⟩ := ih hpairs
    have hsep : ∀ c, (Output.chunk [c]).error = none := fun _ => rfl
    have hname : (outputString name.1).error = none := rfl
    rw [outputPairs, if_pos (by decide), Output.error_andThen (hsep _), Output.error_andThen hname,
      Output.error_andThen (hsep _), Output.error_andThen hv, Output.bytes_andThen (hsep _),
      Output.bytes_andThen hname, Output.bytes_andThen (hsep _), Output.bytes_andThen hv, hbytes]
    refine ⟨herr, ?_⟩
    simp [Output.chunk, Output.bytes, memberBytes]

theorem outputPairs_cons {p : CStr × Val} (hv : (output p.2).error = none)
    (h : ∀ p ∈ pairs, (output p.2).error = none) :
    (outputPairs true (p :: pairs)).error = none ∧ (outputPairs true (p :: pairs)).bytes =
      memberBytes p ++ (pairs.map fun p => [ch ','] ++ memberBytes p).flatten := by
  obtain ⟨name, value⟩ := p
  obtain ⟨herr, hbytes⟩ := outputPairs_tail h
  have hdone : Output.done.error = none := rfl
  have hsep : ∀ c, (Output.chunk [c]).error = none := fun _ => rfl
  have hname : (outputString name.1).error = none := rfl
  rw [outputPairs, if_neg (by simp), Output.error_andThen hdone, Output.error_andThen hname,
    Output.error_andThen (hsep _), Output.error_andThen hv, Output.bytes_andThen hdone,
    Output.bytes_andThen hname, Output.bytes_andThen (hsep _), Output.bytes_andThen hv, hbytes]
  refine ⟨herr, ?_⟩
  simp [Output.chunk, Output.bytes, Output.done, memberBytes]

/-- Brackets around an output. -/
theorem bracket {o : Output} (h : o.error = none) (a b : UInt8) :
    ((Output.chunk [a]).andThen (o.andThen (.chunk [b]))).error = none ∧
      ((Output.chunk [a]).andThen (o.andThen (.chunk [b]))).bytes = a :: (o.bytes ++ [b]) := by
  have ha : (Output.chunk [a]).error = none := rfl
  rw [Output.error_andThen ha, Output.error_andThen h, Output.bytes_andThen ha, Output.bytes_andThen h]
  exact ⟨rfl, by simp [Output.chunk, Output.bytes]⟩

end Bytes

theorem output_plain {v : Val} (h : Plain v) : (output v).error = none := by
  induction h with
  | null => rfl
  | int i => rfl
  | bool b => rfl
  | str s => rfl
  | @array vals h ih =>
    rw [output]
    refine (bracket ?_ _ _).1
    cases vals with
    | nil => rfl
    | cons v vals =>
      obtain ⟨hv, hvals⟩ := List.forall_mem_cons.mp ih
      exact (outputElems_cons hv hvals).1
  | @nvl pairs hsorted h ih =>
    rw [output]
    refine (bracket ?_ _ _).1
    cases pairs with
    | nil => rfl
    | cons p pairs =>
      obtain ⟨hp, hpairs⟩ := List.forall_mem_cons.mp ih
      exact (outputPairs_cons hp hpairs).1

theorem bytes_emptyArray : (output (.array [])).bytes = [ch '[', ch ']'] := rfl

theorem bytes_emptyObject : (output (.nvl [])).bytes = [ch '\x7b', ch '\x7d'] := rfl

theorem bytes_array {v : Val} {vals : List Val} (h : ∀ w ∈ v :: vals, Plain w) :
    (output (.array (v :: vals))).bytes = ch '[' ::
      ((output v).bytes ++ (vals.map fun v => [ch ','] ++ (output v).bytes).flatten ++ [ch ']']) := by
  obtain ⟨hv, hvals⟩ := List.forall_mem_cons.mp h
  obtain ⟨herr, hbytes⟩ := outputElems_cons (output_plain hv) fun w hw => output_plain (hvals w hw)
  rw [output, (bracket herr _ _).2, hbytes]

theorem bytes_object {p : CStr × Val} {pairs : List (CStr × Val)} (h : ∀ q ∈ p :: pairs, Plain q.2) :
    (output (.nvl (p :: pairs))).bytes = ch '\x7b' ::
      (memberBytes p ++ (pairs.map fun p => [ch ','] ++ memberBytes p).flatten ++ [ch '\x7d']) := by
  obtain ⟨hp, hpairs⟩ := List.forall_mem_cons.mp h
  obtain ⟨herr, hbytes⟩ := outputPairs_cons (output_plain hp) fun q hq => output_plain (hpairs q hq)
  rw [output, (bracket herr _ _).2, hbytes]

/-! ## The text is a JSON value -/

theorem structural (c : Char) : Structural c [ch c] := by
  have h : Structural c ([] ++ [ch c] ++ []) := .mk (by simp [IsSpace]) (by simp [IsSpace])
  exact h

theorem isNumber_decimal (n : Nat) : IsNumber (decimal n) := by
  have hint : IsInt (decimal n) := by
    refine ⟨⟨decimal_ne_nil n, isDigit_decimal n⟩, fun t ht => ?_⟩
    exact (decimal_head ht).2
  have h : IsNumber ([] ++ decimal n ++ [] ++ []) := .mk (Or.inl rfl) hint (Or.inl rfl) (Or.inl rfl)
  simpa using h

/-- A control character is one of the five, or has a number below 32. -/
theorem escaped_ctrl {c : UInt8} (h : c ≤ 0x1f) :
    (∃ e, escaped c = [ch '\\', e] ∧ unescape e = some c ∧ e ≠ ch 'u') ∨
      escaped c = text ['\\', 'u'] ++ hex4 c.toNat := by
  unfold escaped mapped
  rw [if_pos h]
  split_ifs with h1 h2 h3 h4 h5
  · exact Or.inl ⟨ch 'b', rfl, by rw [h1]; rfl, by decide⟩
  · exact Or.inl ⟨ch 'f', rfl, by rw [h2]; rfl, by decide⟩
  · exact Or.inl ⟨ch 'n', rfl, by rw [h3]; rfl, by decide⟩
  · exact Or.inl ⟨ch 'r', rfl, by rw [h4]; rfl, by decide⟩
  · exact Or.inl ⟨ch 't', rfl, by rw [h5]; rfl, by decide⟩
  · exact Or.inr rfl

theorem escaped_quote {c : UInt8} (h : ¬c ≤ 0x1f) (hc : c = ch '"' ∨ c = ch '\\') :
    escaped c = [ch '\\', c] ∧ unescape c = some c ∧ c ≠ ch 'u' := by
  refine ⟨by rw [escaped, if_neg h, if_pos hc], ?_⟩
  rcases hc with rfl | rfl
  · exact ⟨rfl, by decide⟩
  · exact ⟨rfl, by decide⟩

theorem escaped_plain {c : UInt8} (h : ¬c ≤ 0x1f) (hc : ¬(c = ch '"' ∨ c = ch '\\')) :
    escaped c = [c] := by
  rw [escaped, if_neg h, if_neg hc]

theorem toNat_lt_of_ctrl {c : UInt8} (h : c ≤ 0x1f) : c.toNat < 32 := by
  have : c.toNat ≤ 31 := UInt8.le_iff_toNat_le.mp h
  omega

theorem isChar_escaped (c : UInt8) : IsChar (escaped c) := by
  by_cases h : c ≤ 0x1f
  · rcases escaped_ctrl h with ⟨e, he, hu, _⟩ | he
    · rw [he]
      exact .escape (by rw [hu]; rfl)
    · rw [he]
      have hn := toNat_lt_of_ctrl h
      exact .unicode (by rw [hex4Value_hex4 (n := c.toNat) (by omega) rfl]; rfl)
  · by_cases hc : c = ch '"' ∨ c = ch '\\'
    · obtain ⟨he, hu, _⟩ := escaped_quote h hc
      rw [he]
      exact .escape (by rw [hu]; rfl)
    · rw [escaped_plain h hc]
      have h20 : 0x20 ≤ c := by
        rw [UInt8.le_iff_toNat_le] at h ⊢
        change ¬c.toNat ≤ 31 at h
        show 32 ≤ c.toNat
        omega
      exact .unescaped h20 (fun hq => hc (Or.inl hq)) fun hb => hc (Or.inr hb)

theorem isString_output (str : Bytes) : IsString (outputString str).bytes := by
  rw [bytes_outputString]
  refine .mk fun c hc => ?_
  obtain ⟨x, _, rfl⟩ := List.mem_map.mp hc
  exact isChar_escaped x

theorem isValue_output {v : Val} (h : Plain v) : IsValue (output v).bytes := by
  induction h with
  | null =>
    rw [output]
    exact .null
  | int i =>
    rw [output, Output.bytes, Output.chunk, List.flatten_singleton]
    exact .number (isNumber_decimal _)
  | bool b =>
    cases b with
    | false => exact .false
    | true => exact .true
  | str s =>
    rw [output]
    exact .string (isString_output _)
  | @array vals h ih =>
    cases vals with
    | nil => exact .emptyArray (structural '[') (structural ']')
    | cons v vals =>
      obtain ⟨hv, hvals⟩ := List.forall_mem_cons.mp ih
      have harr := IsValue.array (vals.map fun v => ([ch ','], (output v).bytes)) (structural '[')
        (structural ']') hv ?_ ?_
      · rw [bytes_array h]
        simpa [Function.comp_def] using harr
      · intro p hp
        obtain ⟨w, _, rfl⟩ := List.mem_map.mp hp
        exact structural ','
      · intro p hp
        obtain ⟨w, hw, rfl⟩ := List.mem_map.mp hp
        exact hvals w hw
  | @nvl pairs hsorted h ih =>
    cases pairs with
    | nil => exact .emptyObject (structural '\x7b') (structural '\x7d')
    | cons p pairs =>
      obtain ⟨hp, hpairs⟩ := List.forall_mem_cons.mp ih
      let member (p : CStr × Val) : Member := ⟨(outputString p.1.1).bytes, [ch ':'], (output p.2).bytes⟩
      have hmember : ∀ q ∈ member p :: (pairs.map fun p => ([ch ','], member p)).map Prod.snd,
          ∃ p, q = member p := by
        simp only [List.map_map, List.mem_cons, List.mem_map]
        rintro q (rfl | ⟨r, _, rfl⟩)
        · exact ⟨p, rfl⟩
        · exact ⟨r, rfl⟩
      have hobj := IsValue.object (member p) (pairs.map fun p => ([ch ','], member p))
        (structural '\x7b') (structural '\x7d') ?_ ?_ hp ?_ ?_
      · rw [bytes_object h]
        simpa [Function.comp_def, member, Member.bytes, memberBytes] using hobj
      · intro q hq
        obtain ⟨r, rfl⟩ := hmember q hq
        exact isString_output _
      · intro q hq
        obtain ⟨r, rfl⟩ := hmember q hq
        exact structural ':'
      · intro q hq
        obtain ⟨r, _, rfl⟩ := List.mem_map.mp hq
        exact structural ','
      · intro q hq
        obtain ⟨r, hr, rfl⟩ := List.mem_map.mp hq
        exact hpairs r hr

end Libjeffpc.Json
