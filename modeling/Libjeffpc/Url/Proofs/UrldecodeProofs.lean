import Libjeffpc.Url.Urldecode

/-!
# `urldecode` is percent-decoding

The loop is followed along the recursion of `percentDecode`: between two bytes of the decoded text the
output is what is decoded so far and a part that is free. In an escape one byte of the free part is
written before it counts.
-/

namespace Libjeffpc.Url

open Lib

/-! ## Hexadecimal digits -/

theorem hexValue_lt {c : UInt8} {x : Nat} (h : hexValue c = some x) : x < 16 := by
  have hall : ∀ c : Fin 256, ∀ x ∈ hexValue (.ofNat c), x < 16 := by decide +kernel
  have := hall ⟨c.toNat, c.toNat_lt⟩ x
  rw [UInt8.ofNat_toNat] at this
  exact this h

theorem escValue_eq (c : UInt8) : escValue c.toInt8 = (hexValue c).map Int8.ofNat := by
  have hall : ∀ c : Fin 256, escValue (UInt8.ofNat c).toInt8 = (hexValue (.ofNat c)).map Int8.ofNat := by
    decide +kernel
  have := hall ⟨c.toNat, c.toNat_lt⟩
  rwa [UInt8.ofNat_toNat] at this

/-- The two halves of a byte. -/
theorem halves {x y : Nat} (hx : x < 16) (hy : y < 16) :
    ((Int8.ofNat x).toUInt8 <<< 4) ||| (Int8.ofNat y).toUInt8 = UInt8.ofNat (16 * x + y) := by
  have hall : ∀ x y : Fin 16,
      ((Int8.ofNat x).toUInt8 <<< 4) ||| (Int8.ofNat y).toUInt8 = UInt8.ofNat (16 * x + y) := by
    decide +kernel
  exact hall ⟨x, hx⟩ ⟨y, hy⟩

/-! ## Steps -/

variable {done free : Bytes} {b c : UInt8}

theorem appendChar_run (hplus : c ≠ ch '+') (hesc : c ≠ ch '%') :
    appendChar ⟨.copy, done ++ b :: free, done.length⟩ c =
      pure ⟨.copy, (done ++ [c]) ++ free, (done ++ [c]).length⟩ := by
  rw [appendChar]
  simp only [decide_eq_true hplus, decide_eq_true hesc, decide_true, assert_true, pure_bind]
  rw [store_append rfl, pure_bind]
  simp

/-- A byte that is no part of an escape. -/
theorem step_char (hesc : c ≠ ch '%') :
    urldecodeStep ⟨.copy, done ++ b :: free, done.length⟩ c =
      pure (.ok ⟨.copy, (done ++ [if c = ch '+' then ch ' ' else c]) ++ free,
        (done ++ [if c = ch '+' then ch ' ' else c]).length⟩) := by
  rw [urldecodeStep]
  dsimp only
  rw [if_neg hesc]
  by_cases hplus : c = ch '+'
  · rw [if_pos hplus, if_pos hplus, appendChar_run (by decide) (by decide), pure_bind]
  · rw [if_neg hplus, if_neg hplus, appendChar_run hplus hesc, pure_bind]

theorem step_percent (out : Bytes) (outoff : Nat) :
    urldecodeStep ⟨.copy, out, outoff⟩ (ch '%') = pure (.ok ⟨.esc1, out, outoff⟩) := by
  rw [urldecodeStep]
  dsimp only
  rw [if_pos rfl]

theorem step_esc1 {x : Nat} (hc : hexValue c = some x) :
    urldecodeStep ⟨.esc1, done ++ b :: free, done.length⟩ c =
      pure (.ok ⟨.esc2, done ++ ((Int8.ofNat x).toUInt8 <<< 4) :: free, done.length⟩) := by
  rw [urldecodeStep]
  dsimp only
  rw [appendEsc, escValue_eq, hc]
  dsimp only [Option.map_some]
  rw [store_append rfl, pure_bind]

theorem step_esc2 {x : Nat} (hc : hexValue c = some x) :
    urldecodeStep ⟨.esc2, done ++ b :: free, done.length⟩ c =
      pure (.ok ⟨.copy, (done ++ [b ||| (Int8.ofNat x).toUInt8]) ++ free,
        (done ++ [b ||| (Int8.ofNat x).toUInt8]).length⟩) := by
  rw [urldecodeStep]
  dsimp only
  rw [appendEsc, escValue_eq, hc]
  dsimp only [Option.map_some]
  rw [fetch_append rfl, pure_bind, store_append rfl, pure_bind]
  simp

/-- A byte that is no digit ends an escape. -/
theorem step_bad {s : State} (hs : s.state ≠ .copy) (hc : hexValue c = none) :
    urldecodeStep s c = pure (.error .EILSEQ) := by
  have hrun : appendEsc s c = pure (.error .EILSEQ) := by
    rw [appendEsc, escValue_eq, hc]
    rfl
  rw [urldecodeStep]
  rcases hst : s.state with _ | _ | _
  · exact absurd hst hs
  · exact hrun
  · exact hrun

/-! ## The loop -/

theorem loop_cons {s s' : State} (rest : Bytes) (h : urldecodeStep s c = pure (.ok s')) :
    urldecodeLoop (c :: rest) s = urldecodeLoop rest s' := by
  rw [urldecodeLoop, h, pure_bind]

theorem loop_bad {s : State} (rest : Bytes) (hs : s.state ≠ .copy) (hc : hexValue c = none) :
    urldecodeLoop (c :: rest) s = pure (.error .EILSEQ, s.out) := by
  rw [urldecodeLoop, step_bad hs hc, pure_bind]

/-- What the loop ends with: the bytes of the decoded text, or an escape that is not one. -/
structure Ends (input done free : Bytes) (r : Except Errno State) (out : Bytes) : Prop where
  ok : ∀ d, percentDecode input = some d → r = .ok ⟨.copy, out, done.length + d.length⟩ ∧
    out = done ++ d ++ free.drop d.length
  bad : percentDecode input = none → r = .error .EILSEQ ∨ ∃ s, r = .ok s ∧ s.state ≠ .copy
  frame : ∃ free', out = done ++ free' ∧ free'.length = free.length ∧
    free'.drop input.length = free.drop input.length

theorem percentDecode_char {rest : Bytes} (hc : c ≠ ch '%') : percentDecode (c :: rest) =
    (percentDecode rest).map ((if c = ch '+' then ch ' ' else c) :: ·) := by
  rw [percentDecode.eq_def]
  dsimp only
  rw [if_neg hc]
  cases percentDecode rest <;> rfl

theorem percentDecode_esc {a : UInt8} {rest : Bytes} {x y : Nat} (ha : hexValue a = some x)
    (hb : hexValue b = some y) : percentDecode (ch '%' :: a :: b :: rest) =
      (percentDecode rest).map (UInt8.ofNat (16 * x + y) :: ·) := by
  rw [percentDecode, if_pos rfl, ha, hb]
  cases percentDecode rest <;> rfl

/-- A byte of output is written, and the loop goes on. -/
theorem Ends.cons {input rest : Bytes} {k : Nat} {r : Except Errno State} {out : Bytes} {w : UInt8}
    (h : Ends rest (done ++ [w]) free r out) (hlen : input.length = rest.length + k) (hk : 0 < k)
    (hdec : percentDecode input = (percentDecode rest).map (w :: ·)) :
    Ends input done (b :: free) r out := by
  refine ⟨fun d hd => ?_, fun hnone => ?_, ?_⟩
  · rw [hdec, Option.map_eq_some_iff] at hd
    obtain ⟨d, hd, rfl⟩ := hd
    obtain ⟨hr, hout⟩ := h.ok d hd
    refine ⟨?_, ?_⟩
    · rw [hr, List.length_append, List.length_singleton, List.length_cons, Nat.add_assoc,
        Nat.add_comm 1]
    · rw [hout, List.length_cons, List.drop_succ_cons]
      simp
  · rw [hdec, Option.map_eq_none_iff] at hnone
    exact h.bad hnone
  · obtain ⟨free', hout, hl, hframe⟩ := h.frame
    refine ⟨w :: free', ?_, ?_, ?_⟩
    · rw [hout, List.append_assoc]
      rfl
    · rw [List.length_cons, hl, List.length_cons]
    · have hle : input.length = (k - 1 + rest.length) + 1 := by omega
      rw [hle, List.drop_succ_cons, List.drop_succ_cons, Nat.add_comm, ← List.drop_drop, hframe,
        List.drop_drop]

/-- Only the first free byte is written before an escape is complete. -/
theorem Ends.fails {rest : Bytes} {r : Except Errno State} {w w' : UInt8}
    (hdec : percentDecode (c :: rest) = none) (hr : r = .error .EILSEQ ∨ ∃ s, r = .ok s ∧ s.state ≠ .copy) :
    Ends (c :: rest) done (w :: free) r (done ++ w' :: free) := by
  refine ⟨fun d hd => ?_, fun _ => hr, w' :: free, rfl, rfl, ?_⟩
  · cases hdec.symm.trans hd
  · rw [List.length_cons, List.drop_succ_cons, List.drop_succ_cons]

theorem urldecodeLoop_run (input : Bytes) : ∀ done free : Bytes, input.length ≤ free.length →
    ∃ r out, urldecodeLoop input ⟨.copy, done ++ free, done.length⟩ = pure (r, out) ∧
      Ends input done free r out := by
  induction input using percentDecode.induct with
  | case1 =>
    intro done free _
    refine ⟨_, _, rfl, ⟨fun d hd => ?_, nofun, free, rfl, rfl, rfl⟩⟩
    obtain rfl := Option.some.inj hd
    exact ⟨rfl, by simp⟩
  | case2 a b rest ih =>
    intro done free hlen
    cases free with
    | nil => simp at hlen
    | cons w free =>
    have hlen : rest.length + 2 ≤ free.length := by
      simp only [List.length_cons] at hlen
      omega
    rw [loop_cons _ (step_percent _ _)]
    cases ha : hexValue a with
    | none =>
      have hdec : percentDecode (ch '%' :: a :: b :: rest) = none := by
        rw [percentDecode, if_pos rfl, ha]
        rfl
      exact ⟨_, _, loop_bad _ (by simp) ha, .fails hdec (Or.inl rfl)⟩
    | some x =>
      rw [loop_cons _ (step_esc1 ha)]
      cases hb : hexValue b with
      | none =>
        have hdec : percentDecode (ch '%' :: a :: b :: rest) = none := by
          rw [percentDecode, if_pos rfl, ha, hb]
          rfl
        exact ⟨_, _, loop_bad _ (by simp) hb, .fails hdec (Or.inl rfl)⟩
      | some y =>
        rw [loop_cons _ (step_esc2 hb), halves (hexValue_lt ha) (hexValue_lt hb)]
        obtain ⟨r, out, hrun, hends⟩ := ih (done ++ [.ofNat (16 * x + y)]) free (by omega)
        exact ⟨r, out, hrun, hends.cons (k := 3) rfl (by decide) (percentDecode_esc ha hb)⟩
  | case3 rest hno =>
    intro done free hlen
    have hdec : percentDecode (ch '%' :: rest) = none := by
      rw [percentDecode.eq_def]
      dsimp only
      rw [if_pos rfl]
      split
      · next a b rest' => exact absurd rfl (hno a b rest')
      · rfl
    cases free with
    | nil => simp at hlen
    | cons w free =>
    rw [loop_cons _ (step_percent _ _)]
    match rest with
    | [] => exact ⟨_, _, rfl, .fails hdec (Or.inr ⟨_, rfl, by simp⟩)⟩
    | [a] =>
      cases ha : hexValue a with
      | none => exact ⟨_, _, loop_bad _ (by simp) ha, .fails hdec (Or.inl rfl)⟩
      | some x =>
        rw [loop_cons _ (step_esc1 ha)]
        exact ⟨_, _, rfl, .fails hdec (Or.inr ⟨_, rfl, by simp⟩)⟩
    | a :: b :: rest' => exact absurd rfl (hno a b rest')
  | case4 c rest hc ih =>
    intro done free hlen
    cases free with
    | nil => simp at hlen
    | cons w free =>
    rw [loop_cons _ (step_char hc)]
    obtain ⟨r, out, hrun, hends⟩ := ih (done ++ [if c = ch '+' then ch ' ' else c]) free
      (by simpa using hlen)
    exact ⟨r, out, hrun, hends.cons (k := 1) rfl (by decide) (percentDecode_char hc)⟩

/-! ## Bad escapes -/

theorem percentDecode_scanned {done rest : Bytes} (h : Scanned done) :
    percentDecode (done ++ rest) = none ↔ percentDecode rest = none := by
  induction h with
  | nil => rfl
  | char hc _ ih => rw [List.cons_append, percentDecode_char hc, Option.map_eq_none_iff, ih]
  | esc ha hb _ ih =>
    obtain ⟨x, hx⟩ := Option.isSome_iff_exists.mp ha
    obtain ⟨y, hy⟩ := Option.isSome_iff_exists.mp hb
    rw [List.cons_append, List.cons_append, List.cons_append, percentDecode_esc hx hy,
      Option.map_eq_none_iff, ih]

theorem percentDecode_eq_none_iff (input : Bytes) : percentDecode input = none ↔ BadEscape input := by
  constructor
  · induction input using percentDecode.induct with
    | case1 => exact nofun
    | case2 a b rest ih =>
      intro hnone
      by_cases hab : (hexValue a).isSome ∧ (hexValue b).isSome
      · obtain ⟨x, hx⟩ := Option.isSome_iff_exists.mp hab.1
        obtain ⟨y, hy⟩ := Option.isSome_iff_exists.mp hab.2
        rw [percentDecode_esc hx hy, Option.map_eq_none_iff] at hnone
        obtain ⟨done, rest', rfl, hdone, hbad⟩ := ih hnone
        exact ⟨ch '%' :: a :: b :: done, rest', rfl, .esc hab.1 hab.2 hdone, hbad⟩
      · refine ⟨[], a :: b :: rest, rfl, .nil, ?_⟩
        rintro ⟨a', b', rest', heq, ha, hb⟩
        obtain ⟨rfl, htail⟩ := List.cons.inj heq
        obtain ⟨rfl, -⟩ := List.cons.inj htail
        exact hab ⟨ha, hb⟩
    | case3 rest hno =>
      intro _
      refine ⟨[], rest, rfl, .nil, ?_⟩
      rintro ⟨a, b, rest', rfl, -⟩
      exact hno a b rest' rfl
    | case4 c rest hc ih =>
      intro hnone
      rw [percentDecode_char hc, Option.map_eq_none_iff] at hnone
      obtain ⟨done, rest', rfl, hdone, hbad⟩ := ih hnone
      exact ⟨c :: done, rest', rfl, .char hc hdone, hbad⟩
  · rintro ⟨done, rest, rfl, hdone, hbad⟩
    rw [percentDecode_scanned hdone, percentDecode.eq_def]
    dsimp only
    rw [if_pos rfl]
    split
    · next a b rest' =>
      cases ha : hexValue a with
      | none => rfl
      | some x =>
        cases hb : hexValue b with
        | none => rfl
        | some y => exact absurd ⟨a, b, rest', rfl, by simp [ha], by simp [hb]⟩ hbad
    · rfl

theorem length_percentDecode {input d : Bytes} (h : percentDecode input = some d) :
    d.length ≤ input.length := by
  induction input using percentDecode.induct generalizing d with
  | case1 =>
    obtain rfl := Option.some.inj h
    exact le_rfl
  | case2 a b rest ih =>
    cases ha : hexValue a with
    | none => simp [percentDecode, ha] at h
    | some x =>
      cases hb : hexValue b with
      | none => simp [percentDecode, ha, hb] at h
      | some y =>
        rw [percentDecode_esc ha hb, Option.map_eq_some_iff] at h
        obtain ⟨d, hd, rfl⟩ := h
        have := ih hd
        simp only [List.length_cons]
        omega
  | case3 rest hno =>
    exfalso
    have hbad : BadEscape (ch '%' :: rest) := by
      refine ⟨[], rest, rfl, .nil, ?_⟩
      rintro ⟨a, b, rest', rfl, -⟩
      exact hno a b rest' rfl
    rw [(percentDecode_eq_none_iff _).mpr hbad] at h
    cases h
  | case4 c rest hc ih =>
    rw [percentDecode_char hc, Option.map_eq_some_iff] at h
    obtain ⟨d, hd, rfl⟩ := h
    have := ih hd
    simp only [List.length_cons]
    omega

/-! ## The function -/

/-- The result and the output, from the decoded text. -/
theorem urldecode_run (input out : Bytes) (hlen : input.length ≤ out.length) :
    ∃ out', urldecode (some input) (some out) =
        pure ((percentDecode input).elim (.error .EILSEQ) fun d => .ok d.length, some out') ∧
      out'.length = out.length ∧ out'.drop input.length = out.drop input.length ∧
      ∀ d, percentDecode input = some d → out'.take d.length = d := by
  cases input with
  | nil =>
    refine ⟨out, rfl, rfl, rfl, fun d hd => ?_⟩
    obtain rfl := Option.some.inj hd
    rfl
  | cons c rest =>
    obtain ⟨r, out', hrun, hends⟩ := urldecodeLoop_run (c :: rest) [] out hlen
    obtain ⟨free', hout, hl, hframe⟩ := hends.frame
    rw [List.nil_append] at hout
    subst hout
    refine ⟨out', ?_, hl, hframe, fun d hd => ?_⟩
    · rw [urldecode, if_neg (by simp)]
      have hrun : urldecodeLoop (c :: rest) ⟨.copy, out, 0⟩ = pure (r, out') := hrun
      rw [hrun, pure_bind]
      cases hdec : percentDecode (c :: rest) with
      | some d =>
        rw [(hends.ok d hdec).1]
        simp
      | none =>
        rcases hends.bad hdec with rfl | ⟨s, rfl, hs⟩
        · rfl
        · simp [hs]
    · rw [(hends.ok d hd).2, List.nil_append, List.take_left]

/-- `urldecode` stays within the first `len` bytes of its output and none of its checks fails. It returns
-EILSEQ for a bad escape, and else the length of the decoded text, which is in the output. -/
theorem urldecode_exact (input out : Bytes) (hlen : input.length ≤ out.length) :
    ∃ r out', urldecode (some input) (some out) = pure (r, some out') ∧
      out'.length = out.length ∧ out'.drop input.length = out.drop input.length ∧
      (r = .error .EILSEQ ↔ BadEscape input) ∧
      (¬BadEscape input → ∃ d, percentDecode input = some d ∧ r = .ok d.length ∧
        d.length ≤ input.length ∧ out'.take d.length = d) := by
  obtain ⟨out', hrun, hl, hframe, htake⟩ := urldecode_run input out hlen
  refine ⟨_, out', hrun, hl, hframe, ?_, fun hgood => ?_⟩
  · rw [← percentDecode_eq_none_iff]
    cases percentDecode input <;> simp
  · rw [← percentDecode_eq_none_iff] at hgood
    obtain ⟨d, hd⟩ := Option.ne_none_iff_exists'.mp hgood
    refine ⟨d, hd, ?_, length_percentDecode hd, htake d hd⟩
    rw [hd]
    rfl

/-- The escape at the end of `a%4` is not complete. -/
theorem urldecode_exact_short : ∃ r out',
    urldecode (some [97, 37, 52]) (some [0, 0, 0, 0]) = pure (r, some out') ∧
      out'.length = 4 ∧ out'.drop 3 = [0] ∧ (r = .error .EILSEQ ↔ BadEscape [97, 37, 52]) ∧
      (¬BadEscape [97, 37, 52] → ∃ d, percentDecode [97, 37, 52] = some d ∧ r = .ok d.length ∧
        d.length ≤ 3 ∧ out'.take d.length = d) :=
  urldecode_exact [97, 37, 52] [0, 0, 0, 0] (by decide)

end Libjeffpc.Url
