import Libjeffpc.Sexpr.Proofs.CutProofs

/-!
# Reading what has been dumped

The text of a value is split into the tokens of its parts, since every part stands before a delimiter. The
grammar has one element before a dot at most, where the pretty dump writes as many as there are.
-/

namespace Libjeffpc.SexprText

open Lib Lib.Scanner

variable {str str' hstr tstr : Bytes} {ts ts' : List Token} {v head tail : Val} {size : Nat → ℕ+}

/-! ## Texts that are split -/

theorem Splits.parse (h : Splits str ts) (hlen : str.length < 2 ^ 31) : sexprParse size str = .ok v ↔ Parses ts v := by
  rw [sexprParse_iff, inputProc_short size hlen, h.scan]
  exact ⟨And.left, fun ht => ⟨ht, by rintro ⟨⟩⟩⟩

theorem parses_atom {t : Token} (h : atom t = some v) : Parses [t] v := ⟨1, .atom h, by decide⟩

/-! ## Lengths -/

theorem hexText_length (n : Nat) : (hexText n).length = max 4 (Nat.digits 16 n).length := by
  simp only [hexText, List.length_append, List.length_replicate, List.length_map, List.length_reverse]
  omega

theorem dumpChar_length (c : UInt64) : (dumpChar c).length = atomLength (.char c) := by
  rw [dumpChar, atomLength]
  split_ifs with h0 h32 hp hp' hp'
  · rfl
  · rfl
  · rfl
  · exact absurd ((isprint_iff c).mp hp) hp'
  · exact absurd ((isprint_iff c).mpr hp') hp
  · rw [List.length_append, hexText_length]
    rfl

theorem decimal_length (n : Nat) : (decimal n).length = max 1 (Nat.digits 10 n).length := by
  by_cases h : n = 0
  · subst h
    rfl
  · have hpos : 0 < (Nat.digits 10 n).length := List.length_pos_of_ne_nil (Nat.digits_ne_nil_iff_ne_zero.mpr h)
    rw [decimal_of_pos h, List.length_map, List.length_reverse]
    omega

theorem escapeByte_length (c : UInt8) :
    (escapeByte c).length = 1 + if c ∈ [10, 9, 13, 8, 12, ch '\\', ch '"'] then 1 else 0 :=
  forall_byte (P := fun c => (escapeByte c).length = 1 + if c ∈ [10, 9, 13, 8, 12, ch '\\', ch '"'] then 1 else 0)
    (by decide +kernel) c

theorem escapeStr_length (s : Bytes) :
    (escapeStr s).length = s.length + s.countP fun c => c ∈ [10, 9, 13, 8, 12, ch '\\', ch '"'] := by
  induction s with
  | nil => rfl
  | cons c s ih =>
    have hsplit : escapeStr (c :: s) = escapeByte c ++ escapeStr s := rfl
    rw [hsplit, List.length_append, ih, escapeByte_length, List.length_cons, List.countP_cons]
    simp only [decide_eq_true_eq]
    omega

theorem dumpAtom_length (h : dumpAtom v = .ok str) : str.length = atomLength v := by
  cases v with
  | str s =>
    cases h
    simp only [List.length_append, escapeStr_length, atomLength, List.length_singleton]
    omega
  | char c =>
    cases h
    exact dumpChar_length c
  | int i =>
    cases h
    exact decimal_length i.toNat
  | bool b =>
    cases h
    cases b <;> rfl
  | _ => cases h <;> rfl

/-! ## Characters -/

theorem step_splits {t : Token} (h : lexer.step .initial (str ++ []) = .token t (.initial, [])) : Splits str [t] := by
  rw [List.append_nil] at h
  exact .token h .refl

/-- What is read for the text of a character. -/
theorem splits_dumpChar (c : UInt64) : ∃ c', Splits (dumpChar c) [.char c'] ∧ (c' = c ↔ Printed c) := by
  by_cases hc : Printed c
  · exact ⟨c, step_splits (step_dumpChar hc (.inl rfl)), iff_of_true rfl hc⟩
  · have hrange := hc
    rw [Printed, not_or, not_not] at hrange
    have hne : ∀ d : UInt64, d.toNat < 2 ^ 32 → c ≠ d := by
      rintro d hd rfl
      exact hrange.1 hd
    have hlt : c.toUInt8.toUInt64.toNat < 2 ^ 32 := by
      show c.toNat % 2 ^ 8 < 2 ^ 32
      omega
    refine ⟨c.toUInt8.toUInt64, step_splits ?_, iff_of_false (fun h => hne _ hlt h.symm) hc⟩
    exact step_dumpChar_printable (hne 0 (by decide)) (hne 32 (by decide)) hrange.2 (.inl rfl)

theorem dumpChar_short (c : UInt64) : (dumpChar c).length < 2 ^ 31 := by
  have hdigits : (Nat.digits 16 c.toNat).length ≤ 16 :=
    (Nat.digits_length_le_iff (by decide) c.toNat).mpr (UInt64.toNat_lt c)
  rw [dumpChar_length, atomLength]
  split_ifs <;> omega

theorem roundTrips_char_iff (raw : Bool) (size : Nat → ℕ+) (c : UInt64) :
    RoundTrips raw size (.char c) ↔ Printed c := by
  have hdump : sexprDump (.char c) raw = .ok (dumpChar c) := rfl
  obtain ⟨c', hsplits, hc⟩ := splits_dumpChar c
  have hread : sexprParse size (dumpChar c) = .ok (.char c') := (hsplits.parse (dumpChar_short c)).mpr (parses_atom rfl)
  rw [← hc]
  constructor
  · rintro ⟨str, hstr, hp⟩
    obtain rfl := Except.ok.inj (hdump.symm.trans hstr)
    exact Val.char.inj (Except.ok.inj (hread.symm.trans hp))
  · rintro rfl
    exact ⟨_, hdump, hread⟩

theorem inUnsignedChar_iff (c : UInt64) : InUnsignedChar (isprintArg c) ↔ c.toNat % 2 ^ 32 ≤ 255 := by
  rw [InUnsignedChar, isprintArg_toInt, Int.bmod_def]
  split_ifs <;> omega

/-- Every character can be written with its code. -/
theorem sexprParse_hexText (size : Nat → ℕ+) (c : UInt64) :
    sexprParse size (text ['#', '\\', 'u'] ++ hexText c.toNat) = .ok (.char c) := by
  have hdigits : (Nat.digits 16 c.toNat).length ≤ 16 :=
    (Nat.digits_length_le_iff (by decide) c.toNat).mpr (UInt64.toNat_lt c)
  refine ((step_splits (step_hexText c (.inl rfl))).parse ?_).mpr (parses_atom rfl)
  rw [List.length_append, hexText_length]
  simp only [text, List.length_map, List.length_cons, List.length_nil]
  omega

/-- A character is read back, and `isprint` is called with the value of an unsigned char, exactly if the low 32
bits are one, and are not printed for a character that has more bits. -/
theorem char_roundTrips_iff (raw : Bool) (size : Nat → ℕ+) (c : UInt64) :
    (RoundTrips raw size (.char c) ∧ (c ≠ 0 → c ≠ 32 → InUnsignedChar (isprintArg c))) ↔
      c.toNat % 2 ^ 32 ≤ 255 ∧
        (c.toNat < 2 ^ 32 ∨ ¬(0x20 ≤ c.toNat % 2 ^ 32 ∧ c.toNat % 2 ^ 32 ≤ 0x7e)) := by
  have harg : (c ≠ 0 → c ≠ 32 → InUnsignedChar (isprintArg c)) ↔ c.toNat % 2 ^ 32 ≤ 255 := by
    rw [inUnsignedChar_iff]
    constructor
    · intro h
      by_cases h0 : c = 0
      · subst h0
        decide
      by_cases h32 : c = 32
      · subst h32
        decide
      · exact h h0 h32
    · exact fun h _ _ => h
  rw [roundTrips_char_iff, harg, and_comm]
  rfl

/-- The reader takes the literal `#\u100000041`, and its dump is `#\A`. -/
theorem char_loses_bits : ¬∀ (raw : Bool) (c : UInt64),
    sexprParse (fun _ => 8192) (text ['#', '\\', 'u'] ++ hexText c.toNat) = .ok (.char c) →
      RoundTrips raw (fun _ => 8192) (.char c) ∧ (c ≠ 0 → c ≠ 32 → InUnsignedChar (isprintArg c)) := by
  intro h
  have htrip := (h false 0x100000041 (sexprParse_hexText _ _)).1
  rw [roundTrips_char_iff, Printed] at htrip
  exact absurd htrip (by decide)

/-! ## Tokens -/

/-- The tokens of `joinPretty`. -/
def joinToks (tail : Val) (hts tts : List Token) : List Token :=
  match tail with
  | .nil => hts
  | .cons _ _ => hts ++ tts
  | _ => hts ++ .dot :: tts

def wrapToks (wrap : Bool) (ts : List Token) : List Token := if wrap then .lparen :: (ts ++ [.rparen]) else ts

/-- The tokens of a dump. -/
def dumpToks (raw : Bool) : Val → Bool → List Token
  | .nil, _ => [.lparen, .rparen]
  | .cons head tail, wrap =>
    if raw then wrapToks true (dumpToks raw head true ++ .dot :: dumpToks raw tail true)
    else wrapToks wrap (joinToks tail (dumpToks raw head true) (dumpToks raw tail false))
  | v, _ => (atomToken v).toList

theorem depth_joinToks (tail : Val) (hh : depth ts = 0) (ht : depth ts' = 0) : depth (joinToks tail ts ts') = 0 := by
  cases tail <;> simp [joinToks, hh, ht, tokenDepth]

theorem depth_wrapToks (wrap : Bool) (ts : List Token) : depth (wrapToks wrap ts) = depth ts := by
  cases wrap <;> simp [wrapToks, tokenDepth]

theorem depth_dumpToks (hv : Readable v) : ∀ raw wrap, depth (dumpToks raw v wrap) = 0 := by
  induction hv with
  | nil => exact fun _ _ => rfl
  | cons _ _ ihh iht =>
    intro raw wrap
    rw [dumpToks]
    split_ifs
    · rw [depth_wrapToks]
      simp [ihh, iht, tokenDepth]
    · rw [depth_wrapToks]
      exact depth_joinToks _ (ihh raw true) (iht raw false)
  | _ => exact fun _ _ => rfl

theorem Opens.joinBlank (ho : Opens str) (h : LexesAs str ts) (hd : depth ts = 0) (ho' : Opens str') :
    Opens (str ++ text [' '] ++ str') := by
  rw [List.append_assoc]
  exact ho.append h hd ho'.blank (.inr ⟨_, .inl rfl⟩)

theorem Opens.joinDot (ho : Opens str) (h : LexesAs str ts) (hd : depth ts = 0) (ho' : Opens str') :
    Opens (str ++ text [' ', '.', ' '] ++ str') := by
  rw [List.append_assoc]
  exact ho.append h hd ho'.blank.dot.blank (.inr ⟨_, .inl rfl⟩)

theorem Opens.join (ho : Opens str) (h : LexesAs str ts) (hd : depth ts = 0) (ho' : Opens str') :
    Opens (joinPretty tail str str') := by
  cases tail with
  | nil => exact ho
  | cons _ _ => exact ho.joinBlank h hd ho'
  | _ => exact ho.joinDot h hd ho'

/-- What is known of the text of a value. -/
structure Dumps (raw : Bool) (v : Val) (wrap : Bool) (str : Bytes) : Prop where
  dump : doSexprDump raw v wrap = .ok str
  lexes : LexesAs str (dumpToks raw v wrap)
  length : str.length = textLength raw v wrap
  opens : Opens str
  list : wrap = true → (∃ head tail, v = .cons head tail) → OpenList str

theorem dumps_atom {raw wrap : Bool} {t : Token} (hv : Readable v) (hc : Codepoints v) (ht : atomToken v = some t) :
    ∃ str, Dumps raw v wrap str := by
  obtain ⟨str, hstr, hlexes⟩ := lexes_atom hv hc ht
  have hdump : doSexprDump raw v wrap = dumpAtom v ∧ dumpToks raw v wrap = (atomToken v).toList ∧
      textLength raw v wrap = atomLength v := by
    cases v <;> first | exact ⟨rfl, rfl, rfl⟩ | cases ht
  refine ⟨str, hdump.1.trans hstr, ?_, (dumpAtom_length hstr).trans hdump.2.2.symm, opens_atom hv ht hstr, ?_⟩
  · rw [hdump.2.1, ht]
    exact hlexes
  · rintro - ⟨head, tail, rfl⟩
    cases ht

theorem dumps_nil (raw wrap : Bool) : Dumps raw .nil wrap (text ['(', ')']) := by
  refine ⟨rfl, fun _ _ => .token (step_lparen _) (.token (step_rparen _) .refl), rfl, opens_of_notMem (by decide), ?_⟩
  rintro - ⟨_, _, heq⟩
  cases heq

theorem dumps_raw {wrap : Bool} (hvh : Readable head) (hvt : Readable tail) (hh : Dumps true head true hstr)
    (ht : Dumps true tail true tstr) : Dumps true (.cons head tail) wrap (joinRaw hstr tstr) := by
  have htext : joinRaw hstr tstr = text ['('] ++ (hstr ++ text [' ', '.', ' '] ++ tstr) ++ text [')'] := by
    simp only [joinRaw, List.append_assoc]
  have hlexes := hh.lexes.dot ht.lexes
  have hdepth : depth (dumpToks true head true ++ .dot :: dumpToks true tail true) = 0 := by
    simp [depth_dumpToks hvh, depth_dumpToks hvt, tokenDepth]
  have hlist : OpenList (joinRaw hstr tstr) := by
    rw [htext]
    exact (hh.opens.joinDot hh.lexes (depth_dumpToks hvh _ _) ht.opens).parens hlexes hdepth
  refine ⟨?_, ?_, ?_, hlist.opens, fun _ _ => hlist⟩
  · rw [doSexprDump, if_pos rfl, hh.dump, ht.dump]
    rfl
  · rw [htext, dumpToks, if_pos rfl]
    exact hlexes.parens
  · have hlen : textLength true (.cons head tail) wrap = textLength true head true + textLength true tail true + 5 := by
      cases tail <;> rfl
    rw [hlen, ← hh.length, ← ht.length, joinRaw]
    simp only [text, List.length_append, List.length_map, List.length_cons, List.length_nil]
    omega

theorem LexesAs.join (hh : LexesAs str ts) (ht : LexesAs str' ts') :
    LexesAs (joinPretty tail str str') (joinToks tail ts ts') := by
  cases tail with
  | nil => exact hh
  | cons _ _ => exact hh.blank ht
  | _ => exact hh.dot ht

theorem LexesAs.wrap (wrap : Bool) (h : LexesAs str ts) : LexesAs (wrapList wrap str) (wrapToks wrap ts) := by
  cases wrap with
  | true => exact h.parens
  | false => exact h

/-- What a tail adds to the length of the head. -/
def tailLength (tail : Val) (n : Nat) : Nat :=
  match tail with
  | .nil => 0
  | .cons _ _ => 1 + n
  | _ => 3 + n

theorem joinPretty_length (tail : Val) (hstr tstr : Bytes) :
    (joinPretty tail hstr tstr).length = hstr.length + tailLength tail tstr.length := by
  cases tail <;>
    simp only [joinPretty, tailLength, text, List.length_append, List.length_map, List.length_cons,
      List.length_nil] <;> omega

theorem wrapList_length (wrap : Bool) (tmp : Bytes) :
    (wrapList wrap tmp).length = tmp.length + if wrap then 2 else 0 := by
  cases wrap with
  | true => simp [wrapList, text]
  | false => rfl

theorem dumps_pretty {wrap : Bool} (hvh : Readable head) (hvt : Readable tail) (hq : isQuote head = false)
    (hh : Dumps false head true hstr) (ht : Dumps false tail false tstr) :
    Dumps false (.cons head tail) wrap (wrapList wrap (joinPretty tail hstr tstr)) := by
  have hlexes : LexesAs (joinPretty tail hstr tstr) (joinToks tail _ _) := hh.lexes.join ht.lexes
  have hopens : Opens (joinPretty tail hstr tstr) := hh.opens.join hh.lexes (depth_dumpToks hvh _ _) ht.opens
  have hdepth := depth_joinToks tail (depth_dumpToks hvh false true) (depth_dumpToks hvt false false)
  have hlist := hopens.parens hlexes hdepth
  have hwrap : Opens (wrapList wrap (joinPretty tail hstr tstr)) := by
    cases wrap with
    | true => exact hlist.opens
    | false => exact hopens
  refine ⟨?_, ?_, ?_, hwrap, ?_⟩
  · rw [doSexprDump, if_neg Bool.false_ne_true, hq, if_neg Bool.false_ne_true, hh.dump, ht.dump]
    rfl
  · rw [dumpToks, if_neg Bool.false_ne_true]
    exact hlexes.wrap wrap
  · rw [wrapList_length, joinPretty_length, hh.length, ht.length]
    cases tail <;> rfl
  · rintro rfl -
    exact hlist

theorem isQuote_false (h : QuoteFree v) : isQuote v = false := by
  cases v with
  | sym s => exact decide_eq_false h
  | _ => rfl

/-- A value that is read has a text. Without the symbol `quote` it needs no abbreviation. -/
theorem Readable.dumps {raw : Bool} (hv : Readable v) : Codepoints v → (raw = false → QuoteFree v) →
    ∀ wrap, ∃ str, Dumps raw v wrap str := by
  induction hv with
  | null => exact fun hc _ _ => dumps_atom .null hc rfl
  | int i => exact fun hc _ _ => dumps_atom (.int i) hc rfl
  | str s => exact fun hc _ _ => dumps_atom (.str s) hc rfl
  | sym h => exact fun hc _ _ => dumps_atom (.sym h) hc rfl
  | bool b => exact fun hc _ _ => dumps_atom (.bool b) hc rfl
  | char c => exact fun hc _ _ => dumps_atom (.char c) hc rfl
  | nil => exact fun _ _ _ => ⟨_, dumps_nil _ _⟩
  | cons hvh hvt ihh iht =>
    intro hc hq wrap
    obtain ⟨hstr, hh⟩ := ihh hc.1 (fun h => (hq h).1) true
    cases raw with
    | true =>
      obtain ⟨tstr, ht⟩ := iht hc.2 (fun h => (hq h).2) true
      exact ⟨_, dumps_raw hvh hvt hh ht⟩
    | false =>
      obtain ⟨tstr, ht⟩ := iht hc.2 (fun h => (hq h).2) false
      exact ⟨_, dumps_pretty hvh hvt (isQuote_false (hq rfl).1) hh ht⟩

/-! ## What the grammar says of the tokens -/

theorem tok_dotted (h : Tok ts head) (h' : Tok ts' tail) : Tok (wrapToks true (ts ++ .dot :: ts')) (.cons head tail) := by
  have hpair := Tok.pair h h'
  rw [wrapToks, if_pos rfl, List.append_assoc, List.cons_append]
  exact hpair

theorem height_atom {raw wrap : Bool} {t : Token} (ht : atomToken v = some t) :
    TokHeight (dumpToks raw v wrap) v 1 := by
  have htoks : dumpToks raw v wrap = (atomToken v).toList := by
    cases v <;> first | rfl | cases ht
  rw [htoks, ht]
  exact .atom (atom_atomToken ht)

theorem height_dotted {m n : Nat} (h : TokHeight ts head m) (h' : TokHeight ts' tail n) :
    TokHeight (wrapToks true (ts ++ .dot :: ts')) (.cons head tail) (max (m + 1) (max (n + 3) 5)) := by
  have hpair := TokHeight.pair h h'
  rw [wrapToks, if_pos rfl, List.append_assoc, List.cons_append]
  exact hpair

/-- The raw dump is derived whatever the shape is. -/
theorem height_raw (hv : Readable v) : ∀ wrap, TokHeight (dumpToks true v wrap) v (rawHeight v) := by
  induction hv with
  | null => exact fun _ => height_atom rfl
  | int i => exact fun _ => height_atom rfl
  | str s => exact fun _ => height_atom rfl
  | sym h => exact fun _ => height_atom rfl
  | bool b => exact fun _ => height_atom rfl
  | char c => exact fun _ => height_atom rfl
  | nil => exact fun _ => .nil
  | cons _ _ ihh iht =>
    intro wrap
    rw [dumpToks, if_pos rfl, rawHeight]
    exact height_dotted (ihh true) (iht true)

theorem dumpToks_pretty (wrap : Bool) : dumpToks false (.cons head tail) wrap =
    wrapToks wrap (joinToks tail (dumpToks false head true) (dumpToks false tail false)) := by
  rw [dumpToks, if_neg Bool.false_ne_true]

/-- A dump of a plain value is read; a dump of a list that is not wrapped is a sequence of elements. -/
theorem tok_pretty (hv : Readable v) : Plain v → Tok (dumpToks false v true) v ∧
    ∀ a b, v = .cons a b → Plain.ProperTail b → TokList (dumpToks false v false) v := by
  induction hv with
  | null => exact fun _ => ⟨(height_atom rfl).tok, by rintro _ _ ⟨⟩⟩
  | int i => exact fun _ => ⟨(height_atom rfl).tok, by rintro _ _ ⟨⟩⟩
  | str s => exact fun _ => ⟨(height_atom rfl).tok, by rintro _ _ ⟨⟩⟩
  | sym h => exact fun _ => ⟨(height_atom rfl).tok, by rintro _ _ ⟨⟩⟩
  | bool b => exact fun _ => ⟨(height_atom rfl).tok, by rintro _ _ ⟨⟩⟩
  | char c => exact fun _ => ⟨(height_atom rfl).tok, by rintro _ _ ⟨⟩⟩
  | nil => exact fun _ => ⟨.nil, by rintro _ _ ⟨⟩⟩
  | @cons head tail _ ht ihh iht =>
    intro hp
    have hhead := (ihh hp.1).1
    have htail := iht hp.2.1
    have hlist : Plain.ProperTail tail → TokList (dumpToks false (.cons head tail) false) (.cons head tail) := by
      intro hproper
      rw [dumpToks_pretty]
      cases tail with
      | nil => exact .one hhead
      | cons a b => exact .cons hhead (htail.2 a b rfl hproper)
      | _ => cases hproper
    refine ⟨?_, fun a b hab hproper => ?_⟩
    · cases ht with
      | nil => exact .list (hlist trivial)
      | cons => exact .list (hlist hp.2.2)
      | _ => exact tok_dotted hhead ((height_atom rfl).tok)
    · obtain ⟨-, rfl⟩ := Val.cons.inj hab
      exact hlist hproper

/-! ## What the grammar has no tokens for -/

theorem joinToks_head (tail : Val) (hts tts : List Token) : ∃ us, joinToks tail hts tts = hts ++ us := by
  cases tail with
  | nil => exact ⟨[], (List.append_nil hts).symm⟩
  | _ => exact ⟨_, rfl⟩

/-- A dot after two elements is an error. -/
theorem advance_dot {vals : List Val} (stack : List Frame) (hne : vals ≠ []) (v : Val) :
    advance (.reading (.items (vals ++ [v]) :: stack)) .dot = none := by
  obtain ⟨w, ws, rfl⟩ := List.exists_cons_of_ne_nil hne
  obtain ⟨u, us, hus⟩ := List.exists_cons_of_ne_nil (List.append_ne_nil_of_right_ne_nil ws (List.cons_ne_nil v []))
  rw [List.cons_append, hus]
  rfl

/-- The parser stops at a value that is not plain, and in a list at a tail that is not one. -/
theorem not_reads (hv : Readable v) : (¬Plain v → ∀ stack rest, Ready stack →
      (dumpToks false v true ++ rest).foldlM advance (.reading stack) = none) ∧
    ∀ a b, v = .cons a b → ∀ done stack rest, ¬(Plain v ∧ (done ≠ [] → Plain.ProperTail b)) →
      (dumpToks false v false ++ rest).foldlM advance (.reading (.items done :: stack)) = none := by
  induction hv with
  | null => exact ⟨fun h => absurd trivial h, by rintro _ _ ⟨⟩⟩
  | int i => exact ⟨fun h => absurd trivial h, by rintro _ _ ⟨⟩⟩
  | str s => exact ⟨fun h => absurd trivial h, by rintro _ _ ⟨⟩⟩
  | sym h => exact ⟨fun h => absurd trivial h, by rintro _ _ ⟨⟩⟩
  | bool b => exact ⟨fun h => absurd trivial h, by rintro _ _ ⟨⟩⟩
  | char c => exact ⟨fun h => absurd trivial h, by rintro _ _ ⟨⟩⟩
  | nil => exact ⟨fun h => absurd trivial h, by rintro _ _ ⟨⟩⟩
  | @cons head tail hh ht ihh iht =>
    have hinner : ∀ done stack rest, ¬(Plain (.cons head tail) ∧ (done ≠ [] → Plain.ProperTail tail)) →
        (dumpToks false (.cons head tail) false ++ rest).foldlM advance (.reading (.items done :: stack)) = none := by
      intro done stack rest h
      rw [dumpToks_pretty]
      by_cases hhead : Plain head
      · have hread := (tok_pretty hh hhead).1.reads (.items done :: stack)
        cases ht with
        | nil => exact absurd ⟨⟨hhead, trivial, trivial⟩, fun _ => trivial⟩ h
        | @cons a b ha hb =>
          have hlist : ¬(Plain (.cons a b) ∧ (done ++ [head] ≠ [] → Plain.ProperTail b)) := by
            rintro ⟨hp, hproper⟩
            have hproper := hproper (List.append_ne_nil_of_right_ne_nil done (List.cons_ne_nil head []))
            exact h ⟨⟨hhead, hp, hproper⟩, fun _ => hproper⟩
          show ((_ ++ _) ++ rest).foldlM advance _ = none
          rw [List.append_assoc, hread _ trivial]
          exact iht.2 a b rfl (done ++ [head]) stack rest hlist
        | _ =>
          have hne : done ≠ [] := by
            rintro rfl
            exact h ⟨⟨hhead, trivial, trivial⟩, fun hne => absurd rfl hne⟩
          show ((_ ++ Token.dot :: _) ++ rest).foldlM advance _ = none
          rw [List.append_assoc, hread _ trivial]
          show (advance (.reading (.items (done ++ [head]) :: stack)) .dot).bind _ = none
          rw [advance_dot stack hne head]
          rfl
      · obtain ⟨us, hus⟩ := joinToks_head tail (dumpToks false head true) (dumpToks false tail false)
        show (joinToks _ _ _ ++ rest).foldlM advance _ = none
        rw [hus, List.append_assoc]
        exact ihh.1 hhead (.items done :: stack) _ trivial
    refine ⟨fun h stack rest hr => ?_, fun a b hab => ?_⟩
    · have htoks : dumpToks false (.cons head tail) true ++ rest =
          .lparen :: (dumpToks false (.cons head tail) false ++ ([.rparen] ++ rest)) := by
        rw [dumpToks_pretty, dumpToks_pretty]
        simp [wrapToks]
      rw [htoks, foldlM_advance, advance_lparen hr]
      exact hinner [] stack _ fun hp => h hp.1
    · obtain ⟨-, rfl⟩ := Val.cons.inj hab
      exact hinner

/-- The grammar derives the tokens of the pretty dump exactly for plain values. -/
theorem tok_pretty_iff (hv : Readable v) : Tok (dumpToks false v true) v ↔ Plain v := by
  refine ⟨fun ht => ?_, fun hp => (tok_pretty hv hp).1⟩
  by_contra hp
  have hstuck := (not_reads hv).1 hp [] [] trivial
  rw [List.append_nil] at hstuck
  cases hstuck.symm.trans (foldlM_advance_iff.mpr ht)

/-! ## Values that have been returned -/

mutual

theorem Tok.readable {ts : List Token} {v : Val} : Tok ts v → (∀ s, Token.symbol s ∈ ts → IsSymbol s) → Readable v
  | .atom (t := t) h => fun hs => by
    cases t with
    | symbol s =>
      cases h
      exact .sym (hs s List.mem_cons_self)
    | vnull =>
      cases h
      exact .null
    | number i =>
      cases h
      exact .int i
    | string s =>
      cases h
      exact .str s
    | bool b =>
      cases h
      exact .bool b
    | char c =>
      cases h
      exact .char c
    | _ => cases h
  | .nil => fun _ => .nil
  | .list h => fun hs => h.readable fun s hmem => hs s (by simp [hmem])
  | .pair h h' => fun hs =>
    .cons (h.readable fun s hmem => hs s (by simp [hmem])) (h'.readable fun s hmem => hs s (by simp [hmem]))
  | .quote h => fun hs => .cons (.sym rfl) (.cons (h.readable fun s hmem => hs s (by simp [hmem])) .nil)

theorem TokList.readable {ts : List Token} {v : Val} : TokList ts v → (∀ s, Token.symbol s ∈ ts → IsSymbol s) →
    Readable v
  | .cons h h' => fun hs =>
    .cons (h.readable fun s hmem => hs s (by simp [hmem])) (h'.readable fun s hmem => hs s (by simp [hmem]))
  | .one h => fun hs => .cons (h.readable hs) .nil

end

theorem Returned.readable (h : Returned v) : Readable v := by
  obtain ⟨size, str, hp⟩ := h
  refine (sexprParse_iff.mp hp).1.tok.readable fun s hmem => ?_
  obtain ⟨m, s₁, q, -, hstep⟩ := mem_scan hmem
  exact (step_symbol hstep).1

/-! ## Dumps that are read back -/

theorem readLength_lt (n : Nat) : readLength n < 2 ^ 31 := by
  rw [readLength]
  split_ifs with h
  · exact h
  · decide

theorem tok_sym {s : CStr} (h : Tok ts (.sym s)) : ts = [.symbol s] := by
  cases h with
  | @atom t _ hatom =>
    cases t <;> cases hatom
    rfl
  | list hlist => cases hlist

/-- The text of a value that is too long is cut, and what is left of it is not read as the value. -/
theorem not_roundTrips_long {raw : Bool} (hv : Readable v) (hd : Dumps raw v true str) (hlong : 2 ^ 31 ≤ str.length) :
    ¬RoundTrips raw size v := by
  rintro ⟨str', hstr, hread⟩
  obtain rfl := Except.ok.inj (hd.dump.symm.trans hstr)
  have htok := (sexprParse_iff.mp hread).1.tok
  have hcut := readLength_lt str.length
  rw [inputProc_eq] at htok
  have hpre : str.take (readLength str.length) <+: str := List.take_prefix _ _
  have hlt : (str.take (readLength str.length)).length < str.length := by
    rw [List.length_take]
    omega
  have hne : str.take (readLength str.length) ≠ str := fun heq => absurd (congrArg List.length heq) (Nat.ne_of_lt hlt)
  generalize str.take (readLength str.length) = p at htok hpre hlt hne
  have hnil : p ≠ [] := by
    rintro rfl
    rw [scan_nil] at htok
    exact htok.ne_nil rfl
  have hlen := hd.length
  cases hv with
  | cons hh ht =>
    have hopen := hd.list rfl ⟨_, _, rfl⟩ p hpre hne hnil
    rw [htok.depth] at hopen
    exact absurd hopen (lt_irrefl 0)
  | @sym s hs =>
    obtain rfl : s.1 = str := Except.ok.inj hd.dump
    have hmem : Token.symbol s ∈ (lexer.scan .initial p).1 := by
      rw [tok_sym htok]
      exact List.mem_cons_self
    obtain ⟨m, t, q, hsuffix, hstep⟩ := mem_scan hmem
    have hle := (step_symbol hstep).2.2.length_le.trans hsuffix.length_le
    omega
  | str s =>
    obtain rfl := Except.ok.inj hd.dump
    rw [scan_cut_str hpre hne] at htok
    exact htok.ne_nil rfl
  | char c =>
    obtain rfl := Except.ok.inj hd.dump
    exact absurd (dumpChar_short c) (Nat.not_lt.mpr hlong)
  | int i =>
    have hdigits : (Nat.digits 10 i.toNat).length ≤ 20 :=
      (Nat.digits_length_le_iff (by decide) i.toNat).mpr ((UInt64.toNat_lt i).trans (by decide))
    have hlen : str.length = max 1 (Nat.digits 10 i.toNat).length := hlen
    omega
  | _ =>
    have hlen : str.length = 2 := hlen
    omega

/-- A value is read back if its text is not too long, the grammar derives the tokens of it, and the stack of the
parser is large enough for them. -/
theorem Readable.roundTrips_iff {raw : Bool} (hv : Readable v) (hc : Codepoints v) (hq : raw = false → QuoteFree v) :
    RoundTrips raw size v ↔ Parses (dumpToks raw v true) v ∧ textLength raw v true < 2 ^ 31 := by
  obtain ⟨str, hd⟩ := hv.dumps hc hq true
  rw [← hd.length]
  constructor
  · intro h
    have hlen : str.length < 2 ^ 31 := by
      by_contra hlong
      exact not_roundTrips_long hv hd (Nat.not_lt.mp hlong) h
    obtain ⟨str', hstr, hread⟩ := h
    obtain rfl := Except.ok.inj (hd.dump.symm.trans hstr)
    exact ⟨(hd.lexes.splits.parse hlen).mp hread, hlen⟩
  · rintro ⟨htok, hlen⟩
    exact ⟨str, hd.dump, (hd.lexes.splits.parse hlen).mpr htok⟩

theorem Readable.roundTrips_raw (hv : Readable v) (hc : Codepoints v) :
    RoundTrips true size v ↔ rawHeight v + 1 < yyMaxDepth ∧ textLength true v true < 2 ^ 31 := by
  have hq : true = false → QuoteFree v := by rintro ⟨⟩
  rw [hv.roundTrips_iff hc hq, (height_raw hv true).parses_iff]

/-- The raw dump of a value that has been read is read back exactly if the stack of the parser is large enough for
it, and the `int` that counts its bytes does not overflow. -/
theorem raw_roundTrips_iff (size : Nat → ℕ+) (v : Val) (hr : Returned v) (hc : Codepoints v) :
    RoundTrips true size v ↔ rawHeight v + 1 < yyMaxDepth ∧ textLength true v true < 2 ^ 31 :=
  hr.readable.roundTrips_raw hc

theorem Readable.returned (hv : Readable v) (hc : Codepoints v) (hheight : rawHeight v + 1 < yyMaxDepth)
    (hlen : textLength true v true < 2 ^ 31) : Returned v := by
  have htrip : RoundTrips true (fun _ => 8192) v := (hv.roundTrips_raw hc).mpr ⟨hheight, hlen⟩
  obtain ⟨str, -, hread⟩ := htrip
  exact ⟨_, str, hread⟩

/-- A list of a string with a quote in it and a pair of a character and a boolean. -/
def quotedList : Val := .cons (.str (cstr (text ['a', '"']))) (.cons (.cons (.char 233) (.bool true)) .nil)

theorem raw_roundTrips_list : RoundTrips true (fun _ => 8192) quotedList := by
  have hreadable : Readable quotedList := .cons (.str _) (.cons (.cons (.char 233) (.bool true)) .nil)
  have hchars : Codepoints quotedList := ⟨trivial, ⟨(by decide : (233 : UInt64).toNat ≤ 0x10ffff), trivial⟩, trivial⟩
  have hheight : rawHeight quotedList + 1 < yyMaxDepth := by decide
  have hlen : textLength true quotedList true < 2 ^ 31 := by decide
  exact (raw_roundTrips_iff _ _ (hreadable.returned hchars hheight hlen) hchars).mpr ⟨hheight, hlen⟩

/-- A list of `#t`. -/
def trues : Nat → Val
  | 0 => .nil
  | n + 1 => .cons (.bool true) (trues n)

theorem readable_trues (n : Nat) : Readable (trues n) := by
  induction n with
  | zero => exact .nil
  | succ n ih => exact .cons (.bool true) ih

theorem properTail_trues (n : Nat) : Plain.ProperTail (trues n) := by
  induction n with
  | zero => trivial
  | succ n ih => exact ih

theorem plain_trues (n : Nat) : Plain (trues n) ∧ Codepoints (trues n) ∧ QuoteFree (trues n) := by
  induction n with
  | zero => exact ⟨trivial, trivial, trivial⟩
  | succ n ih =>
    refine ⟨⟨trivial, ih.1, ?_⟩, ⟨trivial, ih.2.1⟩, ⟨trivial, ih.2.2⟩⟩
    cases n with
    | zero => trivial
    | succ n => exact properTail_trues n

theorem textLength_trues (n : Nat) : textLength false (trues (n + 1)) false = 3 * n + 2 := by
  induction n with
  | zero => rfl
  | succ n ih =>
    show 2 + (1 + textLength false (trues (n + 1)) false) + 0 = _
    omega

theorem rawHeight_trues (n : Nat) : rawHeight (trues (n + 1)) = 3 * n + 5 := by
  induction n with
  | zero => rfl
  | succ n ih =>
    show max (1 + 1) (max (rawHeight (trues (n + 1)) + 3) 5) = _
    omega

/-- The elements of a list stay on the stack until the list ends. -/
theorem height_trues (n : Nat) : ListHeight (dumpToks false (trues (n + 1)) false) (trues (n + 1)) (n + 1) := by
  induction n with
  | zero => exact .one (.atom rfl)
  | succ n ih =>
    have htrue : TokHeight [.bool true] (.bool true) 1 := .atom rfl
    have hlist := ListHeight.cons htrue ih
    rw [Nat.max_eq_right (Nat.le_add_left 1 _)] at hlist
    rw [trues, dumpToks_pretty]
    exact hlist

/-- A list whose raw dump is too deep can be read: its elements are written without the dots. -/
theorem returned_trues {n : Nat} (hn : n + 3 < yyMaxDepth) : Returned (trues (n + 1)) := by
  obtain ⟨hp, hc, hq⟩ := plain_trues (n + 1)
  have hmax : yyMaxDepth = 10000 := rfl
  have hlen : textLength false (trues (n + 1)) true < 2 ^ 31 := by
    have hwrap : textLength false (trues (n + 1)) true = textLength false (trues (n + 1)) false + 2 := by
      cases n <;> rfl
    have htext := textLength_trues n
    omega
  have hparses : Parses (dumpToks false (trues (n + 1)) true) (trues (n + 1)) := by
    have hlist := TokHeight.list (height_trues n)
    rw [trues, dumpToks_pretty]
    rw [trues, dumpToks_pretty] at hlist
    exact ⟨_, hlist, by omega⟩
  have htrip : RoundTrips false (fun _ => 8192) (trues (n + 1)) :=
    ((readable_trues (n + 1)).roundTrips_iff hc fun _ => hq).mpr ⟨hparses, hlen⟩
  obtain ⟨str, -, hread⟩ := htrip
  exact ⟨_, str, hread⟩

/-- A list of 4000 times `#t` is read, and its raw dump is not. -/
theorem raw_dump_overflows : ¬∀ v, Returned v → Codepoints v → RoundTrips true (fun _ => 8192) v := by
  intro h
  have hmax : yyMaxDepth = 10000 := rfl
  obtain ⟨n, hn⟩ : ∃ n, n = 3999 := ⟨_, rfl⟩
  have htrip := h (trues (n + 1)) (returned_trues (by omega)) (plain_trues (n + 1)).2.1
  rw [(readable_trues (n + 1)).roundTrips_raw (plain_trues (n + 1)).2.1, rawHeight_trues] at htrip
  omega

/-! ## Pretty dumps -/

theorem dumpToks_wrap (head tail : Val) : dumpToks false (.cons head tail) true =
    .lparen :: (dumpToks false (.cons head tail) false ++ [.rparen]) := by
  rw [dumpToks_pretty, dumpToks_pretty]
  rfl

/-- A list that is not wrapped takes one symbol less. -/
def PrettyFits (v : Val) (n : Nat) : Prop :=
  (∃ m ≤ n, TokHeight (dumpToks false v true) v m) ∧
    ∀ head tail, v = .cons head tail → Plain.ProperTail tail →
      ∃ m, m + 1 ≤ n ∧ ListHeight (dumpToks false v false) v m

theorem prettyFits_atom {t : Token} (h : atom t = some v) : PrettyFits v 1 := by
  have hv : atomToken v = some t ∧ ∀ head tail, v ≠ .cons head tail := by
    cases t <;> cases h <;> exact ⟨rfl, by rintro _ _ ⟨⟩⟩
  exact ⟨⟨1, le_rfl, height_atom hv.1⟩, fun head tail hcons => absurd hcons (hv.2 head tail)⟩

theorem prettyFits_list {m n : Nat} (h : ListHeight (dumpToks false (.cons head tail) false) (.cons head tail) m)
    (hmn : max (m + 1) 3 ≤ n) : PrettyFits (.cons head tail) n := by
  refine ⟨⟨max (m + 1) 3, hmn, ?_⟩, fun _ _ _ _ => ⟨m, by omega, h⟩⟩
  rw [dumpToks_wrap]
  exact .list h

/-- The dot of a pair is left out where a list follows it. -/
theorem prettyFits_pair {m n : Nat} (hv : Readable tail) (hp : Plain (.cons head tail)) (hhead : PrettyFits head m)
    (htail : PrettyFits tail n) : PrettyFits (.cons head tail) (max (m + 1) (max (n + 3) 5)) := by
  obtain ⟨⟨m₁, hm₁, hhead⟩, -⟩ := hhead
  obtain ⟨⟨m₂, hm₂, htail⟩, hrest⟩ := htail
  cases hv with
  | nil =>
    have hlist : ListHeight (dumpToks false (.cons head .nil) false) (.cons head .nil) m₁ := by
      rw [dumpToks_pretty]
      exact .one hhead
    exact prettyFits_list hlist (by omega)
  | @cons a b _ _ =>
    obtain ⟨m', hm', hrest⟩ := hrest a b rfl hp.2.2
    have hlist : ListHeight (dumpToks false (.cons head (.cons a b)) false) (.cons head (.cons a b))
        (max m₁ (m' + 1)) := by
      rw [dumpToks_pretty]
      exact .cons hhead hrest
    exact prettyFits_list hlist (by omega)
  | _ =>
    refine ⟨⟨_, ?_, height_dotted hhead htail⟩, ?_⟩
    · omega
    · rintro _ _ ⟨⟩ ⟨⟩

mutual

/-- However a value has been written, its pretty dump needs no larger stack. -/
theorem TokHeight.pretty {ts : List Token} {v : Val} {n : Nat} : TokHeight ts v n → Readable v → Plain v →
    QuoteFree v → PrettyFits v n
  | .atom h => fun _ _ _ => prettyFits_atom h
  | .nil => fun _ _ _ => ⟨⟨2, le_rfl, .nil⟩, by rintro _ _ ⟨⟩⟩
  | .list h => fun hv hp hq => by
    obtain ⟨m, hmn, hlist⟩ := h.pretty hv hp hq
    cases h with
    | one => exact prettyFits_list hlist (by omega)
    | cons => exact prettyFits_list hlist (by omega)
  | .pair h h' => fun hv hp hq => by
    cases hv with
    | cons hvh hvt => exact prettyFits_pair hvt hp (h.pretty hvh hp.1 hq.1) (h'.pretty hvt hp.2.1 hq.2)
  | .quote _ => fun _ _ hq => absurd rfl hq.1

theorem ListHeight.pretty {ts : List Token} {v : Val} {n : Nat} : ListHeight ts v n → Readable v → Plain v →
    QuoteFree v → ∃ m ≤ n, ListHeight (dumpToks false v false) v m
  | .one h => fun hv hp hq => by
    cases hv with
    | cons hvh _ =>
      obtain ⟨⟨m, hm, hhead⟩, -⟩ := h.pretty hvh hp.1 hq.1
      refine ⟨m, hm, ?_⟩
      rw [dumpToks_pretty]
      exact .one hhead
  | .cons h h' => fun hv hp hq => by
    cases hv with
    | cons hvh hvt =>
      obtain ⟨⟨m₁, hm₁, hhead⟩, -⟩ := h.pretty hvh hp.1 hq.1
      obtain ⟨m₂, hm₂, htail⟩ := h'.pretty hvt hp.2.1 hq.2
      refine ⟨max m₁ (m₂ + 1), by omega, ?_⟩
      rw [dumpToks_pretty]
      cases h' with
      | one => exact .cons hhead htail
      | cons => exact .cons hhead htail

end

theorem Returned.parses (h : Returned v) : ∃ ts, Parses ts v := by
  obtain ⟨size, str, hp⟩ := h
  exact ⟨_, (sexprParse_iff.mp hp).1⟩

theorem parses_pretty_iff (hr : Returned v) (hq : QuoteFree v) : Parses (dumpToks false v true) v ↔ Plain v := by
  constructor
  · exact fun h => (tok_pretty_iff hr.readable).mp h.tok
  · intro hp
    obtain ⟨ts, n, hts, hn⟩ := hr.parses
    obtain ⟨⟨m, hmn, hpretty⟩, -⟩ := hts.pretty hr.readable hp hq
    exact ⟨m, hpretty, by omega⟩

/-- The pretty dump of a value that has been read, without the symbol `quote`, is read back exactly if no pair
has more than one element before its dot, and the `int` that counts the bytes does not overflow. -/
theorem pretty_roundTrips_iff (size : Nat → ℕ+) (v : Val) (hr : Returned v) (hc : Codepoints v) (hq : QuoteFree v) :
    RoundTrips false size v ↔ Plain v ∧ textLength false v true < 2 ^ 31 := by
  rw [hr.readable.roundTrips_iff hc fun _ => hq, parses_pretty_iff hr hq]

/-- `(#t #f)`. -/
theorem pretty_roundTrips_list : RoundTrips false (fun _ => 8192) (.cons (.bool true) (.cons (.bool false) .nil)) :=
  (pretty_roundTrips_iff _ _ (Readable.returned (.cons (.bool true) (.cons (.bool false) .nil))
    ⟨trivial, trivial, trivial⟩ (by decide) (by decide)) ⟨trivial, trivial, trivial⟩ ⟨trivial, trivial, trivial⟩).mpr
    ⟨⟨trivial, ⟨trivial, trivial, trivial⟩, trivial⟩, by decide⟩

/-- `(#t . (#t . #f))` is read, and its dump `(#t #t . #f)` is not. -/
theorem pretty_dump_improper : ¬∀ v, Returned v → Codepoints v → QuoteFree v →
    RoundTrips false (fun _ => 8192) v := by
  intro h
  have hv : Readable (.cons (.bool true) (.cons (.bool true) (.bool false))) :=
    .cons (.bool true) (.cons (.bool true) (.bool false))
  have hc : Codepoints (.cons (.bool true) (.cons (.bool true) (.bool false))) := ⟨trivial, trivial, trivial⟩
  have hq : QuoteFree (.cons (.bool true) (.cons (.bool true) (.bool false))) := ⟨trivial, trivial, trivial⟩
  have htrip := h _ (hv.returned hc (by decide) (by decide)) hc hq
  rw [hv.roundTrips_iff hc fun _ => hq] at htrip
  exact ((tok_pretty_iff hv).mp htrip.1.tok).2.2

end Libjeffpc.SexprText
