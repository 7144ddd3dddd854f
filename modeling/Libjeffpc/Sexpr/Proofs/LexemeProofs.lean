import Libjeffpc.Int.Proofs.Str2uintProofs
import Libjeffpc.Sexpr.Dump
import Libjeffpc.Sexpr.Proofs.ReaderProofs
import Libjeffpc.Unicode.Proofs.UnicodeProofs

/-!
# How the scanner reads what is dumped

A word, a character or a string that is followed by a blank, a closing parenthesis or the end of the text is
read as one token.
-/

namespace Libjeffpc.Lib.Regex

variable {α : Type} {p : α → Bool} {r : Regex α} {u : List α}

theorem matches_done_iff : Matches done u ↔ u = [] := by
  constructor
  · intro h
    cases h
    rfl
  · rintro rfl
    exact .done

theorem matches_one_iff : Matches (one p r) u ↔ ∃ b t, u = b :: t ∧ p b ∧ Matches r t := by
  constructor
  · intro h
    cases h with
    | one hb ht => exact ⟨_, _, rfl, hb, ht⟩
  · rintro ⟨b, t, rfl, hb, ht⟩
    exact .one hb ht

theorem matches_opt_iff : Matches (opt p r) u ↔ Matches r u ∨ ∃ b t, u = b :: t ∧ p b ∧ Matches r t := by
  constructor
  · intro h
    cases h with
    | skip ht => exact .inl ht
    | take hb ht => exact .inr ⟨_, _, rfl, hb, ht⟩
  · rintro (ht | ⟨b, t, rfl, hb, ht⟩)
    · exact .skip ht
    · exact .take hb ht

theorem matches_many_iff : Matches (many p) u ↔ ∀ b ∈ u, p b := by
  constructor
  · intro h
    cases h with
    | many ht => exact ht
  · exact .many

theorem matches_lit_iff [DecidableEq α] {l : List α} : Matches (lit l r) u ↔ ∃ t, u = l ++ t ∧ Matches r t := by
  induction l generalizing u with
  | nil => simp [lit]
  | cons c l ih =>
    have hlit : lit (c :: l) r = one (fun b => decide (b = c)) (lit l r) := rfl
    rw [hlit, matches_one_iff]
    constructor
    · rintro ⟨b, t, rfl, hb, ht⟩
      obtain ⟨t, rfl, htail⟩ := ih.mp ht
      exact ⟨t, by rw [of_decide_eq_true hb, List.cons_append], htail⟩
    · rintro ⟨t, rfl, ht⟩
      exact ⟨c, l ++ t, rfl, decide_eq_true rfl, ih.mpr ⟨t, rfl, ht⟩⟩

end Libjeffpc.Lib.Regex

namespace Libjeffpc.Lib.Scanner

variable {α M T S : Type} {sc : Scanner α M T S} {m : M} {s w : List α} {action : List α → Outcome M T S}

/-- The step of a rule that takes a text. -/
theorem step_takes (h : Rule.Takes (sc.rules m) s action w) :
    sc.step m s = (action w).map fun m' => (m', s.drop w.length) := by
  cases s with
  | nil => exact absurd (List.prefix_nil.mp h.1) h.2.1
  | cons b s =>
    rw [step_pick (Rule.pick_iff.mpr ⟨w, rfl, h⟩), ← List.prefix_iff_eq_take.mp h.1]

end Libjeffpc.Lib.Scanner

namespace Libjeffpc.SexprText

open Lib Lib.Scanner Lib.Regex

/-- What follows a token does not belong to it. -/
def Delimited (rest : Bytes) : Prop := rest = [] ∨ ∃ t, rest = ch ' ' :: t ∨ rest = ch ')' :: t

/-! ## What the rules take -/

/-- What may follow `#\`. -/
inductive CharText : Bytes → Prop
  | hex {t : Bytes} (h : ∀ c ∈ t, isHex c) : CharText (ch 'u' :: t)
  | nul : CharText (text ['n', 'u', 'l'])
  | space : CharText (text ['s', 'p', 'a', 'c', 'e'])
  | one (c : UInt8) : CharText [c]
  | utf8 {c : UInt8} (t : Bytes) (h : 0x80 ≤ c) : CharText (c :: t)

/-- The texts that the rules of INITIAL take. -/
inductive Taken : Bytes → Prop
  | one (c : UInt8) : Taken [c]
  | word {w : Bytes} (h : ∀ c ∈ w, symbolChar c) : Taken w
  | comment (t : Bytes) : Taken (ch ';' :: t)
  | constant (c : UInt8) : Taken [ch '#', c]
  | hex (t : Bytes) : Taken (ch '#' :: ch 'x' :: t)
  | char {t : Bytes} (h : CharText t) : Taken (ch '#' :: ch '\\' :: t)

theorem isDigit_symbol {c : UInt8} (h : isDigit c) : symbolChar c := by
  rw [symbolChar, h, Bool.or_true]

theorem isOctal_symbol {c : UInt8} (h : isOctal c) : symbolChar c :=
  forall_byte (P := fun c => isOctal c = true → symbolChar c = true) (by decide +kernel) c h

theorem isHex_symbol {c : UInt8} (h : isHex c) : symbolChar c :=
  forall_byte (P := fun c => isHex c = true → symbolChar c = true) (by decide +kernel) c h

/-- The first digit of a decimal number. -/
def isNonzero (c : UInt8) : Bool := ch '1' ≤ c && c ≤ ch '9'

theorem isNonzero_symbol {c : UInt8} (h : isNonzero c) : symbolChar c :=
  forall_byte (P := fun c => isNonzero c = true → symbolChar c = true) (by decide +kernel) c h

/-- A rule for the first byte of a sequence of UTF-8. -/
theorem lead_utf8 {a b c : UInt8} (ha : 0x80 ≤ a) (h : (decide (a ≤ c) && decide (c ≤ b)) = true) : 0x80 ≤ c :=
  UInt8.le_trans ha (of_decide_eq_true (Bool.and_eq_true_iff.mp h).1)

theorem initialRules_taken : ∀ y ∈ initialRules, ∀ u, y.regex.Matches u → Taken u := by
  simp only [initialRules, charRules, List.cons_append, List.nil_append, List.forall_mem_cons, matches_lit_iff,
    matches_one_iff, matches_done_iff, plus, matches_many_iff, rep, matches_opt_iff]
  refine ⟨?_, ?_, ?_, ?_, ?_, ?_, ?_, ?_, ?_, ?_, ?_, ?_, ?_, ?_, ?_, ?_, ?_, ?_, ?_, ?_, ?_, List.forall_mem_nil _⟩
  · rintro _ ⟨_, rfl, rfl⟩
    exact .one _
  · rintro _ ⟨_, _, rfl, -, rfl⟩
    exact .one _
  · rintro _ ⟨_, rfl, _, _, rfl, -, rfl⟩
    exact .constant _
  · rintro _ ⟨_, rfl, rfl⟩
    exact .constant _
  · rintro _ ⟨t, rfl, ht⟩
    exact .word (List.forall_mem_cons.mpr ⟨by decide, fun c hc => isOctal_symbol (ht c hc)⟩)
  · rintro _ ⟨_, rfl, b, t, rfl, hb, ht⟩
    refine .word ?_
    simp only [text, List.map_cons, List.map_nil, List.cons_append, List.nil_append, List.forall_mem_cons]
    exact ⟨by decide, by decide, isHex_symbol hb, fun c hc => isHex_symbol (ht c hc)⟩
  · rintro _ ⟨_, rfl, _, _, rfl, -, -⟩
    exact .hex _
  · rintro _ ⟨_, rfl, b, t, rfl, hb, ht⟩
    exact .char (.hex (List.forall_mem_cons.mpr ⟨hb, ht⟩))
  · rintro _ ⟨_, rfl, rfl⟩
    exact .char .nul
  · rintro _ ⟨_, rfl, rfl⟩
    exact .char .space
  · rintro _ ⟨_, rfl, _, _, rfl, -, rfl⟩
    exact .char (.one _)
  · rintro _ ⟨_, rfl, _, _, rfl, -, rfl⟩
    exact .char (.one _)
  · rintro _ ⟨_, rfl, b, t, rfl, hb, -⟩
    exact .char (.utf8 t (lead_utf8 (by decide) hb))
  · rintro _ ⟨_, rfl, b, t, rfl, hb, -⟩
    exact .char (.utf8 t (lead_utf8 (by decide) hb))
  · rintro _ ⟨_, rfl, b, t, rfl, hb, -⟩
    exact .char (.utf8 t (lead_utf8 (by decide) hb))
  · rintro _ ⟨b, t, rfl, hb, ht⟩
    exact .word (List.forall_mem_cons.mpr ⟨isNonzero_symbol hb, fun c hc => isDigit_symbol (ht c hc)⟩)
  · rintro _ (ht | ⟨b, t, rfl, hb, ht⟩)
    · exact .word ht
    · exact .word (List.forall_mem_cons.mpr ⟨by rw [symbolChar, hb, Bool.true_or], ht⟩)
  · rintro _ ⟨_, _, rfl, -, rfl⟩
    exact .one _
  · rintro _ ⟨_, rfl, rfl⟩
    exact .one _
  · rintro _ ⟨t, rfl, -⟩
    exact .comment t
  · rintro _ ⟨_, _, rfl, -, rfl⟩
    exact .one _

/-! ## Words -/

/-- A text of characters of symbols. -/
def Word (w : Bytes) : Prop := w ≠ [] ∧ ∀ c ∈ w, symbolChar c

theorem Delimited.head {rest u : Bytes} {c : UInt8} (h : Delimited rest) (hu : c :: u <+: rest) :
    c = ch ' ' ∨ c = ch ')' := by
  rcases h with rfl | ⟨t, rfl | rfl⟩
  · exact absurd (List.prefix_nil.mp hu) (List.cons_ne_nil _ _)
  · exact .inl (List.cons_prefix_cons.mp hu).1
  · exact .inr (List.cons_prefix_cons.mp hu).1

/-- A text before a delimiter that a rule takes ends with the word. -/
theorem Word.taken {w rest u : Bytes} (hw : Word w) (hrest : Delimited rest) (hu : u <+: w ++ rest)
    (ht : Taken u) : u.length ≤ w.length := by
  obtain ⟨b, w, rfl⟩ := List.exists_cons_of_ne_nil hw.1
  have hb := hw.2 b List.mem_cons_self
  have hhead : ∀ {c : UInt8} {t : Bytes}, u = c :: t → symbolChar c = false → False := by
    rintro c t rfl hc
    rw [← (List.cons_prefix_cons.mp hu).1, hc] at hb
    cases hb
  by_contra hlt
  have hlong : b :: w <+: u := List.prefix_of_prefix_length_le (List.prefix_append _ rest) hu (by omega)
  cases ht with
  | one c => simp at hlt
  | word h =>
    obtain ⟨v, rfl⟩ := hlong
    rw [List.prefix_append_right_inj] at hu
    cases v with
    | nil => simp at hlt
    | cons c v =>
      have hc := h c (by simp)
      rcases hrest.head hu with rfl | rfl
      · exact absurd hc (by decide)
      · exact absurd hc (by decide)
  | comment t => exact hhead rfl (by decide)
  | constant c => exact hhead rfl (by decide)
  | hex t => exact hhead rfl (by decide)
  | char h => exact hhead rfl (by decide)

/-- A word that is one token is one also before a delimiter. -/
theorem step_word {w rest : Bytes} {t : Token} (hw : Word w) (hrest : Delimited rest)
    (h : lexer.step .initial w = .token t (.initial, [])) :
    lexer.step .initial (w ++ rest) = .token t (.initial, rest) := by
  rcases step_cases lexer .initial w with ⟨b, s, -, ho⟩ | ⟨hs, -⟩ | ⟨action, w', ⟨hpre, hne, -, hrule⟩, ho⟩
  · cases ho.symm.trans h
  · exact absurd hs hw.1
  · rw [h] at ho
    cases ha : action w' with
    | token t' m =>
      rw [ha] at ho
      injection ho with ht hq
      injection hq with hm hdrop
      have hlen := congrArg List.length hdrop
      rw [List.length_nil, List.length_drop] at hlen
      obtain rfl : w' = w := hpre.eq_of_length_le (by omega)
      have htakes : Rule.Takes (lexer.rules .initial) (w' ++ rest) action w' :=
        ⟨List.prefix_append _ _, hne, fun y hy u hu hm => hw.taken hrest hu (initialRules_taken y hy u hm), hrule⟩
      have hstep := step_takes htakes
      rw [hstep, ha, ← ht, ← hm, List.drop_left]
      rfl
    | more m =>
      rw [ha] at ho
      cases ho
    | stop r =>
      rw [ha] at ho
      cases ho

/-! ## Numbers -/

theorem cstr_of_notMem {b : Bytes} (h : (0 : UInt8) ∉ b) : (cstr b).1 = b :=
  congrArg Subtype.val (cstr_val ⟨b, h⟩)

/-- The digits of a base that is known to the scanner are converted. -/
theorem getint_digits {b : Base} {digits : Bytes} {i : UInt64} (okretval : UInt64 → Token) (hne : digits ≠ [])
    (hdigits : ∀ c ∈ digits, isDigitIn b c) (hnum : numeral b digits = i.toNat) :
    getint digits b okretval = .token (okretval i) .initial := by
  have hnul : (0 : UInt8) ∉ digits := fun hmem => by
    have := hdigits 0 hmem
    rw [nul_digit] at this
    cases this
  have hscan : scan b (cstr digits).1 = ⟨[], [], [], digits, []⟩ := by
    have hparts : scan b ([] ++ [] ++ [] ++ digits) = _ := scan_parts nofun (.inl rfl) (.inl rfl) hne hdigits
    rw [cstr_of_notMem hnul]
    exact hparts
  have hlt := UInt64.toNat_lt i
  have hok : (Int.strToInt 0xffffffffffffffff (cstr digits) b 0).1 = .ok () := by
    rw [Int.strToInt_ok, hscan]
    refine ⟨hne, by rw [hnum]; exact hlt, rfl, ?_, nofun⟩
    show numeral b digits ≤ 0xffffffffffffffff
    omega
  have hval := Int.strToInt_value hok
  rw [hscan] at hval
  have hval : (Int.strToInt 0xffffffffffffffff (cstr digits) b 0).2 = i.toNat := hval.trans hnum
  have hrun : Int.str2u64Full (cstr digits) b 0 = (.ok (), i.toNat) := Prod.ext hok hval
  rw [getint, hrun]
  simp only [UInt64.ofNat_toNat]

theorem numeral_append (b : Base) (ds es : Bytes) :
    numeral b (ds ++ es) = es.foldl (fun n c => n * b.1 + (alnumValue c).getD 0) (numeral b ds) := by
  rw [numeral, List.foldl_append]
  rfl

/-- Digits that are written with `f`, from the last one to the first. -/
theorem numeral_digits {b : Base} {f : Nat → UInt8} (hf : ∀ d < b.1, alnumValue (f d) = some d) (ds : List Nat)
    (hds : ∀ d ∈ ds, d < b.1) : numeral b (ds.reverse.map f) = Nat.ofDigits b.1 ds := by
  induction ds with
  | nil => rfl
  | cons d ds ih =>
    obtain ⟨hd, hds⟩ := List.forall_mem_cons.mp hds
    rw [List.reverse_cons, List.map_append, numeral_append, ih hds, Nat.ofDigits_cons]
    show Nat.ofDigits b.1 ds * b.1 + (alnumValue (f d)).getD 0 = d + b.1 * Nat.ofDigits b.1 ds
    rw [hf d hd, Option.getD_some, Nat.mul_comm, Nat.add_comm]

theorem alnumValue_digit {d : Nat} (h : d < 10) : alnumValue (digit d) = some d := by
  have hall : ∀ d : Fin 10, alnumValue (digit d) = some d.1 := by decide
  exact hall ⟨d, h⟩

theorem alnumValue_hexDigit {d : Nat} (h : d < 16) : alnumValue (hexDigit d) = some d := by
  have hall : ∀ d : Fin 16, alnumValue (hexDigit d) = some d.1 := by decide
  exact hall ⟨d, h⟩

theorem isHex_hexDigit {d : Nat} (h : d < 16) : isHex (hexDigit d) := by
  have hall : ∀ d : Fin 16, isHex (hexDigit d) := by decide
  exact hall ⟨d, h⟩

theorem numeral_decimal (n : Nat) : numeral (base 10) (decimal n) = n := by
  by_cases h : n = 0
  · rw [decimal, if_pos h, h]
    rfl
  · rw [decimal_of_pos h]
    exact (numeral_digits (b := base 10) (f := digit) (fun d hd => alnumValue_digit hd) (Nat.digits 10 n)
      fun d hd => Nat.digits_lt_base (by decide) hd).trans (Nat.ofDigits_digits 10 n)

/-- The digits before the padding. -/
theorem hexText_eq (n : Nat) : ∃ k, hexText n = List.replicate k (ch '0') ++ (Nat.digits 16 n).reverse.map hexDigit :=
  ⟨_, rfl⟩

theorem numeral_zeroes (b : Base) (k : Nat) : numeral b (List.replicate k (ch '0')) = 0 := by
  have hzero : ∀ k, (List.replicate k (ch '0')).foldl (fun n c => n * b.1 + (alnumValue c).getD 0) 0 = 0 := by
    intro k
    induction k with
    | zero => rfl
    | succ k ih =>
      rw [List.replicate_succ, List.foldl_cons, Nat.zero_mul]
      exact ih
  exact hzero k

theorem numeral_hexText (n : Nat) : numeral (base 16) (hexText n) = n := by
  obtain ⟨k, hk⟩ := hexText_eq n
  have hdigits : numeral (base 16) ((Nat.digits 16 n).reverse.map hexDigit) = n :=
    (numeral_digits (b := base 16) (f := hexDigit) (fun d hd => alnumValue_hexDigit hd) (Nat.digits 16 n)
      fun d hd => Nat.digits_lt_base (by decide) hd).trans (Nat.ofDigits_digits 16 n)
  rw [hk, numeral_append, numeral_zeroes]
  exact hdigits

theorem isHex_hexText (n : Nat) : ∀ c ∈ hexText n, isHex c := by
  obtain ⟨k, hk⟩ := hexText_eq n
  rw [hk]
  intro c hc
  rcases List.mem_append.mp hc with hc | hc
  · rw [(List.mem_replicate.mp hc).2]
    rfl
  · obtain ⟨d, hd, rfl⟩ := List.mem_map.mp hc
    exact isHex_hexDigit (Nat.digits_lt_base (by decide) (List.mem_reverse.mp hd))

theorem hexText_ne_nil (n : Nat) : hexText n ≠ [] := by
  intro hnil
  have hlen := congrArg List.length hnil
  simp only [hexText, List.length_append, List.length_replicate, List.length_map, List.length_nil] at hlen
  omega

theorem isDigitIn_hex {c : UInt8} (h : isHex c) : isDigitIn (base 16) c :=
  forall_byte (P := fun c => isHex c = true → isDigitIn (base 16) c = true) (by decide +kernel) c h

theorem isDigitIn_ten {c : UInt8} (h : isDigit c) : isDigitIn (base 10) c :=
  forall_byte (P := fun c => isDigit c = true → isDigitIn (base 10) c = true) (by decide +kernel) c h

theorem getint_decimal (i : UInt64) : getint (decimal i.toNat) (base 10) .number = .token (.number i) .initial :=
  getint_digits .number (decimal_ne_nil _) (fun c hc => isDigitIn_ten (isDigit_decimal _ c hc)) (numeral_decimal _)

theorem getint_hexText (i : UInt64) : getint (hexText i.toNat) (base 16) .char = .token (.char i) .initial :=
  getint_digits .char (hexText_ne_nil _) (fun c hc => isDigitIn_hex (isHex_hexText _ c hc)) (numeral_hexText _)

theorem word_decimal (n : Nat) : Word (decimal n) :=
  ⟨decimal_ne_nil n, fun c hc => isDigit_symbol (isDigit_decimal n c hc)⟩

/-- The rules before that for decimal numbers. -/
theorem nonzero_rules : ∀ y ∈ initialRules.take 15, ∀ c t, isNonzero c → ¬y.regex.Matches (c :: t) := by
  have hch : ∀ {c d : UInt8} {t u : Bytes}, isNonzero c → c :: t = d :: u → isNonzero d = false → False := by
    intro c d t u hc heq hd
    rw [(List.cons.inj heq).1, hd] at hc
    cases hc
  have hpunct : ∀ c, isPunct c → isNonzero c = false :=
    forall_byte (P := fun c => isPunct c = true → isNonzero c = false) (by decide +kernel)
  simp only [initialRules, charRules, List.cons_append, List.nil_append, List.take_succ_cons, List.take_zero,
    List.forall_mem_cons, matches_lit_iff, matches_one_iff]
  refine ⟨?_, ?_, ?_, ?_, ?_, ?_, ?_, ?_, ?_, ?_, ?_, ?_, ?_, ?_, ?_, List.forall_mem_nil _⟩
  · rintro c t hc ⟨_, heq, -⟩
    exact hch hc heq rfl
  · rintro c t hc ⟨_, _, heq, hb, -⟩
    exact hch hc heq (hpunct _ hb)
  all_goals
    rintro c t hc ⟨_, heq, -⟩
    exact hch hc heq rfl

/-- A positive number starts with another digit than 0. -/
theorem decimal_nonzero {n : Nat} (h : n ≠ 0) : ∃ c t, decimal n = c :: t ∧ isNonzero c ∧ ∀ d ∈ t, isDigit d := by
  obtain ⟨c, t, hct⟩ := List.exists_cons_of_ne_nil (decimal_ne_nil n)
  have hdigits := isDigit_decimal n
  rw [hct, List.forall_mem_cons] at hdigits
  refine ⟨c, t, hct, ?_, hdigits.2⟩
  have hcase : isDigit c = true → isNonzero c = true ∨ c = digit 0 :=
    forall_byte (P := fun c => isDigit c = true → isNonzero c = true ∨ c = digit 0) (by decide +kernel) c
  rcases hcase hdigits.1 with hc | rfl
  · exact hc
  · exact absurd (decimal_head hct).1 h

/-- A number as it is dumped. -/
theorem step_decimal (i : UInt64) : lexer.step .initial (decimal i.toNat) = .token (.number i) (.initial, []) := by
  by_cases h : i.toNat = 0
  · obtain rfl : i = 0 := UInt64.toNat_inj.mp h
    rfl
  · obtain ⟨c, t, hct, hc, ht⟩ := decimal_nonzero h
    have htakes : Rule.Takes (lexer.rules .initial) (decimal i.toNat) (fun t => getint t (base 10) .number)
        (decimal i.toNat) := by
      refine ⟨List.prefix_refl _, decimal_ne_nil _, fun y _ u hu _ => hu.length_le, initialRules.take 15, _,
        initialRules.drop 16, rfl, rfl, ?_, fun y hy => ?_⟩
      · rw [hct]
        exact .one hc (.many ht)
      · rw [hct]
        exact nonzero_rules y hy c t hc
    have hstep := step_takes htakes
    rw [hstep, getint_decimal, List.drop_length]
    rfl

/-! ## Characters -/

/-- Digits before a delimiter end where the digits do. -/
theorem hex_taken {w rest t : Bytes} (hrest : Delimited rest) (ht : t <+: w ++ rest) (hhex : ∀ c ∈ t, isHex c) :
    t.length ≤ w.length := by
  by_contra hlt
  obtain ⟨v, rfl⟩ := List.prefix_of_prefix_length_le (List.prefix_append w rest) ht (by omega)
  rw [List.prefix_append_right_inj] at ht
  cases v with
  | nil => simp at hlt
  | cons c v =>
    have hc := hhex c (by simp)
    rcases hrest.head ht with rfl | rfl
    · exact absurd hc (by decide)
    · exact absurd hc (by decide)

/-- What a rule takes of a text that starts with `#\`. -/
theorem char_taken {u s : Bytes} (hu : u <+: ch '#' :: ch '\\' :: s) (ht : Taken u) :
    u.length ≤ 2 ∨ ∃ t, u = ch '#' :: ch '\\' :: t ∧ t <+: s ∧ CharText t := by
  cases ht with
  | one c => exact .inl (by simp)
  | @word u h =>
    cases u with
    | nil => exact .inl (by simp)
    | cons c u =>
      obtain ⟨rfl, -⟩ := List.cons_prefix_cons.mp hu
      exact absurd (h _ List.mem_cons_self) (by decide)
  | comment t => exact absurd (List.cons_prefix_cons.mp hu).1 (by decide)
  | constant c => exact .inl (by simp)
  | hex t => exact absurd (List.cons_prefix_cons.mp (List.cons_prefix_cons.mp hu).2).1 (by decide)
  | @char t h => exact .inr ⟨t, rfl, (List.cons_prefix_cons.mp (List.cons_prefix_cons.mp hu).2).2, h⟩

/-- A character before a delimiter ends after one byte. -/
theorem CharText.ascii {c : UInt8} {rest t : Bytes} (h : CharText t) (hc : c ≤ 0x7e) (hrest : Delimited rest)
    (ht : t <+: c :: rest) : t.length ≤ 1 := by
  have hsecond : ∀ {d : UInt8} {u : Bytes}, d :: u <+: rest → d ≠ ch ' ' → d ≠ ch ')' → False := by
    intro d u hu hblank hparen
    exact (hrest.head hu).elim hblank hparen
  cases h with
  | @hex t hhex =>
    have hu := (List.cons_prefix_cons.mp ht).2
    have hle := hex_taken (w := []) hrest hu hhex
    simpa using hle
  | nul => exact (hsecond (List.cons_prefix_cons.mp ht).2 (by decide) (by decide)).elim
  | space => exact (hsecond (List.cons_prefix_cons.mp ht).2 (by decide) (by decide)).elim
  | one d => exact le_refl 1
  | @utf8 d t hd =>
    obtain ⟨rfl, -⟩ := List.cons_prefix_cons.mp ht
    exact absurd (UInt8.le_trans hd hc) (by decide)

theorem getutf8_ascii {c : UInt8} (hc : c ≤ 0x7e) : getutf8 [c] 1 = .token (.char c.toUInt64) .initial := by
  have hle : c.toNat ≤ 0x7e := UInt8.le_iff_toNat_le.mp hc
  have hseq : Unicode.seq c.toNat = [c] := by
    rw [Unicode.seq, if_pos (by omega), UInt8.ofNat_toNat]
  have hrun : Unicode.utf8ToUtf32 [c] 0 = some (.ok (1, c.toNat)) := by
    have hvalid : Unicode.Valid c.toNat := ⟨by omega, by omega⟩
    have hread := Unicode.utf8ToUtf32_seq hvalid [] 0
    rw [hseq] at hread
    exact hread
  have htake : [c].take 1 = [c] := rfl
  rw [getutf8, htake, hrun]
  have hval : UInt64.ofNat c.toNat = c.toUInt64 := by
    rw [← UInt64.toNat_inj]
    simp
  simp only [ne_eq, not_true_eq_false, if_false, hval]

/-- The rules before that for a character as it is take other texts. -/
theorem ascii_rules {c : UInt8} : ∀ y ∈ initialRules.take 10, ¬y.regex.Matches [ch '#', ch '\\', c] := by
  simp only [initialRules, charRules, List.cons_append, List.nil_append, List.take_succ_cons, List.take_zero,
    List.forall_mem_cons, matches_lit_iff, matches_one_iff, matches_many_iff, matches_done_iff, plus]
  simp [text, ch]

/-- A character as it is. -/
theorem step_char {c : UInt8} {rest : Bytes} (hc : c ≤ 0x7e) (hrest : Delimited rest) :
    lexer.step .initial (text ['#', '\\'] ++ c :: rest) = .token (.char c.toUInt64) (.initial, rest) := by
  have hascii : c ≤ 0x7f := UInt8.le_trans hc (by decide)
  have htakes : Rule.Takes (lexer.rules .initial) (ch '#' :: ch '\\' :: c :: rest) (fun t => getutf8 (t.drop 2) 1)
      [ch '#', ch '\\', c] := by
    refine ⟨⟨rest, rfl⟩, List.cons_ne_nil _ _, fun y hy u hu hm => ?_, initialRules.take 10, _, initialRules.drop 11,
      rfl, rfl, ?_, ascii_rules⟩
    · rcases char_taken hu (initialRules_taken y hy u hm) with hle | ⟨t, rfl, ht, hchar⟩
      · exact hle.trans (by simp)
      · have hlen := hchar.ascii hc hrest ht
        exact Nat.succ_le_succ (Nat.succ_le_succ hlen)
    · exact .one rfl (.one rfl (.one (decide_eq_true hascii) .done))
  have hstep := step_takes htakes
  have hval : getutf8 ([ch '#', ch '\\', c].drop 2) 1 = _ := getutf8_ascii hc
  rw [hval] at hstep
  exact hstep

theorem hex_rules {t : Bytes} : ∀ y ∈ initialRules.take 7, ¬y.regex.Matches (ch '#' :: ch '\\' :: ch 'u' :: t) := by
  simp only [initialRules, charRules, List.cons_append, List.nil_append, List.take_succ_cons, List.take_zero,
    List.forall_mem_cons, matches_lit_iff, matches_one_iff, matches_many_iff, matches_done_iff, plus]
  simp [text, ch]

/-- The code of a character. -/
theorem step_hexText {rest : Bytes} (i : UInt64) (hrest : Delimited rest) :
    lexer.step .initial (text ['#', '\\', 'u'] ++ hexText i.toNat ++ rest) = .token (.char i) (.initial, rest) := by
  obtain ⟨d, ds, hds⟩ := List.exists_cons_of_ne_nil (hexText_ne_nil i.toNat)
  have hhex := isHex_hexText i.toNat
  have htakes : Rule.Takes (lexer.rules .initial) (text ['#', '\\', 'u'] ++ hexText i.toNat ++ rest)
      (fun t => getint (t.drop 3) (base 16) .char) (text ['#', '\\', 'u'] ++ hexText i.toNat) := by
    refine ⟨List.prefix_append _ _, List.cons_ne_nil _ _, fun y hy u hu hm => ?_, initialRules.take 7, _,
      initialRules.drop 8, rfl, rfl, ?_, hex_rules⟩
    · rcases char_taken hu (initialRules_taken y hy u hm) with hle | ⟨t, rfl, ht, hchar⟩
      · exact hle.trans (by simp [text])
      · cases hchar with
        | hex h =>
          have hlen := hex_taken hrest (List.cons_prefix_cons.mp ht).2 h
          simpa [text] using hlen
        | nul => exact absurd (List.cons_prefix_cons.mp ht).1 (by decide)
        | space => exact absurd (List.cons_prefix_cons.mp ht).1 (by decide)
        | one c => simp [text]
        | utf8 t hc =>
          obtain ⟨rfl, -⟩ := List.cons_prefix_cons.mp ht
          exact absurd hc (by decide)
    · rw [hds] at hhex ⊢
      obtain ⟨hd, hds⟩ := List.forall_mem_cons.mp hhex
      exact .one rfl (.one rfl (.one rfl (.one hd (.many hds))))
  have hstep := step_takes htakes
  have hdrop : (text ['#', '\\', 'u'] ++ hexText i.toNat).drop 3 = hexText i.toNat := rfl
  rw [hstep, hdrop, getint_hexText, List.drop_left]
  rfl

/-! ## Strings -/

/-- A byte that stands in a string as it is. -/
def Unescaped (c : UInt8) : Prop := escapeByte c = [c]

instance (c : UInt8) : Decidable (Unescaped c) := inferInstanceAs (Decidable (escapeByte c = [c]))

/-- A byte that the rule for the inside of a string takes. -/
def inString (c : UInt8) : Bool := c ≠ ch '\\' && c ≠ ch '"'

theorem inString_unescaped {c : UInt8} (h : Unescaped c) : inString c :=
  forall_byte (P := fun c => Unescaped c → inString c = true) (by decide +kernel) c h

theorem escaped_cases {c : UInt8} (h : ¬Unescaped c) :
    ∃ e d, escapeByte c = [ch '\\', e] ∧ d = c ∧ ∀ buf s, lexer.step (.string buf) (ch '\\' :: e :: s) =
      .more (.string (buf ++ [d]), s) := by
  by_cases h1 : c = 10
  · subst h1
    exact ⟨ch 'n', 10, rfl, rfl, fun _ _ => rfl⟩
  by_cases h2 : c = 9
  · subst h2
    exact ⟨ch 't', 9, rfl, rfl, fun _ _ => rfl⟩
  by_cases h3 : c = 13
  · subst h3
    exact ⟨ch 'r', 13, rfl, rfl, fun _ _ => rfl⟩
  by_cases h4 : c = 8
  · subst h4
    exact ⟨ch 'b', 8, rfl, rfl, fun _ _ => rfl⟩
  by_cases h5 : c = 12
  · subst h5
    exact ⟨ch 'f', 12, rfl, rfl, fun _ _ => rfl⟩
  by_cases h6 : c = ch '\\'
  · subst h6
    exact ⟨ch '\\', ch '\\', rfl, rfl, fun _ _ => rfl⟩
  by_cases h7 : c = ch '"'
  · subst h7
    exact ⟨ch '"', ch '"', rfl, rfl, fun _ _ => rfl⟩
  · refine absurd ?_ h
    rw [Unescaped, escapeByte, if_neg h1, if_neg h2, if_neg h3, if_neg h4, if_neg h5, if_neg h6, if_neg h7]

/-- What the rules take of a text that starts inside of a string. -/
theorem stringRules_taken {buf : Bytes} : ∀ y ∈ stringRules buf, ∀ c u, inString c → y.regex.Matches (c :: u) →
    ∀ d ∈ c :: u, inString d := by
  have hch : ∀ {c d : UInt8} {t u : Bytes}, inString c → c :: t = d :: u → inString d = false → False := by
    intro c d t u hc heq hd
    rw [(List.cons.inj heq).1, hd] at hc
    cases hc
  simp only [stringRules, escapeRule, List.forall_mem_cons, matches_lit_iff, matches_many_iff]
  refine ⟨?_, ?_, ?_, ?_, ?_, ?_, ?_, ?_, ?_, ?_, List.forall_mem_nil _⟩
  · rintro c u hc ⟨_, heq, -⟩
    exact (hch hc heq rfl).elim
  · exact fun c u _ h => h
  all_goals
    rintro c u hc ⟨_, heq, -⟩
    exact (hch hc heq rfl).elim

/-- The bytes up to the next escape. -/
theorem step_run {buf w rest : Bytes} (hne : w ≠ []) (hw : ∀ c ∈ w, inString c) (hnul : (0 : UInt8) ∉ w)
    (hrest : ∀ c t, rest = c :: t → inString c = false) :
    lexer.step (.string buf) (w ++ rest) = .more (.string (buf ++ w), rest) := by
  obtain ⟨c, w, rfl⟩ := List.exists_cons_of_ne_nil hne
  have hc := hw c List.mem_cons_self
  have htakes : Rule.Takes (lexer.rules (.string buf)) (c :: w ++ rest)
      (fun t => .more (.string (buf ++ (cstr t).1))) (c :: w) := by
    refine ⟨List.prefix_append _ _, hne, fun y hy u hu hm => ?_, (stringRules buf).take 1, _,
      (stringRules buf).drop 2, rfl, rfl, .many hw, ?_⟩
    · cases u with
      | nil => exact Nat.zero_le _
      | cons b u =>
        obtain rfl := (List.cons_prefix_cons.mp hu).1
        have hall := stringRules_taken y hy b u hc hm
        by_contra hlt
        obtain ⟨v, hv⟩ := List.prefix_of_prefix_length_le (List.prefix_append _ rest) hu (by omega)
        rw [← hv, List.prefix_append_right_inj] at hu
        cases v with
        | nil => simp [← hv] at hlt
        | cons e v =>
          have he := hall e (by rw [← hv]; simp)
          obtain ⟨t, ht⟩ := hu
          rw [hrest e _ ht.symm] at he
          cases he
    · intro y hy hm
      obtain rfl := List.mem_singleton.mp hy
      obtain ⟨t, heq, -⟩ := matches_lit_iff.mp hm
      rw [(List.cons.inj heq).1] at hc
      cases hc
  have hstep := step_takes htakes
  rw [cstr_of_notMem hnul, List.drop_left] at hstep
  exact hstep

theorem escapeStr_append (s t : Bytes) : escapeStr (s ++ t) = escapeStr s ++ escapeStr t := List.flatMap_append

theorem escapeStr_unescaped {w : Bytes} (h : ∀ c ∈ w, Unescaped c) : escapeStr w = w := by
  induction w with
  | nil => rfl
  | cons c w ih =>
    obtain ⟨hc, hw⟩ := List.forall_mem_cons.mp h
    show escapeByte c ++ escapeStr w = c :: w
    rw [hc, ih hw]
    rfl

/-- A string is a run of bytes that stand as they are, and then its end or an escape. -/
theorem escapeStr_split (s rest : Bytes) : ∃ w s', s = w ++ s' ∧ (∀ c ∈ w, Unescaped c) ∧
    (∃ d u, escapeStr s' ++ ch '"' :: rest = d :: u ∧ inString d = false) ∧
    ∀ c t, s = c :: t → Unescaped c → w ≠ [] := by
  refine ⟨s.takeWhile (fun c => decide (Unescaped c)), s.dropWhile (fun c => decide (Unescaped c)),
    (List.takeWhile_append_dropWhile).symm, fun c hc => by simpa using List.mem_takeWhile_imp hc, ?_, ?_⟩
  · cases hdrop : s.dropWhile (fun c => decide (Unescaped c)) with
    | nil => exact ⟨_, _, rfl, rfl⟩
    | cons d s' =>
      have hd : ¬Unescaped d := by
        have hhead := List.head_dropWhile_not (fun c => decide (Unescaped c)) (l := s) (by simp [hdrop])
        simpa [hdrop] using hhead
      obtain ⟨e, d', he, -, -⟩ := escaped_cases hd
      refine ⟨ch '\\', e :: (escapeStr s' ++ ch '"' :: rest), ?_, rfl⟩
      show escapeByte d ++ escapeStr s' ++ ch '"' :: rest = _
      rw [he]
      rfl
  · rintro c t rfl hc
    rw [List.takeWhile_cons_of_pos (by simpa using hc)]
    exact List.cons_ne_nil _ _

/-- The inside of a string, and its end. -/
theorem lexes_escapeStr (s buf rest : Bytes) (hs : (0 : UInt8) ∉ s) :
    lexer.Lexes (.string buf) (escapeStr s ++ ch '"' :: rest) [.string (cstr (buf ++ s ++ [0]))] .initial rest := by
  induction hn : s.length using Nat.strong_induction_on generalizing s buf with
  | _ n ih =>
    cases s with
    | nil =>
      rw [List.append_nil]
      exact .token rfl .refl
    | cons c t =>
      have ht : (0 : UInt8) ∉ t := fun h => hs (List.mem_cons_of_mem _ h)
      have hlt : t.length < n := by
        rw [← hn]
        exact Nat.lt_succ_self _
      by_cases hc : Unescaped c
      · obtain ⟨w, s', hsplit, hw, hrest, hne⟩ := escapeStr_split (c :: t) rest
        have hne := hne c t rfl hc
        have hpos := List.length_pos_of_ne_nil hne
        rw [hsplit] at hs hn ⊢
        have hnul : (0 : UInt8) ∉ w := fun h => hs (List.mem_append_left _ h)
        have hnul' : (0 : UInt8) ∉ s' := fun h => hs (List.mem_append_right _ h)
        have hlt : s'.length < n := by
          rw [List.length_append] at hn
          omega
        obtain ⟨d, u, hnext, hd⟩ := hrest
        have hhead : ∀ e v, escapeStr s' ++ ch '"' :: rest = e :: v → inString e = false := by
          intro e v hev
          rw [← (List.cons.inj (hnext.symm.trans hev)).1]
          exact hd
        have hrun := ih s'.length hlt s' (buf ++ w) hnul' rfl
        rw [escapeStr_append, escapeStr_unescaped hw, List.append_assoc w, ← List.append_assoc buf]
        exact .more (step_run hne (fun c hc => inString_unescaped (hw c hc)) hnul hhead) hrun
      · obtain ⟨e, d, he, rfl, hstep⟩ := escaped_cases hc
        have hrun := ih t.length hlt t (buf ++ [d]) ht rfl
        rw [List.append_assoc buf] at hrun
        have htext : escapeStr (d :: t) ++ ch '"' :: rest = ch '\\' :: e :: (escapeStr t ++ ch '"' :: rest) := by
          show escapeByte d ++ escapeStr t ++ ch '"' :: rest = _
          rw [he]
          rfl
        rw [htext]
        exact .more (hstep buf _) hrun

/-- A string as it is dumped. -/
theorem lexes_str (s : CStr) (rest : Bytes) :
    lexer.Lexes .initial ([ch '"'] ++ escapeStr s.1 ++ [ch '"'] ++ rest) [.string s] .initial rest := by
  have hrun := lexes_escapeStr s.1 [] rest s.2
  have hval : cstr ([] ++ s.1 ++ [0]) = s := by
    rw [List.nil_append, cstr_append_nul, cstr_val]
  rw [hval] at hrun
  have htext : [ch '"'] ++ escapeStr s.1 ++ [ch '"'] ++ rest = ch '"' :: (escapeStr s.1 ++ ch '"' :: rest) := by
    simp
  rw [htext]
  exact .more rfl hrun

/-! ## Symbols -/

theorem getint_token {t : Bytes} {b : Base} {okretval : UInt64 → Token} {tok : Token} {m : Mode}
    (h : getint t b okretval = .token tok m) : ∃ i, tok = okretval i := by
  rw [getint] at h
  split at h
  · cases h
    exact ⟨_, rfl⟩
  · cases h

theorem getutf8_token {t : Bytes} {n : Nat} {tok : Token} {m : Mode} (h : getutf8 t n = .token tok m) :
    ∃ i, tok = .char i := by
  rw [getutf8] at h
  split at h
  · split_ifs at h
    cases h
    exact ⟨_, rfl⟩
  · cases h

theorem punct_token (c : UInt8) : punct c = .lparen ∨ punct c = .rparen ∨ punct c = .dot ∨ punct c = .quote := by
  rw [punct]
  split_ifs
  · exact .inl rfl
  · exact .inr (.inl rfl)
  · exact .inr (.inr (.inl rfl))
  · exact .inr (.inr (.inr rfl))

/-- The rule that returns symbols. -/
theorem symbol_rule {s : CStr} {m : Mode} {w : Bytes} : ∀ y ∈ initialRules, y.action w = .token (.symbol s) m →
    y.regex.Matches w → (∀ c ∈ w, symbolChar c) ∧ s = cstr w ∧ m = .initial := by
  have hint : ∀ {b : Base} {t : Bytes} {okretval : UInt64 → Token}, getint t b okretval = .token (.symbol s) m →
      (∀ i, okretval i ≠ .symbol s) → False := by
    intro b t okretval h hne
    obtain ⟨i, hi⟩ := getint_token h
    exact hne i hi.symm
  have hutf8 : ∀ {t : Bytes} {n : Nat}, getutf8 t n = .token (.symbol s) m → False := by
    intro t n h
    obtain ⟨i, hi⟩ := getutf8_token h
    cases hi
  have hnumber : ∀ i, Token.number i ≠ .symbol s := by
    intro i hi
    cases hi
  have hchar : ∀ i, Token.char i ≠ .symbol s := by
    intro i hi
    cases hi
  simp only [initialRules, charRules, List.cons_append, List.nil_append, List.forall_mem_cons]
  refine ⟨by rintro ⟨⟩, ?_, by rintro ⟨⟩, by rintro ⟨⟩, ?_, ?_, ?_, ?_, by rintro ⟨⟩, by rintro ⟨⟩, ?_,
    by rintro ⟨⟩, ?_, ?_, ?_, ?_, ?_, by rintro ⟨⟩, by rintro ⟨⟩, by rintro ⟨⟩, by rintro ⟨⟩,
    List.forall_mem_nil _⟩
  · intro h _
    injection h with h
    rcases punct_token (w.headD 0) with hp | hp | hp | hp <;> rw [hp] at h <;> cases h
  · exact fun h _ => (hint h hnumber).elim
  · exact fun h _ => (hint h hnumber).elim
  · exact fun h _ => (hint h hnumber).elim
  · exact fun h _ => (hint h hchar).elim
  · exact fun h _ => (hutf8 h).elim
  · exact fun h _ => (hutf8 h).elim
  · exact fun h _ => (hutf8 h).elim
  · exact fun h _ => (hutf8 h).elim
  · exact fun h _ => (hint h hnumber).elim
  · intro h hm
    injection h with hs hmode
    injection hs with hs
    refine ⟨?_, hs.symm, hmode.symm⟩
    rcases matches_opt_iff.mp hm with ht | ⟨b, t, rfl, hb, ht⟩
    · exact matches_many_iff.mp ht
    · exact List.forall_mem_cons.mpr ⟨by rw [symbolChar, hb, Bool.true_or], matches_many_iff.mp ht⟩

/-- Inside of a string there are no symbols. -/
theorem string_rule {buf : Bytes} {t : Token} {m : Mode} {w : Bytes} : ∀ y ∈ stringRules buf,
    y.action w = .token t m → ∃ s, t = .string s := by
  have hescape : ∀ {u : Bytes}, unicodeEscape buf u = .token t m → False := by
    intro u h
    rw [unicodeEscape] at h
    split at h
    · split at h
      · cases h
      · cases h
    · cases h
  simp only [stringRules, List.forall_mem_cons]
  refine ⟨fun h => ?_, by rintro ⟨⟩, by rintro ⟨⟩, by rintro ⟨⟩, by rintro ⟨⟩, by rintro ⟨⟩, by rintro ⟨⟩,
    by rintro ⟨⟩, by rintro ⟨⟩, fun h => (hescape h).elim, List.forall_mem_nil _⟩
  injection h with h
  exact ⟨_, h.symm⟩

/-- A symbol that has been read is a symbol on its own, and the text that it has been read from. -/
theorem step_symbol {m : Mode} {str : Bytes} {s : CStr} {q : Mode × Bytes}
    (h : lexer.step m str = .token (.symbol s) q) : IsSymbol s ∧ Word s.1 ∧ s.1 <+: str := by
  rcases step_cases lexer m str with ⟨b, t, -, ho⟩ | ⟨-, ho⟩ | ⟨action, w, ⟨hpre, hne, hmax, hrule⟩, ho⟩
  · cases ho.symm.trans h
  · cases ho.symm.trans h
  · rw [h] at ho
    cases ha : action w with
    | token t m' =>
      rw [ha] at ho
      injection ho with ht _
      subst ht
      obtain ⟨l, y, r, hrules, rfl, hm, hl⟩ := hrule
      have hy : y ∈ lexer.rules m := by
        rw [hrules]
        exact List.mem_append_right _ List.mem_cons_self
      cases m with
      | string buf =>
        obtain ⟨s', hs'⟩ := string_rule y hy ha
        cases hs'
      | initial =>
        obtain ⟨hw, rfl, rfl⟩ := symbol_rule y hy ha hm
        have hnul : (0 : UInt8) ∉ w := fun hmem => absurd (hw 0 hmem) (by decide)
        have hval := cstr_of_notMem hnul
        have htakes : Rule.Takes (lexer.rules .initial) w y.action w :=
          ⟨List.prefix_refl w, hne, fun z hz u hu hzm => hmax z hz u (hu.trans hpre) hzm, l, y, r, hrules, rfl, hm, hl⟩
        have hstep := step_takes htakes
        rw [ha, List.drop_length] at hstep
        rw [IsSymbol, hval]
        exact ⟨hstep, ⟨hne, hw⟩, hpre⟩
    | more m' =>
      rw [ha] at ho
      cases ho
    | stop r =>
      rw [ha] at ho
      cases ho

/-- A symbol is a word. -/
theorem IsSymbol.word {s : CStr} (h : IsSymbol s) : Word s.1 := (step_symbol h).2.1

/-! ## Atoms -/

/-- The token of an atom. -/
def atomToken : Val → Option Token
  | .null => some .vnull
  | .int i => some (.number i)
  | .str s => some (.string s)
  | .sym s => some (.symbol s)
  | .bool b => some (.bool b)
  | .char c => some (.char c)
  | _ => none

theorem atom_atomToken {v : Val} {t : Token} (h : atomToken v = some t) : atom t = some v := by
  cases v <;> cases h <;> rfl

theorem isprintArg_toInt (c : UInt64) : (isprintArg c).toInt = ((c.toNat % 2 ^ 32 : Nat) : Int).bmod (2 ^ 32) := by
  show c.toUInt32.toBitVec.toInt = _
  rw [BitVec.toInt_eq_toNat_bmod]
  simp

theorem isprint_iff (c : UInt64) : isprint (isprintArg c) ↔ 0x20 ≤ c.toNat % 2 ^ 32 ∧ c.toNat % 2 ^ 32 ≤ 0x7e := by
  have hlow : (0x20 : Int32).toInt = 32 := by decide
  have hhigh : (0x7e : Int32).toInt = 126 := by decide
  rw [isprint, Bool.and_eq_true, decide_eq_true_eq, decide_eq_true_eq, Int32.le_iff_toInt_le, Int32.le_iff_toInt_le,
    isprintArg_toInt, hlow, hhigh, Int.bmod_def]
  split_ifs <;> omega

/-- What is printed for a character that is taken to be printable. -/
theorem step_dumpChar_printable {c : UInt64} {rest : Bytes} (h0 : c ≠ 0) (h32 : c ≠ 32)
    (hc : 0x20 ≤ c.toNat % 2 ^ 32 ∧ c.toNat % 2 ^ 32 ≤ 0x7e) (hrest : Delimited rest) :
    lexer.step .initial (dumpChar c ++ rest) = .token (.char c.toUInt8.toUInt64) (.initial, rest) := by
  have htext : dumpChar c = text ['#', '\\'] ++ [c.toUInt8] := by
    rw [dumpChar, if_neg h0, if_neg h32, if_pos ((isprint_iff c).mpr hc)]
  have hle : c.toUInt8 ≤ 0x7e := by
    rw [UInt8.le_iff_toNat_le]
    show c.toNat % 2 ^ 8 ≤ 0x7e
    omega
  rw [htext, List.append_assoc]
  exact step_char hle hrest

/-- A character as it is dumped. -/
theorem step_dumpChar {c : UInt64} {rest : Bytes} (hc : Printed c) (hrest : Delimited rest) :
    lexer.step .initial (dumpChar c ++ rest) = .token (.char c) (.initial, rest) := by
  by_cases h0 : c = 0
  · subst h0
    rfl
  by_cases h32 : c = 32
  · subst h32
    rfl
  by_cases hp : 0x20 ≤ c.toNat % 2 ^ 32 ∧ c.toNat % 2 ^ 32 ≤ 0x7e
  · have hlt : c.toNat < 2 ^ 32 := hc.resolve_right (not_not_intro hp)
    have hval : c.toUInt8.toUInt64 = c := by
      rw [← UInt64.toNat_inj]
      show c.toNat % 2 ^ 8 = c.toNat
      omega
    rw [step_dumpChar_printable h0 h32 hp hrest, hval]
  · have htext : dumpChar c = text ['#', '\\', 'u'] ++ hexText c.toNat := by
      rw [dumpChar, if_neg h0, if_neg h32, if_neg (mt (isprint_iff c).mp hp)]
    rw [htext]
    exact step_hexText c hrest

/-- An atom is read before a delimiter as it is dumped. -/
theorem lexes_atom {v : Val} (hv : Readable v) (hc : Codepoints v) {t : Token} (ht : atomToken v = some t) :
    ∃ str, dumpAtom v = .ok str ∧ ∀ rest, Delimited rest → lexer.Lexes .initial (str ++ rest) [t] .initial rest := by
  cases hv with
  | null =>
    cases ht
    exact ⟨_, rfl, fun rest _ => .token rfl .refl⟩
  | int i =>
    cases ht
    exact ⟨_, rfl, fun rest hrest => .token (step_word (word_decimal _) hrest (step_decimal i)) .refl⟩
  | str s =>
    cases ht
    exact ⟨_, rfl, fun rest _ => lexes_str s rest⟩
  | sym h =>
    cases ht
    exact ⟨_, rfl, fun rest hrest => .token (step_word h.word hrest h) .refl⟩
  | bool b =>
    cases ht
    cases b with
    | true => exact ⟨_, rfl, fun rest _ => .token rfl .refl⟩
    | false => exact ⟨_, rfl, fun rest _ => .token rfl .refl⟩
  | char c =>
    cases ht
    have hle : c.toNat ≤ 0x10ffff := hc
    exact ⟨_, rfl, fun rest hrest => .token (step_dumpChar (.inl (by omega)) hrest) .refl⟩
  | nil => cases ht
  | cons hh ht' => cases ht

end Libjeffpc.SexprText
