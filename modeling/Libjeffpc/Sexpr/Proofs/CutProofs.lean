import Libjeffpc.Sexpr.Proofs.LexemeProofs

/-!
# Texts that are cut

What is left of a list has parentheses that are open, whereas what is left of an atom closes none.
-/

namespace Libjeffpc.SexprText

open Lib Lib.Scanner Lib.Regex

variable {str str' p : Bytes} {ts ts' : List Token} {v : Val}

/-! ## Texts before delimiters -/

/-- The text is split into these tokens before a delimiter. -/
def LexesAs (str : Bytes) (ts : List Token) : Prop :=
  ∀ rest, Delimited rest → lexer.Lexes .initial (str ++ rest) ts .initial rest

theorem LexesAs.splits (h : LexesAs str ts) : Splits str ts := by
  have hs := h [] (.inl rfl)
  rwa [List.append_nil] at hs

theorem LexesAs.blank (h : LexesAs str ts) (h' : LexesAs str' ts') :
    LexesAs (str ++ text [' '] ++ str') (ts ++ ts') := by
  intro rest hrest
  have htext : str ++ text [' '] ++ str' ++ rest = str ++ ch ' ' :: (str' ++ rest) := by simp [text]
  rw [htext]
  exact (h _ (.inr ⟨_, .inl rfl⟩)).append (.more rfl (h' rest hrest))

theorem LexesAs.dot (h : LexesAs str ts) (h' : LexesAs str' ts') :
    LexesAs (str ++ text [' ', '.', ' '] ++ str') (ts ++ .dot :: ts') := by
  intro rest hrest
  have htext : str ++ text [' ', '.', ' '] ++ str' ++ rest =
      str ++ ch ' ' :: ch '.' :: ch ' ' :: (str' ++ rest) := by simp [text]
  rw [htext]
  exact (h _ (.inr ⟨_, .inl rfl⟩)).append (.more rfl (.token rfl (.more rfl (h' rest hrest))))

theorem LexesAs.parens (h : LexesAs str ts) :
    LexesAs (text ['('] ++ str ++ text [')']) (.lparen :: (ts ++ [.rparen])) := by
  intro rest _
  have htext : text ['('] ++ str ++ text [')'] ++ rest = ch '(' :: (str ++ ch ')' :: rest) := by simp [text]
  rw [htext]
  exact .token (step_lparen _) ((h _ (.inr ⟨_, .inr rfl⟩)).append (.token (step_rparen _) .refl))

/-! ## Depth -/

def tokenDepth : Token → Int
  | .lparen => 1
  | .rparen => -1
  | _ => 0

/-- How many parentheses are open. -/
def depth (ts : List Token) : Int := (ts.map tokenDepth).sum

@[simp] theorem depth_nil : depth [] = 0 := rfl

@[simp] theorem depth_cons (t : Token) (ts : List Token) : depth (t :: ts) = tokenDepth t + depth ts := List.sum_cons

@[simp] theorem depth_append (ts ts' : List Token) : depth (ts ++ ts') = depth ts + depth ts' := by
  rw [depth, List.map_append, List.sum_append]
  rfl

theorem depth_atom {t : Token} (h : atom t = some v) : tokenDepth t = 0 := by
  cases t <;> first | rfl | cases h

mutual

theorem Tok.depth {ts : List Token} {v : Val} : Tok ts v → depth ts = 0
  | .atom h => by rw [depth_cons, depth_atom h]; rfl
  | .nil => rfl
  | .list h => by simp [h.depth, tokenDepth]
  | .pair h h' => by simp [h.depth, h'.depth, tokenDepth]
  | .quote h => by simp [h.depth, tokenDepth]

theorem TokList.depth {ts : List Token} {v : Val} : TokList ts v → SexprText.depth ts = 0
  | .cons h h' => by simp [h.depth, h'.depth]
  | .one h => h.depth

end

theorem Tok.ne_nil (h : Tok ts v) : ts ≠ [] := by
  cases h <;> exact List.cons_ne_nil _ _

/-! ## Texts that are cut -/

/-- However the text is cut, no parenthesis is closed that is not open. -/
def Opens (str : Bytes) : Prop := ∀ p, p <+: str → p ≠ str → 0 ≤ depth (lexer.scan .initial p).1

theorem scan_nil : lexer.scan .initial [] = ([], .eof) := scan_stop rfl

theorem prefix_append_cases {α : Type} {p a b : List α} (h : p <+: a ++ b) :
    (p <+: a ∧ p ≠ a) ∨ ∃ q, p = a ++ q ∧ q <+: b := by
  rcases List.prefix_or_prefix_of_prefix h (List.prefix_append a b) with hp | ⟨q, rfl⟩
  · by_cases heq : p = a
    · exact .inr ⟨[], by rw [heq, List.append_nil], List.nil_prefix⟩
    · exact .inl ⟨hp, heq⟩
  · exact .inr ⟨q, rfl, (List.prefix_append_right_inj a).mp h⟩

/-- A text that is split, and then another text that starts with a delimiter. -/
theorem Opens.append (ho : Opens str) (h : LexesAs str ts) (hd : depth ts = 0) (ho' : Opens str')
    (hdelim : Delimited str') : Opens (str ++ str') := by
  intro p hp hne
  rcases prefix_append_cases hp with ⟨hp, hne⟩ | ⟨q, rfl, hq⟩
  · exact ho p hp hne
  · have hrest : Delimited q := by
      cases q with
      | nil => exact .inl rfl
      | cons c q =>
        rcases hdelim.head hq with rfl | rfl
        · exact .inr ⟨q, .inl rfl⟩
        · exact .inr ⟨q, .inr rfl⟩
    rw [(h q hrest).scan, depth_append, hd, Int.zero_add]
    exact ho' q hq fun heq => hne (by rw [heq])

theorem Opens.blank (ho : Opens str) : Opens (ch ' ' :: str) := by
  intro p hp hne
  cases p with
  | nil => rw [scan_nil]; rfl
  | cons c p =>
    obtain ⟨rfl, hq⟩ := List.cons_prefix_cons.mp hp
    rw [scan_more rfl]
    exact ho p hq fun heq => hne (by rw [heq])

theorem Opens.dot (ho : Opens str) : Opens (ch '.' :: str) := by
  intro p hp hne
  cases p with
  | nil => rw [scan_nil]; rfl
  | cons c p =>
    obtain ⟨rfl, hq⟩ := List.cons_prefix_cons.mp hp
    have hstep : lexer.step .initial (ch '.' :: p) = .token .dot (.initial, p) := rfl
    have hrest := ho p hq fun heq => hne (by rw [heq])
    rw [scan_token hstep, depth_cons]
    show 0 ≤ 0 + depth (lexer.scan .initial p).1
    omega

/-- A list that is cut is open. -/
def OpenList (str : Bytes) : Prop := ∀ p, p <+: str → p ≠ str → p ≠ [] → 0 < depth (lexer.scan .initial p).1

theorem OpenList.opens (h : OpenList str) : Opens str := by
  intro p hp hne
  by_cases hp0 : p = []
  · rw [hp0, scan_nil]
    rfl
  · exact Int.le_of_lt (h p hp hne hp0)

theorem Opens.parens (ho : Opens str) (h : LexesAs str ts) (hd : depth ts = 0) :
    OpenList (text ['('] ++ str ++ text [')']) := by
  intro p hp hne hp0
  obtain ⟨c, p, rfl⟩ := List.exists_cons_of_ne_nil hp0
  have htext : text ['('] ++ str ++ text [')'] = ch '(' :: (str ++ [ch ')']) := rfl
  rw [htext] at hp hne
  obtain ⟨rfl, hin⟩ := List.cons_prefix_cons.mp hp
  rw [scan_token (step_lparen p), depth_cons]
  have hrest : 0 ≤ depth (lexer.scan .initial p).1 := by
    rcases prefix_append_cases hin with ⟨hp, hne'⟩ | ⟨q, rfl, hq⟩
    · exact ho p hp hne'
    · cases q with
      | nil =>
        rw [(h [] (.inl rfl)).scan, depth_append, hd, scan_nil]
        rfl
      | cons d q =>
        obtain ⟨rfl, hnil⟩ := List.cons_prefix_cons.mp hq
        rw [List.prefix_nil.mp hnil] at hne
        exact absurd rfl hne
  show 0 < 1 + depth (lexer.scan .initial p).1
  omega

/-! ## Atoms that are cut -/

theorem punct_rparen {c : UInt8} (h : punct c = .rparen) : c = ch ')' := by
  rw [punct] at h
  split_ifs at h with h1 h2 h3
  exact h2

/-- The rule that returns a closing parenthesis. -/
theorem rparen_rule {m : Mode} {w : Bytes} : ∀ y ∈ initialRules, y.action w = .token .rparen m →
    y.regex.Matches w → ch ')' ∈ w := by
  have hint : ∀ {b : Base} {t : Bytes} {okretval : UInt64 → Token}, getint t b okretval = .token .rparen m →
      (∀ i, okretval i ≠ .rparen) → False := by
    intro b t okretval h hne
    obtain ⟨i, hi⟩ := getint_token h
    exact hne i hi.symm
  have hutf8 : ∀ {t : Bytes} {n : Nat}, getutf8 t n = .token .rparen m → False := by
    intro t n h
    obtain ⟨i, hi⟩ := getutf8_token h
    cases hi
  have hnumber : ∀ i, Token.number i ≠ .rparen := by
    intro i hi
    cases hi
  have hchar : ∀ i, Token.char i ≠ .rparen := by
    intro i hi
    cases hi
  simp only [initialRules, charRules, List.cons_append, List.nil_append, List.forall_mem_cons]
  refine ⟨by rintro ⟨⟩, ?_, by rintro ⟨⟩, by rintro ⟨⟩, ?_, ?_, ?_, ?_, by rintro ⟨⟩, by rintro ⟨⟩, ?_,
    by rintro ⟨⟩, ?_, ?_, ?_, ?_, by rintro ⟨⟩, by rintro ⟨⟩, by rintro ⟨⟩, by rintro ⟨⟩, by rintro ⟨⟩,
    List.forall_mem_nil _⟩
  · intro h hm
    obtain ⟨b, t, rfl, -, -⟩ := matches_one_iff.mp hm
    injection h with h
    rw [← punct_rparen h]
    exact List.mem_cons_self
  · exact fun h _ => (hint h hnumber).elim
  · exact fun h _ => (hint h hnumber).elim
  · exact fun h _ => (hint h hnumber).elim
  · exact fun h _ => (hint h hchar).elim
  · exact fun h _ => (hutf8 h).elim
  · exact fun h _ => (hutf8 h).elim
  · exact fun h _ => (hutf8 h).elim
  · exact fun h _ => (hutf8 h).elim
  · exact fun h _ => (hint h hnumber).elim

theorem step_rparen_mem {m : Mode} {q : Mode × Bytes} (h : lexer.step m str = .token .rparen q) : ch ')' ∈ str := by
  rcases step_cases lexer m str with ⟨b, t, -, ho⟩ | ⟨-, ho⟩ | ⟨action, w, ⟨hpre, -, -, l, y, r, hrules, rfl, hm, -⟩, ho⟩
  · cases ho.symm.trans h
  · cases ho.symm.trans h
  · rw [h] at ho
    cases ha : y.action w with
    | token t m' =>
      rw [ha] at ho
      injection ho with ht _
      subst ht
      have hy : y ∈ lexer.rules m := by
        rw [hrules]
        exact List.mem_append_right _ List.mem_cons_self
      cases m with
      | string buf =>
        obtain ⟨s, hs⟩ := string_rule y hy ha
        cases hs
      | initial => exact hpre.subset (rparen_rule y hy ha hm)
    | more m' =>
      rw [ha] at ho
      cases ho
    | stop r =>
      rw [ha] at ho
      cases ho

theorem depth_nonneg (h : Token.rparen ∉ ts) : 0 ≤ depth ts := by
  induction ts with
  | nil => exact le_refl 0
  | cons t ts ih =>
    rw [List.mem_cons, not_or] at h
    have hrest := ih h.2
    have ht : 0 ≤ tokenDepth t := by
      cases t with
      | rparen => exact absurd rfl h.1
      | lparen => exact Int.one_nonneg
      | _ => exact le_refl 0
    rw [depth_cons]
    omega

/-- What is cut of a text without a closing parenthesis before its end. -/
theorem opens_of_notMem (h : ch ')' ∉ str.dropLast) : Opens str := by
  rintro p ⟨t, rfl⟩ hne
  refine depth_nonneg fun hmem => h ?_
  obtain ⟨m, s, q, hs, hstep⟩ := mem_scan hmem
  have ht : t ≠ [] := by
    rintro rfl
    exact hne (List.append_nil p).symm
  rw [List.dropLast_append_of_ne_nil ht]
  exact List.mem_append_left _ (hs.subset (step_rparen_mem hstep))

theorem opens_of_all {P : UInt8 → Bool} (h : ∀ c ∈ str, P c) (hp : P (ch ')') = false) : Opens str := by
  refine opens_of_notMem fun hmem => ?_
  have hc := h _ (List.mem_of_mem_dropLast hmem)
  rw [hp] at hc
  cases hc

/-- The inside of a string that is cut. -/
theorem scan_cut_string (s buf p : Bytes) (hs : (0 : UInt8) ∉ s) (hp : p <+: escapeStr s) :
    (lexer.scan (.string buf) p).1 = [] := by
  have hempty : ∀ buf, (lexer.scan (.string buf) []).1 = [] := fun buf => by rw [scan_stop (step_end buf)]
  induction hn : s.length using Nat.strong_induction_on generalizing s buf p with
  | _ n ih =>
    cases s with
    | nil =>
      rw [List.prefix_nil.mp hp]
      exact hempty buf
    | cons c t =>
      have hlt : t.length < n := by
        rw [← hn]
        exact Nat.lt_succ_self _
      by_cases hc : Unescaped c
      · obtain ⟨w, s', hsplit, hw, ⟨d, u, hnext, hd⟩, hne⟩ := escapeStr_split (c :: t) []
        have hne := hne c t rfl hc
        have hpos := List.length_pos_of_ne_nil hne
        rw [hsplit] at hs hn hp
        have hnul : (0 : UInt8) ∉ w := fun h => hs (List.mem_append_left _ h)
        have hnul' : (0 : UInt8) ∉ s' := fun h => hs (List.mem_append_right _ h)
        have hlt : s'.length < n := by
          rw [List.length_append] at hn
          omega
        rw [escapeStr_append, escapeStr_unescaped hw] at hp
        rcases prefix_append_cases hp with ⟨hpw, -⟩ | ⟨q, rfl, hq⟩
        · by_cases hp0 : p = []
          · rw [hp0]
            exact hempty buf
          · have hstep : lexer.step (.string buf) (p ++ []) = .more (.string (buf ++ p), []) :=
              step_run hp0 (fun c hc => inString_unescaped (hw c (hpw.subset hc)))
                (fun h => hnul (hpw.subset h)) (by simp)
            rw [List.append_nil] at hstep
            rw [scan_more hstep]
            exact hempty _
        · have hrest : ∀ e v, q = e :: v → inString e = false := by
            rintro e v rfl
            have hev := hq.trans (List.prefix_append (escapeStr s') [ch '"'])
            rw [hnext] at hev
            rw [(List.cons_prefix_cons.mp hev).1]
            exact hd
          rw [scan_more (step_run hne (fun c hc => inString_unescaped (hw c hc)) hnul hrest)]
          exact ih s'.length hlt s' (buf ++ w) q hnul' hq rfl
      · obtain ⟨e, d, he, rfl, hstep⟩ := escaped_cases hc
        have hsplit : escapeStr (d :: t) = [ch '\\', e] ++ escapeStr t := by
          show escapeByte d ++ escapeStr t = _
          rw [he]
        rw [hsplit] at hp
        rcases prefix_append_cases hp with ⟨hpe, hne⟩ | ⟨q, rfl, hq⟩
        · cases p with
          | nil => exact hempty buf
          | cons b q =>
            cases q with
            | nil =>
              obtain ⟨rfl, -⟩ := List.cons_prefix_cons.mp hpe
              rw [scan_more rfl]
              exact hempty buf
            | cons b' q => exact absurd (hpe.eq_of_length_le (by simp)) hne
        · have ht : (0 : UInt8) ∉ t := fun h => hs (List.mem_cons_of_mem _ h)
          rw [List.cons_append, List.cons_append, List.nil_append, scan_more (hstep buf q)]
          exact ih t.length hlt t (buf ++ [d]) q ht hq rfl

/-- A string that is cut has no tokens. -/
theorem scan_cut_str {s : CStr} (hp : p <+: [ch '"'] ++ escapeStr s.1 ++ [ch '"'])
    (hne : p ≠ [ch '"'] ++ escapeStr s.1 ++ [ch '"']) : (lexer.scan .initial p).1 = [] := by
  cases p with
  | nil => rw [scan_nil]
  | cons c p =>
    have htext : [ch '"'] ++ escapeStr s.1 ++ [ch '"'] = ch '"' :: (escapeStr s.1 ++ [ch '"']) := rfl
    rw [htext] at hp hne
    obtain ⟨rfl, hin⟩ := List.cons_prefix_cons.mp hp
    have hstep : lexer.step .initial (ch '"' :: p) = .more (.string [], p) := rfl
    rw [scan_more hstep]
    rcases prefix_append_cases hin with ⟨hcut, -⟩ | ⟨q, rfl, hq⟩
    · exact scan_cut_string s.1 [] p s.2 hcut
    · cases q with
      | nil =>
        rw [List.append_nil]
        exact scan_cut_string s.1 [] _ s.2 (List.prefix_refl _)
      | cons d q =>
        obtain ⟨rfl, hnil⟩ := List.cons_prefix_cons.mp hq
        rw [List.prefix_nil.mp hnil] at hne
        exact absurd rfl hne

theorem opens_dumpChar (c : UInt64) : Opens (dumpChar c) := by
  rw [dumpChar]
  split_ifs
  · exact opens_of_notMem (by decide)
  · exact opens_of_notMem (by decide)
  · exact opens_of_notMem (by simp [text, ch])
  · refine opens_of_notMem fun hmem => ?_
    rcases List.mem_append.mp (List.mem_of_mem_dropLast hmem) with hc | hc
    · exact absurd hc (by decide)
    · exact absurd (isHex_hexText _ _ hc) (by decide)

theorem opens_atom {t : Token} (hv : Readable v) (ht : atomToken v = some t) (h : dumpAtom v = .ok str) :
    Opens str := by
  cases hv with
  | null =>
    cases h
    exact opens_of_notMem (by decide)
  | int i =>
    cases h
    exact opens_of_all (isDigit_decimal i.toNat) (by decide)
  | str s =>
    cases h
    intro p hp hne
    rw [scan_cut_str hp hne]
    rfl
  | sym hs =>
    cases h
    exact opens_of_all hs.word.2 (by decide)
  | bool b =>
    cases h
    cases b <;> exact opens_of_notMem (by decide)
  | char c =>
    cases h
    exact opens_dumpChar c
  | nil => cases ht
  | cons _ _ => cases ht

end Libjeffpc.SexprText
