import Libjeffpc.Int.Str2uint

/-!
# String to integer conversion

What a conversion returns is said with the parts of its text that `strtoull` sees. The text up to the
first terminator is the number that was converted, unless the terminator is also before the digits.
-/

namespace Libjeffpc.Int

open Lib

/-! ## The conversion -/

/-- What `strtoull` returns for a number below 2^64. -/
def scanValue (base : Base) (p : Scan) : Nat :=
  if p.sign = [ch '-'] then (2 ^ 64 - numeral base p.digits) % 2 ^ 64 else numeral base p.digits

/-- A text starts with a minus sign. -/
theorem head_minus (base : Base) (s : Bytes) :
    s.headD 0 = ch '-' ↔ (scan base s).space = [] ∧ (scan base s).sign = [ch '-'] := by
  cases s with
  | nil => simp [scan, scanSign, ch]
  | cons c s =>
    have hspace : (scan base (c :: s)).space = (c :: s).takeWhile isspace := rfl
    have hsign : (scan base (c :: s)).sign = (scanSign ((c :: s).dropWhile isspace)).1 := rfl
    rw [hspace, hsign, List.headD_cons]
    constructor
    · rintro rfl
      exact ⟨rfl, rfl⟩
    · rintro ⟨hnil, hminus⟩
      have hc : ¬isspace c = true := by
        intro hc
        rw [List.takeWhile_cons_of_pos hc] at hnil
        cases hnil
      rw [List.dropWhile_cons_of_neg hc, scanSign] at hminus
      split_ifs at hminus
      exact (List.cons.inj hminus).1

variable {imax : Nat} {s : CStr} {base : Base} {terminator : UInt8}

theorem strToInt_none (h : (scan base s.1).digits = []) : (strToInt imax s base terminator).1 ≠ .ok () := by
  rw [strToInt, strtoull]
  simp only [if_pos h]
  split_ifs <;> exact nofun

theorem strToInt_eq (h : (scan base s.1).digits ≠ []) : strToInt imax s base terminator =
    if s.1.headD 0 = ch '-' then (.error .ERANGE, 0)
    else if 2 ^ 64 ≤ numeral base (scan base s.1).digits then (.error .ERANGE, 0)
    else if (scan base s.1).rest.headD 0 ≠ terminator then (.error .EINVAL, 0)
    else if scanValue base (scan base s.1) > imax then (.error .ERANGE, 0)
    else (.ok (), scanValue base (scan base s.1)) := by
  have hrest : (scan base s.1).rest ≠ s.1 := by
    intro heq
    have hlen := congrArg List.length (scan_append base s.1)
    rw [heq] at hlen
    simp only [List.length_append] at hlen
    have := List.length_pos_iff.mpr h
    omega
  rw [strToInt, strtoull]
  simp only [if_neg h]
  by_cases hbig : 2 ^ 64 ≤ numeral base (scan base s.1).digits
  · simp only [if_pos hbig, if_true]
  · simp only [if_neg hbig, if_neg hrest, Bool.false_eq_true, if_false]
    rfl

/-- The texts that are converted, by their parts. -/
theorem strToInt_ok : (strToInt imax s base terminator).1 = .ok () ↔ (scan base s.1).digits ≠ [] ∧
    numeral base (scan base s.1).digits < 2 ^ 64 ∧ (scan base s.1).rest.headD 0 = terminator ∧
    scanValue base (scan base s.1) ≤ imax ∧
    ¬((scan base s.1).space = [] ∧ (scan base s.1).sign = [ch '-']) := by
  by_cases h : (scan base s.1).digits = []
  · exact ⟨fun hok => absurd hok (strToInt_none h), fun hall => absurd h hall.1⟩
  rw [strToInt_eq h, ← head_minus base s.1]
  split_ifs with h1 h2 h3 h4
  · exact ⟨nofun, fun hall => absurd h1 hall.2.2.2.2⟩
  · exact ⟨nofun, fun hall => absurd hall.2.1 (by omega)⟩
  · exact ⟨nofun, fun hall => absurd hall.2.2.1 h3⟩
  · exact ⟨nofun, fun hall => absurd hall.2.2.2.1 (by omega)⟩
  · exact ⟨fun _ => ⟨h, by omega, not_not.mp h3, by omega, h1⟩, fun _ => rfl⟩

theorem strToInt_value (hok : (strToInt imax s base terminator).1 = .ok ()) :
    (strToInt imax s base terminator).2 = scanValue base (scan base s.1) := by
  have h := (strToInt_ok.mp hok).1
  rw [strToInt_eq h] at hok ⊢
  split_ifs at hok ⊢
  rfl

/-! ## The text before the terminator -/

theorem takeWhile_of_mem {x : UInt8} {a : Bytes} (h : x ∈ a) (b : Bytes) :
    (a ++ b).takeWhile (· ≠ x) = a.takeWhile (· ≠ x) := by
  rw [List.takeWhile_append, if_neg]
  intro hlen
  have heq := (List.takeWhile_prefix (· ≠ x)).eq_of_length hlen
  exact absurd (List.takeWhile_eq_self_iff.mp heq x h) (by simp)

theorem takeWhile_of_notMem {x : UInt8} {a : Bytes} (h : x ∉ a) (b : Bytes) :
    (a ++ b).takeWhile (· ≠ x) = a ++ b.takeWhile (· ≠ x) := by
  refine List.takeWhile_append_of_pos fun c hc => ?_
  simpa using fun heq : c = x => h (heq ▸ hc)

/-- There is no digit before the digits, apart from the one of a prefix. -/
theorem digit_notMem_start {c : UInt8} (hc : c ∈ (scan base s.1).space ++ (scan base s.1).sign) :
    isDigitIn base c = false := by
  rw [← Bool.not_eq_true]
  intro hdigit
  rcases List.mem_append.mp hc with hmem | hmem
  · have hspace := scan_space base s.1 c hmem
    rw [digit_space hdigit] at hspace
    cases hspace
  · have hsign := scan_sign base s.1
    refine digit_sign hdigit ?_
    rcases hsign with hsign | hsign | hsign
    · rw [hsign] at hmem
      cases hmem
    · rw [hsign, List.mem_singleton] at hmem
      exact Or.inl hmem
    · rw [hsign, List.mem_singleton] at hmem
      exact Or.inr hmem

/-- A terminator before the digits leaves no number. -/
theorem not_denotes_start (hmem : terminator ∈ (scan base s.1).space ++ (scan base s.1).sign) {neg : Bool}
    {n : Nat} : ¬Denotes base (s.1.takeWhile (· ≠ terminator)) neg n := by
  intro h
  obtain ⟨c, hc, hdigit⟩ := h.exists_digit
  rw [scan_append base s.1, List.append_assoc, List.append_assoc, takeWhile_of_mem hmem] at hc
  rw [digit_notMem_start ((List.takeWhile_sublist _).mem hc)] at hdigit
  cases hdigit

theorem terminator_digits (hterm : (scan base s.1).rest.headD 0 = terminator) :
    terminator ∉ (scan base s.1).digits := by
  intro hmem
  have hdigit := scan_digits base s.1 _ hmem
  rw [← hterm, scan_rest] at hdigit
  cases hdigit

/-- The text up to a terminator that is not before the digits. -/
theorem text_eq (hterm : (scan base s.1).rest.headD 0 = terminator)
    (hstart : terminator ∉ (scan base s.1).space ++ (scan base s.1).sign)
    (hlead : terminator ∉ (scan base s.1).lead) : s.1.takeWhile (· ≠ terminator) =
      (scan base s.1).space ++ (scan base s.1).sign ++ (scan base s.1).lead ++ (scan base s.1).digits := by
  have hnil : (scan base s.1).rest.takeWhile (· ≠ terminator) = [] := by
    cases hrest : (scan base s.1).rest with
    | nil => rfl
    | cons c l =>
      rw [hrest, List.headD_cons] at hterm
      rw [List.takeWhile_cons_of_neg (by simp [hterm])]
  conv_lhs => rw [scan_append base s.1]
  rw [List.append_assoc, List.append_assoc, takeWhile_of_notMem hstart, takeWhile_of_notMem hlead,
    takeWhile_of_notMem (terminator_digits hterm), hnil, List.append_nil, List.append_assoc,
    List.append_assoc, List.append_assoc]

/-- The text up to a terminator that is the letter of a prefix. -/
theorem text_lead (hterm : (scan base s.1).rest.headD 0 = terminator)
    (hstart : terminator ∉ (scan base s.1).space ++ (scan base s.1).sign)
    (hlead : terminator ∈ (scan base s.1).lead) : s.1.takeWhile (· ≠ terminator) =
      (scan base s.1).space ++ (scan base s.1).sign ++ [] ++ [ch '0'] := by
  have hzero : terminator ≠ ch '0' := by
    intro hz
    have hrest := scan_rest base s.1
    rw [hterm, hz, zero_digit] at hrest
    cases hrest
  have htake : (scan base s.1).lead.takeWhile (· ≠ terminator) = [ch '0'] := by
    rcases scan_lead base s.1 with hnil | ⟨-, hx | hx⟩
    · rw [hnil] at hlead
      cases hlead
    all_goals
      rw [hx, List.mem_cons, List.mem_singleton] at hlead
      rw [hx, hlead.resolve_left hzero]
      decide
  conv_lhs => rw [scan_append base s.1]
  rw [List.append_assoc, List.append_assoc, takeWhile_of_notMem hstart, takeWhile_of_mem hlead, htake,
    List.append_nil]

/-! ## Texts that are misread -/

theorem Width.str2u_eq (w : Width) : w.str2u = strToInt (2 ^ w.bits - 1) := by
  cases w <;> rfl

theorem Width.bits_le (w : Width) : 2 ^ w.bits ≤ 2 ^ 64 := by
  cases w <;> decide

/-- A minus sign is still there. -/
theorem not_denotes_minus {n : Nat} (hminus : (scan base s.1).sign = [ch '-']) :
    ¬Denotes base (s.1.takeWhile (· ≠ terminator)) false n := by
  by_cases hstart : terminator ∈ (scan base s.1).space ++ (scan base s.1).sign
  · exact not_denotes_start hstart
  · intro h
    refine h.no_minus ?_
    rw [scan_append base s.1, List.append_assoc, List.append_assoc, takeWhile_of_notMem hstart, hminus]
    simp

/-- The text up to the letter of a prefix is 0. -/
theorem denotes_zero (hsign : (scan base s.1).sign ≠ [ch '-'])
    (hterm : (scan base s.1).rest.headD 0 = terminator)
    (hstart : terminator ∉ (scan base s.1).space ++ (scan base s.1).sign)
    (hlead : terminator ∈ (scan base s.1).lead) :
    Denotes base (s.1.takeWhile (· ≠ terminator)) false 0 := by
  have hzero : numeral base [ch '0'] = 0 := by
    have hval : alnumValue (ch '0') = some 0 := by decide
    rw [numeral, List.foldl_cons, List.foldl_nil, hval, Nat.zero_mul]
    rfl
  rw [text_lead hterm hstart hlead, ← hzero]
  refine denotes_parts (scan_space base s.1) (scan_plus hsign) (Or.inl rfl) (by simp) ?_
  simpa using zero_digit base

/-- A conversion is right unless the text is one of the misread ones. -/
theorem str2u_converts_iff (w : Width) (base : Base) (terminator : UInt8) (s : CStr) :
    Converts w.bits base (s.1.takeWhile (· ≠ terminator)) (w.str2u s base terminator) ↔
      ¬Misread w.bits base terminator s.1 := by
  have hbits := w.bits_le
  have hpos : 0 < 2 ^ w.bits := Nat.two_pow_pos _
  rw [w.str2u_eq]
  constructor
  · rintro ⟨hconv, -⟩ ⟨hdigits, hterm, hkind⟩
    rcases hkind with ⟨hspace, hminus, hlt, hsmall⟩ | ⟨hsign, hlt, hkind⟩
    · have hok : (strToInt (2 ^ w.bits - 1) s base terminator).1 = .ok () := by
        refine strToInt_ok.mpr ⟨hdigits, hlt, hterm, ?_, fun h => hspace h.1⟩
        rw [scanValue, if_pos hminus]
        omega
      exact not_denotes_minus hminus (hconv hok).1
    · have hok : (strToInt (2 ^ w.bits - 1) s base terminator).1 = .ok () := by
        refine strToInt_ok.mpr ⟨hdigits, hlt.trans_le hbits, hterm, ?_, fun h => hsign h.2⟩
        rw [scanValue, if_neg hsign]
        omega
      have hden := (hconv hok).1
      by_cases hstart : terminator ∈ (scan base s.1).space ++ (scan base s.1).sign
      · exact not_denotes_start hstart hden
      · obtain ⟨hlead, hne⟩ := hkind.resolve_left hstart
        rw [strToInt_value hok, scanValue, if_neg hsign] at hden
        exact hne (hden.unique (denotes_zero hsign hterm hstart hlead)).2
  · intro hmis
    have hconv : (strToInt (2 ^ w.bits - 1) s base terminator).1 = .ok () →
        Denotes base (s.1.takeWhile (· ≠ terminator)) false
            (strToInt (2 ^ w.bits - 1) s base terminator).2 ∧
          (strToInt (2 ^ w.bits - 1) s base terminator).2 < 2 ^ w.bits := by
      intro hok
      obtain ⟨hdigits, hlt, hterm, hle, hhead⟩ := strToInt_ok.mp hok
      rw [strToInt_value hok]
      refine ⟨?_, by omega⟩
      by_cases hminus : (scan base s.1).sign = [ch '-']
      · rw [scanValue, if_pos hminus] at hle
        exact absurd ⟨hdigits, hterm, Or.inl ⟨fun h => hhead ⟨h, hminus⟩, hminus, hlt, by omega⟩⟩ hmis
      rw [scanValue, if_neg hminus] at hle ⊢
      have hkind : ¬(terminator ∈ (scan base s.1).space ++ (scan base s.1).sign ∨
          terminator ∈ (scan base s.1).lead ∧ numeral base (scan base s.1).digits ≠ 0) :=
        fun h => hmis ⟨hdigits, hterm, Or.inr ⟨hminus, by omega, h⟩⟩
      obtain ⟨hstart, hlead⟩ := not_or.mp hkind
      by_cases hmem : terminator ∈ (scan base s.1).lead
      · rw [not_not.mp fun h => hlead ⟨hmem, h⟩]
        exact denotes_zero hminus hterm hstart hmem
      · rw [text_eq hterm hstart hmem]
        exact denotes_parts (scan_space base s.1) (scan_plus hminus) (scan_lead base s.1) hdigits
          (scan_digits base s.1)
    refine ⟨hconv, fun neg n hden hbad hok => ?_⟩
    obtain ⟨hden', hlt⟩ := hconv hok
    obtain ⟨rfl, rfl⟩ := hden.unique hden'
    rcases hbad with hneg | hbig
    · cases hneg
    · omega

/-- `" -5"` is converted to 2^64 - 5. -/
theorem str2u64_negative :
    str2u64Full (cstr (text [' ', '-', '5'])) ⟨10, by decide⟩ 0 = (.ok (), 2 ^ 64 - 5) ∧
      ¬Converts 64 ⟨10, by decide⟩ ((cstr (text [' ', '-', '5'])).1.takeWhile (· ≠ 0))
        (str2u64Full (cstr (text [' ', '-', '5'])) ⟨10, by decide⟩ 0) := by
  have hrun : str2u64Full (cstr (text [' ', '-', '5'])) ⟨10, by decide⟩ 0 = (.ok (), 2 ^ 64 - 5) := by
    decide +kernel
  refine ⟨hrun, fun h => ?_⟩
  rw [hrun] at h
  exact (h.1 rfl).1.no_minus (by decide)

end Libjeffpc.Int
