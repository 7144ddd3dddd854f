import Libjeffpc.Lib.Bits
import Libjeffpc.Lib.Numeral

/-!
# `strtoull`

The conversion of the C library, in the C locale and for a base from 2 to 36: white space, a sign, a
prefix `0x` if the base is 16, and then the longest sequence of digits. A minus sign negates the number
modulo 2^64.
-/

namespace Libjeffpc.Lib

/-- A number base. -/
abbrev Base := { b : Nat // 2 ≤ b ∧ b ≤ 36 }

theorem ten_isBase : 2 ≤ 10 ∧ 10 ≤ 36 := by decide

abbrev ten : Base := ⟨10, ten_isBase⟩

def isspace (c : UInt8) : Bool := c = ch ' ' || (9 ≤ c && c ≤ 13)

/-- The value of a digit or of a letter of either case. -/
def alnumValue (c : UInt8) : Option Nat :=
  if isDigit c then some (digitValue c)
  else if ch 'A' ≤ c && c ≤ ch 'Z' then some (10 + (c - ch 'A').toNat)
  else if ch 'a' ≤ c && c ≤ ch 'z' then some (10 + (c - ch 'a').toNat)
  else none

def isDigitIn (base : Base) (c : UInt8) : Bool := (alnumValue c).any (· < base.1)

/-- The number that digits stand for. -/
def numeral (base : Base) (digits : Bytes) : Nat :=
  digits.foldl (fun n c => n * base.1 + (alnumValue c).getD 0) 0

/-- The parts of a text. -/
structure Scan where
  space : Bytes
  sign : Bytes
  lead : Bytes
  digits : Bytes
  rest : Bytes
  deriving DecidableEq

def scanSign : Bytes → Bytes × Bytes
  | c :: s => if c = ch '+' ∨ c = ch '-' then ([c], s) else ([], c :: s)
  | [] => ([], [])

/-- A prefix is one only if a digit follows. -/
def scanLead (base : Base) : Bytes → Bytes × Bytes
  | z :: x :: d :: s =>
    if base.1 = 16 ∧ z = ch '0' ∧ (x = ch 'x' ∨ x = ch 'X') ∧ isDigitIn base d then ([z, x], d :: s)
    else ([], z :: x :: d :: s)
  | s => ([], s)

def scan (base : Base) (s : Bytes) : Scan :=
  let (sign, s') := scanSign (s.dropWhile isspace)
  let (lead, s') := scanLead base s'
  { space := s.takeWhile isspace, sign, lead
    digits := s'.takeWhile (isDigitIn base), rest := s'.dropWhile (isDigitIn base) }

/-- The number, where the text that is not used starts, and whether `errno` is ERANGE. -/
def strtoull (s : Bytes) (base : Base) : Nat × Bytes × Bool :=
  let p := scan base s
  if p.digits = [] then (0, s, false)
  else
    let n := numeral base p.digits
    if 2 ^ 64 ≤ n then (2 ^ 64 - 1, p.rest, true)
    else (if p.sign = [ch '-'] then (2 ^ 64 - n) % 2 ^ 64 else n, p.rest, false)

/-- A prefix stands before digits in base 16. -/
def IsLead (base : Base) (lead : Bytes) : Prop :=
  lead = [] ∨ base.1 = 16 ∧ (lead = [ch '0', ch 'x'] ∨ lead = [ch '0', ch 'X'])

/-- A text that is a number, with or without a minus sign. -/
structure Denotes (base : Base) (text : Bytes) (neg : Bool) (n : Nat) : Prop where
  parts : ∃ space sign lead digits, text = space ++ sign ++ lead ++ digits ∧
    (∀ c ∈ space, isspace c) ∧
    (if neg then sign = [ch '-'] else sign = [] ∨ sign = [ch '+']) ∧
    IsLead base lead ∧ digits ≠ [] ∧ (∀ c ∈ digits, isDigitIn base c) ∧ n = numeral base digits

/-! ## Characters -/

theorem digit_space {base : Base} {c : UInt8} (h : isDigitIn base c) : isspace c = false := by
  have hall : ∀ c : UInt8, alnumValue c = none ∨ isspace c = false := forall_byte (by decide +kernel)
  rcases hall c with hc | hc
  · simp [isDigitIn, hc] at h
  · exact hc

theorem digit_sign {base : Base} {c : UInt8} (h : isDigitIn base c) : ¬(c = ch '+' ∨ c = ch '-') := by
  have hall : ∀ c : UInt8, alnumValue c = none ∨ ¬(c = ch '+' ∨ c = ch '-') :=
    forall_byte (by decide +kernel)
  rcases hall c with hc | hc
  · simp [isDigitIn, hc] at h
  · exact hc

theorem nul_digit (base : Base) : isDigitIn base 0 = false := rfl

theorem zero_digit (base : Base) : isDigitIn base (ch '0') = true := by
  have hpos := base.2.1
  have hval : alnumValue (ch '0') = some 0 := by decide
  rw [isDigitIn, hval, Option.any_some, decide_eq_true_iff]
  omega

/-- The letter of a prefix is no digit in base 16. -/
theorem x_digit {base : Base} {x : UInt8} (hb : base.1 = 16) (hx : x = ch 'x' ∨ x = ch 'X') :
    isDigitIn base x = false := by
  have hval : alnumValue x = some 33 := by
    rcases hx with rfl | rfl <;> decide
  rw [isDigitIn, hval, hb]
  rfl

/-! ## Parts of a text -/

theorem scanSign_append (s : Bytes) : (scanSign s).1 ++ (scanSign s).2 = s := by
  cases s with
  | nil => rfl
  | cons c s =>
    rw [scanSign]
    split_ifs <;> rfl

theorem scanSign_sign (s : Bytes) :
    (scanSign s).1 = [] ∨ (scanSign s).1 = [ch '+'] ∨ (scanSign s).1 = [ch '-'] := by
  cases s with
  | nil => exact Or.inl rfl
  | cons c s =>
    rw [scanSign]
    split_ifs with h
    · rcases h with rfl | rfl
      · exact Or.inr (Or.inl rfl)
      · exact Or.inr (Or.inr rfl)
    · exact Or.inl rfl

theorem scanLead_append (base : Base) (s : Bytes) : (scanLead base s).1 ++ (scanLead base s).2 = s := by
  rw [scanLead.eq_def]
  split
  · split_ifs <;> rfl
  · rfl

theorem scanLead_lead (base : Base) (s : Bytes) : IsLead base (scanLead base s).1 := by
  rw [scanLead.eq_def]
  split
  · split_ifs with h
    · obtain ⟨hb, rfl, hx, -⟩ := h
      refine Or.inr ⟨hb, ?_⟩
      rcases hx with rfl | rfl
      · exact Or.inl rfl
      · exact Or.inr rfl
    · exact Or.inl rfl
  · exact Or.inl rfl

theorem scan_append (base : Base) (s : Bytes) :
    s = (scan base s).space ++ (scan base s).sign ++ (scan base s).lead ++ (scan base s).digits ++
      (scan base s).rest := by
  have hsign := scanSign_append (s.dropWhile isspace)
  have hlead := scanLead_append base (scanSign (s.dropWhile isspace)).2
  rw [scan]
  simp only [List.append_assoc]
  rw [List.takeWhile_append_dropWhile, hlead, hsign, List.takeWhile_append_dropWhile]

theorem scan_sign (base : Base) (s : Bytes) :
    (scan base s).sign = [] ∨ (scan base s).sign = [ch '+'] ∨ (scan base s).sign = [ch '-'] :=
  scanSign_sign _

theorem scan_plus {base : Base} {s : Bytes} (h : (scan base s).sign ≠ [ch '-']) :
    (scan base s).sign = [] ∨ (scan base s).sign = [ch '+'] := by
  rcases scan_sign base s with hsign | hsign | hsign
  · exact Or.inl hsign
  · exact Or.inr hsign
  · exact absurd hsign h

theorem scan_lead (base : Base) (s : Bytes) : IsLead base (scan base s).lead :=
  scanLead_lead base _

theorem scan_digits (base : Base) (s : Bytes) : ∀ c ∈ (scan base s).digits, isDigitIn base c :=
  fun _ hc => List.mem_takeWhile_imp hc

theorem scan_space (base : Base) (s : Bytes) : ∀ c ∈ (scan base s).space, isspace c :=
  fun _ hc => List.mem_takeWhile_imp hc

/-- The digits end at a character that is none. -/
theorem scan_rest (base : Base) (s : Bytes) : isDigitIn base ((scan base s).rest.headD 0) = false := by
  have hdrop : ∀ l : Bytes, isDigitIn base ((l.dropWhile (isDigitIn base)).headD 0) = false := by
    intro l
    induction l with
    | nil => rfl
    | cons c l ih =>
      rw [List.dropWhile_cons]
      split_ifs with hc
      · exact ih
      · simpa using hc
  exact hdrop _

/-- The parts of a number. -/
theorem scan_parts {base : Base} {space sign lead digits : Bytes} (hspace : ∀ c ∈ space, isspace c)
    (hsign : sign = [] ∨ sign = [ch '+'] ∨ sign = [ch '-']) (hlead : IsLead base lead)
    (hne : digits ≠ []) (hdigits : ∀ c ∈ digits, isDigitIn base c) :
    scan base (space ++ sign ++ lead ++ digits) = ⟨space, sign, lead, digits, []⟩ := by
  obtain ⟨d, ds, rfl⟩ := List.exists_cons_of_ne_nil hne
  have hd := hdigits d List.mem_cons_self
  -- the first character after the white space
  have hhead : ∃ c l, sign ++ lead ++ d :: ds = c :: l ∧ isspace c = false := by
    rcases hsign with rfl | rfl | rfl
    · rcases hlead with rfl | ⟨-, rfl | rfl⟩
      · exact ⟨d, ds, rfl, digit_space hd⟩
      · exact ⟨_, _, rfl, by decide⟩
      · exact ⟨_, _, rfl, by decide⟩
    · exact ⟨_, _, rfl, by decide⟩
    · exact ⟨_, _, rfl, by decide⟩
  obtain ⟨c, l, hcl, hc⟩ := hhead
  have htake : (space ++ sign ++ lead ++ d :: ds).takeWhile isspace = space := by
    rw [List.append_assoc, List.append_assoc, ← List.append_assoc sign, hcl,
      List.takeWhile_append_of_pos hspace, List.takeWhile_cons_of_neg (by simp [hc]), List.append_nil]
  have hdrop : (space ++ sign ++ lead ++ d :: ds).dropWhile isspace = sign ++ lead ++ d :: ds := by
    rw [List.append_assoc, List.append_assoc, ← List.append_assoc sign, hcl,
      List.dropWhile_append_of_pos hspace, List.dropWhile_cons_of_neg (by simp [hc])]
  have hscan : scanSign (sign ++ lead ++ d :: ds) = (sign, lead ++ d :: ds) := by
    rcases hsign with rfl | rfl | rfl
    · rcases hlead with rfl | ⟨-, rfl | rfl⟩
      · exact if_neg (digit_sign hd)
      · rfl
      · rfl
    · rfl
    · rfl
  have hpre : scanLead base (lead ++ d :: ds) = (lead, d :: ds) := by
    rcases hlead with rfl | ⟨hb, rfl | rfl⟩
    · match ds with
      | [] => rfl
      | [x] => rfl
      | x :: e :: s =>
        have hx := hdigits x (by simp)
        refine if_neg ?_
        rintro ⟨hb, -, hx', -⟩
        rw [x_digit hb hx'] at hx
        cases hx
    · exact if_pos ⟨hb, rfl, Or.inl rfl, hd⟩
    · exact if_pos ⟨hb, rfl, Or.inr rfl, hd⟩
  have hall : (d :: ds).takeWhile (isDigitIn base) = d :: ds :=
    List.takeWhile_eq_self_iff.mpr hdigits
  have hnone : (d :: ds).dropWhile (isDigitIn base) = [] :=
    List.dropWhile_eq_nil_iff.mpr hdigits
  rw [scan, htake, hdrop, hscan]
  simp only []
  rw [hpre]
  simp only []
  rw [hall, hnone]

/-! ## Numbers -/

theorem denotes_parts {base : Base} {space sign lead digits : Bytes} (hspace : ∀ c ∈ space, isspace c)
    (hsign : sign = [] ∨ sign = [ch '+']) (hlead : IsLead base lead) (hne : digits ≠ [])
    (hdigits : ∀ c ∈ digits, isDigitIn base c) :
    Denotes base (space ++ sign ++ lead ++ digits) false (numeral base digits) :=
  ⟨space, sign, lead, digits, rfl, hspace, hsign, hlead, hne, hdigits, rfl⟩

/-- A number has one sign and one value. -/
theorem denotes_scan {base : Base} {text : Bytes} {neg : Bool} {n : Nat} (h : Denotes base text neg n) :
    (scan base text).rest = [] ∧ (neg = true ↔ (scan base text).sign = [ch '-']) ∧
      n = numeral base (scan base text).digits := by
  obtain ⟨space, sign, lead, digits, rfl, hspace, hsign, hlead, hne, hdigits, rfl⟩ := h.parts
  cases neg with
  | true =>
    have hsign : sign = [ch '-'] := hsign
    rw [scan_parts hspace (Or.inr (Or.inr hsign)) hlead hne hdigits]
    exact ⟨rfl, ⟨fun _ => hsign, fun _ => rfl⟩, rfl⟩
  | false =>
    have hsign : sign = [] ∨ sign = [ch '+'] := hsign
    rw [scan_parts hspace (hsign.imp_right Or.inl) hlead hne hdigits]
    refine ⟨rfl, ⟨nofun, fun hminus => ?_⟩, rfl⟩
    rcases hsign with rfl | rfl
    · cases hminus
    · exact absurd (List.cons.inj hminus).1 (by decide)

theorem Denotes.unique {base : Base} {text : Bytes} {neg neg' : Bool} {n n' : Nat}
    (h : Denotes base text neg n) (h' : Denotes base text neg' n') : neg = neg' ∧ n = n' := by
  obtain ⟨-, hneg, hn⟩ := denotes_scan h
  obtain ⟨-, hneg', hn'⟩ := denotes_scan h'
  exact ⟨Bool.eq_iff_iff.mpr (hneg.trans hneg'.symm), hn.trans hn'.symm⟩

/-- A number has a digit. -/
theorem Denotes.exists_digit {base : Base} {text : Bytes} {neg : Bool} {n : Nat}
    (h : Denotes base text neg n) : ∃ c ∈ text, isDigitIn base c := by
  obtain ⟨space, sign, lead, digits, rfl, -, -, -, hne, hdigits, -⟩ := h.parts
  obtain ⟨d, ds, rfl⟩ := List.exists_cons_of_ne_nil hne
  exact ⟨d, by simp, hdigits d List.mem_cons_self⟩

theorem Denotes.no_minus {base : Base} {text : Bytes} {n : Nat} (h : Denotes base text false n) :
    ch '-' ∉ text := by
  obtain ⟨space, sign, lead, digits, rfl, hspace, hsign, hlead, -, hdigits, -⟩ := h.parts
  have hsign : sign = [] ∨ sign = [ch '+'] := hsign
  simp only [List.mem_append, not_or]
  refine ⟨⟨⟨fun hmem => ?_, ?_⟩, ?_⟩, fun hmem => ?_⟩
  · exact absurd (hspace _ hmem) (by decide)
  · rcases hsign with rfl | rfl <;> decide
  · rcases hlead with rfl | ⟨-, rfl | rfl⟩ <;> decide
  · exact digit_sign (hdigits _ hmem) (Or.inr rfl)

end Libjeffpc.Lib
