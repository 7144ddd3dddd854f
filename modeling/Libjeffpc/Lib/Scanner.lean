import Mathlib.Data.List.MinMax
import Mathlib.Data.List.TakeWhile

/-!
# Scanners

A scanner as flex makes it from a list of rules: at each place the rule that matches the longest text is
taken, and the first one of these. Where no rule matches, one character is passed over. The rules
depend on a mode, which an action can change.
-/

namespace Libjeffpc.Lib

variable {α A M T S : Type}

/-! ## Patterns -/

/-- A character class, once or at most once, before another pattern; or any number of times. -/
inductive Regex (α : Type) where
  | done
  | one (p : α → Bool) (r : Regex α)
  | opt (p : α → Bool) (r : Regex α)
  | many (p : α → Bool)

namespace Regex

variable {p : α → Bool} {r : Regex α} {b : α} {s t u : List α} {n : Nat}

/-- A text that a pattern describes. -/
inductive Matches : Regex α → List α → Prop
  | done : Matches done []
  | one {p : α → Bool} {r : Regex α} {b : α} {t : List α} (hb : p b) (ht : Matches r t) : Matches (one p r) (b :: t)
  | skip {p : α → Bool} {r : Regex α} {t : List α} (ht : Matches r t) : Matches (opt p r) t
  | take {p : α → Bool} {r : Regex α} {b : α} {t : List α} (hb : p b) (ht : Matches r t) : Matches (opt p r) (b :: t)
  | many {p : α → Bool} {t : List α} (ht : ∀ b ∈ t, p b) : Matches (many p) t

/-- The length of the longest text at the start that a pattern describes. -/
def longest : Regex α → List α → Option Nat
  | done, _ => some 0
  | one _ _, [] => none
  | one p r, b :: s => if p b then (longest r s).map (· + 1) else none
  | opt _ r, [] => longest r []
  | opt p r, b :: s =>
    match if p b then longest r s else none with
    | none => longest r (b :: s)
    | some n => some (max (n + 1) ((longest r (b :: s)).getD 0))
  | many p, s => some (s.takeWhile p).length

/-- A literal text before a pattern. -/
def lit [DecidableEq α] (l : List α) (r : Regex α) : Regex α := l.foldr (fun c r => one (· = c) r) r

/-- A class, once or more. -/
def plus (p : α → Bool) : Regex α := one p (many p)

/-- A class, a number of times. -/
def rep (p : α → Bool) : Nat → Regex α → Regex α
  | 0, r => r
  | n + 1, r => one p (rep p n r)

theorem longest_matches (hn : longest r s = some n) : n ≤ s.length ∧ Matches r (s.take n) := by
  induction r generalizing s n with
  | done =>
    obtain rfl : 0 = n := Option.some.inj hn
    exact ⟨Nat.zero_le _, .done⟩
  | one p r ih =>
    cases s with
    | nil => cases hn
    | cons b s =>
      rw [longest] at hn
      split_ifs at hn with hb
      obtain ⟨m, hm, rfl⟩ := Option.map_eq_some_iff.mp hn
      obtain ⟨hle, ht⟩ := ih hm
      exact ⟨Nat.succ_le_succ hle, .one hb ht⟩
  | opt p r ih =>
    cases s with
    | nil =>
      obtain ⟨hle, ht⟩ := ih (s := []) hn
      exact ⟨hle, .skip ht⟩
    | cons b s =>
      rw [longest] at hn
      split at hn
      · obtain ⟨hle, ht⟩ := ih hn
        exact ⟨hle, .skip ht⟩
      · rename_i m hm
        split_ifs at hm with hb
        obtain ⟨hle, ht⟩ := ih hm
        have htake : m + 1 ≤ (b :: s).length ∧ Matches (opt p r) ((b :: s).take (m + 1)) :=
          ⟨Nat.succ_le_succ hle, .take hb ht⟩
        obtain rfl := Option.some.inj hn
        rcases hskip : longest r (b :: s) with _ | k
        · exact htake
        · obtain ⟨hle', ht'⟩ := ih hskip
          rcases Nat.le_total k (m + 1) with hk | hk
          · rw [Option.getD_some, Nat.max_eq_left hk]
            exact htake
          · rw [Option.getD_some, Nat.max_eq_right hk]
            exact ⟨hle', .skip ht'⟩
  | many p =>
    obtain rfl := Option.some.inj hn
    refine ⟨(List.takeWhile_prefix p).length_le, .many fun b hb => ?_⟩
    rw [← List.prefix_iff_eq_take.mp (List.takeWhile_prefix p)] at hb
    exact List.mem_takeWhile_imp hb

theorem le_longest (hu : u <+: s) (hm : Matches r u) : ∃ n, longest r s = some n ∧ u.length ≤ n := by
  induction hm generalizing s with
  | done => exact ⟨0, rfl, le_rfl⟩
  | @one p r b t hb ht ih =>
    obtain ⟨v, rfl⟩ := hu
    obtain ⟨n, hn, hle⟩ := ih (List.prefix_append t v)
    refine ⟨n + 1, ?_, Nat.succ_le_succ hle⟩
    rw [List.cons_append, longest, if_pos hb, hn]
    rfl
  | @skip p r t ht ih =>
    obtain ⟨n, hn, hle⟩ := ih hu
    cases s with
    | nil => exact ⟨n, hn, hle⟩
    | cons b s =>
      rw [longest]
      split
      · exact ⟨n, hn, hle⟩
      · refine ⟨_, rfl, ?_⟩
        rw [hn]
        exact hle.trans (le_max_right _ _)
  | @take p r b t hb ht ih =>
    obtain ⟨v, rfl⟩ := hu
    obtain ⟨n, hn, hle⟩ := ih (List.prefix_append t v)
    refine ⟨max (n + 1) ((longest r (b :: (t ++ v))).getD 0), ?_, (Nat.succ_le_succ hle).trans (le_max_left _ _)⟩
    rw [List.cons_append, longest, if_pos hb, hn]
  | @many p t ht =>
    obtain ⟨v, rfl⟩ := hu
    refine ⟨_, rfl, ?_⟩
    rw [List.takeWhile_append_of_pos ht, List.length_append]
    exact Nat.le_add_right _ _

end Regex

/-! ## Rules -/

structure Rule (α A : Type) where
  regex : Regex α
  action : A

namespace Rule

variable {rules l r : List (Rule α A)} {x : Rule α A} {a : A} {s w : List α} {n : Nat}

/-- The length of the text that a rule takes, 0 if it does not match. -/
def len (s : List α) (x : Rule α A) : Nat := (x.regex.longest s).getD 0

/-- The action of the rule to take, and the length of its text. -/
def pick (rules : List (Rule α A)) (s : List α) : Option (A × Nat) :=
  match rules.argmax (len s) with
  | none => none
  | some x => if len s x = 0 then none else some (x.action, len s x)

theorem len_le (s : List α) (x : Rule α A) : x.len s ≤ s.length := by
  rw [len]
  rcases h : x.regex.longest s with _ | n
  · exact Nat.zero_le _
  · exact (Regex.longest_matches h).1

theorem len_matches (h : x.len s ≠ 0) : x.regex.Matches (s.take (x.len s)) := by
  rw [len] at h ⊢
  rcases hn : x.regex.longest s with _ | n
  · rw [hn] at h
    exact absurd rfl h
  · exact (Regex.longest_matches hn).2

theorem le_len (hw : w <+: s) (hm : x.regex.Matches w) : w.length ≤ x.len s := by
  obtain ⟨n, hn, hle⟩ := Regex.le_longest hw hm
  rw [len, hn]
  exact hle

theorem argmax_first {f : A → Nat} {l r : List A} {x : A} (hl : ∀ y ∈ l, f y < f x) (hr : ∀ y ∈ r, f y ≤ f x) :
    (l ++ x :: r).argmax f = some x := by
  induction l with
  | nil =>
    rw [List.nil_append, List.argmax_cons]
    rcases hmax : r.argmax f with _ | y
    · rfl
    · exact if_neg (Nat.not_lt.mpr (hr y (List.argmax_mem hmax)))
  | cons y l ih =>
    rw [List.cons_append, List.argmax_cons, ih fun z hz => hl z (List.mem_cons_of_mem _ hz)]
    exact if_pos (hl y List.mem_cons_self)

/-- The rules before the one that is taken match less, and those after it not more. -/
theorem argmax_split {f : A → Nat} {rules : List A} {x : A} (h : rules.argmax f = some x) :
    ∃ l r, rules = l ++ x :: r ∧ (∀ y ∈ l, f y < f x) ∧ ∀ y ∈ r, f y ≤ f x := by
  induction rules with
  | nil => cases h
  | cons y rules ih =>
    rw [List.argmax_cons] at h
    rcases hmax : rules.argmax f with _ | z
    · rw [hmax] at h
      obtain rfl := Option.some.inj h
      obtain rfl := List.argmax_eq_none.mp hmax
      exact ⟨[], [], rfl, nofun, nofun⟩
    · rw [hmax] at h
      replace h : (if f y < f z then some z else some y) = some x := h
      split_ifs at h with hlt
      · obtain rfl := Option.some.inj h
        obtain ⟨l, r, rfl, hl, hr⟩ := ih hmax
        exact ⟨y :: l, r, rfl, List.forall_mem_cons.mpr ⟨hlt, hl⟩, hr⟩
      · obtain rfl := Option.some.inj h
        exact ⟨[], rules, rfl, nofun, fun w hw => (List.le_of_mem_argmax hw hmax).trans (Nat.not_lt.mp hlt)⟩

theorem pick_first (hx : x.len s = n) (hn : 0 < n) (hl : ∀ y ∈ l, y.len s < n) (hr : ∀ y ∈ r, y.len s ≤ n) :
    pick (l ++ x :: r) s = some (x.action, n) := by
  subst hx
  rw [pick, argmax_first hl hr]
  exact if_neg (Nat.pos_iff_ne_zero.mp hn)

theorem pick_split (h : pick rules s = some (a, n)) : ∃ l x r, rules = l ++ x :: r ∧ x.action = a ∧ x.len s = n ∧
    0 < n ∧ (∀ y ∈ l, y.len s < n) ∧ ∀ y ∈ r, y.len s ≤ n := by
  rw [pick] at h
  split at h
  · cases h
  · rename_i x hmax
    split_ifs at h with hzero
    obtain ⟨rfl, rfl⟩ := Prod.mk.inj (Option.some.inj h)
    obtain ⟨l, r, hrules, hl, hr⟩ := argmax_split hmax
    exact ⟨l, x, r, hrules, rfl, rfl, Nat.pos_of_ne_zero hzero, hl, hr⟩

/-- A rule takes a text at the start: it is not empty, no rule matches a longer one, and no rule before it
matches the same one. -/
def Takes (rules : List (Rule α A)) (s : List α) (a : A) (w : List α) : Prop :=
  w <+: s ∧ w ≠ [] ∧ (∀ y ∈ rules, ∀ u, u <+: s → y.regex.Matches u → u.length ≤ w.length) ∧
    ∃ l x r, rules = l ++ x :: r ∧ x.action = a ∧ x.regex.Matches w ∧ ∀ y ∈ l, ¬ y.regex.Matches w

theorem pick_iff : pick rules s = some (a, n) ↔ ∃ w, w.length = n ∧ Takes rules s a w := by
  constructor
  · intro h
    obtain ⟨l, x, r, hrules, ha, hx, hn, hl, hr⟩ := pick_split h
    have hle : n ≤ s.length := hx ▸ len_le s x
    have hlen : (s.take n).length = n := by rw [List.length_take, Nat.min_eq_left hle]
    refine ⟨s.take n, hlen, List.take_prefix n s, fun hnil => ?_, fun y hy u hu hm => ?_, l, x, r, hrules, ha, ?_,
      fun y hy hm => ?_⟩
    · rw [hnil] at hlen
      exact hn.ne hlen
    · rw [hlen]
      refine (le_len hu hm).trans ?_
      rw [hrules, List.mem_append, List.mem_cons] at hy
      rcases hy with hy | rfl | hy
      · exact (hl y hy).le
      · exact hx.le
      · exact hr y hy
    · have hm := len_matches (x := x) (s := s) (by omega)
      rwa [hx] at hm
    · have := le_len (List.take_prefix n s) hm
      have := hl y hy
      omega
  · rintro ⟨w, rfl, hw, hne, hmax, l, x, r, rfl, rfl, hm, hl⟩
    have hlen : ∀ y ∈ l ++ x :: r, y.len s ≤ w.length := by
      intro y hy
      by_cases hzero : y.len s = 0
      · rw [hzero]
        exact Nat.zero_le _
      · have hle := hmax y hy _ (List.take_prefix _ s) (len_matches hzero)
        rwa [List.length_take, Nat.min_eq_left (len_le s y)] at hle
    refine pick_first ((hlen x (by simp)).antisymm (le_len hw hm)) (List.length_pos_of_ne_nil hne) (fun y hy => ?_)
      fun y hy => hlen y (by simp [hy])
    refine lt_of_le_of_ne (hlen y (by simp [hy])) fun heq => hl y hy ?_
    have hy' := len_matches (x := y) (s := s) (heq ▸ (List.length_pos_of_ne_nil hne).ne')
    rwa [heq, ← List.prefix_iff_eq_take.mp hw] at hy'

end Rule

/-! ## Scanners -/

/-- What an action does: it returns a token, or goes on, or ends the scan. -/
inductive Outcome (M T S : Type) where
  | token (t : T) (m : M)
  | more (m : M)
  | stop (r : S)

def Outcome.map {N : Type} (f : M → N) : Outcome M T S → Outcome N T S
  | token t m => .token t (f m)
  | more m => .more (f m)
  | stop r => .stop r

/-- The mode after an action. -/
def Outcome.next : Outcome M T S → Option M
  | token _ m => some m
  | more m => some m
  | stop _ => none

theorem Outcome.next_map {N : Type} (f : M → N) (o : Outcome M T S) : (o.map f).next = o.next.map f := by
  cases o <;> rfl

/-- The rules of each mode, and how a scan ends where the text does. -/
structure Scanner (α M T S : Type) where
  rules : M → List (Rule α (List α → Outcome M T S))
  atEnd : M → S

namespace Scanner

variable {sc : Scanner α M T S} {m m' m'' : M} {s s' s'' : List α} {t : T} {ts ts' : List T} {r : S}

/-- One rule, with the text after what it takes. -/
def step (sc : Scanner α M T S) (m : M) : List α → Outcome (M × List α) T S
  | [] => .stop (sc.atEnd m)
  | b :: s =>
    match Rule.pick (sc.rules m) (b :: s) with
    | none => .more (m, s)
    | some (action, n) => (action ((b :: s).take n)).map fun m' => (m', (b :: s).drop n)

theorem step_pick {b : α} {action : List α → Outcome M T S} {n : Nat}
    (h : Rule.pick (sc.rules m) (b :: s) = some (action, n)) :
    sc.step m (b :: s) = (action ((b :: s).take n)).map fun m' => (m', (b :: s).drop n) := by
  rw [step, h]

/-- A step passes over a character, or it is at the end, or a rule takes a text. -/
theorem step_cases (sc : Scanner α M T S) (m : M) (s : List α) :
    (∃ b t, s = b :: t ∧ sc.step m s = .more (m, t)) ∨ (s = [] ∧ sc.step m s = .stop (sc.atEnd m)) ∨
      ∃ action w, Rule.Takes (sc.rules m) s action w ∧
        sc.step m s = (action w).map fun m' => (m', s.drop w.length) := by
  cases s with
  | nil => exact .inr (.inl ⟨rfl, rfl⟩)
  | cons b s =>
    rw [step]
    rcases hp : Rule.pick (sc.rules m) (b :: s) with _ | ⟨action, n⟩
    · exact .inl ⟨b, s, rfl, rfl⟩
    · obtain ⟨w, rfl, htakes⟩ := Rule.pick_iff.mp hp
      refine .inr (.inr ⟨action, w, htakes, ?_⟩)
      show (action ((b :: s).take w.length)).map _ = _
      rw [← List.prefix_iff_eq_take.mp htakes.1]

theorem step_suffix (h : (sc.step m s).next = some (m', s')) : s' <:+ s ∧ s'.length < s.length := by
  rcases step_cases sc m s with ⟨b, t, rfl, ho⟩ | ⟨-, ho⟩ | ⟨action, w, ⟨hw, hne, -⟩, ho⟩
  · rw [ho] at h
    cases h
    exact ⟨List.suffix_cons b s', Nat.lt_succ_self _⟩
  · rw [ho] at h
    cases h
  · rw [ho, Outcome.next_map] at h
    obtain ⟨m₁, -, heq⟩ := Option.map_eq_some_iff.mp h
    cases heq
    have hpos := List.length_pos_of_ne_nil hne
    have hle := hw.length_le
    refine ⟨List.drop_suffix _ s, ?_⟩
    rw [List.length_drop]
    omega

/-- All tokens, and how the scan ends. -/
def scan (sc : Scanner α M T S) (m : M) (s : List α) : List T × S :=
  match _hstep : sc.step m s with
  | .token t (m', s') => (t :: (sc.scan m' s').1, (sc.scan m' s').2)
  | .more (m', s') => sc.scan m' s'
  | .stop r => ([], r)
termination_by s.length
decreasing_by
  · exact (step_suffix (congrArg Outcome.next _hstep)).2
  · exact (step_suffix (congrArg Outcome.next _hstep)).2

theorem scan_token (h : sc.step m s = .token t (m', s')) :
    sc.scan m s = (t :: (sc.scan m' s').1, (sc.scan m' s').2) := by
  rw [scan]
  split
  · rename_i heq
    cases h.symm.trans heq
    rfl
  · rename_i heq
    cases h.symm.trans heq
  · rename_i heq
    cases h.symm.trans heq

theorem scan_more (h : sc.step m s = .more (m', s')) : sc.scan m s = sc.scan m' s' := by
  rw [scan]
  split
  · rename_i heq
    cases h.symm.trans heq
  · rename_i heq
    cases h.symm.trans heq
    rfl
  · rename_i heq
    cases h.symm.trans heq

theorem scan_stop (h : sc.step m s = .stop r) : sc.scan m s = ([], r) := by
  rw [scan]
  split
  · rename_i heq
    cases h.symm.trans heq
  · rename_i heq
    cases h.symm.trans heq
  · rename_i heq
    cases h.symm.trans heq
    rfl

/-- The tokens of a text before the rest of it. -/
inductive Lexes (sc : Scanner α M T S) : M → List α → List T → M → List α → Prop
  | refl {m : M} {s : List α} : Lexes sc m s [] m s
  | token {m m' m'' : M} {s s' s'' : List α} {t : T} {ts : List T} (h : sc.step m s = .token t (m', s'))
      (hs : Lexes sc m' s' ts m'' s'') : Lexes sc m s (t :: ts) m'' s''
  | more {m m' m'' : M} {s s' s'' : List α} {ts : List T} (h : sc.step m s = .more (m', s'))
      (hs : Lexes sc m' s' ts m'' s'') : Lexes sc m s ts m'' s''

theorem Lexes.append (h : Lexes sc m s ts m' s') (h' : Lexes sc m' s' ts' m'' s'') :
    Lexes sc m s (ts ++ ts') m'' s'' := by
  induction h with
  | refl => exact h'
  | token h _ ih => exact .token h (ih h')
  | more h _ ih => exact .more h (ih h')

theorem Lexes.scan (h : Lexes sc m s ts m' s') :
    sc.scan m s = (ts ++ (sc.scan m' s').1, (sc.scan m' s').2) := by
  induction h with
  | refl => rfl
  | token h _ ih => rw [scan_token h, ih, List.cons_append]
  | more h _ ih => rw [scan_more h, ih]

theorem scan_lexes (sc : Scanner α M T S) (m : M) (s : List α) :
    ∃ m' s', Lexes sc m s (sc.scan m s).1 m' s' ∧ sc.step m' s' = .stop (sc.scan m s).2 := by
  induction hn : s.length using Nat.strong_induction_on generalizing m s with
  | _ n ih =>
    cases h : sc.step m s with
    | token t q =>
      obtain ⟨m₁, s₁⟩ := q
      have hlt := (step_suffix (congrArg Outcome.next h)).2
      obtain ⟨m', s', hs, hstop⟩ := ih _ (hn ▸ hlt) m₁ s₁ rfl
      rw [scan_token h]
      exact ⟨m', s', .token h hs, hstop⟩
    | more q =>
      obtain ⟨m₁, s₁⟩ := q
      have hlt := (step_suffix (congrArg Outcome.next h)).2
      obtain ⟨m', s', hs, hstop⟩ := ih _ (hn ▸ hlt) m₁ s₁ rfl
      rw [scan_more h]
      exact ⟨m', s', .more h hs, hstop⟩
    | stop r =>
      rw [scan_stop h]
      exact ⟨m, s, .refl, h⟩

theorem scan_eq_iff : sc.scan m s = (ts, r) ↔ ∃ m' s', Lexes sc m s ts m' s' ∧ sc.step m' s' = .stop r := by
  constructor
  · intro h
    have hs := scan_lexes sc m s
    rwa [h] at hs
  · rintro ⟨m', s', hs, hstop⟩
    rw [hs.scan, scan_stop hstop, List.append_nil]

/-- Every token comes from a place in the text. -/
theorem Lexes.mem (h : Lexes sc m s ts m' s') (ht : t ∈ ts) :
    ∃ m₁ s₁ q, s₁ <:+ s ∧ sc.step m₁ s₁ = .token t q := by
  induction h with
  | refl => cases ht
  | @token m m₁ m₂ s s₁ s₂ t' ts hstep _ ih =>
    rcases List.mem_cons.mp ht with rfl | ht
    · exact ⟨m, s, _, List.suffix_rfl, hstep⟩
    · obtain ⟨m₃, s₃, q, hs, hq⟩ := ih ht
      exact ⟨m₃, s₃, q, hs.trans (step_suffix (congrArg Outcome.next hstep)).1, hq⟩
  | @more m m₁ m₂ s s₁ s₂ ts hstep _ ih =>
    obtain ⟨m₃, s₃, q, hs, hq⟩ := ih ht
    exact ⟨m₃, s₃, q, hs.trans (step_suffix (congrArg Outcome.next hstep)).1, hq⟩

theorem mem_scan (ht : t ∈ (sc.scan m s).1) : ∃ m₁ s₁ q, s₁ <:+ s ∧ sc.step m₁ s₁ = .token t q := by
  obtain ⟨m', s', hs, -⟩ := scan_lexes sc m s
  exact hs.mem ht

end Scanner

end Libjeffpc.Lib
