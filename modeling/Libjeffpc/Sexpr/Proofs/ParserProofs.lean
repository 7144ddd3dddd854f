import Libjeffpc.Sexpr.Reader

/-!
# The parser and its grammar

The stack describes the tokens that have been read. An expression that is complete goes to the top of it,
whatever is below.
-/

namespace Libjeffpc.SexprText

open Lib

variable {ts ts' pre : List Token} {t : Token} {v w : Val} {stack : List Frame} {vals : List Val} {st st' : State}

/-- An expression can be read here. -/
def Ready : List Frame → Prop
  | .dotted _ _ :: _ => False
  | _ => True

theorem advance_lparen (hr : Ready stack) : advance (.reading stack) .lparen = some (.reading (.items [] :: stack)) := by
  match stack, hr with
  | [], _ => rfl
  | .quote :: _, _ => rfl
  | .items [] :: _, _ => rfl
  | .items [_] :: _, _ => rfl
  | .items (_ :: _ :: _) :: _, _ => rfl
  | .dot _ :: _, _ => rfl

theorem advance_quote (hr : Ready stack) : advance (.reading stack) .quote = some (.reading (.quote :: stack)) := by
  match stack, hr with
  | [], _ => rfl
  | .quote :: _, _ => rfl
  | .items [] :: _, _ => rfl
  | .items [_] :: _, _ => rfl
  | .items (_ :: _ :: _) :: _, _ => rfl
  | .dot _ :: _, _ => rfl

theorem advance_atom (hr : Ready stack) (h : atom t = some v) : advance (.reading stack) t = reduce v stack := by
  cases t <;> cases h <;>
  match stack, hr with
  | [], _ => rfl
  | .quote :: _, _ => rfl
  | .items [] :: _, _ => rfl
  | .items [_] :: _, _ => rfl
  | .items (_ :: _ :: _) :: _, _ => rfl
  | .dot _ :: _, _ => rfl

theorem foldlM_advance (st : State) (t : Token) (ts : List Token) :
    (t :: ts).foldlM advance st = (advance st t).bind fun st => ts.foldlM advance st := rfl

/-! ## What the grammar derives is read -/

/-- The state after an expression, with the tokens after it. -/
def Reads (ts : List Token) (v : Val) : Prop :=
  ∀ stack rest, Ready stack → (ts ++ rest).foldlM advance (.reading stack) =
    (reduce v stack).bind fun st => rest.foldlM advance st

/-- The state after elements of a list. -/
def ReadsList (ts : List Token) (v : Val) : Prop :=
  ∃ vals, v = toklist vals ∧ vals ≠ [] ∧ ∀ done stack rest,
    (ts ++ rest).foldlM advance (.reading (.items done :: stack)) =
      rest.foldlM advance (.reading (.items (done ++ vals) :: stack))

theorem Reads.list (h : ReadsList ts v) : Reads (.lparen :: (ts ++ [.rparen])) v := by
  obtain ⟨vals, rfl, -, hrun⟩ := h
  intro stack rest hr
  rw [List.cons_append, foldlM_advance, advance_lparen hr, Option.bind_some, List.append_assoc, hrun, List.nil_append]
  rfl

theorem Reads.pair {head tail : Val} (h : Reads ts head) (h' : Reads ts' tail) :
    Reads (.lparen :: (ts ++ .dot :: (ts' ++ [.rparen]))) (.cons head tail) := by
  intro stack rest hr
  rw [List.cons_append, foldlM_advance, advance_lparen hr, Option.bind_some, List.append_assoc, h (.items [] :: stack) _ trivial]
  show (((Token.dot :: (ts' ++ [.rparen])) ++ rest).foldlM advance (.reading (.items [head] :: stack))) = _
  rw [List.cons_append, foldlM_advance]
  show (((ts' ++ [Token.rparen]) ++ rest).foldlM advance (.reading (.dot head :: stack))) = _
  rw [List.append_assoc, h' (.dot head :: stack) _ trivial]
  rfl

mutual

theorem Tok.reads {ts : List Token} {v : Val} : Tok ts v → Reads ts v
  | .atom h => fun stack rest hr => by
    rw [List.singleton_append, foldlM_advance, advance_atom hr h]
  | .nil => fun stack rest hr => by
    rw [List.cons_append, foldlM_advance, advance_lparen hr]
    rfl
  | .list h => .list h.reads
  | .pair h h' => .pair h.reads h'.reads
  | .quote h => fun stack rest hr => by
    rw [List.cons_append, foldlM_advance, advance_quote hr, Option.bind_some, h.reads (.quote :: stack) _ trivial]
    rfl

theorem TokList.reads {ts : List Token} {v : Val} : TokList ts v → ReadsList ts v
  | .one (v := v) h => ⟨[v], rfl, List.cons_ne_nil _ _, fun done stack rest => by
    rw [h.reads (.items done :: stack) _ trivial]
    rfl⟩
  | @TokList.cons _ _ head _ h h' => by
    obtain ⟨vals, rfl, -, hrun⟩ := h'.reads
    refine ⟨head :: vals, rfl, List.cons_ne_nil _ _, fun done stack rest => ?_⟩
    rw [List.append_assoc, h.reads (.items done :: stack) _ trivial]
    show (_ ++ rest).foldlM advance (.reading (.items (done ++ [head]) :: stack)) = _
    rw [hrun, List.append_assoc]
    rfl

end

/-! ## What is read is derived -/

/-- Elements of a list that may be empty. -/
inductive Toks : List Token → List Val → Prop
  | nil : Toks [] []
  | snoc {ts ts' : List Token} {vals : List Val} {v : Val} (h : Toks ts vals) (h' : Tok ts' v) :
      Toks (ts ++ ts') (vals ++ [v])

theorem Toks.tokList (h : Toks ts vals) : ∀ {ts' v}, TokList ts' v → TokList (ts ++ ts') (vals.foldr .cons v) := by
  induction h with
  | nil => exact fun h' => h'
  | snoc _ hv ih =>
    intro ts' v h'
    rw [List.append_assoc, List.foldr_append]
    exact ih (.cons hv h')

theorem Toks.list (h : Toks ts vals) : Tok (.lparen :: (ts ++ [.rparen])) (toklist vals) := by
  cases h with
  | nil => exact .nil
  | snoc h hv =>
    rw [toklist, List.foldr_append]
    exact .list (h.tokList (.one hv))

theorem Toks.of_nil (h : Toks ts []) : ts = [] := by
  generalize hvals : ([] : List Val) = vals at h
  cases h with
  | nil => rfl
  | @snoc _ _ vals w _ _ => exact absurd hvals.symm (List.append_ne_nil_of_right_ne_nil vals (List.cons_ne_nil w []))

theorem Toks.one (h : Toks ts [v]) : Tok ts v := by
  generalize hvals : [v] = vals at h
  cases h with
  | nil => cases hvals
  | @snoc ts ts' vals w h hv =>
    have happ : [] ++ [v] = vals ++ [w] := hvals
    obtain ⟨rfl, hw⟩ := List.append_inj' happ rfl
    obtain rfl := List.singleton_inj.mp hw
    rw [h.of_nil]
    exact hv

/-- The tokens that have been read for a stack. -/
inductive Stack : List Frame → List Token → Prop
  | nil : Stack [] []
  | quote {stack : List Frame} {pre : List Token} (h : Stack stack pre) : Stack (.quote :: stack) (pre ++ [.quote])
  | items {stack : List Frame} {pre ts : List Token} {vals : List Val} (h : Stack stack pre) (hv : Toks ts vals) :
      Stack (.items vals :: stack) (pre ++ .lparen :: ts)
  | dot {stack : List Frame} {pre ts : List Token} {v : Val} (h : Stack stack pre) (hv : Tok ts v) :
      Stack (.dot v :: stack) (pre ++ .lparen :: (ts ++ [.dot]))
  | dotted {stack : List Frame} {pre ts ts' : List Token} {v w : Val} (h : Stack stack pre) (hv : Tok ts v)
      (hw : Tok ts' w) : Stack (.dotted v w :: stack) (pre ++ .lparen :: (ts ++ .dot :: ts'))

def State.Has : State → List Token → Prop
  | reading stack, pre => Stack stack pre
  | accept v, pre => Tok pre v

theorem Stack.reduce (h : Stack stack pre) (hv : Tok ts v) (hst : reduce v stack = some st) : st.Has (pre ++ ts) := by
  induction h generalizing ts v with
  | nil =>
    obtain rfl := Option.some.inj hst
    exact hv
  | quote _ ih =>
    rw [List.append_assoc]
    exact ih (.quote hv) hst
  | items h hvals =>
    obtain rfl := Option.some.inj hst
    rw [List.append_assoc]
    exact .items h (hvals.snoc hv)
  | @dot stack pre ts' w h hw =>
    obtain rfl := Option.some.inj hst
    have hpre : pre ++ Token.lparen :: (ts' ++ [Token.dot]) ++ ts = pre ++ .lparen :: (ts' ++ .dot :: ts) := by simp
    rw [hpre]
    exact .dotted h hw hv
  | dotted => cases hst

/-- One token more. -/
theorem State.Has.advance (h : st.Has pre) (hst : advance st t = some st') : st'.Has (pre ++ [t]) := by
  unfold SexprText.advance at hst
  split at hst
  · cases hst
  · cases h with
    | dotted h hv hw =>
      have hr := h.reduce (.pair hv hw) hst
      simpa using hr
  · cases hst
  · cases h with
    | items h hvals =>
      have hr := h.reduce hvals.list hst
      simpa using hr
  · obtain rfl := Option.some.inj hst
    cases h with
    | items h hvals =>
      rw [List.append_assoc]
      exact .dot h hvals.one
  · obtain rfl := Option.some.inj hst
    exact .items h .nil
  · obtain rfl := Option.some.inj hst
    exact .quote h
  · split at hst
    · rename_i hatom
      exact Stack.reduce h (.atom hatom) hst
    · cases hst

theorem State.Has.foldlM {ts : List Token} : ∀ {st : State} {pre : List Token}, st.Has pre →
    ts.foldlM SexprText.advance st = some st' → st'.Has (pre ++ ts) := by
  induction ts with
  | nil =>
    intro st pre h hst
    obtain rfl := Option.some.inj hst
    rwa [List.append_nil]
  | cons t ts ih =>
    intro st pre h hst
    rw [foldlM_advance] at hst
    obtain ⟨st₁, hadvance, hst⟩ := Option.bind_eq_some_iff.mp hst
    have hr := ih (h.advance hadvance) hst
    rwa [List.append_assoc] at hr

/-- Without the bound, the automaton accepts what the grammar derives, with its value. -/
theorem foldlM_advance_iff : ts.foldlM advance (.reading []) = some (.accept v) ↔ Tok ts v := by
  constructor
  · intro h
    have hstart : (State.reading []).Has [] := .nil
    exact hstart.foldlM h
  · intro h
    have hr := h.reads [] [] trivial
    rw [List.append_nil] at hr
    rw [hr]
    rfl

theorem Tok.unique (h : Tok ts v) (h' : Tok ts w) : v = w := by
  have heq := (foldlM_advance_iff.mpr h).symm.trans (foldlM_advance_iff.mpr h')
  injection heq with heq
  injection heq

/-! ## The height of the stack -/

/-- The greatest height of the stack while tokens are shifted. -/
def peak : State → List Token → Nat
  | _, [] => 0
  | st, t :: ts => max (shiftHeight st t) ((advance st t).elim 0 fun st' => peak st' ts)

/-- The bound is only looked at where the stack is highest. -/
theorem foldlM_shift (ts : List Token) : ∀ st, ts.foldlM shift st =
    if peak st ts + 1 < yyMaxDepth then ts.foldlM advance st else none := by
  induction ts with
  | nil =>
    intro st
    rw [peak, if_pos (by decide)]
    rfl
  | cons t ts ih =>
    intro st
    have hshift : (t :: ts).foldlM shift st = (shift st t).bind fun st => ts.foldlM shift st := rfl
    rw [hshift, foldlM_advance, shift, peak]
    cases hst : advance st t with
    | none => simp
    | some st' =>
      have hpeak : max (shiftHeight st t) (peak st' ts) + 1 < yyMaxDepth ↔
          shiftHeight st t + 1 < yyMaxDepth ∧ peak st' ts + 1 < yyMaxDepth := by omega
      rw [Option.elim_some, Option.bind_some]
      by_cases hhere : shiftHeight st t + 1 < yyMaxDepth
      · rw [if_pos hhere, Option.bind_some, ih]
        simp only [hpeak, hhere, true_and]
      · rw [if_neg hhere, if_neg fun h => hhere (hpeak.mp h).1]
        rfl

theorem peak_cons (hst : advance st t = some st') (ts : List Token) :
    peak st (t :: ts) = max (shiftHeight st t) (peak st' ts) := by
  rw [peak, hst]
  rfl

theorem height_cons (f : Frame) (stack : List Frame) : height (f :: stack) = f.symbols + height stack := rfl

theorem shiftHeight_reading (ht : t ≠ .rparen) : shiftHeight (.reading stack) t = height stack + 1 := by
  unfold shiftHeight
  split
  · exact absurd rfl ht
  · next heq _ =>
    injection heq with heq
    rw [heq]
  · next heq => cases heq

/-- The height after the rest has been read, or nothing when it cannot be read. -/
def peakAfter (st : Option State) (rest : List Token) : Nat := st.elim 0 fun st => peak st rest

mutual

theorem TokHeight.tok {ts : List Token} {v : Val} {n : Nat} : TokHeight ts v n → Tok ts v
  | .atom h => .atom h
  | .nil => .nil
  | .list h => .list h.tokList
  | .pair h h' => .pair h.tok h'.tok
  | .quote h => .quote h.tok

theorem ListHeight.tokList {ts : List Token} {v : Val} {n : Nat} : ListHeight ts v n → TokList ts v
  | .cons h h' => .cons h.tok h'.tokList
  | .one h => .one h.tok

end

mutual

theorem Tok.height {ts : List Token} {v : Val} : Tok ts v → ∃ n, TokHeight ts v n
  | .atom h => ⟨_, .atom h⟩
  | .nil => ⟨_, .nil⟩
  | .list h => by
    obtain ⟨n, hn⟩ := h.height
    exact ⟨_, .list hn⟩
  | .pair h h' => by
    obtain ⟨m, hm⟩ := h.height
    obtain ⟨n, hn⟩ := h'.height
    exact ⟨_, .pair hm hn⟩
  | .quote h => by
    obtain ⟨n, hn⟩ := h.height
    exact ⟨_, .quote hn⟩

theorem TokList.height {ts : List Token} {v : Val} : TokList ts v → ∃ n, ListHeight ts v n
  | .cons h h' => by
    obtain ⟨m, hm⟩ := h.height
    obtain ⟨n, hn⟩ := h'.height
    exact ⟨_, .cons hm hn⟩
  | .one h => by
    obtain ⟨n, hn⟩ := h.height
    exact ⟨_, .one hn⟩

end

/-- The stack while an expression is read, and afterwards. -/
def Peaks (ts : List Token) (v : Val) (n : Nat) : Prop :=
  0 < n ∧ ∀ stack rest, Ready stack →
    peak (.reading stack) (ts ++ rest) = max (height stack + n) (peakAfter (reduce v stack) rest)

/-- The stack while elements of a list are read, and before the list ends. -/
def ListPeaks (ts : List Token) (v : Val) (n : Nat) : Prop :=
  0 < n ∧ ∃ vals, v = toklist vals ∧ vals ≠ [] ∧ ∀ done stack rest,
    peak (.reading (.items done :: stack)) (ts ++ rest) =
      max (height (.items done :: stack) + n) (peak (.reading (.items (done ++ vals) :: stack)) rest)

theorem Peaks.atom (h : SexprText.atom t = some v) : Peaks [t] v 1 := by
  refine ⟨Nat.one_pos, fun stack rest hr => ?_⟩
  have ht : t ≠ .rparen := by
    rintro rfl
    cases h
  rw [List.singleton_append, peak, advance_atom hr h, shiftHeight_reading ht]
  rfl

theorem Peaks.nil : Peaks [.lparen, .rparen] .nil 2 := by
  refine ⟨Nat.two_pos, fun stack rest hr => ?_⟩
  have hclose : peak (.reading (.items [] :: stack)) (.rparen :: rest) =
      max (height stack + 2) (peakAfter (reduce .nil stack) rest) := by
    rw [peak]
    show max (height (.items [] :: stack) + 1) _ = _
    rw [height_cons, Frame.symbols, List.length_nil]
    have hsum : 1 + 0 + height stack + 1 = height stack + 2 := by omega
    rw [hsum]
    rfl
  rw [List.cons_append, peak_cons (advance_lparen hr), shiftHeight_reading (by simp)]
  show max _ (peak _ (.rparen :: rest)) = _
  rw [hclose]
  omega

theorem Peaks.list {n : Nat} (h : ListPeaks ts v n) : Peaks (.lparen :: (ts ++ [.rparen])) v (max (n + 1) 3) := by
  obtain ⟨hpos, vals, rfl, hne, hpeak⟩ := h
  refine ⟨by omega, fun stack rest hr => ?_⟩
  obtain ⟨w, ws, rfl⟩ := List.exists_cons_of_ne_nil hne
  have hclose : peak (.reading (.items (w :: ws) :: stack)) (.rparen :: rest) =
      max (height stack + 3) (peakAfter (reduce (toklist (w :: ws)) stack) rest) := rfl
  rw [List.cons_append, peak_cons (advance_lparen hr), shiftHeight_reading (by simp), List.append_assoc, hpeak,
    List.nil_append, List.singleton_append, hclose, height_cons, Frame.symbols, List.length_nil]
  omega

theorem Peaks.pair {head tail : Val} {m n : Nat} (h : Peaks ts head m) (h' : Peaks ts' tail n) :
    Peaks (.lparen :: (ts ++ .dot :: (ts' ++ [.rparen]))) (.cons head tail) (max (m + 1) (max (n + 3) 5)) := by
  refine ⟨by omega, fun stack rest hr => ?_⟩
  have hclose : peak (.reading (.dotted head tail :: stack)) (.rparen :: rest) =
      max (height stack + 5) (peakAfter (reduce (.cons head tail) stack) rest) := by
    rw [peak]
    show max (height (.dotted head tail :: stack) + 1) _ = _
    rw [height_cons, Frame.symbols]
    have hsum : 4 + height stack + 1 = height stack + 5 := by omega
    rw [hsum]
    rfl
  have htail : peak (.reading (.dot head :: stack)) (ts' ++ .rparen :: rest) =
      max (height stack + 3 + n) (peak (.reading (.dotted head tail :: stack)) (.rparen :: rest)) := by
    rw [h'.2 (.dot head :: stack) _ trivial, height_cons, Frame.symbols, Nat.add_comm 3]
    rfl
  have hdot : peak (.reading (.items [head] :: stack)) (.dot :: (ts' ++ .rparen :: rest)) =
      max (height stack + 3) (peak (.reading (.dot head :: stack)) (ts' ++ .rparen :: rest)) := by
    have hst : advance (.reading (.items [head] :: stack)) .dot = some (.reading (.dot head :: stack)) := rfl
    rw [peak_cons hst, shiftHeight_reading (by simp), height_cons, Frame.symbols, List.length_singleton]
    omega
  have hhead : peak (.reading (.items [] :: stack)) (ts ++ .dot :: (ts' ++ .rparen :: rest)) =
      max (height stack + 1 + m) (peak (.reading (.items [head] :: stack)) (.dot :: (ts' ++ .rparen :: rest))) := by
    rw [h.2 (.items [] :: stack) _ trivial, height_cons, Frame.symbols, List.length_nil, Nat.add_comm (1 + 0)]
    rfl
  have htoks : (Token.lparen :: (ts ++ .dot :: (ts' ++ [.rparen]))) ++ rest =
      .lparen :: (ts ++ .dot :: (ts' ++ .rparen :: rest)) := by simp
  rw [htoks, peak_cons (advance_lparen hr), shiftHeight_reading (by simp), hhead, hdot, htail, hclose]
  omega

theorem Peaks.quote {n : Nat} (h : Peaks ts v n) :
    Peaks (.quote :: ts) (.cons (.sym quoteSym) (.cons v .nil)) (n + 1) := by
  obtain ⟨hpos, hpeak⟩ := h
  refine ⟨Nat.succ_pos n, fun stack rest hr => ?_⟩
  have hval : peakAfter (SexprText.reduce v (.quote :: stack)) rest =
      peakAfter (SexprText.reduce (.cons (.sym quoteSym) (.cons v .nil)) stack) rest := rfl
  rw [List.cons_append, peak_cons (advance_quote hr), shiftHeight_reading (by simp),
    hpeak (.quote :: stack) _ trivial, height_cons, Frame.symbols, hval]
  omega

mutual

theorem TokHeight.peaks {ts : List Token} {v : Val} {n : Nat} : TokHeight ts v n → Peaks ts v n
  | .atom h => .atom h
  | .nil => .nil
  | .list h => .list h.peaks
  | .pair h h' => .pair h.peaks h'.peaks
  | .quote h => .quote h.peaks

theorem ListHeight.peaks {ts : List Token} {v : Val} {n : Nat} : ListHeight ts v n → ListPeaks ts v n
  | .one (v := v) h => by
    obtain ⟨hpos, hpeak⟩ := h.peaks
    refine ⟨hpos, [v], rfl, List.cons_ne_nil _ _, fun done stack rest => ?_⟩
    rw [hpeak (.items done :: stack) _ trivial]
    rfl
  | @ListHeight.cons _ _ head _ _ _ h h' => by
    obtain ⟨hpos, hpeak⟩ := h.peaks
    obtain ⟨-, vals, rfl, -, hrest⟩ := h'.peaks
    refine ⟨by omega, head :: vals, rfl, List.cons_ne_nil _ _, fun done stack rest => ?_⟩
    have hnext : ∀ us, peakAfter (reduce head (.items done :: stack)) us =
        peak (.reading (.items (done ++ [head]) :: stack)) us := fun _ => rfl
    rw [List.append_assoc, hpeak (.items done :: stack) _ trivial, hnext, hrest, List.append_assoc,
      List.singleton_append, height_cons, height_cons, Frame.symbols, Frame.symbols, List.length_append,
      List.length_singleton]
    omega

end

theorem TokHeight.peak_eq {n : Nat} (h : TokHeight ts v n) : peak (.reading []) ts = n := by
  have hpeak := h.peaks.2 [] [] trivial
  rw [List.append_nil] at hpeak
  rw [hpeak]
  exact (Nat.max_eq_left (Nat.zero_le _)).trans (Nat.zero_add n)

theorem TokHeight.unique {m n : Nat} (h : TokHeight ts v m) (h' : TokHeight ts v n) : m = n :=
  h.peak_eq.symm.trans h'.peak_eq

theorem TokHeight.parses_iff {n : Nat} (h : TokHeight ts v n) : Parses ts v ↔ n + 1 < yyMaxDepth := by
  refine ⟨?_, fun hn => ⟨n, h, hn⟩⟩
  rintro ⟨m, hm, hlt⟩
  rwa [h.unique hm]

theorem Parses.tok (h : Parses ts v) : Tok ts v := by
  obtain ⟨n, hn, -⟩ := h
  exact hn.tok

/-- The parser accepts what the grammar derives, with its value, as far as its stack is large enough. -/
theorem sexprReaderParse_iff : sexprReaderParse ts = some v ↔ Parses ts v := by
  rw [sexprReaderParse, foldlM_shift]
  constructor
  · intro h
    split at h
    · next w hst =>
      obtain rfl := Option.some.inj h
      split_ifs at hst with hpeak
      obtain ⟨n, hn⟩ := (foldlM_advance_iff.mp hst).height
      rw [hn.peak_eq] at hpeak
      exact ⟨n, hn, hpeak⟩
    · cases h
  · rintro ⟨n, hn, hlt⟩
    rw [hn.peak_eq, if_pos hlt, foldlM_advance_iff.mpr hn.tok]

end Libjeffpc.SexprText
