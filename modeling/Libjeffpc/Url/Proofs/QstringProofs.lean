import Libjeffpc.Nvl.Proofs.RefusedProofs
import Libjeffpc.Url.Proofs.UrldecodeProofs
import Libjeffpc.Url.Qstring

/-!
# Query strings

The loop is followed segment by segment. A segment with a second equals sign ends it; any other segment
is one call of `insert`, whatever that call returns. What the calls leave behind is a map, or one pair whose name is a
code.
-/

namespace Libjeffpc.Url

open Lib Libjeffpc.Tree Libjeffpc.Nvl

/-! ## Segments -/

theorem segments_append {a : Bytes} (ha : ch '&' ∉ a) (rest : Bytes) :
    segments (a ++ ch '&' :: rest) = a :: segments rest := by
  induction a with
  | nil => rw [List.nil_append, segments, if_pos rfl]
  | cons c a ih =>
    rw [List.mem_cons, not_or] at ha
    obtain ⟨hc, ha⟩ := ha
    rw [List.cons_append, segments, if_neg (Ne.symm hc), ih ha]

theorem segments_last {a : Bytes} (hne : a ≠ []) (ha : ch '&' ∉ a) : segments a = [a] := by
  induction a with
  | nil => exact absurd rfl hne
  | cons c a ih =>
    rw [List.mem_cons, not_or] at ha
    obtain ⟨hc, ha⟩ := ha
    rw [segments, if_neg (Ne.symm hc)]
    cases a with
    | nil => rfl
    | cons c' a => rw [ih (by simp) ha]

theorem seg_plain {seg : Bytes} (h : ch '=' ∉ seg) : segName seg = seg ∧ segValue seg = none := by
  refine ⟨List.takeWhile_eq_self_iff.mpr fun c hc => ?_, if_neg h⟩
  exact decide_eq_true fun heq => h (heq ▸ hc)

theorem seg_append {a : Bytes} (ha : ch '=' ∉ a) (v : Bytes) :
    segName (a ++ ch '=' :: v) = a ∧ segValue (a ++ ch '=' :: v) = some v := by
  have htake : ∀ c ∈ a, decide (c ≠ ch '=') = true :=
    fun c hc => decide_eq_true fun heq => ha (heq ▸ hc)
  constructor
  · rw [segName, List.takeWhile_append_of_pos htake, List.takeWhile_cons_of_neg (by simp),
      List.append_nil]
  · rw [segValue, if_pos (by simp), List.dropWhile_append_of_pos htake,
      List.dropWhile_cons_of_neg (by simp)]
    rfl

/-- A segment is a name, or a name and a value. -/
theorem seg_cases (seg : Bytes) :
    (ch '=' ∉ seg ∧ segName seg = seg ∧ segValue seg = none) ∨
    ∃ a v, seg = a ++ ch '=' :: v ∧ ch '=' ∉ a ∧ segName seg = a ∧ segValue seg = some v := by
  by_cases h : ch '=' ∈ seg
  · obtain ⟨a, v, rfl, ha⟩ := List.eq_append_cons_of_mem h
    exact Or.inr ⟨a, v, rfl, ha, seg_append ha v⟩
  · exact Or.inl ⟨h, seg_plain h⟩

/-! ## One entry -/

theorem urldecodeStr_run (input : Bytes) :
    urldecodeStr input = pure ((percentDecode input).elim (.error .EILSEQ) fun d => .ok (cstr d)) := by
  obtain ⟨out', hrun, -, -, htake⟩ := urldecode_run input (List.replicate input.length 0) (by simp)
  rw [urldecodeStr, hrun, pure_bind]
  cases hdec : percentDecode input with
  | none => rfl
  | some d =>
    simp only [Option.elim_some, deref_some, pure_bind, htake d hdec]

/-- An empty value needs no copy. -/
theorem insertVal_run (refused : Bool) (val : Bytes) : insertVal refused val =
    pure ((percentDecode val).elim (.error .EILSEQ) fun d =>
      if copyRefused refused (cstr d) then .error .ENOMEM else .ok (cstr d)) := by
  rw [insertVal, urldecodeStr_run]
  cases val with
  | nil => cases refused <;> rfl
  | cons c val =>
    rw [if_neg (by simp), pure_bind]
    cases percentDecode (c :: val) with
    | none => rfl
    | some d =>
      simp only [Option.elim_some]
      cases copyRefused refused (cstr d) <;> rfl

/-- The name is in its buffer, with a NUL after it. -/
theorem decodeName_run (name : Bytes) : ∃ buf,
    urldecode (some name) (some (List.replicate (name.length + 1) 0)) =
      pure ((percentDecode name).elim (.error .EILSEQ) fun d => .ok d.length, some buf) ∧
    ∀ d, percentDecode name = some d → ∃ buf', store buf d.length 0 = pure buf' ∧ cstr buf' = cstr d := by
  obtain ⟨buf, hrun, hlen, -, htake⟩ := urldecode_run name (List.replicate (name.length + 1) 0) (by simp)
  refine ⟨buf, hrun, fun d hd => ?_⟩
  have hle := length_percentDecode hd
  rw [List.length_replicate] at hlen
  obtain ⟨w, rest, hrest⟩ := List.exists_cons_of_length_pos (l := buf.drop d.length)
    (by rw [List.length_drop]; omega)
  have hbuf : buf = d ++ w :: rest := by
    rw [← hrest]
    conv_lhs => rw [← List.take_append_drop d.length buf, htake d hd]
  refine ⟨d ++ 0 :: rest, ?_, cstr_append_nul d rest⟩
  rw [hbuf]
  exact store_append rfl

section Insert

variable {N A M : Type} [DecidableEq N] [DecidableEq A] [TreeMem A M] (refusals : Nat → Refusals) (alloc : Allocator A)

/-- A call of `insert` is a call for the entry, if there is one. -/
theorem insert_run (nvl : N) (k : Nat) (name : Bytes) (val : Option Bytes) (l : Lists N A M) :
    insert refusals alloc nvl k name val l = (entryOf name val).elim (pure (.error .EILSEQ, l)) fun e =>
      l.call alloc ⟨e.1, e.2, refusals k⟩ nvl := by
  obtain ⟨buf, hname, hstore⟩ := decodeName_run name
  rw [insert, hname, pure_bind, entryOf]
  cases hd : percentDecode name with
  | none => rfl
  | some d =>
    obtain ⟨buf', hstore, hcstr⟩ := hstore d hd
    simp only [Option.elim_some, deref_some, pure_bind, hstore, hcstr, Option.bind_some]
    cases val with
    | none => rfl
    | some v =>
      simp only [insertVal_run, pure_bind]
      cases hu : percentDecode v with
      | none => rfl
      | some u =>
        have hvalue : (⟨cstr d, .str (cstr u), refusals k⟩ : Call N).valueRefused =
            copyRefused (refusals k).value (cstr u) := rfl
        simp only [Option.elim_some, Option.map_some, Lists.call]
        by_cases hcopy : copyRefused (refusals k).value (cstr u) = true
        · rw [if_pos hcopy, if_pos (hvalue.trans hcopy)]
        · rw [if_neg hcopy, if_neg (hvalue.symm ▸ hcopy)]
          rfl

/-- Calls one after the other; what they return is not used. -/
def callAll (nvl : N) : List (Call N) → Lists N A M → Comp (Lists N A M)
  | [], l => pure l
  | c :: calls, l => do
    let (_, l) ← l.call alloc c nvl
    callAll nvl calls l

theorem callAll_append (nvl : N) (calls calls' : List (Call N)) (l : Lists N A M) :
    callAll alloc nvl (calls ++ calls') l = callAll alloc nvl calls l >>= callAll alloc nvl calls' := by
  induction calls generalizing l with
  | nil => rw [List.nil_append, callAll, pure_bind]
  | cons c calls ih =>
    rw [List.cons_append, callAll, callAll, bind_assoc]
    exact congrArg (l.call alloc c nvl >>= ·) (funext fun r => ih r.2)

end Insert

/-! ## The loop -/

section Loop

variable {N A M : Type} [DecidableEq N] [DecidableEq A] [TreeMem A M]
  (refusals : Nat → Refusals) (alloc : Allocator A) (nvl : N) {qs pre rest : Bytes} {s : Qs N A M}

/-- A round with a character. -/
theorem round_char {c : UInt8} (hqs : qs = pre ++ c :: rest) (hcur : s.cur = pre.length) :
    qstringRound refusals alloc nvl qs qs.length s = qstringStep refusals alloc nvl qs s c := by
  rw [qstringRound, if_pos (by rw [hcur, hqs]; simp), hqs, fetch_append hcur, pure_bind]

/-- Characters that are no separators are passed over. -/
theorem loop_skip {a : Bytes} (heq : ch '=' ∉ a) (hamp : ch '&' ∉ a) (hqs : qs = pre ++ (a ++ rest))
    (hcur : s.cur = pre.length) : loop (qstringRound refusals alloc nvl qs qs.length) s =
      loop (qstringRound refusals alloc nvl qs qs.length) { s with cur := s.cur + a.length } := by
  induction a generalizing pre s with
  | nil => rfl
  | cons c a ih =>
    rw [List.mem_cons, not_or] at heq hamp
    have hqs' : qs = (pre ++ [c]) ++ (a ++ rest) := by
      rw [hqs]
      simp
    have hcur' : s.cur + 1 = (pre ++ [c]).length := by simp [hcur]
    have hstep : qstringRound refusals alloc nvl qs qs.length s = pure (.inl { s with cur := s.cur + 1 }) := by
      rw [List.cons_append] at hqs
      rw [round_char refusals alloc nvl hqs hcur, qstringStep]
      cases s.state with
      | name => simp only [if_neg (Ne.symm heq.1), if_neg (Ne.symm hamp.1)]
      | val => simp only [if_neg (Ne.symm heq.1), if_neg (Ne.symm hamp.1)]
    rw [loop_next hstep, ih heq.2 hamp.2 hqs' hcur']
    simp only [List.length_cons, Nat.add_assoc, Nat.add_comm 1]

theorem insertPart_run {name : Bytes} {nameLen : Nat} {v : Option Bytes} {val : Option (Nat × Nat)}
    (hname : slice qs s.name nameLen = pure name) (hval : sliceVal qs val = pure v) :
    insertPart refusals alloc nvl qs s nameLen val =
      callAll alloc nvl (((entryOf name v).map fun e => ⟨e.1, e.2, refusals s.k⟩).toList) s.lists >>= fun lists =>
        pure { s with k := s.k + 1, lists } := by
  rw [insertPart, hname, pure_bind, hval, pure_bind, insert_run]
  cases entryOf (N := N) name v with
  | none => rfl
  | some e =>
    simp only [Option.elim_some, Option.map_some, Option.toList_some, callAll, bind_assoc, pure_bind]

theorem insertIf_pos {c : Prop} [Decidable c] (hc : c) {nameLen : Nat} {val : Option (Nat × Nat)} :
    insertIf refusals alloc c nvl qs s nameLen val = insertPart refusals alloc nvl qs s nameLen val :=
  if_pos (decide_eq_true hc)

theorem insertIf_neg {c : Prop} [Decidable c] (hc : ¬c) {nameLen : Nat} {val : Option (Nat × Nat)} :
    insertIf refusals alloc c nvl qs s nameLen val = pure s :=
  if_neg (by rwa [decide_eq_true_iff])

/-- The loop is at the start of a segment. -/
structure Starts (s : Qs N A M) (i k : Nat) (l : Lists N A M) : Prop where
  state : s.state = .name
  cur : s.cur = i
  name : s.name = i
  k_eq : s.k = k
  lists : s.lists = l

variable {l : Lists N A M} {k : Nat} {a v : Bytes}

/-- The name of a segment, up to an equals sign. -/
theorem loop_name (hs : Starts s pre.length k l) (heq : ch '=' ∉ a) (hamp : ch '&' ∉ a)
    (hqs : qs = pre ++ (a ++ ch '=' :: rest)) : loop (qstringRound refusals alloc nvl qs qs.length) s =
      loop (qstringRound refusals alloc nvl qs qs.length)
        { s with state := .val, nameLen := a.length, val := pre.length + a.length + 1
                 cur := pre.length + a.length + 1 } := by
  have hqs' : qs = (pre ++ a) ++ ch '=' :: rest := by rw [hqs, List.append_assoc]
  have hcur' : s.cur + a.length = (pre ++ a).length := by rw [hs.cur, List.length_append]
  rw [loop_skip refusals alloc nvl heq hamp hqs hs.cur]
  refine loop_next ?_
  rw [round_char refusals alloc nvl hqs' hcur', qstringStep]
  simp only [hs.state, if_true, hs.cur, hs.name, Nat.add_sub_cancel_left]

/-- The loop is at the end of a segment, with the parts of it that `insert` gets. -/
structure AtEnd (qs : Bytes) (t : Qs N A M) (i : Nat) (name : Bytes) (v : Option Bytes) : Prop where
  cur : t.cur = i
  parts : (t.state = .name ∧ v = none ∧ i = t.name + name.length ∧
      slice qs t.name name.length = pure name) ∨
    ∃ u, t.state = .val ∧ v = some u ∧ i = t.val + u.length ∧ slice qs t.name t.nameLen = pure name ∧
      slice qs t.val u.length = pure u

theorem loop_atEnd (hs : Starts s pre.length k l) {seg : Bytes} (hamp : ch '&' ∉ seg)
    (htwo : ¬TwoEquals seg) (hqs : qs = pre ++ (seg ++ rest)) : ∃ t,
      loop (qstringRound refusals alloc nvl qs qs.length) s =
        loop (qstringRound refusals alloc nvl qs qs.length) t ∧
      AtEnd qs t (pre ++ seg).length (segName seg) (segValue seg) ∧ t.k = k ∧ t.lists = l := by
  rcases seg_cases seg with ⟨heq, hname, hval⟩ | ⟨a, v, rfl, heq, hname, hval⟩
  · refine ⟨_, loop_skip refusals alloc nvl heq hamp hqs hs.cur, ⟨?_, Or.inl ⟨hs.state, hval, ?_, ?_⟩⟩, hs.k_eq,
      hs.lists⟩
    · rw [List.length_append, hs.cur]
    · rw [hname, List.length_append, hs.name]
    · rw [hname, hqs]
      exact slice_append hs.name rfl
  · have hv : ch '=' ∉ v := fun hv => htwo ⟨v, hval, hv⟩
    simp only [List.mem_append, List.mem_cons, not_or] at hamp
    have hqs₁ : qs = pre ++ (a ++ ch '=' :: (v ++ rest)) := by
      rw [hqs]
      simp
    have hqs₂ : qs = (pre ++ (a ++ [ch '='])) ++ (v ++ rest) := by
      rw [hqs]
      simp
    have hpos : pre.length + a.length + 1 = (pre ++ (a ++ [ch '='])).length := by
      simp [Nat.add_assoc]
    refine ⟨_, (loop_name refusals alloc nvl hs heq hamp.1 hqs₁).trans
      (loop_skip refusals alloc nvl hv hamp.2.2 hqs₂ hpos), ⟨?_, Or.inr ⟨v, rfl, hval, ?_, ?_, ?_⟩⟩, hs.k_eq,
      hs.lists⟩
    · simp only [List.length_append, List.length_cons]
      omega
    · simp only [List.length_append, List.length_cons]
      omega
    · rw [hname, hqs₁]
      exact slice_append hs.name rfl
    · rw [hqs₂]
      exact slice_append hpos rfl

/-- The call that a segment leads to, if any. -/
def segCall (k : Nat) (seg : Bytes) : List (Call N) :=
  ((entryOf (segName seg) (segValue seg)).map fun e => ⟨e.1, e.2, refusals k⟩).toList

/-- A segment that is followed by an ampersand. -/
theorem loop_segment (hs : Starts s pre.length k l) {seg : Bytes} (hamp : ch '&' ∉ seg) (htwo : ¬TwoEquals seg)
    (hqs : qs = pre ++ (seg ++ ch '&' :: rest)) : ∃ next : Lists N A M → Qs N A M,
      loop (qstringRound refusals alloc nvl qs qs.length) s =
        (callAll alloc nvl (segCall refusals k seg) l >>= fun l' =>
          loop (qstringRound refusals alloc nvl qs qs.length) (next l')) ∧
      ∀ l', Starts (next l') (pre ++ (seg ++ [ch '&'])).length (k + 1) l' := by
  obtain ⟨t, hloop, ⟨hcur, hparts⟩, rfl, rfl⟩ := loop_atEnd refusals alloc nvl hs hamp htwo hqs
  have hqs' : qs = (pre ++ seg) ++ ch '&' :: rest := by rw [hqs, List.append_assoc]
  have hnext : t.cur + 1 = (pre ++ (seg ++ [ch '&'])).length := by
    rw [hcur]
    simp [Nat.add_assoc]
  have hround := round_char refusals alloc nvl hqs' hcur
  refine ⟨fun l' => { t with k := t.k + 1, lists := l', name := t.cur + 1, state := .name, cur := t.cur + 1 },
    hloop.trans (loop_bind_next ?_), fun l' => ⟨rfl, hnext, hnext, rfl, rfl⟩⟩
  rw [hround, qstringStep, segCall]
  rcases hparts with ⟨hstate, hnone, hi, hname⟩ | ⟨u, hstate, hsome, hi, hname, hval⟩
  · have hlen : t.cur - t.name = (segName seg).length := by omega
    have hrun := insertPart_run refusals alloc nvl hname (show sliceVal qs none = pure none from rfl)
    rw [hstate]
    simp only [if_neg (show ch '&' ≠ ch '=' by decide), if_true]
    rw [hlen, hrun, hnone, bind_assoc]
    simp only [pure_bind]
  · have hval : sliceVal qs (some (t.val, u.length)) = pure (some u) := by
      rw [sliceVal, hval, pure_bind]
    have hlen : t.cur - t.val = u.length := by omega
    have hrun := insertPart_run refusals alloc nvl hname hval
    rw [hstate]
    simp only [if_true]
    rw [hlen, hrun, hsome, bind_assoc]
    simp only [pure_bind]

/-- A last segment that is not empty. -/
theorem loop_last (hs : Starts s pre.length k l) {seg : Bytes} (hne : seg ≠ []) (hamp : ch '&' ∉ seg)
    (htwo : ¬TwoEquals seg) (hqs : qs = pre ++ seg) :
    loop (qstringRound refusals alloc nvl qs qs.length) s =
      callAll alloc nvl (segCall refusals k seg) l >>= fun l' => pure (.ok (), l') := by
  obtain ⟨t, hloop, ⟨hcur, hparts⟩, rfl, rfl⟩ := loop_atEnd refusals alloc nvl hs hamp htwo
    (show qs = pre ++ (seg ++ []) by rw [hqs, List.append_nil])
  have hlen : qs.length = t.cur := by rw [hqs, hcur]
  refine hloop.trans (loop_bind_done ?_)
  rw [qstringRound, if_neg (by omega), qstringEnd, segCall]
  rcases hparts with ⟨hstate, hnone, hi, hname⟩ | ⟨u, hstate, hsome, hi, hname, hval⟩
  · have hpos : t.name < qs.length := by
      rcases seg_cases seg with ⟨-, hseg, -⟩ | ⟨a, v, -, -, -, hsome⟩
      · rw [hseg] at hi
        have := List.length_pos_iff.mpr hne
        omega
      · cases hnone.symm.trans hsome
    have hlen' : qs.length - t.name = (segName seg).length := by omega
    have hrun := insertPart_run refusals alloc nvl hname (show sliceVal qs none = pure none from rfl)
    rw [insertIf_pos refusals alloc nvl ⟨hstate, hpos⟩, hlen', hrun, hnone]
    simp only [bind_assoc, pure_bind]
    refine congrArg (_ >>= ·) (funext fun l' => ?_)
    rw [insertIf_neg refusals alloc nvl (by simp [hstate]), pure_bind,
      insertIf_neg refusals alloc nvl (by simp [hstate]), pure_bind]
  · have hval : sliceVal qs (some (t.val, u.length)) = pure (some u) := by
      rw [sliceVal, hval, pure_bind]
    have hrun := insertPart_run refusals alloc nvl hname hval
    rw [insertIf_neg refusals alloc nvl (by simp [hstate]), pure_bind, hsome]
    by_cases hu : u.length = 0
    · rw [hu] at hrun
      rw [insertIf_pos refusals alloc nvl ⟨hstate, by omega⟩, hrun]
      simp only [bind_assoc, pure_bind]
      refine congrArg (_ >>= ·) (funext fun l' => ?_)
      rw [insertIf_neg refusals alloc nvl fun hlt => absurd hlt.2 (by omega), pure_bind]
    · have hlen' : qs.length - t.val = u.length := by omega
      rw [insertIf_neg refusals alloc nvl fun heq => absurd heq.2 (by omega), pure_bind,
        insertIf_pos refusals alloc nvl ⟨hstate, by omega⟩, hlen', hrun]
      simp only [bind_assoc, pure_bind]

/-- A second equals sign ends the loop. -/
theorem loop_twoEquals (hs : Starts s pre.length k l) {seg : Bytes} (hamp : ch '&' ∉ seg)
    (htwo : TwoEquals seg) (hqs : qs = pre ++ (seg ++ rest)) :
    loop (qstringRound refusals alloc nvl qs qs.length) s = pure (.error .EILSEQ, l) := by
  obtain ⟨w, hw, hmem⟩ := htwo
  rcases seg_cases seg with ⟨-, -, hval⟩ | ⟨a, v, rfl, heq, -, hval⟩
  · cases hw.symm.trans hval
  · obtain rfl := Option.some.inj (hw.symm.trans hval)
    obtain ⟨v, v', rfl, hv⟩ := List.eq_append_cons_of_mem hmem
    simp only [List.mem_append, List.mem_cons, not_or] at hamp
    have hqs₁ : qs = pre ++ (a ++ ch '=' :: (v ++ ch '=' :: v' ++ rest)) := by
      rw [hqs]
      simp
    have hqs₂ : qs = (pre ++ (a ++ [ch '='])) ++ (v ++ (ch '=' :: v' ++ rest)) := by
      rw [hqs]
      simp
    have hqs₃ : qs = (pre ++ (a ++ ch '=' :: v)) ++ ch '=' :: (v' ++ rest) := by
      rw [hqs]
      simp
    have hpos : pre.length + a.length + 1 = (pre ++ (a ++ [ch '='])).length := by
      simp [Nat.add_assoc]
    have hpos' : pre.length + a.length + 1 + v.length = (pre ++ (a ++ ch '=' :: v)).length := by
      simp
      omega
    rw [loop_name refusals alloc nvl hs heq hamp.1 hqs₁,
      loop_skip refusals alloc nvl hv hamp.2.2.1 hqs₂ hpos]
    refine loop_done ?_
    rw [round_char refusals alloc nvl hqs₃ hpos', qstringStep]
    simp only [if_neg (show ch '=' ≠ ch '&' by decide), if_true, hs.lists]

/-- The segments before the first second equals sign, and what the loop returns. -/
def readSegments : List Bytes → List Bytes × Except Errno Unit
  | [] => ([], .ok ())
  | seg :: segs =>
    if TwoEquals seg then ([], .error .EILSEQ) else (seg :: (readSegments segs).1, (readSegments segs).2)

omit [DecidableEq N] [DecidableEq A] [TreeMem A M] in
theorem readSegments_cases (segs : List Bytes) :
    (∃ done seg todo, segs = done ++ seg :: todo ∧ TwoEquals seg ∧ (∀ seg' ∈ done, ¬TwoEquals seg') ∧
      readSegments segs = (done, .error .EILSEQ)) ∨
    ((∀ seg ∈ segs, ¬TwoEquals seg) ∧ readSegments segs = (segs, .ok ())) := by
  induction segs with
  | nil => exact .inr ⟨List.forall_mem_nil _, rfl⟩
  | cons seg segs ih =>
    rw [readSegments]
    by_cases htwo : TwoEquals seg
    · rw [if_pos htwo]
      exact .inl ⟨[], seg, segs, rfl, htwo, List.forall_mem_nil _, rfl⟩
    · rw [if_neg htwo]
      rcases ih with ⟨done, seg', todo, rfl, htwo', hdone, heq⟩ | ⟨hnone, heq⟩
      · rw [heq]
        exact .inl ⟨seg :: done, seg', todo, rfl, htwo', List.forall_mem_cons.mpr ⟨htwo, hdone⟩, rfl⟩
      · rw [heq]
        exact .inr ⟨List.forall_mem_cons.mpr ⟨htwo, hnone⟩, rfl⟩

theorem readSegments_two {seg : Bytes} (htwo : TwoEquals seg) {done : List Bytes} (hdone : ∀ seg' ∈ done, ¬TwoEquals seg')
    (todo : List Bytes) : readSegments (done ++ seg :: todo) = (done, .error .EILSEQ) := by
  induction done with
  | nil => rw [List.nil_append, readSegments, if_pos htwo]
  | cons seg' done ih =>
    obtain ⟨hseg', hdone⟩ := List.forall_mem_cons.mp hdone
    rw [List.cons_append, readSegments, if_neg hseg', ih hdone]

/-- The loop from the start of a segment on. -/
theorem loop_segments (hs : Starts s pre.length k l) (hqs : qs = pre ++ rest) :
    loop (qstringRound refusals alloc nvl qs qs.length) s =
      callAll alloc nvl (segCalls refusals k (readSegments (segments rest)).1) l >>= fun l' =>
        pure ((readSegments (segments rest)).2, l') := by
  induction hlen : rest.length using Nat.strong_induction_on generalizing rest pre s k l with
  | _ n ih =>
  by_cases hamp : ch '&' ∈ rest
  · obtain ⟨seg, rest, rfl, hseg⟩ := List.eq_append_cons_of_mem hamp
    rw [segments_append hseg, readSegments]
    by_cases htwo : TwoEquals seg
    · rw [loop_twoEquals refusals alloc nvl hs hseg htwo hqs, if_pos htwo]
      rfl
    · obtain ⟨next, hloop, hs'⟩ := loop_segment refusals alloc nvl hs hseg htwo hqs
      have hqs' : qs = (pre ++ (seg ++ [ch '&'])) ++ rest := by
        rw [hqs]
        simp
      rw [hloop, if_neg htwo, segCalls, callAll_append, bind_assoc]
      exact congrArg (_ >>= ·) (funext fun l' => ih rest.length (by rw [← hlen]; simp; omega) (hs' l') hqs' rfl)
  · by_cases hne : rest = []
    · subst hne
      refine loop_done ?_
      rw [List.append_nil] at hqs
      rw [qstringRound, if_neg (by rw [hs.cur, hqs]; omega), qstringEnd,
        insertIf_neg refusals alloc nvl (by rw [hs.name, hqs]; omega), pure_bind,
        insertIf_neg refusals alloc nvl (by simp [hs.state]), pure_bind,
        insertIf_neg refusals alloc nvl (by simp [hs.state]), pure_bind, pure_bind, hs.lists]
      rfl
    · rw [segments_last hne hamp, readSegments]
      by_cases htwo : TwoEquals rest
      · have hqs' : qs = pre ++ (rest ++ []) := by rw [hqs, List.append_nil]
        rw [loop_twoEquals refusals alloc nvl hs hamp htwo hqs', if_pos htwo]
        rfl
      · rw [loop_last refusals alloc nvl hs hne hamp htwo hqs, if_neg htwo, readSegments, segCalls, segCalls,
          List.append_nil]
        rfl

theorem qstringParseLen_run (qs : Bytes) (l : Lists N A M) :
    qstringParseLen refusals alloc (some nvl) (some qs) qs.length l =
      callAll alloc nvl (segCalls refusals 0 (readSegments (segments qs)).1) l >>= fun l' =>
        pure ((readSegments (segments qs)).2, l') := by
  have hstart : Starts (⟨.name, 0, 0, 0, 0, 0, l⟩ : Qs N A M) ([] : Bytes).length 0 l :=
    ⟨rfl, rfl, rfl, rfl, rfl⟩
  exact loop_segments refusals alloc nvl hstart (List.nil_append qs).symm

end Loop

/-! ## Calls whose errors are not used -/

section Calls

variable {N : Type} {map map' : NvMap N} {calls : List (Call N)} {c : Call N}

/-- What a call does to the map. -/
def setCall (c : Call N) (map : NvMap N) : NvMap N :=
  if !c.valueRefused && ((map c.name).isSome || c.puts) then map.set c.name c.value else map

def setCalls (calls : List (Call N)) (map : NvMap N) : NvMap N := calls.foldl (fun m c => setCall c m) map

theorem setCall_ne_none {name : CStr} :
    setCall c map name ≠ none ↔ map name ≠ none ∨ c.puts = true ∧ c.name = name := by
  rw [setCall]
  by_cases hname : name = c.name
  · subst hname
    cases hmap : map c.name with
    | none =>
      cases hputs : c.puts with
      | true =>
        rw [(Call.puts_iff.mp hputs).1]
        simp [NvMap.set]
      | false => simp [hmap]
    | some v =>
      cases hv : c.valueRefused <;> simp [NvMap.set, hmap]
  · have hset : map.set c.name c.value name = map name := Function.update_of_ne hname _ _
    split_ifs
    · rw [hset]
      simp [Ne.symm hname]
    · simp [Ne.symm hname]

/-- The names after all calls. -/
theorem setCalls_ne_none {name : CStr} :
    setCalls calls map name ≠ none ↔ map name ≠ none ∨ ∃ c ∈ calls, c.puts = true ∧ c.name = name := by
  induction calls generalizing map with
  | nil => simp [setCalls]
  | cons c calls ih =>
    show setCalls calls (setCall c map) name ≠ none ↔ _
    rw [ih, setCall_ne_none, or_assoc, List.exists_mem_cons_iff]

theorem unnamed_nil : Unnamed map [] c ↔ ¬c.valueRefused ∧ map c.name = none ∧ c.nameRefused := by
  rw [Unnamed, new_nil]

/-- The first call leaves no code, and later ones see the map after it. -/
structure Harmless (map map' : NvMap N) (c : Call N) : Prop where
  named : ¬Unnamed map [] c
  new : ∀ pre name, New map (c :: pre) name ↔ New map' pre name
  other : ∀ pre : List (Call N), ((∃ name, map name ≠ none) ∨ ∃ d ∈ c :: pre, d.puts = true) ↔
    (∃ name, map' name ≠ none) ∨ ∃ d ∈ pre, d.puts = true

theorem harmless_skip (hnamed : ¬Unnamed map [] c) (hputs : c.puts = false) : Harmless map map c where
  named := hnamed
  new _ _ := new_skip hputs
  other pre := by rw [List.exists_mem_cons_iff, hputs]; simp

theorem harmless_set (hset : map c.name ≠ none ∨ c.puts = true) : Harmless map (map.set c.name c.value) c where
  named := by
    rw [unnamed_nil]
    rintro ⟨-, hnone, hname⟩
    rw [(Call.puts_iff.mp (hset.resolve_left fun h => h hnone)).2.1] at hname
    cases hname
  new _ _ := new_set hset
  other pre := by
    refine ⟨fun _ => .inl ⟨c.name, ?_⟩, fun _ => hset.imp (fun h => ⟨_, h⟩) fun h => ⟨c, List.mem_cons_self, h⟩⟩
    rw [NvMap.set, Function.update_self]
    exact Option.some_ne_none _

theorem Harmless.unnamed (h : Harmless map map' c) {pre : List (Call N)} {d : Call N} :
    Unnamed map (c :: pre) d ↔ Unnamed map' pre d := by
  rw [Unnamed, Unnamed, h.new]

theorem Harmless.corrupts (h : Harmless map map' c) : Corrupts map (c :: calls) ↔ Corrupts map' calls := by
  constructor
  · rintro ⟨pre, d, post, hsplit, hd⟩
    cases pre with
    | nil =>
      obtain ⟨rfl, -⟩ := List.cons.inj hsplit
      exact absurd hd h.named
    | cons e pre =>
      obtain ⟨rfl, htail⟩ := List.cons.inj hsplit
      exact ⟨pre, d, post, htail, h.unnamed.mp hd⟩
  · rintro ⟨pre, d, post, rfl, hd⟩
    exact ⟨c :: pre, d, post, rfl, h.unnamed.mpr hd⟩

theorem Harmless.crashes (h : Harmless map map' c) : Crashes map (c :: calls) ↔ Crashes map' calls := by
  constructor
  · rintro ⟨pre, d, post, hsplit, hd, hother⟩
    cases pre with
    | nil =>
      obtain ⟨rfl, -⟩ := List.cons.inj hsplit
      exact absurd hd h.named
    | cons e pre =>
      obtain ⟨rfl, htail⟩ := List.cons.inj hsplit
      refine ⟨pre, d, post, htail, h.unnamed.mp hd, hother.imp_right fun hother => ?_⟩
      rw [← or_assoc] at hother ⊢
      exact hother.imp_left (h.other pre).mp
  · rintro ⟨pre, d, post, rfl, hd, hother⟩
    refine ⟨c :: pre, d, post, rfl, h.unnamed.mpr hd, hother.imp_right fun hother => ?_⟩
    rw [← or_assoc] at hother ⊢
    exact hother.imp_left (h.other pre).mpr

/-- The first call leaves a code, or comes to it. -/
theorem crashes_unnamed (hc : Unnamed map [] c) : Crashes map (c :: calls) ↔
    c.refused.pair = true ∨ (∃ name, map name ≠ none) ∨ ∃ d ∈ calls, ¬d.valueRefused := by
  constructor
  · rintro ⟨pre, d, post, hsplit, hd, hother⟩
    cases pre with
    | nil =>
      obtain ⟨rfl, rfl⟩ := List.cons.inj hsplit
      refine hother.imp_right fun hother => hother.imp_right fun hother => hother.resolve_left ?_
      rintro ⟨e, he, -⟩
      cases he
    | cons e pre =>
      obtain ⟨rfl, rfl⟩ := List.cons.inj hsplit
      exact .inr (.inr ⟨d, by simp, hd.1⟩)
  · intro h
    exact ⟨[], c, calls, rfl, hc, h.imp_right fun h => h.imp_right .inr⟩

theorem not_corrupts_nil : ¬Corrupts map [] := by
  rintro ⟨pre, d, post, hsplit, -⟩
  simp at hsplit

theorem Crashes.corrupts (h : Crashes map calls) : Corrupts map calls := by
  obtain ⟨pre, c, post, hsplit, hc, -⟩ := h
  exact ⟨pre, c, post, hsplit, hc⟩

end Calls

section Run

variable {N A M : Type} [DecidableEq N] [DecidableEq A] [TreeMem A M] [LawfulTreeMem A M]
  (alloc : Allocator A) {nvl : N} {σ : NvState N} {shape : N → BTree A} {map : NvMap N} {l : Lists N A M}

omit [LawfulTreeMem A M] in
/-- Calls that find a code in the nvlist. -/
theorem callAll_coded (hc : l.coded nvl = true) (calls : List (Call N)) :
    ((∃ d ∈ calls, ¬d.valueRefused) ∧ callAll alloc nvl calls l = throw .code) ∨
    ((¬∃ d ∈ calls, ¬d.valueRefused) ∧ callAll alloc nvl calls l = pure l) := by
  induction calls with
  | nil => exact .inr ⟨by simp, rfl⟩
  | cons d calls ih =>
    rw [callAll, Lists.call_coded alloc hc, List.exists_mem_cons_iff]
    cases hv : d.valueRefused with
    | true =>
      simp only [if_true, pure_bind, not_true_eq_false, false_or]
      exact ih
    | false => exact .inl ⟨.inl Bool.false_ne_true, rfl⟩

theorem modify_id (hn : σ nvl = some map) : σ.modify nvl (fun m => m) = σ := by
  rw [Related.modify_eq hn]
  exact Function.update_eq_self_iff.mpr hn.symm

/-- A code is used as a pointer, or one is left behind, or all that the calls do is to change the map. -/
def Leaves (l : Lists N A M) (σ : NvState N) (nvl : N) (map : NvMap N) (calls : List (Call N))
    (run : Comp (Lists N A M)) : Prop :=
  (Crashes map calls ∧ run = throw .code) ∨
  (¬Crashes map calls ∧ Corrupts map calls ∧ ∃ l', run = pure l' ∧ l'.coded nvl = true) ∨
  (¬Corrupts map calls ∧ ∃ h' shape', run = pure { l with heap := h' } ∧
    Related h' (σ.modify nvl (setCalls calls)) shape')

theorem callAll_spec (hr : Related l.heap σ shape) (hn : σ nvl = some map) (hc : l.coded nvl = false)
    (calls : List (Call N)) : Leaves l σ nvl map calls (callAll alloc nvl calls l) := by
  induction calls generalizing l σ shape map with
  | nil =>
    refine .inr (.inr ⟨not_corrupts_nil, l.heap, shape, rfl, ?_⟩)
    have hid : setCalls (N := N) [] = fun m => m := rfl
    rwa [hid, modify_id hn]
  | cons c calls ih =>
    have hnext : ∀ (h₁ : Heap N A M) (shape₁ : N → BTree A), Harmless map (setCall c map) c →
        Related h₁ (Function.update σ nvl (some (setCall c map))) shape₁ →
        Leaves l σ nvl map (c :: calls) (callAll alloc nvl calls { l with heap := h₁ }) := by
      intro h₁ shape₁ hharm hr₁
      have hself : Function.update σ nvl (some (setCall c map)) nvl = some (setCall c map) := Function.update_self ..
      have hmod : NvState.modify (Function.update σ nvl (some (setCall c map))) nvl (setCalls calls) =
          σ.modify nvl (setCalls (c :: calls)) := by
        rw [Related.modify_eq hself, Related.modify_eq hn, Function.update_idem]
        rfl
      rw [Leaves, hharm.crashes, hharm.corrupts, ← hmod]
      exact ih hr₁ hself hc
    have hskip : setCall c map = map → Harmless map map c → Leaves l σ nvl map (c :: calls) (callAll alloc nvl calls l) := by
      intro hsame hharm
      rw [hsame] at hnext
      refine hnext l.heap shape hharm ?_
      rwa [Function.update_eq_self_iff.mpr hn.symm]
    have hspec := Lists.call_spec alloc hr hn hc c
    rw [callAll]
    generalize l.call alloc c nvl = result at hspec
    cases hspec with
    | value hv =>
      rw [pure_bind]
      refine hskip (by rw [setCall, hv]; rfl) (harmless_skip (fun h => h.1 hv) ?_)
      rw [Call.puts, hv]
      rfl
    | pair hv hnew hname hpair =>
      have hputs : c.puts = false := by
        rw [Call.puts, hpair, Bool.not_true, Bool.and_false]
      rw [pure_bind]
      refine hskip (by rw [setCall, hnew, hputs]; simp) (harmless_skip (fun h => ?_) hputs)
      exact Bool.false_ne_true (hname.symm.trans h.2.2)
    | crash hv hnew hname hother =>
      have hun : Unnamed map [] c := unnamed_nil.mpr ⟨by rw [hv]; exact Bool.false_ne_true, hnew, hname⟩
      exact .inl ⟨(crashes_unnamed hun).mpr (hother.imp_right .inl), rfl⟩
    | code hv hnew hname hpair hempty hc' =>
      have hun : Unnamed map [] c := unnamed_nil.mpr ⟨by rw [hv]; exact Bool.false_ne_true, hnew, hname⟩
      have hcrash : Crashes map (c :: calls) ↔ ∃ d ∈ calls, ¬d.valueRefused := by
        rw [crashes_unnamed hun, hpair]
        simp [hempty]
      rw [pure_bind]
      rcases callAll_coded alloc hc' calls with ⟨hd, hrun⟩ | ⟨hd, hrun⟩
      · exact .inl ⟨hcrash.mpr hd, hrun⟩
      · exact .inr (.inl ⟨fun h => hd (hcrash.mp h), ⟨[], c, calls, rfl, hun⟩, _, hrun, hc'⟩)
    | set hv hset hr' =>
      have hcall : setCall c map = map.set c.name c.value := by
        rw [setCall, hv, if_pos]
        rcases hset with h | h
        · simp [Option.isSome_iff_ne_none.mpr h]
        · simp [h]
      rw [pure_bind]
      rw [Related.modify_eq hn, ← hcall] at hr'
      exact hnext _ _ (hcall ▸ harmless_set hset) hr'

end Run

/-! ## Segments that are dropped -/

theorem malformed_of_decode {seg : Bytes} (h : Malformed seg) (htwo : ¬TwoEquals seg) :
    ¬((percentDecode (segName seg)).isSome ∧ ∀ v, segValue seg = some v → (percentDecode v).isSome) := by
  rintro ⟨hname, hval⟩
  rcases h with hbad | ⟨v, hv, hbad⟩ | h
  · rw [← percentDecode_eq_none_iff] at hbad
    rw [hbad] at hname
    cases hname
  · rw [← percentDecode_eq_none_iff] at hbad
    have := hval v hv
    rw [hbad] at this
    cases this
  · exact htwo h

section Dropped

variable {N A M : Type} [DecidableEq N] [DecidableEq A] [TreeMem A M] [LawfulTreeMem A M]
  (refusals : Nat → Refusals) (alloc : Allocator A) (nvl : N) {σ : NvState N} {shape : N → BTree A}
  {map : NvMap N} {l : Lists N A M}

theorem mem_segCalls {N : Type} {refusals : Nat → Refusals} {segs : List Bytes} {k : Nat} {c : Call N} (hc : c ∈ segCalls refusals k segs) :
    ∃ seg ∈ segs, entryOf (segName seg) (segValue seg) = some (c.name, c.value) := by
  induction segs generalizing k with
  | nil => cases hc
  | cons seg segs ih =>
    rw [segCalls, List.mem_append, Option.mem_toList, Option.map_eq_some_iff] at hc
    rcases hc with ⟨e, he, rfl⟩ | hc
    · exact ⟨seg, List.mem_cons_self, he⟩
    · obtain ⟨seg', hseg', he⟩ := ih hc
      exact ⟨seg', List.mem_cons_of_mem _ hseg', he⟩

omit [DecidableEq N] in
/-- The calls before the second equals sign decide. -/
theorem allKept_two {done todo : List Bytes} {seg : Bytes} (htwo : TwoEquals seg) (hdone : ∀ seg' ∈ done, ¬TwoEquals seg') :
    AllKept refusals map (done ++ seg :: todo) ↔ ¬Crashes map (segCalls refusals 0 done) := by
  constructor
  · rintro (⟨pre, seg', post, hsplit, htwo', hpre, hcrash⟩ | ⟨hnone, -⟩)
    · have hread := readSegments_two htwo' hpre post
      rw [← hsplit, readSegments_two htwo hdone] at hread
      obtain ⟨rfl, -⟩ := Prod.mk.inj hread
      exact hcrash
    · exact absurd htwo (hnone seg (by simp))
  · exact fun hcrash => .inl ⟨done, seg, todo, rfl, htwo, hdone, hcrash⟩

omit [DecidableEq N] in
theorem allKept_none {segs : List Bytes} (hnone : ∀ seg ∈ segs, ¬TwoEquals seg) :
    AllKept refusals map segs ↔ ¬Corrupts map (segCalls refusals 0 segs) ∧
      ∀ seg ∈ segs, ∃ d : CStr, percentDecode (segName seg) = some d.1 ∧
        (∀ v, segValue seg = some v → (percentDecode v).isSome) ∧
        (map d ≠ none ∨ ∃ c ∈ segCalls (N := N) refusals 0 segs, c.puts ∧ c.name = d) := by
  constructor
  · rintro (⟨pre, seg, post, rfl, htwo, -⟩ | ⟨-, h⟩)
    · exact absurd htwo (hnone seg (by simp))
    · exact h
  · exact fun h => .inr ⟨hnone, h⟩

/-- A query string is parsed without dropping a segment exactly in the cases of `AllKept`: the loop
ignores what `insert` returns. -/
theorem qstring_parsed_iff (qs : Bytes) (hr : Related l.heap σ shape) (hn : σ nvl = some map)
    (hc : l.coded nvl = false) :
    (∃ r l', qstringParseLen refusals alloc (some nvl) (some qs) qs.length l = pure (r, l') ∧
      (r = .ok () → ∀ seg ∈ segments qs, Parsed l' nvl seg) ∧
      ((∃ seg ∈ segments qs, Malformed seg) → ∃ e, r = .error e)) ↔
    AllKept refusals map (segments qs) := by
  rw [qstringParseLen_run]
  rcases readSegments_cases (segments qs) with ⟨done, seg, todo, hsplit, htwo, hdone, hread⟩ | ⟨hnone, hread⟩
  · rw [hread, hsplit, allKept_two refusals htwo hdone]
    rcases callAll_spec alloc hr hn hc (segCalls refusals 0 done) with
      ⟨hcrash, hrun⟩ | ⟨hcrash, -, l', hrun, -⟩ | ⟨hcorrupt, h', -, hrun, -⟩
    · rw [hrun]
      refine ⟨?_, fun h => absurd hcrash h⟩
      rintro ⟨r, l', hret, -⟩
      cases hret
    · rw [hrun, pure_bind]
      exact ⟨fun _ => hcrash, fun _ => ⟨_, _, rfl, by rintro ⟨⟩, fun _ => ⟨_, rfl⟩⟩⟩
    · rw [hrun, pure_bind]
      exact ⟨fun _ h => hcorrupt h.corrupts, fun _ => ⟨_, _, rfl, by rintro ⟨⟩, fun _ => ⟨_, rfl⟩⟩⟩
  · rw [hread, allKept_none refusals hnone]
    rcases callAll_spec alloc hr hn hc (segCalls refusals 0 (segments qs)) with
      ⟨hcrash, hrun⟩ | ⟨-, hcorrupt, l', hrun, hcoded⟩ | ⟨hcorrupt, h', shape', hrun, hr'⟩
    · rw [hrun]
      refine ⟨?_, fun h => absurd hcrash.corrupts h.1⟩
      rintro ⟨r, l', hret, -⟩
      cases hret
    · rw [hrun, pure_bind]
      refine ⟨?_, fun h => absurd hcorrupt h.1⟩
      rintro ⟨r, l'', hret, hparsed, -⟩
      obtain ⟨rfl, rfl⟩ := Prod.mk.inj (pure_inj hret)
      obtain ⟨pre, c, post, hsplit, -⟩ := hcorrupt
      obtain ⟨seg, hseg, -⟩ := mem_segCalls (hsplit ▸ (by simp : c ∈ pre ++ c :: post))
      obtain ⟨d, -, -, hexists⟩ := hparsed rfl seg hseg
      rw [Lists.nvlExists, Lists.named, hcoded, if_pos rfl] at hexists
      cases hexists
    · have hexists : ∀ d, ({ l with heap := h' } : Lists N A M).nvlExists nvl d = pure true ↔
          map d ≠ none ∨ ∃ c ∈ segCalls (N := N) refusals 0 (segments qs), c.puts ∧ c.name = d := by
        intro d
        rw [Lists.nvlExists, Lists.named, hc, if_neg Bool.false_ne_true, pure_bind,
          (hr'.answers (modify_self hn _)).exist d, ← setCalls_ne_none, Option.ne_none_iff_isSome]
        exact ⟨fun heq => pure_inj heq, fun heq => by rw [heq]⟩
      rw [hrun, pure_bind]
      constructor
      · rintro ⟨r, l'', hret, hparsed, -⟩
        obtain ⟨rfl, rfl⟩ := Prod.mk.inj (pure_inj hret)
        refine ⟨hcorrupt, fun seg hseg => ?_⟩
        obtain ⟨d, hd, hv, hex⟩ := hparsed rfl seg hseg
        exact ⟨d, hd, hv, (hexists d).mp hex⟩
      · rintro ⟨-, hall⟩
        refine ⟨_, _, rfl, fun _ seg hseg => ?_, ?_⟩
        · obtain ⟨d, hd, hv, hname⟩ := hall seg hseg
          exact ⟨d, hd, hv, (hexists d).mpr hname⟩
        · rintro ⟨seg, hseg, hmal⟩
          obtain ⟨d, hd, hv, -⟩ := hall seg hseg
          refine absurd ⟨?_, hv⟩ (malformed_of_decode hmal (hnone seg hseg))
          rw [hd]
          rfl

end Dropped

/-- One empty nvlist. -/
def oneNvl : Lists Unit Nat (PlainMem Nat) where
  heap := nvlAlloc (Heap.empty Unit (freshMem Nat)) ()
  coded := fun _ => false

/-- All names are put into the nvlist if no request is refused. -/
theorem not_corrupts {N : Type} {map : NvMap N} {calls : List (Call N)} (h : ∀ c ∈ calls, c.puts = true) :
    ¬Corrupts map calls := by
  rintro ⟨pre, c, post, rfl, -, -, hname⟩
  rw [(Call.puts_iff.mp (h c (by simp))).2.1] at hname
  cases hname

theorem puts_segCalls {N : Type} {refusals : Nat → Refusals} (hmem : ∀ k, refusals k = .none) {segs : List Bytes}
    {k : Nat} : ∀ c ∈ segCalls (N := N) refusals k segs, c.puts = true := by
  induction segs generalizing k with
  | nil => exact List.forall_mem_nil _
  | cons seg segs ih =>
    intro c hc
    rw [segCalls, List.mem_append, Option.mem_toList, Option.map_eq_some_iff] at hc
    rcases hc with ⟨e, -, rfl⟩ | hc
    · exact Call.puts_of_none (hmem k)
    · exact ih c hc

/-- All requests for copies are refused; a name and a value of one character need none. -/
theorem qstring_parsed_iff_two : ∃ r l',
    qstringParseLen (fun _ => ⟨true, true, false⟩) natAllocator (some ()) (some (text ['a', '=', '+', '&', 'b'])) 5
        oneNvl = pure (r, l') ∧
      (r = .ok () → ∀ seg ∈ segments (text ['a', '=', '+', '&', 'b']), Parsed l' () seg) ∧
      ((∃ seg ∈ segments (text ['a', '=', '+', '&', 'b']), Malformed seg) → ∃ e, r = .error e) := by
  refine (qstring_parsed_iff (fun _ => ⟨true, true, false⟩) natAllocator () (text ['a', '=', '+', '&', 'b'])
    (nvlAlloc_spec (related_empty (freshMem Nat)) ()) (Function.update_self ..) rfl).mpr (.inr ?_)
  have hsegs : segments (text ['a', '=', '+', '&', 'b']) = [text ['a', '=', '+'], text ['b']] := by decide
  have hcalls : segCalls (N := Unit) (fun _ => ⟨true, true, false⟩) 0 [text ['a', '=', '+'], text ['b']] =
      [⟨cstr (text ['a']), .str (cstr (text [' '])), ⟨true, true, false⟩⟩,
        ⟨cstr (text ['b']), .null, ⟨true, true, false⟩⟩] := rfl
  have ha : (⟨cstr (text ['a']), .str (cstr (text [' '])), ⟨true, true, false⟩⟩ : Call Unit).puts = true := by decide
  have hb : (⟨cstr (text ['b']), .null, ⟨true, true, false⟩⟩ : Call Unit).puts = true := by decide
  rw [hsegs, hcalls]
  refine ⟨by simp; decide, not_corrupts (by simp [ha, hb]), ?_⟩
  rw [List.forall_mem_cons, List.forall_mem_singleton]
  exact ⟨⟨cstr (text ['a']), by decide, by decide, .inr ⟨_, List.mem_cons_self, ha, rfl⟩⟩,
    ⟨cstr (text ['b']), by decide, by decide, .inr ⟨_, List.mem_cons_of_mem _ List.mem_cons_self, hb, rfl⟩⟩⟩

/-- The escape in `a=%4&b` is not complete: the value of `a` is dropped, and 0 is returned. -/
theorem qstring_drops : ∃ l',
    qstringParseLen (fun _ => .none) natAllocator (some ()) (some (text ['a', '=', '%', '4', '&', 'b'])) 6
        oneNvl = pure (.ok (), l') ∧
      text ['a', '=', '%', '4'] ∈ segments (text ['a', '=', '%', '4', '&', 'b']) ∧
      Malformed (text ['a', '=', '%', '4']) ∧ ¬Parsed l' () (text ['a', '=', '%', '4']) := by
  have hdec : percentDecode (text ['%', '4']) = none := by decide
  have hread : readSegments (segments (text ['a', '=', '%', '4', '&', 'b'])) =
      ([text ['a', '=', '%', '4'], text ['b']], .ok ()) := by decide
  have hrun := qstringParseLen_run (fun _ => .none) natAllocator () (text ['a', '=', '%', '4', '&', 'b']) oneNvl
  rw [hread] at hrun
  have hcorrupt : ¬Corrupts (N := Unit) (fun _ => none)
      (segCalls (fun _ => .none) 0 [text ['a', '=', '%', '4'], text ['b']]) := not_corrupts (puts_segCalls fun _ => rfl)
  rcases callAll_spec natAllocator (nvlAlloc_spec (related_empty (freshMem Nat)) ()) (Function.update_self ..)
      (rfl : oneNvl.coded () = false) (segCalls (fun _ => .none) 0 [text ['a', '=', '%', '4'], text ['b']]) with
    ⟨hcrash, -⟩ | ⟨-, hcorrupt', -⟩ | ⟨-, h', -, hcalls, -⟩
  · exact absurd hcrash.corrupts hcorrupt
  · exact absurd hcorrupt' hcorrupt
  · refine ⟨_, hrun.trans (congrArg (· >>= _) hcalls), by decide, .inr (.inl ⟨text ['%', '4'], by decide, ?_⟩), ?_⟩
    · exact (percentDecode_eq_none_iff _).mp hdec
    · rintro ⟨d, -, hv, -⟩
      have := hv (text ['%', '4']) (by decide)
      rw [hdec] at this
      cases this

/-! ## Encoded entries -/

/-- The encoded bytes are decoded, and have no separators. -/
theorem FormEncodes.decode {b t : Bytes} (h : FormEncodes b t) : percentDecode t = some b := by
  induction h with
  | nil => rfl
  | lit hc _ ih =>
    rw [percentDecode_char hc.1, ih, if_neg hc.2.1]
    rfl
  | plus _ ih =>
    rw [percentDecode_char (by decide), ih, if_pos rfl]
    rfl
  | @esc c x y b t hx hy _ ih =>
    have hbyte : UInt8.ofNat (16 * (c.toNat / 16) + c.toNat % 16) = c := by
      rw [Nat.div_add_mod, UInt8.ofNat_toNat]
    rw [percentDecode_esc hx hy, ih, Option.map_some, hbyte]

theorem hexValue_no_separator {x : UInt8} {n : Nat} (h : hexValue x = some n) :
    ch '&' ≠ x ∧ ch '=' ≠ x := by
  constructor
  · rintro rfl
    cases h
  · rintro rfl
    cases h

theorem FormEncodes.no_separator {b t : Bytes} (h : FormEncodes b t) : ch '&' ∉ t ∧ ch '=' ∉ t := by
  induction h with
  | nil => simp
  | lit hc _ ih =>
    simp only [List.mem_cons, not_or]
    exact ⟨⟨Ne.symm hc.2.2.1, ih.1⟩, ⟨Ne.symm hc.2.2.2, ih.2⟩⟩
  | plus _ ih =>
    simp only [List.mem_cons, not_or]
    exact ⟨⟨by decide, ih.1⟩, ⟨by decide, ih.2⟩⟩
  | esc hx hy _ ih =>
    simp only [List.mem_cons, not_or]
    exact ⟨⟨by decide, (hexValue_no_separator hx).1, (hexValue_no_separator hy).1, ih.1⟩,
      ⟨by decide, (hexValue_no_separator hx).2, (hexValue_no_separator hy).2, ih.2⟩⟩

theorem FormEncodes.ne_nil {b t : Bytes} (h : FormEncodes b t) (hb : b ≠ []) : t ≠ [] := by
  rintro rfl
  cases h
  exact hb rfl

/-- The name and the value of the text of an entry. -/
theorem EntryEncodes.parts {e : CStr × Option CStr} {t : Bytes} (h : EntryEncodes e t) :
    ch '&' ∉ t ∧ ¬TwoEquals t ∧
      ∀ N : Type, entryOf (N := N) (segName t) (segValue t) = some (e.1, e.2.elim .null .str) := by
  cases h with
  | @null name t ht =>
    obtain ⟨hamp, heq⟩ := ht.no_separator
    obtain ⟨hname, hval⟩ := seg_plain heq
    refine ⟨hamp, ?_, fun N => ?_⟩
    · rintro ⟨v, hv, -⟩
      cases hval.symm.trans hv
    · rw [hname, hval, entryOf, ht.decode]
      simp [cstr_val]
  | @str name val t u ht hu =>
    obtain ⟨hamp, heq⟩ := ht.no_separator
    obtain ⟨hamp', heq'⟩ := hu.no_separator
    obtain ⟨hname, hval⟩ := seg_append heq u
    refine ⟨?_, ?_, fun N => ?_⟩
    · simp only [List.mem_append, List.mem_cons, not_or]
      exact ⟨hamp, by decide, hamp'⟩
    · rintro ⟨v, hv, hmem⟩
      obtain rfl := Option.some.inj (hval.symm.trans hv)
      exact heq' hmem
    · rw [hname, hval, entryOf, ht.decode]
      simp [hu.decode, cstr_val]

theorem EntryEncodes.ne_nil {e : CStr × Option CStr} {t : Bytes} (h : EntryEncodes e t)
    (he : ¬(e.1.1 = [] ∧ e.2 = none)) : t ≠ [] := by
  cases h with
  | null ht => exact ht.ne_nil fun hnil => he ⟨hnil, rfl⟩
  | str _ _ => simp

theorem segments_intercalate {texts : List Bytes} (h : ∀ t ∈ texts, t ≠ [] ∧ ch '&' ∉ t) :
    segments ([ch '&'].intercalate texts) = texts := by
  induction texts with
  | nil => rfl
  | cons t texts ih =>
    obtain ⟨ht, htexts⟩ := List.forall_mem_cons.mp h
    cases texts with
    | nil =>
      rw [List.intercalate_singleton]
      exact segments_last ht.1 ht.2
    | cons u texts =>
      rw [List.intercalate_cons_cons, List.append_assoc, List.singleton_append, segments_append ht.2, ih htexts]

/-- The segments of encoded entries set the entries. -/
theorem setCalls_entries {N : Type} {refusals : Nat → Refusals} (hmem : ∀ k, refusals k = .none)
    {entries : List (CStr × Option CStr)} {texts : List Bytes} (h : List.Forall₂ EntryEncodes entries texts) (k : Nat)
    (map : NvMap N) :
    setCalls (segCalls refusals k texts) map = setEntries entries map ∧ ¬Corrupts map (segCalls refusals k texts) := by
  induction h generalizing k map with
  | nil => exact ⟨rfl, not_corrupts_nil⟩
  | @cons e t entries texts he _ ih =>
    have hcalls : segCalls refusals k (t :: texts) =
        (⟨e.1, e.2.elim .null .str, refusals k⟩ : Call N) :: segCalls refusals (k + 1) texts := by
      rw [segCalls, he.parts.2.2 N]
      rfl
    have hputs : (⟨e.1, e.2.elim .null .str, refusals k⟩ : Call N).puts = true := Call.puts_of_none (hmem k)
    have hset : setCall (⟨e.1, e.2.elim .null .str, refusals k⟩ : Call N) map = map.set e.1 (e.2.elim .null .str) := by
      rw [setCall, (Call.puts_iff.mp hputs).1, hputs, Bool.or_true]
      rfl
    rw [hcalls, (harmless_set (.inr hputs)).corrupts]
    refine ⟨?_, (ih (k + 1) _).2⟩
    show setCalls _ (setCall _ map) = _
    rw [hset, (ih (k + 1) _).1]
    rfl

section RoundTrip

variable {N A M : Type} [DecidableEq N] [DecidableEq A] [TreeMem A M] [LawfulTreeMem A M]
  (refusals : Nat → Refusals) (alloc : Allocator A) (nvl : N) {σ : NvState N} {shape : N → BTree A}
  {map : NvMap N} {l : Lists N A M}

/-- Entries that are form-encoded are read back: the nvlist is updated with them in their order. -/
theorem qstring_round_trip (hr : Related l.heap σ shape) (hn : σ nvl = some map) (hc : l.coded nvl = false)
    (hmem : ∀ k, refusals k = .none) (entries : List (CStr × Option CStr)) (texts : List Bytes)
    (hentries : ∀ e ∈ entries, ¬(e.1.1 = [] ∧ e.2 = none))
    (htexts : List.Forall₂ EntryEncodes entries texts) (qs : Bytes)
    (hqs : qs = [ch '&'].intercalate texts) :
    ∃ h' shape', qstringParseLen refusals alloc (some nvl) (some qs) qs.length l =
        pure (.ok (), { l with heap := h' }) ∧
      Related h' (σ.modify nvl (setEntries entries)) shape' ∧
      Answers h' nvl (setEntries entries map) := by
  have hall : ∀ t ∈ texts, ∃ e ∈ entries, EntryEncodes e t := by
    clear hentries hqs
    induction htexts with
    | nil => simp
    | cons he _ ih =>
      rw [List.forall_mem_cons]
      refine ⟨⟨_, List.mem_cons_self, he⟩, fun t ht => ?_⟩
      obtain ⟨e, hmem, he⟩ := ih t ht
      exact ⟨e, List.mem_cons_of_mem _ hmem, he⟩
  have hsegs : segments qs = texts := by
    rw [hqs]
    refine segments_intercalate fun t ht => ?_
    obtain ⟨e, hmem, he⟩ := hall t ht
    exact ⟨he.ne_nil (hentries e hmem), he.parts.1⟩
  obtain ⟨hset, hcorrupt⟩ := setCalls_entries hmem htexts 0 map
  rcases readSegments_cases texts with ⟨done, seg, todo, hsplit, htwo, -⟩ | ⟨-, hread⟩
  · obtain ⟨e, -, he⟩ := hall seg (by rw [hsplit]; simp)
    exact absurd htwo he.parts.2.1
  · rw [qstringParseLen_run, hsegs, hread]
    rcases callAll_spec alloc hr hn hc (segCalls refusals 0 texts) with
      ⟨hcrash, -⟩ | ⟨-, hcorrupt', -⟩ | ⟨-, h', shape', hrun, hr'⟩
    · exact absurd hcrash.corrupts hcorrupt
    · exact absurd hcorrupt' hcorrupt
    · have hmod : σ.modify nvl (setCalls (segCalls refusals 0 texts)) = σ.modify nvl (setEntries entries) := by
        rw [Related.modify_eq hn, Related.modify_eq hn, hset]
      rw [hmod] at hr'
      exact ⟨h', shape', by rw [hrun]; rfl, hr', hr'.answers (modify_self hn _)⟩

end RoundTrip

/-- The entries of `a+b=%2f&c`. -/
theorem qstring_round_trip_two : ∃ h' shape',
    qstringParseLen (fun _ => .none) natAllocator (some ())
        (some (text ['a', '+', 'b', '=', '%', '2', 'f', '&', 'c'])) 9 oneNvl =
      pure (.ok (), { oneNvl with heap := h' }) ∧
      Related h' (NvState.modify (Function.update (fun _ => none) () (some fun _ => none)) ()
        (setEntries [(⟨text ['a', ' ', 'b'], by decide⟩, some ⟨text ['/'], by decide⟩),
          (⟨text ['c'], by decide⟩, none)])) shape' ∧
      Answers h' () (setEntries [(⟨text ['a', ' ', 'b'], by decide⟩, some ⟨text ['/'], by decide⟩),
        (⟨text ['c'], by decide⟩, none)] fun _ => none) := by
  refine qstring_round_trip (fun _ => .none) natAllocator ()
    (nvlAlloc_spec (related_empty (freshMem Nat)) ()) (Function.update_self ..) rfl (fun _ => rfl) _
    [text ['a', '+', 'b', '=', '%', '2', 'f'], text ['c']] (by decide) (.cons ?_ (.cons ?_ .nil)) _
    (by decide)
  · exact .str (t := text ['a', '+', 'b']) (u := text ['%', '2', 'f'])
      (.lit (by decide) (.plus (.lit (by decide) .nil))) (.esc (by decide) (by decide) .nil)
  · exact .null (.lit (by decide) .nil)

end Libjeffpc.Url
