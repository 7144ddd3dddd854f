import Libjeffpc.Nvl.Proofs.RefusedProofs
import Libjeffpc.Scgi.Scgisvc

/-!
# Where the header loop reads

The block of a netstring is a sequence of strings with a NUL after each, the last NUL being the one
that replaces the comma. A round takes two of them, but looks at the end of the block before the first
one only. It leaves the buffer when its name is the last string, unless a request for memory that is refused has
ended it before.
-/

namespace Libjeffpc.Scgi

open Lib Libjeffpc.Tree Libjeffpc.Nvl

/-! ## Reading -/

/-- However the bytes are cut into pieces, `xread` returns all that were asked for, or uses up what is
there. -/
theorem xread_spec (fd : Fd) (n : Nat) : ∃ pieces, xread fd n =
    if n ≤ fd.input.length then (.ok (fd.input.take n), { fd with input := fd.input.drop n, pieces })
    else (.error (fd.err.getD .EPIPE), { fd with input := [], pieces }) := by
  induction n using Nat.strong_induction_on generalizing fd with
  | _ n ih =>
  rw [xread]
  by_cases hn : n = 0
  · subst hn
    exact ⟨fd.pieces, by simp⟩
  rw [if_neg hn]
  set k := min (fd.pieces 0 + 1) n with hk
  rcases hinput : fd.input with _ | ⟨c, cs⟩
  · -- the stream has ended
    refine ⟨fun k => fd.pieces (k + 1), ?_⟩
    rw [if_neg (by simpa using hn), read, hinput]
    cases fd.err with
    | none => simp
    | some e => simp
  · have hread : read fd n = (.ok ((c :: cs).take k),
        { fd with input := (c :: cs).drop k, pieces := fun k => fd.pieces (k + 1) }) := by
      rw [read, hinput]
    have hpos : 0 < k := by omega
    have hne : (c :: cs).take k ≠ [] := by simp; omega
    obtain ⟨pieces, hrest⟩ := ih (n - ((c :: cs).take k).length)
      (by have := List.length_pos_of_ne_nil hne; omega)
      { fd with input := (c :: cs).drop k, pieces := fun k => fd.pieces (k + 1) }
    refine ⟨pieces, ?_⟩
    rw [hread]
    dsimp only
    rw [if_neg hne, hrest]
    dsimp only
    have hkn : k ≤ n := min_le_right _ _
    rcases Nat.lt_or_ge (c :: cs).length n with hlt | hge
    · rw [if_neg (by rw [List.length_take, List.length_drop]; omega), if_neg (by omega)]
    · have hlen : ((c :: cs).take k).length = k := List.length_take_of_le (hkn.trans hge)
      rw [if_pos hge, hlen, if_pos (by rw [List.length_drop]; omega), List.drop_drop]
      dsimp only
      rw [← List.take_add, Nat.add_sub_cancel' hkn]

/-! ## Strings in a buffer -/

theorem findIdx_cstr (s : CStr) (b : Bytes) : (s.1 ++ 0 :: b).findIdx (· = 0) = s.1.length := by
  rw [List.findIdx_append, if_neg]
  · simp [List.findIdx_cons]
  · rw [List.findIdx_lt_length]
    rintro ⟨x, hx, h0⟩
    exact s.2 (by simpa using (of_decide_eq_true h0) ▸ hx)

theorem strlenAt_cstr (pre : Bytes) (s : CStr) (b : Bytes) :
    strlenAt (pre ++ (s.1 ++ 0 :: b)) pre.length = pure s.1.length := by
  have hidx : ((pre ++ (s.1 ++ 0 :: b)).drop pre.length).findIdx (· = 0) = s.1.length := by
    rw [List.drop_left, findIdx_cstr]
  rw [strlenAt, hidx, if_pos]
  simp

theorem cstr_append (s : CStr) (b : Bytes) : cstr (s.1 ++ 0 :: b) = s := by
  rw [cstr_append_nul, cstr_val]

theorem cstrAt_cstr (pre : Bytes) (s : CStr) (b : Bytes) :
    cstrAt (pre ++ (s.1 ++ 0 :: b)) pre.length = pure s := by
  rw [cstrAt, strlenAt_cstr, pure_bind, List.drop_left, cstr_append]

/-- There is nothing to read after the buffer. -/
theorem strlenAt_outside {buf : Bytes} {i : Nat} (h : buf.length ≤ i) :
    strlenAt buf i = throw .bounds := by
  rw [strlenAt, if_neg]
  omega

/-- A block starts with a string and its NUL, or has no NUL at all. -/
theorem split_block (b : Bytes) :
    (∃ (s : CStr) (b' : Bytes), b = s.1 ++ 0 :: b') ∨ (0 : UInt8) ∉ b := by
  by_cases h : (0 : UInt8) ∈ b
  · obtain ⟨s, b', hb, hs⟩ := List.eq_append_cons_of_mem h
    exact Or.inl ⟨⟨s, hs⟩, b', hb⟩
  · exact Or.inr h

/-! ## Names and values -/

theorem headerPairs_no_nul {b : Bytes} (h0 : (0 : UInt8) ∉ b) : headerPairs b = [] := by
  rw [headerPairs, List.splitOn_eq_singleton h0]
  rfl

theorem headerPairs_one_nul (s : CStr) {b : Bytes} (h0 : (0 : UInt8) ∉ b) :
    headerPairs (s.1 ++ 0 :: b) = [(s, ⟨b, h0⟩)] := by
  rw [headerPairs, List.splitOn_append_cons_self_of_not_mem s.2, List.splitOn_eq_singleton h0]
  show [(cstr s.1, cstr (⟨b, h0⟩ : CStr).1)] = _
  rw [cstr_val, cstr_val]

theorem headerPairs_pair (s v : CStr) (b : Bytes) :
    headerPairs (s.1 ++ 0 :: (v.1 ++ 0 :: b)) = (s, v) :: headerPairs b := by
  rw [headerPairs, List.splitOn_append_cons_self_of_not_mem s.2, List.splitOn_append_cons_self_of_not_mem v.2]
  show (cstr s.1, cstr v.1) :: headerPairs b = _
  rw [cstr_val, cstr_val]

theorem not_matched_no_nul {b : Bytes} (hb : b ≠ []) (h0 : (0 : UInt8) ∉ b) : ¬Matched b := by
  have hc : b.count 0 = 0 := List.count_eq_zero.mpr h0
  rintro (h | h)
  · omega
  · rw [List.getLastD_eq_getLast?, List.getLast?_eq_some_getLast hb] at h
    exact h0 (by simpa using h ▸ List.getLast_mem hb)

theorem matched_one_nul (s : CStr) {b : Bytes} (h0 : (0 : UInt8) ∉ b) : Matched (s.1 ++ 0 :: b) := by
  have hs := List.count_eq_zero.mpr s.2
  have hb := List.count_eq_zero.mpr h0
  left
  rw [List.count_append, List.count_cons_self, hs, hb]

/-- A name and its value use up two NULs. -/
theorem matched_pair (s v : CStr) (b : Bytes) : Matched (s.1 ++ 0 :: (v.1 ++ 0 :: b)) ↔ Matched b := by
  have hs := List.count_eq_zero.mpr s.2
  have hv := List.count_eq_zero.mpr v.2
  have hc : (s.1 ++ 0 :: (v.1 ++ 0 :: b)).count 0 = b.count 0 + 2 := by
    simp only [List.count_append, List.count_cons_self, hs, hv]
    omega
  have hl : (s.1 ++ 0 :: (v.1 ++ 0 :: b)).getLastD 0 = b.getLastD 0 := by
    rw [List.getLastD_eq_getLast?, List.getLastD_eq_getLast?]
    cases b <;> simp [List.getLast?_append, List.getLast?_cons]
  rw [Matched, Matched, hc, hl, Nat.add_mod_right]

/-! ## The call that is refused something -/

section Lost

variable {N : Type} {map : NvMap N} {calls pre post : List (Call N)} {c d : Call N}

theorem lost_nil : Lost map [] c ↔ c.valueRefused ∨ map c.name = none ∧ (c.nameRefused ∨ c.refused.pair) := by
  rw [Lost, new_nil]

theorem not_firstLost_nil : ¬FirstLost map [] pre d post := fun h => by
  have hsplit := h.split
  simp at hsplit

/-- The first call is refused something. -/
theorem firstLost_lost (hc : Lost map [] c) :
    FirstLost map (c :: calls) pre d post ↔ pre = [] ∧ d = c ∧ post = calls := by
  constructor
  · rintro ⟨hsplit, -, hbefore⟩
    cases pre with
    | nil =>
      obtain ⟨rfl, rfl⟩ := List.cons.inj hsplit
      exact ⟨rfl, rfl, rfl⟩
    | cons e pre =>
      obtain ⟨rfl, -⟩ := List.cons.inj hsplit
      exact absurd hc (hbefore [] c pre rfl)
  · rintro ⟨rfl, rfl, rfl⟩
    exact ⟨rfl, hc, fun pre' e post' h => by simp at h⟩

/-- The first call sets its name. -/
theorem lost_set (hset : map c.name ≠ none ∨ c.puts = true) :
    Lost map (c :: pre) d ↔ Lost (map.set c.name c.value) pre d := by
  rw [Lost, Lost, new_set hset]

theorem firstLost_set (hv : c.valueRefused = false) (hset : map c.name ≠ none ∨ c.puts = true) :
    FirstLost map (c :: calls) pre d post ↔
      ∃ pre', pre = c :: pre' ∧ FirstLost (map.set c.name c.value) calls pre' d post := by
  have hkept : ¬Lost map [] c := by
    rw [lost_nil, hv]
    rintro (h | ⟨hnone, hlost⟩)
    · cases h
    · obtain ⟨-, hname, hpair⟩ := Call.puts_iff.mp (hset.resolve_left fun h => h hnone)
      rw [hname, hpair] at hlost
      exact hlost.elim Bool.false_ne_true Bool.false_ne_true
  constructor
  · rintro ⟨hsplit, hlost, hbefore⟩
    cases pre with
    | nil =>
      obtain ⟨rfl, -⟩ := List.cons.inj hsplit
      exact absurd hlost hkept
    | cons e pre =>
      obtain ⟨rfl, htail⟩ := List.cons.inj hsplit
      refine ⟨pre, rfl, htail, (lost_set hset).mp hlost, fun pre' e post' h hl => ?_⟩
      exact hbefore (c :: pre') e post' (congrArg (c :: ·) h) ((lost_set hset).mpr hl)
  · rintro ⟨pre', rfl, hsplit, hlost, hbefore⟩
    refine ⟨congrArg (c :: ·) hsplit, (lost_set hset).mpr hlost, fun pre e post' h hl => ?_⟩
    cases pre with
    | nil =>
      obtain ⟨rfl, -⟩ := List.cons.inj h
      exact hkept hl
    | cons f pre =>
      obtain ⟨rfl, htail⟩ := List.cons.inj h
      exact hbefore pre e post' htail ((lost_set hset).mp hl)

theorem stops_lost (hc : Lost map [] c) : Stops map (c :: calls) ↔
    c.valueRefused ∨ c.refused.pair ∨ (∃ name, map name ≠ none) ∨ calls ≠ [] := by
  constructor
  · rintro ⟨pre, d, post, hfirst, h⟩
    obtain ⟨rfl, rfl, rfl⟩ := (firstLost_lost hc).mp hfirst
    exact h.imp_right fun h => h.imp_right fun h => h.resolve_left fun hne => hne rfl
  · intro h
    exact ⟨[], c, calls, (firstLost_lost hc).mpr ⟨rfl, rfl, rfl⟩, h.imp_right fun h => h.imp_right Or.inr⟩

theorem crashes_lost (hc : Lost map [] c) : Crashes map (c :: calls) ↔ ¬c.valueRefused ∧ c.nameRefused ∧
    (c.refused.pair ∨ (∃ name, map name ≠ none) ∨ ∃ d post', calls = d :: post' ∧ ¬d.valueRefused) := by
  constructor
  · rintro ⟨pre, d, post, hfirst, hv, hname, h⟩
    obtain ⟨rfl, rfl, rfl⟩ := (firstLost_lost hc).mp hfirst
    exact ⟨hv, hname, h.imp_right fun h => h.resolve_left fun hne => hne rfl⟩
  · rintro ⟨hv, hname, h⟩
    exact ⟨[], c, calls, (firstLost_lost hc).mpr ⟨rfl, rfl, rfl⟩, hv, hname, h.imp_right Or.inr⟩

theorem stops_set (hv : c.valueRefused = false) (hset : map c.name ≠ none ∨ c.puts = true) :
    Stops map (c :: calls) ↔ Stops (map.set c.name c.value) calls := by
  have hsome : ∃ name, map.set c.name c.value name ≠ none :=
    ⟨c.name, by rw [NvMap.set, Function.update_self]; exact Option.some_ne_none _⟩
  constructor
  · rintro ⟨pre, d, post, hfirst, -⟩
    obtain ⟨pre', -, hfirst⟩ := (firstLost_set hv hset).mp hfirst
    exact ⟨pre', d, post, hfirst, .inr (.inr (.inr (.inl hsome)))⟩
  · rintro ⟨pre', d, post, hfirst, -⟩
    exact ⟨c :: pre', d, post, (firstLost_set hv hset).mpr ⟨pre', rfl, hfirst⟩,
      .inr (.inr (.inl (List.cons_ne_nil _ _)))⟩

theorem crashes_set (hv : c.valueRefused = false) (hset : map c.name ≠ none ∨ c.puts = true) :
    Crashes map (c :: calls) ↔ Crashes (map.set c.name c.value) calls := by
  have hsome : ∃ name, map.set c.name c.value name ≠ none :=
    ⟨c.name, by rw [NvMap.set, Function.update_self]; exact Option.some_ne_none _⟩
  constructor
  · rintro ⟨pre, d, post, hfirst, hd, hname, -⟩
    obtain ⟨pre', -, hfirst⟩ := (firstLost_set hv hset).mp hfirst
    exact ⟨pre', d, post, hfirst, hd, hname, .inr (.inr (.inl hsome))⟩
  · rintro ⟨pre', d, post, hfirst, hd, hname, -⟩
    exact ⟨c :: pre', d, post, (firstLost_set hv hset).mpr ⟨pre', rfl, hfirst⟩, hd, hname,
      .inr (.inl (List.cons_ne_nil _ _))⟩

theorem not_stops_nil : ¬Stops map [] := by
  rintro ⟨_, _, _, h, _⟩
  exact not_firstLost_nil h

theorem not_crashes_nil : ¬Crashes map [] := by
  rintro ⟨_, _, _, h, _⟩
  exact not_firstLost_nil h

theorem Crashes.stops (h : Crashes map calls) : Stops map calls := by
  obtain ⟨pre, c, post, hfirst, -, -, hother⟩ := h
  refine ⟨pre, c, post, hfirst, .inr ?_⟩
  rcases hother with h | h | h | ⟨d, post', rfl, -⟩
  · exact .inl h
  · exact .inr (.inl h)
  · exact .inr (.inr (.inl h))
  · exact .inr (.inr (.inr (List.cons_ne_nil _ _)))

end Lost

/-! ## The loop -/

section Loop

variable {N A M : Type} [DecidableEq N] [DecidableEq A] [TreeMem A M] [LawfulTreeMem A M]
  (mem : Memory) (alloc : Allocator A) {σ : NvState N} {shape : N → BTree A} {headers : N}
  {l : Lists N A M} {map : NvMap N}

/-- What follows a call of `nvl_set_cstr_dup`. -/
def headerNext (round cur : Nat) (r : Except Errno Unit × Lists N A M) :
    (Nat × Nat × Lists N A M) ⊕ (Except Errno Unit × Lists N A M) :=
  match r.1 with
  | .error e => .inr (.error e, r.2)
  | .ok _ => .inl (round, cur, r.2)

variable (headers l) in
omit [LawfulTreeMem A M] in
/-- A round reads a name and a value that are both inside, and sets them. -/
theorem headerRound_pair (pre : Bytes) (s v : CStr) (b : Bytes) {len : Nat} (hlen : pre.length < len) (k : Nat) :
    headerRound mem alloc headers (pre ++ (s.1 ++ 0 :: (v.1 ++ 0 :: b))) len (k, pre.length, l) =
      (l.call alloc ⟨s, .str v, mem.refusals k⟩ headers >>= fun r =>
        pure (headerNext (k + 1) (pre.length + s.1.length + 1 + v.1.length + 1) r)) := by
  have hbuf : pre ++ (s.1 ++ 0 :: (v.1 ++ 0 :: b)) = (pre ++ (s.1 ++ [0])) ++ (v.1 ++ 0 :: b) := by simp
  have hval : (pre ++ (s.1 ++ [0])).length = pre.length + s.1.length + 1 := by simp; omega
  have hvlen : strlenAt (pre ++ (s.1 ++ 0 :: (v.1 ++ 0 :: b))) (pre.length + s.1.length + 1) = pure v.1.length := by
    rw [hbuf, ← hval, strlenAt_cstr]
  have hv : cstrAt (pre ++ (s.1 ++ 0 :: (v.1 ++ 0 :: b))) (pre.length + s.1.length + 1) = pure v := by
    rw [hbuf, ← hval, cstrAt_cstr]
  rw [headerRound, if_pos hlen]
  simp only [strlenAt_cstr, cstrAt_cstr, pure_bind, setHeader, hv, hvlen]
  refine congrArg (l.call alloc ⟨s, .str v, mem.refusals k⟩ headers >>= ·) (funext fun r => ?_)
  obtain ⟨_ | _, l'⟩ := r <;> rfl

/-- How the loop ends: it comes to a code, or it returns, or it leaves the buffer. -/
def Ends {ρ : Type} (map : NvMap N) (calls : List (Call N)) (matched : Prop) (run : Comp ρ) : Prop :=
  (Crashes map calls ∧ run = throw .code) ∨
  (¬Crashes map calls ∧ (matched ∨ Stops map calls) ∧ ∃ r, run = pure r) ∨
  (¬matched ∧ ¬Stops map calls ∧ run = throw .bounds)

/-- How it ends after a call that has left a code: the next call for a value that is there comes to it. -/
def EndsCoded {ρ : Type} (calls : List (Call N)) (matched : Prop) (run : Comp ρ) : Prop :=
  (∃ c post, calls = c :: post ∧
    (c.valueRefused = true ∧ (∃ r, run = pure r) ∨ c.valueRefused = false ∧ run = throw .code)) ∨
  (calls = [] ∧ matched ∧ ∃ r, run = pure r) ∨
  (calls = [] ∧ ¬matched ∧ run = throw .bounds)

omit [DecidableEq N] [DecidableEq A] [TreeMem A M] [LawfulTreeMem A M] in
/-- A code has been left, and the other calls are still to come. -/
theorem EndsCoded.ends {ρ : Type} {c : Call N} {calls : List (Call N)} {matched : Prop} {run : Comp ρ}
    (h : EndsCoded calls matched run) (hv : c.valueRefused = false) (hnew : map c.name = none)
    (hname : c.nameRefused = true) (hpair : c.refused.pair = false) (hempty : ∀ name, map name = none) :
    Ends map (c :: calls) matched run := by
  have hlost : Lost map [] c := lost_nil.mpr (.inr ⟨hnew, .inl hname⟩)
  have hnone : ¬∃ name, map name ≠ none := not_exists_not.mpr hempty
  have hstops : Stops map (c :: calls) ↔ calls ≠ [] := by
    rw [stops_lost hlost, hv, hpair]
    simp [hnone]
  have hcrashes : Crashes map (c :: calls) ↔ ∃ d post', calls = d :: post' ∧ ¬d.valueRefused := by
    rw [crashes_lost hlost, hv, hname, hpair]
    simp [hnone]
  rcases h with ⟨d, post, rfl, ⟨hd, hrun⟩ | ⟨hd, hrun⟩⟩ | ⟨rfl, hmatched, hrun⟩ | ⟨rfl, hmatched, hrun⟩
  · refine .inr (.inl ⟨fun h => ?_, .inr (hstops.mpr (List.cons_ne_nil _ _)), hrun⟩)
    obtain ⟨d', post', heq, hd'⟩ := hcrashes.mp h
    obtain ⟨rfl, -⟩ := List.cons.inj heq
    exact hd' hd
  · exact .inl ⟨hcrashes.mpr ⟨d, post, rfl, by rw [hd]; exact Bool.false_ne_true⟩, hrun⟩
  · refine .inr (.inl ⟨fun h => ?_, .inl hmatched, hrun⟩)
    obtain ⟨d', post', heq, -⟩ := hcrashes.mp h
    cases heq
  · exact .inr (.inr ⟨hmatched, fun h => hstops.mp h rfl, hrun⟩)

/-- One call, and what follows it. -/
theorem ends_call {ρ : Type} {run : Comp ρ} {rest : Lists N A M → Comp ρ} {calls : List (Call N)} {matched : Prop}
    (hr : Related l.heap σ shape) (hn : σ headers = some map) (hc : l.coded headers = false) (c : Call N)
    (herror : ∀ e l', l.call alloc c headers = pure (.error e, l') → ∃ r, run = pure r)
    (hok : ∀ l', l.call alloc c headers = pure (.ok (), l') → run = rest l')
    (hfault : l.call alloc c headers = throw .code → run = throw .code)
    (hset : ∀ h' shape', Related h' (σ.modify headers (·.set c.name c.value)) shape' →
      Ends (map.set c.name c.value) calls matched (rest { l with heap := h' }))
    (hcoded : ∀ l', l'.coded headers = true → EndsCoded calls matched (rest l')) :
    Ends map (c :: calls) matched run := by
  have hspec := Lists.call_spec alloc hr hn hc c
  generalize hcall : l.call alloc c headers = result at hspec
  cases hspec with
  | value hv =>
    have hlost : Lost map [] c := lost_nil.mpr (.inl hv)
    exact .inr (.inl ⟨fun h => ((crashes_lost hlost).mp h).1 hv, .inr ((stops_lost hlost).mpr (.inl hv)),
      herror _ _ hcall⟩)
  | pair hv hnew hname hpair =>
    have hlost : Lost map [] c := lost_nil.mpr (.inr ⟨hnew, .inr hpair⟩)
    refine .inr (.inl ⟨fun h => ?_, .inr ((stops_lost hlost).mpr (.inr (.inl hpair))), herror _ _ hcall⟩)
    exact Bool.false_ne_true (hname.symm.trans ((crashes_lost hlost).mp h).2.1)
  | crash hv hnew hname hother =>
    have hlost : Lost map [] c := lost_nil.mpr (.inr ⟨hnew, .inl hname⟩)
    exact .inl ⟨(crashes_lost hlost).mpr ⟨by rw [hv]; exact Bool.false_ne_true, hname, hother.imp_right Or.inl⟩,
      hfault hcall⟩
  | code hv hnew hname hpair hempty hc' =>
    rw [hok _ hcall]
    exact (hcoded _ hc').ends hv hnew hname hpair hempty
  | set hv hset' hr' =>
    rw [hok _ hcall, Ends, crashes_set hv hset', stops_set hv hset']
    exact hset _ _ hr'

omit [LawfulTreeMem A M] in
/-- The name is the last string of the block: its value would start after the buffer. -/
theorem headerLoop_no_nul {b : Bytes} (hne : b ≠ []) (h0 : (0 : UInt8) ∉ b) (pre : Bytes) (k : Nat) :
    loop (headerRound mem alloc headers (pre ++ (b ++ [0])) (pre ++ b).length) (k, pre.length, l) =
      throw .bounds := by
  have hlt : pre.length < (pre ++ b).length := by
    have := List.length_pos_of_ne_nil hne
    rw [List.length_append]
    omega
  have hname : strlenAt (pre ++ (b ++ [0])) pre.length = pure b.length := strlenAt_cstr pre ⟨b, h0⟩ []
  have hval : strlenAt (pre ++ (b ++ [0])) (pre.length + b.length + 1) = throw .bounds :=
    strlenAt_outside (by simp; omega)
  refine loop_fault ?_
  rw [headerRound, if_pos hlt]
  simp only [hname, pure_bind, setHeader, cstrAt, hval]
  rfl

omit [LawfulTreeMem A M] in
theorem headerLoop_end (buf : Bytes) {len cur : Nat} (hcur : len ≤ cur) (k : Nat) :
    loop (headerRound mem alloc headers buf len) (k, cur, l) = pure (.ok (), l) :=
  loop_done (by rw [headerRound, if_neg (by dsimp only; omega)])

variable (headers l) in
omit [LawfulTreeMem A M] in
/-- The loop at a name and a value. -/
theorem headerLoop_pair (pre : Bytes) (s v : CStr) (b : Bytes) {len : Nat} (hlen : pre.length < len) (k : Nat) :
    (∀ e l', l.call alloc ⟨s, .str v, mem.refusals k⟩ headers = pure (.error e, l') → ∃ r,
      loop (headerRound mem alloc headers (pre ++ (s.1 ++ 0 :: (v.1 ++ 0 :: b))) len) (k, pre.length, l) = pure r) ∧
    (∀ l', l.call alloc ⟨s, .str v, mem.refusals k⟩ headers = pure (.ok (), l') →
      loop (headerRound mem alloc headers (pre ++ (s.1 ++ 0 :: (v.1 ++ 0 :: b))) len) (k, pre.length, l) =
        loop (headerRound mem alloc headers (pre ++ (s.1 ++ 0 :: (v.1 ++ 0 :: b))) len)
          (k + 1, pre.length + s.1.length + 1 + v.1.length + 1, l')) ∧
    (l.call alloc ⟨s, .str v, mem.refusals k⟩ headers = throw .code →
      loop (headerRound mem alloc headers (pre ++ (s.1 ++ 0 :: (v.1 ++ 0 :: b))) len) (k, pre.length, l) =
        throw .code) := by
  have hround := headerRound_pair mem alloc headers l pre s v b hlen k
  refine ⟨fun e l' hcall => ⟨(.error e, l'), loop_done ?_⟩, fun l' hcall => loop_next ?_, fun hcall => loop_fault ?_⟩
  · rw [hround, hcall, pure_bind, headerNext]
  · rw [hround, hcall, pure_bind, headerNext]
  · rw [hround, hcall]
    rfl

omit [LawfulTreeMem A M] in
/-- The rest of a block behind a name and a value. -/
theorem headerLoop_rest (pre : Bytes) (s v : CStr) (b : Bytes) (k : Nat) :
    loop (headerRound mem alloc headers (pre ++ (s.1 ++ 0 :: (v.1 ++ 0 :: (b ++ [0]))))
        (pre ++ (s.1 ++ 0 :: (v.1 ++ 0 :: b))).length) (k, pre.length + s.1.length + 1 + v.1.length + 1, l) =
      loop (headerRound mem alloc headers ((pre ++ (s.1 ++ 0 :: (v.1 ++ [0]))) ++ (b ++ [0]))
        ((pre ++ (s.1 ++ 0 :: (v.1 ++ [0]))) ++ b).length)
        (k, (pre ++ (s.1 ++ 0 :: (v.1 ++ [0]))).length, l) := by
  have hbuf : pre ++ (s.1 ++ 0 :: (v.1 ++ 0 :: (b ++ [0]))) = (pre ++ (s.1 ++ 0 :: (v.1 ++ [0]))) ++ (b ++ [0]) := by
    simp
  have hlen : pre ++ (s.1 ++ 0 :: (v.1 ++ 0 :: b)) = (pre ++ (s.1 ++ 0 :: (v.1 ++ [0]))) ++ b := by simp
  have hcur : pre.length + s.1.length + 1 + v.1.length + 1 = (pre ++ (s.1 ++ 0 :: (v.1 ++ [0]))).length := by
    simp
    omega
  rw [hbuf, hlen, hcur]

omit [LawfulTreeMem A M] in
theorem headerLoop_coded (hc : l.coded headers = true) (b pre : Bytes) (k : Nat) :
    EndsCoded (headerCalls mem.refusals k (headerPairs b) : List (Call N)) (Matched b)
      (loop (headerRound mem alloc headers (pre ++ (b ++ [0])) (pre ++ b).length) (k, pre.length, l)) := by
  have hpair : ∀ (s v : CStr) (b' : Bytes) {len : Nat}, pre.length < len → ∀ post, EndsCoded
      ((⟨s, .str v, mem.refusals k⟩ : Call N) :: post) (Matched b)
      (loop (headerRound mem alloc headers (pre ++ (s.1 ++ 0 :: (v.1 ++ 0 :: b'))) len) (k, pre.length, l)) := by
    intro s v b' len hlen post
    obtain ⟨herror, -, hfault⟩ := headerLoop_pair mem alloc headers l pre s v b' hlen k
    have hcall := Lists.call_coded alloc hc ⟨s, .str v, mem.refusals k⟩
    refine .inl ⟨_, post, rfl, ?_⟩
    cases hv : (⟨s, .str v, mem.refusals k⟩ : Call N).valueRefused with
    | true => exact .inl ⟨rfl, herror _ _ (by rw [hcall, if_pos hv])⟩
    | false => exact .inr ⟨rfl, hfault (by rw [hcall, hv, if_neg Bool.false_ne_true])⟩
  rcases split_block b with ⟨s, b, rfl⟩ | h0
  · rcases split_block b with ⟨v, b, rfl⟩ | h0
    · have hbuf : pre ++ (s.1 ++ 0 :: (v.1 ++ 0 :: b) ++ [0]) = pre ++ (s.1 ++ 0 :: (v.1 ++ 0 :: (b ++ [0]))) := by simp
      rw [hbuf, headerPairs_pair, headerCalls]
      exact hpair s v _ (by simp) _
    · have hbuf : pre ++ (s.1 ++ 0 :: b ++ [0]) = pre ++ (s.1 ++ 0 :: (b ++ 0 :: [])) := by simp
      rw [hbuf, headerPairs_one_nul s h0, headerCalls]
      exact hpair s ⟨b, h0⟩ _ (by simp) _
  · rcases eq_or_ne b [] with rfl | hne
    · exact .inr (.inl ⟨rfl, .inr rfl, _, headerLoop_end mem alloc _ (by simp) k⟩)
    · rw [headerPairs_no_nul h0]
      exact .inr (.inr ⟨rfl, not_matched_no_nul hne h0, headerLoop_no_nul mem alloc hne h0 pre k⟩)

theorem headerLoop (b pre : Bytes) (k : Nat) (hr : Related l.heap σ shape) (hn : σ headers = some map)
    (hc : l.coded headers = false) : Ends map (headerCalls mem.refusals k (headerPairs b)) (Matched b)
      (loop (headerRound mem alloc headers (pre ++ (b ++ [0])) (pre ++ b).length) (k, pre.length, l)) := by
  induction hb : b.length using Nat.strong_induction_on generalizing b pre k l σ shape map with
  | _ n ih =>
  rcases split_block b with ⟨s, b, rfl⟩ | h0
  · rcases split_block b with ⟨v, b, rfl⟩ | h0
    · have hbuf : pre ++ (s.1 ++ 0 :: (v.1 ++ 0 :: b) ++ [0]) = pre ++ (s.1 ++ 0 :: (v.1 ++ 0 :: (b ++ [0]))) := by simp
      have hshort : b.length < n := by
        rw [← hb]
        simp
        omega
      obtain ⟨herror, hok, hfault⟩ := headerLoop_pair mem alloc headers l pre s v (b ++ [0])
        (show pre.length < (pre ++ (s.1 ++ 0 :: (v.1 ++ 0 :: b))).length by simp) k
      rw [hbuf, headerPairs_pair, headerCalls, Ends, matched_pair]
      refine ends_call alloc hr hn hc _ herror hok hfault (fun h' shape' hr' => ?_) fun l' hc' => ?_
      · rw [headerLoop_rest]
        exact ih b.length hshort b _ (k + 1) hr' (modify_self hn _) hc rfl
      · rw [headerLoop_rest]
        exact headerLoop_coded mem alloc hc' b _ (k + 1)
    · -- the value is the last string of the block, and the next round finds `cur` behind the end
      have hbuf : pre ++ (s.1 ++ 0 :: b ++ [0]) = pre ++ (s.1 ++ 0 :: (b ++ 0 :: [])) := by simp
      obtain ⟨herror, hok, hfault⟩ := headerLoop_pair mem alloc headers l pre s ⟨b, h0⟩ []
        (show pre.length < (pre ++ (s.1 ++ 0 :: b)).length by simp) k
      have hend : ∀ {l' : Lists N A M}, loop (headerRound mem alloc headers (pre ++ (s.1 ++ 0 :: (b ++ 0 :: [])))
          (pre ++ (s.1 ++ 0 :: b)).length) (k + 1, pre.length + s.1.length + 1 + b.length + 1, l') = pure (.ok (), l') :=
        headerLoop_end mem alloc _ (by simp; omega) _
      rw [hbuf, headerPairs_one_nul s h0, headerCalls]
      refine ends_call alloc hr hn hc _ herror hok hfault (fun h' shape' hr' => ?_) fun l' hc' => ?_
      · exact .inr (.inl ⟨not_crashes_nil, .inl (matched_one_nul s h0), _, hend⟩)
      · exact .inr (.inl ⟨rfl, matched_one_nul s h0, _, hend⟩)
  · rcases eq_or_ne b [] with rfl | hne
    · exact .inr (.inl ⟨not_crashes_nil, .inl (.inr rfl), _, headerLoop_end mem alloc _ (by simp) k⟩)
    · rw [headerPairs_no_nul h0]
      exact .inr (.inr ⟨not_matched_no_nul hne h0, not_stops_nil, headerLoop_no_nul mem alloc hne h0 pre k⟩)

end Loop

/-! ## The function -/

section Netstring

variable {N A M : Type} [DecidableEq N] [DecidableEq A] [TreeMem A M] [LawfulTreeMem A M]
  (mem : Memory) (alloc : Allocator A)

theorem toNat_ofNat_succ (n : Nat) : (UInt64.ofNat n + 1).toNat = (n + 1) % 2 ^ 64 := by
  rw [UInt64.toNat_add, UInt64.toNat_ofNat']
  simp

theorem xread_block {fd : Fd} {block rest : Bytes} (hin : fd.input = block ++ 44 :: rest) :
    ∃ pieces, xread fd (block.length + 1) = (.ok (block ++ [44]), { fd with input := rest, pieces }) := by
  have htake : (block ++ 44 :: rest).take (block.length + 1) = block ++ [44] := by
    rw [List.take_length_add_append]
    rfl
  have hdrop : (block ++ 44 :: rest).drop (block.length + 1) = rest := by
    rw [List.drop_length_add_append]
    rfl
  obtain ⟨pieces, hread⟩ := xread_spec fd (block.length + 1)
  rw [hin, if_pos (by simp), htake, hdrop] at hread
  exact ⟨pieces, hread⟩

omit [LawfulTreeMem A M] in
/-- The loop is entered with the comma overwritten. -/
theorem readNetstringString_run (req : Req N A M) {block rest : Bytes} (hlt : block.length + 1 < 2 ^ 64)
    (hin : req.fd.input = block ++ 44 :: rest) (hm : mem.malloc (block.length + 1) = true) :
    ∃ pieces, readNetstringString mem alloc req (UInt64.ofNat block.length) =
      (loop (headerRound mem alloc req.headers (block ++ [0]) block.length) (0, 0, req.toLists) >>= fun r =>
        pure (r.1, { req with fd := { req.fd with input := rest, pieces }, toLists := r.2 })) := by
  have hnat : (UInt64.ofNat block.length).toNat = block.length := by
    rw [UInt64.toNat_ofNat', Nat.mod_eq_of_lt (by omega)]
  have hset : (block ++ [(44 : UInt8)]).set block.length 0 = block ++ [0] := by simp
  have hcomma : (block ++ [(44 : UInt8)])[block.length]? = some 44 := by simp
  obtain ⟨pieces, hread⟩ := xread_block hin
  refine ⟨pieces, ?_⟩
  rw [readNetstringString, toNat_ofNat_succ, hnat, Nat.mod_eq_of_lt hlt, hm, hread]
  simp only [Bool.not_true, Bool.false_eq_true, if_false, hcomma, hset, ne_eq, not_true_eq_false]

/-- The buffer cannot be allocated, or it is large enough for the comma and the loop does not come to a name without
a value. -/
def ReadsInside (map : NvMap N) (block : Bytes) : Prop :=
  mem.malloc ((block.length + 1) % 2 ^ 64) = false ∨ block.length + 1 < 2 ^ 64 ∧
    (Matched block ∨ Stops map (headerCalls mem.refusals 0 (headerPairs block)))

/-- The buffer is allocated, and a code is used as a pointer. -/
def ReadsCode (map : NvMap N) (block : Bytes) : Prop :=
  mem.malloc ((block.length + 1) % 2 ^ 64) = true ∧ block.length + 1 < 2 ^ 64 ∧
    Crashes map (headerCalls mem.refusals 0 (headerPairs block))

theorem readNetstringString_cases {req : Req N A M} {σ : NvState N} {shape : N → BTree A} {map : NvMap N}
    (hr : Related req.heap σ shape) (hn : σ req.headers = some map) (hc : req.coded req.headers = false)
    (block rest : Bytes) (hlen : block.length < 2 ^ 64) (hin : req.fd.input = block ++ 44 :: rest) :
    (ReadsCode mem map block ∧ ReadsInside mem map block ∧
      readNetstringString mem alloc req (UInt64.ofNat block.length) = throw .code) ∨
    (¬ReadsCode mem map block ∧ ReadsInside mem map block ∧
      ∃ r, readNetstringString mem alloc req (UInt64.ofNat block.length) = pure r) ∨
    (¬ReadsInside mem map block ∧
      readNetstringString mem alloc req (UInt64.ofNat block.length) = throw .bounds) := by
  have hnat : (UInt64.ofNat block.length).toNat = block.length := by
    rw [UInt64.toNat_ofNat', Nat.mod_eq_of_lt hlen]
  cases hm : mem.malloc ((block.length + 1) % 2 ^ 64) with
  | false =>
    refine .inr (.inl ⟨fun h => Bool.false_ne_true (hm.symm.trans h.1), .inl hm, (.error .ENOMEM, req), ?_⟩)
    rw [readNetstringString, toNat_ofNat_succ, hm]
    rfl
  | true =>
    have hinside : ReadsInside mem map block ↔ block.length + 1 < 2 ^ 64 ∧
        (Matched block ∨ Stops map (headerCalls mem.refusals 0 (headerPairs block))) := by
      rw [ReadsInside, hm]
      simp
    have hcode : ReadsCode mem map block ↔ block.length + 1 < 2 ^ 64 ∧
        Crashes map (headerCalls mem.refusals 0 (headerPairs block)) := by
      rw [ReadsCode, hm]
      simp
    rw [hinside, hcode]
    rcases Nat.lt_or_ge (block.length + 1) (2 ^ 64) with hlt | hge
    · obtain ⟨pieces, hrun⟩ := readNetstringString_run mem alloc req hlt hin
        (by rwa [Nat.mod_eq_of_lt hlt] at hm)
      have hloop := headerLoop mem alloc block [] 0 hr hn hc
      rw [List.nil_append, List.nil_append, List.length_nil] at hloop
      rw [hrun]
      rcases hloop with ⟨hs, hl⟩ | ⟨hs, hin, r, hl⟩ | ⟨hmatched, hs, hl⟩
      · exact .inl ⟨⟨hlt, hs⟩, ⟨hlt, .inr hs.stops⟩, by rw [hl]; rfl⟩
      · exact .inr (.inl ⟨fun h => hs h.2, ⟨hlt, hin⟩, _, by rw [hl, pure_bind]⟩)
      · exact .inr (.inr ⟨fun h => h.2.elim hmatched hs, by rw [hl]; rfl⟩)
    · -- `malloc(0)`: not even the comma is in the buffer
      have hzero : (block.length + 1) % 2 ^ 64 = 0 := by
        have : block.length + 1 = 2 ^ 64 := by omega
        rw [this, Nat.mod_self]
      refine .inr (.inr ⟨fun h => absurd h.1 (by omega), ?_⟩)
      rw [readNetstringString, toNat_ofNat_succ, hnat, hm, hzero]
      simp [xread]

/-- The header is read without leaving the buffer, and the loop ends, exactly if the NULs of the block
are odd in number, or the block is empty or ends with a NUL, or a refused request ends the loop before it comes to
the name that has no value. It returns exactly if moreover no call comes to an error code that is the name of a
pair. -/
theorem read_netstring_string_inside_iff {req : Req N A M} {σ : NvState N} {shape : N → BTree A} {map : NvMap N}
    (hr : Related req.heap σ shape) (hn : σ req.headers = some map) (hc : req.coded req.headers = false)
    (block rest : Bytes) (hlen : block.length < 2 ^ 64) (hin : req.fd.input = block ++ 44 :: rest) :
    (((∃ r, readNetstringString mem alloc req (UInt64.ofNat block.length) = pure r) ∨
        readNetstringString mem alloc req (UInt64.ofNat block.length) = throw .code) ↔ ReadsInside mem map block) ∧
      ((∃ r, readNetstringString mem alloc req (UInt64.ofNat block.length) = pure r) ↔
        ReadsInside mem map block ∧ ¬ReadsCode mem map block) := by
  rcases readNetstringString_cases mem alloc hr hn hc block rest hlen hin with
    ⟨hcode, hinside, hrun⟩ | ⟨hcode, hinside, r, hrun⟩ | ⟨hinside, hrun⟩
  · refine ⟨⟨fun _ => hinside, fun _ => .inr hrun⟩, ?_, fun h => absurd hcode h.2⟩
    rintro ⟨r, hp⟩
    cases hp.symm.trans hrun
  · exact ⟨⟨fun _ => hinside, fun _ => .inl ⟨r, hrun⟩⟩, fun _ => ⟨hinside, hcode⟩, fun _ => ⟨r, hrun⟩⟩
  · have hno : ¬∃ r, readNetstringString mem alloc req (UInt64.ofNat block.length) = pure r := by
      rintro ⟨r, hp⟩
      cases hp.symm.trans hrun
    refine ⟨⟨fun h => ?_, fun h => absurd h hinside⟩, fun h => absurd h hno, fun h => absurd h.1 hinside⟩
    rcases h with h | h
    · exact absurd h hno
    · cases h.symm.trans hrun

end Netstring

/-- Memory that does not run out. -/
def enoughMemory : Memory where
  malloc := fun _ => true
  refusals := fun _ => .none

/-- A request with one empty nvlist for its headers. -/
def newReq (input : Bytes) : Req Unit Nat (PlainMem Nat) where
  fd := { input, err := none, pieces := fun k => k }
  headers := ()
  heap := nvlAlloc (Heap.empty Unit (freshMem Nat)) ()
  coded := fun _ => false

/-- The map of its headers. -/
def noHeaders : NvMap Unit := fun _ => none

theorem newReq_related (input : Bytes) :
    ∃ shape, Related (newReq input).heap (Function.update (fun _ => none) () (some noHeaders)) shape :=
  ⟨_, nvlAlloc_spec (related_empty (freshMem Nat)) ()⟩

/-- Memory in which no name can be copied. -/
def noNames : Memory where
  malloc := fun _ => true
  refusals := fun _ => { value := false, name := true, pair := false }

/-- The header `A\0B\0` is read. In `AB\0x\0C` the name without a value is read, also if the name `AB` cannot be
copied: the call returns 0. -/
theorem read_netstring_string_inside_iff_pair :
    (∃ r, readNetstringString enoughMemory natAllocator (newReq [65, 0, 66, 0, 44]) 4 = pure r) ∧
      ¬((∃ r, readNetstringString noNames natAllocator (newReq [65, 66, 0, 120, 0, 67, 44]) 6 = pure r) ∨
        readNetstringString noNames natAllocator (newReq [65, 66, 0, 120, 0, 67, 44]) 6 = throw .code) := by
  obtain ⟨shape, hr⟩ := newReq_related [65, 0, 66, 0, 44]
  obtain ⟨shape', hr'⟩ := newReq_related [65, 66, 0, 120, 0, 67, 44]
  have hpair := read_netstring_string_inside_iff enoughMemory natAllocator hr (Function.update_self ..) rfl
    [65, 0, 66, 0] [] (by decide) rfl
  have hcode := read_netstring_string_inside_iff noNames natAllocator hr' (Function.update_self ..) rfl
    [65, 66, 0, 120, 0, 67] [] (by decide) rfl
  refine ⟨hpair.2.mpr ⟨.inr ⟨by decide, .inl (.inr rfl)⟩, fun h => ?_⟩, fun h => ?_⟩
  · have hcalls : headerCalls enoughMemory.refusals 0 (headerPairs [65, 0, 66, 0]) =
        [(⟨cstr [65], .str (cstr [66]), .none⟩ : Call Unit)] := rfl
    obtain ⟨-, -, hcrash⟩ := h
    rw [hcalls, crashes_set rfl (.inr (Call.puts_of_none rfl))] at hcrash
    exact not_crashes_nil hcrash
  · have hcalls : headerCalls noNames.refusals 0 (headerPairs [65, 66, 0, 120, 0, 67]) =
        [(⟨cstr [65, 66], .str (cstr [120]), ⟨false, true, false⟩⟩ : Call Unit)] := rfl
    have hlost : Lost noHeaders [] (⟨cstr [65, 66], .str (cstr [120]), ⟨false, true, false⟩⟩ : Call Unit) :=
      lost_nil.mpr (.inr ⟨rfl, .inl (by decide)⟩)
    rcases hcode.1.mp h with hm | ⟨-, hmatched | hstops⟩
    · cases hm
    · exact absurd hmatched (by unfold Matched; decide)
    · rw [hcalls, stops_lost hlost] at hstops
      rcases hstops with hv | hp | ⟨name, hname⟩ | hne
      · exact absurd hv (by decide)
      · cases hp
      · exact hname rfl
      · exact hne rfl

/-- The header `A` is a name without a value: the loop reads behind its buffer. -/
theorem read_netstring_string_name_only :
    readNetstringString enoughMemory natAllocator (newReq [65, 44]) 1 = throw .bounds := by
  obtain ⟨shape, hr⟩ := newReq_related [65, 44]
  have hout : ¬ReadsInside enoughMemory noHeaders [65] := by
    rintro (hm | ⟨-, hmatched | hstops⟩)
    · cases hm
    · exact absurd hmatched (by unfold Matched; decide)
    · exact not_stops_nil hstops
  rcases readNetstringString_cases enoughMemory natAllocator hr (Function.update_self ..) rfl [65] [] (by decide)
    rfl with ⟨-, hin, -⟩ | ⟨-, hin, -⟩ | ⟨-, hrun⟩
  · exact absurd hin hout
  · exact absurd hin hout
  · exact hrun

end Libjeffpc.Scgi
