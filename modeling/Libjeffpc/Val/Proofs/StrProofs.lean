import Libjeffpc.Val.Str

/-!
# The storage of a string is not seen

`__alloc` has five places for the bytes of a string. Each of them is followed on its own: what the object
then has, and which blocks are there before and after the object is released.
-/

namespace Libjeffpc.Str

open Lib

variable {m : Memory} {s : CPtr} {mem text : Bytes} {type : Kind}

theorem run_bind {α β : Type} {f : StrM α} {g : α → StrM β} {m m' : Memory} {r : α}
    (hf : f m = pure (r, m')) : (f >>= g) m = g r m' := by
  show (f m >>= fun x => g x.1 x.2) = _
  rw [hf, pure_bind]

theorem run_lift {α β : Type} {f : Comp α} {g : α → StrM β} {r : α} (hf : f = pure r) :
    ((liftM f : StrM α) >>= g) m = g r m := by
  subst hf
  rfl

/-! ## Memory -/

theorem lt_next {a : Nat} (h : m.blocks a = some mem) : a < m.next := by
  by_contra hge
  rw [m.fresh a (Nat.not_lt.mp hge)] at h
  cases h

theorem bytes_ne_null (h : m.bytes s = some mem) : s ≠ .null := by
  rintro rfl
  cases h

theorem bytesAt_eq (h : m.bytes s = some mem) : bytesAt s m = pure (mem, m) := by
  cases s with
  | null => cases h
  | fixed b =>
    obtain rfl : b = mem := Option.some.inj h
    rfl
  | heap a =>
    have ha : m.blocks a = some mem := h
    simp only [bytesAt, Memory.bytes, ha]

/-- A pointer that is handed over: NULL or a block. -/
def Releasable (m : Memory) (s : CPtr) : Prop := s = .null ∨ ∃ a mem, s = .heap a ∧ m.blocks a = some mem

theorem free_eq (h : Releasable m s) :
    ∃ m', free s m = pure ((), m') ∧ m'.blocks = without m.blocks s ∧ m'.grants = m.grants := by
  rcases h with rfl | ⟨a, mem, rfl, ha⟩
  · exact ⟨m, rfl, rfl, rfl⟩
  · have hcond : a < m.next ∧ (m.blocks a).isSome := ⟨lt_next ha, by rw [ha]; rfl⟩
    refine ⟨m.setBlock a none hcond.1, ?_, rfl, rfl⟩
    show (if h : a < m.next ∧ (m.blocks a).isSome then _ else _) = _
    rw [dif_pos hcond]

theorem bytes_without (h : Releasable m s) {m' : Memory} (hm : m'.blocks = without m.blocks s) :
    m'.bytes s = none := by
  rcases h with rfl | ⟨a, mem, rfl, _⟩
  · rfl
  · show m'.blocks a = none
    rw [hm]
    exact Function.update_self ..

theorem request_eq {b : Bool} (hg : m.grants 0 = b) :
    request m = pure (b, { m with grants := fun k => m.grants (k + 1) }) := by
  subst hg
  rfl

/-! ## Text -/

theorem cstrAt_eq (hs : m.bytes s = some mem) (hnul : 0 ∈ mem) : cstrAt s m = pure (cstr mem, m) := by
  rw [cstrAt, run_bind (bytesAt_eq hs), if_pos hnul]
  rfl

/-- The text is at the start of the memory, and has no NUL. -/
structure TextOf (mem text : Bytes) : Prop where
  start : text <+: mem
  nul : 0 ∉ text

theorem textOf (mem : Bytes) (limit : Nat) : TextOf mem ((mem.take limit).takeWhile (· ≠ 0)) := by
  refine ⟨(List.takeWhile_prefix _).trans (List.take_prefix _ _), fun h => ?_⟩
  simpa using List.mem_takeWhile_imp h

theorem cstr_text (h : TextOf mem text) (rest : Bytes) : (cstr (text ++ 0 :: rest)).1 = text := by
  rw [cstr_append_nul]
  exact congrArg Subtype.val (cstr_val ⟨text, h.nul⟩)

theorem copy_eq {dest : Bytes} (h : TextOf mem text) (hlen : text.length < dest.length) :
    copy dest mem text.length = pure (text ++ 0 :: dest.drop (text.length + 1)) := by
  rw [copy, if_pos ⟨h.start.length_le, hlen⟩, ← List.prefix_iff_eq_take.mp h.start]

theorem strnlen_eq {limit : Nat} (hs : m.bytes s = some mem) (hread : 0 ∈ mem ∨ limit ≤ mem.length) :
    strnlen s limit m = pure (((mem.take limit).takeWhile (· ≠ 0)).length, m) := by
  have hin : ¬ (((mem.take limit).takeWhile (· ≠ 0)).length < limit ∧
      ((mem.take limit).takeWhile (· ≠ 0)).length = mem.length) := by
    rintro ⟨hlt, heq⟩
    rcases hread with hnul | hle
    · have hall : (mem.take limit).takeWhile (· ≠ 0) = mem :=
        (textOf mem limit).start.eq_of_length heq
      refine (textOf mem limit).nul ?_
      rw [hall]
      exact hnul
    · omega
  rw [strnlen, run_bind (bytesAt_eq hs)]
  simp only
  rw [if_neg hin]
  rfl

/-! ## Preallocated objects -/

theorem getPreallocated_empty (s : CPtr) :
    getPreallocated type s 0 m = pure (some (emptyString type), m) := by
  rw [getPreallocated, if_pos (.inr rfl)]
  rfl

theorem getPreallocated_eq (hs : m.bytes s = some mem) (htext : TextOf mem text) :
    getPreallocated type s text.length m = pure (preallocated type text, m) := by
  have hnull := bytes_ne_null hs
  cases text with
  | nil => exact getPreallocated_empty s
  | cons c text =>
    rw [getPreallocated, if_neg (by simp [hnull])]
    by_cases htype : type = .str
    · obtain ⟨rest, rfl⟩ := htext.start
      have hne : c ≠ 0 := fun h => htext.nul (h ▸ List.mem_cons_self)
      have hstatic : (oneChar c).staticStruct = true := by rw [oneChar, if_neg hne]
      rw [if_neg (not_not.mpr htype), run_bind (bytesAt_eq hs), run_lift (fetch_eq (a := c) rfl)]
      cases text with
      | nil =>
        by_cases hlt : c < 0x7f
        · rw [if_pos ⟨rfl, UInt8.pos_iff_ne_zero.mpr hne, hlt, hstatic⟩, preallocated, if_pos ⟨htype, hlt⟩]
          rfl
        · rw [if_neg (fun h => hlt h.2.2.1), preallocated, if_neg (fun h => hlt h.2)]
          rfl
      | cons d text =>
        rw [if_neg (fun h => by simp at h)]
        rfl
    · rw [if_pos htype]
      cases text with
      | nil =>
        rw [preallocated, if_neg (fun h => htype h.1)]
        rfl
      | cons d text => rfl

/-- A preallocated object has the type and the text, and is never released. -/
theorem preallocated_spec {v : StrVal} (h : preallocated type text = some v) (hnul : 0 ∉ text) (m : Memory) :
    v.type = type ∧ v.staticStruct = true ∧ text.length ≤ 1 ∧
      ∃ p t, valCstr v = pure p ∧ cstrAt p m = pure (t, m) ∧ t.1 = text := by
  cases text with
  | nil =>
    obtain rfl : emptyString type = v := Option.some.inj h
    exact ⟨rfl, rfl, Nat.zero_le _, .fixed [0], cstr [0], rfl, rfl, rfl⟩
  | cons c text =>
    cases text with
    | cons d text => cases h
    | nil =>
      rw [preallocated] at h
      split_ifs at h with hcond
      obtain rfl := Option.some.inj h
      have hne : c ≠ 0 := fun h => hnul (h ▸ List.mem_cons_self)
      have htext : TextOf [c] [c] := ⟨List.prefix_refl _, hnul⟩
      have hbytes : (cstr (c :: List.replicate strInlineLen 0)).1 = [c] := cstr_text htext (List.replicate 14 0)
      rw [oneChar, if_neg hne]
      exact ⟨hcond.1.symm, rfl, le_rfl, .fixed _, _, rfl, cstrAt_eq rfl (by simp [strInlineLen]), hbytes⟩

/-! ## The ways to store a text -/

/-- What `__alloc` is called with: a duplicate is not handed over, and a pointer that is not copied leads to
a whole string. -/
structure Source (m : Memory) (s : CPtr) (mem text : Bytes) (heapalloc mustdup : Bool) : Prop where
  bytes : m.bytes s = some mem
  start : TextOf mem text
  owned : heapalloc = true → Releasable m s ∧ mustdup = false
  whole : mustdup = false → 0 ∈ mem ∧ (cstr mem).1 = text

variable {heapalloc mustdup : Bool}

theorem out_eq (r : Except Errno StrVal) (hown : heapalloc = true → Releasable m s) :
    ∃ m', out r heapalloc s m = pure (r, m') ∧ m'.blocks = blocksLeft heapalloc m s ∧
      m'.grants = m.grants := by
  cases heapalloc with
  | false => exact ⟨m, rfl, rfl, rfl⟩
  | true =>
    obtain ⟨m', hrun, hblocks, hgrants⟩ := free_eq (hown rfl)
    refine ⟨m', ?_, hblocks, hgrants⟩
    show (free s >>= fun _ => pure r) m = _
    rw [run_bind hrun]
    rfl

/-- The pointer while the object is there. -/
theorem bytes_left (hown : heapalloc = true → Releasable m s) {m' : Memory}
    (hm : m'.blocks = blocksLeft heapalloc m s) :
    m'.bytes s = if heapalloc then none else m.bytes s := by
  cases heapalloc with
  | false =>
    cases s with
    | heap a => exact congrFun hm a
    | _ => rfl
  | true => exact bytes_without (hown rfl) hm

/-- A preallocated object. -/
theorem constructs_preallocated {v : StrVal} {n : Nat} (hv : preallocated type text = some v) (hnul : 0 ∉ text)
    (hown : heapalloc = true → Releasable m s) {m' : Memory} (hm : m'.blocks = blocksLeft heapalloc m s) :
    Constructs type heapalloc n m s text (.ok v) m' := by
  obtain ⟨htype, hstatic, hlen, htext⟩ := preallocated_spec hv hnul m'
  refine ⟨htype, htext, ?_, m', ?_, hm⟩
  · rw [bytes_left hown hm]
    have hle : text.length ≤ strInlineLen := by
      unfold strInlineLen
      omega
    simp [hle]
  · rw [valPutref, if_pos hstatic]
    rfl

/-- The bytes are copied into the struct. -/
theorem constructs_inline {b : Bytes} {n : Nat} (htext : TextOf mem text) (hlen : text.length ≤ strInlineLen)
    (hown : heapalloc = true → Releasable m s) {m' : Memory} (hm : m'.blocks = blocksLeft heapalloc m s) :
    Constructs type heapalloc n m s text
      (.ok ⟨type, false, true, true, .inlineStr (text ++ 0 :: b)⟩) m' := by
  refine ⟨rfl, ⟨.fixed (text ++ 0 :: b), _, rfl, cstrAt_eq rfl (by simp), cstr_text htext b⟩, ?_, m', rfl, hm⟩
  rw [bytes_left hown hm]
  simp [hlen]

theorem Releasable.of_blocks {m' : Memory} (hm : m'.blocks = m.blocks) (h : Releasable m s) : Releasable m' s := by
  rcases h with rfl | ⟨a, b, rfl, ha⟩
  · exact .inl rfl
  · exact .inr ⟨a, b, rfl, by rw [hm, ha]⟩

/-- The pointer is kept. -/
theorem constructs_ptr (hs : Source m s mem text heapalloc mustdup) (hdup : mustdup = false)
    (hlen : ¬ text.length ≤ strInlineLen) {n : Nat} {m' : Memory} (hm : m'.blocks = m.blocks) :
    Constructs type heapalloc n m s text (.ok ⟨type, false, !heapalloc, false, .ptr s⟩) m' := by
  obtain ⟨hnul, hwhole⟩ := hs.whole hdup
  have hbytes : m'.bytes s = m.bytes s := by
    cases s with
    | heap a => exact congrFun hm a
    | _ => rfl
  refine ⟨rfl, ⟨s, cstr mem, rfl, cstrAt_eq (hbytes.trans hs.bytes) hnul, hwhole⟩, ?_, ?_⟩
  · rw [if_neg (fun h => hlen h.2), hbytes]
  · cases heapalloc with
    | false => exact ⟨m', rfl, hm⟩
    | true =>
      obtain ⟨m'', hrun, hblocks, _⟩ := free_eq ((hs.owned rfl).1.of_blocks hm)
      refine ⟨m'', hrun, ?_⟩
      rw [hblocks, hm]
      rfl

/-! ## `__alloc` -/

theorem allocVal_refused {len : Nat} {isCopy : Bool} (hg : m.grants 0 = false)
    (hown : heapalloc = true → Releasable m s) :
    ∃ m', allocVal type s len heapalloc isCopy m = pure (.error .ENOMEM, m') ∧
      m'.blocks = blocksLeft heapalloc m s := by
  obtain ⟨m', hrun, hblocks, _⟩ := out_eq (m := { m with grants := fun k => m.grants (k + 1) })
    (.error .ENOMEM) hown
  refine ⟨m', ?_, hblocks⟩
  rw [allocVal, valAlloc, run_bind (request_eq hg)]
  exact hrun

theorem allocVal_ptr {len : Nat} (hg : m.grants 0 = true) :
    allocVal type s len heapalloc false m = pure (.ok ⟨type, false, !heapalloc, false, .ptr s⟩,
      { m with grants := fun k => m.grants (k + 1) }) := by
  rw [allocVal, valAlloc, run_bind (request_eq hg)]
  rfl

theorem allocVal_inline (hg : m.grants 0 = true) (hs : m.bytes s = some mem) (htext : TextOf mem text)
    (hlen : text.length ≤ strInlineLen) (hown : heapalloc = true → Releasable m s) :
    ∃ b m', allocVal type s text.length heapalloc true m =
        pure (.ok ⟨type, false, true, true, .inlineStr (text ++ 0 :: b)⟩, m') ∧
      m'.blocks = blocksLeft heapalloc m s := by
  have hs' : Memory.bytes { m with grants := fun k => m.grants (k + 1) } s = some mem := by
    cases s <;> exact hs
  have hdest : text.length < ((List.range (strInlineLen + 1)).map m.junk).length := by
    rw [List.length_map, List.length_range]
    omega
  obtain ⟨m', hrun, hblocks, _⟩ := out_eq (m := { m with grants := fun k => m.grants (k + 1) })
    (.ok ⟨type, false, true, true,
      .inlineStr (text ++ 0 :: ((List.range (strInlineLen + 1)).map m.junk).drop (text.length + 1))⟩) hown
  refine ⟨((List.range (strInlineLen + 1)).map m.junk).drop (text.length + 1), m', ?_, hblocks⟩
  rw [allocVal, valAlloc, run_bind (request_eq hg), if_pos rfl, if_pos rfl]
  refine (run_bind (r := (List.range (strInlineLen + 1)).map m.junk) rfl).trans ?_
  rw [run_bind (bytesAt_eq hs'), run_lift (copy_eq htext hdest)]
  exact hrun

/-- A copy of the text on the heap. -/
theorem malloc_eq (n : Nat) (hg : m.grants 0 = true) :
    ∃ m' b, malloc n m = pure (some m.next, m') ∧ m'.blocks = Function.update m.blocks m.next (some b) ∧
      b.length = n ∧ m'.next = m.next + 1 ∧ m'.grants = fun k => m.grants (k + 1) := by
  refine ⟨Memory.add { m with grants := fun k => m.grants (k + 1) } ((List.range n).map m.junk),
    (List.range n).map m.junk, ?_, rfl, by simp, rfl, rfl⟩
  rw [malloc, run_bind (request_eq hg)]
  rfl

theorem write_eq {a : Nat} {b c : Bytes} (ha : m.blocks a = some b) :
    ∃ m', write a c m = pure ((), m') ∧ m'.blocks = Function.update m.blocks a (some c) ∧
      m'.grants = m.grants := by
  have hcond : a < m.next ∧ (m.blocks a).isSome := ⟨lt_next ha, by rw [ha]; rfl⟩
  refine ⟨m.setBlock a (some c) hcond.1, ?_, rfl, rfl⟩
  show (if h : a < m.next ∧ (m.blocks a).isSome then _ else _) = _
  rw [dif_pos hcond]

/-- The text is too long for the struct, and must be copied: the copy is all that is new, until the object
is released. -/
theorem constructs_dup (hs : m.bytes s = some mem) (htext : TextOf mem text) :
    ∃ r m', (do
      match ← malloc (text.length + 1) with
      | none => out (.error .ENOMEM) false s
      | some tmp => do
        write tmp (← copy (← bytesAt (.heap tmp)) (← bytesAt s) text.length)
        allocVal type (.heap tmp) text.length true false : StrM _) m = pure (r, m') ∧
      Constructs type false 2 m s text r m' := by
  cases hg : m.grants 0 with
  | false =>
    refine ⟨.error .ENOMEM, { m with grants := fun k => m.grants (k + 1) }, ?_, rfl, ⟨0, by decide, hg⟩, rfl⟩
    rw [malloc, bind_assoc, run_bind (request_eq hg)]
    rfl
  | true =>
    obtain ⟨m1, b, hmalloc, hb1, hlenb, hnext, hg1⟩ := malloc_eq (text.length + 1) hg
    have hnew : m.blocks m.next = none := m.fresh _ le_rfl
    have hdest : m1.bytes (.heap m.next) = some b := by
      show m1.blocks m.next = some b
      rw [hb1, Function.update_self]
    have hother : ∀ {m2 : Memory} {c : Bytes}, m2.blocks = Function.update m.blocks m.next (some c) →
        m2.bytes s = m.bytes s := by
      intro m2 c hm2
      cases s with
      | heap a =>
        have hne : a ≠ m.next := by
          have := lt_next (show m.blocks a = some mem from hs)
          omega
        show m2.blocks a = m.blocks a
        rw [hm2, Function.update_of_ne hne]
      | _ => rfl
    have hcopy : copy b mem text.length = pure (text ++ [0]) := by
      rw [copy_eq htext (by omega), List.drop_eq_nil_of_le (by omega)]
    obtain ⟨m2, hwrite, hb2, hg2⟩ := write_eq (c := text ++ [0]) (show m1.blocks m.next = some b from hdest)
    rw [hb1, Function.update_idem] at hb2
    have hblock : m2.blocks m.next = some (text ++ [0]) := by rw [hb2, Function.update_self]
    have hrel : Releasable m2 (.heap m.next) := .inr ⟨m.next, _, rfl, hblock⟩
    have hleft : blocksLeft true m2 (.heap m.next) = m.blocks := by
      show Function.update m2.blocks m.next none = m.blocks
      rw [hb2, Function.update_idem, ← hnew, Function.update_eq_self]
    have hstart : ∀ g : Option Nat → StrM (Except Errno StrVal), (malloc (text.length + 1) >>= g) m = g (some m.next) m1 :=
      fun g => run_bind hmalloc
    rw [hstart]
    dsimp only
    rw [run_bind (bytesAt_eq hdest), run_bind (bytesAt_eq ((hother hb1).trans hs)), run_lift hcopy, run_bind hwrite]
    cases hg' : m2.grants 0 with
    | false =>
      obtain ⟨m3, hrun, hb3⟩ := @allocVal_refused _ _ type true text.length false hg' fun _ => hrel
      refine ⟨_, m3, hrun, rfl, ⟨1, by decide, ?_⟩, by rw [hb3, hleft]; rfl⟩
      rw [hg2, hg1] at hg'
      exact hg'
    | true =>
      refine ⟨_, _, allocVal_ptr hg', rfl, ⟨.heap m.next, _, rfl, cstrAt_eq hblock (by simp), cstr_text htext []⟩, ?_, ?_⟩
      · rw [if_neg (by simp)]
        exact hother hb2
      · obtain ⟨m4, hrun, hb4, _⟩ := free_eq (m := { m2 with grants := fun k => m2.grants (k + 1) })
          (s := .heap m.next) (.inr ⟨m.next, _, rfl, hblock⟩)
        refine ⟨m4, hrun, ?_⟩
        rw [hb4]
        exact hleft

/-- The struct has the text or the pointer. -/
theorem constructs_val (hs : Source m s mem text heapalloc mustdup)
    (hcase : text.length ≤ strInlineLen ∨ mustdup = false) {n : Nat} (hn : 0 < n) :
    ∃ r m', allocVal type s text.length heapalloc (inlinable text.length) m = pure (r, m') ∧
      Constructs type heapalloc n m s text r m' := by
  have hown : heapalloc = true → Releasable m s := fun h => (hs.owned h).1
  cases hg : m.grants 0 with
  | false =>
    obtain ⟨m', hrun, hblocks⟩ := @allocVal_refused _ _ type _ text.length (inlinable text.length) hg hown
    exact ⟨_, m', hrun, rfl, ⟨0, hn, hg⟩, hblocks⟩
  | true =>
    by_cases hlen : text.length ≤ strInlineLen
    · obtain ⟨b, m', hrun, hblocks⟩ := @allocVal_inline _ _ _ _ type _ hg hs.bytes hs.start hlen hown
      rw [inlinable, decide_eq_true hlen]
      exact ⟨_, m', hrun, constructs_inline hs.start hlen hown hblocks⟩
    · have hdup : mustdup = false := hcase.resolve_left hlen
      rw [inlinable, decide_eq_false hlen]
      exact ⟨_, _, allocVal_ptr hg, constructs_ptr hs hdup hlen rfl⟩

/-- The sanity check of `__alloc`. -/
theorem alloc_checked {limit : Nat} (hown : heapalloc = true → mustdup = false) :
    alloc type s limit heapalloc mustdup m = (do
      let len ← if s = .null then pure 0 else strnlen s limit
      match ← getPreallocated type s len with
      | some val => out (.ok val) heapalloc s
      | none =>
        if !inlinable len && mustdup then
          match ← malloc (len + 1) with
          | none => out (.error .ENOMEM) heapalloc s
          | some tmp => do
            write tmp (← copy (← bytesAt (.heap tmp)) (← bytesAt s) len)
            allocVal type (.heap tmp) len true (inlinable len)
        else allocVal type s len heapalloc (inlinable len) : StrM _) m := by
  cases mustdup with
  | false => rfl
  | true =>
    cases heapalloc with
    | false => rfl
    | true => cases hown rfl

theorem alloc_bytes {limit : Nat} (hread : 0 ∈ mem ∨ limit ≤ mem.length)
    (hs : Source m s mem ((mem.take limit).takeWhile (· ≠ 0)) heapalloc mustdup) :
    ∃ r m', alloc type s limit heapalloc mustdup m = pure (r, m') ∧
      Constructs type heapalloc (requests type mustdup ((mem.take limit).takeWhile (· ≠ 0))) m s
        ((mem.take limit).takeWhile (· ≠ 0)) r m' := by
  have hlen := strnlen_eq hs.bytes hread
  rw [alloc_checked fun h => (hs.owned h).2, if_neg (bytes_ne_null hs.bytes), run_bind hlen]
  generalize (mem.take limit).takeWhile (· ≠ 0) = text at hs hlen
  dsimp only
  rw [run_bind (getPreallocated_eq hs.bytes hs.start)]
  cases hpre : preallocated type text with
  | some v =>
    have hown : heapalloc = true → Releasable m s := fun h => (hs.owned h).1
    obtain ⟨m', hrun, hblocks, _⟩ := out_eq (.ok v) hown
    exact ⟨_, m', hrun, constructs_preallocated hpre hs.start.nul hown hblocks⟩
  | none =>
    dsimp only
    by_cases hdup : text.length ≤ strInlineLen ∨ mustdup = false
    · have hcond : ¬ (!inlinable text.length && mustdup) = true := by
        rcases hdup with h | h <;> simp [inlinable, h]
      rw [if_neg hcond, requests, hpre, Option.isSome_none, if_neg Bool.false_ne_true, if_neg hcond]
      exact constructs_val hs hdup Nat.one_pos
    · obtain ⟨hlong, hmust⟩ := not_or.mp hdup
      have hmust : mustdup = true := by simpa using hmust
      have hheap : heapalloc = false := by
        by_contra h
        rw [(hs.owned (by simpa using h)).2] at hmust
        cases hmust
      rw [requests, hpre, hmust, hheap, inlinable, decide_eq_false hlong, if_pos (by rfl)]
      exact constructs_dup hs.bytes hs.start

theorem alloc_null {limit : Nat} (hown : heapalloc = true → mustdup = false) :
    ∃ r m', alloc type .null limit heapalloc mustdup m = pure (r, m') ∧
      Constructs type heapalloc (requests type mustdup []) m .null [] r m' := by
  have hrel : heapalloc = true → Releasable m .null := fun _ => .inl rfl
  obtain ⟨m', hrun, hblocks, _⟩ := out_eq (.ok (emptyString type)) hrel
  refine ⟨_, m', ?_, constructs_preallocated (by rfl) (by simp) hrel hblocks⟩
  rw [alloc_checked hown, if_pos rfl]
  refine (run_bind (r := 0) rfl).trans ((run_bind (getPreallocated_empty .null)).trans ?_)
  exact hrun

/-! ## The constructors -/

/-- A string with a NUL that fits into memory is seen as a whole. -/
theorem cstr_take (h : mem.length < 2 ^ 64) : (mem.take useStrlen).takeWhile (· ≠ 0) = (cstr mem).1 := by
  rw [List.take_of_length_le (by unfold useStrlen; omega)]
  rfl

/-- Whatever place is chosen for the bytes, the object has the type and the bytes of the text. A pointer that
is handed over is released exactly once, and another one never. -/
theorem str_storage (c : Ctor) (type : Kind) (m : Memory) (s : CPtr) (text : Bytes) (h : c.Takes m s text) :
    ∃ r m', c.call type s m = pure (r, m') ∧
      Constructs type c.adopts (requests type c.dups text) m s text r m' := by
  cases h with
  | null =>
    cases c with
    | dup => exact @alloc_null m type false true useStrlen nofun
    | dupLen len => exact @alloc_null m type false true len nofun
    | alloc => exact @alloc_null m type true false useStrlen fun _ => rfl
    | allocStatic => exact @alloc_null m type false false useStrlen nofun
  | @bytes s mem hs hsize hread hown =>
    have hwhole : 0 ∈ mem → 0 ∈ mem ∧ (cstr mem).1 = (mem.take useStrlen).takeWhile (· ≠ 0) :=
      fun hnul => ⟨hnul, (cstr_take hsize).symm⟩
    cases c with
    | dup =>
      exact @alloc_bytes m s mem type false true useStrlen (.inl hread) ⟨hs, textOf mem _, nofun, nofun⟩
    | dupLen len => exact @alloc_bytes m s mem type false true len hread ⟨hs, textOf mem _, nofun, nofun⟩
    | alloc =>
      obtain ⟨a, rfl⟩ := hown rfl
      exact @alloc_bytes m (.heap a) mem type true false useStrlen (.inl hread)
        ⟨hs, textOf mem _, fun _ => ⟨.inr ⟨a, mem, rfl, hs⟩, rfl⟩, fun _ => hwhole hread⟩
    | allocStatic =>
      exact @alloc_bytes m s mem type false false useStrlen (.inl hread)
        ⟨hs, textOf mem _, nofun, fun _ => hwhole hread⟩

/-- A block with sixteen letters, handed over. -/
theorem str_storage_block : ∃ r m',
    Ctor.alloc.call .str (.heap 0) ⟨fun a => if a = 0 then some (List.replicate 16 97 ++ [0]) else none, 1,
      fun a ha => if_neg (by omega), fun _ => true, fun _ => 0⟩ = pure (r, m') ∧
    Constructs .str true 1 ⟨fun a => if a = 0 then some (List.replicate 16 97 ++ [0]) else none, 1,
      fun a ha => if_neg (by omega), fun _ => true, fun _ => 0⟩ (.heap 0) (List.replicate 16 97) r m' :=
  str_storage .alloc .str _ (.heap 0) (List.replicate 16 97)
    (@Ctor.Takes.bytes .alloc _ (.heap 0) (List.replicate 16 97 ++ [0]) rfl (by decide) (by simp [Ctor.Readable])
      fun _ => ⟨0, rfl⟩)

end Libjeffpc.Str
