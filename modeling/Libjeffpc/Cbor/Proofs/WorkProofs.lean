import Libjeffpc.Cbor.Proofs.CompleteProofs
import Libjeffpc.Cbor.Work

/-!
# The work that unpacking a value takes

Every function keeps an account: what it does agrees with the function that it is an account of, as long as
nothing outside of an array is touched; the calls of `unpack_cbor_val` are paid for by the bytes that are
consumed; and what is watched happens only when the input claims an array with too many elements.
-/

namespace Libjeffpc.Cbor

open Lib

/-! ## What is watched -/

/-- What an account is watched for, and when it happens: a store behind the end of an array, or a clean-up that
`cleans` tells. An array of definite length comes to it only if `here` holds of its length and of what is behind
its head, one of indefinite length only if it has more than `limit` elements. -/
structure Watch where
  bad : Work → Prop
  cleans : Nat → Nat → Prop
  here : Nat → Bytes → Prop
  limit : Nat
  bad_calls : ∀ w calls, bad { w with calls := calls } ↔ bad w
  bad_stored : ∀ w len i, bad (w.stored len i) ↔ bad w ∨ len < (i + 1) * ptrSize
  bad_cleaned : ∀ w len k, bad (w.cleaned len k) ↔ bad w ∨ cleans len k
  here_of_stored : ∀ {n : Nat} {items : List (Bytes × Val)} (t : Bytes), fallbackRoom n < items.length →
    items.length ≤ n → RoomyItems items → here n ((items.map Prod.fst).flatten ++ t)
  here_of_cleaned : ∀ {n : Nat} (t : Bytes), cleans (fallbackRoom n * ptrSize) n → here n t
  cleans_le : ∀ {k : Nat}, k ≤ limit → ¬cleans (k * ptrSize) k

theorem huge_of_room_lt {n : Nat} (h : fallbackRoom n < n) : 2 ^ 61 ≤ n := by
  by_contra hsmall
  have heq : fallbackRoom n = n := Nat.mod_eq_of_lt (Nat.lt_of_not_le hsmall)
  omega

theorem huge_of_cleaned {n : Nat} (h : fallbackRoom n * ptrSize < n * ptrSize) : 2 ^ 61 ≤ n :=
  huge_of_room_lt (Nat.lt_of_mul_lt_mul_right h)

/-- The elements that are stored. -/
def Watch.elements (limit : Nat) : Watch where
  bad w := w.overrun = true
  cleans _ _ := False
  here := Overfull
  limit := limit
  bad_calls _ _ := Iff.rfl
  bad_stored w len i := by simp [Work.stored]
  bad_cleaned w len k := by
    unfold Work.cleaned
    split_ifs <;> simp
  here_of_stored {n items} t hlt hle hitems := by
    refine ⟨huge_of_room_lt (hlt.trans_le hle), items.take (fallbackRoom n + 1), ((items.drop (fallbackRoom n + 1)).map Prod.fst).flatten ++ t,
      fun x hx => hitems x (List.mem_of_mem_take hx), ?_, ?_⟩
    · rw [List.length_take]
      exact Nat.min_eq_left hlt
    · rw [← List.append_assoc, ← List.flatten_append, ← List.map_append, List.take_append_drop]
  here_of_cleaned _ hc := hc.elim
  cleans_le _ hc := hc

/-- Everything that is touched outside of an array. -/
def Watch.blocks (limit : Nat) : Watch where
  bad w := ¬w.InBounds
  cleans len k := len < k * ptrSize
  here := Huge
  limit := limit
  bad_calls _ _ := Iff.rfl
  bad_stored w len i := by
    simp only [Work.InBounds, Work.stored, Bool.or_eq_false_iff, decide_eq_false_iff_not]
    tauto
  bad_cleaned w len k := by
    unfold Work.InBounds Work.cleaned
    split_ifs with hc <;> simp [hc]
  here_of_stored _ hlt hle _ := huge_of_room_lt (hlt.trans_le hle)
  here_of_cleaned _ hc := huge_of_cleaned hc
  cleans_le _ hc := lt_irrefl _ hc

/-- That, and loops that are longer than `limit`. -/
def Watch.loops (limit : Nat) : Watch where
  bad w := ¬w.InBounds ∨ limit < w.rounds
  cleans len k := len < k * ptrSize ∨ limit < k
  here := Beyond limit
  limit := limit
  bad_calls _ _ := Iff.rfl
  bad_stored w len i := by
    simp only [Work.InBounds, Work.stored, Bool.or_eq_false_iff, decide_eq_false_iff_not]
    tauto
  bad_cleaned w len k := by
    unfold Work.InBounds Work.cleaned
    split_ifs with hc
    · simp [hc]
    · simp only [hc, lt_max_iff]
      tauto
  here_of_stored _ hlt hle _ := .inr (huge_of_room_lt (hlt.trans_le hle))
  here_of_cleaned _ hc := hc.elim (fun hc => .inr (huge_of_cleaned hc)) .inl
  cleans_le hle hc := hc.elim (lt_irrefl _) (Nat.not_lt.mpr hle)

/-- The input comes to what is watched, or is so long that an array of indefinite length may. -/
def Over (h : Helpers) (W : Watch) (bs : Bytes) : Prop := W.limit < bs.length ∨ Claims h W.here bs

/-! ## Accounts -/

variable {α β : Type}

/-- What a function that reads a buffer leaves: `g` is what it is an account of, `G` what it consumes and
returns, `p` how many bytes that is at least, `δ` how many bytes have not been used for a call, and `O` the
inputs that come to what is watched. -/
structure Account (h : Helpers) (W : Watch) (p δ : Nat) (g : BufM α) (G : Bytes → Bytes → α → Prop) (O : Bytes → Prop)
    (b : Buffer) (k : Nat) (w : Work) (r : Except Errno α) (s : BufferState × Work) : Prop where
  agrees : Returns g ⟨b, k⟩ r s.1 ∨
    (h = .fallback ∧ (W.bad s.2 ∨ ∃ e s', Returns g ⟨b, k⟩ (.error e) s'))
  ok : ∀ a, r = .ok a → ∃ bs t, b.rest = bs ++ t ∧ s.1.buffer = b.advance bs.length ∧ p ≤ bs.length ∧
    s.2.calls + δ ≤ w.calls + bs.length ∧ (G bs t a ∨ O b.rest)
  error : ∀ e, r = .error e → s.2.calls + δ ≤ w.calls + b.rest.length + 1
  watched : W.bad s.2 → W.bad w ∨ O b.rest
  keeps : W.bad w → W.bad s.2

/-- On every valid buffer with at most `n` bytes left. -/
def Accounts (h : Helpers) (W : Watch) (n p δ : Nat) (f : WorkM α) (g : BufM α) (G : Bytes → Bytes → α → Prop)
    (O : Bytes → Prop) : Prop :=
  ∀ b k w, b.Valid → b.rest.length ≤ n → Triple f (⟨b, k⟩, w) (Account h W p δ g G O b k w)

theorem returns_quiet {g : BufM α} {s s' : BufferState} {r : Except Errno α} (h : Returns g s r s')
    (w : Work) : Returns (Work.quiet g) (s, w) r (s', w) := by
  have hrun : StateT.run (ExceptT.run g) s = pure (r, s') := h
  refine (Returns.get _).bind ?_
  simp only [hrun]
  refine (Returns.pure (r, s') _).bind ((Returns.set _ _).bind ?_)
  cases r with
  | ok a => exact Returns.pure a _
  | error e => exact Returns.throw e _

theorem returns_outcome {f : WorkM α} {s s' : BufferState × Work} {r : Except Errno α} (h : Returns f s r s') :
    Returns (Work.outcome f) s (.ok r) s' := by
  have hrun : StateT.run (ExceptT.run f) s = pure (r, s') := h
  show StateT.run (Functor.map Except.ok (ExceptT.run f) : StateT (BufferState × Work) Comp _) s = _
  rw [StateT.run_map, hrun]
  rfl

theorem calls_cleaned (w : Work) (len k : Nat) : (w.cleaned len k).calls = w.calls := by
  unfold Work.cleaned
  split_ifs <;> rfl

namespace Accounts

variable {h : Helpers} {W : Watch} {n p δ : Nat} {f : WorkM α} {g : BufM α} {F G : Bytes → Bytes → α → Prop}
  {O : Bytes → Prop}

theorem mono_or {O' : Bytes → Prop} {p' δ' : Nat} (hf : Accounts h W n p δ f g F O)
    (hG : ∀ bs t a, F bs t a → G bs t a ∨ O' (bs ++ t)) (hO : ∀ rest, O rest → O' rest) (hp : p' ≤ p)
    (hδ : δ' ≤ δ) : Accounts h W n p' δ' f g G O' := by
  intro b k w hb hn
  refine (hf b k w hb hn).mono fun r s ha => ?_
  refine ⟨ha.agrees, fun a hr => ?_, fun e hr => ?_, fun ho => (ha.watched ho).imp_right (hO _), ha.keeps⟩
  · obtain ⟨bs, t, hrest, hs, hlen, hcalls, hF⟩ := ha.ok a hr
    refine ⟨bs, t, hrest, hs, by omega, by omega, ?_⟩
    rcases hF with hF | hF
    · rw [hrest]
      exact hG bs t a hF
    · exact .inr (hO _ hF)
  · have := ha.error e hr
    omega

theorem mono {O' : Bytes → Prop} {p' δ' : Nat} (hf : Accounts h W n p δ f g F O)
    (hG : ∀ bs t a, F bs t a → G bs t a) (hO : ∀ rest, O rest → O' rest) (hp : p' ≤ p) (hδ : δ' ≤ δ) :
    Accounts h W n p' δ' f g G O' :=
  hf.mono_or (fun bs t a ha => .inl (hG bs t a ha)) hO hp hδ

theorem le {n' : Nat} (hf : Accounts h W n p δ f g G O) (hn : n' ≤ n) : Accounts h W n' p δ f g G O :=
  fun b k w hb hb' => hf b k w hb (hb'.trans hn)

theorem pure (a : α) : Accounts h W n 0 0 (Pure.pure a) (Pure.pure a) (Nothing fun _ c => c = a) O := by
  intro b k w hb hn
  refine Triple.pure ⟨.inl (Returns.pure a _), fun c hc => ?_, fun e he => (by cases he), .inl, id⟩
  exact ⟨[], b.rest, rfl, rfl, Nat.zero_le _, by simp, .inl ⟨rfl, (Except.ok.inj hc).symm⟩⟩

theorem throw (e : Errno) (hδ : δ ≤ 1) :
    Accounts h W n p δ (MonadExcept.throw e) (MonadExcept.throw e) G O := by
  intro b k w hb hn
  refine Triple.throw ⟨.inl (Returns.throw e _), fun c hc => (by cases hc), fun e he => ?_, .inl, id⟩
  simp only
  omega

/-- What follows an error is not run. -/
theorem throw_bind (e : Errno) (hδ : δ ≤ 1) (f : β → WorkM α) (g : β → BufM α) :
    Accounts h W n p δ (MonadExcept.throw e >>= f) (MonadExcept.throw e >>= g) G O := by
  intro b k w hb hn
  refine Triple.of_returns (Returns.throw e _).bind_error ⟨.inl (Returns.throw e _).bind_error,
    fun c hc => (by cases hc), fun e he => ?_, .inl, id⟩
  simp only
  omega

theorem ite {c : Prop} [Decidable c] {f f' : WorkM α} {g g' : BufM α} (hf : c → Accounts h W n p δ f g G O)
    (hf' : ¬c → Accounts h W n p δ f' g' G O) :
    Accounts h W n p δ (if c then f else f') (if c then g else g') G O := by
  by_cases hc : c
  · rw [if_pos hc, if_pos hc]
    exact hf hc
  · rw [if_neg hc, if_neg hc]
    exact hf' hc

/-- A function that reads no values. -/
theorem quiet (hg : Sound n g G) (hp : ∀ bs t a, G bs t a → p ≤ bs.length) (hδ : δ ≤ p) (hle : δ ≤ 1) :
    Accounts h W n p δ (Work.quiet g) g G O := by
  intro b k w hb hn
  obtain ⟨r, s, hret, hspec⟩ := hg b k hb hn
  refine Triple.of_returns (returns_quiet hret w) ⟨.inl hret, fun a ha => ?_, fun e he => ?_, .inl, id⟩
  · obtain ⟨bs, t, hrest, hs, hG⟩ := hspec a ha
    have hlen := hp bs t a hG
    exact ⟨bs, t, hrest, hs, hlen, by simp only; omega, .inl hG⟩
  · simp only
    omega

section Bind

variable {f2 : α → WorkM β} {g2 : α → BufM β} {H : α → Bytes → Bytes → β → Prop}

/-- What the second function adds to the account of the first one. -/
theorem account_bind {O1 P : Bytes → Prop} {q d : Nat} {b : Buffer} {k : Nat} {w w1 : Work} {a : α}
    {s1 : BufferState} {r : Except Errno β} {s : BufferState × Work} {bs t : Bytes}
    (hf : Account h W p δ g F O1 b k w (.ok a) (s1, w1)) (hrest : b.rest = bs ++ t)
    (hs1 : s1.buffer = b.advance bs.length) (hlen : p ≤ bs.length)
    (hcalls : w1.calls + δ ≤ w.calls + bs.length) (hF : F bs t a ∨ O1 b.rest)
    (hg : Account h W q d (g2 a) (H a) P s1.buffer s1.allocs w1 r s) (hO1 : O1 b.rest → O b.rest)
    (hO2 : F bs t a → P t → O (bs ++ t)) :
    Account h W (p + q) (δ + d) (g >>= g2) (Seq F H) O b k w r s := by
  have hrest2 : s1.buffer.rest = t := by rw [hs1]; exact rest_advance_append hrest
  have hover : P s1.buffer.rest → O b.rest := by
    intro ho
    rcases hF with hF | hF
    · rw [hrest2] at ho
      rw [hrest]
      exact hO2 hF ho
    · exact hO1 hF
  refine ⟨?_, ?_, ?_, ?_, fun hw => hg.keeps (hf.keeps hw)⟩
  · rcases hf.agrees with hret | ⟨hh, ho | ⟨e, s', hret⟩⟩
    · rcases hg.agrees with hret2 | ⟨hh, ho | ⟨e, s', hret2⟩⟩
      · exact .inl (hret.bind hret2)
      · exact .inr ⟨hh, .inl ho⟩
      · exact .inr ⟨hh, .inr ⟨e, s', hret.bind hret2⟩⟩
    · exact .inr ⟨hh, .inl (hg.keeps ho)⟩
    · exact .inr ⟨hh, .inr ⟨e, s', hret.bind_error⟩⟩
  · intro c hc
    obtain ⟨bs2, t2, hr2, hs2, hlen2, hcalls2, hG⟩ := hg.ok c hc
    rw [hrest2] at hr2
    refine ⟨bs ++ bs2, t2, by rw [hrest, hr2, List.append_assoc], ?_, ?_, ?_, ?_⟩
    · rw [hs2, hs1, Buffer.advance_advance, List.length_append]
    · rw [List.length_append]
      omega
    · rw [List.length_append]
      omega
    · rcases hF with hF | hF
      · exact hG.imp (fun hG => ⟨a, bs, bs2, rfl, hr2 ▸ hF, hG⟩) hover
      · exact .inr (hO1 hF)
  · intro e he
    have herr := hg.error e he
    rw [hrest2] at herr
    rw [hrest, List.length_append]
    omega
  · intro ho
    rcases hg.watched ho with ho | ho
    · exact (hf.watched ho).imp_right hO1
    · exact .inr (hover ho)

/-- An error of the first function is the result. -/
theorem account_bind_error {O1 : Bytes → Prop} {q d : Nat} {b : Buffer} {k : Nat} {w : Work} {e : Errno}
    {s : BufferState × Work} (hf : Account h W p δ g F O1 b k w (.error e) s) (hO1 : O1 b.rest → O b.rest)
    (hδ : s.2.calls + (δ + d) ≤ w.calls + b.rest.length + 1) :
    Account h W (p + q) (δ + d) (g >>= g2) (Seq F H) O b k w (.error e) s := by
  refine ⟨?_, fun c hc => (by cases hc), fun _ _ => hδ, fun ho => (hf.watched ho).imp_right hO1, hf.keeps⟩
  rcases hf.agrees with hret | ⟨hh, ho | ⟨e, s', hret⟩⟩
  · exact .inl hret.bind_error
  · exact .inr ⟨hh, .inl ho⟩
  · exact .inr ⟨hh, .inr ⟨e, s', hret.bind_error⟩⟩

/-- The second function starts with what the first one leaves. -/
theorem bind {O1 : Bytes → Prop} {P : α → Bytes → Prop} (hf : Accounts h W n p δ f g F O1)
    (hg : ∀ a n', n' + p ≤ n → Accounts h W n' 0 0 (f2 a) (g2 a) (H a) (P a))
    (hO1 : ∀ rest, O1 rest → O rest) (hO2 : ∀ bs t a, F bs t a → P a t → O (bs ++ t)) :
    Accounts h W n p δ (f >>= f2) (g >>= g2) (Seq F H) O := by
  intro b k w hb hn
  obtain ⟨r, ⟨s1, w1⟩, hret, ha⟩ := hf b k w hb hn
  show Triple _ _ (Account h W (p + 0) (δ + 0) _ _ _ b k w)
  cases r with
  | error e => exact Triple.of_returns hret.bind_error (account_bind_error ha (hO1 _) (ha.error e rfl))
  | ok a =>
    obtain ⟨bs, t, hrest, hs1, hlen, hcalls, hF⟩ := ha.ok a rfl
    obtain ⟨b1, k1⟩ := s1
    cases hs1
    have hrest2 := rest_advance_append hrest
    have hn' : t.length + p ≤ n := by
      rw [hrest, List.length_append] at hn
      omega
    obtain ⟨r2, s2, hret2, ha2⟩ := hg a t.length hn' (b.advance bs.length) k1 w1
      (hb.advance_append hrest) (by rw [hrest2])
    exact Triple.of_returns (hret.bind hret2)
      (account_bind ha hrest rfl hlen hcalls hF ha2 (hO1 _) (hO2 bs t a))

/-- What follows does not come to what is watched. -/
theorem bind_end (hf : Accounts h W n p δ f g F O)
    (hg : ∀ a n', n' + p ≤ n → Accounts h W n' 0 0 (f2 a) (g2 a) (H a) fun _ => False) :
    Accounts h W n p δ (f >>= f2) (g >>= g2) (Seq F H) O :=
  hf.bind hg (fun _ => id) fun _ _ _ _ => False.elim

/-- The first function reads no values. -/
theorem quiet_bind {P : α → Bytes → Prop} {q d : Nat} (hf : Sound n g F)
    (hp : ∀ bs t a, F bs t a → p ≤ bs.length) (hδ : p + d ≤ 1)
    (hg : ∀ bs t a, F bs t a → bs.length + t.length ≤ n →
      Accounts h W t.length q d (f2 a) (g2 a) (H a) (P a))
    (hO2 : ∀ bs t a, F bs t a → P a t → O (bs ++ t)) :
    Accounts h W n (p + q) (p + d) (Work.quiet g >>= f2) (g >>= g2) (Seq F H) O := by
  intro b k w hb hn
  have hq : Accounts h W n p p (Work.quiet g) g F fun _ => False := quiet hf hp (le_refl _) (by omega)
  obtain ⟨r, ⟨s1, w1⟩, hret, ha⟩ := hq b k w hb hn
  obtain ⟨r', s', hret', hspec⟩ := hf b k hb hn
  obtain ⟨rfl, hs⟩ := hret.unique (returns_quiet hret' w)
  obtain ⟨rfl, rfl⟩ := Prod.mk.inj hs
  cases r with
  | error e => exact Triple.of_returns hret.bind_error (account_bind_error ha False.elim (by simp only; omega))
  | ok a =>
    obtain ⟨bs, t, hrest, hs1, hF⟩ := hspec a rfl
    obtain ⟨b1, k1⟩ := s1
    cases hs1
    have hrest2 := rest_advance_append hrest
    have hlen : bs.length + t.length ≤ n := by rwa [hrest, List.length_append] at hn
    obtain ⟨r2, s2, hret2, ha2⟩ := hg bs t a hF hlen (b.advance bs.length) k1 w1
      (hb.advance_append hrest) (by rw [hrest2])
    have hcalls : w1.calls + p ≤ w1.calls + bs.length := by
      have := hp bs t a hF
      omega
    exact Triple.of_returns (hret.bind hret2)
      (account_bind ha hrest rfl (hp bs t a hF) hcalls (.inl hF) ha2 False.elim (hO2 bs t a))

end Bind

/-- `unpack_cbor_val` is called. -/
theorem call (hf : Accounts h W n p 1 f g G O) :
    Accounts h W n p 0 (Work.call >>= fun _ => f) g G O := by
  intro b k w hb hn
  obtain ⟨r, s, hret, ha⟩ := hf b k { w with calls := w.calls + 1 } hb hn
  refine Triple.of_returns (Returns.bind (Returns.modifyGet _ _) hret)
    ⟨ha.agrees, fun a hr => ?_, fun e hr => ?_, fun ho => ?_, fun hw => ha.keeps ((W.bad_calls w _).mpr hw)⟩
  · obtain ⟨bs, t, hrest, hs, hlen, hcalls, hG⟩ := ha.ok a hr
    exact ⟨bs, t, hrest, hs, hlen, by simp only at hcalls; omega, hG⟩
  · have := ha.error e hr
    simp only at this
    omega
  · exact (ha.watched ho).imp_left (W.bad_calls w _).mp

/-- An error after the clean-up. -/
theorem err (len k : Nat) (e : Errno) (hδ : δ ≤ 1) :
    Accounts h W n p δ (Work.err len k e) (MonadExcept.throw e) G fun rest => W.cleans len k ∨ O rest := by
  intro b i w hb hn
  have hret : Returns (Work.err len k e : WorkM α) (⟨b, i⟩, w) (.error e) (⟨b, i⟩, w.cleaned len k) :=
    (Returns.modifyGet _ _).bind (Returns.throw e _)
  refine Triple.of_returns hret ⟨.inl (Returns.throw e _), fun c hc => (by cases hc), fun _ _ => ?_, fun ho => ?_,
    fun hw => (W.bad_cleaned w len k).mpr (.inl hw)⟩
  · rw [calls_cleaned]
    omega
  · exact ((W.bad_cleaned w len k).mp ho).imp_right .inl

/-- What fails is cleaned up. -/
theorem orErr (len k : Nat) (hf : Accounts h W n p δ f g G O) :
    Accounts h W n p δ (Work.orErr len k f) g G fun rest => W.cleans len k ∨ O rest := by
  intro b i w hb hn
  obtain ⟨r, ⟨s, w'⟩, hret, ha⟩ := hf b i w hb hn
  cases r with
  | ok a =>
    refine Triple.of_returns ((returns_outcome hret).bind (Returns.pure a _)) ⟨ha.agrees, fun c hc => ?_, ha.error,
      fun ho => (ha.watched ho).imp_right .inr, ha.keeps⟩
    obtain ⟨bs, t, hrest, hs, hlen, hcalls, hG⟩ := ha.ok c hc
    exact ⟨bs, t, hrest, hs, hlen, hcalls, hG.imp_right .inr⟩
  | error e =>
    have herr : Returns (Work.err len k e : WorkM α) (s, w') (.error e) (s, w'.cleaned len k) :=
      (Returns.modifyGet _ _).bind (Returns.throw e _)
    refine Triple.of_returns ((returns_outcome hret).bind herr) ⟨?_, fun c hc => (by cases hc), fun e he => ?_,
      fun ho => ?_, fun hw => (W.bad_cleaned w' len k).mpr (.inl (ha.keeps hw))⟩
    · rcases ha.agrees with hg | ⟨hh, hw | hg⟩
      · exact .inl hg
      · exact .inr ⟨hh, .inl ((W.bad_cleaned w' len k).mpr (.inl hw))⟩
      · exact .inr ⟨hh, .inr hg⟩
    · rw [calls_cleaned]
      exact ha.error e he
    · rcases (W.bad_cleaned w' len k).mp ho with ho | ho
      · exact (ha.watched ho).imp_right .inr
      · exact .inr (.inl ho)

/-- An element is stored. -/
theorem storeElem (len i : Nat) (hf : Accounts h W n p δ f g G O) :
    Accounts h W n p δ (Work.storeElem len i >>= fun _ => f) g G
      fun rest => len < (i + 1) * ptrSize ∨ O rest := by
  intro b k w hb hn
  obtain ⟨r, s, hret, ha⟩ := hf b k (w.stored len i) hb hn
  refine Triple.of_returns (Returns.bind (Returns.modifyGet _ _) hret)
    ⟨ha.agrees, fun a hr => ?_, ha.error, fun ho => ?_, fun hw => ha.keeps ((W.bad_stored w len i).mpr (.inl hw))⟩
  · obtain ⟨bs, t, hrest, hs, hlen, hcalls, hG⟩ := ha.ok a hr
    exact ⟨bs, t, hrest, hs, hlen, hcalls, hG.imp_right .inr⟩
  · rcases ha.watched ho with ho | ho
    · exact ((W.bad_stored w len i).mp ho).imp_right .inl
    · exact .inr (.inr ho)

end Accounts

/-! ## Memory for arrays -/

theorem HasRoom.lt {k : Nat} (hk : HasRoom k) : k + 1 < 2 ^ 61 := by
  unfold HasRoom ptrSize ssizeMax at hk
  omega

theorem fallbackRoom_of_lt {n : Nat} (hn : n < 2 ^ 61) : fallbackRoom n = n := Nat.mod_eq_of_lt hn

theorem arrayBytes_eq (nelem : Nat) :
    MemArray.arrayBytes (.ofNat nelem) (.ofNat ptrSize) = fallbackRoom nelem * ptrSize := by
  rw [MemArray.arrayBytes, UInt64.toNat_mul, UInt64.toNat_ofNat', UInt64.toNat_ofNat', fallbackRoom, ptrSize]
  omega

theorem fallbackRoom_of_le {nelem : Nat} (h : nelem * ptrSize ≤ sizeMax) : fallbackRoom nelem = nelem := by
  unfold ptrSize sizeMax at h
  unfold fallbackRoom
  omega

variable {h : Helpers} {W : Watch} {m : Machine}

/-- The two ways to ask for the memory of an array. -/
theorem Helpers.arrayBytes_cases (h : Helpers) (nelem : Nat) :
    (h.arrayBytes nelem ptrSize = some (fallbackRoom nelem * ptrSize) ∧
      (nelem * ptrSize ≤ sizeMax ∨ h = .fallback)) ∨
    (h.arrayBytes nelem ptrSize = none ∧ sizeMax < nelem * ptrSize) := by
  cases h with
  | libc =>
    by_cases hle : nelem * ptrSize > sizeMax
    · exact .inr ⟨if_pos hle, hle⟩
    · rw [fallbackRoom_of_le (Nat.le_of_not_lt hle)]
      exact .inl ⟨if_neg hle, .inl (Nat.le_of_not_lt hle)⟩
  | fallback => exact .inl ⟨congrArg some (arrayBytes_eq nelem), .inr rfl⟩

section Alloc

variable {nelem : Nat} {g : BufM α} {b : Buffer} {k : Nat}

theorem returns_memReallocarray (hle : nelem * ptrSize ≤ sizeMax) :
    Returns (memReallocarray m nelem ptrSize) ⟨b, k⟩
      (.ok (m.grants k (.bytes (nelem * ptrSize)))) ⟨b, k + 1⟩ := by
  unfold memReallocarray
  rw [if_neg (Nat.not_lt.mpr hle)]
  exact returns_request m _ _

theorem returns_memReallocarray_checked (hlt : sizeMax < nelem * ptrSize) :
    Returns (do if ← memReallocarray m nelem ptrSize then g else throw .ENOMEM) ⟨b, k⟩
      (.error .ENOMEM) ⟨b, k⟩ := by
  unfold memReallocarray
  rw [if_pos hlt]
  exact (Returns.pure false _).bind (Returns.throw _ _)

/-- The account of what is run after the answer. -/
theorem Account.after_alloc {p δ k' : Nat} {G : Bytes → Bytes → α → Prop} {O : Bytes → Prop} {w : Work}
    {r : Except Errno α} {s : BufferState × Work} {granted : Bool}
    (hmem : Returns (memReallocarray m nelem ptrSize) ⟨b, k⟩ (.ok granted) ⟨b, k'⟩)
    (ha : Account h W p δ (if granted then g else throw .ENOMEM) G O b k' w r s) :
    Account h W p δ (do if ← memReallocarray m nelem ptrSize then g else throw .ENOMEM) G O b k w r s := by
  refine ⟨?_, ha.ok, ha.error, ha.watched, ha.keeps⟩
  rcases ha.agrees with hg | ⟨hh, hw | ⟨e, s', hg⟩⟩
  · exact .inl (hmem.bind hg)
  · exact .inr ⟨hh, .inl hw⟩
  · exact .inr ⟨hh, .inr ⟨e, s', hmem.bind hg⟩⟩

/-- The helper of the C library refuses what the one of `mem_array.c` asks for. -/
theorem Account.unchecked {p δ k' : Nat} {g' : BufM α} {G : Bytes → Bytes → α → Prop} {O : Bytes → Prop} {w : Work}
    {r : Except Errno α} {s : BufferState × Work} (hh : h = .fallback) (hlt : sizeMax < nelem * ptrSize)
    (ha : Account h W p δ g' G O b k' w r s) :
    Account h W p δ (do if ← memReallocarray m nelem ptrSize then g else throw .ENOMEM) G O b k w r s :=
  ⟨.inr ⟨hh, .inr ⟨.ENOMEM, ⟨b, k⟩, returns_memReallocarray_checked hlt⟩⟩, ha.ok, ha.error, ha.watched, ha.keeps⟩

/-- Memory is asked for; when it is not there, the rest is not run. -/
theorem alloc_accounts {n p δ : Nat} {F : Nat → WorkM α} {F' : WorkM α} {G : Bytes → Bytes → α → Prop}
    {O : Bytes → Prop} (hF : h.Holds nelem → Accounts h W n p δ (F (fallbackRoom nelem * ptrSize)) g G O)
    (hF' : Accounts h W n p δ F' (throw .ENOMEM) G O) :
    Accounts h W n p δ
      (do
        match ← Work.quiet (Work.memReallocarray h m nelem ptrSize) with
        | some len => F len
        | none => F')
      (do if ← memReallocarray m nelem ptrSize then g else throw .ENOMEM) G O := by
  intro b k w hb hn
  rcases h.arrayBytes_cases nelem with ⟨hlen, hcase⟩ | ⟨hlen, hlt⟩
  · have hreq := returns_request m (.bytes (fallbackRoom nelem * ptrSize)) ⟨b, k⟩
    have hmem : ∀ granted, m.grants k (.bytes (fallbackRoom nelem * ptrSize)) = granted →
        nelem * ptrSize ≤ sizeMax → Returns (memReallocarray m nelem ptrSize) ⟨b, k⟩ (.ok granted) ⟨b, k + 1⟩ := by
      rintro granted rfl hle
      rw [fallbackRoom_of_le hle]
      exact returns_memReallocarray hle
    cases hgrant : m.grants k (.bytes (fallbackRoom nelem * ptrSize)) with
    | false =>
      rw [hgrant] at hreq
      have hnone : Returns (Work.memReallocarray h m nelem ptrSize) ⟨b, k⟩ (.ok none) ⟨b, k + 1⟩ := by
        unfold Work.memReallocarray
        rw [hlen]
        exact hreq.bind (Returns.pure none _)
      obtain ⟨r, s, hret, ha⟩ := hF' b (k + 1) w hb hn
      refine Triple.of_returns ((returns_quiet hnone w).bind hret) ?_
      by_cases hle : nelem * ptrSize ≤ sizeMax
      · exact .after_alloc (hmem false hgrant hle) ha
      · exact .unchecked (hcase.resolve_left hle) (Nat.lt_of_not_le hle) ha
    | true =>
      rw [hgrant] at hreq
      have hsome : Returns (Work.memReallocarray h m nelem ptrSize) ⟨b, k⟩
          (.ok (some (fallbackRoom nelem * ptrSize))) ⟨b, k + 1⟩ := by
        unfold Work.memReallocarray
        rw [hlen]
        exact hreq.bind (Returns.pure _ _)
      obtain ⟨r, s, hret, ha⟩ := hF ⟨m.grants_le k _ hgrant, hcase.imp_left fallbackRoom_of_le⟩ b (k + 1) w hb hn
      refine Triple.of_returns ((returns_quiet hsome w).bind hret) ?_
      by_cases hle : nelem * ptrSize ≤ sizeMax
      · exact .after_alloc (hmem true hgrant hle) ha
      · exact .unchecked (hcase.resolve_left hle) (Nat.lt_of_not_le hle) ha
  · have hnone : Returns (Work.memReallocarray h m nelem ptrSize) ⟨b, k⟩ (.ok none) ⟨b, k⟩ := by
      unfold Work.memReallocarray
      rw [hlen]
      exact Returns.pure none _
    obtain ⟨r, s, hret, ha⟩ := hF' b k w hb hn
    refine Triple.of_returns ((returns_quiet hnone w).bind hret) ⟨?_, ha.ok, ha.error, ha.watched, ha.keeps⟩
    have hchecked := returns_memReallocarray_checked (m := m) (g := g) (b := b) (k := k) hlt
    rcases ha.agrees with hg | ⟨hh, -⟩
    · obtain ⟨rfl, hs⟩ := hg.unique (Returns.throw _ _)
      rw [hs]
      exact .inl hchecked
    · exact .inr ⟨hh, .inr ⟨_, _, hchecked⟩⟩

end Alloc

/-! ## Arrays -/

variable (h W m)

/-- `unpack_cbor_val`, as long as at most `n` bytes are left. -/
def AccountsVal (n : Nat) : Prop :=
  Accounts h W n 1 0 (Work.unpackCborVal h m) (unpackCborVal m) (fun bs _ v => RoomyItem bs v) (Over h W)

/-- The loop over elements cleans up, stores one that has no room in `len` bytes, or reads one that comes to what
is watched. -/
def ElemsOver (len i nelem : Nat) (rest : Bytes) : Prop :=
  W.cleans len (i + nelem) ∨ ∃ items t, RoomyItems items ∧ rest = (items.map Prod.fst).flatten ++ t ∧
    ((items.length ≤ nelem ∧ len < (i + items.length) * ptrSize) ∨ (items.length < nelem ∧ Over h W t))

variable {h W}

theorem ElemsOver.cons {len i nelem : Nat} {bs t : Bytes} {v : Val} (hv : RoomyItem bs v)
    (ho : ElemsOver h W len (i + 1) nelem t) : ElemsOver h W len i (nelem + 1) (bs ++ t) := by
  rcases ho with ho | ⟨items, t, hitems, rfl, hcase⟩
  · rw [Nat.add_assoc, Nat.add_comm 1] at ho
    exact .inl ho
  · refine .inr ⟨(bs, v) :: items, t, List.forall_mem_cons.mpr ⟨hv, hitems⟩, by simp, ?_⟩
    have hindex : i + (items.length + 1) = i + 1 + items.length := by omega
    rw [List.length_cons, hindex]
    exact hcase.imp (fun hc => ⟨by omega, hc.2⟩) fun hc => ⟨by omega, hc.2⟩

variable {m}

theorem unpackDefElems_accounts {n : Nat} (hval : AccountsVal h W m n) (len i nelem : Nat) :
    Accounts h W n 0 0 (Work.unpackDefElems h m len i nelem) (unpackDefElems m nelem)
      (fun bs _ vals => ∃ items, RoomyItems items ∧ items.length = nelem ∧
        bs = (items.map Prod.fst).flatten ∧ vals = items.map Prod.snd) (ElemsOver h W len i nelem) := by
  induction nelem generalizing n i with
  | zero =>
    rw [Work.unpackDefElems, unpackDefElems]
    exact (Accounts.pure []).mono (fun bs t vals hr => ⟨[], by simp [RoomyItems], rfl, hr.1, hr.2⟩)
      (fun _ => id) (le_refl 0) (le_refl 0)
  | succ nelem ih =>
    rw [Work.unpackDefElems, unpackDefElems]
    refine (Accounts.bind (hval.orErr len (i + (nelem + 1))) (O := ElemsOver h W len i (nelem + 1))
      (fun elem n' hn' => ((ih (Accounts.le hval (by omega)) (i + 1)).bind_end fun vals _ _ =>
        Accounts.pure (elem :: vals)).storeElem len i) ?_ ?_).mono ?_ (fun _ => id) (Nat.zero_le _) (le_refl 0)
    · rintro rest (hc | ho)
      · exact .inl hc
      · exact .inr ⟨[], rest, by simp [RoomyItems], rfl, .inr ⟨by simp, ho⟩⟩
    · rintro bs t elem helem (hlt | ho)
      · exact .inr ⟨[(bs, elem)], t, by simpa [RoomyItems] using helem, by simp, .inl ⟨by simp, hlt⟩⟩
      · exact ho.cons helem
    · rintro bs t vals ⟨elem, b1, b2, rfl, helem, vals', b3, b4, rfl, ⟨items, hitems, hlen, rfl, rfl⟩,
        rfl, rfl⟩
      exact ⟨(b1, elem) :: items, List.forall_mem_cons.mpr ⟨helem, hitems⟩, by simp [hlen], by simp, by simp⟩

/-- Elements of an array of indefinite length, of which there are `k` already, come to what is watched. -/
def IndefOver (h : Helpers) (W : Watch) (k : Nat) (rest : Bytes) : Prop :=
  W.limit < k + rest.length ∨ ∃ items t, RoomyItems items ∧ HasRoom (k + items.length) ∧
    rest = (items.map Prod.fst).flatten ++ t ∧ Claims h W.here t

theorem IndefOver.of_limit_lt {k : Nat} {rest : Bytes} (hlt : W.limit < k) : IndefOver h W k rest :=
  .inl (Nat.lt_add_right _ hlt)

theorem IndefOver.of_over {k : Nat} {rest : Bytes} (hk : HasRoom k) (ho : Over h W rest) : IndefOver h W k rest := by
  rcases ho with ho | ho
  · exact .inl (by omega)
  · exact .inr ⟨[], rest, by simp [RoomyItems], hk, rfl, ho⟩

theorem IndefOver.cons {k : Nat} {bs t : Bytes} {v : Val} (hv : RoomyItem bs v) (ho : IndefOver h W (k + 1) t) :
    IndefOver h W k (bs ++ t) := by
  have hpos := List.length_pos_of_ne_nil hv.ne_nil
  rcases ho with ho | ⟨items, t, hitems, hroom, rfl, ho⟩
  · refine .inl ?_
    rw [List.length_append]
    omega
  · refine .inr ⟨(bs, v) :: items, t, List.forall_mem_cons.mpr ⟨hv, hitems⟩, ?_, by simp, ho⟩
    rw [List.length_cons]
    rwa [Nat.add_assoc, Nat.add_comm 1] at hroom

theorem grownBytes_eq {k : Nat} (hk : HasRoom k) : h.grownBytes k = k * ptrSize := by
  have hlt : k < 2 ^ 61 := Nat.lt_of_succ_lt hk.lt
  rcases h.arrayBytes_cases k with ⟨hlen, -⟩ | ⟨-, hlt'⟩
  · rw [Helpers.grownBytes, hlen, fallbackRoom_of_lt hlt]
    rfl
  · unfold ptrSize sizeMax at hlt'
    omega

/-- Only an array that is longer than the input is noticed when it is taken apart. -/
theorem limit_lt_of_cleans {k : Nat} (hk : HasRoom k) (hc : W.cleans (h.grownBytes k) k) : W.limit < k := by
  rw [grownBytes_eq hk] at hc
  exact Nat.lt_of_not_le fun hle => W.cleans_le hle hc

theorem RoomyItems.length_le {items : List (Bytes × Val)} (hitems : RoomyItems items) :
    items.length ≤ (items.map Prod.fst).flatten.length := by
  have hle := length_le_flatten (items.map Prod.fst) fun bs hbs => by
    obtain ⟨x, hx, rfl⟩ := List.mem_map.mp hbs
    exact (hitems x hx).ne_nil
  rwa [List.length_map] at hle

/-- The array is made longer by one element. -/
theorem growElem_accounts {n : Nat} {arr : List Val} {elem : Val} {G : Bytes → Bytes → List Val → Prop}
    {O : Bytes → Prop} (harr : HasRoom arr.length) (hO : ∀ rest, W.cleans (h.grownBytes arr.length) arr.length → O rest)
    (hnext : HasRoom (arr.length + 1) →
      Accounts h W n 0 0 (Work.unpackIndefElems h m (arr ++ [elem])) (unpackIndefElems m (arr ++ [elem])) G O) :
    Accounts h W n 0 0
      (do
        match ← Work.quiet (Work.memReallocarray h m (arr.length + 1) ptrSize) with
        | some len =>
          Work.storeElem len arr.length
          Work.unpackIndefElems h m (arr ++ [elem])
        | none => Work.err (h.grownBytes arr.length) arr.length .ENOMEM)
      (do
        if ← memReallocarray m (arr.length + 1) ptrSize then unpackIndefElems m (arr ++ [elem])
        else throw .ENOMEM) G O := by
  refine alloc_accounts (fun hholds => ?_) ?_
  · have hroom : HasRoom (arr.length + 1) := by
      rw [← fallbackRoom_of_lt harr.lt]
      exact hholds.1
    refine ((hnext hroom).storeElem _ arr.length).mono (fun _ _ _ => id) ?_ (le_refl 0) (le_refl 0)
    rintro rest (hlt | ho)
    · rw [fallbackRoom_of_lt harr.lt] at hlt
      exact absurd hlt (lt_irrefl _)
    · exact ho
  · refine (Accounts.err _ _ _ (Nat.zero_le _) (O := O)).mono (fun _ _ _ => id) ?_ (le_refl 0) (le_refl 0)
    rintro rest (hc | ho)
    · exact hO rest hc
    · exact ho

theorem unpackIndefElems_accounts {n : Nat} (hval : AccountsVal h W m n) (arr : List Val)
    (harr : HasRoom arr.length) :
    Accounts h W n 0 0 (Work.unpackIndefElems h m arr) (unpackIndefElems m arr)
      (fun bs _ vals => ∃ items, RoomyItems items ∧ HasRoom (arr.length + items.length) ∧
        bs = (items.map Prod.fst).flatten ∧ vals = arr ++ items.map Prod.snd)
      (IndefOver h W arr.length) := by
  -- every element takes at least one byte
  induction n using Nat.strong_induction_on generalizing arr with
  | _ n ih =>
    rw [Work.unpackIndefElems, unpackIndefElems]
    refine (Accounts.quiet_bind (p := 0) (cborPeekBreak_sound n) (fun _ _ _ _ => Nat.zero_le _)
      (Nat.zero_le _) (P := fun _ => IndefOver h W arr.length) (H := fun _ bs _ vals =>
        ∃ items, RoomyItems items ∧ HasRoom (arr.length + items.length) ∧
        bs = (items.map Prod.fst).flatten ∧ vals = arr ++ items.map Prod.snd) (q := 0) (d := 0) ?_ ?_).mono
          ?_ (fun _ => id) (Nat.zero_le _) (le_refl 0)
    · intro bs t code _ hlen
      have herr : ∀ e, Accounts h W t.length 0 0 (Work.err (h.grownBytes arr.length) arr.length e)
          (throw e : BufM (List Val)) (fun bs _ vals => ∃ items, RoomyItems items ∧
            HasRoom (arr.length + items.length) ∧ bs = (items.map Prod.fst).flatten ∧
            vals = arr ++ items.map Prod.snd) (IndefOver h W arr.length) := by
        intro e
        refine (Accounts.err _ _ e (Nat.zero_le _) (O := fun _ => False)).mono (fun _ _ _ => id) ?_ (le_refl 0)
          (le_refl 0)
        rintro rest (hc | ho)
        · exact .of_limit_lt (limit_lt_of_cleans harr hc)
        · exact ho.elim
      cases code with
      | ok u =>
        refine (Accounts.pure arr).mono (fun bs t vals hr => ⟨[], by simp [RoomyItems], harr, hr.1, ?_⟩)
          (fun _ => id) (le_refl 0) (le_refl 0)
        rw [hr.2, List.map_nil, List.append_nil]
      | error e =>
        cases e with
        | EILSEQ =>
          refine (Accounts.bind (O := IndefOver h W arr.length) (H := fun elem bs _ vals =>
            ∃ items, RoomyItems items ∧ HasRoom (arr.length + 1 + items.length) ∧
              bs = (items.map Prod.fst).flatten ∧ vals = arr ++ [elem] ++ items.map Prod.snd)
            (P := fun _ => IndefOver h W (arr.length + 1))
            ((Accounts.le hval (by omega)).orErr (h.grownBytes arr.length) arr.length) ?_ ?_ ?_).mono ?_
              (fun _ => id) (Nat.zero_le _) (le_refl 0)
          · intro elem n' hn'
            refine growElem_accounts harr ?_ fun hroom => ?_
            · intro rest hc
              have hlt := limit_lt_of_cleans harr hc
              exact .inl (by omega)
            · have hnext := ih n' (by omega) (Accounts.le hval (by omega)) (arr ++ [elem])
                (by simpa using hroom)
              rwa [List.length_append, List.length_singleton] at hnext
          · rintro rest (hc | ho)
            · exact .of_limit_lt (limit_lt_of_cleans harr hc)
            · exact .of_over harr ho
          · rintro bs t elem helem ho
            exact ho.cons helem
          · rintro bs t vals ⟨elem, b1, b2, rfl, helem, items, hitems, hroom, rfl, rfl⟩
            refine ⟨(b1, elem) :: items, List.forall_mem_cons.mpr ⟨helem, hitems⟩, ?_, by simp, by simp⟩
            rw [List.length_cons]
            rwa [Nat.add_assoc, Nat.add_comm 1] at hroom
        | _ => exact herr _
    · rintro bs t code ⟨rfl, _⟩ ho
      exact ho
    · rintro bs t vals ⟨_, b1, b2, rfl, ⟨rfl, _⟩, hr⟩
      exact hr

/-- The end of an array, once its elements are there. -/
theorem finishArray_accounts (n : Nat) (endRequired : Bool) (len : Nat) (arr : List Val) :
    Accounts h W n 0 0 (Work.finishArray m endRequired len arr)
      (cborUnpackArrayEnd endRequired >>= fun _ => valAlloc m (.array arr))
      (fun bs _ v => v = .array arr ∧ bs = if endRequired then [breakByte] else [])
      fun _ => W.cleans len arr.length := by
  rw [Work.finishArray]
  have hend : Accounts h W n 0 0 (Work.quiet (cborUnpackArrayEnd endRequired)) (cborUnpackArrayEnd endRequired)
      (fun bs _ _ => bs = if endRequired then [breakByte] else []) fun _ => False :=
    Accounts.quiet ((cborUnpackEnd_atomic n endRequired).sound) (fun _ _ _ _ => Nat.zero_le _) (le_refl 0)
      (Nat.zero_le _)
  have halloc : ∀ n', Accounts h W n' 0 0 (Work.quiet (valAlloc m (.array arr))) (valAlloc m (.array arr))
      (fun bs _ v => bs = [] ∧ v = .array arr) fun _ => False := fun n' =>
    (Accounts.quiet (valAlloc_sound m n' (.array arr)) (fun _ _ _ _ => Nat.zero_le _) (le_refl 0)
      (Nat.zero_le _)).mono (fun _ _ _ => id) (fun _ => id) (le_refl 0) (le_refl 0)
  refine (Accounts.bind (O := fun _ => W.cleans len arr.length) (hend.orErr len arr.length)
    (fun _ n' _ => (halloc n').orErr len arr.length) ?_ ?_).mono ?_ (fun _ => id) (le_refl 0) (le_refl 0)
  · rintro rest (hc | ho)
    · exact hc
    · exact ho.elim
  · rintro bs t _ _ (hc | ho)
    · exact hc
    · exact ho.elim
  · rintro bs t v ⟨_, b1, b2, rfl, hend, rfl, rfl⟩
    rw [List.append_nil]
    exact ⟨rfl, hend⟩

/-- What follows the start of an array. -/
def RoomyArray (r : UInt64 × Bool) (bs _t : Bytes) (v : Val) : Prop :=
  ∃ items, RoomyItems items ∧ HasRoom items.length ∧ (r.2 = false → items.length = r.1.toNat) ∧
    v = .array (items.map Prod.snd) ∧ bs = (items.map Prod.fst).flatten ++ if r.2 then [breakByte] else []

/-- An array comes to what is watched behind its start. -/
def ArrayOver (h : Helpers) (W : Watch) (r : UInt64 × Bool) (rest : Bytes) : Prop :=
  (r.2 = false ∧ h.Holds r.1.toNat ∧ W.here r.1.toNat rest) ∨ W.limit < rest.length ∨
    ∃ items t, RoomyItems items ∧ rest = (items.map Prod.fst).flatten ++ t ∧ StartRoom h r items.length ∧
      Claims h W.here t

theorem StartRoom.indef {r : UInt64 × Bool} {k : Nat} (hr : r.2 = true) (hk : HasRoom k) : StartRoom h r k := by
  rw [StartRoom, hr]
  exact hk

theorem StartRoom.def {r : UInt64 × Bool} {k : Nat} (hr : r.2 = false) (hholds : h.Holds r.1.toNat)
    (hk : k < r.1.toNat) : StartRoom h r k := by
  rw [StartRoom, hr]
  exact ⟨hholds, hk⟩

theorem IndefOver.array {nelem : UInt64} {rest : Bytes} (ho : IndefOver h W 0 rest) :
    ArrayOver h W (nelem, true) rest := by
  rw [IndefOver] at ho
  simp only [Nat.zero_add] at ho
  rcases ho with ho | ⟨items, t, hitems, hroom, rfl, ho⟩
  · exact .inr (.inl ho)
  · exact .inr (.inr ⟨items, t, hitems, rfl, .indef rfl hroom, ho⟩)

/-- The elements that have no room. -/
theorem ElemsOver.array {nelem : UInt64} {rest : Bytes} (hholds : h.Holds nelem.toNat)
    (ho : ElemsOver h W (fallbackRoom nelem.toNat * ptrSize) 0 nelem.toNat rest) :
    ArrayOver h W (nelem, false) rest := by
  rcases ho with hc | ⟨items, t, hitems, rfl, ⟨hle, hlt⟩ | ⟨hlt, ho⟩⟩
  · rw [Nat.zero_add] at hc
    exact .inl ⟨rfl, hholds, W.here_of_cleaned rest hc⟩
  · rw [Nat.zero_add] at hlt
    exact .inl ⟨rfl, hholds, W.here_of_stored t (Nat.lt_of_mul_lt_mul_right hlt) hle hitems⟩
  · rcases ho with ho | ho
    · refine .inr (.inl ?_)
      rw [List.length_append]
      omega
    · exact .inr (.inr ⟨items, t, hitems, rfl, .def rfl hholds hlt, ho⟩)

theorem arrayBody_accounts {n : Nat} (hval : AccountsVal h W m n) (nelem : UInt64) (endRequired : Bool) :
    Accounts h W n 0 0
      (do
        if endRequired then
          let arr ← Work.unpackIndefElems h m []
          Work.finishArray m endRequired (h.grownBytes arr.length) arr
        else
          if nelem.toNat > sizeMax then throw .ENOMEM
          match ← Work.quiet (Work.memReallocarray h m nelem.toNat ptrSize) with
          | some len =>
            let arr ← Work.unpackDefElems h m len 0 nelem.toNat
            Work.finishArray m endRequired len arr
          | none => throw .ENOMEM)
      (do
        if endRequired then
          let arr ← unpackIndefElems m []
          cborUnpackArrayEnd endRequired
          valAlloc m (.array arr)
        else
          if nelem.toNat > sizeMax then throw .ENOMEM
          if ← memReallocarray m nelem.toNat ptrSize then
            let arr ← unpackDefElems m nelem.toNat
            cborUnpackArrayEnd endRequired
            valAlloc m (.array arr)
          else throw .ENOMEM)
      (RoomyArray (nelem, endRequired)) (ArrayOver h W (nelem, endRequired)) := by
  cases endRequired with
  | true =>
    refine ((unpackIndefElems_accounts hval [] (Nat.zero_le _)).bind (O := IndefOver h W 0)
      (fun arr n' _ => finishArray_accounts n' true (h.grownBytes arr.length) arr) (fun _ => id) ?_).mono ?_
      (fun _ => IndefOver.array) (le_refl 0) (le_refl 0)
    · rintro bs t _ ⟨items, hitems, hroom, rfl, rfl⟩ hc
      rw [List.length_nil, Nat.zero_add] at hroom
      rw [List.nil_append, List.length_map] at hc
      have hlt := limit_lt_of_cleans hroom hc
      have hle := hitems.length_le
      refine .inl ?_
      rw [List.length_append]
      omega
    · rintro bs t v ⟨_, b1, b2, rfl, ⟨items, hitems, hroom, rfl, rfl⟩, rfl, rfl⟩
      rw [List.length_nil, Nat.zero_add] at hroom
      exact ⟨items, hitems, hroom, by simp, by simp, rfl⟩
  | false =>
    refine Accounts.ite (fun hc => absurd hc (by simp)) fun _ =>
      Accounts.ite (fun _ => Accounts.throw_bind _ (Nat.zero_le _) _ _) fun _ => ?_
    refine alloc_accounts (fun hholds => ?_) (Accounts.throw _ (Nat.zero_le _))
    refine ((unpackDefElems_accounts hval _ 0 nelem.toNat).bind (O := ArrayOver h W (nelem, false))
      (fun arr n' _ => finishArray_accounts n' false _ arr) (fun rest => ElemsOver.array hholds) ?_).mono_or ?_
      (fun rest => id) (le_refl 0) (le_refl 0)
    · rintro bs t _ ⟨items, hitems, hlen, rfl, rfl⟩ hc
      rw [List.length_map, hlen] at hc
      exact .inl ⟨rfl, hholds, W.here_of_cleaned _ hc⟩
    · rintro bs t v ⟨_, b1, b2, rfl, ⟨items, hitems, hlen, rfl, rfl⟩, rfl, rfl⟩
      by_cases hroom : fallbackRoom nelem.toNat = nelem.toNat
      · have hlen' := hholds.1
        rw [hroom, ← hlen] at hlen'
        exact .inl ⟨items, hitems, hlen', fun _ => hlen, rfl, rfl⟩
      · refine .inr ?_
        rw [List.append_assoc]
        have hle : fallbackRoom nelem.toNat ≤ nelem.toNat := Nat.mod_le _ _
        have hlt : fallbackRoom nelem.toNat < items.length := by omega
        exact .inl ⟨rfl, hholds, W.here_of_stored _ hlt (le_of_eq hlen) hitems⟩

theorem Over.of_claims {bs : Bytes} (ho : Claims h W.here bs) : Over h W bs := .inr ho

/-- What is too long behind a prefix is too long with it. -/
theorem Over.of_length {bs t : Bytes} (hlt : W.limit < t.length) : Over h W (bs ++ t) := by
  refine .inl ?_
  rw [List.length_append]
  omega

/-- Behind the start of an array. -/
theorem ArrayOver.over {bs t : Bytes} {r : UInt64 × Bool} (hstart : Start .array bs r)
    (ho : ArrayOver h W r t) : Over h W (bs ++ t) := by
  rcases ho with ⟨hr, hholds, hhere⟩ | hlt | ⟨items, t, hitems, rfl, hroom, ho⟩
  · rcases hstart with ⟨rfl, _⟩ | ⟨_, hhead⟩
    · cases hr
    · exact .of_claims (.here hhead hholds hhere)
  · exact .of_length hlt
  · exact .of_claims (.elem items hstart hroom hitems ho)

theorem unpackCborArray_accounts {n : Nat} (hval : ∀ n' < n, AccountsVal h W m n') :
    Accounts h W n 1 1 (Work.unpackCborArray h m) (unpackCborArray m) (fun bs _ v => RoomyItem bs v)
      (Over h W) := by
  rw [Work.unpackCborArray, unpackCborArray]
  refine (Accounts.quiet_bind (p := 1) (q := 0) (d := 0) (cborUnpackArrayStart_atomic n).sound
    (H := RoomyArray) (P := ArrayOver h W) ?_ (le_refl 1) ?_ fun bs t r => ArrayOver.over).mono ?_
      (fun _ => id) (le_refl 1) (le_refl 1)
  · exact fun bs t r hstart => List.length_pos_of_ne_nil hstart.ne_nil
  · rintro bs t ⟨nelem, endRequired⟩ hstart hlen
    have hpos := List.length_pos_of_ne_nil hstart.ne_nil
    exact arrayBody_accounts (hval t.length (by omega)) nelem endRequired
  · rintro bs t v ⟨⟨nelem, endRequired⟩, b1, b2, rfl, hstart, items, hitems, hroom, hnum, rfl, rfl⟩
    rcases hstart with ⟨hr, rfl⟩ | ⟨hr, hhead⟩
    · obtain ⟨rfl, rfl⟩ := Prod.mk.inj hr
      exact .arrayIndef items hroom hitems
    · simp only at hr hhead hnum
      subst hr
      rw [← hnum rfl] at hhead
      simp only [Bool.false_eq_true, if_false, List.append_nil]
      exact .array items hhead hroom hitems

/-! ## Maps -/

/-- Names and values whose arrays fit in memory. -/
def RoomyPairs (pairs : List PairItem) : Prop :=
  ∀ p ∈ pairs, Text p.nameBytes p.name ∧ RoomyItem p.valueBytes p.value

/-- The loop over pairs reads a value that comes to what is watched, behind a number of pairs that satisfies `P`. -/
def PairsOver (h : Helpers) (W : Watch) (P : Nat → Prop) (rest : Bytes) : Prop :=
  ∃ pairs name payload t, RoomyPairs pairs ∧ P pairs.length ∧ Text name payload ∧
    rest = (pairs.map PairItem.bytes).flatten ++ (name ++ t) ∧ Over h W t

/-- The pairs that a loop reads into an nvlist. -/
def RoomyMap (nvl : List (CStr × Val)) (bs _t : Bytes) (r : List (CStr × Val)) (pairs : List PairItem) :
    Prop :=
  RoomyPairs pairs ∧ bs = (pairs.map PairItem.bytes).flatten ∧ r = nvSetAll nvl (pairs.map PairItem.pair)

theorem RoomyMap.cons {nvl r : List (CStr × Val)} {p : PairItem} {bs t : Bytes} {pairs : List PairItem}
    (hp : Text p.nameBytes p.name ∧ RoomyItem p.valueBytes p.value)
    (h : RoomyMap (nvSet nvl p.pair.1 p.pair.2) bs t r pairs) : RoomyMap nvl (p.bytes ++ bs) t r (p :: pairs) := by
  obtain ⟨hpairs, rfl, rfl⟩ := h
  exact ⟨List.forall_mem_cons.mpr ⟨hp, hpairs⟩, by simp, rfl⟩

theorem PairsOver.cons {P Q : Nat → Prop} {p : PairItem} {t : Bytes}
    (hp : Text p.nameBytes p.name ∧ RoomyItem p.valueBytes p.value) (hPQ : ∀ k, P k → Q (k + 1))
    (ho : PairsOver h W P t) : PairsOver h W Q (p.bytes ++ t) := by
  obtain ⟨pairs, name, payload, t, hpairs, hP, hname, rfl, ho⟩ := ho
  exact ⟨p :: pairs, name, payload, t, List.forall_mem_cons.mpr ⟨hp, hpairs⟩, hPQ _ hP, hname, by simp, ho⟩

theorem PairsOver.of_text {P : Nat → Prop} {name payload t : Bytes} (hP : P 0) (hname : Text name payload)
    (ho : Over h W t) : PairsOver h W P (name ++ t) :=
  ⟨[], name, payload, t, by simp [RoomyPairs], hP, hname, rfl, ho⟩

theorem unpackCborPair_accounts {n : Nat} (hval : AccountsVal h W m n) (nvl : List (CStr × Val)) :
    Accounts h W n 1 0 (Work.unpackCborPair h m nvl) (unpackCborPair m nvl)
      (fun bs _ r => ∃ p : PairItem, (Text p.nameBytes p.name ∧ RoomyItem p.valueBytes p.value) ∧
        bs = p.bytes ∧ r = nvSet nvl p.pair.1 p.pair.2) (PairsOver h W (· = 0)) := by
  rw [Work.unpackCborPair, unpackCborPair]
  refine (Accounts.quiet_bind (p := 1) (q := 0) (d := 0) (P := fun _ => Over h W) (cborUnpackStr_sound m n)
    ?_ (le_refl 1) (fun bs t name _ hlen => ((Accounts.le hval (by omega)).bind_end fun value n' _ =>
      Accounts.quiet (nvlSetPair_sound m n' nvl name value) (p := 0) (fun _ _ _ _ => Nat.zero_le _)
        (le_refl 0) (Nat.zero_le _)).mono (fun _ _ _ => id) (fun _ => id) (Nat.zero_le _) (le_refl 0))
    ?_).mono ?_ (fun _ => id) (le_refl 1) (Nat.zero_le _)
  · rintro bs t name ⟨payload, htext, -⟩
    exact List.length_pos_of_ne_nil htext.ne_nil
  · rintro bs t name ⟨payload, htext, -⟩ ho
    exact .of_text rfl htext ho
  · rintro bs t r ⟨_, b1, b2, rfl, ⟨payload, htext, rfl⟩, value, b3, b4, rfl, hitem, rfl, rfl⟩
    rw [List.append_nil]
    exact ⟨⟨b1, payload, b3, value⟩, ⟨htext, hitem⟩, rfl, rfl⟩

/-- It is the first pair. -/
theorem PairsOver.first {P : Nat → Prop} {rest : Bytes} (hP : P 0) (ho : PairsOver h W (· = 0) rest) :
    PairsOver h W P rest := by
  obtain ⟨pairs, name, payload, t, hpairs, hlen, hname, rfl, ho⟩ := ho
  exact ⟨pairs, name, payload, t, hpairs, by rwa [hlen], hname, rfl, ho⟩

theorem unpackDefPairs_accounts {n : Nat} (hval : AccountsVal h W m n) (npairs : Nat)
    (nvl : List (CStr × Val)) :
    Accounts h W n 0 0 (Work.unpackDefPairs h m npairs nvl) (unpackDefPairs m npairs nvl)
      (fun bs t r => ∃ pairs, pairs.length = npairs ∧ RoomyMap nvl bs t r pairs)
      (PairsOver h W (· < npairs)) := by
  induction npairs generalizing n nvl with
  | zero =>
    rw [Work.unpackDefPairs, unpackDefPairs]
    exact (Accounts.pure nvl).mono (fun bs t r hr => ⟨[], rfl, by simp [RoomyPairs], hr.1, hr.2⟩)
      (fun _ => id) (le_refl 0) (le_refl 0)
  | succ npairs ih =>
    rw [Work.unpackDefPairs, unpackDefPairs]
    refine (Accounts.bind (unpackCborPair_accounts hval nvl) (O := PairsOver h W (· < npairs + 1))
      (fun nvl' n' hn' => ih (Accounts.le hval (by omega)) nvl') ?_ ?_).mono ?_ (fun _ => id)
        (Nat.zero_le _) (le_refl 0)
    · exact fun rest ho => ho.first (Nat.zero_lt_succ _)
    · rintro bs t r ⟨p, hp, rfl, -⟩ ho
      exact ho.cons hp fun k hk => Nat.succ_lt_succ hk
    · rintro bs t r ⟨_, b1, b2, rfl, ⟨p, hp, rfl, rfl⟩, pairs, hlen, hbody⟩
      exact ⟨p :: pairs, by simp [hlen], hbody.cons hp⟩

theorem unpackIndefPairs_accounts {n : Nat} (hval : AccountsVal h W m n) (nvl : List (CStr × Val)) :
    Accounts h W n 0 0 (Work.unpackIndefPairs h m nvl) (unpackIndefPairs m nvl)
      (fun bs t r => ∃ pairs, RoomyMap nvl bs t r pairs) (PairsOver h W fun _ => True) := by
  -- every name takes at least one byte
  induction n using Nat.strong_induction_on generalizing nvl with
  | _ n ih =>
    rw [Work.unpackIndefPairs, unpackIndefPairs]
    refine (Accounts.quiet_bind (p := 0) (cborPeekBreak_sound n) (fun _ _ _ _ => Nat.zero_le _)
      (Nat.zero_le _) (P := fun _ => PairsOver h W fun _ => True) (H := fun _ bs t r =>
        ∃ pairs, RoomyMap nvl bs t r pairs) (q := 0) (d := 0) ?_ ?_).mono
          ?_ (fun _ => id) (Nat.zero_le _) (le_refl 0)
    · intro bs t code _ hlen
      cases code with
      | ok u =>
        exact (Accounts.pure nvl).mono (fun bs t r hr => ⟨[], by simp [RoomyPairs], hr.1, hr.2⟩)
          (fun _ => id) (le_refl 0) (le_refl 0)
      | error e =>
        cases e with
        | EILSEQ =>
          refine (Accounts.bind (unpackCborPair_accounts (Accounts.le hval (by omega)) nvl)
            (O := PairsOver h W fun _ => True) (fun nvl' n' hn' => ih n' (by omega)
              (Accounts.le hval (by omega)) nvl') ?_ ?_).mono ?_ (fun _ => id) (Nat.zero_le _) (le_refl 0)
          · exact fun rest ho => ho.first trivial
          · rintro bs t r ⟨p, hp, rfl, -⟩ ho
            exact ho.cons hp fun _ _ => trivial
          · rintro bs t r ⟨_, b1, b2, rfl, ⟨p, hp, rfl, rfl⟩, pairs, hbody⟩
            exact ⟨p :: pairs, hbody.cons hp⟩
        | _ => exact Accounts.throw _ (Nat.zero_le _)
    · rintro bs t code ⟨rfl, _⟩ ho
      exact ho
    · rintro bs t r ⟨_, b1, b2, rfl, ⟨rfl, _⟩, hr⟩
      exact hr

/-- What follows the start of a map. -/
def RoomyNvl (r : UInt64 × Bool) (bs t : Bytes) (v : Val) : Prop :=
  ∃ b1 nvl pairs, RoomyMap [] b1 t nvl pairs ∧ (r.2 = false → pairs.length = r.1.toNat) ∧
    v = .nvl nvl ∧ bs = b1 ++ if r.2 then [breakByte] else []

theorem mapEnd_accounts (n : Nat) (endRequired : Bool) (nvl : List (CStr × Val)) :
    Accounts h W n 0 0 (Work.quiet (cborUnpackMapEnd endRequired) >>= fun _ => pure (Val.nvl nvl))
      (cborUnpackMapEnd endRequired >>= fun _ => pure (Val.nvl nvl))
      (fun bs _ v => v = .nvl nvl ∧ bs = if endRequired then [breakByte] else []) fun _ => False := by
  refine (Accounts.quiet_bind (p := 0) (P := fun _ _ => False) (q := 0) (d := 0)
    (cborUnpackEnd_atomic n endRequired).sound (fun _ _ _ _ => Nat.zero_le _) (Nat.zero_le _)
    (fun bs t _ _ _ => Accounts.pure (Val.nvl nvl)) fun _ _ _ _ => id).mono ?_ (fun _ => id) (le_refl 0)
    (le_refl 0)
  rintro bs t v ⟨_, b1, b2, rfl, hend, rfl, rfl⟩
  rw [List.append_nil]
  exact ⟨rfl, hend⟩

/-- A map comes to what is watched behind its start. -/
def NvlOver (h : Helpers) (W : Watch) (r : UInt64 × Bool) : Bytes → Prop :=
  PairsOver h W fun k => r.2 = false → k < r.1.toNat

theorem nvlBody_accounts {n : Nat} (hval : AccountsVal h W m n) (npairs : UInt64) (endRequired : Bool) :
    Accounts h W n 0 0
      (do
        if endRequired then
          let nvl ← Work.unpackIndefPairs h m []
          Work.quiet (cborUnpackMapEnd endRequired)
          return .nvl nvl
        else
          if npairs.toNat > sizeMax then throw .ENOMEM
          let nvl ← Work.unpackDefPairs h m npairs.toNat []
          Work.quiet (cborUnpackMapEnd endRequired)
          return .nvl nvl)
      (do
        if endRequired then
          let nvl ← unpackIndefPairs m []
          cborUnpackMapEnd endRequired
          return .nvl nvl
        else
          if npairs.toNat > sizeMax then throw .ENOMEM
          let nvl ← unpackDefPairs m npairs.toNat []
          cborUnpackMapEnd endRequired
          return .nvl nvl) (RoomyNvl (npairs, endRequired)) (NvlOver h W (npairs, endRequired)) := by
  cases endRequired with
  | true =>
    refine ((unpackIndefPairs_accounts hval []).bind_end fun nvl n' _ => mapEnd_accounts n' true nvl).mono
      ?_ ?_ (le_refl 0) (le_refl 0)
    · rintro bs t v ⟨nvl, b1, b2, rfl, ⟨pairs, hbody⟩, rfl, rfl⟩
      exact ⟨b1, nvl, pairs, hbody, by simp, rfl, rfl⟩
    · rintro rest ⟨pairs, name, payload, t, hpairs, -, hname, rfl, ho⟩
      exact ⟨pairs, name, payload, t, hpairs, by simp, hname, rfl, ho⟩
  | false =>
    refine Accounts.ite (fun hc => absurd hc (by simp)) fun _ =>
      Accounts.ite (fun _ => Accounts.throw_bind _ (Nat.zero_le _) _ _) fun _ => ?_
    refine ((unpackDefPairs_accounts hval npairs.toNat []).bind_end fun nvl n' _ =>
      mapEnd_accounts n' false nvl).mono ?_ ?_ (le_refl 0) (le_refl 0)
    · rintro bs t v ⟨nvl, b1, b2, rfl, ⟨pairs, hlen, hbody⟩, rfl, rfl⟩
      exact ⟨b1, nvl, pairs, hbody, fun _ => hlen, rfl, rfl⟩
    · rintro rest ⟨pairs, name, payload, t, hpairs, hlt, hname, rfl, ho⟩
      exact ⟨pairs, name, payload, t, hpairs, fun _ => hlt, hname, rfl, ho⟩

/-- Behind the start of a map. -/
theorem NvlOver.over {bs t : Bytes} {r : UInt64 × Bool} (hstart : Start .map bs r) (ho : NvlOver h W r t) :
    Over h W (bs ++ t) := by
  obtain ⟨pairs, name, payload, t, hpairs, hlen, hname, rfl, hlt | ho⟩ := ho
  · rw [← List.append_assoc, ← List.append_assoc]
    exact .of_length hlt
  · exact .of_claims (.value pairs hstart hlen (fun p hp => (hpairs p hp).1) (fun p hp => (hpairs p hp).2) hname ho)

theorem unpackCborNvl_accounts {n : Nat} (hval : ∀ n' < n, AccountsVal h W m n') :
    Accounts h W n 1 1 (Work.unpackCborNvl h m) (unpackCborNvl m) (fun bs _ v => RoomyItem bs v)
      (Over h W) := by
  rw [Work.unpackCborNvl, unpackCborNvl]
  refine (Accounts.quiet_bind (p := 1) (q := 0) (d := 0) (cborUnpackMapStart_atomic n).sound
    (H := RoomyNvl) (P := NvlOver h W) ?_ (le_refl 1) ?_ fun bs t r => NvlOver.over).mono ?_
      (fun _ => id) (le_refl 1) (le_refl 1)
  · exact fun bs t r hstart => List.length_pos_of_ne_nil hstart.ne_nil
  · rintro bs t ⟨npairs, endRequired⟩ hstart hlen
    have hpos := List.length_pos_of_ne_nil hstart.ne_nil
    refine (Accounts.quiet_bind (p := 0) (q := 0) (d := 0) (request_sound t.length m .val)
      (H := fun _ => RoomyNvl (npairs, endRequired)) (P := fun _ => NvlOver h W (npairs, endRequired))
      (fun _ _ _ _ => Nat.zero_le _) (Nat.zero_le _) ?_ ?_).mono ?_ (fun _ => id) (le_refl 0) (le_refl 0)
    · intro bs t' granted _ hlen'
      refine Accounts.ite (fun _ => ?_) fun _ => Accounts.throw _ (Nat.zero_le _)
      exact nvlBody_accounts (hval t'.length (by omega)) npairs endRequired
    · rintro bs t granted ⟨rfl, _⟩ ho
      exact ho
    · rintro bs t v ⟨_, b1, b2, rfl, ⟨rfl, _⟩, hr⟩
      exact hr
  · rintro bs t v ⟨⟨npairs, endRequired⟩, b1, b2, rfl, hstart, b3, nvl, pairs, ⟨hpairs, rfl, rfl⟩,
      hnum, rfl, rfl⟩
    have hnames := fun p hp => (hpairs p hp).1
    have hvalues := fun p hp => (hpairs p hp).2
    rcases hstart with ⟨hr, rfl⟩ | ⟨hr, hhead⟩
    · obtain ⟨rfl, rfl⟩ := Prod.mk.inj hr
      exact .mapIndef pairs hnames hvalues (lastWins_nvSetAll _)
    · simp only at hr hhead hnum
      subst hr
      rw [← hnum rfl] at hhead
      simp only [Bool.false_eq_true, if_false, List.append_nil]
      exact .map pairs hhead hnames hvalues (lastWins_nvSetAll _)

/-! ## Values -/

variable (h W m)

theorem unpackCborVal_accounts (n : Nat) : AccountsVal h W m n := by
  induction n using Nat.strong_induction_on with
  | _ n ih =>
    unfold AccountsVal
    rw [Work.unpackCborVal, unpackCborVal]
    refine Accounts.call ?_
    refine (Accounts.quiet_bind (p := 0) (q := 1) (d := 1) (cborPeekType_sound n)
      (H := fun _ bs _ v => RoomyItem bs v) (P := fun _ => Over h W) (fun _ _ _ _ => Nat.zero_le _)
      (le_refl 1) ?_ ?_).mono ?_ (fun _ => id) (le_refl 1) (le_refl 1)
    · intro bs t type _ hlen
      have hleaf : ∀ {f : BufM Val}, (Sound t.length f fun bs _ v => RoomyItem bs v) →
          Accounts h W t.length 1 1 (Work.quiet f) f (fun bs _ v => RoomyItem bs v) (Over h W) :=
        fun hf => Accounts.quiet hf (fun bs t v hv => List.length_pos_of_ne_nil hv.ne_nil) (le_refl 1)
          (le_refl 1)
      have hless : ∀ n' < t.length, AccountsVal h W m n' := fun n' hn' => ih n' (by omega)
      cases type with
      | null =>
        refine hleaf (((cborUnpackNull_atomic t.length).sound.bind fun _ => Sound.pure Val.null).mono ?_)
        rintro bs t v ⟨_, b1, b2, rfl, rfl, rfl, rfl⟩
        exact .null
      | int =>
        refine hleaf (((cborUnpackUint_atomic t.length).sound.bind fun i =>
          valAllocInt_sound m t.length i).mono ?_)
        rintro bs t v ⟨i, b1, b2, rfl, hhead, rfl, rfl⟩
        have hitem : RoomyItem b1 (.int (.ofNat i.toNat)) := .uint hhead
        rw [UInt64.ofNat_toNat] at hitem
        rwa [List.append_nil]
      | str =>
        refine (Accounts.quiet_bind (p := 1) (q := 0) (d := 0) (cborUnpackStr_sound m t.length)
          (P := fun _ _ => False) ?_ (le_refl 1) (fun bs t s _ _ => Accounts.pure (Val.str s)) ?_).mono ?_
            (fun _ => id) (le_refl 1) (le_refl 1)
        · rintro bs t s ⟨payload, htext, -⟩
          exact List.length_pos_of_ne_nil htext.ne_nil
        · exact fun _ _ _ _ => False.elim
        · rintro bs t v ⟨_, b1, b2, rfl, ⟨payload, htext, rfl⟩, rfl, rfl⟩
          rw [List.append_nil]
          exact .text htext
      | sym => exact Accounts.throw _ (le_refl 1)
      | bool =>
        refine hleaf (((cborUnpackBool_atomic t.length).sound.bind fun b => Sound.pure (Val.bool b)).mono ?_)
        rintro bs t v ⟨b, b1, b2, rfl, rfl, rfl, rfl⟩
        cases b with
        | false => exact .false
        | true => exact .true
      | cons => exact Accounts.throw _ (le_refl 1)
      | char => exact Accounts.throw _ (le_refl 1)
      | blob => exact hleaf (Sound.throw_bind _ _)
      | array => exact unpackCborArray_accounts hless
      | nvl => exact unpackCborNvl_accounts hless
    · rintro bs t type ⟨rfl, _⟩ ho
      exact ho
    · rintro bs t v ⟨_, b1, b2, rfl, ⟨rfl, _⟩, hv⟩
      exact hv

/-- A text string takes at least one byte. -/
theorem unpackCborStr_progress {b : Buffer} (hb : b.Valid) (k : Nat) :
    Triple (unpackCborStr m) ⟨b, k⟩ fun r s => ∀ str, r = .ok str →
      ∃ bs t, b.rest = bs ++ t ∧ s.buffer = b.advance bs.length ∧ 1 ≤ bs.length := by
  refine (cborUnpackStr_sound m b.rest.length b k hb (le_refl _)).mono fun r s hs str hr => ?_
  obtain ⟨bs, t, hrest, hs, payload, htext, -⟩ := hs str hr
  exact ⟨bs, t, hrest, hs, List.length_pos_of_ne_nil htext.ne_nil⟩

/-! ## What an account says -/

variable {h W m} {b : Buffer} {k : Nat}

/-- What is watched does not happen, and the work is paid for. -/
theorem returns_of_not_claims (m : Machine) (k : Nat) (hb : b.Valid) (hlimit : b.rest.length ≤ W.limit)
    (hzero : ¬W.bad .zero) (hclaims : ¬Claims h W.here b.rest) :
    ∃ r s w, Returns (Work.unpackCborVal h m) (⟨b, k⟩, .zero) r (s, w) ∧ ¬W.bad w ∧
      w.calls ≤ b.rest.length + 1 ∧ ∀ v, r = .ok v → ∃ bs t, b.rest = bs ++ t ∧
        s.buffer = b.advance bs.length ∧ 1 ≤ bs.length ∧ w.calls ≤ bs.length := by
  obtain ⟨r, ⟨s, w⟩, hret, ha⟩ := unpackCborVal_accounts h W m b.rest.length b k .zero hb (le_refl _)
  have hok : ∀ v, r = .ok v → ∃ bs t, b.rest = bs ++ t ∧ s.buffer = b.advance bs.length ∧ 1 ≤ bs.length ∧
      w.calls ≤ bs.length := by
    intro v hv
    obtain ⟨bs, t, hrest, hs, hlen, hcalls, -⟩ := ha.ok v hv
    simp only [Work.zero] at hcalls
    exact ⟨bs, t, hrest, hs, hlen, by omega⟩
  refine ⟨r, s, w, hret, fun hw => ?_, ?_, hok⟩
  · rcases (ha.watched hw).resolve_left hzero with hlt | hc
    · omega
    · exact hclaims hc
  · cases r with
    | ok v =>
      obtain ⟨bs, t, hrest, -, -, hcalls⟩ := hok v rfl
      rw [hrest, List.length_append]
      omega
    | error e =>
      have herr := ha.error e rfl
      simp only [Work.zero] at herr
      omega

/-- With the helpers of the C library the account is one of what `unpackCborVal` does. -/
theorem unpackCborVal_returns_libc (hb : b.Valid) {r : Except Errno Val} {s : BufferState} {w : Work}
    (hret : Returns (Work.unpackCborVal .libc m) (⟨b, k⟩, .zero) r (s, w)) :
    Returns (unpackCborVal m) ⟨b, k⟩ r s := by
  have ha := (unpackCborVal_accounts .libc (Watch.blocks 0) m b.rest.length b k .zero hb (le_refl _)).post hret
  rcases ha.agrees with hg | ⟨hh, -⟩
  · exact hg
  · cases hh

end Libjeffpc.Cbor
