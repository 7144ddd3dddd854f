import Libjeffpc.Buffer.Proofs.BufferProofs

/-!
# Functions that read a buffer

What such a function accepts is a relation `G bs t a`: it consumes `bs`, leaves `t`, and returns `a`.
`Sound n f G` says that `f` terminates on every valid buffer with at most `n` bytes left, and that
whatever it accepts is in `G`; `Complete f G` says that it accepts everything that is in `G`. Both
compose along `>>=`.
-/

namespace Libjeffpc

open Lib

variable {α β : Type}

def Sound (n : Nat) (f : BufM α) (G : Bytes → Bytes → α → Prop) : Prop :=
  ∀ b k, b.Valid → b.rest.length ≤ n → Triple f ⟨b, k⟩ fun r s => ∀ a, r = .ok a →
    ∃ bs t, b.rest = bs ++ t ∧ s.buffer = b.advance bs.length ∧ G bs t a

/-- On every valid buffer where `bs` and then `t` are left, `f` consumes `bs` and returns `a`. -/
def Accepts (f : BufM α) (bs t : Bytes) (a : α) : Prop :=
  ∀ b k, b.Valid → b.rest = bs ++ t → ∃ k', Returns f ⟨b, k⟩ (.ok a) ⟨b.advance bs.length, k'⟩

def Complete (f : BufM α) (G : Bytes → Bytes → α → Prop) : Prop :=
  ∀ bs t a, G bs t a → Accepts f bs t a

/-- All or nothing: a success consumes what it accepts, an error leaves the buffer as it was. -/
def AllOrNothing (b : Buffer) (G : Bytes → Bytes → α → Prop) : Except Errno α → BufferState → Prop
  | .ok a, s => ∃ bs t, b.rest = bs ++ t ∧ s.buffer = b.advance bs.length ∧ G bs t a
  | .error _, s => s.buffer = b

/-- A sound function that does not change the buffer when it reports an error. -/
def Atomic (n : Nat) (f : BufM α) (G : Bytes → Bytes → α → Prop) : Prop :=
  ∀ b k, b.Valid → b.rest.length ≤ n → Triple f ⟨b, k⟩ (AllOrNothing b G)

/-- One relation after the other. -/
def Seq (F : Bytes → Bytes → α → Prop) (G : α → Bytes → Bytes → β → Prop) (bs t : Bytes) (c : β) :
    Prop :=
  ∃ a b1 b2, bs = b1 ++ b2 ∧ F b1 (b2 ++ t) a ∧ G a b2 t c

/-- Nothing is consumed. -/
def Nothing (P : Bytes → α → Prop) (bs t : Bytes) (a : α) : Prop := bs = [] ∧ P t a

theorem rest_advance_append {b : Buffer} {bs t : Bytes} (h : b.rest = bs ++ t) :
    (b.advance bs.length).rest = t := by
  rw [Buffer.rest_advance, h, List.drop_left]

theorem Buffer.Valid.advance_append {b : Buffer} {bs t : Bytes} (hb : b.Valid)
    (h : b.rest = bs ++ t) : (b.advance bs.length).Valid := by
  refine hb.advance ?_
  rw [h, List.length_append]
  omega

theorem Atomic.sound {n : Nat} {f : BufM α} {G : Bytes → Bytes → α → Prop} (h : Atomic n f G) :
    Sound n f G := by
  intro b k hb hn
  refine (h b k hb hn).mono fun r s hs a ha => ?_
  rw [ha] at hs
  exact hs

theorem Atomic.mono {n : Nat} {f : BufM α} {F G : Bytes → Bytes → α → Prop} (h : Atomic n f F)
    (hF : ∀ bs t a, F bs t a → G bs t a) : Atomic n f G := by
  intro b k hb hn
  refine (h b k hb hn).mono fun r s hs => ?_
  cases r with
  | error e => exact hs
  | ok a =>
    obtain ⟨bs, t, hr, hs, ha⟩ := hs
    exact ⟨bs, t, hr, hs, hF bs t a ha⟩

namespace Sound

variable {n : Nat} {f : BufM α} {g : α → BufM β} {F F' : Bytes → Bytes → α → Prop}
  {G : α → Bytes → Bytes → β → Prop}

theorem mono (h : Sound n f F) (hF : ∀ bs t a, F bs t a → F' bs t a) : Sound n f F' := by
  intro b k hb hn
  refine (h b k hb hn).mono fun r s hs a ha => ?_
  obtain ⟨bs, t, hr, hs, hF'⟩ := hs a ha
  exact ⟨bs, t, hr, hs, hF bs t a hF'⟩

theorem le {n' : Nat} (h : Sound n f F) (hn : n' ≤ n) : Sound n' f F :=
  fun b k hb hb' => h b k hb (hb'.trans hn)

theorem pure (a : α) : Sound n (Pure.pure a) (Nothing fun _ c => c = a) := by
  intro b k hb hn
  refine Triple.pure fun c hc => ⟨[], b.rest, rfl, rfl, rfl, ?_⟩
  exact (Except.ok.inj hc).symm

theorem throw (e : Errno) : Sound n (MonadExcept.throw e : BufM α) F := by
  intro b k hb hn
  exact Triple.throw fun a ha => by cases ha

/-- What follows an error is not run. -/
theorem throw_bind (e : Errno) (g : β → BufM α) :
    Sound n (MonadExcept.throw e >>= g : BufM α) F := by
  intro b k hb hn
  exact Triple.of_returns (Returns.throw e _).bind_error fun a ha => by cases ha

/-- The second function starts with what the first one leaves. -/
theorem bind_rest (hf : Sound n f F)
    (hg : ∀ bs t a, F bs t a → bs.length + t.length ≤ n → Sound t.length (g a) (G a)) :
    Sound n (f >>= g) (Seq F G) := by
  intro b k hb hn
  refine Triple.bind (hf b k hb hn) ?_ ?_
  · intro a s hs
    obtain ⟨b1, t1, hr1, hs1, hF⟩ := hs a rfl
    obtain ⟨buf, k'⟩ := s
    cases hs1
    have hrest := rest_advance_append hr1
    have hlen : b1.length + t1.length ≤ n := by
      rw [← List.length_append, ← hr1]
      exact hn
    refine (hg b1 t1 a hF hlen (b.advance b1.length) k' (hb.advance_append hr1)
      (by rw [hrest])).mono ?_
    intro r s hs c hc
    obtain ⟨b2, t2, hr2, hs2, hG⟩ := hs c hc
    rw [hrest] at hr2
    refine ⟨b1 ++ b2, t2, by rw [hr1, hr2, List.append_assoc], ?_, a, b1, b2, rfl, hr2 ▸ hF, hG⟩
    rw [hs2, Buffer.advance_advance, List.length_append]
  · intro e s _ a ha
    cases ha

theorem bind_of (hf : Sound n f F) (hg : ∀ bs t a, F bs t a → Sound n (g a) (G a)) :
    Sound n (f >>= g) (Seq F G) :=
  hf.bind_rest fun bs t a ha h => (hg bs t a ha).le (by omega)

theorem bind (hf : Sound n f F) (hg : ∀ a, Sound n (g a) (G a)) : Sound n (f >>= g) (Seq F G) :=
  hf.bind_of fun _ _ a _ => hg a

theorem ite {c : Prop} [Decidable c] {f g : BufM α} (hf : c → Sound n f F) (hg : ¬ c → Sound n g F) :
    Sound n (if c then f else g) F := by
  split
  · exact hf ‹_›
  · exact hg ‹_›

end Sound

namespace Accepts

variable {f : BufM α} {g : α → BufM β} {bs t : Bytes} {a : α}

theorem pure (a : α) (t : Bytes) : Accepts (Pure.pure a) [] t a :=
  fun _ k _ _ => ⟨k, Returns.pure _ _⟩

theorem bind {bs' : Bytes} {c : β} (hf : Accepts f bs (bs' ++ t) a) (hg : Accepts (g a) bs' t c) :
    Accepts (f >>= g) (bs ++ bs') t c := by
  intro b k hb hr
  rw [List.append_assoc] at hr
  obtain ⟨k1, h1⟩ := hf b k hb hr
  obtain ⟨k2, h2⟩ := hg (b.advance bs.length) k1 (hb.advance_append hr) (rest_advance_append hr)
  refine ⟨k2, h1.bind ?_⟩
  rw [Buffer.advance_advance, ← List.length_append] at h2
  exact h2

/-- The first function consumes nothing. -/
theorem bind_nil {c : β} (hf : Accepts f [] (bs ++ t) a) (hg : Accepts (g a) bs t c) :
    Accepts (f >>= g) bs t c := hf.bind hg

/-- The second function consumes nothing. -/
theorem bind_end {c : β} (hf : Accepts f bs t a) (hg : Accepts (g a) [] t c) :
    Accepts (f >>= g) bs t c := by
  have h : Accepts (f >>= g) (bs ++ []) t c := Accepts.bind hf hg
  rwa [List.append_nil] at h

end Accepts

namespace Complete

variable {f : BufM α} {g : α → BufM β} {F F' : Bytes → Bytes → α → Prop}
  {G : α → Bytes → Bytes → β → Prop}

theorem mono (h : Complete f F) (hF : ∀ bs t a, F' bs t a → F bs t a) : Complete f F' :=
  fun bs t a ha => h bs t a (hF bs t a ha)

theorem pure (a : α) : Complete (Pure.pure a) (Nothing fun _ c => c = a) := by
  rintro bs t c ⟨rfl, rfl⟩
  exact Accepts.pure c t

theorem bind (hf : Complete f F) (hg : ∀ a, Complete (g a) (G a)) :
    Complete (f >>= g) (Seq F G) := by
  rintro bs t c ⟨a, b1, b2, rfl, hF, hG⟩
  exact (hf b1 (b2 ++ t) a hF).bind (hg a b2 t c hG)

end Complete

/-! ## Readers that are used by others -/

theorem request_sound (n : Nat) (m : Machine) (r : Request) :
    Sound n (request m r) (Nothing fun _ granted => granted = true → ∀ len, r = .bytes len →
      len ≤ ssizeMax) := by
  intro b k hb _
  refine Triple.of_returns (returns_request m r _) fun a ha => ?_
  cases ha
  refine ⟨[], b.rest, rfl, rfl, rfl, ?_⟩
  rintro hg len rfl
  exact m.grants_le k len hg

theorem request_complete {m : Machine} {r : Request} (h : ∀ k, m.grants k r = true) :
    Complete (request m r) (Nothing fun _ granted => granted = true) := by
  rintro bs t a ⟨rfl, rfl⟩ b k hb hr
  have hreq := returns_request m r ⟨b, k⟩
  rw [h] at hreq
  exact ⟨k + 1, hreq⟩

theorem bufferRead_sound (n : Nat) {len : Nat} (hlen : len ≤ ssizeMax) :
    Sound n (bufferRead len) fun bs _ out => out = bs := by
  intro b k hb _
  refine Triple.of_returns (bufferRead_rest hb k hlen) fun a ha => ?_
  cases ha
  exact ⟨b.rest.take len, b.rest.drop len, (List.take_append_drop _ _).symm, rfl, rfl⟩

end Libjeffpc
