import Libjeffpc.Cbor.Proofs.HeadProofs

/-!
# The functions of `cbor.h`

What each of them accepts, and that it leaves the buffer alone when it fails: all work is done on a
static buffer over the caller's one.
-/

namespace Libjeffpc.Cbor

open Lib

variable {α : Type} {n : Nat} {f : BufM α} {G : Bytes → Bytes → α → Prop}

/-! ## Working on a static buffer -/

theorem onTmp_returns {b : Buffer} {k : Nat} {r : Except Errno α} {s : BufferState}
    (h : Returns f ⟨b.view, k⟩ r s) :
    Returns (onTmp f) ⟨b, k⟩ (.ok (r, s.buffer)) ⟨b, s.allocs⟩ := by
  have hrun : StateT.run (ExceptT.run f) ⟨b.view, k⟩ = pure (r, s) := h
  refine (Returns.get _).bind ?_
  simp only [Buffer.bufferInitStatic_view]
  refine (Returns.pure b.view _).bind ?_
  simp only [hrun]
  exact (Returns.pure (r, s) _).bind ((Returns.set _ _).bind (Returns.pure _ _))

theorem syncBuffers_returns {b tmp : Buffer} (hb : b.Valid) (k : Nat) {n : Nat}
    (htmp : tmp.bufferOffset = n) (hn : n ≤ b.rest.length) :
    Returns (syncBuffers tmp) ⟨b, k⟩ (.ok ()) ⟨b.advance n, k⟩ := by
  have hle : n ≤ ssizeMax := hn.trans hb.rest_le_ssizeMax
  unfold syncBuffers
  rw [htmp, toOffT_of_le hle]
  exact (bufferSeek_cur hb k hn).bind (Returns.pure _ _)

theorem withTmp_atomic (h : Sound n f G) : Atomic n (withTmp f) G := by
  intro b k hb hn
  obtain ⟨r, s, hret, hspec⟩ := h b.view k hb.view (by rw [hb.rest_view]; exact hn)
  have htmp := onTmp_returns hret
  cases r with
  | error e => exact Triple.of_returns (htmp.bind (returns_liftError e _).bind_error) rfl
  | ok a =>
    obtain ⟨bs, t, hr, hs, hG⟩ := hspec a rfl
    rw [hb.rest_view] at hr
    have hle : bs.length ≤ b.rest.length := by
      rw [hr, List.length_append]
      omega
    have hoff : s.buffer.bufferOffset = bs.length := by
      rw [hs]
      exact Nat.zero_add _
    refine Triple.of_returns (htmp.bind ((returns_liftExcept a _).bind
      ((syncBuffers_returns hb s.allocs hoff hle).bind (Returns.pure a _)))) ?_
    exact ⟨bs, t, hr, rfl, hG⟩

theorem withTmp_complete (h : Complete f G) : Complete (withTmp f) G := by
  intro bs t a hG b k hb hr
  obtain ⟨k', hret⟩ := h bs t a hG b.view k hb.view (by rw [hb.rest_view]; exact hr)
  have hle : bs.length ≤ b.rest.length := by
    rw [hr, List.length_append]
    omega
  have hoff : (b.view.advance bs.length).bufferOffset = bs.length := Nat.zero_add _
  exact ⟨k', (onTmp_returns hret).bind ((returns_liftExcept a _).bind
    ((syncBuffers_returns hb k' hoff hle).bind (Returns.pure a _)))⟩

/-! ## Simple values -/

/-- The additional information of the items that `unpack_cbor_float` knows. -/
def IsFloat (extra : UInt8) : Prop :=
  extra = addlFloatFalse ∨ extra = addlFloatTrue ∨ extra = addlFloatNull ∨ extra = addlFloatBreak

theorem unpackCborFloat_sound (n : Nat) :
    Sound n unpackCborFloat fun bs _ extra => bs = [typeByte .float extra.toNat] := by
  refine ((readCborType_sound n).bind (G := fun r bs t extra => bs = [] ∧ .float = r.1 ∧ extra = r.2)
    fun r => ?_).mono ?_
  · refine Sound.ite (fun _ => Sound.throw_bind _ _) fun hf => Sound.ite (fun he => ?_) fun _ => ?_
    · refine (Sound.pure r.2).mono ?_
      rintro bs t extra ⟨rfl, rfl⟩
      exact ⟨rfl, by simpa [eq_comm] using hf, rfl⟩
    · exact Sound.throw _
  · rintro bs t extra ⟨⟨type, _⟩, b1, b2, rfl, ⟨rfl, _⟩, rfl, rfl, rfl⟩
    rfl

theorem unpackCborFloat_complete :
    Complete unpackCborFloat fun bs _ extra => bs = [typeByte .float extra.toNat] ∧ IsFloat extra := by
  refine (readCborType_complete.bind
    (G := fun r bs t extra => bs = [] ∧ r.1 = .float ∧ extra = r.2 ∧ IsFloat extra)
    fun r => ?_).mono ?_
  · rintro bs t extra ⟨rfl, hfloat, rfl, he⟩
    have hcond : r.2 = addlFloatFalse ∨ r.2 = addlFloatTrue ∨ r.2 = addlFloatNull
      ∨ r.2 = addlFloatBreak := he
    simp only [hfloat, ne_eq, not_true_eq_false, if_false, hcond, if_true]
    exact Accepts.pure _ _
  · rintro bs t extra ⟨rfl, he⟩
    have hlt : extra.toNat < 32 := by
      rcases he with rfl | rfl | rfl | rfl <;> decide
    exact ⟨(.float, extra), [_], [], rfl, ⟨rfl, hlt⟩, rfl, rfl, rfl, he⟩

theorem cborUnpackBool_atomic (n : Nat) :
    Atomic n cborUnpackBool fun bs _ v => bs = [typeByte .float (if v then 21 else 20)] := by
  refine withTmp_atomic (((unpackCborFloat_sound n).bind (G := fun extra bs t v => bs = [] ∧
    extra = if v then addlFloatTrue else addlFloatFalse) fun extra => ?_).mono ?_)
  · refine Sound.ite (fun h => ?_) fun _ => Sound.ite (fun h => ?_) fun _ => Sound.throw _
    · exact (Sound.pure false).mono fun bs t v hv => ⟨hv.1, by rw [hv.2, h]; rfl⟩
    · exact (Sound.pure true).mono fun bs t v hv => ⟨hv.1, by rw [hv.2, h]; rfl⟩
  · rintro bs t v ⟨extra, b1, b2, rfl, rfl, rfl, rfl⟩
    cases v <;> rfl

theorem cborUnpackBool_complete :
    Complete cborUnpackBool fun bs _ v => bs = [typeByte .float (if v then 21 else 20)] := by
  refine withTmp_complete ((unpackCborFloat_complete.bind (G := fun extra bs t v => bs = [] ∧
    extra = if v then addlFloatTrue else addlFloatFalse) fun extra => ?_).mono ?_)
  · rintro bs t v ⟨rfl, rfl⟩
    cases v with
    | false => exact Accepts.pure _ _
    | true => exact Accepts.pure _ _
  · rintro bs t v rfl
    cases v with
    | false => exact ⟨addlFloatFalse, [_], [], rfl, ⟨rfl, .inl rfl⟩, rfl, rfl⟩
    | true => exact ⟨addlFloatTrue, [_], [], rfl, ⟨rfl, .inr (.inl rfl)⟩, rfl, rfl⟩

/-- `cbor_unpack_null` and `cbor_unpack_break`, up to the value they expect. -/
theorem expectFloat_atomic (n : Nat) (expected : UInt8) :
    Atomic n (withTmp do
      let extra ← unpackCborFloat
      if extra ≠ expected then throw .EILSEQ) fun bs _ _ => bs = [typeByte .float expected.toNat] := by
  refine withTmp_atomic (((unpackCborFloat_sound n).bind (G := fun extra bs t v => bs = [] ∧
    extra = expected) fun extra => ?_).mono ?_)
  · refine Sound.ite (fun _ => Sound.throw _) fun h => ?_
    exact (Sound.pure ()).mono fun bs t v hv => ⟨hv.1, by simpa using h⟩
  · rintro bs t v ⟨extra, b1, b2, rfl, rfl, rfl, rfl⟩
    rfl

theorem expectFloat_complete {expected : UInt8} (he : IsFloat expected) :
    Complete (withTmp do
      let extra ← unpackCborFloat
      if extra ≠ expected then throw .EILSEQ) fun bs _ _ => bs = [typeByte .float expected.toNat] := by
  refine withTmp_complete ((unpackCborFloat_complete.bind (G := fun extra bs t v => bs = [] ∧
    extra = expected) fun extra => ?_).mono ?_)
  · rintro bs t v ⟨rfl, rfl⟩
    simp only [ne_eq, not_true_eq_false, if_false]
    exact Accepts.pure _ _
  · rintro bs t v rfl
    exact ⟨expected, [_], [], rfl, ⟨rfl, he⟩, rfl, rfl⟩

theorem cborUnpackNull_atomic (n : Nat) :
    Atomic n cborUnpackNull fun bs _ _ => bs = [typeByte .float 22] :=
  expectFloat_atomic n addlFloatNull

theorem cborUnpackNull_complete : Complete cborUnpackNull fun bs _ _ => bs = [typeByte .float 22] :=
  expectFloat_complete (.inr (.inr (.inl rfl)))

theorem cborUnpackBreak_atomic (n : Nat) :
    Atomic n cborUnpackBreak fun bs _ _ => bs = [breakByte] :=
  expectFloat_atomic n addlFloatBreak

theorem cborUnpackBreak_complete : Complete cborUnpackBreak fun bs _ _ => bs = [breakByte] :=
  expectFloat_complete (.inr (.inr (.inr rfl)))

/-! ## Integers -/

theorem cborUnpackUint_atomic (n : Nat) :
    Atomic n cborUnpackUint fun bs _ v => Head .uint bs v.toNat :=
  withTmp_atomic (unpackCborInt_sound n .uint)

theorem cborUnpackUint_complete : Complete cborUnpackUint fun bs _ v => Head .uint bs v.toNat :=
  withTmp_complete (unpackCborInt_complete .uint)

theorem cborUnpackNint_atomic (n : Nat) :
    Atomic n cborUnpackNint fun bs _ v => Head .nint bs v.toNat :=
  withTmp_atomic (unpackCborInt_sound n .nint)

/-- One of the two attempts of `cbor_unpack_int`: what follows when it fails, and when it succeeds. -/
theorem onTmp_bind {β : Type} {g : Except Errno α × Buffer → BufM β} {Q : Except Errno β → BufferState → Prop}
    {b : Buffer} {k : Nat} (hf : Sound n f G) (hb : b.Valid) (hn : b.rest.length ≤ n)
    (herr : ∀ e tmp k', Triple (g (.error e, tmp)) ⟨b, k'⟩ Q)
    (hok : ∀ a tmp k' bs t, b.rest = bs ++ t → tmp.bufferOffset = bs.length → G bs t a →
      Triple (g (.ok a, tmp)) ⟨b, k'⟩ Q) : Triple (onTmp f >>= g) ⟨b, k⟩ Q := by
  obtain ⟨r, s, hret, hspec⟩ := hf b.view k hb.view (by rw [hb.rest_view]; exact hn)
  obtain ⟨r', s', hg⟩ : Triple (g (r, s.buffer)) ⟨b, s.allocs⟩ Q := by
    cases r with
    | error e => exact herr e s.buffer s.allocs
    | ok a =>
      obtain ⟨bs, t, hr, hs, hG⟩ := hspec a rfl
      rw [hb.rest_view] at hr
      refine hok a s.buffer s.allocs bs t hr ?_ hG
      rw [hs]
      exact Nat.zero_add _
  exact ⟨r', s', (onTmp_returns hret).bind hg.1, hg.2⟩

/-- An encoded integer. -/
def IntItem (bs _t : Bytes) (_ : Int64) : Prop := ∃ v, Head .uint bs v ∨ Head .nint bs v

theorem cborUnpackInt_atomic (n : Nat) : Atomic n cborUnpackInt IntItem := by
  intro b k hb hn
  have hsync : ∀ {bs t : Bytes} {tmp : Buffer} {k' : Nat} (i : Int64), b.rest = bs ++ t →
      tmp.bufferOffset = bs.length → IntItem bs t i →
      Triple (syncBuffers tmp >>= fun _ => pure i) ⟨b, k'⟩ (AllOrNothing b IntItem) := by
    intro bs t tmp k' i hr htmp hv
    have hle : bs.length ≤ b.rest.length := by
      rw [hr, List.length_append]
      omega
    exact Triple.of_returns ((syncBuffers_returns hb k' htmp hle).bind (Returns.pure i _))
      ⟨bs, t, hr, rfl, hv⟩
  refine onTmp_bind (cborUnpackUint_atomic n).sound hb hn ?_ ?_
  · intro e tmp k'
    refine onTmp_bind (cborUnpackNint_atomic n).sound hb hn ?_ ?_
    · exact fun e tmp k' => Triple.throw rfl
    · intro v tmp k' bs t hr htmp hv
      simp only
      split_ifs
      · exact Triple.of_returns (Returns.throw _ _).bind_error rfl
      · exact hsync _ hr htmp ⟨_, .inr hv⟩
  · intro v tmp k' bs t hr htmp hv
    simp only
    split_ifs
    · exact Triple.of_returns (Returns.throw _ _).bind_error rfl
    · exact hsync _ hr htmp ⟨_, .inl hv⟩

/-! ## Strings -/

variable (m : Machine)

theorem cborUnpackCstrLen_atomic (n : Nat) :
    Atomic n (cborUnpackCstrLen m) fun bs _ payload => Text bs payload := by
  refine withTmp_atomic (((unpackCborInt_sound n .text).bind
    (G := fun len bs t out => out = bs ∧ out.length = len.toNat) fun len => ?_).mono ?_)
  · refine Sound.ite (fun _ => Sound.throw_bind _ _) fun _ => ?_
    refine ((request_sound n m (.bytes (len.toNat + 1))).bind_of (G := fun granted bs t out =>
      out = bs ∧ out.length = len.toNat) ?_).mono ?_
    · rintro _ _ granted ⟨_, hgrant⟩
      cases granted with
      | false => exact Sound.throw _
      | true =>
        have hle : len.toNat ≤ ssizeMax := by
          have := hgrant rfl _ rfl
          omega
        refine ((bufferRead_sound n hle).bind (G := fun out bs t r => bs = [] ∧ r = out ∧
          out.length = len.toNat) fun out => ?_).mono ?_
        · refine Sound.ite (fun _ => Sound.throw_bind _ _) fun hlen => ?_
          exact (Sound.pure out).mono fun bs t r hr => ⟨hr.1, hr.2, by simpa using hlen⟩
        · rintro bs t r ⟨out, b1, b2, rfl, rfl, rfl, rfl, hlen⟩
          exact ⟨(List.append_nil _).symm, hlen⟩
    · rintro bs t out ⟨granted, b1, b2, rfl, ⟨rfl, _⟩, hout⟩
      exact hout
  · rintro bs t payload ⟨len, b1, b2, rfl, hhead, rfl, hlen⟩
    rw [← hlen] at hhead
    exact .mk hhead

/-- A text string: its memory is asked for, and nothing else. -/
theorem cborUnpackCstrLen_text {b : Buffer} (hb : b.Valid) (k : Nat) {bs t payload : Bytes}
    (hr : b.rest = bs ++ t) (h : Text bs payload) :
    (m.grants k (.bytes (payload.length + 1)) = true →
      Returns (cborUnpackCstrLen m) ⟨b, k⟩ (.ok payload) ⟨b.advance bs.length, k + 1⟩) ∧
    (m.grants k (.bytes (payload.length + 1)) = false →
      Returns (cborUnpackCstrLen m) ⟨b, k⟩ (.error .ENOMEM) ⟨b, k + 1⟩) := by
  obtain ⟨hhead⟩ := h
  rename_i hd
  have hle : (hd ++ payload).length ≤ b.rest.length := by
    rw [hr]
    exact (List.prefix_append _ _).length_le
  have hlen : hd.length + payload.length ≤ b.rest.length := by rwa [List.length_append] at hle
  have hrest := hb.rest_le_ssizeMax
  have hnat := hhead.ofNat
  have hsize : ¬ (UInt64.ofNat payload.length).toNat ≥ sizeMax := by
    rw [hnat]
    unfold ssizeMax at hrest
    unfold sizeMax
    omega
  have hbv := hb.view
  have hrv : b.view.rest = hd ++ (payload ++ t) := by
    rw [hb.rest_view, hr, List.append_assoc]
  have h1 := unpackCborInt_head hbv k hrv (v := .ofNat payload.length) (by rwa [hnat])
  have hreq := returns_request m (.bytes (payload.length + 1)) ⟨b.view.advance hd.length, k⟩
  constructor
  · intro hgrant
    have hread := bufferRead_rest (hbv.advance_append hrv) (k + 1)
      (show payload.length ≤ ssizeMax by omega)
    rw [rest_advance_append hrv, List.take_left, Buffer.advance_advance, ← List.length_append] at hread
    rw [hgrant] at hreq
    refine (onTmp_returns (s := ⟨b.view.advance (hd ++ payload).length, k + 1⟩)
      (h1.bind ?_)).bind ((returns_liftExcept payload _).bind
      ((syncBuffers_returns hb (k + 1) (Nat.zero_add _) hle).bind (Returns.pure payload _)))
    rw [if_neg hsize, hnat]
    refine hreq.bind (hread.bind ?_)
    rw [if_neg (by simp)]
    exact Returns.pure _ _
  · intro hgrant
    rw [hgrant] at hreq
    refine (onTmp_returns (s := ⟨b.view.advance hd.length, k + 1⟩) (h1.bind ?_)).bind
      (returns_liftError .ENOMEM _).bind_error
    rw [if_neg hsize, hnat]
    exact hreq.bind (Returns.throw _ _)

theorem cborUnpackCstrLen_complete (hm : m.Ample) :
    Complete (cborUnpackCstrLen m) fun bs _ payload => Text bs payload := by
  rintro bs t payload h b k hb hr
  have hlen : payload.length + 1 ≤ ssizeMax := by
    have hrest := hb.rest_le_ssizeMax
    obtain ⟨hhead⟩ := h
    have hpos := List.length_pos_of_ne_nil hhead.ne_nil
    rw [hr, List.length_append, List.length_append] at hrest
    omega
  exact ⟨k + 1, (cborUnpackCstrLen_text m hb k hr h).1 (hm.bytes k _ hlen)⟩

/-- An object of one of the caches, or an error. -/
theorem allocated_sound (n : Nat) (r : Request) (a : α) :
    Sound n (do if ← request m r then return a else throw .ENOMEM)
      (Nothing fun _ v => v = a) := by
  refine ((request_sound n m r).bind (G := fun _ => Nothing fun _ v => v = a) fun granted => ?_).mono ?_
  · exact Sound.ite (fun _ => Sound.pure a) fun _ => Sound.throw _
  · rintro bs t v ⟨granted, b1, b2, rfl, ⟨rfl, _⟩, rfl, hv⟩
    exact ⟨rfl, hv⟩

theorem allocated_complete {m : Machine} {r : Request} (h : ∀ k, m.grants k r = true) (a : α) :
    Complete (do if ← request m r then return a else throw .ENOMEM) (Nothing fun _ v => v = a) := by
  refine ((request_complete h).bind (G := fun granted bs t v => granted = true ∧ bs = [] ∧ v = a)
    fun granted => ?_).mono ?_
  · rintro bs t v ⟨rfl, rfl, rfl⟩
    exact Accepts.pure _ _
  · rintro bs t v ⟨rfl, hv⟩
    exact ⟨true, [], [], rfl, ⟨rfl, rfl⟩, rfl, rfl, hv⟩

theorem strAlloc_sound (n : Nat) (s : Bytes) :
    Sound n (strAlloc m s) (Nothing fun _ r => r = cstr s) :=
  Sound.ite (fun _ => Sound.pure _) fun _ => allocated_sound m n .val (cstr s)

theorem strAlloc_complete {m : Machine} (hm : m.Ample) (s : Bytes) :
    Complete (strAlloc m s) (Nothing fun _ r => r = cstr s) := by
  unfold strAlloc
  split
  · exact Complete.pure _
  · exact allocated_complete hm.val (cstr s)

/-- A text string and what is seen of it. -/
def StrItem (bs _t : Bytes) (s : CStr) : Prop := ∃ payload, Text bs payload ∧ s = cstr payload

theorem cborUnpackStr_sound (n : Nat) : Sound n (cborUnpackStr m) StrItem := by
  refine ((cborUnpackCstrLen_atomic m n).sound.bind fun s => strAlloc_sound m n s).mono ?_
  rintro bs t s ⟨payload, b1, b2, rfl, htext, rfl, hs⟩
  rw [List.append_nil]
  exact ⟨payload, htext, hs⟩

theorem cborUnpackStr_complete {m : Machine} (hm : m.Ample) : Complete (cborUnpackStr m) StrItem := by
  refine ((cborUnpackCstrLen_complete m hm).bind fun s => strAlloc_complete hm s).mono ?_
  rintro bs t s ⟨payload, htext, hs⟩
  exact ⟨payload, bs, [], (List.append_nil bs).symm, htext, rfl, hs⟩

/-! ## Starts and ends of arrays and maps -/

theorem unpackCborArraymapStart_sound (n : Nat) (type : MajorType) :
    Sound n (unpackCborArraymapStart type 31) fun bs _ r => Start type bs r := by
  refine ((readCborType_sound n).bind (G := fun r bs t v => r.1 = type ∧
    ((r.2 = 31 ∧ bs = [] ∧ v = (0, true)) ∨ (v.2 = false ∧ Addl r.2 bs t v.1))) fun r => ?_).mono ?_
  · refine Sound.ite (fun _ => Sound.throw_bind _ _) fun ht => Sound.ite (fun he => ?_) fun _ => ?_
    · exact (Sound.pure (0, true)).mono fun bs t v hv => ⟨by simpa using ht, .inl ⟨he, hv⟩⟩
    · refine ((getAddlBytes_sound n r.2).bind fun a => Sound.pure (a, false)).mono ?_
      rintro bs t v ⟨a, b1, b2, rfl, ha, rfl, rfl⟩
      rw [List.append_nil]
      exact ⟨by simpa using ht, .inr ⟨rfl, ha⟩⟩
  · rintro bs t v ⟨⟨_, extra⟩, b1, b2, rfl, ⟨rfl, hlt⟩, rfl, ⟨rfl, rfl, rfl⟩ | ⟨hv, ha⟩⟩
    · exact .inl ⟨rfl, rfl⟩
    · exact .inr ⟨hv, head_iff.mpr ⟨extra, b2, hlt, rfl, ha⟩⟩

/-- The additional information of indefinite items is not the one of an argument. -/
theorem Addl.ne_indef {extra : UInt8} {bs t : Bytes} {v : UInt64} (h : Addl extra bs t v) :
    extra ≠ 31 := by
  rintro rfl
  obtain ⟨size, hsize, _⟩ := h
  have herr : addlSize 31 = .error .EINVAL := rfl
  rw [herr] at hsize
  cases hsize

theorem unpackCborArraymapStart_complete (type : MajorType) :
    Complete (unpackCborArraymapStart type 31) fun bs _ r => Start type bs r := by
  refine (readCborType_complete.bind (G := fun r bs t v => r.1 = type ∧
    ((r.2 = 31 ∧ bs = [] ∧ v = (0, true)) ∨ (v.2 = false ∧ Addl r.2 bs t v.1))) fun r => ?_).mono ?_
  · rintro bs t ⟨v, indef⟩ ⟨htype, ⟨he, rfl, hv⟩ | ⟨hv, ha⟩⟩
    · simp only [htype, he, ne_eq, not_true_eq_false, if_false, if_true, hv]
      exact Accepts.pure _ _
    · simp only at hv ha
      simp only [htype, ha.ne_indef, ne_eq, not_true_eq_false, if_false, hv]
      exact (getAddlBytes_complete r.2 bs t v ha).bind_end (Accepts.pure _ _)
  · rintro bs t ⟨v, indef⟩ (⟨hv, rfl⟩ | ⟨hv, hhead⟩)
    · exact ⟨(type, 31), [_], [], rfl, ⟨rfl, by simp⟩, rfl, .inl ⟨rfl, rfl, hv⟩⟩
    · obtain ⟨extra, arg, hlt, rfl, ha⟩ := head_iff.mp hhead
      exact ⟨(type, extra), [_], arg, rfl, ⟨rfl, hlt⟩, rfl, .inr ⟨hv, ha⟩⟩

theorem cborUnpackArrayStart_atomic (n : Nat) : Atomic n cborUnpackArrayStart fun bs _ r => Start .array bs r :=
  withTmp_atomic (unpackCborArraymapStart_sound n .array)

theorem cborUnpackArrayStart_complete : Complete cborUnpackArrayStart fun bs _ r => Start .array bs r :=
  withTmp_complete (unpackCborArraymapStart_complete .array)

theorem cborUnpackMapStart_atomic (n : Nat) : Atomic n cborUnpackMapStart fun bs _ r => Start .map bs r :=
  withTmp_atomic (unpackCborArraymapStart_sound n .map)

theorem cborUnpackMapStart_complete : Complete cborUnpackMapStart fun bs _ r => Start .map bs r :=
  withTmp_complete (unpackCborArraymapStart_complete .map)

/-- The last byte of an array or a map, if it has one. -/
def End (endRequired : Bool) (bs _t : Bytes) (_ : Unit) : Prop :=
  bs = if endRequired then [breakByte] else []

/-- `cbor_unpack_array_end` and `cbor_unpack_map_end`. -/
theorem cborUnpackEnd_atomic (n : Nat) (endRequired : Bool) :
    Atomic n (cborUnpackArrayEnd endRequired) (End endRequired) := by
  cases endRequired with
  | false =>
    intro b k hb _
    exact Triple.pure ⟨[], b.rest, rfl, rfl, rfl⟩
  | true => exact cborUnpackBreak_atomic n

theorem cborUnpackEnd_complete (endRequired : Bool) :
    Complete (cborUnpackArrayEnd endRequired) (End endRequired) := by
  cases endRequired with
  | false =>
    rintro bs t v rfl
    exact Accepts.pure _ _
  | true => exact cborUnpackBreak_complete

end Libjeffpc.Cbor
