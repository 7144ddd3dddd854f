import Libjeffpc.Cbor.Proofs.CborProofs

/-!
# What becomes of the bytes of a text string

The bytes are read with their length, and `str_alloc` looks for the length again: what follows a NUL is
lost.
-/

namespace Libjeffpc.Cbor

open Lib

/-! ## Bytes before the first NUL -/

theorem cstr_eq_self_iff {s : Bytes} : (cstr s).1 = s ↔ 0 ∉ s := by
  constructor
  · intro h
    rw [← h]
    exact (cstr s).2
  · intro h
    exact congrArg Subtype.val (cstr_val ⟨s, h⟩)

/-! ## The text string at the offset -/

theorem TextAt.unique {b : Buffer} (hb : b.Valid) {p p' : Bytes} (h : TextAt b p) (h' : TextAt b p') :
    p = p' := by
  obtain ⟨bs, t, hr, htext⟩ := h
  obtain ⟨bs', t', hr', htext'⟩ := h'
  obtain ⟨k, hret⟩ := cborUnpackCstrLen_complete .plenty Machine.plenty_ample bs t p htext b 0 hb hr
  obtain ⟨k', hret'⟩ := cborUnpackCstrLen_complete .plenty Machine.plenty_ample bs' t' p' htext' b 0 hb hr'
  exact Except.ok.inj (hret.unique hret').1

theorem cborUnpackStr_ok {m : Machine} {b : Buffer} (hb : b.Valid) {k : Nat} {payload : Bytes} {s : CStr}
    {st : BufferState} (h : TextAt b payload) (hret : Returns (cborUnpackStr m) ⟨b, k⟩ (.ok s) st) :
    s = cstr payload := by
  obtain ⟨bs, t, hr, _, payload', htext, hs⟩ := (cborUnpackStr_sound m _ b k hb le_rfl).post hret s rfl
  rw [hs, h.unique hb ⟨bs, t, hr, htext⟩]

theorem cborUnpackStr_succeeds {b : Buffer} (hb : b.Valid) (k : Nat) {payload : Bytes}
    (h : TextAt b payload) :
    ∃ st, Returns (cborUnpackStr .plenty) ⟨b, k⟩ (.ok (cstr payload)) st := by
  obtain ⟨bs, t, hr, htext⟩ := h
  obtain ⟨k', hret⟩ := cborUnpackStr_complete Machine.plenty_ample bs t _ ⟨payload, htext, rfl⟩ b k hb hr
  exact ⟨_, hret⟩

/-- An item that starts where a text string starts is a text string. -/
theorem Item.str_of_textAt {room : Nat → Prop} {b : Buffer} {payload bs t : Bytes} {v : Val}
    (h : TextAt b payload) (hr : b.rest = bs ++ t) (hitem : Item room bs v) : v.type = .str := by
  obtain ⟨bs', t', hr', htext⟩ := h
  obtain ⟨x, u, rfl, hx⟩ := hitem.peek
  obtain ⟨x', u', rfl, hx'⟩ := htext.peek
  rw [hr] at hr'
  have heq : x = x' := (List.cons.inj hr').1
  rw [heq, hx'] at hx
  exact (Except.ok.inj hx).symm

theorem cborUnpackVal_ok {m : Machine} {b : Buffer} (hb : b.Valid) {k : Nat} {payload : Bytes} {v : Val}
    {st : BufferState} (h : TextAt b payload) (hret : Returns (cborUnpackVal m) ⟨b, k⟩ (.ok v) st) :
    v = .str (cstr payload) := by
  obtain ⟨bs, t, hr, _, hitem⟩ := (cborUnpackVal_atomic m _ b k hb le_rfl).post hret
  have htype := Item.str_of_textAt h hr hitem
  cases hitem with
  | text htext => rw [h.unique hb ⟨bs, t, hr, htext⟩]
  | _ => cases htype

theorem unpackCborPair_ok {m : Machine} {b : Buffer} (hb : b.Valid) {k : Nat} {payload : Bytes}
    {nvl nvl' : List (CStr × Val)} {st : BufferState} (h : TextAt b payload)
    (hret : Returns (unpackCborPair m nvl) ⟨b, k⟩ (.ok nvl') st) :
    ∃ value, nvl' = nvSet nvl (cstr payload) value := by
  obtain ⟨bs, t, hr, _, p, htext, _, rfl, hnvl⟩ :=
    (unpackCborPair_sound m (unpackCborVal_sound m _) nvl b k hb le_rfl).post hret nvl' rfl
  have hname := h.unique hb ⟨p.nameBytes, p.valueBytes ++ t, by rw [hr, PairItem.bytes, List.append_assoc], htext⟩
  exact ⟨p.value, by rw [hnvl, hname]; rfl⟩

/-! ## Text with a NUL -/

theorem keepsText_iff {b : Buffer} (hb : b.Valid) {payload : Bytes} (h : TextAt b payload) :
    KeepsText b payload ↔ 0 ∉ payload := by
  constructor
  · intro hkeeps
    obtain ⟨st, hret⟩ := cborUnpackStr_succeeds hb 0 h
    exact cstr_eq_self_iff.mp (hkeeps.str _ _ _ _ hret)
  · intro hnul
    have hbytes := cstr_eq_self_iff.mpr hnul
    refine ⟨fun m k s st hret => ?_, fun m k v st hret => ?_, fun m k nvl nvl' st hret => ?_⟩
    · rw [cborUnpackStr_ok hb h hret, hbytes]
    · exact ⟨_, cborUnpackVal_ok hb h hret, hbytes⟩
    · obtain ⟨value, hnvl⟩ := unpackCborPair_ok hb h hret
      exact ⟨_, value, hbytes, hnvl⟩

theorem lookup_nvSet_ne {nvl : List (CStr × Val)} {name name' : CStr} {value : Val} (h : name ≠ name') :
    (nvSet nvl name' value).lookup name = nvl.lookup name := by
  have hset := congrFun (Assoc.lookup_set (fun _ _ => strcmp_eq_zero) nvl name' value) name
  rw [Function.update_of_ne h] at hset
  exact hset

theorem keepsApart {b b' : Buffer} (hb : b.Valid) (hb' : b'.Valid) {p p' : Bytes} (h : TextAt b p)
    (h' : TextAt b' p') (hne : cstr p ≠ cstr p') : KeepsApart b b' := by
  intro m m' k k' nvl nvl' st st' hret hret' name hname
  obtain ⟨value, rfl⟩ := unpackCborPair_ok hb h hret
  obtain ⟨value', rfl⟩ := unpackCborPair_ok hb' h' hret'
  have hp : name = cstr p := by
    by_contra hn
    rw [lookup_nvSet_ne hn] at hname
    cases hname
  exact lookup_nvSet_ne (hp ▸ hne)

/-- Two text strings are kept, and kept apart, exactly if none of them has a NUL. -/
theorem cbor_text_kept_iff (b b' : Buffer) (hb : b.Valid) (hb' : b'.Valid) (p p' : Bytes)
    (h : TextAt b p) (h' : TextAt b' p') :
    (KeepsText b p ∧ KeepsText b' p' ∧ (p ≠ p' → KeepsApart b b')) ↔ 0 ∉ p ∧ 0 ∉ p' := by
  rw [keepsText_iff hb h, keepsText_iff hb' h']
  refine ⟨fun hall => ⟨hall.1, hall.2.1⟩, fun ⟨hp, hp'⟩ => ⟨hp, hp', fun hne => ?_⟩⟩
  refine keepsApart hb hb' h h' fun heq => hne ?_
  rw [← cstr_eq_self_iff.mpr hp, ← cstr_eq_self_iff.mpr hp', heq]

theorem cbor_text_kept_iff_ab : KeepsText (.ofBytes [0x62, 0x61, 0x62]) [0x61, 0x62] ∧
    KeepsText (.ofBytes [0x61, 0x63]) [0x63] ∧
    ([0x61, 0x62] ≠ [(0x63 : UInt8)] → KeepsApart (.ofBytes [0x62, 0x61, 0x62]) (.ofBytes [0x61, 0x63])) := by
  have hab : Text [0x62, 0x61, 0x62] [0x61, 0x62] := @Text.mk [0x62] [0x61, 0x62] (@Head.direct .text 2 (by decide))
  have hc : Text [0x61, 0x63] [0x63] := @Text.mk [0x61] [0x63] (@Head.direct .text 1 (by decide))
  exact (cbor_text_kept_iff _ _ (Buffer.ofBytes_valid (by decide)) (Buffer.ofBytes_valid (by decide)) _ _
    ⟨_, [], rfl, hab⟩ ⟨_, [], rfl, hc⟩).mpr ⟨by decide, by decide⟩

/-- Two names that differ after a NUL. -/
theorem cbor_text_nul : ¬ KeepsText (.ofBytes [0x63, 0x61, 0, 0x62, 0xf6]) [0x61, 0, 0x62] ∧
    ¬ KeepsApart (.ofBytes [0x63, 0x61, 0, 0x62, 0xf6]) (.ofBytes [0x63, 0x61, 0, 0x63, 0xf6]) := by
  have htext : ∀ x : UInt8, Text [0x63, 0x61, 0, x] [0x61, 0, x] := fun x =>
    @Text.mk [0x63] [0x61, 0, x] (@Head.direct .text 3 (by decide))
  have hnull : Item HasRoom [0xf6] .null := .null
  have hb : (Buffer.ofBytes [0x63, 0x61, 0, 0x62, 0xf6]).Valid := Buffer.ofBytes_valid (by decide)
  have hb' : (Buffer.ofBytes [0x63, 0x61, 0, 0x63, 0xf6]).Valid := Buffer.ofBytes_valid (by decide)
  constructor
  · rw [keepsText_iff hb ⟨[0x63, 0x61, 0, 0x62], [0xf6], rfl, htext _⟩]
    decide
  · intro hapart
    have hpair : ∀ x : UInt8, Accepts (unpackCborPair .plenty []) [0x63, 0x61, 0, x, 0xf6] []
        (nvSet [] (cstr [0x61, 0, x]) .null) := fun x =>
      @unpackCborPair_accepts _ Machine.plenty_ample ⟨_, _, _, .null⟩ [] [] (htext x)
        (unpackCborVal_accepts Machine.plenty_ample hnull)
    obtain ⟨k, hret⟩ := hpair 0x62 _ 0 hb rfl
    obtain ⟨k', hret'⟩ := hpair 0x63 _ 0 hb' rfl
    have hnone := hapart _ _ _ _ _ _ _ _ hret hret' (cstr [0x61]) (by decide)
    exact absurd hnone (by decide)

end Libjeffpc.Cbor
