import Libjeffpc.Cbor.Proofs.UnpackProofs

/-!
# What `unpack_cbor_val` accepts is a data item

The functions that read values call each other and loop as often as the input says. All of them
terminate, because every value and every name takes at least one byte: the induction is on the number
of bytes that are left.
-/

namespace Libjeffpc.Cbor

open Lib

variable (m : Machine)

/-! ## Items are not empty -/

theorem Text.ne_nil {bs payload : Bytes} (h : Text bs payload) : bs ≠ [] := by
  obtain ⟨hh⟩ := h
  simp [hh.ne_nil]

theorem Item.ne_nil {room : Nat → Prop} {bs : Bytes} {v : Val} (h : Item room bs v) : bs ≠ [] := by
  cases h with
  | uint h => exact h.ne_nil
  | text h => exact h.ne_nil
  | array items hh _ _ => simp [hh.ne_nil]
  | map pairs hh _ _ _ => simp [hh.ne_nil]
  | _ => simp

theorem Start.ne_nil {type : MajorType} {bs : Bytes} {r : UInt64 × Bool} (h : Start type bs r) :
    bs ≠ [] := by
  rcases h with ⟨_, rfl⟩ | ⟨_, h⟩
  · simp
  · exact h.ne_nil

/-! ## Peeking -/

/-- What peeking at the bytes that are left returns. -/
def peekRest : Bytes → Except Errno ValType
  | [] => .error .EFAULT
  | x :: _ => peekByte x

theorem cborPeekType_returns {b : Buffer} (hb : b.Valid) (k : Nat) :
    Returns cborPeekType ⟨b, k⟩ (peekRest b.rest) ⟨b, k⟩ := by
  have hremain := hb.bufferRemain_eq
  refine (returns_getBuffer _).bind ?_
  simp only
  cases h : b.rest with
  | nil =>
    rw [h, List.length_nil] at hremain
    rw [if_pos (by omega)]
    exact (Returns.throw _ _).bind_error
  | cons x t =>
    rw [h, List.length_cons] at hremain
    obtain ⟨p, hp, hofFn⟩ := load_rest hb (n := 1) (by decide) (by rw [h]; simp)
    have hx : p 0 = x := by
      have : [p 0] = (x :: t).take 1 := h ▸ hofFn
      simpa using this
    rw [if_neg (by omega), hp]
    refine (Returns.pure p _).bind ?_
    rw [hx, peekRest]
    cases peekByte x with
    | ok ty => exact returns_liftExcept _ _
    | error e => exact returns_liftError _ _

theorem cborPeekType_sound (n : Nat) : Sound n cborPeekType (Nothing fun _ _ => True) :=
  fun b k hb _ => Triple.of_returns (cborPeekType_returns hb k)
    fun _ _ => ⟨[], b.rest, rfl, rfl, rfl, trivial⟩

theorem attempt_returns {α : Type} {f : BufM α} {s s' : BufferState} {r : Except Errno α}
    (h : Returns f s r s') : Returns (attempt f) s (.ok r) s' := by
  have hrun : StateT.run (ExceptT.run f) s = pure (r, s') := h
  show StateT.run (ExceptT.run (ExceptT.lift (ExceptT.run f))) s = pure (.ok r, s')
  rw [ExceptT.run_lift, StateT.run_map, hrun]
  rfl

theorem cborPeekBreak_returns {b : Buffer} (hb : b.Valid) (k : Nat) :
    Returns cborPeekBreak ⟨b, k⟩ (.ok (breakCode (peekRest b.rest))) ⟨b, k⟩ :=
  (attempt_returns (cborPeekType_returns hb k)).bind (Returns.pure _ _)

theorem cborPeekBreak_sound (n : Nat) : Sound n cborPeekBreak (Nothing fun _ _ => True) :=
  fun b k hb _ => Triple.of_returns (cborPeekBreak_returns hb k)
    fun _ _ => ⟨[], b.rest, rfl, rfl, rfl, trivial⟩

/-! ## Arrays -/

/-- A reader of single values that is sound as long as at most `n` bytes are left. -/
def SoundVal (n : Nat) : Prop := Sound n (unpackCborVal m) fun bs _ v => DataItem bs v

/-- A sequence of items and their meanings. -/
def Items (items : List (Bytes × Val)) : Prop := ∀ x ∈ items, DataItem x.1 x.2

theorem memReallocarray_sound (n nelem size : Nat) :
    Sound n (memReallocarray m nelem size) (Nothing fun _ _ => True) := by
  refine Sound.ite (fun _ => ?_) fun _ => ?_
  · exact (Sound.pure false).mono fun bs t a h => ⟨h.1, trivial⟩
  · exact (request_sound n m _).mono fun bs t a h => ⟨h.1, trivial⟩

theorem unpackDefElems_sound {n : Nat} (hval : SoundVal m n) (nelem : Nat) :
    Sound n (unpackDefElems m nelem) fun bs _ vals => ∃ items, Items items ∧ items.length = nelem ∧
      bs = (items.map Prod.fst).flatten ∧ vals = items.map Prod.snd := by
  induction nelem with
  | zero =>
    rw [unpackDefElems]
    exact (Sound.pure []).mono fun bs t vals h => ⟨[], by simp [Items], rfl, h.1, h.2⟩
  | succ nelem ih =>
    rw [unpackDefElems]
    refine (Sound.bind hval fun elem => ih.bind fun vals => Sound.pure (elem :: vals)).mono ?_
    rintro bs t vals ⟨elem, b1, b2, rfl, helem, vals', b3, b4, rfl, ⟨items, hitems, hlen, rfl, rfl⟩,
      rfl, rfl⟩
    refine ⟨(b1, elem) :: items, ?_, by simp [hlen], by simp, by simp⟩
    exact List.forall_mem_cons.mpr ⟨helem, hitems⟩

theorem unpackIndefElems_sound {n : Nat} (hval : SoundVal m n) (arr : List Val) :
    Sound n (unpackIndefElems m arr) fun bs _ vals => ∃ items, Items items ∧
      bs = (items.map Prod.fst).flatten ∧ vals = arr ++ items.map Prod.snd := by
  -- every element takes at least one byte
  induction n using Nat.strong_induction_on generalizing arr with
  | _ n ih =>
    rw [unpackIndefElems]
    refine ((cborPeekBreak_sound n).bind (G := fun _ bs _ vals => ∃ items, Items items ∧
      bs = (items.map Prod.fst).flatten ∧ vals = arr ++ items.map Prod.snd) fun code => ?_).mono ?_
    · split
      · refine (Sound.pure arr).mono fun bs t vals h => ⟨[], by simp [Items], h.1, ?_⟩
        rw [h.2, List.map_nil, List.append_nil]
      · refine (Sound.bind_rest hval (G := fun elem bs _ vals => ∃ items, Items items ∧
          bs = (items.map Prod.fst).flatten ∧ vals = arr ++ [elem] ++ items.map Prod.snd) ?_).mono ?_
        · intro bs t elem helem hlen
          have hpos := List.length_pos_of_ne_nil helem.ne_nil
          refine ((memReallocarray_sound m _ _ _).bind (G := fun _ bs _ vals => ∃ items, Items items ∧
            bs = (items.map Prod.fst).flatten ∧ vals = arr ++ [elem] ++ items.map Prod.snd)
            fun granted => ?_).mono ?_
          · refine Sound.ite (fun _ => ?_) fun _ => Sound.throw _
            exact ih t.length (by omega) (hval.le (by omega)) (arr ++ [elem])
          · rintro bs t vals ⟨_, b1, b2, rfl, ⟨rfl, _⟩, h⟩
            exact h
        · rintro bs t vals ⟨elem, b1, b2, rfl, helem, items, hitems, rfl, rfl⟩
          refine ⟨(b1, elem) :: items, List.forall_mem_cons.mpr ⟨helem, hitems⟩, by simp, by simp⟩
      · exact Sound.throw _
    · rintro bs t vals ⟨_, b1, b2, rfl, ⟨rfl, _⟩, h⟩
      exact h

/-- What follows the start of an array. -/
def ArrayBody (r : UInt64 × Bool) (bs _t : Bytes) (v : Val) : Prop :=
  ∃ items, Items items ∧ (r.2 = false → items.length = r.1.toNat) ∧ v = .array (items.map Prod.snd) ∧
    bs = (items.map Prod.fst).flatten ++ if r.2 then [breakByte] else []

theorem valAlloc_sound (n : Nat) (v : Val) : Sound n (valAlloc m v) (Nothing fun _ r => r = v) :=
  allocated_sound m n .val v

/-- The end of an array, once its elements are there. -/
theorem arrayEnd_sound (n : Nat) (endRequired : Bool) (arr : List Val) :
    Sound n (cborUnpackArrayEnd endRequired >>= fun _ => valAlloc m (.array arr)) fun bs _ v =>
      v = .array arr ∧ bs = if endRequired then [breakByte] else [] := by
  refine ((cborUnpackEnd_atomic n endRequired).sound.bind fun _ =>
    valAlloc_sound m n (.array arr)).mono ?_
  rintro bs t v ⟨_, b1, b2, rfl, hend, rfl, rfl⟩
  rw [List.append_nil]
  exact ⟨rfl, hend⟩

theorem arrayBody_sound {n : Nat} (hval : SoundVal m n) (nelem : UInt64) (endRequired : Bool) :
    Sound n (do
      if endRequired then
        let arr ← unpackIndefElems m []
        cborUnpackArrayEnd endRequired
        valAlloc m (.array arr)
      else
        if nelem.toNat > sizeMax then throw .ENOMEM
        if ← memReallocarray m nelem.toNat ptrSize then
          let arr ← unpackDefElems m nelem.toNat
          cborUnpackArrayEnd endRequired
          valAlloc m (.array arr)
        else throw .ENOMEM) (ArrayBody (nelem, endRequired)) := by
  cases endRequired with
  | true =>
    refine ((unpackIndefElems_sound m hval []).bind fun arr => arrayEnd_sound m n true arr).mono ?_
    rintro bs t v ⟨_, b1, b2, rfl, ⟨items, hitems, rfl, rfl⟩, rfl, rfl⟩
    exact ⟨items, hitems, by simp, by simp, rfl⟩
  | false =>
    refine Sound.ite (fun h => absurd h (by simp)) fun _ =>
      Sound.ite (fun _ => Sound.throw_bind _ _) fun _ => ?_
    refine ((memReallocarray_sound m n _ _).bind (G := fun _ => ArrayBody (nelem, false))
      fun granted => ?_).mono ?_
    · refine Sound.ite (fun _ => ?_) fun _ => Sound.throw _
      refine ((unpackDefElems_sound m hval nelem.toNat).bind fun arr =>
        arrayEnd_sound m n false arr).mono ?_
      rintro bs t v ⟨_, b1, b2, rfl, ⟨items, hitems, hlen, rfl, rfl⟩, rfl, rfl⟩
      exact ⟨items, hitems, fun _ => hlen, rfl, rfl⟩
    · rintro bs t v ⟨_, b1, b2, rfl, ⟨rfl, _⟩, h⟩
      exact h

theorem unpackCborArray_sound {n : Nat} (hval : ∀ n' < n, SoundVal m n') :
    Sound n (unpackCborArray m) fun bs _ v => DataItem bs v := by
  rw [unpackCborArray]
  refine (Sound.bind_rest (cborUnpackArrayStart_atomic n).sound (G := ArrayBody) ?_).mono ?_
  · rintro bs t ⟨nelem, endRequired⟩ hstart hlen
    have hpos := List.length_pos_of_ne_nil hstart.ne_nil
    exact arrayBody_sound m (hval t.length (by omega)) nelem endRequired
  · rintro bs t v ⟨⟨nelem, endRequired⟩, b1, b2, rfl, hstart, items, hitems, hnum, rfl, rfl⟩
    rcases hstart with ⟨hr, rfl⟩ | ⟨hr, hhead⟩
    · obtain ⟨rfl, rfl⟩ := Prod.mk.inj hr
      exact .arrayIndef items trivial hitems
    · simp only at hr hhead hnum
      subst hr
      rw [← hnum rfl] at hhead
      simp only [Bool.false_eq_true, if_false, List.append_nil]
      exact .array items hhead trivial hitems

/-! ## Maps -/

/-- A sequence of names and values. -/
def Pairs (pairs : List PairItem) : Prop :=
  ∀ p ∈ pairs, Text p.nameBytes p.name ∧ DataItem p.valueBytes p.value

theorem nvlSetPair_sound (n : Nat) (nvl : List (CStr × Val)) (name : CStr) (value : Val) :
    Sound n (nvlSetPair m nvl name value) (Nothing fun _ r => r = nvSet nvl name value) :=
  Sound.ite (fun _ => Sound.pure _) fun _ => allocated_sound m n .nvpair _

theorem unpackCborPair_sound {n : Nat} (hval : SoundVal m n) (nvl : List (CStr × Val)) :
    Sound n (unpackCborPair m nvl) fun bs _ r => ∃ p : PairItem, Text p.nameBytes p.name ∧
      DataItem p.valueBytes p.value ∧ bs = p.bytes ∧ r = nvSet nvl p.pair.1 p.pair.2 := by
  rw [unpackCborPair]
  refine ((cborUnpackStr_sound m n).bind fun name => Sound.bind hval fun value =>
    nvlSetPair_sound m n nvl name value).mono ?_
  rintro bs t r ⟨_, b1, b2, rfl, ⟨payload, htext, rfl⟩, value, b3, b4, rfl, hitem, rfl, rfl⟩
  rw [List.append_nil]
  exact ⟨⟨b1, payload, b3, value⟩, htext, hitem, rfl, rfl⟩

/-- The pairs that a loop reads into an nvlist. -/
def MapBody (nvl : List (CStr × Val)) (bs _t : Bytes) (r : List (CStr × Val))
    (pairs : List PairItem) : Prop :=
  Pairs pairs ∧ bs = (pairs.map PairItem.bytes).flatten ∧ r = nvSetAll nvl (pairs.map PairItem.pair)

theorem MapBody.cons {nvl r : List (CStr × Val)} {p : PairItem} {bs t : Bytes}
    {pairs : List PairItem} (hname : Text p.nameBytes p.name) (hvalue : DataItem p.valueBytes p.value)
    (h : MapBody (nvSet nvl p.pair.1 p.pair.2) bs t r pairs) :
    MapBody nvl (p.bytes ++ bs) t r (p :: pairs) := by
  obtain ⟨hpairs, rfl, rfl⟩ := h
  exact ⟨List.forall_mem_cons.mpr ⟨⟨hname, hvalue⟩, hpairs⟩, by simp, rfl⟩

theorem unpackDefPairs_sound {n : Nat} (hval : SoundVal m n) (npairs : Nat)
    (nvl : List (CStr × Val)) :
    Sound n (unpackDefPairs m npairs nvl) fun bs t r => ∃ pairs, pairs.length = npairs ∧
      MapBody nvl bs t r pairs := by
  induction npairs generalizing nvl with
  | zero =>
    rw [unpackDefPairs]
    exact (Sound.pure nvl).mono fun bs t r h => ⟨[], rfl, by simp [Pairs], h.1, h.2⟩
  | succ npairs ih =>
    rw [unpackDefPairs]
    refine ((unpackCborPair_sound m hval nvl).bind fun nvl' => ih nvl').mono ?_
    rintro bs t r ⟨_, b1, b2, rfl, ⟨p, hname, hvalue, rfl, rfl⟩, pairs, hlen, hbody⟩
    exact ⟨p :: pairs, by simp [hlen], hbody.cons hname hvalue⟩

theorem unpackIndefPairs_sound {n : Nat} (hval : SoundVal m n) (nvl : List (CStr × Val)) :
    Sound n (unpackIndefPairs m nvl) fun bs t r => ∃ pairs, MapBody nvl bs t r pairs := by
  -- every name takes at least one byte
  induction n using Nat.strong_induction_on generalizing nvl with
  | _ n ih =>
    rw [unpackIndefPairs]
    refine ((cborPeekBreak_sound n).bind (G := fun _ bs t r => ∃ pairs, MapBody nvl bs t r pairs)
      fun code => ?_).mono ?_
    · split
      · exact (Sound.pure nvl).mono fun bs t r h => ⟨[], by simp [Pairs], h.1, h.2⟩
      · refine (Sound.bind_rest (unpackCborPair_sound m hval nvl) (G := fun nvl' bs t r =>
          ∃ pairs, MapBody nvl' bs t r pairs) ?_).mono ?_
        · rintro bs t nvl' ⟨p, hname, _, rfl, _⟩ hlen
          have hpos := List.length_pos_of_ne_nil hname.ne_nil
          rw [PairItem.bytes, List.length_append] at hlen
          exact ih t.length (by omega) (hval.le (by omega)) nvl'
        · rintro bs t r ⟨_, b1, b2, rfl, ⟨p, hname, hvalue, rfl, rfl⟩, pairs, hbody⟩
          exact ⟨p :: pairs, hbody.cons hname hvalue⟩
      · exact Sound.throw _
    · rintro bs t r ⟨_, b1, b2, rfl, ⟨rfl, _⟩, h⟩
      exact h

/-- An nvlist is filled from the first pair to the last. -/
theorem lastWins_nvSetAll (pairs : List (CStr × Val)) : LastWins (nvSetAll [] pairs) pairs := by
  refine ⟨nvSorted_nvSetAll List.Pairwise.nil pairs, fun name => ?_⟩
  rw [lookup_nvSetAll]
  simp

/-- What follows the start of a map. -/
def NvlBody (r : UInt64 × Bool) (bs t : Bytes) (v : Val) : Prop :=
  ∃ b1 nvl pairs, MapBody [] b1 t nvl pairs ∧ (r.2 = false → pairs.length = r.1.toNat) ∧
    v = .nvl nvl ∧ bs = b1 ++ if r.2 then [breakByte] else []

theorem mapEnd_sound (n : Nat) (endRequired : Bool) (nvl : List (CStr × Val)) :
    Sound n (cborUnpackMapEnd endRequired >>= fun _ => pure (Val.nvl nvl)) fun bs _ v =>
      v = .nvl nvl ∧ bs = if endRequired then [breakByte] else [] := by
  refine ((cborUnpackEnd_atomic n endRequired).sound.bind fun _ => Sound.pure (Val.nvl nvl)).mono ?_
  rintro bs t v ⟨_, b1, b2, rfl, hend, rfl, rfl⟩
  rw [List.append_nil]
  exact ⟨rfl, hend⟩

theorem nvlBody_sound {n : Nat} (hval : SoundVal m n) (npairs : UInt64) (endRequired : Bool) :
    Sound n (do
      if endRequired then
        let nvl ← unpackIndefPairs m []
        cborUnpackMapEnd endRequired
        return .nvl nvl
      else
        if npairs.toNat > sizeMax then throw .ENOMEM
        let nvl ← unpackDefPairs m npairs.toNat []
        cborUnpackMapEnd endRequired
        return .nvl nvl) (NvlBody (npairs, endRequired)) := by
  cases endRequired with
  | true =>
    refine ((unpackIndefPairs_sound m hval []).bind fun nvl => mapEnd_sound n true nvl).mono ?_
    rintro bs t v ⟨nvl, b1, b2, rfl, ⟨pairs, hbody⟩, rfl, rfl⟩
    exact ⟨b1, nvl, pairs, hbody, by simp, rfl, rfl⟩
  | false =>
    refine Sound.ite (fun h => absurd h (by simp)) fun _ =>
      Sound.ite (fun _ => Sound.throw_bind _ _) fun _ => ?_
    refine ((unpackDefPairs_sound m hval npairs.toNat []).bind fun nvl =>
      mapEnd_sound n false nvl).mono ?_
    rintro bs t v ⟨nvl, b1, b2, rfl, ⟨pairs, hlen, hbody⟩, rfl, rfl⟩
    exact ⟨b1, nvl, pairs, hbody, fun _ => hlen, rfl, rfl⟩

theorem unpackCborNvl_sound {n : Nat} (hval : ∀ n' < n, SoundVal m n') :
    Sound n (unpackCborNvl m) fun bs _ v => DataItem bs v := by
  rw [unpackCborNvl]
  refine (Sound.bind_rest (cborUnpackMapStart_atomic n).sound (G := NvlBody) ?_).mono ?_
  · rintro bs t ⟨npairs, endRequired⟩ hstart hlen
    have hpos := List.length_pos_of_ne_nil hstart.ne_nil
    refine ((request_sound t.length m .val).bind (G := fun _ => NvlBody (npairs, endRequired))
      fun granted => ?_).mono ?_
    · refine Sound.ite (fun _ => ?_) fun _ => Sound.throw _
      exact nvlBody_sound m (hval t.length (by omega)) npairs endRequired
    · rintro bs t v ⟨_, b1, b2, rfl, ⟨rfl, _⟩, h⟩
      exact h
  · rintro bs t v ⟨⟨npairs, endRequired⟩, b1, b2, rfl, hstart, b3, nvl, pairs, ⟨hpairs, rfl, rfl⟩,
      hnum, rfl, rfl⟩
    rcases hstart with ⟨hr, rfl⟩ | ⟨hr, hhead⟩
    · obtain ⟨rfl, rfl⟩ := Prod.mk.inj hr
      exact .mapIndef pairs (fun p hp => (hpairs p hp).1) (fun p hp => (hpairs p hp).2)
        (lastWins_nvSetAll _)
    · simp only at hr hhead hnum
      subst hr
      rw [← hnum rfl] at hhead
      simp only [Bool.false_eq_true, if_false, List.append_nil]
      exact .map pairs hhead (fun p hp => (hpairs p hp).1) (fun p hp => (hpairs p hp).2)
        (lastWins_nvSetAll _)

/-! ## Values -/

theorem valAllocInt_sound (n : Nat) (i : UInt64) :
    Sound n (valAllocInt m i) (Nothing fun _ r => r = .int i) :=
  Sound.ite (fun _ => Sound.pure _) fun _ => valAlloc_sound m n _

theorem unpackCborVal_sound (n : Nat) : SoundVal m n := by
  induction n using Nat.strong_induction_on with
  | _ n ih =>
    unfold SoundVal
    rw [unpackCborVal]
    refine ((cborPeekType_sound n).bind (G := fun _ bs _ v => DataItem bs v) fun type => ?_).mono ?_
    · cases type with
      | null =>
        refine ((cborUnpackNull_atomic n).sound.bind fun _ => Sound.pure Val.null).mono ?_
        rintro bs t v ⟨_, b1, b2, rfl, rfl, rfl, rfl⟩
        exact .null
      | int =>
        refine ((cborUnpackUint_atomic n).sound.bind fun i => valAllocInt_sound m n i).mono ?_
        rintro bs t v ⟨i, b1, b2, rfl, hhead, rfl, rfl⟩
        have hitem : DataItem b1 (.int (.ofNat i.toNat)) := .uint hhead
        rw [UInt64.ofNat_toNat] at hitem
        rwa [List.append_nil]
      | str =>
        refine ((cborUnpackStr_sound m n).bind fun s => Sound.pure (Val.str s)).mono ?_
        rintro bs t v ⟨_, b1, b2, rfl, ⟨payload, htext, rfl⟩, rfl, rfl⟩
        rw [List.append_nil]
        exact .text htext
      | sym => exact Sound.throw _
      | bool =>
        refine ((cborUnpackBool_atomic n).sound.bind fun b => Sound.pure (Val.bool b)).mono ?_
        rintro bs t v ⟨b, b1, b2, rfl, rfl, rfl, rfl⟩
        cases b with
        | false => exact .false
        | true => exact .true
      | cons => exact Sound.throw _
      | char => exact Sound.throw _
      | blob => exact Sound.throw_bind _ _
      | array => exact unpackCborArray_sound m ih
      | nvl => exact unpackCborNvl_sound m ih
    · rintro bs t v ⟨_, b1, b2, rfl, ⟨rfl, _⟩, h⟩
      exact h

end Libjeffpc.Cbor
