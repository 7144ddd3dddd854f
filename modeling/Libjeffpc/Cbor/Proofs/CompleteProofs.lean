import Libjeffpc.Cbor.Proofs.SoundProofs

/-!
# Every data item is accepted

By induction on the derivation of the item, when allocations succeed and the arrays of the item have
room in memory.
-/

namespace Libjeffpc.Cbor

open Lib

/-- Parts that are not empty are at most as many as their bytes. -/
theorem length_le_flatten (l : List Bytes) (h : ∀ bs ∈ l, bs ≠ []) : l.length ≤ l.flatten.length := by
  induction l with
  | nil => simp
  | cons bs l ih =>
    obtain ⟨hbs, hl⟩ := List.forall_mem_cons.mp h
    have hpos := List.length_pos_of_ne_nil hbs
    have := ih hl
    rw [List.flatten_cons, List.length_append, List.length_cons]
    omega

/-- A 64-bit number is a `size_t`. -/
theorem toNat_le_sizeMax (v : UInt64) : ¬ v.toNat > sizeMax := by
  have := UInt64.toNat_lt v
  unfold sizeMax
  omega

/-! ## Peeking at an item -/

theorem Head.peek {type : MajorType} {bs : Bytes} {n : Nat} (h : Head type bs n) :
    ∃ x t, bs = x :: t ∧ majorType x = type := by
  cases h with
  | direct h => exact ⟨_, _, rfl, majorType_typeByte type (by omega)⟩
  | one h | two h | four h | eight h => exact ⟨_, _, rfl, majorType_typeByte type (by omega)⟩

theorem Item.peek {room : Nat → Prop} {bs : Bytes} {v : Val} (h : Item room bs v) :
    ∃ x t, bs = x :: t ∧ peekByte x = .ok v.type := by
  cases h with
  | uint h =>
    obtain ⟨x, t, rfl, hx⟩ := h.peek
    exact ⟨x, t, rfl, by simp [peekByte, hx, Val.type]⟩
  | text h =>
    obtain ⟨hh⟩ := h
    obtain ⟨x, t, rfl, hx⟩ := hh.peek
    exact ⟨x, _, rfl, by simp [peekByte, hx, Val.type]⟩
  | false => exact ⟨_, _, rfl, rfl⟩
  | true => exact ⟨_, _, rfl, rfl⟩
  | null => exact ⟨_, _, rfl, rfl⟩
  | array items hh _ _ =>
    obtain ⟨x, t, rfl, hx⟩ := hh.peek
    exact ⟨x, _, rfl, by simp [peekByte, hx, Val.type]⟩
  | arrayIndef items _ _ => exact ⟨_, _, rfl, rfl⟩
  | map pairs hh _ _ _ =>
    obtain ⟨x, t, rfl, hx⟩ := hh.peek
    exact ⟨x, _, rfl, by simp [peekByte, hx, Val.type]⟩
  | mapIndef pairs _ _ _ => exact ⟨_, _, rfl, rfl⟩

theorem Text.peek {bs payload : Bytes} (h : Text bs payload) :
    ∃ x t, bs = x :: t ∧ peekByte x = .ok .str :=
  (@Item.text (fun _ => True) _ _ h).peek

theorem cborPeekType_accepts {x : UInt8} {t : Bytes} {type : ValType} (h : peekByte x = .ok type) :
    Accepts cborPeekType [] (x :: t) type := by
  intro b k hb hr
  have hret := cborPeekType_returns hb k
  rw [hr, List.nil_append, peekRest, h] at hret
  exact ⟨k, hret⟩

theorem Item.peek_accepts {room : Nat → Prop} {bs : Bytes} {v : Val} (h : Item room bs v) (t : Bytes) :
    Accepts cborPeekType [] (bs ++ t) v.type := by
  obtain ⟨x, t', rfl, hx⟩ := h.peek
  exact cborPeekType_accepts hx

theorem cborPeekBreak_accepts {x : UInt8} {t : Bytes} {type : ValType} (h : peekByte x = .ok type) :
    Accepts cborPeekBreak [] (x :: t) (.error .EILSEQ) := by
  intro b k hb hr
  have hret := cborPeekBreak_returns hb k
  rw [hr, List.nil_append, peekRest, h] at hret
  exact ⟨k, hret⟩

theorem cborPeekBreak_break (t : Bytes) : Accepts cborPeekBreak [] (breakByte :: t) (.ok ()) := by
  intro b k hb hr
  have hret := cborPeekBreak_returns hb k
  rw [hr] at hret
  exact ⟨k, hret⟩

/-- The nvlist that a map means is the one that is built. -/
theorem LastWins.eq {nvl pairs : List (CStr × Val)} (h : LastWins nvl pairs) :
    nvl = nvSetAll [] pairs := by
  obtain ⟨hs, hl⟩ := lastWins_nvSetAll pairs
  exact h.1.ext strcmp_isCmp hs fun name => (h.2 name).trans (hl name).symm

variable {m : Machine}

theorem unpackDefElems_accepts (items : List (Bytes × Val)) (t : Bytes)
    (h : ∀ x ∈ items, ∀ t, Accepts (unpackCborVal m) x.1 t x.2) :
    Accepts (unpackDefElems m items.length) (items.map Prod.fst).flatten t
      (items.map Prod.snd) := by
  induction items with
  | nil =>
    rw [List.length_nil, unpackDefElems]
    exact Accepts.pure _ t
  | cons x items ih =>
    obtain ⟨hx, hitems⟩ := List.forall_mem_cons.mp h
    rw [List.length_cons, unpackDefElems]
    exact (hx _).bind ((ih hitems).bind_end (Accepts.pure _ t))

section Ample

variable (hm : m.Ample)

include hm

theorem memReallocarray_accepts {k : Nat} (hk : HasRoom k) (t : Bytes) :
    Accepts (memReallocarray m k ptrSize) [] t true := by
  have hle : ¬ k * ptrSize > sizeMax := by
    unfold HasRoom ssizeMax at hk
    unfold sizeMax
    omega
  unfold memReallocarray
  rw [if_neg hle]
  exact request_complete (fun i => hm.bytes i _ hk) [] t true ⟨rfl, rfl⟩

theorem valAlloc_accepts (v : Val) (t : Bytes) : Accepts (valAlloc m v) [] t v :=
  allocated_complete hm.val v [] t v ⟨rfl, rfl⟩

theorem valAllocInt_accepts (i : UInt64) (t : Bytes) : Accepts (valAllocInt m i) [] t (.int i) := by
  unfold valAllocInt
  split
  · exact Accepts.pure _ t
  · exact valAlloc_accepts hm _ t

theorem nvlSetPair_accepts (nvl : List (CStr × Val)) (name : CStr) (value : Val) (t : Bytes) :
    Accepts (nvlSetPair m nvl name value) [] t (nvSet nvl name value) := by
  unfold nvlSetPair
  split
  · exact Accepts.pure _ t
  · exact allocated_complete hm.nvpair (nvSet nvl name value) [] t _ ⟨rfl, rfl⟩

/-! ## Arrays -/

theorem unpackIndefElems_accepts (items : List (Bytes × Val)) (t : Bytes) (arr : List Val)
    (hroom : HasRoom (arr.length + items.length))
    (hpeek : ∀ x ∈ items, ∃ y t, x.1 = y :: t ∧ peekByte y = .ok x.2.type)
    (h : ∀ x ∈ items, ∀ t, Accepts (unpackCborVal m) x.1 t x.2) :
    Accepts (unpackIndefElems m arr) (items.map Prod.fst).flatten (breakByte :: t)
      (arr ++ items.map Prod.snd) := by
  induction items generalizing arr with
  | nil =>
    rw [unpackIndefElems]
    refine (cborPeekBreak_break t).bind_nil ?_
    rw [List.map_nil (f := Prod.snd), List.append_nil]
    exact Accepts.pure arr _
  | cons x items ih =>
    obtain ⟨hx, hitems⟩ := List.forall_mem_cons.mp h
    obtain ⟨⟨y, t', hy, hpeek0⟩, hpeek⟩ := List.forall_mem_cons.mp hpeek
    have hlen : arr.length + (x :: items).length = (arr ++ [x.2]).length + items.length := by
      simp
      omega
    have hroom1 : HasRoom (arr.length + 1) := by
      unfold HasRoom at hroom ⊢
      rw [List.length_cons] at hroom
      exact (Nat.mul_le_mul_right _ (by omega)).trans hroom
    rw [hlen] at hroom
    have hnext := ih (arr ++ [x.2]) hroom hpeek hitems
    rw [List.append_assoc] at hnext
    have hcode : Accepts cborPeekBreak [] (((x :: items).map Prod.fst).flatten ++ breakByte :: t)
        (.error .EILSEQ) := by
      rw [List.map_cons, List.flatten_cons, hy]
      exact cborPeekBreak_accepts hpeek0
    rw [unpackIndefElems]
    refine hcode.bind_nil ((hx _).bind ((memReallocarray_accepts hm hroom1 _).bind_nil ?_))
    exact hnext

/-! ## Maps -/

theorem unpackCborPair_accepts {p : PairItem} (nvl : List (CStr × Val)) (t : Bytes)
    (hname : Text p.nameBytes p.name) (hvalue : ∀ t, Accepts (unpackCborVal m) p.valueBytes t p.value) :
    Accepts (unpackCborPair m nvl) p.bytes t (nvSet nvl p.pair.1 p.pair.2) := by
  rw [unpackCborPair]
  exact (cborUnpackStr_complete hm _ _ _ ⟨p.name, hname, rfl⟩).bind
    ((hvalue _).bind_end (nvlSetPair_accepts hm _ _ _ t))

theorem unpackDefPairs_accepts (pairs : List PairItem) (t : Bytes) (nvl : List (CStr × Val))
    (hnames : ∀ p ∈ pairs, Text p.nameBytes p.name)
    (h : ∀ p ∈ pairs, ∀ t, Accepts (unpackCborVal m) p.valueBytes t p.value) :
    Accepts (unpackDefPairs m pairs.length nvl) (pairs.map PairItem.bytes).flatten t
      (nvSetAll nvl (pairs.map PairItem.pair)) := by
  induction pairs generalizing nvl with
  | nil =>
    rw [List.length_nil, unpackDefPairs]
    exact Accepts.pure _ t
  | cons p pairs ih =>
    obtain ⟨hp, hpairs⟩ := List.forall_mem_cons.mp h
    obtain ⟨hname, hnames⟩ := List.forall_mem_cons.mp hnames
    rw [List.length_cons, unpackDefPairs]
    exact (unpackCborPair_accepts hm nvl _ hname hp).bind (ih _ hnames hpairs)

theorem unpackIndefPairs_accepts (pairs : List PairItem) (t : Bytes) (nvl : List (CStr × Val))
    (hnames : ∀ p ∈ pairs, Text p.nameBytes p.name)
    (h : ∀ p ∈ pairs, ∀ t, Accepts (unpackCborVal m) p.valueBytes t p.value) :
    Accepts (unpackIndefPairs m nvl) (pairs.map PairItem.bytes).flatten (breakByte :: t)
      (nvSetAll nvl (pairs.map PairItem.pair)) := by
  induction pairs generalizing nvl with
  | nil =>
    rw [unpackIndefPairs]
    refine (cborPeekBreak_break t).bind_nil ?_
    exact Accepts.pure nvl _
  | cons p pairs ih =>
    obtain ⟨hp, hpairs⟩ := List.forall_mem_cons.mp h
    obtain ⟨hname, hnames⟩ := List.forall_mem_cons.mp hnames
    obtain ⟨y, t', hy, hpeek⟩ := hname.peek
    have hcode : Accepts cborPeekBreak [] (((p :: pairs).map PairItem.bytes).flatten ++ breakByte :: t)
        (.error .EILSEQ) := by
      rw [List.map_cons, List.flatten_cons, PairItem.bytes, hy]
      exact cborPeekBreak_accepts hpeek
    rw [unpackIndefPairs]
    refine hcode.bind_nil ?_
    exact (unpackCborPair_accepts hm nvl _ hname hp).bind (ih _ hnames hpairs)

/-! ## Values -/

theorem unpackCborVal_accepts {bs : Bytes} {v : Val} (h : Item HasRoom bs v) (t : Bytes) :
    Accepts (unpackCborVal m) bs t v := by
  induction h generalizing t with
  | @uint bs n h =>
    rw [unpackCborVal]
    refine ((@Item.uint HasRoom _ _ h).peek_accepts t).bind_nil ?_
    have hhead : Head .uint bs (UInt64.ofNat n).toNat := by rwa [h.ofNat]
    exact (cborUnpackUint_complete bs t _ hhead).bind_end (valAllocInt_accepts hm _ t)
  | @text bs payload h =>
    rw [unpackCborVal]
    refine ((@Item.text HasRoom _ _ h).peek_accepts t).bind_nil ?_
    exact (cborUnpackStr_complete hm bs t _ ⟨payload, h, rfl⟩).bind_end (Accepts.pure _ t)
  | false =>
    rw [unpackCborVal]
    refine ((@Item.false HasRoom).peek_accepts t).bind_nil ?_
    exact (cborUnpackBool_complete _ t false rfl).bind_end (Accepts.pure _ t)
  | true =>
    rw [unpackCborVal]
    refine ((@Item.true HasRoom).peek_accepts t).bind_nil ?_
    exact (cborUnpackBool_complete _ t true rfl).bind_end (Accepts.pure _ t)
  | null =>
    rw [unpackCborVal]
    refine ((@Item.null HasRoom).peek_accepts t).bind_nil ?_
    exact (cborUnpackNull_complete _ t () rfl).bind_end (Accepts.pure _ t)
  | @array h items hh hroom hitems ih =>
    rw [unpackCborVal]
    refine ((Item.array items hh hroom hitems).peek_accepts t).bind_nil ?_
    show Accepts (unpackCborArray m) _ t _
    rw [unpackCborArray]
    refine (cborUnpackArrayStart_complete h _ (.ofNat items.length, false)
      (.inr ⟨rfl, by rwa [hh.ofNat]⟩)).bind ?_
    simp only [Bool.false_eq_true, if_false]
    rw [if_neg (toNat_le_sizeMax _), hh.ofNat]
    refine (memReallocarray_accepts hm hroom _).bind_nil ((unpackDefElems_accepts items t ih).bind_end ?_)
    exact (cborUnpackEnd_complete false [] t () rfl).bind_nil (valAlloc_accepts hm _ t)
  | @arrayIndef items hroom hitems ih =>
    rw [unpackCborVal]
    refine ((Item.arrayIndef items hroom hitems).peek_accepts t).bind_nil ?_
    show Accepts (unpackCborArray m) _ t _
    rw [unpackCborArray]
    have hroom0 : HasRoom (([] : List Val).length + items.length) := by simpa using hroom
    refine (cborUnpackArrayStart_complete [typeByte .array 31] _ (0, true) (.inl ⟨rfl, rfl⟩)).bind ?_
    simp only [if_true]
    refine (unpackIndefElems_accepts hm items t [] hroom0 (fun x hx => (hitems x hx).peek) ih).bind ?_
    exact (cborUnpackEnd_complete true [breakByte] t () rfl).bind_end (valAlloc_accepts hm _ t)
  | @map h nvl pairs hh hnames hvalues hnvl ih =>
    rw [unpackCborVal]
    refine ((Item.map pairs hh hnames hvalues hnvl).peek_accepts t).bind_nil ?_
    show Accepts (unpackCborNvl m) _ t _
    rw [unpackCborNvl, hnvl.eq]
    refine (cborUnpackMapStart_complete h _ (.ofNat pairs.length, false)
      (.inr ⟨rfl, by rwa [hh.ofNat]⟩)).bind ?_
    refine (request_complete hm.val [] _ true ⟨rfl, rfl⟩).bind_nil ?_
    simp only [Bool.false_eq_true, if_false, if_true]
    rw [if_neg (toNat_le_sizeMax _), hh.ofNat]
    refine (unpackDefPairs_accepts hm pairs t [] hnames ih).bind_end ?_
    exact (cborUnpackEnd_complete false [] t () rfl).bind_nil (Accepts.pure _ t)
  | @mapIndef nvl pairs hnames hvalues hnvl ih =>
    rw [unpackCborVal]
    refine ((Item.mapIndef pairs hnames hvalues hnvl).peek_accepts t).bind_nil ?_
    show Accepts (unpackCborNvl m) _ t _
    rw [unpackCborNvl, hnvl.eq]
    refine (cborUnpackMapStart_complete [typeByte .map 31] _ (0, true) (.inl ⟨rfl, rfl⟩)).bind ?_
    refine (request_complete hm.val [] _ true ⟨rfl, rfl⟩).bind_nil ?_
    simp only [if_true]
    refine (unpackIndefPairs_accepts hm pairs t [] hnames ih).bind ?_
    exact (cborUnpackEnd_complete true [breakByte] t () rfl).bind_end (Accepts.pure _ t)

end Ample

end Libjeffpc.Cbor
