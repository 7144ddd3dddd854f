import Libjeffpc.Cbor.Entry
import Libjeffpc.Cbor.Proofs.PackProofs

/-!
# What packing and unpacking guarantee
-/

namespace Libjeffpc.Cbor

open Lib

/-! ## Unpacking undoes packing -/

/-- An empty heap buffer. -/
theorem isHeap_bufferInitHeap (m : Machine) {expectedSize : Nat} (h : expectedSize ≤ ssizeMax) :
    IsHeap (bufferInitHeap m expectedSize) := by
  have hlen : (bufferInitHeap m expectedSize).memory.length = if expectedSize = 0 then 1 else expectedSize := by
    simp [bufferInitHeap, Buffer.memory]
  refine ⟨⟨by simp [bufferInitHeap], le_refl 0, Nat.zero_le _, ?_, ?_⟩, rfl⟩
  · rw [hlen]
    show expectedSize ≤ _
    split_ifs <;> omega
  · rw [hlen]
    split_ifs
    · decide
    · exact h

theorem cborUnpackVal_accepts {m : Machine} (hm : m.Ample) {bs : Bytes} {v : Val}
    (h : Item HasRoom bs v) (t : Bytes) : Accepts (cborUnpackVal m) bs t v :=
  withTmp_complete (G := fun bs' t' v' => bs' = bs ∧ t' = t ∧ v' = v)
    (by rintro _ _ _ ⟨rfl, rfl, rfl⟩; exact unpackCborVal_accepts hm h _) bs t v ⟨rfl, rfl, rfl⟩

/-- When a value has been packed into an empty buffer, unpacking the bytes gives it back, whatever
follows them. -/
theorem cbor_unpack_undoes_pack (mPack mUnpack : Machine) (hm : mUnpack.Ample) (v : Val)
    (hv : Plain v) (expectedSize : Nat) (hsize : expectedSize ≤ ssizeMax) (k : Nat)
    (packed : BufferState)
    (hpack : Returns (cborPackVal mPack v) ⟨bufferInitHeap mPack expectedSize, k⟩ (.ok ()) packed)
    (rest : Bytes) (b : Buffer) (hb : b.Valid) (hoff : b.off = 0)
    (hcontents : b.contents = packed.buffer.contents ++ rest) (k' : Nat) :
    ∃ s, Returns (cborUnpackVal mUnpack) ⟨b, k'⟩ (.ok v) s ∧
      s.buffer = { b with off := packed.buffer.contents.length } := by
  have hheap := isHeap_bufferInitHeap mPack hsize
  obtain ⟨p, hitem, _, hp⟩ := cborPackVal_packs mPack hv _ k packed hheap hpack
  have hempty : (bufferInitHeap mPack expectedSize).contents = [] := by
    simp [Buffer.contents, bufferInitHeap]
  rw [hempty, List.nil_append] at hp
  have hrest : b.rest = p ++ rest := by rw [Buffer.rest, hoff, List.drop_zero, hcontents, hp]
  obtain ⟨k'', hret⟩ := cborUnpackVal_accepts hm hitem rest b k' hb hrest
  refine ⟨_, hret, ?_⟩
  rw [hp]
  simp only [Buffer.advance, hoff, Nat.zero_add]

/-- An array with a number and a map in it, and a byte behind it. -/
theorem cbor_unpack_undoes_pack_nested : ∃ packed,
    Returns (cborPackVal .plenty (.array [.int 500, .nvl [(cstr [0x61], .bool true)]]))
      ⟨bufferInitHeap .plenty 0, 0⟩ (.ok ()) packed ∧
    packed.buffer.contents = [0x82, 0x19, 0x01, 0xf4, 0xa1, 0x61, 0x61, 0xf5] ∧
    ∃ s, Returns (cborUnpackVal .plenty) ⟨.ofBytes [0x82, 0x19, 0x01, 0xf4, 0xa1, 0x61, 0x61, 0xf5, 0xff], 0⟩
        (.ok (.array [.int 500, .nvl [(cstr [0x61], .bool true)]])) s ∧
      s.buffer = { Buffer.ofBytes [0x82, 0x19, 0x01, 0xf4, 0xa1, 0x61, 0x61, 0xf5, 0xff] with off := 8 } := by
  have hpack : Returns (cborPackVal .plenty (.array [.int 500, .nvl [(cstr [0x61], .bool true)]]))
      ⟨bufferInitHeap .plenty 0, 0⟩ (.ok ())
      ⟨⟨some [0x82, 0x19, 0x01, 0xf4, 0xa1, 0x61, 0x61, 0xf5], 0, 8, 8, .heap⟩, 7⟩ := by
    simp only [cborPackVal, packElems, packPairs]
    rfl
  have hmap : Plain (.nvl [(cstr [0x61], .bool true)]) := by
    refine .nvl (List.pairwise_singleton _ _) fun p hp => ?_
    obtain rfl := List.mem_singleton.mp hp
    exact .bool true
  have hplain : Plain (.array [.int 500, .nvl [(cstr [0x61], .bool true)]]) := by
    refine .array (by unfold HasRoom; decide) ?_
    rw [List.forall_mem_cons, List.forall_mem_singleton]
    exact ⟨.int 500, hmap⟩
  exact ⟨_, hpack, rfl, cbor_unpack_undoes_pack .plenty .plenty Machine.plenty_ample _ hplain 0 (by decide) 0 _ hpack
    [0xff] (.ofBytes [0x82, 0x19, 0x01, 0xf4, 0xa1, 0x61, 0x61, 0xf5, 0xff]) (Buffer.ofBytes_valid (by decide)) rfl
    rfl 0⟩

/-! ## Which bytes are accepted -/

/-- The arrays of an item that is short enough have room in memory. -/
theorem Item.hasRoom {room : Nat → Prop} {bs : Bytes} {v : Val} (h : Item room bs v)
    (hlen : bs.length < 2 ^ 60) : Item HasRoom bs v := by
  have hroom : ∀ {items : List (Bytes × Val)}, (∀ x ∈ items, Item room x.1 x.2) →
      (items.map Prod.fst).flatten.length < 2 ^ 60 → HasRoom items.length := by
    intro items hitems hlt
    have hle := length_le_flatten (items.map Prod.fst) fun b hb => by
      obtain ⟨x, hx, rfl⟩ := List.mem_map.mp hb
      exact (hitems x hx).ne_nil
    rw [List.length_map] at hle
    unfold HasRoom ptrSize ssizeMax
    omega
  have hpart : ∀ {l : List Bytes} {b : Bytes}, b ∈ l → b.length ≤ l.flatten.length :=
    fun hb => (List.sublist_flatten_of_mem hb).length_le
  induction h with
  | uint h => exact .uint h
  | text h => exact .text h
  | false => exact .false
  | true => exact .true
  | null => exact .null
  | array items hh _ hitems ih =>
    rw [List.length_append] at hlen
    refine .array items hh (hroom hitems (by omega)) fun x hx => ih x hx ?_
    have := hpart (List.mem_map_of_mem (f := Prod.fst) hx)
    omega
  | arrayIndef items _ hitems ih =>
    rw [List.length_append, List.length_cons] at hlen
    refine .arrayIndef items (hroom hitems (by omega)) fun x hx => ih x hx ?_
    have := hpart (List.mem_map_of_mem (f := Prod.fst) hx)
    omega
  | map pairs hh hnames hvalues hnvl ih =>
    rw [List.length_append] at hlen
    refine .map pairs hh hnames (fun p hp => ih p hp ?_) hnvl
    have := hpart (List.mem_map_of_mem (f := PairItem.bytes) hp)
    rw [PairItem.bytes, List.length_append] at this
    omega
  | mapIndef pairs hnames hvalues hnvl ih =>
    rw [List.length_append, List.length_cons] at hlen
    refine .mapIndef pairs hnames (fun p hp => ih p hp ?_) hnvl
    have := hpart (List.mem_map_of_mem (f := PairItem.bytes) hp)
    rw [PairItem.bytes, List.length_append] at this
    omega

theorem cborUnpackVal_atomic (m : Machine) (n : Nat) :
    Atomic n (cborUnpackVal m) fun bs _ v => DataItem bs v :=
  withTmp_atomic (unpackCborVal_sound m n)

/-- `cbor_unpack_val` succeeds exactly if the bytes start with a data item; it then consumes the item
and returns its meaning. Otherwise it returns an error. -/
theorem cbor_unpack_val_accepts_items (m : Machine) (hm : m.Ample) (bytes : Bytes)
    (hlen : bytes.length < 2 ^ 60) (b : Buffer) (hb : b.Valid) (hrest : b.rest = bytes) (k : Nat) :
    ∃ r s, Returns (cborUnpackVal m) ⟨b, k⟩ r s ∧
      (∀ n v, (r = .ok v ∧ s.buffer = b.advance n) ↔ n ≤ bytes.length ∧ DataItem (bytes.take n) v) ∧
      ((∃ e, r = .error e) ↔ ∀ n v, ¬ DataItem (bytes.take n) v) := by
  obtain ⟨r, s, hret, hspec⟩ := cborUnpackVal_atomic m b.rest.length b k hb le_rfl
  have haccept : ∀ n v, n ≤ bytes.length → DataItem (bytes.take n) v →
      r = .ok v ∧ s.buffer = b.advance n := by
    intro n v hn hitem
    have htake : (bytes.take n).length = n := by rw [List.length_take, Nat.min_eq_left hn]
    have hsplit : b.rest = bytes.take n ++ bytes.drop n := by rw [hrest, List.take_append_drop]
    obtain ⟨k', hret'⟩ := cborUnpackVal_accepts hm (hitem.hasRoom (by omega)) _ b k hb hsplit
    obtain ⟨hr, hs⟩ := hret.unique hret'
    exact ⟨hr, by rw [hs, htake]⟩
  have hreject : ∀ e, r = .error e → ∀ n v, ¬ DataItem (bytes.take n) v := by
    intro e he n v hitem
    have hmin : bytes.take n = bytes.take (min n bytes.length) := by
      rw [List.take_eq_take_iff, Nat.min_assoc, Nat.min_self]
    rw [hmin] at hitem
    have hok := (haccept _ v (Nat.min_le_right _ _) hitem).1
    rw [he] at hok
    cases hok
  refine ⟨r, s, hret, fun n v => ⟨?_, fun h => haccept n v h.1 h.2⟩, ?_⟩
  · rintro ⟨rfl, hs⟩
    obtain ⟨bs, t, hr, hs', hitem⟩ := hspec
    have hn : n = bs.length := by
      have := congrArg Buffer.off (hs.symm.trans hs')
      simpa using this
    subst hn
    rw [← hrest, hr, List.take_left, List.length_append]
    exact ⟨Nat.le_add_right _ _, hitem⟩
  · refine ⟨fun ⟨e, he⟩ => hreject e he, fun hno => ?_⟩
    cases r with
    | error e => exact ⟨e, rfl⟩
    | ok v =>
      obtain ⟨bs, t, hr, _, hitem⟩ := hspec
      refine absurd hitem (fun h => hno bs.length v ?_)
      rwa [← hrest, hr, List.take_left]

/-- An array with an array of indefinite length in it. -/
theorem cbor_unpack_val_accepts_items_nested : ∃ r s,
    Returns (cborUnpackVal .plenty) ⟨.ofBytes [0x82, 0x01, 0x9f, 0xf6, 0xff, 0x00], 0⟩ r s ∧
      r = .ok (.array [.int 1, .array [.null]]) ∧ s.buffer.off = 5 := by
  obtain ⟨r, s, hret, hiff, _⟩ := cbor_unpack_val_accepts_items .plenty Machine.plenty_ample
    [0x82, 0x01, 0x9f, 0xf6, 0xff, 0x00] (by decide) (.ofBytes [0x82, 0x01, 0x9f, 0xf6, 0xff, 0x00])
    (Buffer.ofBytes_valid (by decide)) rfl 0
  have hone : DataItem [0x01] (.int 1) := .uint (@Head.direct .uint 1 (by decide))
  have hinner : DataItem [0x9f, 0xf6, 0xff] (.array [.null]) :=
    .arrayIndef [([0xf6], .null)] trivial (List.forall_mem_singleton.mpr .null)
  have houter : DataItem [0x82, 0x01, 0x9f, 0xf6, 0xff] (.array [.int 1, .array [.null]]) :=
    .array [([0x01], .int 1), ([0x9f, 0xf6, 0xff], .array [.null])] (@Head.direct .array 2 (by decide)) trivial
      (List.forall_mem_cons.mpr ⟨hone, List.forall_mem_singleton.mpr hinner⟩)
  obtain ⟨hr, hs⟩ := (hiff 5 _).mpr ⟨by decide, houter⟩
  exact ⟨r, s, hret, hr, by rw [hs]; rfl⟩

/-! ## All or nothing -/

/-- A string whose value gets no memory is consumed although an error is reported. -/
theorem cborUnpackStr_loses {m : Machine} {b : Buffer} (hb : b.Valid) {k : Nat} {bs t payload : Bytes}
    (hr : b.rest = bs ++ t) (h : Text bs payload)
    (hbytes : m.grants k (.bytes (payload.length + 1)) = true)
    (hpre : getPreallocated (cstr payload) = false) (hval : m.grants (k + 1) .val = false) :
    Returns (cborUnpackStr m) ⟨b, k⟩ (.error .ENOMEM) ⟨b.advance bs.length, k + 2⟩ := by
  have hreq := returns_request m .val ⟨b.advance bs.length, k + 1⟩
  rw [hval] at hreq
  refine ((cborUnpackCstrLen_text m hb k hr h).1 hbytes).bind ?_
  unfold strAlloc
  rw [hpre]
  exact hreq.bind (Returns.throw _ _)

/-- Otherwise the string is there, or the buffer has not changed. -/
theorem cborUnpackStr_keeps {m : Machine} {b : Buffer} (hb : b.Valid) {k : Nat}
    (h : ¬ Entry.LosesText m ⟨b, k⟩) : Entry.Promise m .str ⟨b, k⟩ := by
  obtain ⟨r, s, hret, hspec⟩ := cborUnpackCstrLen_atomic m b.rest.length b k hb le_rfl
  cases r with
  | error e =>
    exact Triple.of_returns hret.bind_error hspec
  | ok payload =>
    obtain ⟨bs, t, hr, hs, htext⟩ := hspec
    obtain ⟨hgranted, hrefused⟩ := cborUnpackCstrLen_text m hb k hr htext
    cases hbytes : m.grants k (.bytes (payload.length + 1)) with
    | false =>
      cases (hret.unique (hrefused hbytes)).1
    | true =>
      have hlen := hgranted hbytes
      have hdone : ∀ {k'}, AllOrNothing b (fun bs _ a => Entry.str.Consumes bs a) (.ok (cstr payload))
          ⟨b.advance bs.length, k'⟩ := ⟨bs, t, hr, rfl, payload, htext, rfl⟩
      cases hpre : getPreallocated (cstr payload) with
      | true =>
        have halloc : Returns (strAlloc m payload) ⟨b.advance bs.length, k + 1⟩ (.ok (cstr payload))
            ⟨b.advance bs.length, k + 1⟩ := by
          unfold strAlloc
          rw [hpre]
          exact Returns.pure _ _
        exact Triple.of_returns (hlen.bind halloc) hdone
      | false =>
        have hval : m.grants (k + 1) .val = true := by
          by_contra hval
          exact h ⟨bs, t, payload, hr, htext, hbytes, hpre, by simpa using hval⟩
        have hreq := returns_request m .val ⟨b.advance bs.length, k + 1⟩
        rw [hval] at hreq
        have halloc : Returns (strAlloc m payload) ⟨b.advance bs.length, k + 1⟩ (.ok (cstr payload))
            ⟨b.advance bs.length, k + 2⟩ := by
          unfold strAlloc
          rw [hpre]
          exact hreq.bind (Returns.pure _ _)
        exact Triple.of_returns (hlen.bind halloc) hdone

/-- The functions keep their promise, except for `cbor_unpack_str` when a string that is not
preallocated gets its bytes but not its value. -/
theorem cbor_unpack_all_or_nothing_iff (m : Machine) (e : Entry) (b : Buffer) (hb : b.Valid) (k : Nat) :
    e.Promise m ⟨b, k⟩ ↔ ¬ (e = .str ∧ Entry.LosesText m ⟨b, k⟩) := by
  constructor
  · rintro hprom ⟨rfl, bs, t, payload, hr, htext, hbytes, hpre, hval⟩
    have hpost := hprom.post (cborUnpackStr_loses hb hr htext hbytes hpre hval)
    have hoff := congrArg Buffer.off (show b.advance bs.length = b from hpost)
    have hpos := List.length_pos_of_ne_nil htext.ne_nil
    rw [Buffer.off_advance] at hoff
    omega
  · intro h
    cases e with
    | uint => exact cborUnpackUint_atomic b.rest.length b k hb le_rfl
    | nint => exact cborUnpackNint_atomic b.rest.length b k hb le_rfl
    | int => exact cborUnpackInt_atomic b.rest.length b k hb le_rfl
    | cstrLen => exact cborUnpackCstrLen_atomic m b.rest.length b k hb le_rfl
    | str => exact cborUnpackStr_keeps hb fun hl => h ⟨rfl, hl⟩
    | bool => exact cborUnpackBool_atomic b.rest.length b k hb le_rfl
    | null => exact cborUnpackNull_atomic b.rest.length b k hb le_rfl
    | «break» => exact cborUnpackBreak_atomic b.rest.length b k hb le_rfl
    | mapStart => exact cborUnpackMapStart_atomic b.rest.length b k hb le_rfl
    | mapEnd endRequired => exact cborUnpackEnd_atomic b.rest.length endRequired b k hb le_rfl
    | arrayStart => exact cborUnpackArrayStart_atomic b.rest.length b k hb le_rfl
    | arrayEnd endRequired => exact cborUnpackEnd_atomic b.rest.length endRequired b k hb le_rfl
    | val => exact cborUnpackVal_atomic m b.rest.length b k hb le_rfl

/-- There is no memory for the bytes of "ab": the call fails, and the buffer is as before. -/
theorem cbor_unpack_all_or_nothing_iff_refused :
    Entry.str.Promise outOfMemory ⟨.ofBytes [0x62, 0x61, 0x62], 0⟩ ∧
      Returns (cborUnpackStr outOfMemory) ⟨.ofBytes [0x62, 0x61, 0x62], 0⟩ (.error .ENOMEM)
        ⟨.ofBytes [0x62, 0x61, 0x62], 1⟩ := by
  have hvalid : (Buffer.ofBytes [0x62, 0x61, 0x62]).Valid := Buffer.ofBytes_valid (by decide)
  have htext : Text [0x62, 0x61, 0x62] [0x61, 0x62] := @Text.mk [0x62] [0x61, 0x62] (@Head.direct .text 2 (by decide))
  refine ⟨(cbor_unpack_all_or_nothing_iff outOfMemory .str _ hvalid 0).mpr ?_, ?_⟩
  · rintro ⟨-, bs, t, payload, -, -, hbytes, -⟩
    cases hbytes
  · exact Returns.bind_error ((cborUnpackCstrLen_text outOfMemory hvalid 0 (t := []) rfl htext).2 rfl)

/-- A machine that is out of values. -/
def noVals : Machine where
  endian := .little
  grants _ r := match r with
    | .bytes n => n ≤ ssizeMax
    | .val => false
    | .nvpair => true
  grants_le _ _ h := of_decide_eq_true h
  fresh _ := 0

/-- The string "ab" is consumed although ENOMEM is reported. -/
theorem cbor_unpack_str_not_atomic : ¬ Entry.str.Promise noVals ⟨.ofBytes [0x62, 0x61, 0x62], 0⟩ := by
  intro hprom
  have hhead : Head .text [0x62] 2 := @Head.direct .text 2 (by decide)
  have htext : Text [0x62, 0x61, 0x62] [0x61, 0x62] := @Text.mk [0x62] [0x61, 0x62] hhead
  have hlost := @cborUnpackStr_loses noVals (.ofBytes [0x62, 0x61, 0x62]) (Buffer.ofBytes_valid (by decide)) 0
    [0x62, 0x61, 0x62] [] [0x61, 0x62] rfl htext rfl rfl rfl
  have hpost : (Buffer.ofBytes [0x62, 0x61, 0x62]).advance 3 = .ofBytes [0x62, 0x61, 0x62] :=
    hprom.post hlost
  exact absurd hpost (by decide)

end Libjeffpc.Cbor
