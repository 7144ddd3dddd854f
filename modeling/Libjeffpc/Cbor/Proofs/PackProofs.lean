import Libjeffpc.Cbor.Proofs.CompleteProofs

/-!
# What is packed is a data item

A packing function that succeeds has appended bytes to the buffer. These form a data item whose
meaning is the value packed.
-/

namespace Libjeffpc.Cbor

open Lib Libjeffpc.Int

/-- A heap buffer. -/
structure IsHeap (b : Buffer) : Prop where
  valid : b.Valid
  ops : b.ops = .heap

/-- When `f` succeeds on a heap buffer, it has appended bytes that satisfy `P`. -/
def Packs (f : BufM Unit) (P : Bytes → Prop) : Prop :=
  ∀ b k s, IsHeap b → Returns f ⟨b, k⟩ (.ok ()) s →
    ∃ p, P p ∧ IsHeap s.buffer ∧ s.buffer.contents = b.contents ++ p

namespace Packs

variable {f g : BufM Unit} {P Q R : Bytes → Prop}

theorem mono (h : Packs f P) (hP : ∀ p, p.length ≤ ssizeMax → P p → Q p) : Packs f Q := by
  intro b k s hb hret
  obtain ⟨p, hp, hs, hc⟩ := h b k s hb hret
  refine ⟨p, hP p ?_ hp, hs, hc⟩
  have hlen := hs.valid.length_contents
  have hle := hs.valid.size_le_ssizeMax
  rw [hc, List.length_append] at hlen
  omega

/-- What is appended fits in memory. -/
theorem fits (h : Packs f P) : Packs f fun p => p.length ≤ ssizeMax ∧ P p :=
  h.mono fun _ hlen hp => ⟨hlen, hp⟩

theorem bind (hf : Packs f P) (hg : Packs g Q) :
    Packs (f >>= fun _ => g) fun p => ∃ p1 p2, p = p1 ++ p2 ∧ P p1 ∧ Q p2 := by
  intro b k s hb hret
  obtain ⟨_, s1, h1, h2⟩ := hret.of_bind
  obtain ⟨p1, hp1, hs1, hc1⟩ := hf b k s1 hb h1
  obtain ⟨p2, hp2, hs2, hc2⟩ := hg s1.buffer s1.allocs s hs1 h2
  exact ⟨p1 ++ p2, ⟨p1, p2, rfl, hp1, hp2⟩, hs2, by rw [hc2, hc1, List.append_assoc]⟩

theorem pure : Packs (Pure.pure ()) fun p => p = [] := by
  intro b k s hb hret
  obtain ⟨_, rfl⟩ := (Returns.pure () _).unique hret
  exact ⟨[], rfl, hb, (List.append_nil _).symm⟩

end Packs

variable (m : Machine)

/-! ## Appending -/

/-- `resize` that succeeds: there was room, or the memory is a longer one that starts with the old
bytes. -/
theorem resize_ok {b : Buffer} (hb : b.ops = .heap) {k newsize : Nat} {s : BufferState}
    (h : Returns (resize m newsize) ⟨b, k⟩ (.ok ()) s) :
    (s.buffer = b ∧ newsize ≤ b.allocsize) ∨ (newsize ≤ ssizeMax ∧ ∃ tmp, tmp.length = newsize ∧
      b.memory.take newsize <+: tmp ∧
      s.buffer = { b with data := some tmp, allocsize := newsize }) := by
  have h := h.tail (returns_getBuffer _)
  simp only at h
  split_ifs at h with hroom hops
  · exact .inl ⟨by rw [← ((Returns.pure () _).unique h).2], hroom⟩
  · exact absurd hb hops
  · have h := h.tail (returns_request m _ _)
    split_ifs at h with hgrant
    · have hs := ((returns_setBuffer _ _).unique h).2
      refine .inr ⟨m.grants_le _ _ hgrant, _, ?_, List.prefix_append _ _,
        congrArg BufferState.buffer hs.symm⟩
      have hlen : (b.memory.take newsize).length ≤ newsize := List.length_take_le _ _
      rw [show b.data.getD [] = b.memory from rfl, List.length_append, List.length_map, List.length_range]
      omega
    · cases ((Returns.throw _ _).unique h).1

/-- Writing behind the bytes that are filled. -/
theorem copyin_ok {b b' : Buffer} (hb : b.ops = .heap) {data : Bytes}
    (h : b.copyin b.size data = pure b') : b.size + data.length ≤ b.memory.length ∧
      b' = { b with data := some (b.memory.take b.size ++ data ++
        b.memory.drop (b.size + data.length)) } := by
  unfold Buffer.copyin at h
  rw [hb] at h
  cases hd : b.data with
  | none =>
    rw [hd] at h
    cases h
  | some mem =>
    have hm : b.memory = mem := by simp [Buffer.memory, hd]
    rw [hd] at h
    simp only [deref_some, pure_bind] at h
    split_ifs at h with hle
    · rw [hm, hb]
      exact ⟨hle, (pure_inj h).symm⟩
    · cases h

/-- The buffer after bytes have been copied behind those that were filled. -/
theorem appended {b : Buffer} {data : Bytes} (hops : b.ops = .heap) (hoff : b.off ≤ b.size)
    (hroom : b.size + data.length ≤ b.allocsize) (halloc : b.allocsize ≤ b.memory.length)
    (hmem : b.memory.length ≤ ssizeMax) {b' : Buffer}
    (h : b' = { b with
      data := some (b.memory.take b.size ++ data ++ b.memory.drop (b.size + data.length))
      size := b.size + data.length }) : IsHeap b' ∧ b'.contents = b.contents ++ data := by
  have htake : (b.memory.take b.size).length = b.size := by
    rw [List.length_take]
    omega
  have hlen : b'.memory.length = b.memory.length := by
    rw [h]
    simp only [Buffer.memory, Option.getD_some, List.length_append, List.length_drop]
    rw [show (b.data.getD []).length = b.memory.length from rfl,
      show (List.take b.size (b.data.getD [])).length = b.size from htake]
    omega
  refine ⟨⟨⟨?_, ?_, ?_, ?_, ?_⟩, ?_⟩, ?_⟩
  · rw [h]
    simp [hops]
  · rw [h]
    exact hoff.trans (by simp)
  · rw [h]
    exact hroom
  · rw [hlen, h]
    exact halloc
  · rw [hlen]
    exact hmem
  · rw [h]
    exact hops
  · rw [h]
    show (b.memory.take b.size ++ data ++ b.memory.drop (b.size + data.length)).take
      (b.size + data.length) = b.memory.take b.size ++ data
    rw [List.take_left' (by rw [List.length_append, htake])]

theorem bufferAppend_packs (data : Bytes) : Packs (bufferAppend m data) fun p => p = data := by
  intro b k s hb h
  have hok : b.checkAppend data.length = .ok () := by rw [Buffer.checkAppend, hb.ops]
  have h1 := h.tail (returns_getBuffer _)
  simp only [hok] at h1
  have h2 := h1.tail (returns_liftExcept _ _)
  split_ifs at h2 with h0
  · obtain ⟨_, rfl⟩ := (Returns.pure () _).unique h2
    exact ⟨[], (List.eq_nil_of_length_eq_zero h0).symm, hb, (List.append_nil _).symm⟩
  · obtain ⟨_, s1, hresize, h3⟩ := h2.of_bind
    obtain ⟨b2, s2, hcopy, h4⟩ := (h3.tail (returns_getBuffer _)).of_bind
    obtain ⟨hcopy, hs2⟩ := hcopy.of_lift
    have hs := ((returns_setBuffer _ _).unique h4).2
    have hsb : s.buffer = { b2 with size := addSize b2.size data.length } := by rw [← hs]
    have hvalid := hb.valid
    rcases resize_ok m hb.ops hresize with ⟨hb1, hroom⟩ | ⟨hle, tmp, htmp, hpre, hb1⟩
    · rw [hb1] at hcopy
      obtain ⟨hbound, rfl⟩ := copyin_ok hb.ops hcopy
      have hadd : addSize b.size data.length = b.size + data.length :=
        addSize_of_le (by have := hvalid.memory_le; unfold ssizeMax at this; unfold sizeMax; omega)
      rw [hadd] at hroom
      simp only [hadd] at hsb
      obtain ⟨hheap, hcont⟩ := appended hb.ops hvalid.off_le hroom hvalid.alloc_le hvalid.memory_le hsb
      exact ⟨data, rfl, hheap, hcont⟩
    · have hops1 : s1.buffer.ops = .heap := by rw [hb1]; exact hb.ops
      have hmem1 : s1.buffer.memory = tmp := by rw [hb1]; rfl
      have hsize1 : s1.buffer.size = b.size := by rw [hb1]
      obtain ⟨hbound, rfl⟩ := copyin_ok hops1 hcopy
      rw [hmem1, hsize1, htmp] at hbound
      have hadd : addSize b.size data.length = b.size + data.length := by
        refine addSize_of_le ?_
        unfold ssizeMax at hle
        unfold sizeMax
        omega
      rw [hadd] at htmp hle
      have hcont1 : s1.buffer.contents = b.contents := by
        obtain ⟨more, rfl⟩ := hpre
        have hsz := hvalid.size_le_memory
        show s1.buffer.memory.take s1.buffer.size = b.memory.take b.size
        rw [hmem1, hsize1, hadd, List.take_append_of_le_length
          (by rw [List.length_take]; omega), List.take_take, Nat.min_eq_left (by omega)]
      have hsb : s.buffer = { s1.buffer with
          data := some (s1.buffer.memory.take s1.buffer.size ++ data ++
            s1.buffer.memory.drop (s1.buffer.size + data.length))
          size := s1.buffer.size + data.length } := by
        rw [hsb, hsize1]
        simp only [hadd]
      obtain ⟨hheap, hcont⟩ := appended hops1 (by rw [hb1]; exact hvalid.off_le)
        (by rw [hsize1, hb1]; exact hadd.ge) (by rw [hmem1, htmp, hb1]; exact hadd.le)
        (by rw [hmem1, htmp]; exact hle) hsb
      exact ⟨data, rfl, hheap, by rw [hcont, hcont1]⟩

/-! ## Heads -/

theorem mktype_eq (type : MajorType) {additional : UInt8} (h : additional.toNat < 32) :
    mktype type additional = pure (typeByte type additional.toNat) := by
  have hall : ∀ n : Fin 32, UInt8.ofNat n &&& ~~~0x1f = 0 ∧
      (type.code <<< 5) ||| UInt8.ofNat n = typeByte type n := by
    cases type <;> decide
  obtain ⟨hmask, hbyte⟩ := hall ⟨additional.toNat, h⟩
  simp only [UInt8.ofNat_toNat] at hmask hbyte
  rw [mktype, hmask, decide_eq_true rfl, assert_true, pure_bind, hbyte]

theorem packCborTypeByte_packs (type : MajorType) {additional : UInt8} (h : additional.toNat < 32) :
    Packs (packCborTypeByte m type additional) fun p => p = [typeByte type additional.toNat] := by
  intro b k s hb hret
  unfold packCborTypeByte at hret
  rw [mktype_eq type h] at hret
  exact bufferAppend_packs m _ b k s hb (hret.tail (Returns.lift _ _))

/-- An argument that does not fit in the first byte. -/
theorem packArg_packs (type : MajorType) {addl : UInt8} (h : addl.toNat < 32) (arg : Bytes) :
    Packs (packCborTypeByte m type addl >>= fun _ => bufferAppend m arg) fun p =>
      p = typeByte type addl.toNat :: arg := by
  refine ((packCborTypeByte_packs m type h).bind (bufferAppend_packs m arg)).mono ?_
  rintro p _ ⟨_, _, rfl, rfl, rfl⟩
  rfl

theorem packCborType_small (type : MajorType) {v : UInt64} (h : v.toNat ≤ 23) :
    Packs (packCborType m type v) fun p => p = [typeByte type v.toNat] := by
  have h23 : v ≤ 23 := by simpa [UInt64.le_iff_toNat_le] using h
  have hnat : v.toUInt8.toNat = v.toNat := by
    rw [UInt64.toNat_toUInt8]
    omega
  unfold packCborType
  rw [if_pos h23]
  refine (packCborTypeByte_packs m type (by omega)).mono ?_
  rintro p _ rfl
  rw [hnat]

theorem packCborType_packs (type : MajorType) (v : UInt64) :
    Packs (packCborType m type v) fun p => Head type p v.toNat := by
  by_cases h23 : v.toNat ≤ 23
  · refine (packCborType_small m type h23).mono ?_
    rintro p _ rfl
    exact .direct h23
  unfold packCborType
  rw [if_neg (by simpa [UInt64.le_iff_toNat_le] using h23)]
  split_ifs with h8 h16 h32
  · have hle : v.toNat ≤ 0xff := by simpa [UInt64.le_iff_toNat_le] using h8
    have hnat : v.toUInt8.toNat = v.toNat := by
      rw [UInt64.toNat_toUInt8]
      omega
    refine (packArg_packs m type (by decide) _).mono ?_
    rintro p _ rfl
    rw [store_cpu8ToBe, hnat]
    nth_rewrite 2 [← beValue_beBytes (w := 1) (n := v.toNat) (by omega)]
    exact .one (length_beBytes _ _)
  · have hle : v.toNat ≤ 0xffff := by simpa [UInt64.le_iff_toNat_le] using h16
    have hnat : v.toUInt16.toNat = v.toNat := by
      rw [UInt64.toNat_toUInt16]
      omega
    refine (packArg_packs m type (by decide) _).mono ?_
    rintro p _ rfl
    rw [store_cpu16ToBe, hnat]
    nth_rewrite 2 [← beValue_beBytes (w := 2) (n := v.toNat) (by omega)]
    exact .two (length_beBytes _ _)
  · have hle : v.toNat ≤ 0xffffffff := by simpa [UInt64.le_iff_toNat_le] using h32
    have hnat : v.toUInt32.toNat = v.toNat := by
      rw [UInt64.toNat_toUInt32]
      omega
    refine (packArg_packs m type (by decide) _).mono ?_
    rintro p _ rfl
    rw [store_cpu32ToBe, hnat]
    nth_rewrite 2 [← beValue_beBytes (w := 4) (n := v.toNat) (by omega)]
    exact .four (length_beBytes _ _)
  · refine (packArg_packs m type (by decide) _).mono ?_
    rintro p _ rfl
    have hlt := UInt64.toNat_lt v
    rw [store_cpu64ToBe]
    nth_rewrite 2 [← beValue_beBytes (w := 8) (n := v.toNat) (by omega)]
    exact .eight (length_beBytes _ _)

theorem ofNat_toNat {k : Nat} (h : k ≤ ssizeMax) : (UInt64.ofNat k).toNat = k := by
  unfold ssizeMax at h
  rw [UInt64.toNat_ofNat', Nat.mod_eq_of_lt (by omega)]

theorem cborPackStr_packs (s : CStr) : Packs (cborPackStr m s) fun p => Text p s.1 := by
  refine ((packCborType_packs m .text _).bind (bufferAppend_packs m s.1)).mono ?_
  rintro p hp ⟨h, _, rfl, hh, rfl⟩
  rw [List.length_append] at hp
  rw [ofNat_toNat (by omega)] at hh
  exact .mk hh

/-! ## Values -/

/-- The values that are packed: the six types, nvlists with every name once and in the order of the
tree, and arrays that fit in memory. -/
inductive Plain : Val → Prop
  | null : Plain .null
  | int (i : UInt64) : Plain (.int i)
  | bool (b : Bool) : Plain (.bool b)
  | str (s : CStr) : Plain (.str s)
  | array {vals : List Val} (hroom : HasRoom vals.length) (h : ∀ v ∈ vals, Plain v) :
      Plain (.array vals)
  | nvl {pairs : List (CStr × Val)} (hsorted : NvSorted pairs) (h : ∀ p ∈ pairs, Plain p.2) :
      Plain (.nvl pairs)

/-- The start of an array or a map whose length is not the unknown one. -/
theorem cborPackStart_packs (type : MajorType) (indef : UInt8) {nelem : UInt64}
    (h : nelem ≠ cborUnknownNelem) :
    Packs (cborPackStart m type indef nelem) fun p => Head type p nelem.toNat := by
  unfold cborPackStart
  rw [if_pos h]
  exact packCborType_packs m type nelem

theorem cborPackEnd_packs {nelem : UInt64} (h : nelem ≠ cborUnknownNelem) :
    Packs (cborPackEnd m nelem) fun p => p = [] := by
  unfold cborPackEnd
  rw [if_pos h]
  exact Packs.pure

theorem cborPackStart_any (type : MajorType) {indef : UInt8} (h : indef.toNat < 32) (nelem : UInt64) :
    Packs (cborPackStart m type indef nelem) fun _ => True := by
  unfold cborPackStart
  split_ifs
  · exact (packCborType_packs m type nelem).mono fun _ _ _ => trivial
  · exact (packCborTypeByte_packs m type h).mono fun _ _ _ => trivial

theorem cborPackEnd_any (nelem : UInt64) : Packs (cborPackEnd m nelem) fun _ => True := by
  unfold cborPackEnd
  split_ifs
  · exact Packs.pure.mono fun _ _ _ => trivial
  · exact (@packCborTypeByte_packs m .float 31 (by decide)).mono fun _ _ _ => trivial

theorem packElems_packs {vals : List Val}
    (h : ∀ v ∈ vals, Packs (cborPackVal m v) fun p => Item HasRoom p v) :
    Packs (packElems m vals) fun p => ∃ items : List (Bytes × Val), (∀ x ∈ items, Item HasRoom x.1 x.2) ∧
      p = (items.map Prod.fst).flatten ∧ vals = items.map Prod.snd := by
  induction vals with
  | nil =>
    rw [packElems]
    exact Packs.pure.mono fun p _ hp => ⟨[], by simp, by simpa using hp, rfl⟩
  | cons v vals ih =>
    obtain ⟨hv, hvals⟩ := List.forall_mem_cons.mp h
    rw [packElems]
    refine (hv.bind (ih hvals)).mono ?_
    rintro p _ ⟨p1, p2, rfl, hitem, items, hitems, rfl, rfl⟩
    exact ⟨(p1, v) :: items, List.forall_mem_cons.mpr ⟨hitem, hitems⟩, by simp, by simp⟩

theorem packPairs_packs {pairs : List (CStr × Val)}
    (h : ∀ p ∈ pairs, Packs (cborPackVal m p.2) fun bs => Item HasRoom bs p.2) :
    Packs (packPairs m pairs) fun bs => ∃ ps : List PairItem, (∀ p ∈ ps, Text p.nameBytes p.name) ∧
      (∀ p ∈ ps, Item HasRoom p.valueBytes p.value) ∧ bs = (ps.map PairItem.bytes).flatten ∧
      pairs = ps.map PairItem.pair := by
  induction pairs with
  | nil =>
    rw [packPairs]
    exact Packs.pure.mono fun p _ hp => ⟨[], by simp, by simp, by simpa using hp, rfl⟩
  | cons q pairs ih =>
    obtain ⟨name, value⟩ := q
    obtain ⟨hv, hpairs⟩ := List.forall_mem_cons.mp h
    rw [packPairs]
    refine ((cborPackStr_packs m name).bind (hv.bind (ih hpairs))).mono ?_
    rintro p _ ⟨p1, _, rfl, htext, p2, p3, rfl, hitem, ps, hnames, hvalues, rfl, rfl⟩
    refine ⟨⟨p1, name.1, p2, value⟩ :: ps, List.forall_mem_cons.mpr ⟨htext, hnames⟩,
      List.forall_mem_cons.mpr ⟨hitem, hvalues⟩, by simp [PairItem.bytes], ?_⟩
    simp [PairItem.pair, cstr_val]

theorem ofNat_ne_unknown {k : Nat} (h : k ≤ ssizeMax) : UInt64.ofNat k ≠ cborUnknownNelem := by
  intro he
  have hnat := congrArg UInt64.toNat he
  rw [ofNat_toNat h, show cborUnknownNelem.toNat = 2 ^ 64 - 1 from rfl] at hnat
  unfold ssizeMax at h
  omega

theorem cborPackVal_packs {v : Val} (h : Plain v) :
    Packs (cborPackVal m v) fun p => Item HasRoom p v := by
  induction h with
  | null =>
    rw [cborPackVal]
    refine (packCborType_small m .float (by decide)).mono ?_
    rintro p _ rfl
    exact .null
  | int i =>
    rw [cborPackVal]
    refine (packCborType_packs m .uint i).mono fun p _ hp => ?_
    have hitem : Item HasRoom p (.int (.ofNat i.toNat)) := .uint hp
    rwa [UInt64.ofNat_toNat] at hitem
  | bool b =>
    rw [cborPackVal]
    cases b with
    | false =>
      refine (packCborType_small m .float (by decide)).mono ?_
      rintro p _ rfl
      exact .false
    | true =>
      refine (packCborType_small m .float (by decide)).mono ?_
      rintro p _ rfl
      exact .true
  | str s =>
    rw [cborPackVal]
    refine (cborPackStr_packs m s).mono fun p _ hp => ?_
    have hitem : Item HasRoom p (.str (cstr s.1)) := .text hp
    rwa [cstr_val] at hitem
  | @array vals hroom h ih =>
    rw [cborPackVal]
    have hle : vals.length ≤ ssizeMax := by
      unfold HasRoom ptrSize at hroom
      omega
    have hne := ofNat_ne_unknown hle
    refine ((cborPackStart_packs m .array _ hne).bind ((packElems_packs m ih).bind
      (cborPackEnd_packs m hne))).mono ?_
    rintro p _ ⟨hd, _, rfl, hh, _, _, rfl, ⟨items, hitems, rfl, rfl⟩, rfl⟩
    rw [ofNat_toNat hle, List.length_map] at hh
    rw [List.length_map] at hroom
    rw [List.append_nil]
    exact .array items hh hroom hitems
  | @nvl pairs hsorted h ih =>
    rw [cborPackVal]
    intro b k s hb hret
    -- every pair takes at least a byte, so their number is not the one that stands for "unknown"
    have hle : pairs.length ≤ ssizeMax := by
      obtain ⟨p, ⟨hlen, _, _, rfl, _, _, _, rfl, ⟨ps, hnames, _, rfl, rfl⟩, _⟩, _⟩ :=
        ((cborPackStart_any m .map (by decide) _).bind ((packPairs_packs m ih).bind
          (cborPackEnd_any m _))).fits b k s hb hret
      have hpairs := length_le_flatten (ps.map PairItem.bytes) fun bs hbs => by
        obtain ⟨p, hp, rfl⟩ := List.mem_map.mp hbs
        simp [PairItem.bytes, (hnames p hp).ne_nil]
      simp only [List.length_append, List.length_map] at hlen hpairs ⊢
      omega
    have hne := ofNat_ne_unknown hle
    refine (((cborPackStart_packs m .map _ hne).bind ((packPairs_packs m ih).bind
      (cborPackEnd_packs m hne))).mono ?_) b k s hb hret
    rintro p _ ⟨hd, _, rfl, hh, _, _, rfl, ⟨ps, hnames, hvalues, rfl, rfl⟩, rfl⟩
    rw [ofNat_toNat hle, List.length_map] at hh
    rw [List.append_nil]
    refine .map ps hh hnames hvalues ⟨hsorted, fun name => ?_⟩
    exact (hsorted.lookup_reverse strcmp_isCmp name).symm

end Libjeffpc.Cbor
