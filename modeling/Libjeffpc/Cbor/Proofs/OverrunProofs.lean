import Libjeffpc.Cbor.Proofs.CborProofs
import Libjeffpc.Cbor.Proofs.WorkProofs

/-!
# When unpacking leaves an array, and when it does too much

Exactly on the inputs that claim too much: one direction is the account of what is read, the other one runs the
decoder on such an input, where all memory is granted that `malloc` can give.
-/

namespace Libjeffpc.MemArray

open Lib

/-! ## The helpers -/

variable {answer : Answer} {ptr tmp : Bytes} {nelem oldNelem newNelem size : UInt64}

theorem arrayBytes_eq_mod (nelem size : UInt64) :
    arrayBytes nelem size = nelem.toNat * size.toNat % 2 ^ 64 := UInt64.toNat_mul nelem size

theorem arrayBytes_of_lt (h : nelem.toNat * size.toNat < 2 ^ 64) :
    arrayBytes nelem size = nelem.toNat * size.toNat := by
  rw [arrayBytes_eq_mod, Nat.mod_eq_of_lt h]

theorem arrayBytes_lt (h : ¬nelem.toNat * size.toNat < 2 ^ 64) :
    arrayBytes nelem size < nelem.toNat * size.toNat := by
  rw [arrayBytes_eq_mod]
  omega

theorem length_memReallocarray (h : memReallocarray answer ptr nelem size = some tmp) :
    tmp.length = arrayBytes nelem size := length_realloc h

theorem memReallocarray_some (fresh : Nat → UInt8) (ptr : Bytes) (nelem size : UInt64) :
    ∃ tmp, memReallocarray (some fresh) ptr nelem size = some tmp := ⟨_, rfl⟩

/-- A product that does not fit is cut down. -/
theorem memReallocarray_roomFor_iff (ptr : Bytes) (nelem size : UInt64) :
    (∀ answer, RoomFor (memReallocarray answer ptr nelem size) nelem size) ↔
      nelem.toNat * size.toNat < 2 ^ 64 := by
  constructor
  · intro hroom
    by_contra hlt
    obtain ⟨tmp, htmp⟩ := memReallocarray_some (fun _ => 0) ptr nelem size
    have hle := hroom _ tmp htmp
    have hshort := arrayBytes_lt hlt
    rw [length_memReallocarray htmp] at hle
    omega
  · intro hlt answer tmp htmp
    rw [length_memReallocarray htmp, arrayBytes_of_lt hlt]

theorem length_memRecallocarray {fresh : Nat → UInt8} {block : Option Bytes}
    (h : memRecallocarray (some fresh) ptr oldNelem newNelem size = pure block) :
    ∃ tmp, block = some tmp ∧ tmp.length = arrayBytes newNelem size := by
  obtain ⟨tmp, htmp⟩ := memReallocarray_some fresh ptr newNelem size
  have hlen := length_memReallocarray htmp
  unfold memRecallocarray at h
  simp only [htmp] at h
  split at h
  · by_cases hin : (size * oldNelem).toNat + (size * newNelem - size * oldNelem).toNat ≤ tmp.length
    · rw [clear_eq hin] at h
      exact ⟨_, (pure_inj h).symm, (length_clear hin).trans hlen⟩
    · rw [clear, if_neg hin] at h
      cases h
  · exact ⟨tmp, (pure_inj h).symm, hlen⟩

/-- The new elements, when all sizes fit. -/
theorem memRecallocarray_zeroed (hlt : newNelem.toNat * size.toNat < 2 ^ 64) (answer : Answer) (ptr : Bytes) :
    ZeroedFor (memRecallocarray answer ptr oldNelem newNelem size) oldNelem newNelem size := by
  cases htmp : memReallocarray answer ptr newNelem size with
  | none =>
    refine ⟨none, ?_, fun tmp h => (by cases h), fun tmp h => by cases h⟩
    simp only [memRecallocarray, htmp]
  | some tmp =>
    have hlen := length_memReallocarray htmp
    rw [arrayBytes_of_lt hlt] at hlen
    by_cases hgt : newNelem > oldNelem
    · have hle : oldNelem.toNat * size.toNat ≤ newNelem.toNat * size.toNat :=
        Nat.mul_le_mul_right _ (le_of_lt (UInt64.lt_iff_toNat_lt.mp hgt))
      have hold : (size * oldNelem).toNat = oldNelem.toNat * size.toNat := by
        rw [UInt64.toNat_mul, Nat.mul_comm, Nat.mod_eq_of_lt (by omega)]
      have hnew : (size * newNelem).toNat = newNelem.toNat * size.toNat := by
        rw [UInt64.toNat_mul, Nat.mul_comm, Nat.mod_eq_of_lt hlt]
      have hsub : (size * newNelem - size * oldNelem).toNat =
          newNelem.toNat * size.toNat - oldNelem.toNat * size.toNat := by
        rw [UInt64.toNat_sub_of_le _ _ (by rw [UInt64.le_iff_toNat_le]; omega), hold, hnew]
      have hin : oldNelem.toNat * size.toNat +
          (newNelem.toNat * size.toNat - oldNelem.toNat * size.toNat) ≤ tmp.length := by omega
      have hrun : memRecallocarray answer ptr oldNelem newNelem size = pure (some
          (tmp.take (oldNelem.toNat * size.toNat) ++
            List.replicate (newNelem.toNat * size.toNat - oldNelem.toNat * size.toNat) 0 ++
            tmp.drop (oldNelem.toNat * size.toNat +
              (newNelem.toNat * size.toNat - oldNelem.toNat * size.toNat)))) := by
        simp only [memRecallocarray, htmp, if_pos hgt, hold, hsub, clear_eq hin, pure_bind]
      refine ⟨_, hrun, fun new h => ?_, fun new h i hi hi' => ?_⟩
      · cases h
        rw [length_clear hin, hlen]
      · cases h
        rw [List.getElem?_append_left (by
          rw [List.length_append, List.length_take, List.length_replicate]
          omega), List.getElem?_append_right (by rw [List.length_take]; omega),
          List.getElem?_replicate, if_pos]
        rw [List.length_take]
        omega
    · refine ⟨some tmp, by simp only [memRecallocarray, htmp, if_neg hgt], fun new h => ?_,
        fun new h i hi hi' => ?_⟩
      · cases h
        exact le_of_eq hlen.symm
      · have hle : newNelem.toNat * size.toNat ≤ oldNelem.toNat * size.toNat :=
          Nat.mul_le_mul_right _ (UInt64.le_iff_toNat_le.mp (UInt64.not_lt.mp hgt))
        omega

theorem memRecallocarray_zeroedFor_iff (ptr : Bytes) (oldNelem newNelem size : UInt64) :
    (∀ answer, ZeroedFor (memRecallocarray answer ptr oldNelem newNelem size) oldNelem newNelem size) ↔
      newNelem.toNat * size.toNat < 2 ^ 64 := by
  constructor
  · intro hzeroed
    by_contra hlt
    obtain ⟨block, hrun, hroom, -⟩ := hzeroed (some fun _ => 0)
    obtain ⟨tmp, htmp, hlen⟩ := length_memRecallocarray hrun
    have hle := hroom tmp htmp
    have hshort := arrayBytes_lt hlt
    omega
  · exact fun hlt answer => memRecallocarray_zeroed hlt answer ptr

end Libjeffpc.MemArray

namespace Libjeffpc.Cbor

open Lib

variable {α β : Type}

/-! ## What has happened stays -/

variable {h : Helpers} {W : Watch}

/-- What is watched has happened, and the buffer can be read on. -/
def Dirty (W : Watch) (r : Except Errno α) (s : BufferState × Work) : Prop :=
  W.bad s.2 ∧ ∀ a, r = .ok a → s.1.buffer.Valid

def Keeps (W : Watch) (f : WorkM α) : Prop :=
  ∀ b k w, b.Valid → W.bad w → Triple f (⟨b, k⟩, w) (Dirty W)

/-- On an input that starts with `rest`, `f` comes to what is watched. -/
def Sets (W : Watch) (f : WorkM α) (rest : Bytes) : Prop :=
  ∀ b k w, b.Valid → b.rest = rest → Triple f (⟨b, k⟩, w) (Dirty W)

/-- `f` consumes `bs` and returns `a`, if it does not come to what is watched. -/
def Reaches (W : Watch) (f : WorkM α) (bs t : Bytes) (a : α) : Prop :=
  ∀ b k w, b.Valid → b.rest = bs ++ t → Triple f (⟨b, k⟩, w) fun r s =>
    Dirty W r s ∨ (r = .ok a ∧ s.1.buffer = b.advance bs.length)

theorem Dirty.error {e : Errno} {s : BufferState × Work} (hw : W.bad s.2) : Dirty W (.error e : Except Errno α) s :=
  ⟨hw, fun a ha => by cases ha⟩

section Rules

variable {n p δ len j : Nat} {f : WorkM α} {g : BufM α} {G : Bytes → Bytes → α → Prop}
  {O : Bytes → Prop} {k : α → WorkM β} {bs t rest : Bytes} {a : α}

theorem Account.valid {b : Buffer} {i : Nat} {w : Work} {r : Except Errno α} {s : BufferState × Work}
    (ha : Account h W p δ g G O b i w r s) (hb : b.Valid) : ∀ a, r = .ok a → s.1.buffer.Valid := by
  intro a hr
  obtain ⟨bs, t, hrest, hs, -⟩ := ha.ok a hr
  rw [hs]
  exact hb.advance_append hrest

theorem Keeps.of_accounts (hf : ∀ n, Accounts h W n p δ f g G O) : Keeps W f := fun b i w hb hw =>
  (hf b.rest.length b i w hb (le_refl _)).mono fun _ _ ha => ⟨ha.keeps hw, ha.valid hb⟩

theorem Keeps.quiet (hg : ∀ n, Sound n g G) : Keeps W (Work.quiet g) :=
  .of_accounts (h := .fallback) (p := 0) (δ := 0) (O := fun _ => False) fun n =>
    Accounts.quiet (hg n) (fun _ _ _ _ => Nat.zero_le _) (le_refl 0) (Nat.zero_le _)

theorem Keeps.pure (a : α) : Keeps W (Pure.pure a) := fun _ _ _ hb hw => Triple.pure ⟨hw, fun _ _ => hb⟩

theorem Keeps.bind (hf : Keeps W f) (hk : ∀ a, Keeps W (k a)) : Keeps W (f >>= k) := by
  intro b i w hb hw
  refine Triple.bind (hf b i w hb hw) (fun a s hs => ?_) fun e s hs => .error hs.1
  exact hk a s.1.buffer s.1.allocs s.2 (hs.2 a rfl) hs.1

theorem Keeps.storeElem (len i : Nat) : Keeps W (Work.storeElem len i) := fun _ _ w hb hw =>
  Triple.of_returns (Returns.modifyGet _ _) ⟨(W.bad_stored w len i).mpr (.inl hw), fun _ _ => hb⟩

theorem returns_err (s : BufferState) (w : Work) (e : Errno) :
    Returns (Work.err len j e : WorkM α) (s, w) (.error e) (s, w.cleaned len j) :=
  (Returns.modifyGet _ _).bind (Returns.throw e _)

theorem returns_orErr {s s' : BufferState} {w w' : Work} (hf : Returns f (s, w) (.ok a) (s', w')) :
    Returns (Work.orErr len j f) (s, w) (.ok a) (s', w') :=
  (returns_outcome hf).bind (Returns.pure a _)

theorem returns_orErr_error {s s' : BufferState} {w w' : Work} {e : Errno}
    (hf : Returns f (s, w) (.error e) (s', w')) :
    Returns (Work.orErr len j f) (s, w) (.error e) (s', w'.cleaned len j) :=
  (returns_outcome hf).bind (returns_err s' w' e)

/-- The clean-up keeps what has happened. -/
theorem Triple.orErr_dirty {s : BufferState × Work} {Q : Except Errno α → BufferState × Work → Prop}
    (hf : Triple f s fun r s' => Dirty W r s' ∨ ((∃ a, r = .ok a) ∧ Q r s')) :
    Triple (Work.orErr len j f) s fun r s' => Dirty W r s' ∨ Q r s' := by
  obtain ⟨r, ⟨s', w'⟩, hret, hs⟩ := hf
  cases r with
  | ok a => exact Triple.of_returns (returns_orErr hret) (hs.imp_right And.right)
  | error e =>
    rcases hs with hs | ⟨⟨a, ha⟩, -⟩
    · exact Triple.of_returns (returns_orErr_error hret) (.inl (.error ((W.bad_cleaned w' len j).mpr (.inl hs.1))))
    · cases ha

theorem Sets.orErr (hf : Sets W f rest) : Sets W (Work.orErr len j f) rest := by
  intro b i w hb hr
  have hdirty : Triple f (⟨b, i⟩, w) fun r s => Dirty W r s ∨ ((∃ a, r = .ok a) ∧ False) :=
    (hf b i w hb hr).mono fun _ _ => .inl
  exact (Triple.orErr_dirty hdirty).mono fun _ _ hs => hs.resolve_right id

theorem Reaches.orErr (hf : Reaches W f bs t a) : Reaches W (Work.orErr len j f) bs t a := by
  intro b i w hb hr
  have hdirty : Triple f (⟨b, i⟩, w) fun r s => Dirty W r s ∨
      ((∃ a, r = .ok a) ∧ r = .ok a ∧ s.1.buffer = b.advance bs.length) :=
    (hf b i w hb hr).mono fun _ _ hs => hs.imp_right fun hs => ⟨⟨a, hs.1⟩, hs⟩
  exact Triple.orErr_dirty hdirty

theorem Sets.bind (hf : Sets W f rest) (hk : ∀ a, Keeps W (k a)) : Sets W (f >>= k) rest := by
  intro b i w hb hr
  refine Triple.bind (hf b i w hb hr) (fun a s hs => ?_) fun e s hs => .error hs.1
  exact hk a s.1.buffer s.1.allocs s.2 (hs.2 a rfl) hs.1

/-- The second function comes to it, unless the first one has done so. -/
theorem Sets.after (hf : Reaches W f bs t a) (hk : ∀ a, Keeps W (k a)) (hnext : Sets W (k a) t) :
    Sets W (f >>= k) (bs ++ t) := by
  intro b i w hb hr
  refine Triple.bind (hf b i w hb hr) (fun c s hs => ?_) fun e s hs => ?_
  · rcases hs with hs | ⟨hc, hs⟩
    · exact hk c s.1.buffer s.1.allocs s.2 (hs.2 c rfl) hs.1
    · cases hc
      refine hnext s.1.buffer s.1.allocs s.2 ?_ ?_
      · rw [hs]
        exact hb.advance_append hr
      · rw [hs]
        exact rest_advance_append hr
  · rcases hs with hs | ⟨hc, -⟩
    · exact .error hs.1
    · cases hc

/-- A clean-up that is noticed, unless the function succeeds. -/
theorem Sets.orErr_of_cleans (hf : ∀ n, Accounts h W n p δ f g G O) (hc : W.cleans len j)
    (hnext : ∀ bs t a, rest = bs ++ t → p ≤ bs.length → Sets W (k a) t) :
    Sets W (Work.orErr len j f >>= k) rest := by
  intro b i w hb hr
  obtain ⟨r, ⟨s, w'⟩, hret, ha⟩ := hf b.rest.length b i w hb (le_refl _)
  cases r with
  | ok a =>
    obtain ⟨bs, t, hrest, hs, hlen, -⟩ := ha.ok a rfl
    obtain ⟨r, s', hret', hs'⟩ := hnext bs t a (hr.symm.trans hrest) hlen s.buffer s.allocs w' (ha.valid hb a rfl)
      (by rw [hs]; exact rest_advance_append hrest)
    exact Triple.of_returns ((returns_orErr hret).bind hret') hs'
  | error e =>
    exact Triple.of_returns (returns_orErr_error hret).bind_error (.error ((W.bad_cleaned w' len j).mpr (.inr hc)))

/-- The first function reads no values. -/
theorem Sets.after_quiet (hg : Accepts g bs t a) (hnext : Sets W (k a) t) :
    Sets W (Work.quiet g >>= k) (bs ++ t) := by
  intro b i w hb hr
  obtain ⟨i', hret⟩ := hg b i hb hr
  obtain ⟨r, s, hret', hs⟩ := hnext (b.advance bs.length) i' w (hb.advance_append hr) (rest_advance_append hr)
  exact Triple.of_returns ((returns_quiet hret w).bind hret') hs

/-- The first function consumes nothing. -/
theorem Sets.after_nil (hg : Accepts g [] rest a) (hnext : Sets W (k a) rest) :
    Sets W (Work.quiet g >>= k) rest := Sets.after_quiet hg hnext

theorem Sets.call (hf : Sets W f rest) : Sets W (Work.call >>= fun _ => f) rest := by
  intro b i w hb hr
  obtain ⟨r, s, hret, hs⟩ := hf b i { w with calls := w.calls + 1 } hb hr
  exact Triple.of_returns (Returns.bind (Returns.modifyGet _ _) hret) hs

/-- An element that has no room. -/
theorem Sets.storeElem {len i : Nat} (hlt : len < (i + 1) * ptrSize) (hf : Keeps W f) :
    Sets W (Work.storeElem len i >>= fun _ => f) rest := by
  intro b j w hb _
  obtain ⟨r, s, hret, hs⟩ := hf b j (w.stored len i) hb ((W.bad_stored w len i).mpr (.inr hlt))
  exact Triple.of_returns (Returns.bind (Returns.modifyGet _ _) hret) hs

theorem Sets.past_store {len i : Nat} (hf : Sets W f rest) :
    Sets W (Work.storeElem len i >>= fun _ => f) rest := by
  intro b j w hb hr
  obtain ⟨r, s, hret, hs⟩ := hf b j (w.stored len i) hb hr
  exact Triple.of_returns (Returns.bind (Returns.modifyGet _ _) hret) hs

theorem Reaches.of_accepts (hf : ∀ n, Accounts h W n p δ f g G O) (hg : Accepts g bs t a) :
    Reaches W f bs t a := by
  intro b i w hb hr
  obtain ⟨i', hret⟩ := hg b i hb hr
  refine (hf b.rest.length b i w hb (le_refl _)).mono fun r s ha => ?_
  rcases ha.agrees with hret' | ⟨-, ho | ⟨e, s', hret'⟩⟩
  · obtain ⟨rfl, hs⟩ := hret'.unique hret
    exact .inr ⟨rfl, by rw [hs]⟩
  · exact .inl ⟨ho, ha.valid hb⟩
  · obtain ⟨hr', -⟩ := hret'.unique hret
    cases hr'

end Rules

/-! ## Running into what is watched -/

section Ample

variable {m : Machine}

theorem unpackDefElems_keeps (len i nelem : Nat) : Keeps W (Work.unpackDefElems h m len i nelem) :=
  .of_accounts fun n => unpackDefElems_accounts (unpackCborVal_accounts h W m n) len i nelem

/-- What follows an element of an array of definite length. -/
theorem nextElem_keeps (len i nelem : Nat) (elem : Val) :
    Keeps W (Work.storeElem len i >>= fun _ => do
      return elem :: (← Work.unpackDefElems h m len (i + 1) nelem)) :=
  (Keeps.storeElem len i).bind fun _ => (unpackDefElems_keeps len (i + 1) nelem).bind fun _ => .pure _

/-- What follows an element of an array of indefinite length. -/
theorem growElem_keeps {arr : List Val} (harr : HasRoom arr.length) (elem : Val) :
    Keeps W (do
      match ← Work.quiet (Work.memReallocarray h m (arr.length + 1) ptrSize) with
      | some len =>
        Work.storeElem len arr.length
        Work.unpackIndefElems h m (arr ++ [elem])
      | none => Work.err (h.grownBytes arr.length) arr.length .ENOMEM) := by
  have hlen : (arr ++ [elem]).length = arr.length + 1 := List.length_append
  refine .of_accounts fun n => growElem_accounts harr (fun rest hc => IndefOver.of_limit_lt ?_) fun hroom =>
    unpackIndefElems_accounts (unpackCborVal_accounts h W m n) (arr ++ [elem]) (by rwa [hlen])
  rw [hlen]
  exact Nat.lt_succ_of_lt (limit_lt_of_cleans harr hc)

theorem unpackIndefPairs_keeps (nvl : List (CStr × Val)) : Keeps W (Work.unpackIndefPairs h m nvl) :=
  .of_accounts fun n => unpackIndefPairs_accounts (unpackCborVal_accounts h W m n) nvl

theorem unpackDefPairs_keeps (npairs : Nat) (nvl : List (CStr × Val)) :
    Keeps W (Work.unpackDefPairs h m npairs nvl) :=
  .of_accounts fun n => unpackDefPairs_accounts (unpackCborVal_accounts h W m n) npairs nvl

theorem finishArray_keeps (endRequired : Bool) (len : Nat) (arr : List Val) :
    Keeps W (Work.finishArray m endRequired len arr) :=
  .of_accounts (h := .fallback) fun n => finishArray_accounts n endRequired len arr

theorem mapEnd_keeps (endRequired : Bool) (nvl : List (CStr × Val)) :
    Keeps W (Work.quiet (cborUnpackMapEnd endRequired) >>= fun _ => pure (Val.nvl nvl)) :=
  .of_accounts (h := .fallback) fun n => mapEnd_accounts n endRequired nvl

/-- What claims something is an array or a map. -/
theorem Claims.peek {P : Nat → Bytes → Prop} {bs : Bytes} (hbs : Claims h P bs) :
    ∃ x t, bs = x :: t ∧ (peekByte x = .ok .array ∨ peekByte x = .ok .nvl) := by
  have hhead : ∀ {type : MajorType} {b : Bytes} {r : UInt64 × Bool}, Start type b r →
      ∃ x t, b = x :: t ∧ majorType x = type := by
    rintro type b r (⟨_, rfl⟩ | ⟨_, hhead⟩)
    · exact ⟨_, _, rfl, majorType_typeByte type (by omega)⟩
    · exact hhead.peek
  cases hbs with
  | here hh =>
    obtain ⟨x, t, rfl, hx⟩ := hh.peek
    exact ⟨x, _, rfl, .inl (by simp [peekByte, hx])⟩
  | elem items hh =>
    obtain ⟨x, t, rfl, hx⟩ := hhead hh
    exact ⟨x, _, rfl, .inl (by simp [peekByte, hx])⟩
  | value pairs hh =>
    obtain ⟨x, t, rfl, hx⟩ := hhead hh
    exact ⟨x, _, rfl, .inr (by simp [peekByte, hx])⟩

theorem unpackDefElems_elem {len i nelem : Nat} {t : Bytes}
    (hval : Sets W (Work.unpackCborVal h m) t) :
    Sets W (Work.unpackDefElems h m len i (nelem + 1)) t := by
  rw [Work.unpackDefElems]
  exact hval.orErr.bind (nextElem_keeps len i nelem)

/-- The element that overruns, in an array of indefinite length. -/
theorem unpackIndefElems_elem {arr : List Val} {t : Bytes} (harr : HasRoom arr.length) (ht : Claims h W.here t)
    (hval : Sets W (Work.unpackCborVal h m) t) : Sets W (Work.unpackIndefElems h m arr) t := by
  obtain ⟨x, t', rfl, hx⟩ := ht.peek
  have hcode : Accepts cborPeekBreak [] (x :: t') (.error .EILSEQ) :=
    hx.elim (fun hx => cborPeekBreak_accepts hx) fun hx => cborPeekBreak_accepts hx
  rw [Work.unpackIndefElems]
  exact Sets.after_nil hcode (hval.orErr.bind (growElem_keeps harr))

theorem unpackCborVal_array {bs : Bytes} {x : UInt8} {t : Bytes} (hbs : bs = x :: t)
    (hx : peekByte x = .ok .array) (harray : Sets W (Work.unpackCborArray h m) bs) :
    Sets W (Work.unpackCborVal h m) bs := by
  subst hbs
  rw [Work.unpackCborVal]
  exact Sets.call (Sets.after_nil (cborPeekType_accepts hx) harray)

theorem unpackCborVal_nvl {bs : Bytes} {x : UInt8} {t : Bytes} (hbs : bs = x :: t)
    (hx : peekByte x = .ok .nvl) (hnvl : Sets W (Work.unpackCborNvl h m) bs) :
    Sets W (Work.unpackCborVal h m) bs := by
  subst hbs
  rw [Work.unpackCborVal]
  exact Sets.call (Sets.after_nil (cborPeekType_accepts hx) hnvl)

/-- The elements of an array whose head claims what is watched come to it. -/
def Watch.Comes (W : Watch) (h : Helpers) (m : Machine) : Prop :=
  ∀ n t, h.Holds n → W.here n t → t.length ≤ W.limit →
    Sets W (Work.unpackDefElems h m (fallbackRoom n * ptrSize) 0 n) t

/-- The clean-up is noticed, and the elements are too many for the input or for the memory. -/
theorem unpackDefElems_cleans {len i nelem : Nat} {rest : Bytes} (hc : W.cleans len (i + nelem))
    (hmany : rest.length < nelem ∨ (i * ptrSize ≤ len ∧ len < (i + nelem) * ptrSize)) :
    Sets W (Work.unpackDefElems h m len i nelem) rest := by
  induction nelem generalizing i rest with
  | zero =>
    rcases hmany with hlt | ⟨hle, hlt⟩
    · exact absurd hlt (Nat.not_lt_zero _)
    · exact absurd hlt (Nat.not_lt.mpr hle)
  | succ nelem ih =>
    rw [Work.unpackDefElems]
    refine Sets.orErr_of_cleans (fun n => unpackCborVal_accounts h W m n) hc fun bs t elem hrest hpos => ?_
    by_cases hlt : len < (i + 1) * ptrSize
    · exact .storeElem hlt ((unpackDefElems_keeps len (i + 1) nelem).bind fun _ => .pure _)
    · have hindex : i + 1 + nelem = i + (nelem + 1) := by omega
      refine ((ih (by rwa [hindex]) ?_).bind fun vals => .pure (elem :: vals)).past_store
      rw [hindex]
      refine hmany.imp (fun hmany => ?_) fun hmany => ⟨Nat.le_of_not_lt hlt, hmany.2⟩
      rw [hrest, List.length_append] at hmany
      omega

theorem room_lt_of_huge {n : Nat} (t : Bytes) (hhuge : Huge n t) : fallbackRoom n * ptrSize < (0 + n) * ptrSize := by
  have hlt : fallbackRoom n < 2 ^ 61 := Nat.mod_lt _ (by decide)
  unfold Huge at hhuge
  rw [Nat.zero_add]
  exact Nat.mul_lt_mul_of_pos_right (by omega) (by decide)

/-- The memory is too short for the clean-up. -/
theorem blocks_comes (limit : Nat) : (Watch.blocks limit).Comes h m := by
  intro n t _ hhuge _
  have hlt := room_lt_of_huge t hhuge
  refine unpackDefElems_cleans ?_ (.inr ⟨?_, hlt⟩)
  · exact hlt
  · rw [Nat.zero_mul]
    exact Nat.zero_le _

/-- Or it is long. -/
theorem loops_comes (limit : Nat) : (Watch.loops limit).Comes h m := by
  rintro n t _ (hlt | hhuge) hlimit
  · refine unpackDefElems_cleans (.inr ?_) (.inl (Nat.lt_of_le_of_lt hlimit hlt))
    rwa [Nat.zero_add]
  · have hlt := room_lt_of_huge t hhuge
    refine unpackDefElems_cleans (.inl hlt) (.inr ⟨?_, hlt⟩)
    rw [Nat.zero_mul]
    exact Nat.zero_le _

variable (hm : m.Ample)

include hm

theorem unpackCborVal_reaches {bs : Bytes} {v : Val} (hv : RoomyItem bs v) (t : Bytes) :
    Reaches W (Work.unpackCborVal h m) bs t v :=
  .of_accepts (fun n => unpackCborVal_accounts h W m n) (unpackCborVal_accepts hm hv t)

/-- The elements before the one that overruns. -/
theorem unpackDefElems_sets {len nelem : Nat} {t : Bytes} (items : List (Bytes × Val)) (i : Nat)
    (hitems : RoomyItems items)
    (hnext : Sets W (Work.unpackDefElems h m len (i + items.length) nelem) t) :
    Sets W (Work.unpackDefElems h m len i (items.length + nelem))
      ((items.map Prod.fst).flatten ++ t) := by
  induction items generalizing i with
  | nil =>
    rw [List.length_nil, Nat.zero_add]
    exact hnext
  | cons x items ih =>
    obtain ⟨hx, hitems⟩ := List.forall_mem_cons.mp hitems
    have hlen : (x :: items).length + nelem = items.length + nelem + 1 := by
      rw [List.length_cons]
      omega
    have hindex : i + (x :: items).length = i + 1 + items.length := by
      rw [List.length_cons]
      omega
    rw [hindex] at hnext
    rw [hlen, Work.unpackDefElems, List.map_cons, List.flatten_cons, List.append_assoc]
    exact Sets.after (unpackCborVal_reaches hm hx _).orErr (nextElem_keeps len i _)
      ((ih (i + 1) hitems hnext).bind fun vals => Keeps.pure (x.2 :: vals)).past_store

theorem unpackDefElems_store {len i nelem : Nat} {bs t : Bytes} {v : Val} (hv : RoomyItem bs v)
    (hlt : len < (i + 1) * ptrSize) : Sets W (Work.unpackDefElems h m len i (nelem + 1)) (bs ++ t) := by
  rw [Work.unpackDefElems]
  exact Sets.after (unpackCborVal_reaches hm hv t).orErr (nextElem_keeps len i nelem)
    (.storeElem hlt ((unpackDefElems_keeps len (i + 1) nelem).bind fun _ => .pure _))

omit hm in
/-- What is asked for, of an array that can get memory. -/
theorem Helpers.Holds.arrayBytes {nelem : Nat} (hholds : h.Holds nelem) :
    h.arrayBytes nelem ptrSize = some (fallbackRoom nelem * ptrSize) := by
  rcases h.arrayBytes_cases nelem with ⟨hbytes, -⟩ | ⟨hbytes, hlt⟩
  · exact hbytes
  · rcases hholds.2 with heq | rfl
    · have hroom := hholds.1
      rw [heq] at hroom
      unfold HasRoom ssizeMax at hroom
      unfold sizeMax at hlt
      omega
    · cases hbytes

theorem memReallocarray_grants {nelem : Nat} (hholds : h.Holds nelem) (t : Bytes) :
    Accepts (Work.memReallocarray h m nelem ptrSize) [] t (some (fallbackRoom nelem * ptrSize)) := by
  unfold Work.memReallocarray
  rw [hholds.arrayBytes]
  exact (request_complete (fun i => hm.bytes i _ hholds.1) [] t true ⟨rfl, rfl⟩).bind_nil (Accepts.pure _ t)

/-- The elements before the one that overruns. -/
theorem unpackIndefElems_sets {t : Bytes} (items : List (Bytes × Val)) (arr : List Val)
    (hitems : RoomyItems items) (hroom : HasRoom (arr.length + items.length))
    (hnext : Sets W (Work.unpackIndefElems h m (arr ++ items.map Prod.snd)) t) :
    Sets W (Work.unpackIndefElems h m arr) ((items.map Prod.fst).flatten ++ t) := by
  induction items generalizing arr with
  | nil =>
    rw [List.map_nil, List.append_nil] at hnext
    exact hnext
  | cons x items ih =>
    obtain ⟨hx, hitems⟩ := List.forall_mem_cons.mp hitems
    have hle : ∀ k ≤ items.length + 1, HasRoom (arr.length + k) := fun k hk =>
      (Nat.mul_le_mul_right _ (by rw [List.length_cons]; omega)).trans hroom
    have harr : HasRoom arr.length := hle 0 (Nat.zero_le _)
    have harr1 : HasRoom (arr.length + 1) := hle 1 (by omega)
    have hgrow : HasRoom ((arr ++ [x.2]).length + items.length) := by
      rw [List.length_append, List.length_singleton, Nat.add_assoc, Nat.add_comm 1]
      exact hle _ (le_refl _)
    obtain ⟨y, t', hy, hpeek⟩ := hx.peek
    have hcode : Accepts cborPeekBreak [] (((x :: items).map Prod.fst).flatten ++ t) (.error .EILSEQ) := by
      rw [List.map_cons, List.flatten_cons, hy]
      exact cborPeekBreak_accepts hpeek
    rw [Work.unpackIndefElems]
    refine Sets.after_nil hcode ?_
    rw [List.map_cons, List.flatten_cons, List.append_assoc]
    refine Sets.after (unpackCborVal_reaches hm hx _).orErr (growElem_keeps harr) ?_
    have hholds : h.Holds (arr.length + 1) := ⟨by rwa [fallbackRoom_of_lt harr.lt], .inl (fallbackRoom_of_lt harr.lt)⟩
    refine Sets.after_nil (memReallocarray_grants hm hholds _) ?_
    refine (ih (arr ++ [x.2]) hitems hgrow ?_).past_store
    rw [List.append_assoc]
    exact hnext

/-! ## Maps that run into an overrun -/

theorem unpackCborPair_reaches {p : PairItem} (nvl : List (CStr × Val)) (t : Bytes)
    (hp : Text p.nameBytes p.name ∧ RoomyItem p.valueBytes p.value) :
    Reaches W (Work.unpackCborPair h m nvl) p.bytes t (nvSet nvl p.pair.1 p.pair.2) :=
  .of_accepts (fun n => unpackCborPair_accounts (unpackCborVal_accounts h W m n) nvl)
    (unpackCborPair_accepts hm nvl t hp.1 fun t => unpackCborVal_accepts hm hp.2 t)

/-- The pair whose value overruns. -/
theorem unpackCborPair_sets {name payload t : Bytes} (nvl : List (CStr × Val)) (hname : Text name payload)
    (hval : Sets W (Work.unpackCborVal h m) t) :
    Sets W (Work.unpackCborPair h m nvl) (name ++ t) := by
  rw [Work.unpackCborPair]
  exact Sets.after_quiet (cborUnpackStr_complete hm _ _ _ ⟨payload, hname, rfl⟩)
    (hval.bind fun value => Keeps.quiet fun n => nvlSetPair_sound m n nvl _ value)

theorem unpackDefPairs_sets {name payload t : Bytes} {npairs : Nat} (pairs : List PairItem)
    (nvl : List (CStr × Val)) (hpairs : RoomyPairs pairs) (hname : Text name payload)
    (hval : Sets W (Work.unpackCborVal h m) t) :
    Sets W (Work.unpackDefPairs h m (pairs.length + (npairs + 1)) nvl)
      ((pairs.map PairItem.bytes).flatten ++ (name ++ t)) := by
  induction pairs generalizing nvl with
  | nil =>
    rw [List.length_nil, Nat.zero_add, Work.unpackDefPairs]
    exact (unpackCborPair_sets hm nvl hname hval).bind (unpackDefPairs_keeps npairs)
  | cons p pairs ih =>
    obtain ⟨hp, hpairs⟩ := List.forall_mem_cons.mp hpairs
    have hlen : (p :: pairs).length + (npairs + 1) = pairs.length + (npairs + 1) + 1 := by
      rw [List.length_cons]
      omega
    rw [hlen, Work.unpackDefPairs, List.map_cons, List.flatten_cons, List.append_assoc]
    exact Sets.after (unpackCborPair_reaches hm nvl _ hp) (unpackDefPairs_keeps _) (ih _ hpairs)

theorem unpackIndefPairs_sets {name payload t : Bytes} (pairs : List PairItem) (nvl : List (CStr × Val))
    (hpairs : RoomyPairs pairs) (hname : Text name payload)
    (hval : Sets W (Work.unpackCborVal h m) t) :
    Sets W (Work.unpackIndefPairs h m nvl) ((pairs.map PairItem.bytes).flatten ++ (name ++ t)) := by
  induction pairs generalizing nvl with
  | nil =>
    obtain ⟨y, t', hy, hpeek⟩ := hname.peek
    have hcode : Accepts cborPeekBreak [] (name ++ t) (.error .EILSEQ) := by
      rw [hy]
      exact cborPeekBreak_accepts hpeek
    rw [Work.unpackIndefPairs]
    exact Sets.after_nil hcode ((unpackCborPair_sets hm nvl hname hval).bind unpackIndefPairs_keeps)
  | cons p pairs ih =>
    obtain ⟨hp, hpairs⟩ := List.forall_mem_cons.mp hpairs
    obtain ⟨y, t', hy, hpeek⟩ := hp.1.peek
    have hcode : Accepts cborPeekBreak [] (((p :: pairs).map PairItem.bytes).flatten ++ (name ++ t))
        (.error .EILSEQ) := by
      rw [List.map_cons, List.flatten_cons, PairItem.bytes, hy]
      exact cborPeekBreak_accepts hpeek
    rw [Work.unpackIndefPairs]
    refine Sets.after_nil hcode ?_
    rw [List.map_cons, List.flatten_cons, List.append_assoc]
    exact Sets.after (unpackCborPair_reaches hm nvl _ hp) unpackIndefPairs_keeps (ih _ hpairs)

/-! ## Values that come to what is watched -/

/-- An array of definite length. -/
theorem unpackCborArray_def {hd rest : Bytes} {n : Nat} (hh : Head .array hd n) (hholds : h.Holds n)
    (hnext : Sets W (Work.unpackDefElems h m (fallbackRoom n * ptrSize) 0 n) rest) :
    Sets W (Work.unpackCborVal h m) (hd ++ rest) := by
  obtain ⟨x, t, hx, htype⟩ := hh.peek
  refine unpackCborVal_array (congrArg (· ++ rest) hx) (by simp [peekByte, htype]) ?_
  rw [Work.unpackCborArray]
  refine Sets.after_quiet (cborUnpackArrayStart_complete hd _ (.ofNat n, false)
    (.inr ⟨rfl, by rwa [hh.ofNat]⟩)) ?_
  simp only [Bool.false_eq_true, if_false]
  rw [if_neg (toNat_le_sizeMax _), hh.ofNat]
  exact Sets.after_nil (memReallocarray_grants hm hholds _) (hnext.bind (finishArray_keeps false _))

/-- A map of definite length. -/
theorem unpackCborNvl_def {hd rest : Bytes} {n : Nat} (hh : Head .map hd n)
    (hnext : Sets W (Work.unpackDefPairs h m n []) rest) :
    Sets W (Work.unpackCborVal h m) (hd ++ rest) := by
  obtain ⟨x, t, hx, htype⟩ := hh.peek
  refine unpackCborVal_nvl (congrArg (· ++ rest) hx) (by simp [peekByte, htype]) ?_
  rw [Work.unpackCborNvl]
  refine Sets.after_quiet (cborUnpackMapStart_complete hd _ (.ofNat n, false)
    (.inr ⟨rfl, by rwa [hh.ofNat]⟩)) ?_
  refine Sets.after_nil (request_complete hm.val [] _ true ⟨rfl, rfl⟩) ?_
  simp only [Bool.false_eq_true, if_false, if_true]
  rw [if_neg (toNat_le_sizeMax _), hh.ofNat]
  exact hnext.bind (mapEnd_keeps false)

omit hm in
/-- An array of indefinite length. -/
theorem unpackCborArray_indef {rest : Bytes} (hnext : Sets W (Work.unpackIndefElems h m []) rest) :
    Sets W (Work.unpackCborVal h m) ([typeByte .array 31] ++ rest) := by
  refine unpackCborVal_array rfl rfl ?_
  rw [Work.unpackCborArray]
  refine Sets.after_quiet (cborUnpackArrayStart_complete [typeByte .array 31] _ (0, true)
    (.inl ⟨rfl, rfl⟩)) ?_
  simp only [if_true]
  exact hnext.bind fun arr => finishArray_keeps true (h.grownBytes arr.length) arr

/-- A map of indefinite length. -/
theorem unpackCborNvl_indef {rest : Bytes} (hnext : Sets W (Work.unpackIndefPairs h m []) rest) :
    Sets W (Work.unpackCborVal h m) ([typeByte .map 31] ++ rest) := by
  refine unpackCborVal_nvl rfl rfl ?_
  rw [Work.unpackCborNvl]
  refine Sets.after_quiet (cborUnpackMapStart_complete [typeByte .map 31] _ (0, true) (.inl ⟨rfl, rfl⟩)) ?_
  refine Sets.after_nil (request_complete hm.val [] _ true ⟨rfl, rfl⟩) ?_
  simp only [if_true]
  exact hnext.bind (mapEnd_keeps true)

theorem unpackCborVal_sets {bs : Bytes} (hcomes : W.Comes h m) (hbs : Claims h W.here bs)
    (hlimit : bs.length ≤ W.limit) : Sets W (Work.unpackCborVal h m) bs := by
  induction hbs with
  | here hh hholds hP =>
    rw [List.length_append] at hlimit
    exact unpackCborArray_def hm hh hholds (hcomes _ _ hholds hP (by omega))
  | @elem hd bs r items hh hroom hitems hbs ih =>
    simp only [List.length_append] at hlimit
    have ih := ih (by omega)
    obtain ⟨n, endRequired⟩ := r
    rcases hh with ⟨hr, rfl⟩ | ⟨hr, hhead⟩
    · obtain ⟨rfl, rfl⟩ := Prod.mk.inj hr
      have hroom : HasRoom (([] : List Val).length + items.length) := by simpa [StartRoom] using hroom
      refine unpackCborArray_indef (unpackIndefElems_sets hm items [] hitems hroom ?_)
      exact unpackIndefElems_elem (by simpa using hroom) hbs ih
    · simp only at hr hhead
      subst hr
      obtain ⟨hholds, hlt⟩ : h.Holds n.toNat ∧ items.length < n.toNat := hroom
      refine unpackCborArray_def hm hhead hholds ?_
      have hn' : n.toNat = items.length + (n.toNat - items.length - 1 + 1) := by omega
      have helem : Sets W (Work.unpackDefElems h m (fallbackRoom n.toNat * ptrSize) (0 + items.length)
          (n.toNat - items.length - 1 + 1)) _ := unpackDefElems_elem ih
      have hrun := unpackDefElems_sets hm items 0 hitems helem
      rwa [← hn'] at hrun
  | @value hd name payload bs r pairs hh hlen hnames hvalues hname hbs ih =>
    simp only [List.length_append] at hlimit
    have ih := ih (by omega)
    obtain ⟨n, endRequired⟩ := r
    have hpairs : RoomyPairs pairs := fun p hp => ⟨hnames p hp, hvalues p hp⟩
    rcases hh with ⟨hr, rfl⟩ | ⟨hr, hhead⟩
    · obtain ⟨rfl, rfl⟩ := Prod.mk.inj hr
      exact unpackCborNvl_indef hm (unpackIndefPairs_sets hm pairs [] hpairs hname ih)
    · simp only at hr hhead
      subst hr
      have hlt : pairs.length < n.toNat := hlen rfl
      have hn' : n.toNat = pairs.length + (n.toNat - pairs.length - 1 + 1) := by omega
      refine unpackCborNvl_def hm hhead ?_
      rw [hn']
      exact unpackDefPairs_sets hm pairs [] hpairs hname ih

omit hm in
/-- There are more elements than the memory has room for. -/
theorem elements_comes (hm : m.Ample) (limit : Nat) : (Watch.elements limit).Comes h m := by
  rintro n t hholds ⟨hhuge, items, t', hitems, hlen, rfl⟩ -
  -- the last one of the elements has no room
  obtain ⟨init, x, rfl⟩ : ∃ init x, items = init ++ [x] :=
    ⟨_, _, (List.dropLast_append_getLast (List.ne_nil_of_length_eq_add_one hlen)).symm⟩
  rw [List.length_append, List.length_singleton, Nat.add_right_cancel_iff] at hlen
  have hle : fallbackRoom n < 2 ^ 61 := Nat.mod_lt _ (by decide)
  have hn' : n = init.length + (n - init.length - 1 + 1) := by
    unfold Huge at hhuge
    omega
  have hlt : fallbackRoom n * ptrSize < (0 + init.length + 1) * ptrSize := by
    rw [hlen, Nat.zero_add]
    exact Nat.mul_lt_mul_of_pos_right (Nat.lt_succ_self _) (by decide)
  have hstore : Sets (Watch.elements limit) (Work.unpackDefElems h m (fallbackRoom n * ptrSize) (0 + init.length)
      (n - init.length - 1 + 1)) (x.1 ++ t') := unpackDefElems_store hm (hitems x (by simp)) hlt
  have hrun := unpackDefElems_sets hm init 0 (fun y hy => hitems y (by simp [hy])) hstore
  rw [← hn'] at hrun
  simpa using hrun

end Ample

/-! ## The inputs that claim too much -/

section Claims

variable {b : Buffer} {m : Machine} {k limit : Nat}

/-- Reading the value at the offset comes to what is watched. -/
def Watch.Shows (W : Watch) (h : Helpers) (m : Machine) (s : BufferState) : Prop :=
  ∃ r s' w, Returns (Work.unpackCborVal h m) (s, .zero) r (s', w) ∧ W.bad w

theorem shows_of_claims (hm : m.Ample) (hb : b.Valid) (hlimit : b.rest.length ≤ W.limit) (hcomes : W.Comes h m)
    (hclaims : Claims h W.here b.rest) : W.Shows h m ⟨b, k⟩ := by
  obtain ⟨r, ⟨s, w⟩, hret, hw, -⟩ := unpackCborVal_sets hm hcomes hclaims hlimit b k .zero hb rfl
  exact ⟨r, s, w, hret, hw⟩

theorem never_shows_iff (hb : b.Valid) (k : Nat) (hlimit : b.rest.length ≤ W.limit) (hzero : ¬W.bad .zero)
    (hcomes : W.Comes h .plenty) : (∀ m, ¬W.Shows h m ⟨b, k⟩) ↔ ¬Claims h W.here b.rest := by
  constructor
  · exact fun hsafe hclaims => hsafe .plenty (shows_of_claims Machine.plenty_ample hb hlimit hcomes hclaims)
  · rintro hsafe m ⟨r, s, w, hret, hw⟩
    obtain ⟨r', s', w', hret', hgood, -⟩ := returns_of_not_claims m k hb hlimit hzero hsafe
    obtain ⟨-, hs⟩ := hret.unique hret'
    cases hs
    exact hgood hw

theorem never_overran_iff (hb : b.Valid) (k : Nat) :
    (∀ m, ¬Work.Overran h m ⟨b, k⟩) ↔ ¬Claims h Overfull b.rest :=
  never_shows_iff (W := .elements b.rest.length) hb k (le_refl _) (by rintro ⟨⟩)
    (elements_comes Machine.plenty_ample _)

theorem never_strays_iff (hb : b.Valid) (k : Nat) :
    (∀ m, ¬Work.Strays h m ⟨b, k⟩) ↔ ¬Claims h Huge b.rest :=
  never_shows_iff (W := .blocks b.rest.length) hb k (le_refl _) (fun hz => hz ⟨rfl, rfl⟩)
    (blocks_comes _)

theorem bounded_iff (hb : b.Valid) (k : Nat) (hlimit : b.rest.length ≤ limit) :
    (∀ m, Work.Bounded h m limit b k) ↔ ¬Claims h (Beyond limit) b.rest := by
  constructor
  · intro hbounded hclaims
    obtain ⟨r, s, w, hret, hw⟩ :=
      shows_of_claims (W := .loops limit) (k := k) Machine.plenty_ample hb hlimit (loops_comes limit) hclaims
    obtain ⟨r', s', w', hret', hin, hrounds, -⟩ := hbounded .plenty
    obtain ⟨-, hs⟩ := hret.unique hret'
    cases hs
    exact hw.elim (fun hw => hw hin) (Nat.not_lt.mpr hrounds)
  · intro hclaims m
    obtain ⟨r, s, w, hret, hgood, hcalls, hok⟩ := returns_of_not_claims (W := .loops limit) m k hb hlimit
      (by rintro (hz | hz); exacts [hz ⟨rfl, rfl⟩, absurd hz (Nat.not_lt_zero _)]) hclaims
    obtain ⟨hin, hrounds⟩ := not_or.mp hgood
    exact ⟨r, s, w, hret, not_not.mp hin, Nat.le_of_not_lt hrounds, hcalls, hok⟩

/-- With the helpers of the C library reading a value ends, whatever the heads claim. -/
theorem not_claims_huge_libc (bs : Bytes) : ¬Claims .libc Huge bs := by
  intro hclaims
  induction hclaims with
  | here hh hholds hP =>
    have hlt := hholds.1.lt
    rw [hholds.2.resolve_right (by rintro ⟨⟩)] at hlt
    unfold Huge at hP
    omega
  | elem _ _ _ _ _ ih => exact ih
  | value _ _ _ _ _ _ _ ih => exact ih

/-- Reading ends without an access outside of an array exactly if no head claims 2^61 elements. -/
theorem ends_iff (hb : b.Valid) (k : Nat) :
    (∀ m, ∃ limit, Work.Bounded h m limit b k) ↔ ¬Claims h Huge b.rest := by
  rw [← never_strays_iff hb k]
  constructor
  · rintro hends m ⟨r, s, w, hret, hw⟩
    obtain ⟨limit, r', s', w', hret', hin, -⟩ := hends m
    obtain ⟨-, hs⟩ := hret.unique hret'
    cases hs
    exact hw hin
  · intro hsafe m
    obtain ⟨r, s, w, hret, hgood, hcalls, hok⟩ := returns_of_not_claims (W := .blocks b.rest.length) m k hb
      (le_refl _) (fun hz => hz ⟨rfl, rfl⟩) ((never_strays_iff hb k).mp hsafe)
    exact ⟨w.rounds, r, s, w, hret, not_not.mp hgood, le_refl _, hcalls, hok⟩

/-- Reading a value ends, calls `unpack_cbor_val` once for every byte at most, and once more for an error, and has
no loop that is longer than the input, exactly if no array that can get memory claims more elements than there are
bytes. That it ends is a matter of arrays that claim 2^61 elements, which the helpers of the C library refuse; with
these the account is one of what `unpackCborVal` does. A text string takes at least one byte. -/
theorem unpack_cbor_val_work (h : Helpers) (b : Buffer) (hb : b.Valid) (k : Nat) :
    ((∀ m, Work.Bounded h m b.rest.length b k) ↔ ¬Claims h (Beyond b.rest.length) b.rest) ∧
    ((∀ m, ∃ limit, Work.Bounded h m limit b k) ↔ ¬Claims h Huge b.rest) ∧
    (∀ m, ∃ limit, Work.Bounded .libc m limit b k) ∧
    (∀ m r s w, Returns (Work.unpackCborVal .libc m) (⟨b, k⟩, .zero) r (s, w) →
      Returns (unpackCborVal m) ⟨b, k⟩ r s) ∧
    ∀ m, Triple (unpackCborStr m) ⟨b, k⟩ fun r s => ∀ str, r = .ok str →
      ∃ bs t, b.rest = bs ++ t ∧ s.buffer = b.advance bs.length ∧ 1 ≤ bs.length :=
  ⟨bounded_iff hb k (le_refl _), ends_iff hb k, (ends_iff hb k).mpr (not_claims_huge_libc _),
    fun _ _ _ _ => unpackCborVal_returns_libc hb, fun m => unpackCborStr_progress m hb k⟩

/-- An array that claims 2^61 + 1 elements, and one zero. -/
def strayingArray : Bytes := [0x9b, 0x20, 0, 0, 0, 0, 0, 0, 1, 0]

theorem holds_huge : Helpers.fallback.Holds (2 ^ 61 + 1) := by
  refine ⟨?_, .inr rfl⟩
  unfold HasRoom ptrSize ssizeMax fallbackRoom
  norm_num

theorem claims_strayingArray : Claims .fallback Huge strayingArray := by
  have hhead : Head .array [0x9b, 0x20, 0, 0, 0, 0, 0, 0, 1] (2 ^ 61 + 1) :=
    .eight (b := [0x20, 0, 0, 0, 0, 0, 0, 1]) rfl
  exact .here (t := [0]) hhead holds_huge (by unfold Huge; omega)

/-- An array that claims 2^28 elements, and none. -/
def longArray : Bytes := [0x9a, 0x10, 0, 0, 0]

theorem claims_longArray : Claims .libc (Beyond 5) longArray := by
  have hhead : Head .array [0x9a, 0x10, 0, 0, 0] (2 ^ 28) := .four (b := [0x10, 0, 0, 0]) rfl
  have hholds : Helpers.libc.Holds (2 ^ 28) := by
    refine ⟨?_, .inl (fallbackRoom_of_lt (by decide))⟩
    unfold HasRoom ptrSize ssizeMax fallbackRoom
    norm_num
  exact .here (t := []) hhead hholds (.inl (by decide))

/-- Without the helpers of the C library the clean-up leaves the memory of the array; with them, five bytes take
2^28 rounds. -/
theorem unpack_cbor_val_leaves : ¬(∀ m, ∃ limit, Work.Bounded .fallback m limit (.ofBytes strayingArray) 0) ∧
    ¬∀ m, Work.Bounded .libc m (Buffer.ofBytes longArray).rest.length (.ofBytes longArray) 0 :=
  ⟨fun hends => (ends_iff (Buffer.ofBytes_valid (by decide)) 0).mp hends claims_strayingArray,
    fun hbounded => (bounded_iff (Buffer.ofBytes_valid (by decide)) 0 (le_refl _)).mp hbounded claims_longArray⟩

theorem unpack_cbor_val_work_strayingArray :
    ¬(∀ m, ∃ limit, Work.Bounded .fallback m limit (.ofBytes strayingArray) 0) ∧
    ∀ m, ∃ limit, Work.Bounded .libc m limit (.ofBytes strayingArray) 0 := by
  have hwork := unpack_cbor_val_work .fallback (.ofBytes strayingArray) (Buffer.ofBytes_valid (by decide)) 0
  exact ⟨fun hends => hwork.2.1.mp hends claims_strayingArray, hwork.2.2.1⟩

/-- The helpers of `mem_array.c` give the room that they are asked for, and zero it, exactly as long as the
product is a `size_t`; reading a value touches nothing outside of the memory of an array exactly if no array that
can get memory claims 2^61 elements or more; and an element is stored there exactly if such an array has more of
them than there is room for. -/
theorem mem_array_safe_iff (b : Buffer) (hb : b.Valid) (k : Nat) :
    (∀ ptr nelem size, (∀ answer, MemArray.RoomFor (MemArray.memReallocarray answer ptr nelem size) nelem size) ↔
      nelem.toNat * size.toNat < 2 ^ 64) ∧
    (∀ ptr oldNelem newNelem size, (∀ answer, MemArray.ZeroedFor
      (MemArray.memRecallocarray answer ptr oldNelem newNelem size) oldNelem newNelem size) ↔
      newNelem.toNat * size.toNat < 2 ^ 64) ∧
    ((∀ m, ¬Work.Strays .fallback m ⟨b, k⟩) ↔ ¬Claims .fallback Huge b.rest) ∧
    ((∀ m, ¬Work.Overran .fallback m ⟨b, k⟩) ↔ ¬Claims .fallback Overfull b.rest) :=
  ⟨MemArray.memReallocarray_roomFor_iff, MemArray.memRecallocarray_zeroedFor_iff, never_strays_iff hb k,
    never_overran_iff hb k⟩

/-- An array that claims 2^61 + 1 elements, and two zeroes. -/
def hugeArray : Bytes := [0x9b, 0x20, 0, 0, 0, 0, 0, 0, 1, 0, 0]

theorem claims_hugeArray : Claims .fallback Overfull hugeArray := by
  have hhead : Head .array [0x9b, 0x20, 0, 0, 0, 0, 0, 0, 1] (2 ^ 61 + 1) :=
    .eight (b := [0x20, 0, 0, 0, 0, 0, 0, 1]) rfl
  have hzero : RoomyItem [0] (.int 0) := .uint (.direct (n := 0) (by decide))
  have hitems : RoomyItems [([0], .int 0), ([0], .int 0)] := by simp [RoomyItems, hzero]
  exact .here (t := [0, 0]) hhead holds_huge ⟨by unfold Huge; omega, _, [], hitems, by decide, rfl⟩

theorem mem_array_overruns :
    ¬(∀ answer, MemArray.RoomFor (MemArray.memReallocarray answer [] 0x2000000000000001 8) 0x2000000000000001 8) ∧
    ¬∀ m, ¬Work.Overran .fallback m ⟨.ofBytes hugeArray, 0⟩ := by
  refine ⟨fun hroom => ?_, fun hsafe => ?_⟩
  · have := (MemArray.memReallocarray_roomFor_iff [] 0x2000000000000001 8).mp hroom
    exact absurd this (by decide)
  · exact (never_overran_iff (Buffer.ofBytes_valid (by decide)) 0).mp hsafe claims_hugeArray

theorem mem_array_safe_iff_hugeArray :
    (¬∀ m, ¬Work.Strays .fallback m ⟨.ofBytes strayingArray, 0⟩) ∧
    ¬∀ m, ¬Work.Overran .fallback m ⟨.ofBytes hugeArray, 0⟩ := by
  have hstrays := mem_array_safe_iff (.ofBytes strayingArray) (Buffer.ofBytes_valid (by decide)) 0
  have hoverran := mem_array_safe_iff (.ofBytes hugeArray) (Buffer.ofBytes_valid (by decide)) 0
  exact ⟨fun hsafe => hstrays.2.2.1.mp hsafe claims_strayingArray,
    fun hsafe => hoverran.2.2.2.mp hsafe claims_hugeArray⟩

end Claims

end Libjeffpc.Cbor
