import Libjeffpc.Buffer.Proofs.OutputProofs
import Libjeffpc.Cbor.Proofs.OutputProofs
import Libjeffpc.Json.Proofs.TextProofs
import Libjeffpc.Lib.Relational
import Libjeffpc.Val.Pack

/-!
# The three ways to pack a value agree

All of them write the encoding of the value. It goes into a heap buffer, a static buffer or a sink.
-/

namespace Libjeffpc

open Lib

variable {m : Machine} {v : Val} {format : ValFormat}

theorem doValPack_eq : doValPack m v format = (encoding v format).write m := by
  cases format with
  | cbor => exact Cbor.cborPackVal_eq m v
  | json => exact Json.jsonPackVal_eq m v

/-- An output that ends with an error, after pieces that were written. -/
theorem write_error {o : Output} {e : Errno} (he : o.error = some e) {s s' : BufferState}
    (h : Returns (Output.writeChunks m o.chunks) s (.ok ()) s') :
    Returns (o.write m) s (.error e) s' := by
  rw [Output.write, he]
  exact h.bind (Returns.throw _ _)

theorem write_ok {o : Output} (he : o.error = none) {s s' : BufferState}
    (h : Returns (Output.writeChunks m o.chunks) s (.ok ()) s') : Returns (o.write m) s (.ok ()) s' := by
  rw [Output.write, he]
  exact h.bind (Returns.pure _ _)

/-- An output with an error is never written to its end. -/
theorem not_write_ok {o : Output} {e : Errno} (he : o.error = some e) {s s' : BufferState} :
    ¬Returns (o.write m) s (.ok ()) s' := by
  intro h
  rw [Output.write, he] at h
  obtain ⟨_, s1, -, h2⟩ := h.of_bind
  cases ((Returns.throw e s1).unique h2).1

section Size

theorem isSink_init : IsSink bufferInitSink := ⟨rfl, rfl, by decide⟩

theorem valSize_error {e : Errno} (he : (encoding v format).error = some e) :
    valSize m v format = pure (.error e) := by
  obtain ⟨b, hw, -⟩ := writeChunks_sink (m := m) (k := 0) (encoding v format).chunks isSink_init
  have hret : StateT.run (ExceptT.run (doValPack m v format)) ⟨bufferInitSink, 0⟩ =
      pure (.error e, ⟨b, 0⟩) := by
    rw [doValPack_eq]
    exact write_error he hw
  rw [valSize, hret]
  rfl

theorem valSize_ok (he : (encoding v format).error = none)
    (hfits : (encoding v format).bytes.length ≤ ssizeMax) :
    valSize m v format = pure (.ok ((encoding v format).bytes.length : Int)) := by
  obtain ⟨b, hw, hsink, hsize⟩ := writeChunks_sink (m := m) (k := 0) (encoding v format).chunks isSink_init
  have hlen : b.size = (encoding v format).bytes.length := by
    have hlt := hsink.size_lt
    have hzero : bufferInitSink.size = 0 := rfl
    rw [hzero, Nat.zero_add, Nat.mod_eq_of_lt hlt] at hsize
    rw [hsize]
    refine Nat.mod_eq_of_lt ?_
    simp only [ssizeMax, Output.bytes] at hfits
    omega
  have hret : StateT.run (ExceptT.run (doValPack m v format)) ⟨bufferInitSink, 0⟩ =
      pure (.ok (), ⟨b, 0⟩) := by
    rw [doValPack_eq]
    exact write_ok he hw
  rw [valSize, hret, pure_bind]
  show pure (Except.ok (toOffT b.size)) = _
  rw [hlen, toOffT_of_le hfits]

end Size

section Pack

theorem bufferAlloc_cases (m : Machine) : bufferAlloc m 1024 = .ok (bufferInitHeap m 1024) ∨
    (bufferAlloc m 1024 = .error .ENOMEM ∧
      (m.grants 0 (.bytes sizeofBuffer) = false ∨ m.grants 1 (.bytes 1024) = false)) := by
  have hsize : (if 1024 = 0 then 1 else 1024) = 1024 := rfl
  rw [bufferAlloc, hsize]
  split_ifs with h0 h1
  · exact Or.inr ⟨rfl, Or.inl h0⟩
  · exact Or.inr ⟨rfl, Or.inr h1⟩
  · exact Or.inl rfl

/-- `val_pack` that succeeds has written to a new heap buffer. -/
theorem of_valPack_ok {b : Buffer} (h : valPack m v format = pure (.ok b)) :
    ∃ s, Returns ((encoding v format).write m) ⟨bufferInitHeap m 1024, 2⟩ (.ok ()) s ∧ s.buffer = b := by
  unfold valPack valPackWith at h
  rcases bufferAlloc_cases m with ha | ⟨ha, -⟩
  · rw [ha] at h
    obtain ⟨⟨r, s⟩, hrun, hret⟩ := of_bind_eq_pure h
    rw [doValPack_eq] at hrun
    cases r with
    | error e => cases pure_inj hret
    | ok u =>
      cases pure_inj hret
      exact ⟨s, hrun, rfl⟩
  · rw [ha] at h
    cases pure_inj h

theorem usable_initHeap : (bufferInitHeap m 1024).Usable :=
  (Buffer.Initial.heap (by decide)).usable

/-- `val_pack` writes the encoding, unless it is refused memory. -/
theorem valPack_cases (he : (encoding v format).error = none)
    (hfits : (encoding v format).bytes.length ≤ ssizeMax) :
    (∃ b, valPack m v format = pure (.ok b) ∧ b.contents = (encoding v format).bytes) ∨
    (valPack m v format = pure (.error .ENOMEM) ∧ ∃ i n, (valPackRequests v format)[i]? = some n ∧
      n ≤ ssizeMax ∧ m.grants i (.bytes n) = false) := by
  unfold valPack valPackWith
  rcases bufferAlloc_cases m with ha | ⟨ha, hno⟩
  · rw [ha]
    rcases writeChunks_heap (m := m) (k := 2) (encoding v format).chunks usable_initHeap rfl
      (by simpa [bufferInitHeap, Output.bytes] using hfits) with
      ⟨b, k, hw, -, -, hcont⟩ | ⟨s, hw, i, n, hi, hn, hno⟩
    · have hret : StateT.run (ExceptT.run (doValPack m v format)) ⟨bufferInitHeap m 1024, 2⟩ =
          pure (.ok (), ⟨b, k⟩) := by
        rw [doValPack_eq]
        exact write_ok he hw
      refine Or.inl ⟨b, ?_, ?_⟩
      · simp only [hret, pure_bind]
      · rw [hcont, Buffer.contents, bufferInitHeap, List.take_zero]
        rfl
    · have hret : StateT.run (ExceptT.run (doValPack m v format)) ⟨bufferInitHeap m 1024, 2⟩ =
          pure (.error .ENOMEM, s) := by
        rw [doValPack_eq]
        exact hw.bind_error
      refine Or.inr ⟨?_, i + 2, n, hi, hn, by rwa [Nat.add_comm 2 i] at hno⟩
      simp only [hret, pure_bind]
  · rw [ha]
    rcases hno with hno | hno
    · exact Or.inr ⟨rfl, 0, _, rfl, by decide, hno⟩
    · exact Or.inr ⟨rfl, 1, _, rfl, by decide, hno⟩

end Pack

section PackInto

variable {buf : Option Bytes} {bufsize : Nat} (hbuf : bufsize ≤ (buf.getD []).length)
  (hmax : (buf.getD []).length ≤ ssizeMax)

/-- The static buffer that `val_pack_into` puts over the memory of the caller. -/
def intoBuffer (buf : Option Bytes) (bufsize : Nat) : Buffer :=
  { data := buf, off := 0, size := 0, allocsize := bufsize, ops := .staticRw }

theorem valPackInto_eq {r : Except Errno Unit} {s : BufferState}
    (h : Returns ((encoding v format).write m) ⟨intoBuffer buf bufsize, 0⟩ r s) :
    valPackInto m v buf bufsize format =
      pure (r.map fun _ => toOffT s.buffer.size, s.buffer.data) := by
  have hret : StateT.run (ExceptT.run (doValPack m v format)) ⟨intoBuffer buf bufsize, 0⟩ =
      pure (r, s) := by
    rw [doValPack_eq]
    exact h
  have hinit : bufferInitStatic buf 0 bufsize true = pure (intoBuffer buf bufsize) := by
    simp [bufferInitStatic, intoBuffer]
  rw [valPackInto, hinit, pure_bind, hret, pure_bind]
  cases r <;> rfl

include hbuf hmax

theorem staticRoom_into : StaticRoom (intoBuffer buf bufsize) :=
  ⟨rfl, Nat.zero_le _, hbuf, hmax⟩

theorem valPackInto_fits (he : (encoding v format).error = none)
    (h : (encoding v format).bytes.length ≤ bufsize) :
    ∃ buf', valPackInto m v buf bufsize format =
        pure (.ok ((encoding v format).bytes.length : Int), buf') ∧
      buf'.getD [] = (encoding v format).bytes ++
        (buf.getD []).drop (encoding v format).bytes.length := by
  have hroom := staticRoom_into hbuf hmax
  obtain ⟨b, hw, -, -, hsize, hmem⟩ := writeChunks_static (m := m) (k := 0)
    (encoding v format).chunks hroom (by simpa [intoBuffer, Output.bytes] using h)
  refine ⟨b.data, ?_, ?_⟩
  · have hlen : b.size = (encoding v format).bytes.length := by
      rw [hsize, intoBuffer, Nat.zero_add]
      rfl
    rw [valPackInto_eq (write_ok he hw)]
    show pure (Except.ok (toOffT b.size), b.data) = _
    rw [hlen, toOffT_of_le (by omega)]
  · show b.memory = _
    rw [hmem, splice, intoBuffer, List.take_zero, List.nil_append, Nat.zero_add]
    rfl

theorem valPackInto_full (h : bufsize < (encoding v format).bytes.length)
    (hlt : (encoding v format).bytes.length ≤ ssizeMax) :
    ∃ buf', valPackInto m v buf bufsize format = pure (.error .ENOSPC, buf') ∧
      (buf'.getD []).length = (buf.getD []).length ∧
      (buf'.getD []).drop bufsize = (buf.getD []).drop bufsize := by
  have hroom := staticRoom_into hbuf hmax
  have hmem0 : (intoBuffer buf bufsize).memory = buf.getD [] := rfl
  obtain ⟨b, written, hw, hle, hmem⟩ := writeChunks_full (m := m) (k := 0)
    (encoding v format).chunks hroom (by simpa [intoBuffer, Output.bytes] using h) (by
      simp only [ssizeMax, Output.bytes] at hlt
      simp only [intoBuffer]
      omega)
  have hle' : 0 + written.length ≤ bufsize := hle
  refine ⟨b.data, valPackInto_eq hw.bind_error, ?_, ?_⟩
  · show b.memory.length = _
    rw [hmem, hmem0]
    exact length_splice (hle'.trans hbuf)
  · show b.memory.drop bufsize = _
    rw [hmem, hmem0]
    exact drop_splice hle' hbuf

end PackInto

/-- `val_pack`, `val_size` and `val_pack_into` agree for every value and format whose encoding is not
too long to be an object in memory. -/
theorem val_pack_front_ends_agree (m : Machine) (v : Val) (format : ValFormat)
    (hfits : (encoding v format).error = none → (encoding v format).bytes.length ≤ ssizeMax) :
    (((∃ b, valPack m v format = pure (.ok b)) ↔ ∃ n, valSize m v format = pure (.ok n)) ∨
      (valPack m v format = pure (.error .ENOMEM) ∧
        ∃ i n, (valPackRequests v format)[i]? = some n ∧ n ≤ ssizeMax ∧ m.grants i (.bytes n) = false)) ∧
    ∀ n, valSize m v format = pure (.ok n) → ∃ bytes : Bytes, n = bytes.length ∧
      (∀ b, valPack m v format = pure (.ok b) → b.contents = bytes) ∧
      ∀ (buf : Option Bytes) (bufsize : Nat), bufsize ≤ (buf.getD []).length →
        (buf.getD []).length ≤ ssizeMax →
        (n ≤ bufsize → ∃ buf', valPackInto m v buf bufsize format = pure (.ok n, buf') ∧
          buf'.getD [] = bytes ++ (buf.getD []).drop bytes.length) ∧
        (bufsize < n → ∃ buf', valPackInto m v buf bufsize format = pure (.error .ENOSPC, buf') ∧
          (buf'.getD []).length = (buf.getD []).length ∧
          (buf'.getD []).drop bufsize = (buf.getD []).drop bufsize) := by
  cases he : (encoding v format).error with
  | some e =>
    have hsize : valSize m v format = pure (.error e) := valSize_error he
    have hno : ¬∃ n, valSize m v format = pure (.ok n) := by
      rintro ⟨n, hn⟩
      cases pure_inj (hsize.symm.trans hn)
    refine ⟨Or.inl ⟨?_, fun h => absurd h hno⟩, fun n hn => absurd ⟨n, hn⟩ hno⟩
    rintro ⟨b, hb⟩
    obtain ⟨s, hw, -⟩ := of_valPack_ok hb
    exact absurd hw (not_write_ok he)
  | none =>
    have hlen := hfits he
    have hsize := valSize_ok (m := m) he hlen
    refine ⟨?_, fun n hn => ⟨(encoding v format).bytes, ?_, ?_, ?_⟩⟩
    · rcases valPack_cases (m := m) he hlen with ⟨b, hb, -⟩ | hno
      · exact Or.inl ⟨fun _ => ⟨_, hsize⟩, fun _ => ⟨b, hb⟩⟩
      · exact Or.inr hno
    · exact Except.ok.inj (pure_inj (hn.symm.trans hsize))
    · intro b hb
      rcases valPack_cases (m := m) he hlen with ⟨b', hb', hcont⟩ | ⟨hno, -⟩
      · rw [Except.ok.inj (pure_inj (hb.symm.trans hb')), hcont]
      · cases pure_inj (hb.symm.trans hno)
    · intro buf bufsize hbuf hmax
      obtain rfl : n = ((encoding v format).bytes.length : Int) :=
        Except.ok.inj (pure_inj (hn.symm.trans hsize))
      refine ⟨fun h => valPackInto_fits hbuf hmax he (by omega), fun h => ?_⟩
      exact valPackInto_full hbuf hmax (by omega) hlen

/-- Four bytes of room for `[1,2]`, which takes five as JSON. -/
theorem val_pack_front_ends_agree_full :
    (∃ b, valPack .plenty (.array [.int 1, .int 2]) .json = pure (.ok b)) ∧
    ∃ buf', valPackInto .plenty (.array [.int 1, .int 2]) (some [9, 9, 9, 9]) 4 .json =
      pure (.error .ENOSPC, buf') := by
  have hsize : valSize .plenty (.array [.int 1, .int 2]) .json = pure (.ok 5) :=
    valSize_ok (by decide) (by decide)
  obtain ⟨hiff, hall⟩ := val_pack_front_ends_agree .plenty (.array [.int 1, .int 2]) .json
    fun _ => by decide
  obtain ⟨bytes, -, -, hinto⟩ := hall 5 hsize
  obtain ⟨buf', hfull, -⟩ := (hinto (some [9, 9, 9, 9]) 4 (by decide) (by decide)).2 (by decide)
  refine ⟨?_, buf', hfull⟩
  rcases hiff with hiff | ⟨-, i, n, -, hn, hno⟩
  · exact hiff.mpr ⟨5, hsize⟩
  · rw [Machine.plenty_ample.bytes i n hn] at hno
    cases hno

/-- A sink needs no memory, and a heap buffer does. -/
theorem val_pack_out_of_memory : (encoding .null .json).bytes.length ≤ ssizeMax ∧
    ¬((∃ b, valPack outOfMemory .null .json = pure (.ok b)) ↔
      ∃ n, valSize outOfMemory .null .json = pure (.ok n)) := by
  refine ⟨by decide, fun hiff => ?_⟩
  have hsize : valSize outOfMemory .null .json = pure (.ok 4) := valSize_ok (by decide) (by decide)
  obtain ⟨b, hb⟩ := hiff.mpr ⟨4, hsize⟩
  have hno : valPack outOfMemory .null .json = pure (.error .ENOMEM) := rfl
  cases pure_inj (hno.symm.trans hb)

end Libjeffpc
