import Libjeffpc.Buffer.Bounds
import Libjeffpc.Buffer.Proofs.ByteListProofs

/-!
# Sums that wrap around

An access whose offset and length have a sum of 2^64 or more passes the checks as if the sum were small,
and then leaves the memory of the buffer. No such call returns, so every state that a program reaches is
one of a usable buffer.
-/

namespace Libjeffpc

open Lib

variable {m : Machine} {b : Buffer} {k : Nat}

theorem addSize_wraps {a c : Nat} (ha : a < 2 ^ 64) (hc : c < 2 ^ 64) (h : 2 ^ 64 ≤ a + c) :
    addSize a c = a + c - 2 ^ 64 := by
  rw [addSize]
  omega

/-! ## Reading -/

theorem checkRead_ok (hb : b.Usable) : b.checkRead = .ok () := by
  have hne := hb.valid.ops_ne
  cases ho : b.ops <;> simp_all [Buffer.checkRead]

/-- Nothing is read behind the end, however long the read is. -/
theorem pread_behind (hb : b.Usable) {len off : Nat} (h : b.size ≤ off) :
    Returns (bufferPread len off) ⟨b, k⟩ (.ok []) ⟨b, k⟩ := by
  refine (returns_getBuffer _).bind ?_
  rw [checkRead_ok hb]
  refine (returns_liftExcept _ _).bind ?_
  simp only [ge_iff_le, h, if_true]
  exact Returns.pure _ _

/-- A read whose end wraps around runs off the memory. -/
theorem pread_wraps (hb : b.Usable) {len off : Nat} (hlen : len < 2 ^ 64) (hoff : off < b.size)
    (h : 2 ^ 64 ≤ off + len) : Faults (bufferPread len off) ⟨b, k⟩ := by
  have hmem := hb.valid.memory_le
  have hsize := hb.valid.size_le_ssizeMax
  simp only [ssizeMax] at hmem hsize
  obtain ⟨mem, hdata⟩ := hb.data
  have hcopy : b.copyout off len = throw .bounds := by
    have hlong : ¬off + len ≤ mem.length := by
      have : b.memory = mem := by rw [Buffer.memory, hdata]; rfl
      rw [this] at hmem
      omega
    have hne := hb.valid.ops_ne
    cases ho : b.ops with
    | sink => exact absurd ho hne
    | _ => simp [Buffer.copyout, ho, hdata, hlong]
  refine .after (returns_getBuffer _) ?_
  rw [checkRead_ok hb]
  refine .after (returns_liftExcept _ _) ?_
  have hret : (if off ≥ b.size then 0 else if addSize off len > b.size then subSize b.size off else len) =
      len := by
    rw [if_neg (by omega), if_neg (by rw [addSize_wraps (by omega) hlen h]; omega)]
  simp only [hret]
  rw [if_neg (by omega), hcopy]
  exact .lift _ _

/-! ## Writing -/

theorem Buffer.copyin_beyond (hb : b.Usable) (hw : b.Writable) {off : Nat} {new : Bytes}
    (h : b.memory.length < off + new.length) : b.copyin off new = throw .bounds := by
  obtain ⟨mem, hmem⟩ := hb.data
  have hmem' : b.memory = mem := by rw [memory, hmem, Option.getD_some]
  rw [hmem'] at h
  rcases hw with ho | ho <;>
  · simp only [copyin, ho, hmem, deref_some, pure_bind, if_neg (Nat.not_le_of_lt h)]

theorem Buffer.clear_beyond (hb : b.Usable) (hw : b.Writable) {off len : Nat}
    (h : b.memory.length < off + len) : b.clear off len = throw .bounds := by
  obtain ⟨mem, hmem⟩ := hb.data
  have hmem' : b.memory = mem := by rw [memory, hmem, Option.getD_some]
  rw [hmem'] at h
  rcases hw with ho | ho <;>
  · simp only [clear, ho, hmem, deref_some, pure_bind, if_neg (Nat.not_le_of_lt h)]

/-- Filling up to an offset and copying there, when the end is not in the memory. -/
theorem fill_beyond {α : Type} (hb : b.Usable) (hw : b.Writable) {off : Nat} {buf : Bytes}
    (h : b.memory.length < off + buf.length) (g : Buffer → BufM α) (s : BufferState) :
    Faults (if b.size < off then
      liftM (b.clear b.size (off - b.size)) >>= fun b => liftM (b.copyin off buf) >>= g
      else pure b >>= fun b => liftM (b.copyin off buf) >>= g : BufM α) s := by
  by_cases hoff : off ≤ b.memory.length
  · obtain ⟨b1, hclear, hf⟩ := clear_filled hb hw hoff
    have hw1 : b1.Writable := by
      rw [Buffer.Writable, hf.ops]
      exact hw
    have hcopy : b1.copyin off buf = throw .bounds :=
      Buffer.copyin_beyond hf.usable hw1 (by rw [hf.length]; exact h)
    have hfault : Faults (liftM (b1.copyin off buf) >>= g) s := by
      rw [hcopy]
      exact Faults.bind (.lift _ _) _
    split at hclear
    · rw [if_pos ‹_›, hclear]
      exact .after (Returns.lift _ _) hfault
    · rw [if_neg ‹_›, pure_inj hclear]
      exact .after (Returns.pure _ _) hfault
  · have hsize := hb.valid.size_le_memory
    rw [if_pos (by omega), Buffer.clear_beyond hb hw (by omega)]
    exact Faults.bind (.lift _ _) _

section Wraps

variable {buf : Bytes} {off : Nat}

/-- A write whose end wraps around is refused, or runs off the memory. -/
theorem pwrite_wraps (hb : b.Usable) (hbuf : buf.length < 2 ^ 64) (hoff : off < 2 ^ 64)
    (h : 2 ^ 64 ≤ off + buf.length) :
    (∃ e k', Returns (bufferPwrite m buf off) ⟨b, k⟩ (.error e) ⟨b, k'⟩) ∧
        RefusesWrapped m ⟨b, k⟩ (off + buf.length - 2 ^ 64) ∨
      Faults (bufferPwrite m buf off) ⟨b, k⟩ ∧ ¬RefusesWrapped m ⟨b, k⟩ (off + buf.length - 2 ^ 64) := by
  have hadd := addSize_wraps hoff hbuf h
  set n := off + buf.length - 2 ^ 64
  -- what is left after the check, once there is room for the wrapped sum
  have hwrite : ∀ b' k', b'.Usable → b'.Writable → Returns (resize m n) ⟨b, k⟩ (.ok ()) ⟨b', k'⟩ →
      b.checkWrite buf.length off = .ok () → Faults (bufferPwrite m buf off) ⟨b, k⟩ := by
    intro b' k' hb' hw' hr hok
    refine .after (returns_getBuffer _) ?_
    rw [hok, hadd]
    refine .after (returns_liftExcept _ _) (.after hr (.after (returns_getBuffer _) ?_))
    have hmem := hb'.valid.memory_le
    simp only [ssizeMax] at hmem
    exact fill_beyond hb' hw' (by omega) _ _
  have hrefused : ∀ e, b.checkWrite buf.length off = .error e →
      Returns (bufferPwrite m buf off) ⟨b, k⟩ (.error e) ⟨b, k⟩ := by
    intro e he
    refine (returns_getBuffer _).bind ?_
    rw [he]
    exact Returns.bind_error (returns_liftError e _)
  cases ho : b.ops with
  | sink => exact absurd ho hb.valid.ops_ne
  | staticRo =>
    refine Or.inl ⟨⟨.EROFS, k, hrefused _ ?_⟩, Or.inl ho⟩
    simp [Buffer.checkWrite, ho]
  | staticRw =>
    by_cases hn : n ≤ b.allocsize
    · refine Or.inr ⟨hwrite b k hb (Or.inr ho) (resize_enough hn) ?_, ?_⟩
      · simp [Buffer.checkWrite, ho, hadd, hn]
      · rintro (hro | ⟨hlt, -⟩)
        · cases ho.symm.trans hro
        · exact absurd hn (by simpa using hlt)
    · refine Or.inl ⟨⟨.ENOSPC, k, hrefused _ ?_⟩, Or.inr ⟨by simpa using hn, fun hheap => ?_⟩⟩
      · simp [Buffer.checkWrite, ho, hadd, hn]
      · cases ho.symm.trans hheap
  | heap =>
    have hok : b.checkWrite buf.length off = .ok () := by simp [Buffer.checkWrite, ho]
    rcases resize_cases (m := m) (k := k) hb (n := n) (Or.inl ho) with ⟨b', k', hr, hg, hno⟩ | ⟨-, hn, hg, hr⟩
    · refine Or.inr ⟨hwrite b' k' hg.usable (Or.inl (hg.ops.trans ho)) hr hok, ?_⟩
      rintro (hro | ⟨hlt, hgr⟩)
      · cases ho.symm.trans hro
      · exact hno ⟨ho, hlt, hgr ho⟩
    · refine Or.inl ⟨⟨.ENOMEM, k + 1, ?_⟩, Or.inr ⟨hn, fun _ => hg⟩⟩
      refine (returns_getBuffer _).bind ?_
      rw [hok, hadd]
      exact (returns_liftExcept _ _).bind (Returns.bind_error hr)

/-- An append whose end wraps around is refused by a read-only buffer only. -/
theorem append_wraps (hb : b.Usable) (hbuf : buf.length < 2 ^ 64) (h : 2 ^ 64 ≤ b.size + buf.length) :
    (∃ e, Returns (bufferAppend m buf) ⟨b, k⟩ (.error e) ⟨b, k⟩) ∧ b.ops = .staticRo ∨
      Faults (bufferAppend m buf) ⟨b, k⟩ ∧ b.ops ≠ .staticRo := by
  have hsize := hb.valid.size_le_ssizeMax
  have halloc := hb.valid.size_le
  have hmem := hb.valid.memory_le
  simp only [ssizeMax] at hsize hmem
  have hadd := addSize_wraps (a := b.size) (by omega) hbuf h
  have hn : b.size + buf.length - 2 ^ 64 ≤ b.allocsize := by omega
  have hfault : b.Writable → b.checkAppend buf.length = .ok () → Faults (bufferAppend m buf) ⟨b, k⟩ := by
    intro hw hok
    refine .after (returns_getBuffer _) ?_
    rw [hok]
    refine .after (returns_liftExcept _ _) ?_
    simp only [hadd, if_neg (by omega : ¬buf.length = 0)]
    refine .after (resize_enough hn) (.after (returns_getBuffer _) ?_)
    rw [Buffer.copyin_beyond hb hw (by omega)]
    exact Faults.bind (.lift _ _) _
  cases ho : b.ops with
  | sink => exact absurd ho hb.valid.ops_ne
  | staticRo =>
    refine Or.inl ⟨⟨.EROFS, ?_⟩, rfl⟩
    refine (returns_getBuffer _).bind ?_
    have hcheck : b.checkAppend buf.length = .error .EROFS := by simp [Buffer.checkAppend, ho]
    rw [hcheck]
    exact Returns.bind_error (returns_liftError _ _)
  | staticRw =>
    refine Or.inr ⟨hfault (Or.inr ho) ?_, by simp⟩
    simp only [Buffer.checkAppend, ho, hadd]
    exact if_pos hn
  | heap =>
    refine Or.inr ⟨hfault (Or.inl ho) ?_, by simp⟩
    simp [Buffer.checkAppend, ho]

end Wraps

/-- The least `off_t` has no negation. -/
theorem seek_min (s : BufferState) {offset : Int} {whence : Whence}
    (hmin : (BufCall.seek offset whence).NegatesMin) : Faults (bufferSeek offset whence) s := by
  obtain ⟨rfl, hwhence⟩ := hmin
  refine .after (returns_getBuffer _) (Faults.bind ?_ _)
  rcases hwhence with rfl | rfl
  · rw [seekTarget, if_neg (by omega), if_pos (by decide), negOffT, if_pos rfl]
    exact Faults.bind (.lift _ _) _
  · rw [seekTarget, if_neg (by decide), negOffT, if_pos rfl]
    exact Faults.bind (.lift _ _) _

/-! ## States that are reached -/

/-- A call that returns leaves a usable buffer. -/
theorem exec_usable (hb : b.Usable) {c : BufCall} (hc : c.Typed) {r : Except Errno BufResult}
    {s' : BufferState} (h : Returns (c.exec m) ⟨b, k⟩ r s') : s'.buffer.Usable := by
  have hlen : b.toByteList.bytes.length = b.size := hb.valid.length_contents
  have hsize := hb.valid.size_le_ssizeMax
  have hoff := hb.valid.off_le
  simp only [ssizeMax] at hsize
  by_cases hin : b.toByteList.InRange c ∧ ¬c.NegatesMin
  · exact ((step_ok (m := m) (k := k) hb hin.1 hin.2).post h).usable
  -- an error leaves the buffer alone, and a fault is no return
  have hsame : ∀ {s₁ : BufferState} {r₁ : Except Errno BufResult}, s₁.buffer = b →
      Returns (c.exec m) ⟨b, k⟩ r₁ s₁ → s'.buffer.Usable := by
    intro s₁ r₁ hs₁ h₁
    rw [(h.unique h₁).2, hs₁]
    exact hb
  have hpwrite : ∀ {buf : Bytes} {off : Nat}, buf.length < 2 ^ 64 → off < 2 ^ 64 →
      2 ^ 64 ≤ off + buf.length → (∃ e k', Returns (bufferPwrite m buf off) ⟨b, k⟩ (.error e) ⟨b, k'⟩) ∨
        Faults (bufferPwrite m buf off) ⟨b, k⟩ := by
    intro buf off hbuf hoff hwrap
    exact (pwrite_wraps (m := m) (k := k) hb hbuf hoff hwrap).imp And.left And.left
  cases c with
  | append data =>
    have hwrap : 2 ^ 64 ≤ b.size + data.length := by
      by_contra hlt
      exact hin ⟨by rw [ByteList.InRange, hlen]; omega, not_false⟩
    rcases append_wraps (m := m) (k := k) hb hc hwrap with ⟨⟨e, he⟩, -⟩ | ⟨hf, -⟩
    · exact hsame rfl (Returns.bind_error he)
    · exact absurd h (hf.bind _).not_returns
  | read len =>
    have hwrap : 2 ^ 64 ≤ b.off + len := by
      by_contra hlt
      exact hin ⟨not_le.mp hlt, not_false⟩
    by_cases hend : b.off < b.size
    · have hf := pread_wraps (k := k) hb hc hend hwrap
      exact absurd h ((Faults.after (returns_getBuffer _) (hf.bind _)).bind _).not_returns
    · have hread : Returns (bufferRead len) ⟨b, k⟩ (.ok []) ⟨b, k⟩ := by
        refine (returns_getBuffer _).bind ((pread_behind hb (not_lt.mp hend)).bind ?_)
        show Returns (setBuffer { b with off := addSize b.off 0 } >>= fun _ => pure []) _ _ _
        rw [addSize_of_le (by simp only [sizeMax]; omega)]
        exact (returns_setBuffer _ _).bind (Returns.pure _ _)
      exact hsame rfl (hread.bind (Returns.pure _ _))
  | write buf =>
    have hwrap : 2 ^ 64 ≤ b.off + buf.length := by
      by_contra hlt
      exact hin ⟨not_le.mp hlt, not_false⟩
    rcases hpwrite hc (by omega) hwrap with ⟨e, k', he⟩ | hf
    · exact hsame rfl (Returns.bind_error ((returns_getBuffer _).bind (Returns.bind_error he)))
    · exact absurd h ((Faults.after (returns_getBuffer _) (hf.bind _)).bind _).not_returns
  | pread len off =>
    have hwrap : 2 ^ 64 ≤ off + len := by
      by_contra hlt
      exact hin ⟨not_le.mp hlt, not_false⟩
    by_cases hend : off < b.size
    · exact absurd h ((pread_wraps (k := k) hb hc.1 hend hwrap).bind _).not_returns
    · exact hsame rfl ((pread_behind hb (not_lt.mp hend)).bind (Returns.pure _ _))
  | pwrite buf off =>
    have hwrap : 2 ^ 64 ≤ off + buf.length := by
      by_contra hlt
      exact hin ⟨not_le.mp hlt, not_false⟩
    rcases hpwrite hc.1 hc.2 hwrap with ⟨e, k', he⟩ | hf
    · exact hsame rfl (Returns.bind_error he)
    · exact absurd h (hf.bind _).not_returns
  | seek offset whence =>
    have hmin : (BufCall.seek offset whence).NegatesMin := by
      by_contra hmin
      exact hin ⟨hc, hmin⟩
    exact absurd h ((seek_min _ hmin).bind _).not_returns
  | truncate size => exact absurd ⟨hc, not_false⟩ hin

theorem BufferState.Reachable.usable {s : BufferState} (h : s.Reachable m) : s.buffer.Usable := by
  induction h with
  | initial hb => exact hb.usable
  | step _ hc hr ih => exact exec_usable ih hc hr

/-! ## Positional access -/

theorem readsInside_iff {s : BufferState} (hs : s.buffer.Usable) {len off : Nat} (hlen : len < 2 ^ 64) :
    ReadsInside m s len off ↔ s.buffer.size ≤ off ∨ off + len < 2 ^ 64 := by
  constructor
  · intro h
    by_contra hno
    push Not at hno
    exact ((pread_wraps hs hlen hno.1 hno.2).bind _).not_returns h
  · rintro (h | h)
    · have hnil : (s.buffer.contents.drop off).take len = [] := by
        rw [List.drop_eq_nil_of_le (hs.valid.length_contents.trans_le h), List.take_nil]
      rw [ReadsInside, hnil]
      exact (pread_behind hs h).bind (Returns.pure _ _)
    · exact (returns_pread hs h).bind (Returns.pure _ _)

/-- A call in range fails, or has room for all that the list has afterwards. -/
theorem StepOk.writesInside {s : BufferState} {c : BufCall} {last : Nat}
    (h : Triple (c.exec m) s (StepOk m s.buffer s.allocs c))
    (hlast : ∀ x σ, s.buffer.toByteList.spec c = some (x, σ) → last ≤ σ.bytes.length) :
    WritesInside m s c last := by
  obtain ⟨r, s', hr, hstep⟩ := h
  refine ⟨r, s', hr, ?_⟩
  cases r with
  | error e => exact Or.inl ⟨⟨e, rfl⟩, hstep.failed e rfl⟩
  | ok x =>
    have hv := hstep.usable.valid
    have hle := hlast x _ (hstep.done x rfl)
    have hlen : s'.buffer.toByteList.bytes.length = s'.buffer.size := hv.length_contents
    exact Or.inr ⟨⟨x, rfl⟩, hv.size_le, hlen ▸ hle, hv.alloc_le⟩

/-- Positional reads and writes and appends, for every offset and length and every buffer that a program
can have. They stay inside of the buffer if and only if the sum of the offset (or size) and the length does
not wrap around, nothing is there to be read, or the write is refused all the same. -/
theorem buffer_access_iff {s : BufferState} (hs : s.Reachable m) {len off : Nat} {buf : Bytes}
    (hlen : len < 2 ^ 64) (hoff : off < 2 ^ 64) (hbuf : buf.length < 2 ^ 64) :
    (ReadsInside m s len off ↔ s.buffer.size ≤ off ∨ off + len < 2 ^ 64) ∧
    (WritesInside m s (.pwrite buf off) (off + buf.length) ↔
      off + buf.length < 2 ^ 64 ∨ RefusesWrapped m s (off + buf.length - 2 ^ 64)) ∧
    (WritesInside m s (.append buf) (s.buffer.size + buf.length) ↔
      s.buffer.size + buf.length < 2 ^ 64 ∨ s.buffer.ops = .staticRo) := by
  have hb := hs.usable
  have hcont : s.buffer.toByteList.bytes.length = s.buffer.size := hb.valid.length_contents
  refine ⟨readsInside_iff hb hlen, ?_, ?_⟩
  · by_cases hwrap : off + buf.length < 2 ^ 64
    · refine iff_of_true (StepOk.writesInside (step_pwrite hb hwrap) ?_) (Or.inl hwrap)
      intro x σ hspec
      obtain ⟨-, rfl⟩ := Prod.mk.inj (Option.some.inj hspec)
      simp only [ByteList.pwrite, ByteList.padTake, List.length_append, List.length_take,
        List.length_replicate, List.length_drop]
      omega
    · rw [or_iff_right hwrap]
      rcases pwrite_wraps (m := m) (k := s.allocs) hb hbuf hoff (not_lt.mp hwrap) with
        ⟨⟨e, k', he⟩, href⟩ | ⟨hf, href⟩
      · exact iff_of_true ⟨_, _, Returns.bind_error he, Or.inl ⟨⟨e, rfl⟩, rfl⟩⟩ href
      · refine iff_of_false ?_ href
        rintro ⟨r, s', hr, -⟩
        exact (hf.bind _).not_returns hr
  · by_cases hwrap : s.buffer.size + buf.length < 2 ^ 64
    · refine iff_of_true (StepOk.writesInside (step_append hb (by rwa [ByteList.InRange, hcont])) ?_)
        (Or.inl hwrap)
      intro x σ hspec
      obtain ⟨-, rfl⟩ := Prod.mk.inj (Option.some.inj hspec)
      rw [List.length_append, hcont]
    · rw [or_iff_right hwrap]
      rcases append_wraps (m := m) (k := s.allocs) hb hbuf (not_lt.mp hwrap) with ⟨⟨e, he⟩, ho⟩ | ⟨hf, ho⟩
      · exact iff_of_true ⟨_, _, Returns.bind_error he, Or.inl ⟨⟨e, rfl⟩, rfl⟩⟩ ho
      · refine iff_of_false ?_ ho
        rintro ⟨r, s', hr, -⟩
        exact (hf.bind _).not_returns hr

/-- An empty heap buffer. -/
def emptyHeap : BufferState := ⟨bufferInitHeap .plenty 4, 0⟩

theorem emptyHeap_reachable : emptyHeap.Reachable .plenty := .initial (.heap (by decide)) 0

theorem buffer_access_iff_empty : ReadsInside .plenty emptyHeap 9 7 ∧
    WritesInside .plenty emptyHeap (.pwrite [1, 2] 7) 9 ∧ WritesInside .plenty emptyHeap (.append [1, 2]) 2 := by
  obtain ⟨hread, hwrite, happend⟩ := buffer_access_iff emptyHeap_reachable (by decide : 9 < 2 ^ 64)
    (by decide : 7 < 2 ^ 64) (by decide : [(1 : UInt8), 2].length < 2 ^ 64)
  exact ⟨hread.mpr (Or.inr (by decide)), hwrite.mpr (Or.inl (by decide)), happend.mpr (Or.inl (by decide))⟩

/-- One byte at the offset 2^64 - 1 of an empty heap buffer: the check of the sum, which is 0, passes. -/
theorem buffer_pwrite_wraps : emptyHeap.Reachable .plenty ∧
    ¬WritesInside .plenty emptyHeap (.pwrite [1] (2 ^ 64 - 1)) (2 ^ 64) := by
  refine ⟨emptyHeap_reachable, ?_⟩
  rintro ⟨r, s', hr, -⟩
  rcases @pwrite_wraps .plenty _ 0 [1] (2 ^ 64 - 1) emptyHeap_reachable.usable (by decide) (by decide)
    (by decide) with ⟨-, href⟩ | ⟨hf, -⟩
  · rcases href with hro | ⟨hlt, -⟩
    · cases hro
    · exact absurd hlt (by decide)
  · exact (hf.bind _).not_returns hr

/-! ## Seeking -/

/-- For every buffer, also a sink whose size is no `ssize_t`, `buffer_seek` is exact if and only if it does
not have to negate the least offset. -/
theorem buffer_seek_iff (s : BufferState) (hoff : s.buffer.off ≤ s.buffer.size)
    (hsize : s.buffer.size < 2 ^ 64) {offset : Int} (hlo : -2 ^ 63 ≤ offset) (hhi : offset < 2 ^ 63)
    {whence : Whence} (hwhence : whence ≠ .invalid) :
    SeeksExactly s offset whence ↔ ¬(offset = -2 ^ 63 ∧ whence ≠ .seekSet) := by
  have hneg : (BufCall.seek offset whence).NegatesMin ↔ offset = -2 ^ 63 ∧ whence ≠ .seekSet := by
    rw [BufCall.NegatesMin]
    cases whence <;> simp_all
  rw [← hneg]
  constructor
  · intro h hmin
    rw [SeeksExactly] at h
    split_ifs at h
    · exact (seek_min s hmin).not_returns h
    · obtain ⟨e, he⟩ := h
      exact (seek_min s hmin).not_returns he
  · intro hmin
    have htarget := seekTarget_exact hoff hsize hlo hhi hmin
    rw [SeeksExactly]
    set t := s.buffer.seekTo offset whence
    by_cases hin : 0 ≤ t ∧ t ≤ s.buffer.size
    · rw [if_pos hin] at htarget
      by_cases hmax : t ≤ ssizeMax
      · rw [if_pos ⟨hin.1, hin.2, hmax⟩]
        refine (returns_getBuffer _).bind ?_
        rw [htarget]
        refine (Returns.pure _ _).bind ?_
        rw [if_neg (by omega)]
        exact (returns_setBuffer _ _).bind (Returns.pure _ _)
      · rw [if_neg fun h => hmax h.2.2]
        refine ⟨.EOVERFLOW, (returns_getBuffer _).bind ?_⟩
        rw [htarget]
        refine (Returns.pure _ _).bind ?_
        rw [if_pos (by omega)]
        exact Returns.bind_error (Returns.throw _ _)
    · rw [if_neg hin] at htarget
      rw [if_neg fun h => hin ⟨h.1, h.2.1⟩]
      refine ⟨.EINVAL, (returns_getBuffer _).bind ?_⟩
      rw [htarget]
      exact Returns.bind_error (Returns.throw _ _)

/-- A sink of 2^63 + 5 bytes: its last place cannot be returned. -/
def largeSink : Buffer := { bufferInitSink with size := 2 ^ 63 + 5 }

theorem buffer_seek_iff_sink : SeeksExactly ⟨largeSink, 0⟩ 0 .seekEnd ∧
    SeeksExactly ⟨largeSink, 0⟩ (-7) .seekEnd := by
  constructor
  · exact (buffer_seek_iff ⟨largeSink, 0⟩ (Nat.zero_le _) (by decide) (by decide) (by decide)
      (by decide)).mpr (by decide)
  · exact (buffer_seek_iff ⟨largeSink, 0⟩ (Nat.zero_le _) (by decide) (by decide) (by decide)
      (by decide)).mpr (by decide)

/-- To seek by -2^63 from the current place is undefined, although there is no such place. -/
theorem buffer_seek_overflows : ¬SeeksExactly ⟨bufferInitSink, 0⟩ (-2 ^ 63) .seekCur := by
  intro h
  rw [SeeksExactly] at h
  split_ifs at h
  · exact (seek_min _ ⟨rfl, Or.inl rfl⟩).not_returns h
  · obtain ⟨e, he⟩ := h
    exact (seek_min _ ⟨rfl, Or.inl rfl⟩).not_returns he

end Libjeffpc
