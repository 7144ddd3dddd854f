import Libjeffpc.Buffer.ByteList
import Libjeffpc.Buffer.Proofs.BufferProofs

/-!
# Buffers are byte lists with a cursor

Every call keeps `Usable`, and does to the contents and the offset what the reference list says. Bytes
behind `size` may be left over from before a truncation; a call that extends the contents writes all
of the bytes that it adds, so that none of the old ones comes back.
-/

namespace Libjeffpc

open Lib

/-! ## Memory -/

/-- Write bytes at an index. -/
def splice (mem : Bytes) (off : Nat) (new : Bytes) : Bytes :=
  mem.take off ++ new ++ mem.drop (off + new.length)

section Splice

variable {mem new : Bytes} {off : Nat} (h : off + new.length ≤ mem.length)
include h

theorem length_splice : (splice mem off new).length = mem.length := by
  simp only [splice, List.length_append, List.length_take, List.length_drop]
  omega

theorem take_splice : (splice mem off new).take off = mem.take off := by
  rw [splice, List.append_assoc, List.take_append_of_le_length (by simp; omega), List.take_take,
    Nat.min_self]

/-- What is before the end of the bytes that are written. -/
theorem take_splice_end : (splice mem off new).take (off + new.length) = mem.take off ++ new := by
  have hlen : (mem.take off ++ new).length = off + new.length := by
    rw [List.length_append, List.length_take]
    omega
  rw [splice, ← hlen, List.take_left]

/-- What is between the bytes that are written and a later index. -/
theorem take_splice_max (size : Nat) :
    (splice mem off new).take (max size (off + new.length)) =
      mem.take off ++ new ++ (mem.take size).drop (off + new.length) := by
  have hlen : (mem.take off ++ new).length = off + new.length := by
    rw [List.length_append, List.length_take]
    omega
  have hmax : max size (off + new.length) = (mem.take off ++ new).length + (size - (off + new.length)) := by
    omega
  rw [splice, hmax, List.take_length_add_append, List.drop_take]

end Splice

namespace Buffer

/-- The ways of a buffer that can be written to. -/
def Writable (b : Buffer) : Prop := b.ops = .heap ∨ b.ops = .staticRw

def store (b : Buffer) (off : Nat) (new : Bytes) : Buffer :=
  { b with data := some (splice b.memory off new) }

variable {b : Buffer}

theorem memory_store (off : Nat) (new : Bytes) : (b.store off new).memory = splice b.memory off new :=
  rfl

theorem copyin_eq (hb : b.Usable) (hw : b.Writable) {off : Nat} {new : Bytes}
    (h : off + new.length ≤ b.memory.length) : b.copyin off new = pure (b.store off new) := by
  obtain ⟨mem, hmem⟩ := hb.data
  have hmem' : b.memory = mem := by rw [memory, hmem, Option.getD_some]
  rw [hmem'] at h
  rcases hw with ho | ho <;>
  · simp only [copyin, ho, hmem, deref_some, pure_bind, if_pos h, store, hmem', splice]

theorem clear_eq (hb : b.Usable) (hw : b.Writable) {off len : Nat} (h : off + len ≤ b.memory.length) :
    b.clear off len = pure (b.store off (List.replicate len 0)) := by
  obtain ⟨mem, hmem⟩ := hb.data
  have hmem' : b.memory = mem := by rw [memory, hmem, Option.getD_some]
  rw [hmem'] at h
  rcases hw with ho | ho <;>
  · simp only [clear, ho, hmem, deref_some, pure_bind, if_pos h, store, hmem', splice,
      List.length_replicate]

/-- New bytes and a new size, with the offset inside. -/
theorem Usable.store (hb : b.Usable) {off : Nat} {new : Bytes} {size off' : Nat}
    (h : off + new.length ≤ b.memory.length) (hsize : size ≤ b.allocsize) (hoff : off' ≤ size) :
    ({ b.store off new with size, off := off' } : Buffer).Usable := by
  have hlen : (splice b.memory off new).length = b.memory.length := length_splice h
  refine ⟨⟨hb.valid.ops_ne, hoff, hsize, ?_, ?_⟩, _, rfl⟩
  · show b.allocsize ≤ (splice b.memory off new).length
    rw [hlen]
    exact hb.valid.alloc_le
  · show (splice b.memory off new).length ≤ ssizeMax
    rw [hlen]
    exact hb.valid.memory_le

end Buffer

/-! ## Room -/

variable {m : Machine} {b : Buffer} {k : Nat}

/-- The same buffer with room for `n` bytes. -/
structure Grown (b b' : Buffer) (n : Nat) : Prop where
  usable : b'.Usable
  ops : b'.ops = b.ops
  off : b'.off = b.off
  size : b'.size = b.size
  contents : b'.contents = b.contents
  allocsize : b'.allocsize = max b.allocsize n

theorem Grown.room {b b' : Buffer} {n : Nat} (hg : Grown b b' n) : n ≤ b'.allocsize := by
  rw [hg.allocsize]
  exact le_max_right _ _

theorem resize_enough {n : Nat} (hn : n ≤ b.allocsize) :
    Returns (resize m n) ⟨b, k⟩ (.ok ()) ⟨b, k⟩ := by
  refine (returns_getBuffer _).bind ?_
  simp only [hn, if_true]
  exact Returns.pure _ _

theorem resize_refused (ho : b.ops = .heap) {n : Nat} (hn : b.allocsize < n)
    (hg : m.grants k (.bytes n) = false) :
    Returns (resize m n) ⟨b, k⟩ (.error .ENOMEM) ⟨b, k + 1⟩ := by
  refine (returns_getBuffer _).bind ?_
  simp only [Nat.not_le_of_lt hn, if_false, ho, ne_eq, not_true_eq_false]
  refine (returns_request m _ _).bind ?_
  simp only [hg, Bool.false_eq_true, if_false]
  exact Returns.throw _ _

theorem resize_granted (hb : b.Usable) (ho : b.ops = .heap) {n : Nat} (hn : b.allocsize < n)
    (hg : m.grants k (.bytes n) = true) :
    ∃ b', Returns (resize m n) ⟨b, k⟩ (.ok ()) ⟨b', k + 1⟩ ∧ Grown b b' n := by
  have hle := m.grants_le k n hg
  have hsize := hb.valid.size_le
  have halloc := hb.valid.alloc_le
  let old := (b.data.getD []).take n
  let tmp := old ++ (List.range (n - old.length)).map m.fresh
  have hold : old.length ≤ n := List.length_take_le _ _
  have htmp : tmp.length = n := by
    simp only [tmp, List.length_append, List.length_map, List.length_range]
    omega
  refine ⟨{ b with data := some tmp, allocsize := n }, ?_, ?_⟩
  · refine (returns_getBuffer _).bind ?_
    simp only [Nat.not_le_of_lt hn, if_false, ho, ne_eq, not_true_eq_false]
    refine (returns_request m _ _).bind ?_
    simp only [hg, if_true]
    exact returns_setBuffer _ _
  · refine ⟨⟨⟨hb.valid.ops_ne, hb.valid.off_le, by show b.size ≤ n; omega, ?_, ?_⟩, _, rfl⟩, rfl, rfl,
      rfl, ?_, (max_eq_right hn.le).symm⟩
    · show n ≤ tmp.length
      omega
    · show tmp.length ≤ ssizeMax
      omega
    · show tmp.take b.size = b.memory.take b.size
      have hmem : b.size ≤ b.memory.length := hsize.trans halloc
      have holdlen : b.size ≤ old.length := by
        show b.size ≤ (b.memory.take n).length
        rw [List.length_take]
        omega
      rw [List.take_append_of_le_length holdlen, List.take_take, Nat.min_eq_left (by omega)]
      rfl

/-- A buffer that can be written to gets room, or the request for more memory is refused. -/
theorem resize_cases (hb : b.Usable) {n : Nat} (hfits : b.ops = .heap ∨ n ≤ b.allocsize) :
    (∃ b' k', Returns (resize m n) ⟨b, k⟩ (.ok ()) ⟨b', k'⟩ ∧ Grown b b' n ∧
      ¬(b.ops = .heap ∧ b.allocsize < n ∧ m.grants k (.bytes n) = false)) ∨
    (b.ops = .heap ∧ b.allocsize < n ∧ m.grants k (.bytes n) = false ∧
      Returns (resize m n) ⟨b, k⟩ (.error .ENOMEM) ⟨b, k + 1⟩) := by
  rcases Nat.lt_or_ge b.allocsize n with hn | hn
  · have ho : b.ops = .heap := hfits.resolve_right (by omega)
    cases hg : m.grants k (.bytes n) with
    | false => exact Or.inr ⟨ho, hn, rfl, resize_refused ho hn hg⟩
    | true =>
      obtain ⟨b', hr, hgrown⟩ := resize_granted hb ho hn hg
      exact Or.inl ⟨b', k + 1, hr, hgrown, by simp⟩
  · exact Or.inl ⟨b, k, resize_enough hn, ⟨hb, rfl, rfl, rfl, rfl, (max_eq_left hn).symm⟩, by omega⟩

/-! ## One call -/

/-- What a call leaves behind, whatever it returns. -/
structure StepOk (m : Machine) (b : Buffer) (k : Nat) (c : BufCall) (r : Except Errno BufResult)
    (s' : BufferState) : Prop where
  usable : s'.buffer.Usable
  ops : s'.buffer.ops = b.ops
  done : ∀ x, r = .ok x → b.toByteList.spec c = some (x, s'.buffer.toByteList)
  failed : ∀ e, r = .error e → s'.buffer = b
  refused : ∀ e, r = .error e ↔ Refusal m b k c e

theorem Refusal.unique {c : BufCall} {e e' : Errno} (h : Refusal m b k c e) (h' : Refusal m b k c e') :
    e = e' := by
  cases h with
  | seek ht =>
    cases h' with
    | seek => rfl
    | readOnly hn => cases hn
    | full hn => cases hn
    | noMemory hn => cases hn
  | readOnly hn ho =>
    cases h' with
    | seek => cases hn
    | readOnly => rfl
    | full _ ho' => cases ho.symm.trans ho'
    | noMemory _ ho' => cases ho.symm.trans ho'
  | full hn ho =>
    cases h' with
    | seek => cases hn
    | readOnly _ ho' => cases ho.symm.trans ho'
    | full => rfl
    | noMemory _ ho' => cases ho.symm.trans ho'
  | noMemory hn ho =>
    cases h' with
    | seek => cases hn
    | readOnly _ ho' => cases ho.symm.trans ho'
    | full _ ho' => cases ho.symm.trans ho'
    | noMemory => rfl

theorem stepOk_error (hb : b.Usable) {c : BufCall} {e : Errno} (h : Refusal m b k c e) (k' : Nat) :
    StepOk m b k c (.error e) ⟨b, k'⟩ := by
  refine ⟨hb, rfl, by simp, fun _ _ => rfl, fun e' => ⟨?_, fun h' => congrArg _ (h.unique h')⟩⟩
  rintro he
  cases he
  exact h

theorem stepOk_ok {b' : Buffer} {c : BufCall} {x : BufResult} {k' : Nat} (hb : b'.Usable)
    (ho : b'.ops = b.ops) (hspec : b.toByteList.spec c = some (x, b'.toByteList))
    (hno : ∀ e, ¬Refusal m b k c e) : StepOk m b k c (.ok x) ⟨b', k'⟩ := by
  refine ⟨hb, ho, ?_, by simp, fun e => ⟨by simp, fun h => absurd h (hno e)⟩⟩
  rintro y hy
  cases hy
  exact hspec

/-- A call that changes the bytes: it checks, makes room, and writes. -/
theorem writing_call (hb : b.Usable) {c : BufCall} {n : Nat} (hneeds : b.toByteList.needs c = some n)
    {f : BufM BufResult}
    (hcheck : ∀ e, b.checkTruncate n = .error e → Returns f ⟨b, k⟩ (.error e) ⟨b, k⟩)
    (hresize : b.checkTruncate n = .ok () → b.allocsize < n →
      Returns (resize m n) ⟨b, k⟩ (.error .ENOMEM) ⟨b, k + 1⟩ →
      Returns f ⟨b, k⟩ (.error .ENOMEM) ⟨b, k + 1⟩)
    (hwrite : ∀ b' k', b.checkTruncate n = .ok () →
      Returns (resize m n) ⟨b, k⟩ (.ok ()) ⟨b', k'⟩ → Grown b b' n → b'.Writable →
      ∃ x b'' k'', Returns f ⟨b, k⟩ (.ok x) ⟨b'', k''⟩ ∧ b''.Usable ∧ b''.ops = b'.ops ∧
        b.toByteList.spec c = some (x, b''.toByteList)) :
    Triple f ⟨b, k⟩ (StepOk m b k c) := by
  have hcases : (∃ e, b.checkTruncate n = .error e ∧ Refusal m b k c e) ∨
      (b.checkTruncate n = .ok () ∧ b.Writable ∧ (b.ops = .heap ∨ n ≤ b.allocsize)) := by
    cases ho : b.ops with
    | heap => exact Or.inr ⟨by simp [Buffer.checkTruncate, ho], Or.inl ho, Or.inl rfl⟩
    | sink => exact absurd ho hb.valid.ops_ne
    | staticRo => exact Or.inl ⟨.EROFS, by simp [Buffer.checkTruncate, ho], .readOnly hneeds ho⟩
    | staticRw =>
      by_cases hn : n ≤ b.allocsize
      · exact Or.inr ⟨by simp [Buffer.checkTruncate, ho, hn], Or.inr ho, Or.inr hn⟩
      · exact Or.inl ⟨.ENOSPC, by simp [Buffer.checkTruncate, ho, hn], .full hneeds ho (by omega)⟩
  rcases hcases with ⟨e, he, href⟩ | ⟨hok, hw, hfits⟩
  · exact .of_returns (hcheck e he) (stepOk_error hb href k)
  · rcases resize_cases (m := m) (k := k) hb hfits with ⟨b', k', hr, hg, hno⟩ | ⟨ho, hn, hg, hr⟩
    · have hw' : b'.Writable := by
        rw [Buffer.Writable, hg.ops]
        exact hw
      obtain ⟨x, b'', k'', hf, hb'', ho, hspec⟩ := hwrite b' k' hok hr hg hw'
      refine .of_returns hf (stepOk_ok hb'' (ho.trans hg.ops) hspec fun e href => ?_)
      cases href with
      | seek => cases hneeds
      | readOnly _ ho' => rcases hw with h | h <;> cases h.symm.trans ho'
      | full hn' ho' hlt =>
        cases hneeds.symm.trans hn'
        rcases hfits with h | h
        · cases h.symm.trans ho'
        · omega
      | noMemory hn' ho' hlt hgr =>
        cases hneeds.symm.trans hn'
        exact hno ⟨ho', hlt, hgr⟩
    · exact .of_returns (hresize hok hn hr) (stepOk_error hb (.noMemory hneeds ho hn hg) (k + 1))

/-- `memory` of a buffer that has grown holds what is to be written. -/
theorem Grown.fits {b' : Buffer} {n : Nat} (hg : Grown b b' n) : n ≤ b'.memory.length :=
  hg.room.trans hg.usable.valid.alloc_le

section Append

variable {data : Bytes} (h : b.size + data.length < 2 ^ 64)
include h

theorem checkAppend_eq : b.checkAppend data.length = b.checkTruncate (b.size + data.length) := by
  have hadd : addSize b.size data.length = b.size + data.length := Nat.mod_eq_of_lt h
  rw [Buffer.checkAppend, hadd]
  rfl

theorem append_check {e : Errno} (he : b.checkTruncate (b.size + data.length) = .error e) :
    Returns (bufferAppend m data) ⟨b, k⟩ (.error e) ⟨b, k⟩ := by
  refine (returns_getBuffer _).bind ?_
  rw [checkAppend_eq h, he]
  exact Returns.bind_error (returns_liftError e _)

/-- Nothing to append: there is no need for room. -/
theorem append_nil (hok : b.checkTruncate (b.size + data.length) = .ok ()) (hne : data.length = 0) :
    Returns (bufferAppend m data) ⟨b, k⟩ (.ok ()) ⟨b, k⟩ := by
  refine (returns_getBuffer _).bind ?_
  rw [checkAppend_eq h, hok]
  refine (returns_liftExcept _ _).bind ?_
  simp only [hne, if_true]
  exact Returns.pure _ _

theorem append_noMemory (hok : b.checkTruncate (b.size + data.length) = .ok ()) (hne : data.length ≠ 0)
    (hr : Returns (resize m (b.size + data.length)) ⟨b, k⟩ (.error .ENOMEM) ⟨b, k + 1⟩) :
    Returns (bufferAppend m data) ⟨b, k⟩ (.error .ENOMEM) ⟨b, k + 1⟩ := by
  have hadd : addSize b.size data.length = b.size + data.length := Nat.mod_eq_of_lt h
  refine (returns_getBuffer _).bind ?_
  rw [checkAppend_eq h, hok]
  refine (returns_liftExcept _ _).bind ?_
  simp only [hne, if_false, hadd]
  exact Returns.bind_error hr

theorem append_ok (hb : b.Usable) {b' : Buffer} {k' : Nat}
    (hok : b.checkTruncate (b.size + data.length) = .ok ())
    (hr : Returns (resize m (b.size + data.length)) ⟨b, k⟩ (.ok ()) ⟨b', k'⟩)
    (hg : Grown b b' (b.size + data.length)) (hw : b'.Writable) :
    ∃ b'', Returns (bufferAppend m data) ⟨b, k⟩ (.ok ()) ⟨b'', k'⟩ ∧ b''.Usable ∧
      b''.ops = b.ops ∧ b''.off = b.off ∧ b''.allocsize = b'.allocsize ∧ b''.contents = b.contents ++ data := by
  have hadd : addSize b.size data.length = b.size + data.length := Nat.mod_eq_of_lt h
  by_cases hne : data.length = 0
  · have hroom : b.size + data.length ≤ b.allocsize := by
      have := hb.valid.size_le
      omega
    obtain ⟨-, hsame⟩ := hr.unique (resize_enough hroom)
    cases hsame
    refine ⟨b, append_nil h hok hne, hb, rfl, rfl, rfl, ?_⟩
    simp [List.eq_nil_of_length_eq_zero hne]
  · have hroom : b'.size + data.length ≤ b'.memory.length := hg.size ▸ hg.fits
    have hadd' : addSize b'.size data.length = b'.size + data.length := hg.size ▸ hadd
    let b'' : Buffer := { b'.store b'.size data with size := b'.size + data.length, off := b'.off }
    refine ⟨b'', ?_, ?_, hg.ops, hg.off, rfl, ?_⟩
    · refine (returns_getBuffer _).bind ?_
      rw [checkAppend_eq h, hok]
      refine (returns_liftExcept _ _).bind ?_
      simp only [hne, if_false, hadd]
      refine hr.bind ((returns_getBuffer _).bind ?_)
      rw [Buffer.copyin_eq hg.usable hw hroom]
      refine (Returns.lift _ _).bind ?_
      have hs : (b'.store b'.size data).size = b'.size := rfl
      rw [hs, hadd']
      exact returns_setBuffer _ _
    · have hoff := hg.usable.valid.off_le
      exact hg.usable.store hroom (hg.size ▸ hg.room) (by omega)
    · show (splice b'.memory b'.size data).take (b'.size + data.length) = _
      rw [take_splice_end hroom, ← hg.contents]
      rfl

end Append

theorem step_append (hb : b.Usable) {data : Bytes} (h : b.toByteList.InRange (.append data)) :
    Triple (BufCall.exec m (.append data)) ⟨b, k⟩ (StepOk m b k (.append data)) := by
  have hlen : b.contents.length = b.size := hb.valid.length_contents
  have hin : b.size + data.length < 2 ^ 64 := hlen ▸ h
  refine writing_call hb (n := b.size + data.length) (by simp [ByteList.needs, Buffer.toByteList, hlen])
    (fun e he => ?_) (fun hok hn hr => ?_) (fun b' k' hok hr hg hw => ?_)
  · exact Returns.bind_error (append_check hin he)
  · have hne : data.length ≠ 0 := by
      have := hb.valid.size_le
      omega
    exact Returns.bind_error (append_noMemory hin hok hne hr)
  · obtain ⟨b'', happ, hb'', ho, hoff, -, hcont⟩ := append_ok hin hb hok hr hg hw
    refine ⟨.done, b'', k', happ.bind (Returns.pure _ _), hb'', ho.trans hg.ops.symm, ?_⟩
    simp only [ByteList.spec, Buffer.toByteList, hcont, hoff]

/-- The same buffer, with zeros between the end of its contents and `n`. -/
structure Filled (b b' : Buffer) (n : Nat) : Prop where
  usable : b'.Usable
  ops : b'.ops = b.ops
  off : b'.off = b.off
  size : b'.size = b.size
  allocsize : b'.allocsize = b.allocsize
  length : b'.memory.length = b.memory.length
  contents : b'.contents = b.contents
  take : b'.memory.take n = b.toByteList.padTake n

/-- `clear` leaves no byte behind that an earlier truncation has cut off. -/
theorem clear_filled (hb : b.Usable) (hw : b.Writable) {n : Nat} (h : n ≤ b.memory.length) :
    ∃ b', (if b.size < n then b.clear b.size (n - b.size) else pure b) = pure b' ∧ Filled b b' n := by
  have hlen : b.contents.length = b.size := hb.valid.length_contents
  have hmem : b.size ≤ b.memory.length := hb.valid.size_le.trans hb.valid.alloc_le
  by_cases hn : b.size < n
  · have hroom : b.size + (List.replicate (n - b.size) (0 : UInt8)).length ≤ b.memory.length := by
      rw [List.length_replicate]
      omega
    have hend : b.size + (List.replicate (n - b.size) (0 : UInt8)).length = n := by
      rw [List.length_replicate]
      omega
    refine ⟨b.store b.size (List.replicate (n - b.size) 0), ?_, ?_⟩
    · rw [if_pos hn, Buffer.clear_eq hb hw (by omega)]
    · refine ⟨hb.store hroom hb.valid.size_le hb.valid.off_le, rfl, rfl, rfl, rfl, length_splice hroom,
        take_splice hroom, ?_⟩
      have htake := take_splice_end hroom
      rw [hend] at htake
      rw [Buffer.memory_store, htake, ByteList.padTake]
      show _ = b.contents.take n ++ List.replicate (n - b.contents.length) 0
      rw [hlen, List.take_of_length_le (show b.contents.length ≤ n by omega)]
      rfl
  · refine ⟨b, if_neg hn, hb, rfl, rfl, rfl, rfl, rfl, rfl, ?_⟩
    show _ = (b.memory.take b.size).take n ++ List.replicate (n - b.contents.length) 0
    rw [hlen, List.take_take, Nat.min_eq_left (by omega), Nat.sub_eq_zero_of_le (by omega),
      List.replicate_zero, List.append_nil]

theorem returns_clear {α : Type} {P : Prop} [Decidable P] {x : Comp Buffer} {b' : Buffer}
    {g : Buffer → BufM α} {s s' : BufferState} {r : Except Errno α}
    (h : (if P then x else pure b) = pure b') (hg : Returns (g b') s r s') :
    Returns (if P then liftM x >>= g else pure b >>= g) s r s' := by
  split at h
  · rw [if_pos ‹P›, h]
    exact (Returns.lift _ _).bind hg
  · rw [if_neg ‹¬P›, pure_inj h]
    exact (Returns.pure _ _).bind hg

theorem Grown.padTake {b' : Buffer} {n : Nat} (hg : Grown b b' n) (i : Nat) :
    b'.toByteList.padTake i = b.toByteList.padTake i := by
  simp only [ByteList.padTake, Buffer.toByteList, hg.contents]

theorem step_truncate (hb : b.Usable) {size : Nat} :
    Triple (BufCall.exec m (.truncate size)) ⟨b, k⟩ (StepOk m b k (.truncate size)) := by
  refine writing_call hb (n := size) rfl
    (fun e he => ?_) (fun hok hn hr => ?_) (fun b' k' hok hr hg hw => ?_)
  · refine Returns.bind_error ((returns_getBuffer _).bind ?_)
    rw [he]
    exact Returns.bind_error (returns_liftError e _)
  · refine Returns.bind_error ((returns_getBuffer _).bind ?_)
    rw [hok]
    exact (returns_liftExcept _ _).bind (Returns.bind_error hr)
  · obtain ⟨b1, hclear, hf⟩ := clear_filled hg.usable hw hg.fits
    let b'' : Buffer := { b1 with size, off := min b1.off size }
    refine ⟨.done, b'', k', ?_, ?_, hf.ops, ?_⟩
    · have htrunc : Returns (bufferTruncate m size) ⟨b, k⟩ (.ok ()) ⟨b'', k'⟩ := by
        refine (returns_getBuffer _).bind ?_
        rw [hok]
        refine (returns_liftExcept _ _).bind (hr.bind ((returns_getBuffer _).bind ?_))
        exact returns_clear hclear (returns_setBuffer _ _)
      exact htrunc.bind (Returns.pure _ _)
    · have halloc := hf.usable.valid
      exact ⟨⟨halloc.ops_ne, Nat.min_le_right _ _, hf.allocsize ▸ hg.room, halloc.alloc_le,
        halloc.memory_le⟩, hf.usable.data⟩
    · have hcont : b''.contents = b.toByteList.padTake size := hf.take.trans (hg.padTake size)
      have hoff : b''.off = min b.off size := by
        show min b1.off size = _
        rw [hf.off, hg.off]
      simp only [ByteList.spec, ByteList.truncate, Buffer.toByteList, hcont, hoff]

section Pwrite

variable {buf : Bytes} {off : Nat} (h : off + buf.length < 2 ^ 64)
include h

theorem checkWrite_eq : b.checkWrite buf.length off = b.checkTruncate (off + buf.length) := by
  have hadd : addSize off buf.length = off + buf.length := Nat.mod_eq_of_lt h
  rw [Buffer.checkWrite, hadd]
  rfl

theorem pwrite_check {e : Errno} (he : b.checkTruncate (off + buf.length) = .error e) :
    Returns (bufferPwrite m buf off) ⟨b, k⟩ (.error e) ⟨b, k⟩ := by
  refine (returns_getBuffer _).bind ?_
  rw [checkWrite_eq h, he]
  exact Returns.bind_error (returns_liftError e _)

theorem pwrite_noMemory (hok : b.checkTruncate (off + buf.length) = .ok ())
    (hr : Returns (resize m (off + buf.length)) ⟨b, k⟩ (.error .ENOMEM) ⟨b, k + 1⟩) :
    Returns (bufferPwrite m buf off) ⟨b, k⟩ (.error .ENOMEM) ⟨b, k + 1⟩ := by
  have hadd : addSize off buf.length = off + buf.length := Nat.mod_eq_of_lt h
  refine (returns_getBuffer _).bind ?_
  rw [checkWrite_eq h, hok, hadd]
  exact (returns_liftExcept _ _).bind (Returns.bind_error hr)

theorem pwrite_ok {b' : Buffer} {k' : Nat} (hok : b.checkTruncate (off + buf.length) = .ok ())
    (hr : Returns (resize m (off + buf.length)) ⟨b, k⟩ (.ok ()) ⟨b', k'⟩)
    (hg : Grown b b' (off + buf.length)) (hw : b'.Writable) :
    ∃ b'', Returns (bufferPwrite m buf off) ⟨b, k⟩ (.ok buf.length) ⟨b'', k'⟩ ∧ b''.Usable ∧
      b''.ops = b'.ops ∧ b''.toByteList = b.toByteList.pwrite buf off ∧
      off + buf.length ≤ b''.size := by
  have hadd : addSize off buf.length = off + buf.length := Nat.mod_eq_of_lt h
  have hfits := hg.fits
  obtain ⟨b1, hclear, hf⟩ := clear_filled hg.usable hw (n := off) (by omega)
  have hw1 : b1.Writable := by
    rw [Buffer.Writable, hf.ops]
    exact hw
  have hroom : off + buf.length ≤ b1.memory.length := hf.length ▸ hfits
  let b'' : Buffer :=
    { b1.store off buf with size := max b1.size (off + buf.length), off := b1.off }
  refine ⟨b'', ?_, ?_, hf.ops, ?_, Nat.le_max_right _ _⟩
  · refine (returns_getBuffer _).bind ?_
    rw [checkWrite_eq h, hok, hadd]
    refine (returns_liftExcept _ _).bind (hr.bind ((returns_getBuffer _).bind ?_))
    refine returns_clear hclear ?_
    beta_reduce
    rw [Buffer.copyin_eq hf.usable hw1 hroom]
    exact (Returns.lift _ _).bind ((returns_setBuffer _ _).bind (Returns.pure _ _))
  · have hsize : max b1.size (off + buf.length) ≤ b1.allocsize :=
      max_le hf.usable.valid.size_le (hf.allocsize ▸ hg.room)
    have hoff := hf.usable.valid.off_le
    exact hf.usable.store hroom hsize (by omega)
  · have hcont : b''.contents =
        b.toByteList.padTake off ++ buf ++ b.contents.drop (off + buf.length) := by
      show (splice b1.memory off buf).take (max b1.size (off + buf.length)) = _
      rw [take_splice_max hroom, hf.take, hg.padTake off, ← hg.contents, ← hf.contents]
      rfl
    have hoff : b''.off = b.off := hf.off.trans hg.off
    simp only [ByteList.pwrite, Buffer.toByteList, hcont, hoff]

end Pwrite

theorem step_pwrite (hb : b.Usable) {buf : Bytes} {off : Nat}
    (h : b.toByteList.InRange (.pwrite buf off)) :
    Triple (BufCall.exec m (.pwrite buf off)) ⟨b, k⟩ (StepOk m b k (.pwrite buf off)) := by
  refine writing_call hb (n := off + buf.length) rfl
    (fun e he => ?_) (fun hok _ hr => ?_) (fun b' k' hok hr hg hw => ?_)
  · exact Returns.bind_error (pwrite_check h he)
  · exact Returns.bind_error (pwrite_noMemory h hok hr)
  · obtain ⟨b'', hwr, hb'', ho, hlist, _⟩ := pwrite_ok h hok hr hg hw
    refine ⟨.count buf.length, b'', k', hwr.bind (Returns.pure _ _), hb'', ho, ?_⟩
    rw [ByteList.spec, hlist]

/-- `buffer_write` is `buffer_pwrite` at the offset, which then moves. -/
theorem step_write (hb : b.Usable) {buf : Bytes} (h : b.toByteList.InRange (.write buf)) :
    Triple (BufCall.exec m (.write buf)) ⟨b, k⟩ (StepOk m b k (.write buf)) := by
  refine writing_call hb (n := b.off + buf.length) rfl
    (fun e he => ?_) (fun hok _ hr => ?_) (fun b' k' hok hr hg hw => ?_)
  · refine Returns.bind_error ((returns_getBuffer _).bind ?_)
    exact Returns.bind_error (pwrite_check h he)
  · refine Returns.bind_error ((returns_getBuffer _).bind ?_)
    exact Returns.bind_error (pwrite_noMemory h hok hr)
  · obtain ⟨b'', hwr, hb'', ho, hlist, hend⟩ := pwrite_ok h hok hr hg hw
    have hcursor : b''.off = b.off := congrArg ByteList.cursor hlist
    have hadd : addSize b''.off buf.length = b''.off + buf.length := by
      rw [hcursor]
      exact Nat.mod_eq_of_lt h
    refine ⟨.count buf.length, { b'' with off := b''.off + buf.length }, k', ?_, ?_, ho, ?_⟩
    · refine Returns.bind ((returns_getBuffer _).bind (hwr.bind ((returns_getBuffer _).bind ?_)))
        (Returns.pure _ _)
      rw [hadd]
      exact (returns_setBuffer _ _).bind (Returns.pure _ _)
    · have hv := hb''.valid
      have hle : b''.off + buf.length ≤ b''.size := hcursor ▸ hend
      exact ⟨⟨hv.ops_ne, hle, hv.size_le, hv.alloc_le, hv.memory_le⟩, hb''.data⟩
    · have hbytes : b''.contents = (b.toByteList.pwrite buf b.off).bytes :=
        congrArg ByteList.bytes hlist
      show some (_, (⟨(b.toByteList.pwrite buf b.off).bytes, b.off + buf.length⟩ : ByteList)) = _
      rw [← hbytes, ← hcursor]
      rfl

/-! ### Calls that keep the bytes -/

theorem copyout_eq (hb : b.Usable) {off len : Nat} (h : off + len ≤ b.size) :
    b.copyout off len = pure ((b.contents.drop off).take len) := by
  obtain ⟨mem, hmem⟩ := hb.data
  have hmem' : b.memory = mem := by rw [Buffer.memory, hmem, Option.getD_some]
  have hbound : off + len ≤ mem.length := hmem' ▸ h.trans hb.valid.size_le_memory
  have hbytes : (mem.drop off).take len = (b.contents.drop off).take len := by
    rw [Buffer.contents, hmem', List.drop_take, List.take_take, Nat.min_eq_left (by omega)]
  have hne := hb.valid.ops_ne
  cases ho : b.ops with
  | sink => exact absurd ho hne
  | heap => simp only [Buffer.copyout, ho, hmem, deref_some, pure_bind, if_pos hbound, hbytes]
  | staticRo => simp only [Buffer.copyout, ho, hmem, deref_some, pure_bind, if_pos hbound, hbytes]
  | staticRw => simp only [Buffer.copyout, ho, hmem, deref_some, pure_bind, if_pos hbound, hbytes]

theorem returns_pread (hb : b.Usable) {len off : Nat} (h : off + len < 2 ^ 64) :
    Returns (bufferPread len off) ⟨b, k⟩ (.ok (b.toByteList.pread len off)) ⟨b, k⟩ := by
  have hlen : b.contents.length = b.size := hb.valid.length_contents
  have hsize := hb.valid.size_le_ssizeMax
  have hadd : addSize off len = off + len := Nat.mod_eq_of_lt h
  have hcheck : b.checkRead = .ok () := by
    have hne := hb.valid.ops_ne
    cases ho : b.ops <;> simp_all [Buffer.checkRead]
  have hpread : b.toByteList.pread len off = (b.contents.drop off).take len := rfl
  have hplen : (b.toByteList.pread len off).length = min len (b.size - off) := by
    rw [hpread, List.length_take, List.length_drop, hlen]
  have hret : (if off ≥ b.size then 0 else if addSize off len > b.size then subSize b.size off else len)
      = (b.toByteList.pread len off).length := by
    rw [hplen, hadd]
    split_ifs with h1 h2
    · omega
    · rw [subSize_of_le (by omega) (by simp only [ssizeMax, sizeMax] at *; omega)]
      omega
    · omega
  refine (returns_getBuffer _).bind ?_
  rw [hcheck]
  refine (returns_liftExcept _ _).bind ?_
  simp only [hret]
  by_cases h0 : (b.toByteList.pread len off).length = 0
  · rw [if_pos h0, List.eq_nil_of_length_eq_zero h0]
    exact Returns.pure _ _
  · have hcopy : (b.contents.drop off).take (b.toByteList.pread len off).length =
        b.toByteList.pread len off := by
      rw [hpread, List.length_take, ← List.take_eq_take_min]
    rw [if_neg h0, copyout_eq hb (by omega), hcopy]
    exact Returns.lift _ _

theorem step_pread (hb : b.Usable) {len off : Nat} (h : b.toByteList.InRange (.pread len off)) :
    Triple (BufCall.exec m (.pread len off)) ⟨b, k⟩ (StepOk m b k (.pread len off)) := by
  refine .of_returns ((returns_pread hb h).bind (Returns.pure _ _)) (stepOk_ok hb rfl rfl ?_)
  intro e href
  cases href <;> contradiction

theorem step_read (hb : b.Usable) {len : Nat} (h : b.toByteList.InRange (.read len)) :
    Triple (BufCall.exec m (.read len)) ⟨b, k⟩ (StepOk m b k (.read len)) := by
  let out := b.toByteList.pread len b.off
  have hlen : b.contents.length = b.size := hb.valid.length_contents
  have hv := hb.valid
  have hout : out.length = min len (b.size - b.off) := by
    show ((b.contents.drop b.off).take len).length = _
    rw [List.length_take, List.length_drop, hlen]
  have hoff : b.off + out.length ≤ b.size := by
    have := hv.off_le
    omega
  have hadd : addSize b.off out.length = b.off + out.length := by
    have := hv.size_le_ssizeMax
    exact addSize_of_le (by simp only [ssizeMax, sizeMax] at *; omega)
  have hread : Returns (bufferRead len) ⟨b, k⟩ (.ok out) ⟨{ b with off := b.off + out.length }, k⟩ := by
    refine (returns_getBuffer _).bind ((returns_pread hb h).bind ?_)
    show Returns (setBuffer { b with off := addSize b.off out.length } >>= fun _ => pure out) _ _ _
    rw [hadd]
    exact (returns_setBuffer _ _).bind (Returns.pure _ _)
  refine .of_returns (hread.bind (Returns.pure _ _)) (stepOk_ok ?_ rfl rfl ?_)
  · exact ⟨⟨hv.ops_ne, hoff, hv.size_le, hv.alloc_le, hv.memory_le⟩, hb.data⟩
  · intro e href
    cases href <;> contradiction

/-! ### Seeking -/

theorem ofOffT_of_nonneg {x : Int} (h0 : 0 ≤ x) (h : x < 2 ^ 63) : ofOffT x = x.toNat := by
  rw [ofOffT, Int.emod_eq_of_lt h0 (by omega)]

/-- A negative offset is added as a large number, and the sum wraps around. -/
theorem addSize_ofOffT {a : Nat} {x : Int} (h0 : 0 ≤ a + x) (h : a + x < 2 ^ 64) :
    addSize a (ofOffT x) = (a + x).toNat := by
  rw [addSize, ofOffT]
  omega

/-- `buffer_seek` for buffers of any size that a `size_t` can have. -/
theorem seekTarget_exact (hoff : b.off ≤ b.size) (hsize : b.size < 2 ^ 64) {offset : Int} {whence : Whence}
    (hlo : -2 ^ 63 ≤ offset) (hhi : offset < 2 ^ 63) (hmin : ¬(BufCall.seek offset whence).NegatesMin) :
    seekTarget b offset whence =
      if 0 ≤ b.seekTo offset whence ∧ b.seekTo offset whence ≤ b.size then
        pure (b.seekTo offset whence).toNat
      else throw .EINVAL := by
  cases whence with
  | invalid => rfl
  | seekSet =>
    rw [Buffer.seekTo]
    by_cases hneg : offset < 0
    · rw [seekTarget, if_pos hneg, if_neg (by omega)]
    · rw [seekTarget, if_neg hneg, ofOffT_of_nonneg (by omega) hhi]
      by_cases hgt : offset.toNat > b.size
      · rw [if_pos hgt, if_neg (by omega)]
      · rw [if_neg hgt, if_pos (by omega)]
  | seekCur =>
    have hne : offset ≠ -2 ^ 63 := fun heq => hmin ⟨heq, Or.inl rfl⟩
    have hsub : subSize b.size b.off = b.size - b.off :=
      subSize_of_le hoff (by simp only [sizeMax]; omega)
    rw [Buffer.seekTo, seekTarget, hsub]
    by_cases hneg : offset < 0
    · rw [if_neg (by omega), if_pos hneg, negOffT, if_neg hne]
      show (if ofOffT (-offset) > b.off then _ else _) = _
      rw [ofOffT_of_nonneg (by omega) (by omega)]
      by_cases hgt : (-offset).toNat > b.off
      · rw [if_pos hgt, if_neg (by omega)]
      · rw [if_neg hgt, if_pos (by omega), addSize_ofOffT (by omega) (by omega)]
    · rw [ofOffT_of_nonneg (by omega) hhi]
      by_cases hgt : offset > 0 ∧ offset.toNat > b.size - b.off
      · rw [if_pos hgt, if_neg (by omega)]
      · rw [if_neg hgt, if_neg hneg, if_pos (by omega), ← ofOffT_of_nonneg (by omega) hhi,
          addSize_ofOffT (by omega) (by omega)]
  | seekEnd =>
    have hne : offset ≠ -2 ^ 63 := fun heq => hmin ⟨heq, Or.inr rfl⟩
    rw [Buffer.seekTo, seekTarget]
    by_cases hpos : offset > 0
    · rw [if_pos hpos, if_neg (by omega)]
    · rw [if_neg hpos, negOffT, if_neg hne]
      show (if ofOffT (-offset) > b.size then _ else _) = _
      rw [ofOffT_of_nonneg (by omega) (by omega)]
      by_cases hgt : (-offset).toNat > b.size
      · rw [if_pos hgt, if_neg (by omega)]
      · rw [if_neg hgt, if_pos (by omega), addSize_ofOffT (by omega) (by omega)]

theorem target_eq (hb : b.Usable) (offset : Int) (whence : Whence) :
    b.toByteList.target offset whence =
      if 0 ≤ b.seekTo offset whence ∧ b.seekTo offset whence ≤ b.size then
        some (b.seekTo offset whence).toNat
      else none := by
  have hlen : b.toByteList.bytes.length = b.size := hb.valid.length_contents
  have htarget : ∀ base : Nat, b.toByteList.base whence = some base →
      b.seekTo offset whence = base + offset → b.toByteList.target offset whence =
        if 0 ≤ b.seekTo offset whence ∧ b.seekTo offset whence ≤ b.size then
          some (b.seekTo offset whence).toNat
        else none := by
    intro base hbase hto
    simp only [ByteList.target, hbase, hlen, hto]
  cases whence with
  | seekSet => exact htarget 0 rfl (zero_add offset).symm
  | seekCur => exact htarget b.off rfl rfl
  | seekEnd => exact htarget b.size (congrArg some hlen) rfl
  | invalid => rfl

/-- `buffer_seek` finds its target, or there is none. -/
theorem seekTarget_eq (hb : b.Usable) {offset : Int} {whence : Whence}
    (h : b.toByteList.InRange (.seek offset whence)) (hmin : ¬(BufCall.seek offset whence).NegatesMin) :
    seekTarget b offset whence = match b.toByteList.target offset whence with
      | some n => pure n
      | none => throw .EINVAL := by
  have hsize := hb.valid.size_le_ssizeMax
  simp only [ssizeMax] at hsize
  rw [seekTarget_exact hb.valid.off_le (by omega) h.1 h.2 hmin, target_eq hb]
  split_ifs <;> rfl

theorem target_le (hb : b.Usable) {offset : Int} {whence : Whence} {n : Nat}
    (h : b.toByteList.target offset whence = some n) : n ≤ b.size := by
  have hlen : b.contents.length = b.size := hb.valid.length_contents
  rw [ByteList.target] at h
  split at h
  · cases h
  · split at h
    · cases h
      rename_i hle
      simp only [Buffer.toByteList, hlen] at hle
      omega
    · cases h

theorem step_seek (hb : b.Usable) {offset : Int} {whence : Whence}
    (h : b.toByteList.InRange (.seek offset whence)) (hmin : ¬(BufCall.seek offset whence).NegatesMin) :
    Triple (BufCall.exec m (.seek offset whence)) ⟨b, k⟩ (StepOk m b k (.seek offset whence)) := by
  have hseek := seekTarget_eq hb h hmin
  cases ht : b.toByteList.target offset whence with
  | none =>
    rw [ht] at hseek
    refine .of_returns (Returns.bind_error ((returns_getBuffer _).bind ?_)) (stepOk_error hb (.seek ht) k)
    rw [hseek]
    exact Returns.bind_error (Returns.throw _ _)
  | some n =>
    rw [ht] at hseek
    have hv := hb.valid
    have hn : n ≤ b.size := target_le hb ht
    have hmax : ¬n > ssizeMax := by
      have := hv.size_le_ssizeMax
      omega
    have hret : Returns (bufferSeek offset whence) ⟨b, k⟩ (.ok n) ⟨{ b with off := n }, k⟩ := by
      refine (returns_getBuffer _).bind ?_
      rw [hseek]
      refine (Returns.pure _ _).bind ?_
      rw [if_neg hmax]
      exact (returns_setBuffer _ _).bind (Returns.pure _ _)
    refine .of_returns (hret.bind (Returns.pure _ _)) (stepOk_ok ?_ rfl ?_ ?_)
    · exact ⟨⟨hv.ops_ne, hn, hv.size_le, hv.alloc_le, hv.memory_le⟩, hb.data⟩
    · rw [ByteList.spec, ht]
      rfl
    · intro e href
      cases href with
      | seek hnone => cases ht.symm.trans hnone
      | readOnly hn => cases hn
      | full hn => cases hn
      | noMemory hn => cases hn

/-- Every call returns, and does what the reference list says or is refused. -/
theorem step_ok (hb : b.Usable) {c : BufCall} (h : b.toByteList.InRange c) (hmin : ¬c.NegatesMin) :
    Triple (c.exec m) ⟨b, k⟩ (StepOk m b k c) := by
  cases c with
  | append data => exact step_append hb h
  | read len => exact step_read hb h
  | write buf => exact step_write hb h
  | pread len off => exact step_pread hb h
  | pwrite buf off => exact step_pwrite hb h
  | seek offset whence => exact step_seek hb h hmin
  | truncate size => exact step_truncate hb

/-! ## Runs -/

theorem Buffer.Initial.usable (h : b.Initial m) : b.Usable := by
  cases h with
  | @heap expectedSize h =>
    have hlen : (bufferInitHeap m expectedSize).memory.length = if expectedSize = 0 then 1 else expectedSize := by
      simp [bufferInitHeap, Buffer.memory]
    refine ⟨⟨by simp [bufferInitHeap], le_refl _, Nat.zero_le _, ?_, ?_⟩, _, rfl⟩
    · rw [hlen]
      show expectedSize ≤ _
      split <;> omega
    · rw [hlen]
      simp only [ssizeMax] at h ⊢
      split <;> omega
  | @static bytes size bufsize writable b hs hb h =>
    by_cases hle : size ≤ bufsize
    · simp only [bufferInitStatic, hle, decide_true, assert_true, pure_bind] at h
      cases pure_inj h
      refine ⟨⟨?_, Nat.zero_le _, hle, hs, hb⟩, _, rfl⟩
      cases writable <;> simp
    · simp only [bufferInitStatic, hle, decide_false] at h
      cases h

/-- A read-only buffer refuses every call that would change its bytes. -/
theorem StepOk.readOnly {c : BufCall} {r : Except Errno BufResult} {s' : BufferState}
    (h : StepOk m b k c r s') (ho : b.ops = .staticRo) :
    s'.buffer.contents = b.contents := by
  cases r with
  | error e => rw [h.failed e rfl]
  | ok x =>
    have hspec := h.done x rfl
    have hno : b.toByteList.needs c = none := by
      cases hn : b.toByteList.needs c with
      | none => rfl
      | some n => cases (h.refused .EROFS).mpr (.readOnly hn ho)
    cases c with
    | append data => cases hno
    | write buf => cases hno
    | pwrite buf off => cases hno
    | truncate size => cases hno
    | read len =>
      have heq := congrArg (fun p => p.2.bytes) (Option.some.inj hspec)
      exact heq.symm
    | pread len off =>
      have heq := congrArg (fun p => p.2.bytes) (Option.some.inj hspec)
      exact heq.symm
    | seek offset whence =>
      obtain ⟨n, _, hn⟩ := Option.map_eq_some_iff.mp hspec
      have heq := congrArg (fun p => p.2.bytes) hn
      exact heq.symm

/-- A run returns, the list replays it, and a buffer that is read-only keeps its contents. -/
theorem run_ok (cs : List BufCall) : ∀ {s : BufferState}, s.buffer.Usable → BufCall.InRangeRun m s cs →
    (∀ c ∈ cs, ¬c.NegatesMin) →
    ∃ rs s', BufCall.run m s cs = pure (rs, s') ∧ s'.buffer.Usable ∧ s'.buffer.ops = s.buffer.ops ∧
      s.buffer.toByteList.replay cs rs = some s'.buffer.toByteList ∧
      (s.buffer.ops = .staticRo → s'.buffer.contents = s.buffer.contents) := by
  induction cs with
  | nil =>
    intro s hs _ _
    exact ⟨[], s, rfl, hs, rfl, rfl, fun _ => rfl⟩
  | cons c cs ih =>
    intro s hs hrange hmin
    obtain ⟨hin, hnext⟩ := hrange
    obtain ⟨r, s1, hret, hstep⟩ := step_ok (m := m) (k := s.allocs) hs hin (hmin c (by simp))
    obtain ⟨rs, s', hrun, hs', ho, hreplay, hro⟩ :=
      ih hstep.usable (hnext r s1 hret) fun c' hc' => hmin c' (List.mem_cons_of_mem _ hc')
    refine ⟨r :: rs, s', ?_, hs', ho.trans hstep.ops, ?_, ?_⟩
    · have hret : StateT.run (ExceptT.run (c.exec m)) s = pure (r, s1) := hret
      rw [BufCall.run, hret, pure_bind]
      show (BufCall.run m s1 cs >>= _) = _
      rw [hrun, pure_bind]
    · cases r with
      | error e =>
        rw [ByteList.replay, ← hstep.failed e rfl]
        exact hreplay
      | ok x =>
        rw [ByteList.replay, hstep.done x rfl]
        simpa using hreplay
    · intro hro'
      rw [hro (hstep.ops.trans hro'), hstep.readOnly hro']


/-- Buffers refine a byte list with a cursor, whatever is called and whichever allocations fail. -/
theorem buffer_refines_byteList {b : Buffer} (hb : b.Initial m) (cs : List BufCall)
    (hrange : BufCall.InRangeRun m ⟨b, 0⟩ cs) (hmin : ∀ c ∈ cs, ¬c.NegatesMin) :
    ∃ rs s, BufCall.run m ⟨b, 0⟩ cs = pure (rs, s) ∧
      s.buffer.off ≤ s.buffer.size ∧ s.buffer.size ≤ s.buffer.allocsize ∧
      s.buffer.contents.length = s.buffer.size ∧
      b.toByteList.replay cs rs = some s.buffer.toByteList ∧
      (b.ops = .staticRo → s.buffer.contents = b.contents ∧ s.buffer.size = b.size) ∧
      ∀ c, s.buffer.toByteList.InRange c → ¬c.NegatesMin → ∃ r s', Returns (c.exec m) s r s' ∧
        (∀ x, r = .ok x → s.buffer.toByteList.spec c = some (x, s'.buffer.toByteList)) ∧
        (∀ e, r = .error e → s'.buffer = s.buffer) ∧
        ∀ e, r = .error e ↔ Refusal m s.buffer s.allocs c e := by
  obtain ⟨rs, s, hrun, hs, -, hreplay, hro⟩ := run_ok (m := m) cs (s := ⟨b, 0⟩) hb.usable hrange hmin
  have hlen := hs.valid.length_contents
  refine ⟨rs, s, hrun, hs.valid.off_le, hs.valid.size_le, hlen, hreplay, ?_, ?_⟩
  · intro ho
    refine ⟨hro ho, ?_⟩
    rw [← hlen, hro ho, hb.usable.valid.length_contents]
  · intro c hc hcmin
    obtain ⟨r, s', hret, hstep⟩ := step_ok (m := m) (k := s.allocs) hs hc hcmin
    exact ⟨r, s', hret, hstep.done, hstep.failed, hstep.refused⟩

theorem BufCall.InRangeRun.cons {c : BufCall} {cs : List BufCall} {s s' : BufferState}
    {r : Except Errno BufResult} (hin : s.buffer.toByteList.InRange c) (hret : Returns (c.exec m) s r s')
    (h : BufCall.InRangeRun m s' cs) : BufCall.InRangeRun m s (c :: cs) := by
  refine ⟨hin, fun r1 s1 hret1 => ?_⟩
  obtain ⟨-, rfl⟩ := hret.unique hret1
  exact h

/-- Four bytes, cut to one and extended again. -/
def truncateCalls : List BufCall := [.append [1, 2, 3, 4], .truncate 1, .truncate 3, .pread 9 0]

theorem truncateCalls_inRange :
    BufCall.InRangeRun .plenty ⟨bufferInitHeap .plenty 0, 0⟩ truncateCalls := by
  refine .cons (by decide : 0 + 4 < 2 ^ 64) rfl ?_
  refine .cons (by decide : 1 < 2 ^ 64) rfl ?_
  refine .cons (by decide : 3 < 2 ^ 64) rfl ?_
  exact .cons (by decide : 0 + 9 < 2 ^ 64) rfl trivial

theorem buffer_refines_byteList_truncate :
    ∃ rs s, BufCall.run .plenty ⟨bufferInitHeap .plenty 0, 0⟩ truncateCalls = pure (rs, s) ∧
      (bufferInitHeap .plenty 0).toByteList.replay truncateCalls rs = some s.buffer.toByteList := by
  obtain ⟨rs, s, hrun, -, -, -, hreplay, -⟩ := buffer_refines_byteList (.heap (Nat.zero_le _)) truncateCalls
    truncateCalls_inRange (by simp [truncateCalls, BufCall.NegatesMin])
  exact ⟨rs, s, hrun, hreplay⟩

-- The bytes that were cut off do not come back.
example : Prod.fst <$> BufCall.run .plenty ⟨bufferInitHeap .plenty 0, 0⟩ truncateCalls =
    pure [.ok .done, .ok .done, .ok .done, .ok (.bytes [1, 0, 0])] := by rfl

/-- The distance of a seek back by 2^63 bytes cannot be represented. -/
theorem bufferSeek_min_overflows :
    (bufferInitHeap .plenty 0).Initial .plenty ∧
    BufCall.InRangeRun .plenty ⟨bufferInitHeap .plenty 0, 0⟩ [.seek (-2 ^ 63) .seekCur] ∧
    ¬∃ rs s, BufCall.run .plenty ⟨bufferInitHeap .plenty 0, 0⟩ [.seek (-2 ^ 63) .seekCur] =
      pure (rs, s) := by
  refine ⟨.heap (Nat.zero_le _), ⟨⟨by decide, by decide⟩, fun _ _ _ => trivial⟩, ?_⟩
  rintro ⟨rs, s, h⟩
  have hover : BufCall.run .plenty ⟨bufferInitHeap .plenty 0, 0⟩ [.seek (-2 ^ 63) .seekCur] =
      throw .overflow := rfl
  cases hover.symm.trans h

end Libjeffpc
