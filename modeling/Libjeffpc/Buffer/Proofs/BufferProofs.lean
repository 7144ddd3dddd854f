import Libjeffpc.Buffer.Buffer

/-!
# What the buffer functions do to a valid buffer

Reading and seeking are described by the bytes that are left, `Buffer.rest`.
-/

namespace Libjeffpc

open Lib

theorem addSize_of_le {a b : Nat} (h : a + b ≤ sizeMax) : addSize a b = a + b := by
  rw [addSize, Nat.mod_eq_of_lt]
  unfold sizeMax at h
  omega

theorem subSize_of_le {a b : Nat} (h : b ≤ a) (ha : a ≤ sizeMax) : subSize a b = a - b := by
  unfold sizeMax at ha
  unfold subSize
  omega

theorem toOffT_of_le {n : Nat} (h : n ≤ ssizeMax) : toOffT n = n := by
  unfold ssizeMax at h
  unfold toOffT Int.bmod
  norm_num
  omega

theorem ofOffT_natCast {n : Nat} (h : n ≤ ssizeMax) : ofOffT n = n := by
  unfold ssizeMax at h
  unfold ofOffT
  omega

theorem ssizeMax_add_le {a b : Nat} (ha : a ≤ ssizeMax) (hb : b ≤ ssizeMax) : a + b ≤ sizeMax := by
  unfold ssizeMax at ha hb
  unfold sizeMax
  omega

theorem returns_liftExcept {α : Type} (a : α) (s : BufferState) :
    Returns (liftExcept (.ok a : Except Errno α) : BufM α) s (.ok a) s := rfl

theorem returns_liftError {α : Type} (e : Errno) (s : BufferState) :
    Returns (liftExcept (.error e : Except Errno α) : BufM α) s (.error e) s := rfl

theorem returns_getBuffer (s : BufferState) : Returns getBuffer s (.ok s.buffer) s := rfl

theorem returns_setBuffer (s : BufferState) (b : Buffer) :
    Returns (setBuffer b) s (.ok ()) { s with buffer := b } := rfl

theorem returns_request (m : Machine) (r : Request) (s : BufferState) :
    Returns (request m r) s (.ok (m.grants s.allocs r)) { s with allocs := s.allocs + 1 } := rfl

namespace Buffer

variable {b : Buffer}

@[simp] theorem memory_advance (n : Nat) : (b.advance n).memory = b.memory := rfl

@[simp] theorem contents_advance (n : Nat) : (b.advance n).contents = b.contents := rfl

@[simp] theorem off_advance (n : Nat) : (b.advance n).off = b.off + n := rfl

@[simp] theorem size_advance (n : Nat) : (b.advance n).size = b.size := rfl

@[simp] theorem advance_zero : b.advance 0 = b := rfl

@[simp] theorem advance_advance (m n : Nat) : (b.advance m).advance n = b.advance (m + n) := by
  simp [advance, Nat.add_assoc]

theorem rest_advance (n : Nat) : (b.advance n).rest = b.rest.drop n := by
  simp [rest, Nat.add_comm]

namespace Valid

theorem size_le_memory (h : b.Valid) : b.size ≤ b.memory.length := h.size_le.trans h.alloc_le

theorem size_le_ssizeMax (h : b.Valid) : b.size ≤ ssizeMax := h.size_le_memory.trans h.memory_le

theorem length_contents (h : b.Valid) : b.contents.length = b.size := by
  have := h.size_le_memory
  simp [contents, this]

theorem length_rest (h : b.Valid) : b.rest.length = b.size - b.off := by
  rw [rest, List.length_drop, h.length_contents]

theorem rest_le (h : b.Valid) : b.off + b.rest.length ≤ ssizeMax := by
  have h1 := h.off_le
  have h2 := h.size_le_ssizeMax
  rw [h.length_rest]
  omega

theorem rest_le_ssizeMax (h : b.Valid) : b.rest.length ≤ ssizeMax := by
  have := h.rest_le
  omega

theorem bufferRemain_eq (h : b.Valid) : b.bufferRemain = b.rest.length := by
  have hs : b.size ≤ sizeMax := by
    have := h.size_le_ssizeMax
    unfold ssizeMax at this
    unfold sizeMax
    omega
  rw [h.length_rest, bufferRemain, subSize_of_le h.off_le hs]

theorem advance (h : b.Valid) {n : Nat} (hn : n ≤ b.rest.length) : (b.advance n).Valid := by
  have hlen := h.length_rest
  have hoff := h.off_le
  refine ⟨h.ops_ne, ?_, h.size_le, h.alloc_le, h.memory_le⟩
  rw [off_advance, size_advance]
  omega

/-- The bytes that are left, in the memory of the buffer. -/
theorem rest_eq (h : b.Valid) : b.rest = (b.memory.drop b.off).take b.rest.length := by
  rw [h.length_rest, rest, contents, List.drop_take]

end Valid

end Buffer

section Seek

variable {b : Buffer} (hb : b.Valid) (k : Nat)

include hb

theorem bufferSeek_cur {n : Nat} (hn : n ≤ b.rest.length) :
    Returns (bufferSeek n .seekCur) ⟨b, k⟩ (.ok (b.off + n)) ⟨b.advance n, k⟩ := by
  have hrest := hb.rest_le
  have hns : n ≤ ssizeMax := by omega
  have hcast : ofOffT n = n := ofOffT_natCast hns
  have hremain : subSize b.size b.off = b.rest.length := hb.bufferRemain_eq
  have htarget : seekTarget b n .seekCur = pure (b.off + n) := by
    have h1 : ¬ ((n : Int) > 0 ∧ ofOffT n > subSize b.size b.off) := by
      rw [hcast, hremain]
      omega
    have h2 : ¬ (n : Int) < 0 := by omega
    rw [seekTarget, if_neg h1, if_neg h2, hcast, addSize_of_le (ssizeMax_add_le (by omega) hns)]
  have hle : ¬ b.off + n > ssizeMax := by omega
  refine (returns_getBuffer _).bind ?_
  rw [htarget]
  refine (Returns.pure _ _).bind ?_
  rw [if_neg hle]
  exact (returns_setBuffer _ _).bind (Returns.pure _ _)

/-- The bytes that are left are inside of the memory. -/
theorem copyout_rest {len : Nat} (h0 : (b.rest.take len).length ≠ 0) :
    b.copyout b.off (b.rest.take len).length = pure (b.rest.take len) := by
  have hlr := hb.length_rest
  have hsize := hb.size_le_memory
  have hoff := hb.off_le
  have hlen : (b.rest.take len).length ≤ b.rest.length := List.length_take_le' _ _
  obtain ⟨mem, hmem⟩ : ∃ mem, b.data = some mem := by
    cases hd : b.data with
    | some mem => exact ⟨mem, rfl⟩
    | none =>
      have hm : b.memory = [] := by simp [Buffer.memory, hd]
      rw [hm, List.length_nil] at hsize
      omega
  have hm : b.memory = mem := by simp [Buffer.memory, hmem]
  have hbound : b.off + (b.rest.take len).length ≤ mem.length := by
    rw [← hm]
    omega
  have hbytes : (mem.drop b.off).take (b.rest.take len).length = b.rest.take len := by
    conv_rhs => rw [hb.rest_eq, hm, List.take_take]
    rw [List.length_take]
  have := hb.ops_ne
  cases ho : b.ops <;> simp_all [Buffer.copyout]

theorem bufferPread_rest {len : Nat} (hlen : len ≤ ssizeMax) :
    Returns (bufferPread len b.off) ⟨b, k⟩ (.ok (b.rest.take len)) ⟨b, k⟩ := by
  have hrest := hb.rest_le
  have hlr := hb.length_rest
  have hoff := hb.off_le
  have hremain : subSize b.size b.off = b.rest.length := hb.bufferRemain_eq
  have hadd : addSize b.off len = b.off + len := addSize_of_le (ssizeMax_add_le (by omega) hlen)
  have hcheck : b.checkRead = .ok () := by
    have := hb.ops_ne
    cases ho : b.ops <;> simp_all [Buffer.checkRead]
  have hret : (if b.off ≥ b.size then 0
      else if addSize b.off len > b.size then subSize b.size b.off else len)
      = (b.rest.take len).length := by
    rw [hadd, hremain, List.length_take]
    split_ifs <;> omega
  refine (returns_getBuffer _).bind ?_
  rw [hcheck]
  refine (returns_liftExcept _ _).bind ?_
  simp only [hret]
  by_cases h0 : (b.rest.take len).length = 0
  · rw [if_pos h0, List.eq_nil_of_length_eq_zero h0]
    exact Returns.pure _ _
  · rw [if_neg h0, copyout_rest hb h0]
    exact Returns.pure _ _

theorem bufferRead_rest {len : Nat} (hlen : len ≤ ssizeMax) :
    Returns (bufferRead len) ⟨b, k⟩ (.ok (b.rest.take len))
      ⟨b.advance (b.rest.take len).length, k⟩ := by
  have hrest := hb.rest_le
  have hadd : addSize b.off (b.rest.take len).length = b.off + (b.rest.take len).length := by
    refine addSize_of_le (ssizeMax_add_le (by omega) ?_)
    rw [List.length_take]
    omega
  refine (returns_getBuffer _).bind ((bufferPread_rest hb k hlen).bind ?_)
  rw [hadd]
  exact (returns_setBuffer _ _).bind (Returns.pure _ _)

end Seek

/-! ## Views -/

namespace Buffer

/-- The static buffer that the CBOR functions put over what is left of a buffer. -/
def view (b : Buffer) : Buffer where
  data := b.bufferDataCurrent
  off := 0
  size := b.bufferRemain
  allocsize := b.bufferRemain
  ops := .staticRo

variable {b : Buffer}

theorem bufferInitStatic_view :
    bufferInitStatic b.bufferDataCurrent b.bufferRemain b.bufferRemain false = pure b.view := by
  simp [bufferInitStatic, view]

theorem memory_view :
    b.view.memory = if b.off = b.size then [] else b.memory.drop b.off := by
  cases hd : b.data with
  | none => simp [memory, view, bufferDataCurrent, hd]
  | some mem =>
    simp only [memory, view, bufferDataCurrent, hd, Option.getD_some]
    split_ifs <;> rfl

theorem Valid.rest_view (h : b.Valid) : b.view.rest = b.rest := by
  have hlr := h.length_rest
  have hremain : b.view.size = b.rest.length := h.bufferRemain_eq
  show (b.view.memory.take b.view.size).drop 0 = b.rest
  rw [List.drop_zero, hremain, memory_view]
  split_ifs with he
  · have hnil : b.rest = [] := List.eq_nil_of_length_eq_zero (by omega)
    rw [hnil]
    rfl
  · exact h.rest_eq.symm

theorem Valid.view (h : b.Valid) : b.view.Valid := by
  have hlr := h.length_rest
  have hoff := h.off_le
  have hsize := h.size_le_memory
  have hmem := h.memory_le
  have hremain : b.bufferRemain = b.rest.length := h.bufferRemain_eq
  refine ⟨by simp [Buffer.view], Nat.zero_le _, le_refl _, ?_, ?_⟩
  · show b.bufferRemain ≤ b.view.memory.length
    rw [hremain, memory_view]
    split_ifs with he
    · omega
    · rw [List.length_drop]
      omega
  · rw [memory_view]
    split_ifs
    · simp
    · rw [List.length_drop]
      omega

end Buffer

end Libjeffpc
