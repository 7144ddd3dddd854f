import Libjeffpc.Array.Array

/-!
# Growable arrays are lists that grow with zeroes

The elements stand one after the other at the start of `raw`, and there is room for all that have been
allocated. What is left over from before an array was shrunk is cleared before it is an element again.
-/

namespace Libjeffpc.Growable

open Lib

/-! ## Elements of one size -/

section Elements

variable {l : List Bytes} {size i k : Nat} (hl : ∀ v ∈ l, v.length = size)

include hl

theorem length_flatten : l.flatten.length = size * l.length := by
  induction l with
  | nil => rfl
  | cons v l ih =>
    rw [List.forall_mem_cons] at hl
    rw [List.flatten_cons, List.length_append, List.length_cons, ih hl.2, hl.1, Nat.mul_succ, Nat.add_comm]

theorem flatten_split (k : Nat) : l.flatten.take (size * k) = (l.take k).flatten ∧
    l.flatten.drop (size * k) = (l.drop k).flatten := by
  rcases Nat.lt_or_ge l.length k with hlt | hge
  · have hlen := length_flatten hl
    have hle : l.flatten.length ≤ size * k := by
      rw [hlen]
      exact Nat.mul_le_mul_left _ hlt.le
    rw [List.take_of_length_le hle, List.drop_eq_nil_of_le hle, List.take_of_length_le hlt.le,
      List.drop_eq_nil_of_le hlt.le]
    exact ⟨rfl, rfl⟩
  · have htake : (l.take k).flatten.length = size * k := by
      rw [length_flatten fun v hv => hl v (List.mem_of_mem_take hv), List.length_take, Nat.min_eq_left hge]
    have hsplit : l.flatten = (l.take k).flatten ++ (l.drop k).flatten := by
      rw [← List.flatten_append, List.take_append_drop]
    rw [hsplit]
    exact ⟨List.take_left' htake, List.drop_left' htake⟩

theorem flatten_set {v : Bytes} (hi : i < l.length) :
    (l.set i v).flatten = l.flatten.take (size * i) ++ v ++ l.flatten.drop (size * i + size) := by
  rw [List.set_eq_take_append_cons_drop, if_pos hi, List.flatten_append, List.flatten_cons, (flatten_split hl i).1,
    ← Nat.mul_succ, (flatten_split hl (i + 1)).2, List.append_assoc]

theorem resize_elems : ∀ v ∈ resize size k l, v.length = size := by
  intro v hv
  rcases List.mem_append.mp hv with hv | hv
  · exact hl v (List.mem_of_mem_take hv)
  · rw [List.eq_of_mem_replicate hv, List.length_replicate]

end Elements

theorem flatten_resize {size k : Nat} {l : List Bytes} (hk : l.length ≤ k) :
    (resize size k l).flatten = l.flatten ++ List.replicate (size * k - size * l.length) 0 := by
  rw [resize, List.take_of_length_le hk, List.flatten_append, List.flatten_replicate_replicate, Nat.mul_comm,
    Nat.mul_sub]

theorem length_resize (size k : Nat) (l : List Bytes) : (resize size k l).length = k := by
  rw [resize, List.length_append, List.length_take, List.length_replicate]
  omega

/-! ## Sizes -/

section Sizes

variable {elemSize count : UInt64}

theorem Fits.mono {count' : UInt64} (h : Fits elemSize count) (hle : count'.toNat ≤ count.toNat) :
    Fits elemSize count' :=
  (Nat.add_le_add_left (Nat.mul_le_mul_left _ hle) _).trans_lt h

theorem Fits.mul (h : Fits elemSize count) : (elemSize * count).toNat = elemSize.toNat * count.toNat := by
  rw [UInt64.toNat_mul, Nat.mod_eq_of_lt ((Nat.le_add_left _ _).trans_lt h)]

theorem Fits.totalSize (h : Fits elemSize count) :
    (totalSize elemSize count).toNat = headerSize.toNat + elemSize.toNat * count.toNat := by
  rw [Growable.totalSize, UInt64.toNat_add, h.mul, Nat.mod_eq_of_lt h]

/-- An allocation of a total size that fits. -/
theorem behindHeader_fits (h : Fits elemSize count) (answer : Answer) (raw : Bytes) :
    behindHeader answer raw (Growable.totalSize elemSize count) =
      pure (realloc answer raw (elemSize.toNat * count.toNat)) := by
  cases answer with
  | none => rfl
  | some fresh =>
    have hge : ¬Growable.totalSize elemSize count < headerSize := by
      rw [UInt64.lt_iff_toNat_lt, h.totalSize]
      omega
    rw [behindHeader, if_neg hge, h.totalSize, Nat.add_sub_cancel_left]

end Sizes

/-! ## The invariant -/

/-- The elements, and room for all that are allocated. -/
structure Inv (array : Array) (elemSize : UInt64) (l : List Bytes) : Prop where
  represents : Represents array elemSize l
  count_le : l.length ≤ array.preallocated.toNat
  fits : Fits elemSize array.preallocated
  allocated : elemSize.toNat * array.preallocated.toNat ≤ array.raw.length

variable {elemSize k : UInt64} {array array' : Array} {l : List Bytes} {answer : Answer}

theorem inv_alloc {preallocCount : UInt64} (hfits : Fits elemSize preallocCount)
    (h : arrayAlloc answer elemSize preallocCount = pure (some array)) : Inv array elemSize [] := by
  rw [arrayAlloc, behindHeader_fits hfits, pure_bind] at h
  cases hraw : realloc answer [] (elemSize.toNat * preallocCount.toNat) with
  | none =>
    rw [hraw] at h
    cases pure_inj h
  | some raw =>
    rw [hraw] at h
    obtain rfl := Option.some.inj (pure_inj h)
    exact ⟨⟨rfl, rfl, by simp, by simp, by simp⟩, Nat.zero_le _, hfits, (length_realloc hraw).ge⟩

/-- Elements that have just been added are cleared. -/
theorem clearElems_run (array : Array) (hsize : array.elemSize = elemSize) (hcount : array.elemCount.toNat = l.length)
    (hcontents : array.raw.take (elemSize.toNat * l.length) = l.flatten)
    (hfits : Fits elemSize k) (hgrow : l.length ≤ k.toNat) (hroom : elemSize.toNat * k.toNat ≤ array.raw.length) :
    ∃ raw, clearElems array k = pure { array with raw, elemCount := k } ∧ raw.length = array.raw.length ∧
      raw.take (elemSize.toNat * k.toNat) = (resize elemSize.toNat k.toNat l).flatten := by
  have hold : Fits elemSize array.elemCount := hfits.mono (by omega)
  have hmul : elemSize.toNat * l.length ≤ elemSize.toNat * k.toNat := Nat.mul_le_mul_left _ hgrow
  have hoff : (getPtr array array.elemCount).toNat = elemSize.toNat * l.length := by
    rw [getPtr, hsize, hold.mul, hcount]
  have hlen : (totalSize array.elemSize k - totalSize array.elemSize array.elemCount).toNat =
      elemSize.toNat * k.toNat - elemSize.toNat * l.length := by
    have hle : totalSize elemSize array.elemCount ≤ totalSize elemSize k := by
      rw [UInt64.le_iff_toNat_le, hfits.totalSize, hold.totalSize, hcount]
      omega
    rw [hsize, UInt64.toNat_sub_of_le _ _ hle, hfits.totalSize, hold.totalSize, hcount]
    omega
  have hin : elemSize.toNat * l.length + (elemSize.toNat * k.toNat - elemSize.toNat * l.length) ≤ array.raw.length := by
    omega
  have htake := take_clear hin
  rw [Nat.add_sub_cancel' hmul, hcontents] at htake
  refine ⟨_, ?_, length_clear hin, ?_⟩
  · rw [clearElems, hoff, hlen, clear_eq hin, pure_bind]
  · rw [Nat.add_sub_cancel' hmul, hcontents, htake, flatten_resize hgrow]

/-- What `array_truncate` does to a size that fits. -/
theorem truncate_spec (h : Inv array elemSize l) (hfits : Fits elemSize k) :
    (∃ array', arrayTruncate answer array k = pure (.ok (), array') ∧
      Inv array' elemSize (resize elemSize.toNat k.toNat l)) ∨
    arrayTruncate answer array k = pure (.error .ENOMEM, array) := by
  obtain ⟨⟨rfl, hcount, hl, hroom, hcontents⟩, hle, hpre, halloc⟩ := h
  change array.elemCount.toNat = l.length at hcount
  have hlen := length_resize array.elemSize.toNat k.toNat l
  have helems := resize_elems (k := k.toNat) hl
  rw [arrayTruncate]
  split_ifs with hshrink hroomy
  · -- what is cut off stays behind the elements
    rw [UInt64.le_iff_toNat_le, hcount] at hshrink
    have hmul : array.elemSize.toNat * k.toNat ≤ array.elemSize.toNat * l.length := Nat.mul_le_mul_left _ hshrink
    have htake : array.raw.take (array.elemSize.toNat * k.toNat) = (l.take k.toNat).flatten := by
      rw [← (flatten_split hl k.toNat).1, ← hcontents, List.take_take, Nat.min_eq_left hmul]
    refine .inl ⟨{ array with elemCount := k }, rfl, ⟨rfl, hlen.symm, helems, ?_, ?_⟩, ?_, hpre, halloc⟩
    · rw [hlen]
      exact hmul.trans hroom
    · rw [hlen, htake, resize, Nat.sub_eq_zero_of_le hshrink, List.replicate_zero, List.append_nil]
    · rw [hlen]
      exact hshrink.trans hle
  · rw [UInt64.le_iff_toNat_le] at hshrink hroomy
    have hroom' : array.elemSize.toNat * k.toNat ≤ array.raw.length := (Nat.mul_le_mul_left _ hroomy).trans halloc
    obtain ⟨raw, hrun, hraw, htake⟩ := clearElems_run array rfl hcount hcontents hfits (by omega) hroom'
    refine .inl ⟨{ array with raw, elemCount := k }, by rw [hrun]; rfl, ⟨rfl, hlen.symm, helems, ?_, ?_⟩, ?_, hpre, ?_⟩
    · rw [hlen]
      exact hroom'.trans_eq hraw.symm
    · rw [hlen, htake]
    · rw [hlen]
      exact hroomy
    · exact halloc.trans_eq hraw.symm
  · rw [UInt64.le_iff_toNat_le, hcount] at hshrink
    rw [behindHeader_fits hfits, pure_bind]
    cases hnew : realloc answer array.raw (array.elemSize.toNat * k.toNat) with
    | none => exact .inr rfl
    | some raw =>
      have hrawlen := length_realloc hnew
      have hmul : array.elemSize.toNat * l.length ≤ array.elemSize.toNat * k.toNat := Nat.mul_le_mul_left _ (by omega)
      have hkeep : raw.take (array.elemSize.toNat * l.length) = l.flatten := by
        rw [take_realloc hnew hroom hmul, hcontents]
      obtain ⟨raw', hrun, hraw, htake⟩ :=
        clearElems_run { array with raw, preallocated := k } rfl hcount hkeep hfits (by omega) hrawlen.ge
      refine .inl ⟨⟨array.elemSize, k, k, raw'⟩, by dsimp only; rw [hrun]; rfl, ⟨rfl, hlen.symm, helems, ?_, ?_⟩, ?_, hfits, ?_⟩
      · rw [hlen]
        exact (hraw.trans hrawlen).ge
      · rw [hlen, htake]
      · rw [hlen]
      · exact (hraw.trans hrawlen).ge

theorem write_spec {i : Nat} {v : Bytes} (h : Inv array elemSize l) (hi : i < l.length) (hv : v.length = elemSize.toNat) :
    ∃ array', writeElem array i v = pure array' ∧ Inv array' elemSize (l.set i v) := by
  obtain ⟨⟨hsize, hcount, hl, hroom, hcontents⟩, hle, hpre, halloc⟩ := h
  have hend : elemSize.toNat * i + elemSize.toNat ≤ elemSize.toNat * l.length := by
    rw [← Nat.mul_succ]
    exact Nat.mul_le_mul_left _ hi
  have hin : array.elemSize.toNat * i + v.length ≤ array.raw.length := by
    rw [hsize, hv]
    omega
  rw [writeElem, if_pos hin, hsize, hv]
  have hlength : (array.raw.take (elemSize.toNat * i) ++ v ++ array.raw.drop (elemSize.toNat * i + elemSize.toNat)).length =
      array.raw.length := by
    rw [List.length_append, List.length_append, List.length_take, List.length_drop]
    omega
  have helems : ∀ w ∈ l.set i v, w.length = elemSize.toNat := by
    intro w hw
    rcases List.mem_or_eq_of_mem_set hw with hw | rfl
    · exact hl w hw
    · exact hv
  refine ⟨_, rfl, ⟨rfl, by rw [List.length_set]; exact hcount, helems, ?_, ?_⟩, ?_, hpre, ?_⟩
  · rw [List.length_set, hlength]
    exact hroom
  · have hsplice := take_splice (by rw [hv]; exact hend) hroom
    rw [hcontents, hv] at hsplice
    rw [List.length_set, flatten_set hl hi, ← hsplice]
  · rw [List.length_set]
    exact hle
  · rw [hlength]
    exact halloc

theorem Reachable.inv (h : Reachable elemSize array l) : Inv array elemSize l := by
  induction h with
  | alloc hfits hrun => exact inv_alloc hfits hrun
  | write _ hi hv hrun ih =>
    obtain ⟨array', hrun', h'⟩ := write_spec ih hi hv
    rw [hrun'] at hrun
    exact pure_inj hrun ▸ h'
  | truncate _ hfits hrun ih =>
    rcases truncate_spec ih hfits with ⟨array', hrun', h'⟩ | hrun'
    · rw [hrun'] at hrun
      exact (Prod.mk.inj (pure_inj hrun)).2 ▸ h'
    · rw [hrun'] at hrun
      cases pure_inj hrun
  | failed _ hfits hrun ih =>
    rcases truncate_spec ih hfits with ⟨array', hrun', -⟩ | hrun'
    · rw [hrun'] at hrun
      cases pure_inj hrun
    · rw [hrun'] at hrun
      exact (Prod.mk.inj (pure_inj hrun)).2 ▸ ih

/-- In every run to sizes that fit, the array is a list: whatever `array_truncate` is asked for next, it makes
the list this long or fails and leaves it as it is, and every element can be written. -/
theorem array_runs (h : Reachable elemSize array l) :
    Represents array elemSize l ∧
      (∀ answer k, Fits elemSize k → ∃ r array', arrayTruncate answer array k = pure (r, array') ∧
        (r = .ok () → Represents array' elemSize (resize elemSize.toNat k.toNat l)) ∧
        (∀ e, r = .error e → array' = array)) ∧
      ∀ i v, i < l.length → v.length = elemSize.toNat →
        ∃ array', writeElem array i v = pure array' ∧ Represents array' elemSize (l.set i v) := by
  refine ⟨h.inv.represents, fun answer k hfits => ?_, fun i v hi hv => ?_⟩
  · rcases @truncate_spec _ _ _ _ answer h.inv hfits with ⟨array', hrun, h'⟩ | hrun
    · exact ⟨.ok (), array', hrun, fun _ => h'.represents, fun _ he => nomatch he⟩
    · exact ⟨.error .ENOMEM, array, hrun, fun he => (nomatch he), fun _ _ => rfl⟩
  · obtain ⟨array', hrun, h'⟩ := write_spec h.inv hi hv
    exact ⟨array', hrun, h'.represents⟩

/-- Two elements, the second one written to, cut off and there again. -/
theorem array_runs_regrow :
    Represents ⟨1, 1, 2, [0, 9]⟩ 1 [[0]] ∧
      ∃ r array', arrayTruncate none ⟨1, 1, 2, [0, 9]⟩ 2 = pure (r, array') ∧
        (r = .ok () → Represents array' 1 [[0], [0]]) := by
  have h : Reachable 1 ⟨1, 1, 2, [0, 9]⟩ [[0]] := by
    have halloc : arrayAlloc (some fun _ => 5) 1 2 = pure (some ⟨1, 0, 2, [5, 5]⟩) := rfl
    have hgrow : arrayTruncate none ⟨1, 0, 2, [5, 5]⟩ 2 = pure (.ok (), ⟨1, 2, 2, [0, 0]⟩) := rfl
    have hwrite : writeElem ⟨1, 2, 2, [0, 0]⟩ 1 [9] = pure ⟨1, 2, 2, [0, 9]⟩ := rfl
    have hshrink : arrayTruncate none ⟨1, 2, 2, [0, 9]⟩ 1 = pure (.ok (), ⟨1, 1, 2, [0, 9]⟩) := rfl
    have hfits : Fits 1 2 := of_decide_eq_true rfl
    have hfits' : Fits 1 1 := of_decide_eq_true rfl
    exact (((Reachable.alloc hfits halloc).truncate hfits hgrow).write (by decide) rfl hwrite).truncate hfits' hshrink
  have hfits : Fits 1 2 := of_decide_eq_true rfl
  obtain ⟨hl, htruncate, -⟩ := array_runs h
  obtain ⟨r, array', hrun, hok, -⟩ := htruncate none 2 hfits
  exact ⟨hl, r, array', hrun, hok⟩

/-- Where the sizes do not fit, `array_truncate` returns 0 and has no room for the elements. -/
theorem array_truncate_overflow :
    ∃ array array', arrayAlloc (some fun _ => 0) 8 0 = pure (some array) ∧
      arrayTruncate (some fun _ => 0) array 2305843009213693952 = pure (.ok (), array') ∧
      arraySize array' = 2305843009213693952 ∧ array'.raw.length < 8 * 2305843009213693952 := by
  refine ⟨⟨8, 0, 0, []⟩, ⟨8, 2305843009213693952, 2305843009213693952, []⟩, rfl, rfl, rfl, ?_⟩
  rw [List.length_nil]
  omega

end Libjeffpc.Growable
