import Libjeffpc.Buffer.Output
import Libjeffpc.Buffer.Proofs.ByteListProofs

/-!
# What becomes of an output

The same pieces are appended to a heap buffer, to a static buffer and to a sink. A heap buffer takes
all of them as long as there is memory, a static buffer the pieces that fit, and a sink only counts.
-/

namespace Libjeffpc

open Lib

variable {m : Machine} {b : Buffer} {k : Nat}

/-! ## Heap buffers -/

/-- A heap buffer that has room for a piece takes it. -/
theorem append_room (hb : b.Usable) (ho : b.ops = .heap) {data : Bytes} (h : b.size + data.length < 2 ^ 64)
    (hroom : b.size + data.length ≤ b.allocsize) :
    ∃ b', Returns (bufferAppend m data) ⟨b, k⟩ (.ok ()) ⟨b', k⟩ ∧ b'.Usable ∧ b'.ops = .heap ∧
      b'.allocsize = b.allocsize ∧ b'.contents = b.contents ++ data := by
  have hok : b.checkTruncate (b.size + data.length) = .ok () := by rw [Buffer.checkTruncate, ho]
  obtain ⟨b', happ, hb', ho', -, halloc, hcont⟩ := append_ok h hb hok (resize_enough (m := m) (k := k) hroom)
    ⟨hb, rfl, rfl, rfl, rfl, (max_eq_left hroom).symm⟩ (Or.inl ho)
  exact ⟨b', happ, hb', ho'.trans ho, halloc, hcont⟩

/-- One that has none grows, or finds no memory for it. -/
theorem append_grows (hb : b.Usable) (ho : b.ops = .heap) {data : Bytes} (h : b.size + data.length < 2 ^ 64)
    (hfull : b.allocsize < b.size + data.length) :
    (∃ b', Returns (bufferAppend m data) ⟨b, k⟩ (.ok ()) ⟨b', k + 1⟩ ∧ b'.Usable ∧ b'.ops = .heap ∧
      b'.allocsize = b.size + data.length ∧ b'.contents = b.contents ++ data) ∨
    (∃ s, Returns (bufferAppend m data) ⟨b, k⟩ (.error .ENOMEM) s ∧
      m.grants k (.bytes (b.size + data.length)) = false) := by
  have hok : b.checkTruncate (b.size + data.length) = .ok () := by rw [Buffer.checkTruncate, ho]
  cases hgrant : m.grants k (.bytes (b.size + data.length)) with
  | true =>
    obtain ⟨b', hr, hg⟩ := resize_granted hb ho hfull hgrant
    obtain ⟨b'', happ, hb'', ho', -, halloc, hcont⟩ := append_ok h hb hok hr hg (Or.inl (hg.ops.trans ho))
    exact Or.inl ⟨b'', happ, hb'', ho'.trans ho, halloc.trans (hg.allocsize.trans (max_eq_right hfull.le)), hcont⟩
  | false =>
    have hne : data.length ≠ 0 := by
      have := hb.valid.size_le
      omega
    exact Or.inr ⟨_, append_noMemory h hok hne (resize_refused ho hfull hgrant), rfl⟩

/-- A heap buffer takes all pieces, or there is no memory for one of them. -/
theorem writeChunks_heap (chunks : List Bytes) : ∀ {b : Buffer} {k : Nat}, b.Usable → b.ops = .heap →
    b.size + chunks.flatten.length ≤ ssizeMax →
    (∃ b' k', Returns (Output.writeChunks m chunks) ⟨b, k⟩ (.ok ()) ⟨b', k'⟩ ∧ b'.Usable ∧
      b'.ops = .heap ∧ b'.contents = b.contents ++ chunks.flatten) ∨
    (∃ s, Returns (Output.writeChunks m chunks) ⟨b, k⟩ (.error .ENOMEM) s ∧
      ∃ i n, (Output.growths b.allocsize b.size chunks)[i]? = some n ∧ n ≤ ssizeMax ∧
        m.grants (k + i) (.bytes n) = false) := by
  induction chunks with
  | nil =>
    intro b k hb ho _
    exact Or.inl ⟨b, k, Returns.pure _ _, hb, ho, by simp⟩
  | cons data chunks ih =>
    intro b k hb ho hmax
    rw [List.flatten_cons, List.length_append] at hmax
    have hlt : b.size + data.length < 2 ^ 64 := by
      simp only [ssizeMax] at hmax
      omega
    have hsize : ∀ {b' : Buffer}, b'.Usable → b'.contents = b.contents ++ data →
        b'.size = b.size + data.length := by
      intro b' hb' hcont
      rw [← hb'.valid.length_contents, hcont, List.length_append, hb.valid.length_contents]
    rw [Output.growths]
    rcases Nat.lt_or_ge b.allocsize (b.size + data.length) with hfull | hroom
    · rw [if_neg (Nat.not_le_of_lt hfull)]
      rcases append_grows (m := m) (k := k) hb ho hlt hfull with
        ⟨b', happ, hb', ho', halloc, hcont⟩ | ⟨s, happ, hg⟩
      · rcases ih (k := k + 1) hb' ho' (by rw [hsize hb' hcont]; omega) with
          ⟨b2, k2, hw, hb2, ho2, hc2⟩ | ⟨s, hw, i, n, hi, hn, hg⟩
        · refine Or.inl ⟨b2, k2, happ.bind hw, hb2, ho2, ?_⟩
          rw [hc2, hcont, List.flatten_cons, List.append_assoc]
        · rw [halloc, hsize hb' hcont] at hi
          refine Or.inr ⟨s, happ.bind hw, i + 1, n, hi, hn, ?_⟩
          rwa [Nat.add_right_comm k 1 i] at hg
      · exact Or.inr ⟨s, happ.bind_error, 0, _, rfl, by omega, hg⟩
    · rw [if_pos hroom]
      obtain ⟨b', happ, hb', ho', halloc, hcont⟩ := append_room (m := m) (k := k) hb ho hlt hroom
      rcases ih (k := k) hb' ho' (by rw [hsize hb' hcont]; omega) with
        ⟨b2, k2, hw, hb2, ho2, hc2⟩ | ⟨s, hw, hrefused⟩
      · refine Or.inl ⟨b2, k2, happ.bind hw, hb2, ho2, ?_⟩
        rw [hc2, hcont, List.flatten_cons, List.append_assoc]
      · rw [halloc, hsize hb' hcont] at hrefused
        exact Or.inr ⟨s, happ.bind hw, hrefused⟩

/-! ## Static buffers -/

/-- A static buffer that can be written to; there need not be an object behind it if it has no room. -/
structure StaticRoom (b : Buffer) : Prop where
  ops : b.ops = .staticRw
  size_le : b.size ≤ b.allocsize
  alloc_le : b.allocsize ≤ b.memory.length
  memory_le : b.memory.length ≤ ssizeMax

theorem splice_nil (mem : Bytes) (off : Nat) : splice mem off [] = mem := by
  simp [splice]

theorem splice_splice {mem x : Bytes} {off : Nat} (h : off + x.length ≤ mem.length) (y : Bytes) :
    splice (splice mem off x) (off + x.length) y = splice mem off (x ++ y) := by
  have hlen : (mem.take off ++ x).length = off + x.length := by
    rw [List.length_append, List.length_take]
    omega
  have hdrop : (splice mem off x).drop (off + x.length + y.length) =
      mem.drop (off + (x.length + y.length)) := by
    rw [splice, ← hlen, List.drop_append, List.drop_eq_nil_of_le (by omega), List.nil_append, List.drop_drop]
    congr 1
    omega
  rw [splice, take_splice_end h, hdrop, splice, List.length_append]
  simp only [List.append_assoc]

/-- What is at an index behind all that is written. -/
theorem drop_splice {mem x : Bytes} {off n : Nat} (h : off + x.length ≤ n) (hn : n ≤ mem.length) :
    (splice mem off x).drop n = mem.drop n := by
  have hlen : (mem.take off ++ x).length = off + x.length := by
    rw [List.length_append, List.length_take]
    omega
  rw [splice, List.drop_append, List.drop_eq_nil_of_le (by omega), List.nil_append, List.drop_drop]
  congr 1
  omega

theorem append_static (hb : StaticRoom b) {data : Bytes} (h : b.size + data.length ≤ b.allocsize) :
    ∃ b', Returns (bufferAppend m data) ⟨b, k⟩ (.ok ()) ⟨b', k⟩ ∧ StaticRoom b' ∧
      b'.allocsize = b.allocsize ∧ b'.size = b.size + data.length ∧
      b'.memory = splice b.memory b.size data := by
  have halloc := hb.alloc_le
  have hmem := hb.memory_le
  have hlt : b.size + data.length < 2 ^ 64 := by
    simp only [ssizeMax] at hmem
    omega
  have hadd : addSize b.size data.length = b.size + data.length := Nat.mod_eq_of_lt hlt
  have hok : b.checkTruncate (b.size + data.length) = .ok () := by
    simp only [Buffer.checkTruncate, hb.ops, if_pos h]
  by_cases hne : data.length = 0
  · refine ⟨b, append_nil hlt hok hne, hb, rfl, by omega, ?_⟩
    rw [List.eq_nil_of_length_eq_zero hne, splice_nil]
  · obtain ⟨mem, hdata⟩ : ∃ mem, b.data = some mem := by
      cases hd : b.data with
      | some mem => exact ⟨mem, rfl⟩
      | none =>
        have hnil : b.memory = [] := by rw [Buffer.memory, hd, Option.getD_none]
        rw [hnil, List.length_nil] at halloc
        omega
    have hmem' : b.memory = mem := by rw [Buffer.memory, hdata, Option.getD_some]
    have hcopy : b.copyin b.size data = pure (b.store b.size data) := by
      have hroom : b.size + data.length ≤ mem.length := hmem' ▸ h.trans halloc
      simp only [Buffer.copyin, hb.ops, hdata, deref_some, pure_bind, if_pos hroom, Buffer.store, hmem',
        splice]
    refine ⟨{ b.store b.size data with size := b.size + data.length }, ?_, ⟨hb.ops, h, ?_, ?_⟩, rfl, rfl,
      rfl⟩
    · refine (returns_getBuffer _).bind ?_
      rw [checkAppend_eq hlt, hok]
      refine (returns_liftExcept _ _).bind ?_
      simp only [hne, if_false, hadd]
      refine (resize_enough h).bind ((returns_getBuffer _).bind ?_)
      rw [hcopy]
      refine (Returns.lift _ _).bind ?_
      have hs : (b.store b.size data).size = b.size := rfl
      rw [hs, hadd]
      exact returns_setBuffer _ _
    · show b.allocsize ≤ (splice b.memory b.size data).length
      rw [length_splice (by omega)]
      exact halloc
    · show (splice b.memory b.size data).length ≤ ssizeMax
      rw [length_splice (by omega)]
      exact hmem

/-- A static buffer takes all pieces if they fit. -/
theorem writeChunks_static (chunks : List Bytes) : ∀ {b : Buffer}, StaticRoom b →
    b.size + chunks.flatten.length ≤ b.allocsize →
    ∃ b', Returns (Output.writeChunks m chunks) ⟨b, k⟩ (.ok ()) ⟨b', k⟩ ∧ StaticRoom b' ∧
      b'.allocsize = b.allocsize ∧ b'.size = b.size + chunks.flatten.length ∧
      b'.memory = splice b.memory b.size chunks.flatten := by
  induction chunks with
  | nil =>
    intro b hb _
    exact ⟨b, Returns.pure _ _, hb, rfl, rfl, (splice_nil _ _).symm⟩
  | cons data chunks ih =>
    intro b hb hfits
    rw [List.flatten_cons, List.length_append] at hfits
    obtain ⟨b', happ, hb', halloc, hsize, hmem⟩ := append_static (m := m) (k := k) hb
      (by omega : b.size + data.length ≤ b.allocsize)
    obtain ⟨b2, hw, hb2, halloc2, hsize2, hmem2⟩ := ih hb' (by omega)
    refine ⟨b2, happ.bind hw, hb2, halloc2.trans halloc, ?_, ?_⟩
    · rw [hsize2, hsize, List.flatten_cons, List.length_append]
      omega
    · have := hb.alloc_le
      rw [hmem2, hmem, hsize, splice_splice (by omega), List.flatten_cons]

/-- A static buffer that is too small takes some pieces, and the next one fails. -/
theorem writeChunks_full (chunks : List Bytes) : ∀ {b : Buffer}, StaticRoom b →
    b.allocsize < b.size + chunks.flatten.length → b.size + chunks.flatten.length < 2 ^ 64 →
    ∃ b' written, Returns (Output.writeChunks m chunks) ⟨b, k⟩ (.error .ENOSPC) ⟨b', k⟩ ∧
      b.size + written.length ≤ b.allocsize ∧ b'.memory = splice b.memory b.size written := by
  induction chunks with
  | nil =>
    intro b hb hfull _
    have := hb.size_le
    simp only [List.flatten_nil, List.length_nil] at hfull
    omega
  | cons data chunks ih =>
    intro b hb hfull hlt
    rw [List.flatten_cons, List.length_append] at hfull hlt
    have halloc := hb.alloc_le
    by_cases hfits : b.size + data.length ≤ b.allocsize
    · obtain ⟨b', happ, hb', ha, hsize, hmem⟩ := append_static (m := m) (k := k) hb hfits
      obtain ⟨b2, written, hw, hle, hmem2⟩ := ih hb' (by omega) (by omega)
      refine ⟨b2, data ++ written, happ.bind hw, ?_, ?_⟩
      · rw [List.length_append]
        omega
      · rw [hmem2, hmem, hsize, splice_splice (by omega)]
    · have he : b.checkTruncate (b.size + data.length) = .error .ENOSPC := by
        simp only [Buffer.checkTruncate, hb.ops, if_neg hfits]
      have happ : Returns (bufferAppend m data) ⟨b, k⟩ (.error .ENOSPC) ⟨b, k⟩ :=
        append_check (by omega) he
      exact ⟨b, [], happ.bind_error, by simpa using hb.size_le, (splice_nil _ _).symm⟩

/-! ## Sinks -/

/-- A sink: there is nothing behind it, and it is never full. -/
structure IsSink (b : Buffer) : Prop where
  ops : b.ops = .sink
  allocsize : b.allocsize = sizeMax
  size_lt : b.size < 2 ^ 64

theorem append_sink (hb : IsSink b) (data : Bytes) :
    ∃ b', Returns (bufferAppend m data) ⟨b, k⟩ (.ok ()) ⟨b', k⟩ ∧ IsSink b' ∧
      b'.size % 2 ^ 64 = (b.size + data.length) % 2 ^ 64 := by
  have hok : b.checkAppend data.length = .ok () := by rw [Buffer.checkAppend, hb.ops]
  by_cases hne : data.length = 0
  · refine ⟨b, ?_, hb, by rw [hne, Nat.add_zero]⟩
    refine (returns_getBuffer _).bind ?_
    rw [hok]
    refine (returns_liftExcept _ _).bind ?_
    simp only [hne, if_true]
    exact Returns.pure _ _
  · have hle : addSize b.size data.length ≤ b.allocsize := by
      rw [hb.allocsize, sizeMax, addSize]
      omega
    have hcopy : b.copyin b.size data = pure b := by rw [Buffer.copyin, hb.ops]
    refine ⟨{ b with size := addSize b.size data.length }, ?_, ⟨hb.ops, hb.allocsize, Nat.mod_lt _ (by decide)⟩, ?_⟩
    · refine (returns_getBuffer _).bind ?_
      rw [hok]
      refine (returns_liftExcept _ _).bind ?_
      simp only [hne, if_false]
      refine (resize_enough hle).bind ((returns_getBuffer _).bind ?_)
      rw [hcopy]
      exact (Returns.lift _ _).bind (returns_setBuffer _ _)
    · exact Nat.mod_mod _ _

/-- A sink takes everything and counts modulo 2^64. -/
theorem writeChunks_sink (chunks : List Bytes) : ∀ {b : Buffer}, IsSink b →
    ∃ b', Returns (Output.writeChunks m chunks) ⟨b, k⟩ (.ok ()) ⟨b', k⟩ ∧ IsSink b' ∧
      b'.size % 2 ^ 64 = (b.size + chunks.flatten.length) % 2 ^ 64 := by
  induction chunks with
  | nil =>
    intro b hb
    exact ⟨b, Returns.pure _ _, hb, rfl⟩
  | cons data chunks ih =>
    intro b hb
    obtain ⟨b', happ, hb', hsize⟩ := append_sink (m := m) (k := k) hb data
    obtain ⟨b2, hw, hb2, hsize2⟩ := ih hb'
    refine ⟨b2, happ.bind hw, hb2, ?_⟩
    rw [hsize2, List.flatten_cons, List.length_append, ← Nat.add_assoc, Nat.add_mod, hsize, ← Nat.add_mod]

/-! ## Buffers that do not run out of space -/

theorem write_space {o : Output} (ho : o.error = none) (hb : b.HasSpace m o.bytes.length) :
    ∃ s, Returns (o.write m) ⟨b, k⟩ (.ok ()) s ∧ s.buffer.contents = b.contents ++ o.bytes := by
  have hwrite : ∀ {s : BufferState}, Returns (Output.writeChunks m o.chunks) ⟨b, k⟩ (.ok ()) s →
      Returns (o.write m) ⟨b, k⟩ (.ok ()) s := by
    intro s h
    rw [Output.write, ho]
    exact h.bind (Returns.pure _ _)
  rcases hb.room with ⟨hheap, hmax, hgrants⟩ | ⟨hstatic, hfits⟩
  · rcases writeChunks_heap (m := m) (k := k) o.chunks hb.usable hheap hmax with
      ⟨b', k', hw, -, -, hcont⟩ | ⟨_, -, i, n, -, hn, hno⟩
    · exact ⟨_, hwrite hw, hcont⟩
    · rw [hgrants _ n hn] at hno
      cases hno
  · have hv := hb.usable.valid
    have hroom : StaticRoom b := ⟨hstatic, hv.size_le, hv.alloc_le, hv.memory_le⟩
    obtain ⟨b', hw, -, -, hsize, hmem⟩ := writeChunks_static (m := m) (k := k) o.chunks hroom hfits
    refine ⟨_, hwrite hw, ?_⟩
    show b'.memory.take b'.size = b.memory.take b.size ++ o.bytes
    rw [hmem, hsize]
    exact take_splice_end (hfits.trans hv.alloc_le)

end Libjeffpc
