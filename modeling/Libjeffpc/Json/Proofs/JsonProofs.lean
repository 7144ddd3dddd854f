import Libjeffpc.Buffer.Proofs.OutputProofs
import Libjeffpc.Json.Proofs.ReadProofs

/-!
# JSON output is well formed and means the value
-/

namespace Libjeffpc.Json

open Lib

/-- `json_pack_val` appends one JSON value, from which the reader gets the value back. -/
theorem json_pack_val_round_trip (m : Machine) (v : Val) (hv : Plain v) :
    IsValue (output v).bytes ∧
    (∀ b k, b.HasSpace m (output v).bytes.length → ∃ s, Returns (jsonPackVal m v) ⟨b, k⟩ (.ok ()) s ∧
      s.buffer.contents = b.contents ++ (output v).bytes) ∧
    (∀ rest, Delimited rest → read ((output v).bytes ++ rest) = some (v, rest)) ∧
    ∀ w, Plain w → w ≠ v → (output w).bytes ≠ (output v).bytes := by
  refine ⟨isValue_output hv, fun b k hb => ?_, fun rest hrest => read_output hv hrest,
    fun w hw hne heq => hne (output_injective hw hv heq)⟩
  rw [jsonPackVal_eq]
  exact write_space (output_plain hv) hb

/-- `["a",7]`. -/
def sample : Val := .array [.str ⟨[97], by decide⟩, .int 7]

theorem sample_plain : Plain sample := by
  refine .array ?_
  simp only [List.forall_mem_cons, List.not_mem_nil, false_imp_iff, implies_true, and_true]
  exact ⟨.str _, .int 7⟩

theorem json_pack_val_round_trip_sample :
    IsValue (text ['[', '"', 'a', '"', ',', '7', ']']) ∧
    (∃ s, Returns (jsonPackVal .plenty sample) ⟨bufferInitHeap .plenty 0, 0⟩ (.ok ()) s ∧
      s.buffer.contents = text ['[', '"', 'a', '"', ',', '7', ']']) ∧
    read (text ['[', '"', 'a', '"', ',', '7', ']', ',']) = some (sample, [ch ',']) := by
  have htext : (output sample).bytes = text ['[', '"', 'a', '"', ',', '7', ']'] := by decide
  obtain ⟨hvalue, hpack, hread, -⟩ := json_pack_val_round_trip .plenty sample sample_plain
  rw [htext] at hvalue hpack hread
  refine ⟨hvalue, hpack _ 0 ⟨(Buffer.Initial.heap (Nat.zero_le _)).usable, Or.inl ⟨rfl, by decide, ?_⟩⟩, ?_⟩
  · exact fun k j hj => Machine.plenty_ample.bytes k j hj
  · exact hread [ch ','] (delimited_cons (by decide) [])

end Libjeffpc.Json
