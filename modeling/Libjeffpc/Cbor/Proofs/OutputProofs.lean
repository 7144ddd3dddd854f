import Libjeffpc.Cbor.Output
import Libjeffpc.Cbor.Proofs.PackProofs

/-!
# The CBOR functions write their output
-/

namespace Libjeffpc.Cbor

open Lib Libjeffpc.Int

variable (m : Machine)

theorem packCborTypeByte_eq (type : MajorType) {additional : UInt8} (h : additional.toNat < 32) :
    packCborTypeByte m type additional = bufferAppend m [typeByte type additional.toNat] := by
  rw [packCborTypeByte, mktype_eq type h, lift_pure_bind]

/-- An argument that does not fit in the first byte. -/
theorem packArg_eq (type : MajorType) {addl : UInt8} (h : addl.toNat < 32) (arg : Bytes) :
    (packCborTypeByte m type addl >>= fun _ => bufferAppend m arg) =
      (Output.mk [[typeByte type addl.toNat], arg] none).write m := by
  rw [packCborTypeByte_eq m type h]
  simp only [Output.write, Output.writeChunks, bind_pure_unit]

theorem packCborType_eq (type : MajorType) (v : UInt64) :
    packCborType m type v = (outputHead type v).write m := by
  unfold packCborType outputHead
  by_cases h23 : v ≤ 23
  · have hle : v.toNat ≤ 23 := by simpa [UInt64.le_iff_toNat_le] using h23
    have hnat : v.toUInt8.toNat = v.toNat := by
      rw [UInt64.toNat_toUInt8]
      omega
    rw [if_pos h23, if_pos h23, Output.write_chunk, packCborTypeByte_eq m type (by omega), hnat]
  · rw [if_neg h23, if_neg h23]
    split_ifs with h8 h16 h32
    · have hle : v.toNat ≤ 0xff := by simpa [UInt64.le_iff_toNat_le] using h8
      have hnat : v.toUInt8.toNat = v.toNat := by
        rw [UInt64.toNat_toUInt8]
        omega
      rw [← hnat, ← store_cpu8ToBe m.endian]
      exact packArg_eq m type (by decide) _
    · have hle : v.toNat ≤ 0xffff := by simpa [UInt64.le_iff_toNat_le] using h16
      have hnat : v.toUInt16.toNat = v.toNat := by
        rw [UInt64.toNat_toUInt16]
        omega
      rw [← hnat, ← store_cpu16ToBe m.endian]
      exact packArg_eq m type (by decide) _
    · have hle : v.toNat ≤ 0xffffffff := by simpa [UInt64.le_iff_toNat_le] using h32
      have hnat : v.toUInt32.toNat = v.toNat := by
        rw [UInt64.toNat_toUInt32]
        omega
      rw [← hnat, ← store_cpu32ToBe m.endian]
      exact packArg_eq m type (by decide) _
    · rw [← store_cpu64ToBe m.endian]
      exact packArg_eq m type (by decide) _

theorem cborPackStr_eq (s : CStr) : cborPackStr m s = (outputString .text s.1).write m := by
  rw [outputString, Output.write_andThen, Output.write_chunk, ← packCborType_eq]
  rfl

theorem cborPackStart_eq (type : MajorType) (nelem : UInt64) :
    cborPackStart m type 31 nelem = (outputStart type nelem).write m := by
  unfold cborPackStart outputStart
  split_ifs with h
  · exact packCborType_eq m type nelem
  · rw [Output.write_chunk]
    exact packCborTypeByte_eq m type (by decide)

theorem cborPackEnd_eq (nelem : UInt64) : cborPackEnd m nelem = (outputEnd nelem).write m := by
  unfold cborPackEnd outputEnd
  split_ifs with h
  · rw [Output.write_done]
  · rw [Output.write_chunk]
    exact @packCborTypeByte_eq m .float 31 (by decide)

mutual

theorem cborPackVal_eq : ∀ v : Val, cborPackVal m v = (output v).write m
  | .null => by
    rw [cborPackVal, output]
    exact packCborType_eq m .float 22
  | .int i => by
    rw [cborPackVal, output]
    exact packCborType_eq m .uint i
  | .str s => by rw [cborPackVal, output, cborPackStr_eq]
  | .sym _ => by rw [cborPackVal, output, Output.write_fail]
  | .bool b => by
    rw [cborPackVal, output]
    cases b with
    | false => exact packCborType_eq m .float 20
    | true => exact packCborType_eq m .float 21
  | .nil => by rw [cborPackVal, output, Output.write_fail]
  | .cons _ _ => by rw [cborPackVal, output, Output.write_fail]
  | .char _ => by rw [cborPackVal, output, Output.write_fail]
  | .blob bytes => by
    rw [cborPackVal, output, outputString, Output.write_andThen, Output.write_chunk, ← packCborType_eq]
    rfl
  | .array vals => by
    rw [cborPackVal, output, Output.write_andThen, Output.write_andThen, ← cborPackStart_eq,
      ← cborPackEnd_eq, packElems_eq]
    rfl
  | .nvl pairs => by
    rw [cborPackVal, output, Output.write_andThen, Output.write_andThen, ← cborPackStart_eq,
      ← cborPackEnd_eq, packPairs_eq]
    rfl

theorem packElems_eq : ∀ vals : List Val, packElems m vals = (outputElems vals).write m
  | [] => by rw [packElems, outputElems, Output.write_done]
  | v :: vals => by
    rw [packElems, outputElems, Output.write_andThen, cborPackVal_eq v, packElems_eq vals]

theorem packPairs_eq :
    ∀ pairs : List (CStr × Val), packPairs m pairs = (outputPairs pairs).write m
  | [] => by rw [packPairs, outputPairs, Output.write_done]
  | (name, value) :: pairs => by
    rw [packPairs, outputPairs, Output.write_andThen, Output.write_andThen, cborPackVal_eq value,
      packPairs_eq pairs, cborPackStr_eq]

end

end Libjeffpc.Cbor
