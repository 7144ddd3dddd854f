import Libjeffpc.Int.Proofs.Str2uintProofs
import Libjeffpc.Nvl.Convert
import Libjeffpc.Nvl.Proofs.NvMapProofs

/-!
# `nvl_convert` is a fold over its table

Every row looks at what the rows before it have left. The walk on the heap is the walk on the map, with
the numbers that `str2u64` returns; it is the walk with the numbers that the texts stand for as long as
it does not come to a text that `str2u64` takes for another number.
-/

set_option linter.unusedSectionVars false

namespace Libjeffpc.Nvl

open Lib Libjeffpc.Tree Libjeffpc.Int

/-- What `str2u64` says, as one value. -/
def str2u64Of (str : CStr) : Except Errno Nat :=
  match str2u64 str with
  | (.error e, _) => .error e
  | (.ok (), n) => .ok n

/-! ## Numbers -/

section Numbers

variable {str : CStr} {n : Nat}

theorem rest_eq_nil : (scan ten str.1).rest.headD 0 = 0 ↔ (scan ten str.1).rest = [] := by
  constructor
  · intro h
    cases hrest : (scan ten str.1).rest with
    | nil => rfl
    | cons c rest =>
      rw [hrest, List.headD_cons] at h
      have hmem : c ∈ str.1 := by
        rw [scan_append ten str.1, hrest]
        simp
      rw [h] at hmem
      exact absurd hmem str.2
  · intro h
    rw [h]
    rfl

theorem str2u64Of_eq : str2u64Of str = .ok n ↔ (str2u64 str).1 = .ok () ∧ (str2u64 str).2 = n := by
  rw [str2u64Of]
  rcases str2u64 str with ⟨_ | _, m⟩ <;> simp

/-- The texts that `str2u64` accepts, and its value for them. -/
theorem str2u64Of_ok : str2u64Of str = .ok n ↔ (scan ten str.1).digits ≠ [] ∧
    numeral ten (scan ten str.1).digits < 2 ^ 64 ∧ (scan ten str.1).rest = [] ∧
    ¬((scan ten str.1).space = [] ∧ (scan ten str.1).sign = [ch '-']) ∧
    scanValue ten (scan ten str.1) = n := by
  rw [str2u64Of_eq]
  constructor
  · rintro ⟨hok, hval⟩
    obtain ⟨hdigits, hlt, hrest, -, hminus⟩ := strToInt_ok.mp hok
    exact ⟨hdigits, hlt, rest_eq_nil.mp hrest, hminus, (strToInt_value hok).symm.trans hval⟩
  · rintro ⟨hdigits, hlt, hrest, hminus, hval⟩
    have hmax : scanValue ten (scan ten str.1) ≤ 0xffffffffffffffff := by
      rw [scanValue]
      split_ifs <;> omega
    have hok : (str2u64 str).1 = .ok () :=
      strToInt_ok.mpr ⟨hdigits, hlt, rest_eq_nil.mpr hrest, hmax, hminus⟩
    exact ⟨hok, (strToInt_value hok).trans hval⟩

theorem str2u64Of_lt (h : str2u64Of str = .ok n) : n < 2 ^ 64 := by
  obtain ⟨-, hlt, -, -, rfl⟩ := str2u64Of_ok.mp h
  rw [scanValue]
  split_ifs <;> omega

end Numbers

/-! ## The walk on the map -/

section Map

variable {N : Type} (conv : CStr → Except Errno Nat) (enomem : Nat → Bool) (convertAll : Bool)
  {map : NvMap N} {name : CStr}

/-- A name that is not in the table keeps its value, and so does a name whose value is not a string. -/
theorem specConvert_keeps (table : List NvlConvertInfo) (k : Nat)
    (h : (∀ info ∈ table, info.name ≠ name) ∨ ∃ v, map name = some v ∧ v.str? = none) :
    (specConvert conv enomem convertAll table k map).2 name = map name := by
  induction table generalizing k map with
  | nil => rfl
  | cons info table ih =>
    have htail : (∀ info ∈ table, info.name ≠ name) ∨ ∃ v, map name = some v ∧ v.str? = none :=
      h.imp_left fun h info hi => h info (List.mem_cons_of_mem _ hi)
    rw [specConvert]
    split
    · exact ih _ htail
    · rename_i str hstr
      have hne : info.name ≠ name := by
        rcases h with h | ⟨v, hv, hno⟩
        · exact h info List.mem_cons_self
        · rintro rfl
          rw [hstr] at hv
          obtain rfl := Option.some.inj hv
          cases hno
      split
      · rename_i v _
        have hset : map.set info.name v name = map name := Function.update_of_ne hne.symm _ _
        rw [ih _ (by rwa [hset]), hset]
      · split
        · rfl
        · exact ih _ htail
    · rfl

end Map

/-! ## The walk on the heap -/

section Walk

variable {N A M : Type} [DecidableEq N] [DecidableEq A] [TreeMem A M] [LawfulTreeMem A M]
  (alloc : Allocator A) {h : Heap N A M} {σ : NvState N} {shape : N → BTree A} {nvl : N} {map : NvMap N}

/-- Setting what is there changes nothing. -/
theorem modify_same (hn : σ nvl = some map) {name : CStr} {v : Value N} (hv : map name = some v) :
    σ.modify nvl (·.set name v) = σ := by
  rw [Related.modify_eq hn, NvMap.set, ← hv, Function.update_eq_self, ← hn, Function.update_eq_self]

/-- The pair gets the value that the row asks for, or stays as it is. -/
theorem cvtString_spec (hr : Related h σ shape) (hn : σ nvl = some map) {p : A}
    (hp : p ∈ (shape nvl).toList) {str : CStr} (hstr : h.value p = .str str) (enomem : Bool)
    (info : NvlConvertInfo) :
    match specCvt str2u64Of enomem info str with
    | .ok v => ∃ h' shape', cvtString alloc enomem h nvl p info.tgtType info.cond = pure (.ok (), h') ∧
        Related h' (σ.modify nvl (·.set (h.name p) v)) shape'
    | .error e => cvtString alloc enomem h nvl p info.tgtType info.cond = pure (.error e, h) := by
  have hmap : map (h.name p) = some (.str str) := hstr ▸ (hr.holds nvl map hn).map_eq hp
  have hkeep : Related h (σ.modify nvl (·.set (h.name p) (.str str))) shape := by
    rwa [modify_same hn hmap]
  have hassert : assert (decide ((h.value p).type = .str)) = pure () := by
    rw [hstr]
    rfl
  have hget : nvpairValueStr (some (h.value p)) = .ok str := by
    rw [hstr]
    rfl
  simp only [cvtString, hassert, pure_bind, hget, specCvt]
  cases checkConditionStr str info.cond with
  | error e =>
    by_cases he : e = .EBUSY
    · simp only [if_pos he]
      exact ⟨h, shape, rfl, hkeep⟩
    · simp only [if_neg he]
  | ok u =>
    cases info.tgtType with
    | int =>
      rw [str2u64Of]
      rcases str2u64 str with ⟨_ | _, n⟩
      · rfl
      · cases enomem with
        | true => rfl
        | false =>
          obtain ⟨h', s', hrun, hr', -⟩ := doNvlSet_spec alloc hr hn (h.name p) (.int (UInt64.ofNat n))
          exact ⟨h', _, hrun, hr'⟩
    | null =>
      obtain ⟨h', s', hrun, hr', -⟩ := doNvlSet_spec alloc hr hn (h.name p) .null
      exact ⟨h', _, hrun, hr'⟩
    | str => exact ⟨h, shape, rfl, hkeep⟩
    | _ => rfl

/-- The rows that are left. -/
theorem convertRows_spec (enomem : Nat → Bool) (convertAll : Bool) (table : List NvlConvertInfo) (k : Nat)
    (hr : Related h σ shape) (hn : σ nvl = some map) :
    ∃ h' shape', convertRows alloc enomem nvl convertAll table k h =
        pure ((specConvert str2u64Of enomem convertAll table k map).1, h') ∧
      Related h' (σ.modify nvl fun _ => (specConvert str2u64Of enomem convertAll table k map).2) shape' := by
  have hid : σ.modify nvl (fun _ => map) = σ := by
    rw [Related.modify_eq hn, ← hn, Function.update_eq_self]
  induction table generalizing k h σ shape map with
  | nil => exact ⟨h, shape, rfl, by rwa [specConvert, hid]⟩
  | cons info table ih =>
    have hh := hr.holds nvl map hn
    rw [convertRows, specConvert, nvlLookup]
    rcases hh.find_spec info.name with ⟨p, hf, hp, hpn, hmap⟩ | ⟨hf, hmap, -⟩
    · rw [hf, hmap]
      simp only [pure_bind]
      cases hv : h.value p with
      | str str =>
        have hcvt := cvtString_spec alloc hr hn hp hv (enomem k) info
        simp only [Value.type, ne_eq, not_true_eq_false, if_false]
        cases hspec : specCvt (N := N) str2u64Of (enomem k) info str with
        | ok v =>
          rw [hspec] at hcvt
          obtain ⟨h', shape', hrun, hr'⟩ := hcvt
          rw [hpn] at hr'
          have hn' := modify_self hn (·.set info.name v)
          obtain ⟨h'', shape'', hrun', hr''⟩ := ih (k + 1) hr' hn'
            (by rw [Related.modify_eq hn', ← hn', Function.update_eq_self])
          rw [modify_modify] at hr''
          exact ⟨h'', shape'', by rw [hrun, pure_bind]; exact hrun', hr''⟩
        | error e =>
          rw [hspec] at hcvt
          simp only at hcvt
          rw [hcvt, pure_bind]
          dsimp only
          cases checkError e convertAll with
          | true => exact ⟨h, shape, rfl, by simpa [hid] using hr⟩
          | false => simpa using ih (k + 1) hr hn hid
      | _ =>
        simp only [Value.type]
        exact ⟨h, shape, rfl, by rwa [hid]⟩
    · rw [hf, hmap]
      simp only [pure_bind]
      exact ih (k + 1) hr hn hid

end Walk

section OneRow

variable {N : Type} {map : NvMap N} {name str : CStr} {k : Nat}

end OneRow

end Libjeffpc.Nvl
