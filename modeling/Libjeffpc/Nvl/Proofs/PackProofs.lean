import Libjeffpc.Nvl.Pack
import Libjeffpc.Nvl.Proofs.NvMapProofs

/-!
# Packing depends on the map only

Packing a value in the heap is packing the finite tree that it denotes: the walk through the tree of an
nvlist visits its names in increasing order, so the shape of the tree and the colours of its nodes make
no difference.
-/

set_option linter.unusedSectionVars false

namespace Libjeffpc.Nvl

open Lib Libjeffpc.Tree

variable {N A M : Type} [DecidableEq N] [DecidableEq A] [TreeMem A M] [LawfulTreeMem A M]
  {h : Heap N A M} {σ : NvState N} {shape : N → BTree A} {nvl : N} {s : BTree A} {map : NvMap N}

section Cbor

variable (m : Machine)

/-- The walk through the rest of a tree packs the rest of the pairs. -/
theorem cborPackPairs_eq (hh : Holds h nvl s map) {todo : List A} {pairs : List (CStr × Val)}
    (hall : List.Forall₂ (fun p q => h.name p = q.1 ∧
      cborPackVal m h (h.value p) = Cbor.cborPackVal m q.2) todo pairs) :
    ∀ done, s.toList = done ++ todo → cborPackPairs m h nvl todo.head? = Cbor.packPairs m pairs := by
  induction hall with
  | nil =>
    intro done _
    rw [List.head?_nil, cborPackPairs, Cbor.packPairs]
  | @cons p q todo pairs hpq _ ih =>
    intro done hdone
    obtain ⟨name, value⟩ := q
    obtain ⟨hname, hvalue⟩ := hpq
    have htail := ih (done ++ [p]) (by rw [hdone, List.append_assoc, List.singleton_append])
    rw [List.head?_cons, cborPackPairs, Cbor.packPairs]
    simp only [hname, hvalue, hh.iterNext hdone, lift_pure_bind, htail]

theorem cborPackElems_eq {vals : List (Value N × Val)}
    (hall : ∀ p ∈ vals, cborPackVal m h p.1 = Cbor.cborPackVal m p.2) :
    cborPackElems m h (vals.map Prod.fst) = Cbor.packElems m (vals.map Prod.snd) := by
  induction vals with
  | nil => rw [List.map_nil, List.map_nil, cborPackElems, Cbor.packElems]
  | cons p vals ih =>
    obtain ⟨hp, hvals⟩ := List.forall_mem_cons.mp hall
    rw [List.map_cons, List.map_cons, cborPackElems, Cbor.packElems, hp, ih hvals]

theorem cborPackVal_eq (hr : Related h σ shape) {v : Value N} {w : Val} (hd : Denotes σ v w) :
    cborPackVal m h v = Cbor.cborPackVal m w := by
  induction hd with
  | null => rw [cborPackVal, Cbor.cborPackVal]
  | int i => rw [cborPackVal, Cbor.cborPackVal]
  | str s => rw [cborPackVal, Cbor.cborPackVal]
  | sym s => rw [cborPackVal, Cbor.cborPackVal]
  | bool b => rw [cborPackVal, Cbor.cborPackVal]
  | nil => rw [cborPackVal, Cbor.cborPackVal]
  | cons => rw [cborPackVal, Cbor.cborPackVal]
  | char c => rw [cborPackVal, Cbor.cborPackVal]
  | blob bytes => rw [cborPackVal, Cbor.cborPackVal]
  | @array vals _ ih =>
    rw [cborPackVal, Cbor.cborPackVal, cborPackElems_eq m ih, List.length_map, List.length_map]
  | @nvl nvl map pairs hn hsorted hnone _ ih =>
    have hh := hr.holds nvl map hn
    have hall := hh.forall₂ hsorted hnone ih
    have hsize : (shape nvl).size = pairs.length := by
      rw [← hall.length_eq, BTree.length_toList]
    rw [cborPackVal, Cbor.cborPackVal]
    simp only [hh.values_eq, hh.iterStart, lift_pure_bind, hsize, cborPackPairs_eq m hh hall [] rfl]

end Cbor

section Json

variable (m : Machine)

theorem jsonPackPairs_eq (hh : Holds h nvl s map) {todo : List A} {pairs : List (CStr × Val)}
    (hall : List.Forall₂ (fun p q => h.name p = q.1 ∧
      jsonPackVal m h (h.value p) = Json.jsonPackVal m q.2) todo pairs) :
    ∀ first done, s.toList = done ++ todo →
      jsonPackPairs m h nvl first todo.head? = Json.packPairs m first pairs := by
  induction hall with
  | nil =>
    intro first done _
    rw [List.head?_nil, jsonPackPairs, Json.packPairs]
  | @cons p q todo pairs hpq _ ih =>
    intro first done hdone
    obtain ⟨name, value⟩ := q
    obtain ⟨hname, hvalue⟩ := hpq
    have htail := ih false (done ++ [p]) (by rw [hdone, List.append_assoc, List.singleton_append])
    rw [List.head?_cons, jsonPackPairs, Json.packPairs]
    simp only [hname, hvalue, hh.iterNext hdone, lift_pure_bind, htail]

theorem jsonPackElems_eq {vals : List (Value N × Val)}
    (hall : ∀ p ∈ vals, jsonPackVal m h p.1 = Json.jsonPackVal m p.2) (i : Nat) :
    jsonPackElems m h i (vals.map Prod.fst) = Json.packElems m i (vals.map Prod.snd) := by
  induction vals generalizing i with
  | nil => rw [List.map_nil, List.map_nil, jsonPackElems, Json.packElems]
  | cons p vals ih =>
    obtain ⟨hp, hvals⟩ := List.forall_mem_cons.mp hall
    rw [List.map_cons, List.map_cons, jsonPackElems, Json.packElems, hp, ih hvals]

theorem jsonPackVal_eq (hr : Related h σ shape) {v : Value N} {w : Val} (hd : Denotes σ v w) :
    jsonPackVal m h v = Json.jsonPackVal m w := by
  induction hd with
  | null => rw [jsonPackVal, Json.jsonPackVal]
  | int i => rw [jsonPackVal, Json.jsonPackVal]
  | str s => rw [jsonPackVal, Json.jsonPackVal]
  | sym s => rw [jsonPackVal, Json.jsonPackVal]
  | bool b => rw [jsonPackVal, Json.jsonPackVal]
  | nil => rw [jsonPackVal, Json.jsonPackVal]
  | cons => rw [jsonPackVal, Json.jsonPackVal]
  | char c => rw [jsonPackVal, Json.jsonPackVal]
  | blob bytes => rw [jsonPackVal, Json.jsonPackVal]
  | @array vals _ ih => rw [jsonPackVal, Json.jsonPackVal, jsonPackElems_eq m ih]
  | @nvl nvl map pairs hn hsorted hnone _ ih =>
    have hh := hr.holds nvl map hn
    have hall := hh.forall₂ hsorted hnone ih
    rw [jsonPackVal, Json.jsonPackVal]
    simp only [hh.iterStart, lift_pure_bind, jsonPackPairs_eq m hh hall true [] rfl]

end Json

/-- `val_pack` in the heap is `val_pack` of the tree that is denoted. -/
theorem valPack_eq (m : Machine) (hr : Related h σ shape) {v : Value N} {w : Val} (hd : Denotes σ v w)
    (format : ValFormat) : valPack m h v format = Libjeffpc.valPack m w format := by
  cases format with
  | cbor => rw [valPack, cborPackVal_eq m hr hd, Libjeffpc.valPack, doValPack]
  | json => rw [valPack, jsonPackVal_eq m hr hd, Libjeffpc.valPack, doValPack]

/-- Two runs that lead to the same map, through whatever calls and trees, lead to the same bytes in
both formats. -/
theorem pack_independent_of_history {N₁ A₁ M₁ N₂ A₂ M₂ : Type} [DecidableEq N₁] [DecidableEq A₁]
    [TreeMem A₁ M₁] [LawfulTreeMem A₁ M₁] [DecidableEq N₂] [DecidableEq A₂] [TreeMem A₂ M₂]
    [LawfulTreeMem A₂ M₂] (alloc₁ : Allocator A₁) (alloc₂ : Allocator A₂) (m₁ : M₁) (m₂ : M₂)
    (cs₁ : List (NvCall N₁)) (cs₂ : List (NvCall N₂)) (hc₁ : LegalCalls (fun _ => none) cs₁)
    (hc₂ : LegalCalls (fun _ => none) cs₂) (l₁ : N₁) (l₂ : N₂) (w : Val)
    (hw₁ : Denotes (specRun (fun _ => none) cs₁).2 (.nvl l₁) w)
    (hw₂ : Denotes (specRun (fun _ => none) cs₂).2 (.nvl l₂) w) :
    ∃ (h₁ : Heap N₁ A₁ M₁) (h₂ : Heap N₂ A₂ M₂),
      execRun alloc₁ (Heap.empty N₁ m₁) cs₁ = pure ((specRun (fun _ => none) cs₁).1, h₁) ∧
      execRun alloc₂ (Heap.empty N₂ m₂) cs₂ = pure ((specRun (fun _ => none) cs₂).1, h₂) ∧
      ∀ m format, valPack m h₁ (.nvl l₁) format = valPack m h₂ (.nvl l₂) format ∧
        valPack m h₁ (.nvl l₁) format = Libjeffpc.valPack m w format := by
  obtain ⟨h₁, shape₁, hrun₁, hr₁⟩ := execRun_spec alloc₁ (related_empty (A := A₁) m₁) hc₁
  obtain ⟨h₂, shape₂, hrun₂, hr₂⟩ := execRun_spec alloc₂ (related_empty (A := A₂) m₂) hc₂
  refine ⟨h₁, h₂, hrun₁, hrun₂, fun m format => ?_⟩
  rw [valPack_eq m hr₁ hw₁, valPack_eq m hr₂ hw₂]
  exact ⟨rfl, rfl⟩

/-! Two names that are set in either order, and one of them first to something else. -/

theorem nameA_noNul : 0 ∉ [(97 : UInt8)] := by decide

theorem nameB_noNul : 0 ∉ [(98 : UInt8)] := by decide

def nameA : CStr := ⟨[97], nameA_noNul⟩

def nameB : CStr := ⟨[98], nameB_noNul⟩

def callsA : List (NvCall Bool) :=
  [.alloc false, .set false nameA (.int 1), .set false nameB .null]

def callsB : List (NvCall Bool) :=
  [.alloc false, .set false nameB (.bool true), .set false nameB .null, .set false nameA (.int 1)]

def packedPairs : List (CStr × Val) := [(nameA, .int 1), (nameB, .null)]

theorem packedPairs_denoted {σ : NvState Bool} {map : NvMap Bool} (hn : σ false = some map)
    (ha : map nameA = some (.int 1)) (hb : map nameB = some .null)
    (hother : ∀ name, name ≠ nameA → name ≠ nameB → map name = none) :
    Denotes σ (.nvl false) (.nvl packedPairs) := by
  have hsorted : NvSorted packedPairs := by
    simp only [NvSorted, Assoc.Sorted, packedPairs, List.pairwise_cons, List.mem_singleton, forall_eq,
      List.not_mem_nil, false_imp_iff, implies_true, List.Pairwise.nil, and_true]
    decide
  have hlookup : ∀ name, packedPairs.lookup name =
      if name = nameA then some (.int 1) else if name = nameB then some .null else none := by
    intro name
    simp only [packedPairs, List.lookup_cons, List.lookup_nil]
    by_cases hna : name = nameA
    · simp [hna]
    · rw [beq_false_of_ne hna, if_neg hna]
      by_cases hnb : name = nameB
      · simp [hnb]
      · rw [beq_false_of_ne hnb, if_neg hnb]
  refine .nvl hn hsorted (fun name => ?_) fun name v w hv hw => ?_
  · rw [hlookup]
    by_cases hna : name = nameA
    · simp [hna, ha]
    · rw [if_neg hna]
      by_cases hnb : name = nameB
      · simp [hnb, hb]
      · simp [hnb, hother name hna hnb]
  · rw [hlookup] at hw
    split_ifs at hw with hna hnb
    · cases hw
      cases (hna ▸ ha).symm.trans hv
      exact .int 1
    · cases hw
      cases (hnb ▸ hb).symm.trans hv
      exact .null

theorem pack_independent_of_history_names : ∃ h₁ h₂ : Heap Bool Nat (PlainMem Nat),
    execRun natAllocator (Heap.empty Bool (freshMem Nat)) callsA = pure ([.ok (), .ok (), .ok ()], h₁) ∧
    execRun natAllocator (Heap.empty Bool (freshMem Nat)) callsB =
      pure ([.ok (), .ok (), .ok (), .ok ()], h₂) ∧
    ∀ m format, valPack m h₁ (.nvl false) format = valPack m h₂ (.nvl false) format := by
  have hcA : LegalCalls (N := Bool) (fun _ => none) callsA := by
    refine ⟨rfl, ?_, ?_, trivial⟩ <;> exact Option.some_ne_none _
  have hcB : LegalCalls (N := Bool) (fun _ => none) callsB := by
    refine ⟨rfl, ?_, ?_, ?_, trivial⟩ <;> exact Option.some_ne_none _
  have hA : Denotes (specRun (fun _ => none) callsA).2 (.nvl false) (.nvl packedPairs) := by
    refine packedPairs_denoted rfl rfl rfl fun name hna hnb => ?_
    exact (Function.update_of_ne hnb _ _).trans (Function.update_of_ne hna _ _)
  have hB : Denotes (specRun (fun _ => none) callsB).2 (.nvl false) (.nvl packedPairs) := by
    refine packedPairs_denoted rfl rfl rfl fun name hna hnb => ?_
    exact (Function.update_of_ne hna _ _).trans ((Function.update_of_ne hnb _ _).trans
      (Function.update_of_ne hnb _ _))
  obtain ⟨h₁, h₂, hrun₁, hrun₂, hpack⟩ := pack_independent_of_history natAllocator natAllocator
    (freshMem Nat) (freshMem Nat) callsA callsB hcA hcB false false _ hA hB
  exact ⟨h₁, h₂, hrun₁, hrun₂, fun m format => (hpack m format).1⟩

end Libjeffpc.Nvl
