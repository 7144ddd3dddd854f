import Libjeffpc.Nvl.NvMap
import Libjeffpc.Val.Pack

/-!
# Packing nvlists in the heap

The packing functions as they meet an nvlist: the pairs are found by walking its tree, and the values
of pairs may be nvlists again. An nvlist that contains itself is packed forever.
-/

namespace Libjeffpc.Nvl

open Lib Libjeffpc.Tree

variable {N A M : Type} [DecidableEq N] [DecidableEq A] [TreeMem A M] (m : Machine) (h : Heap N A M)

mutual

/-- `cbor_pack_val`. -/
def cborPackVal (val : Value N) : BufM Unit :=
  match val with
  | .null => Cbor.cborPackNull m
  | .int i => Cbor.cborPackUint m i
  | .str s => Cbor.cborPackStr m s
  | .sym _ => throw .ENOTSUP
  | .bool b => Cbor.cborPackBool m b
  | .nil => throw .ENOTSUP
  | .cons _ _ => throw .ENOTSUP
  | .char _ => throw .ENOTSUP
  | .blob bytes => Cbor.cborPackBlob m bytes
  | .array vals => do
    let nelem := .ofNat vals.length
    Cbor.cborPackArrayStart m nelem
    (by apply cborPackElems : _ → BufM _) vals
    Cbor.cborPackArrayEnd m nelem
  | .nvl nvl => do
    -- cbor_pack_map_val
    let tree ← values h nvl
    let npairs := .ofNat tree.numNodes
    Cbor.cborPackMapStart m npairs
    (by apply cborPackPairs : _ → _ → BufM _) nvl (← nvlIterStart h nvl)
    Cbor.cborPackMapEnd m npairs
partial_fixpoint

/-- The loop of `cbor_pack_array_vals`. -/
def cborPackElems (vals : List (Value N)) : BufM Unit :=
  match vals with
  | [] => pure ()
  | v :: vals => do
    (by apply cborPackVal : _ → BufM _) v
    (by apply cborPackElems : _ → BufM _) vals
partial_fixpoint

/-- The `rb_for_each` of `cbor_pack_map_val`. -/
def cborPackPairs (nvl : N) (cur : Option A) : BufM Unit :=
  match cur with
  | none => pure ()
  | some pair => do
    Cbor.cborPackStr m (h.name pair)
    (by apply cborPackVal : _ → BufM _) (h.value pair)
    (by apply cborPackPairs : _ → _ → BufM _) nvl (← nvlIterNext h nvl pair)
partial_fixpoint

end

mutual

/-- `json_pack_val`. -/
def jsonPackVal (val : Value N) : BufM Unit :=
  match val with
  | .null => Json.jsonPackNull m
  | .int i => Json.jsonPackUint m i
  | .str s => Json.jsonPackStr m s
  | .sym _ => throw .ENOTSUP
  | .bool b => Json.jsonPackBool m b
  | .nil => throw .ENOTSUP
  | .cons _ _ => throw .ENOTSUP
  | .char _ => throw .ENOTSUP
  | .blob _ => throw .ENOTSUP
  | .array vals => do
    Json.jsonPackArrayStart m
    (by apply jsonPackElems : _ → _ → BufM _) 0 vals
    Json.jsonPackArrayEnd m
  | .nvl nvl => do
    -- json_pack_map_val
    Json.jsonPackMapStart m
    (by apply jsonPackPairs : _ → _ → _ → BufM _) nvl true (← nvlIterStart h nvl)
    Json.jsonPackMapEnd m
partial_fixpoint

/-- The loop of `json_pack_array_vals`. -/
def jsonPackElems (i : Nat) (vals : List (Value N)) : BufM Unit :=
  match vals with
  | [] => pure ()
  | v :: vals => do
    if i ≠ 0 then Json.jsonPackArrayElemSep m
    (by apply jsonPackVal : _ → BufM _) v
    (by apply jsonPackElems : _ → _ → BufM _) (i + 1) vals
partial_fixpoint

/-- The `rb_for_each` of `json_pack_map_val`. -/
def jsonPackPairs (nvl : N) (first : Bool) (cur : Option A) : BufM Unit :=
  match cur with
  | none => pure ()
  | some pair => do
    if !first then Json.jsonPackMapPairSep m
    Json.jsonPackStr m (h.name pair)
    Json.jsonPackMapNameSep m
    (by apply jsonPackVal : _ → BufM _) (h.value pair)
    (by apply jsonPackPairs : _ → _ → _ → BufM _) nvl false (← nvlIterNext h nvl pair)
partial_fixpoint

end

/-- `val_pack` of a value in the heap. -/
def valPack (val : Value N) : ValFormat → Comp (Except Errno Buffer)
  | .cbor => valPackWith m (cborPackVal m h val)
  | .json => valPackWith m (jsonPackVal m h val)

/-! ## What a value in the heap means -/

/-- `Denotes σ v w`: with all nvlists replaced by the maps they are, `v` is the finite tree `w`. -/
inductive Denotes (σ : NvState N) : Value N → Val → Prop
  | null : Denotes σ .null .null
  | int (i : UInt64) : Denotes σ (.int i) (.int i)
  | str (s : CStr) : Denotes σ (.str s) (.str s)
  | sym (s : CStr) : Denotes σ (.sym s) (.sym s)
  | bool (b : Bool) : Denotes σ (.bool b) (.bool b)
  | nil : Denotes σ .nil .nil
  | cons {head tail : Value N} {head' tail' : Val} (hh : Denotes σ head head')
      (ht : Denotes σ tail tail') : Denotes σ (.cons head tail) (.cons head' tail')
  | char (c : UInt64) : Denotes σ (.char c) (.char c)
  | blob (bytes : Bytes) : Denotes σ (.blob bytes) (.blob bytes)
  | array {vals : List (Value N × Val)} (h : ∀ p ∈ vals, Denotes σ p.1 p.2) :
      Denotes σ (.array (vals.map Prod.fst)) (.array (vals.map Prod.snd))
  | nvl {nvl : N} {map : NvMap N} {pairs : List (CStr × Val)} (hn : σ nvl = some map)
      (hsorted : NvSorted pairs) (hnone : ∀ name, map name = none ↔ pairs.lookup name = none)
      (hsome : ∀ name v w, map name = some v → pairs.lookup name = some w → Denotes σ v w) :
      Denotes σ (.nvl nvl) (.nvl pairs)

end Libjeffpc.Nvl
