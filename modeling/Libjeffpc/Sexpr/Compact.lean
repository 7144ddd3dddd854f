import Libjeffpc.Errno
import Libjeffpc.Sexpr.Eval
import Libjeffpc.Sexpr.Structure

/-!
# Compaction of lists (`sexpr_compact.c`)

As in the evaluator, the state is the number of objects that exist, and allocation succeeds. Two
pointers are compared by their addresses. An nvlist is built pair by pair, in the order in which its
tree is walked.
-/

namespace Libjeffpc.Sexpr

open Lib

section Lists

variable {A : Type}

/-- A name-value cons: the head is a string or a symbol. -/
def isPair : Ref A → Bool
  | .cons a head tail =>
    !sexprIsNull (.cons a head tail) && !sexprIsNull head &&
      (head.type = some .str || head.type = some .sym)
  | _ => false

/-- The loop of `what_is_it`. -/
def whatLoop : Ref A → Bool → ValType
  | .null, nvl => if nvl then .nvl else .array
  | .cons a head tail, nvl =>
    if sexprIsNull (.cons a head tail) then if nvl then .nvl else .array
    else whatLoop tail (nvl && isPair head)
  | _, _ => .cons

def whatIsIt (v : Ref A) : ValType := if sexprIsNull v then .null else whatLoop v true

/-- `sexpr_list_to_array`, with the elements that it stores. -/
def sexprListToArray : Ref A → Nat → Except Errno (List (Ref A))
  | .null, _ => .ok []
  | .cons a head tail, alen =>
    if sexprIsNull (.cons a head tail) then .ok []
    else
      match alen with
      | 0 => .error .ENOMEM
      | alen + 1 => do return head :: (← sexprListToArray tail alen)
  | _, 0 => .error .ENOMEM
  | _, _ + 1 => .error .EINVAL

/-- The values that `sexpr_for_each` goes through; it also stops at a NULL element. -/
def sexprForEach : Ref A → List (Ref A)
  | .cons _ head tail => if head.isNone then [] else head :: sexprForEach tail
  | _ => []

/-- `sexpr_assoc`. -/
def sexprAssoc (name : CStr) : Ref A → Ref A
  | .cons _ head tail =>
    match head with
    | .cons _ (.str _ s) _ => if strcmp s name = 0 then head else sexprAssoc name tail
    | .cons _ (.sym _ s) _ => if strcmp s name = 0 then head else sexprAssoc name tail
    | _ => sexprAssoc name tail
  | _ => .null

def sexprAlistLookupVal (lv : Ref A) (name : CStr) : Ref A := sexprCdr (sexprAssoc name lv)

/-- `nvl_lookup`, with the value of the pair. -/
def nvlLookup (pairs : List (CStr × Ref A)) (name : CStr) : Except Errno (Ref A) :=
  match pairs.lookup name with
  | some v => .ok v
  | none => .error .ENOENT

/-- `nvl_set_pair`. -/
def nvlSetPair (pairs : List (CStr × Ref A)) (name : CStr) (v : Ref A) : List (CStr × Ref A) :=
  Assoc.set strcmp pairs name v

end Lists

/-- The address of a new object. -/
def newObj : EvalM Addr := modifyGet fun n => (.obj n, n + 1)

def valAllocArrayDup (vals : List (Ref Addr)) : EvalM (Ref Addr) := do return .array (← newObj) vals

/-- The name of a pair: a VT_STR object, or the copy of another one. -/
def pairName : Ref Addr → EvalM CStr
  | .null => throw .null
  | .str _ s => pure s
  | name => do
    let s ← valCstr name
    -- `str_dup`
    let _ ← newObj
    pure s

mutual

def sexprCompact (v : Ref Addr) : EvalM (Ref Addr) :=
  match v with
  | .null => throw .null
  | .array a vals => (by apply sexprCompactArray : Ref Addr → EvalM _) (.array a vals)
  | .nvl a pairs => (by apply sexprCompactNvl : Ref Addr → EvalM _) (.nvl a pairs)
  | .cons a head tail => (by apply sexprCompactCons : Ref Addr → EvalM _) (.cons a head tail)
  | v => pure v
partial_fixpoint

/-- The loop over the elements of an array or a list. -/
def compactElems : List (Ref Addr) → EvalM (List (Ref Addr))
  | [] => pure []
  | v :: vals => do
    let w ← (by apply sexprCompact : _ → EvalM (Ref Addr)) v
    let ws ← (by apply compactElems : _ → EvalM (List (Ref Addr))) vals
    pure (w :: ws)
partial_fixpoint

def sexprCompactArray : Ref Addr → EvalM (Ref Addr)
  | .array a vals => do
    let ws ← (by apply compactElems : _ → EvalM (List (Ref Addr))) vals
    if ws.map Ref.addr = vals.map Ref.addr then pure (.array a vals) else valAllocArrayDup ws
  | _ => throw .assert
partial_fixpoint

/-- The loop over the pairs of an nvlist, with the new nvlist and the flag `equal`. -/
def compactPairs : List (CStr × Ref Addr) → List (CStr × Ref Addr) → Bool →
    EvalM (List (CStr × Ref Addr) × Bool)
  | [], dst, equal => pure (dst, equal)
  | (name, v) :: pairs, dst, equal => do
    let w ← (by apply sexprCompact : _ → EvalM (Ref Addr)) v
    (by apply compactPairs : _ → _ → _ → EvalM _) pairs (nvlSetPair dst name w) (equal && (w.addr = v.addr))
partial_fixpoint

def sexprCompactNvl : Ref Addr → EvalM (Ref Addr)
  | .nvl a pairs => do
    let dst ← newObj
    let (qs, equal) ←
      (by apply compactPairs : _ → List (CStr × Ref Addr) → _ → EvalM (List (CStr × Ref Addr) × Bool)) pairs [] true
    pure (if equal then .nvl a pairs else .nvl dst qs)
  | _ => throw .assert
partial_fixpoint

def sexprCompactConsArray (v : Ref Addr) : EvalM (Ref Addr) := do
  let len := sexprLength v
  assert (0 ≤ len)
  match sexprListToArray v len.toNat with
  | .error _ => throw .assert
  | .ok arr =>
    -- `ret` is an int
    assert ((Int32.ofNat arr.length).toInt = len)
    valAllocArrayDup (← (by apply compactElems : _ → EvalM _) arr)
partial_fixpoint

/-- The loop over the pairs of an alist. -/
def compactEntries : List (Ref Addr) → List (CStr × Ref Addr) → EvalM (List (CStr × Ref Addr))
  | [], out => pure out
  | .cons _ name value :: items, out => do
    let s ← pairName name
    let w ← (by apply sexprCompact : _ → EvalM (Ref Addr)) value
    (by apply compactEntries : _ → _ → EvalM _) items (nvlSetPair out s w)
  -- the members of another object are read as those of a cons cell
  | _, _ => throw .bounds
partial_fixpoint

def sexprCompactConsNvl (v : Ref Addr) : EvalM (Ref Addr) := do
  let out ← newObj
  let qs ← (by apply compactEntries : _ → List (CStr × Ref Addr) → EvalM (List (CStr × Ref Addr))) (sexprForEach v) []
  pure (.nvl out qs)
partial_fixpoint

def sexprCompactCons (v : Ref Addr) : EvalM (Ref Addr) :=
  if v.type ≠ some .cons then throw .assert
  else
    match whatIsIt v with
    | .cons => pure v
    | .null => pure v
    | .array => (by apply sexprCompactConsArray : _ → EvalM _) v
    | .nvl => (by apply sexprCompactConsNvl : _ → EvalM _) v
    | _ => throw .assert
partial_fixpoint

end

end Libjeffpc.Sexpr
