import Libjeffpc.Sexpr.Shape
import Libjeffpc.Val.Heap

/-!
# Compaction of lists on the heap (`sexpr_compact.c`, `sexpr.c`)

The functions of `Compact` once more, with every reference that they take and release, and with every
request for memory that may be refused.
-/

namespace Libjeffpc.Heap

open Lib

def sexprIsNull (v : Pointer) : HeapM Bool := do
  if v = .null then pure true
  else
    match ← load v with
    | .cons head tail => pure (head = .null && tail = .null)
    | _ => pure false

/-- It consumes the reference that it is given. -/
def sexprCdr (lv : Pointer) : HeapM Pointer := do
  if lv = .null then pure .null
  else do
    let ret ← match ← load lv with
      | .cons _ tail => valGetref tail
      | _ => pure .null
    valPutref lv
    pure ret

/-- The loop of `sexpr_length`, with the length so far. -/
def lengthLoop (lv : Pointer) (len : Int) : HeapM Int := do
  if ← sexprIsNull lv then do
    valPutref lv
    pure len
  else
    match ← load lv with
    | .cons _ _ => (by apply lengthLoop : _ → _ → HeapM _) (← sexprCdr lv) (len + 1)
    | _ => do
      -- not a list
      valPutref lv
      pure (-1)
partial_fixpoint

def sexprLength (lv : Pointer) : HeapM Int := lengthLoop lv 0

/-- The loop of `sexpr_list_to_array`: the elements that are stored, and the code of an error. -/
def listToArrayLoop (tmp : Pointer) (alen : Nat) : HeapM (List Pointer × Option Errno) := do
  if ← sexprIsNull tmp then pure ([], none)
  else
    match alen with
    | 0 => pure ([], some .ENOMEM)
    | alen + 1 =>
      match ← load tmp with
      | .cons head tail => do
        let v ← valGetref head
        let (array, ret) ← (by apply listToArrayLoop : _ → _ → HeapM (List Pointer × Option Errno)) tail alen
        pure (v :: array, ret)
      | _ => pure ([], some .EINVAL)
partial_fixpoint

def sexprListToArray (list : Pointer) (alen : Nat) : HeapM (Except Errno (List Pointer)) := do
  let (array, ret) ← listToArrayLoop list alen
  match ret with
  | none => pure (.ok array)
  | some e => do
    putAll array.reverse
    pure (.error e)

/-- The value of `int ret`. -/
def intOfLength (n : Nat) : Int := (Int32.ofNat n).toInt

def sexprListToValArray (list : Pointer) : HeapM Pointer := do
  let len ← sexprLength (← valGetref list)
  if len < 0 then do
    valPutref list
    pure (.err .EINVAL)
  else if ← request then
    match ← sexprListToArray list len.toNat with
    | .ok arr => if intOfLength arr.length = len then valAllocArray arr else pure (.err .EINVAL)
    | .error _ => pure (.err .EINVAL)
  else do
    valPutref list
    pure (.err .ENOMEM)

/-- Is the item a cons cell with a string or a symbol as its name? -/
def isPair (item : Pointer) : HeapM Bool := do
  if ← sexprIsNull item then pure false
  else
    match ← load item with
    | .cons head _ => do
      if ← sexprIsNull head then pure false
      else
        match ← load head with
        | .str _ => pure true
        | .sym _ => pure true
        | _ => pure false
    | _ => pure false

/-- The loop of `what_is_it`. -/
def whatLoop (cur : Pointer) (nvl : Bool) : HeapM ValType := do
  if ← sexprIsNull cur then pure (if nvl then .nvl else .array)
  else
    match ← load cur with
    | .cons head tail =>
      if nvl then (by apply whatLoop : _ → _ → HeapM _) tail (← isPair head)
      else (by apply whatLoop : _ → _ → HeapM _) tail false
    | _ => pure .cons
partial_fixpoint

def whatIsIt (v : Pointer) : HeapM ValType := do
  if ← sexprIsNull v then pure .null else whatLoop v true

/-- The name of a pair: a new reference to a VT_STR object, or a copy. -/
def pairName (name : Pointer) : HeapM Pointer := do
  match ← load name with
  | .str _ => valGetref name
  | .sym s => strDup s
  | _ => throw .assert

def strCstr (str : Pointer) : HeapM CStr := do
  match ← load str with
  | .str s => pure s
  | _ => throw .assert

mutual

def sexprCompact (v : Pointer) : HeapM Pointer := do
  match ← load v with
  | .array _ => (by apply sexprCompactArray : _ → HeapM _) v
  | .nvl _ => (by apply sexprCompactNvl : _ → HeapM _) v
  | .cons _ _ => (by apply sexprCompactCons : _ → HeapM _) v
  | _ => pure v
partial_fixpoint

/-- The loop over the elements of an array. It does not look for errors. -/
def compactElems (vals : List Pointer) : HeapM (List Pointer) := do
  match vals with
  | [] => pure []
  | v :: vals => do
    let w ← (by apply sexprCompact : _ → HeapM Pointer) (← valGetref v)
    let ws ← (by apply compactElems : _ → HeapM (List Pointer)) vals
    pure (w :: ws)
partial_fixpoint

def sexprCompactArray (v : Pointer) : HeapM Pointer := do
  match ← load v with
  | .array vals => do
    let ws ← (by apply compactElems : _ → HeapM (List Pointer)) vals
    -- the pointers are compared
    if ws = vals then do
      putAll ws
      pure v
    else do
      valPutref v
      valAllocArrayDup ws
  | _ => throw .assert
partial_fixpoint

/-- The loop over the pairs of an nvlist, with the flag `equal`. -/
def compactPairs (pairs : List (CStr × Pointer × Pointer)) (dst : Pointer) (equal : Bool) :
    HeapM (Except Errno Bool) := do
  match pairs with
  | [] => pure (.ok equal)
  | (cname, name, value) :: pairs => do
    let w ← (by apply sexprCompact : _ → HeapM Pointer) (← valGetref value)
    match w with
    | .err e => pure (.error e)
    | w => do
      let ret ← nvlSetPair dst cname name w
      valPutref w
      match ret with
      | some e => pure (.error e)
      | none => (by apply compactPairs : _ → _ → _ → HeapM _) pairs dst (equal && w = value)
partial_fixpoint

def sexprCompactNvl (v : Pointer) : HeapM Pointer := do
  let pairs ← nvlPairs v
  let dst ← nvlAlloc
  if dst.isErr then do
    valPutref v
    pure dst
  else
    match ← (by apply compactPairs : _ → _ → _ → HeapM (Except Errno Bool)) pairs dst true with
    | .error e => do
      valPutref dst
      valPutref v
      pure (.err e)
    | .ok equal =>
      if equal then do
        valPutref dst
        pure v
      else do
        valPutref v
        pure dst
partial_fixpoint

/-- The loop over the elements of a list: what the array is after it, and the code of an error. -/
def compactArr (arr : List Pointer) : HeapM (List Pointer × Option Errno) := do
  match arr with
  | [] => pure ([], none)
  | v :: arr => do
    let w ← (by apply sexprCompact : _ → HeapM Pointer) v
    match w with
    | .err e => pure (.err e :: arr, some e)
    | w => do
      let (ws, ret) ← (by apply compactArr : _ → HeapM (List Pointer × Option Errno)) arr
      pure (w :: ws, ret)
partial_fixpoint

/-- The list itself is not released. -/
def sexprCompactConsArray (v : Pointer) : HeapM Pointer := do
  let len ← sexprLength (← valGetref v)
  assert (0 ≤ len)
  match ← sexprListToArray v len.toNat with
  | .error _ => throw .assert
  | .ok arr => do
    assert (intOfLength arr.length = len)
    let (ws, ret) ← (by apply compactArr : _ → HeapM (List Pointer × Option Errno)) arr
    match ret with
    | none => valAllocArrayDup ws
    | some e => do
      putAll (ws.filter (!·.isErr))
      pure (.err e)
partial_fixpoint

/-- The loop over the pairs of an alist; it also stops at a NULL element. -/
def compactEntries (cur : Pointer) (out : Pointer) : HeapM (Option Errno) := do
  if ← sexprIsNull cur then pure none
  else
    match ← load cur with
    | .cons item tail =>
      if item = .null then pure none
      else
        match ← load item with
        | .cons name value => do
          let name ← pairName name
          let w ← (by apply sexprCompact : _ → HeapM Pointer) (← valGetref value)
          match w with
          | .err e => do
            valPutref name
            pure (some e)
          | w => do
            let cname ← strCstr name
            let ret ← nvlSetPair out cname name w
            valPutref name
            valPutref w
            match ret with
            | some e => pure (some e)
            | none => (by apply compactEntries : _ → _ → HeapM _) tail out
        -- the members of another object are read as those of a cons cell
        | _ => throw .bounds
    | _ => pure none
partial_fixpoint

def sexprCompactConsNvl (v : Pointer) : HeapM Pointer := do
  let out ← nvlAlloc
  if out.isErr then do
    valPutref v
    pure out
  else
    match ← (by apply compactEntries : _ → _ → HeapM (Option Errno)) v out with
    | none => do
      valPutref v
      pure out
    | some e => do
      valPutref v
      valPutref out
      pure (.err e)
partial_fixpoint

def sexprCompactCons (v : Pointer) : HeapM Pointer := do
  match ← load v with
  | .cons _ _ =>
    match ← whatIsIt v with
    | .cons => pure v
    | .null => pure v
    | .array => (by apply sexprCompactConsArray : _ → HeapM _) v
    | .nvl => (by apply sexprCompactConsNvl : _ → HeapM _) v
    | _ => throw .assert
  | _ => throw .assert
partial_fixpoint

end

end Libjeffpc.Heap
