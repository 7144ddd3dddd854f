import Libjeffpc.Lib.Buf
import Libjeffpc.Val.Heap

/-!
# Concatenation of strings (`str.c`)

The arguments are values on the heap, and each of them is a reference that is given away. The buffer for
the bytes is filled in place; `junk` is what it holds at first. Lengths are computed with 64 bits.
-/

namespace Libjeffpc.Heap

open Lib

/-- `val_cstr`, of an object. -/
def valCstr (val : Pointer) : HeapM CStr := do
  match ← load val with
  | .str s => pure s
  | .sym s => pure s
  | _ => throw .assert

/-- `get_len`. -/
def getLen (val : Pointer) : HeapM Nat := do return (← valCstr val).1.length

/-- `str_alloc` of the bytes of a buffer. -/
def strAlloc (buf : Bytes) : HeapM Pointer :=
  if getPreallocated (cstr buf) then pure (.static (.str (cstr buf))) else valAlloc (.str (cstr buf))

/-- `strcpy(buf + out, s)`. -/
def strcpy (buf : Bytes) (out : Nat) (s : CStr) : Comp Bytes :=
  if out + (s.1.length + 1) ≤ buf.length then
    pure (buf.take out ++ (s.1 ++ 0 :: buf.drop (out + (s.1.length + 1))))
  else throw .bounds

/-- The first loop of `str_cat`: the lengths, and their sum. -/
def catLengths (vals : List Pointer) (totallen : Nat) : HeapM (List Nat × Nat) := do
  match vals with
  | [] => pure ([], totallen)
  | val :: vals =>
    if val = .null then do
      let (len, totallen) ← catLengths vals totallen
      pure (0 :: len, totallen)
    else do
      let n ← getLen val
      let (len, totallen) ← catLengths vals ((totallen + n) % 2 ^ 64)
      pure (n :: len, totallen)

/-- The second loop of `str_cat`: the values with their lengths, and what the buffer is after it. -/
def catCopy (vals : List (Pointer × Nat)) (out : Nat) (buf : Bytes) : HeapM Bytes := do
  match vals with
  | [] => pure buf
  | (val, len) :: vals =>
    if val = .null then catCopy vals out buf
    else do
      let buf ← strcpy buf out (← valCstr val)
      valPutref val
      catCopy vals (out + len) buf

variable (junk : Nat → UInt8)

/-- `str_cat`, for two arguments and more. STR_ALLOC checks that there is memory. -/
def strCatMany (vals : List Pointer) : HeapM Pointer := do
  let (len, totallen) ← catLengths vals 0
  let granted ← request
  assert granted
  let buf ← store ((List.range ((totallen + 1) % 2 ^ 64)).map junk) 0 0
  let buf ← catCopy (vals.zip len) 0 buf
  let ret ← strAlloc buf
  assert (!ret.isErr)
  pure ret

/-- `str_cat`. -/
def strCat (vals : List Pointer) : HeapM Pointer := do
  match vals with
  | [] => pure (.static (.str CStr.empty))
  | [val] =>
    -- val->type
    match ← load val with
    | .str _ => pure val
    | _ => do
      let ret ← strDup (← valCstr val)
      assert (!ret.isErr)
      valPutref val
      pure ret
  | vals => strCatMany junk vals

/-! ## What it is for -/

/-- An argument and its bytes: NULL, a string or a symbol. -/
inductive ArgText (h : RcHeap Obj) : Pointer → Bytes → Prop
  | null : ArgText h .null []
  | str {p : Pointer} {s : CStr} (hp : Holds h p (.str s)) : ArgText h p s.1
  | sym {p : Pointer} {s : CStr} (hp : Holds h p (.sym s)) : ArgText h p s.1

/-- How many requests for memory `str_alloc` makes. -/
def strAllocRequests (s : CStr) : Nat := if getPreallocated s then 0 else 1

/-- How many `str_cat` makes for arguments with these bytes. One argument is copied, unless it is a string. -/
def strCatRequests : List Bytes → Nat
  | [] => 0
  | [t] => strDupRequests (cstr t)
  | texts => strAllocRequests (cstr texts.flatten) + 1

/-- The result is a string with the bytes of all arguments in their order, and their references are gone.
Only a request for memory that is refused to it, which an assertion notices, ends the function early. -/
def Concatenates (h : RcHeap Obj) (owned vals : List Pointer) (texts : List Bytes) : Prop :=
  ∀ junk grants,
    (∃ r s t, strCat junk vals ⟨h, grants⟩ = pure (r, s) ∧ Holds s.heap r (.str t) ∧ t.1 = texts.flatten ∧
      RcHeap.Balanced s.heap (r :: owned)) ∨
    (strCat junk vals ⟨h, grants⟩ = throw .assert ∧ ∃ k < strCatRequests texts, grants k = false)

end Libjeffpc.Heap
