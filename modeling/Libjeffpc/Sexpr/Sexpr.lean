import Libjeffpc.Lib.Comp
import Libjeffpc.Val.Val

/-!
# S-expressions (`sexpr.c`, `sexpr.h`)

A `Ref` is what a `struct val *` leads to: NULL, or an object with an address and all that can be
reached from it. The pointers in a value may be NULL too. Two pointers are equal if they have the same
address, and then they lead to the same object. The pairs of an nvlist stand in the order in which its
tree is walked. Reference counts are left out.
-/

namespace Libjeffpc.Sexpr

open Lib

inductive Ref (A : Type) where
  | null
  | vtNull (addr : A)
  | int (addr : A) (i : UInt64)
  | str (addr : A) (s : CStr)
  | sym (addr : A) (s : CStr)
  | bool (addr : A) (b : Bool)
  | cons (addr : A) (head tail : Ref A)
  | char (addr : A) (c : UInt64)
  | blob (addr : A) (bytes : Bytes)
  | array (addr : A) (vals : List (Ref A))
  | nvl (addr : A) (pairs : List (CStr × Ref A))

namespace Ref

variable {A : Type}

/-- The pointer itself. -/
def addr : Ref A → Option A
  | null => none
  | vtNull a => some a
  | int a _ => some a
  | str a _ => some a
  | sym a _ => some a
  | bool a _ => some a
  | cons a _ _ => some a
  | char a _ => some a
  | blob a _ => some a
  | array a _ => some a
  | nvl a _ => some a

/-- The type of an object. -/
def type : Ref A → Option ValType
  | null => none
  | vtNull _ => some .null
  | int _ _ => some .int
  | str _ _ => some .str
  | sym _ _ => some .sym
  | bool _ _ => some .bool
  | cons _ _ _ => some .cons
  | char _ _ => some .char
  | blob _ _ => some .blob
  | array _ _ => some .array
  | nvl _ _ => some .nvl

/-- A NULL pointer. -/
def isNone : Ref A → Bool
  | null => true
  | _ => false

/-- A VT_CONS object with neither a head nor a tail. -/
def isEmptyCons : Ref A → Bool
  | cons _ head tail => head.isNone && tail.isNone
  | _ => false

end Ref

variable {A : Type}

def sexprIsNull (v : Ref A) : Bool := v.isNone || v.isEmptyCons

def sexprCar : Ref A → Ref A
  | .cons _ head _ => head
  | _ => .null

def sexprCdr : Ref A → Ref A
  | .cons _ _ tail => tail
  | _ => .null

/-- `sexpr_length`; the loop follows the tails. -/
def sexprLength : Ref A → Int
  | .cons a head tail =>
    if sexprIsNull (.cons a head tail) then 0
    else
      -- a list that ends in something else has no length, however long it is
      if sexprLength tail < 0 then -1 else sexprLength tail + 1
  | .null => 0
  | _ => -1

def sexprNth : Ref A → Nat → Ref A
  | lv, 0 => lv
  | .null, _ => .null
  | .cons _ head tail, n + 1 => if n ≠ 0 then sexprNth tail n else head
  | _, _ + 1 => .null

/-- `val_cast_to_str`. -/
def valCastToStr (v : Ref A) : Comp (Ref A) := do
  assert (v.type = none || v.type = some .str)
  pure v

/-- `val_cstr`, of an object. -/
def valCstr : Ref A → Comp CStr
  | .str _ s => pure s
  | .sym _ s => pure s
  | _ => throw .assert

/-- `str_cmp`. -/
def strCmp (a b : Ref A) : Comp Int := do return strcmp (← valCstr a) (← valCstr b)

/-- The cases VT_STR and VT_SYM of `sexpr_equal`. -/
def equalStr (lhs rhs : Ref A) : Comp Bool := do
  return (← strCmp (← valCastToStr lhs) (← valCastToStr rhs)) = 0

variable [DecidableEq A]

mutual

def sexprEqual (lhs rhs : Ref A) : Comp Bool :=
  if lhs.addr = rhs.addr then pure true
  else if lhs.isNone || rhs.isNone then
    pure !((lhs.isNone && !rhs.isEmptyCons) || (rhs.isNone && !lhs.isEmptyCons))
  else if lhs.type ≠ rhs.type then pure false
  else
    match lhs, rhs with
    | .vtNull _, .vtNull _ => pure true
    | .int _ i, .int _ j => pure (i = j)
    | .char _ c, .char _ d => pure (c = d)
    | .str a s, .str b t => equalStr (.str a s) (.str b t)
    | .sym a s, .sym b t => equalStr (.sym a s) (.sym b t)
    | .bool _ b, .bool _ c => pure (b = c)
    | .blob _ x, .blob _ y => pure (x = y)
    | .cons _ h t, .cons _ h' t' => do
      if ← sexprEqual h h' then sexprEqual t t' else pure false
    | .array _ vs, .array _ ws => if vs.length ≠ ws.length then pure false else equalElems vs ws
    | .nvl _ ps, .nvl _ qs => equalPairs ps qs
    | _, _ => throw .assert

/-- The loop over the elements of two arrays. -/
def equalElems : List (Ref A) → List (Ref A) → Comp Bool
  | v :: vs, w :: ws => do
    if ← sexprEqual v w then equalElems vs ws else pure false
  | _, _ => pure true

/-- The loop over the pairs of two nvlists. -/
def equalPairs : List (CStr × Ref A) → List (CStr × Ref A) → Comp Bool
  | (name, v) :: ps, (name', w) :: qs => do
    if strcmp name name' ≠ 0 then pure false
    else if ← sexprEqual v w then equalPairs ps qs
    else pure false
  | [], [] => pure true
  | _, _ => pure false

end

end Libjeffpc.Sexpr
