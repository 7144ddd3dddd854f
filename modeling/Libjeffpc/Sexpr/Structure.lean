import Libjeffpc.Sexpr.Sexpr

/-!
# The structure of S-expressions

`toVal` is the value that a reference stands for, with NULL and the empty cons cell taken for the same
empty list: the equality that `sexpr_equal` is meant to decide. `Alike` and `Meets` describe, without
a look at the code, where two values differ only by an empty cons cell that faces a cons cell of two
empty lists, and where a walk through both of them comes to two symbols.
-/

namespace Libjeffpc.Sexpr

open Lib

variable {A : Type}

mutual

def Ref.toVal : Ref A → Val
  | .null => .nil
  | .vtNull _ => .null
  | .int _ i => .int i
  | .str _ s => .str s
  | .sym _ s => .sym s
  | .bool _ b => .bool b
  | .cons _ head tail =>
    if head.isNone && tail.isNone then .nil else .cons head.toVal tail.toVal
  | .char _ c => .char c
  | .blob _ bytes => .blob bytes
  | .array _ vals => .array (toVals vals)
  | .nvl _ pairs => .nvl (toPairs pairs)

def toVals : List (Ref A) → List Val
  | [] => []
  | v :: vals => v.toVal :: toVals vals

def toPairs : List (CStr × Ref A) → List (CStr × Val)
  | [] => []
  | (name, v) :: pairs => (name, v.toVal) :: toPairs pairs

end

theorem toVal_eq_nil {v : Ref A} : v.toVal = .nil ↔ sexprIsNull v = true := by
  cases v with
  | cons a h t =>
    show (if h.isNone && t.isNone then Val.nil else _) = _ ↔ (h.isNone && t.isNone) = true
    cases h.isNone && t.isNone <;> simp
  | null => simp [Ref.toVal, sexprIsNull, Ref.isNone]
  | _ => simp [Ref.toVal, sexprIsNull, Ref.isNone, Ref.isEmptyCons]

theorem toVal_cons {a : A} {h t : Ref A} (hn : sexprIsNull (.cons a h t) = false) :
    (Ref.cons a h t).toVal = .cons h.toVal t.toVal := by
  have hne : (h.isNone && t.isNone) = false := hn
  rw [Ref.toVal, hne]
  rfl

theorem toVals_eq (vals : List (Ref A)) : toVals vals = vals.map Ref.toVal := by
  induction vals with
  | nil => rfl
  | cons v vals ih => rw [toVals, List.map_cons, ih]

/-- The objects and NULL pointers that can be reached. -/
inductive Reaches : Ref A → Ref A → Prop
  | refl (v : Ref A) : Reaches v v
  | head {a : A} {h t x : Ref A} (hx : Reaches h x) : Reaches (.cons a h t) x
  | tail {a : A} {h t x : Ref A} (hx : Reaches t x) : Reaches (.cons a h t) x
  | elem {a : A} {vals : List (Ref A)} {v x : Ref A} (hv : v ∈ vals) (hx : Reaches v x) :
      Reaches (.array a vals) x
  | value {a : A} {pairs : List (CStr × Ref A)} {p : CStr × Ref A} {x : Ref A} (hp : p ∈ pairs)
      (hx : Reaches p.2 x) : Reaches (.nvl a pairs) x

mutual

/-- The objects that a value leads to. -/
def Ref.objects : Ref A → List (Ref A)
  | .null => []
  | .cons a h t => .cons a h t :: (h.objects ++ t.objects)
  | .array a vals => .array a vals :: elemObjects vals
  | .nvl a pairs => .nvl a pairs :: pairObjects pairs
  | .vtNull a => [.vtNull a]
  | .int a i => [.int a i]
  | .str a s => [.str a s]
  | .sym a s => [.sym a s]
  | .bool a b => [.bool a b]
  | .char a c => [.char a c]
  | .blob a bytes => [.blob a bytes]

def Ref.elemObjects : List (Ref A) → List (Ref A)
  | [] => []
  | v :: vals => v.objects ++ elemObjects vals

def Ref.pairObjects : List (CStr × Ref A) → List (Ref A)
  | [] => []
  | (_, v) :: pairs => v.objects ++ pairObjects pairs

end

/-- Equal pointers lead to the same object. -/
def Consistent (a b : Ref A) : Prop :=
  ∀ x y, (Reaches a x ∨ Reaches b x) → (Reaches a y ∨ Reaches b y) → x.addr = y.addr → x = y

/-- A value without symbols. -/
def SymbolFree (v : Ref A) : Prop := ∀ a s, ¬Reaches v (.sym a s)

mutual

/-- The two have the same structure, except that an empty cons cell may face a cons cell whose head and
tail are empty lists. -/
inductive Alike : Ref A → Ref A → Prop
  | same {v w : Ref A} (h : v.toVal = w.toVal) : Alike v w
  | left {x y : A} {h t : Ref A} (hh : sexprIsNull h) (ht : sexprIsNull t) :
      Alike (.cons x .null .null) (.cons y h t)
  | right {x y : A} {h t : Ref A} (hh : sexprIsNull h) (ht : sexprIsNull t) :
      Alike (.cons y h t) (.cons x .null .null)
  | cons {x y : A} {h t h' t' : Ref A} (hl : sexprIsNull (.cons x h t) = false)
      (hr : sexprIsNull (.cons y h' t') = false) (hh : Alike h h') (ht : Alike t t') :
      Alike (.cons x h t) (.cons y h' t')
  | array {x y : A} {vs ws : List (Ref A)} (h : AlikeElems vs ws) : Alike (.array x vs) (.array y ws)
  | nvl {x y : A} {ps qs : List (CStr × Ref A)} (h : AlikePairs ps qs) : Alike (.nvl x ps) (.nvl y qs)

inductive AlikeElems : List (Ref A) → List (Ref A) → Prop
  | nil : AlikeElems [] []
  | cons {v w : Ref A} {vs ws : List (Ref A)} (h : Alike v w) (hs : AlikeElems vs ws) :
      AlikeElems (v :: vs) (w :: ws)

inductive AlikePairs : List (CStr × Ref A) → List (CStr × Ref A) → Prop
  | nil : AlikePairs [] []
  | cons {name : CStr} {v w : Ref A} {ps qs : List (CStr × Ref A)} (h : Alike v w)
      (hs : AlikePairs ps qs) : AlikePairs ((name, v) :: ps) ((name, w) :: qs)

end

mutual

/-- Two different symbol objects stand at the same place, everything before that place is alike (heads
before tails, elements and pairs in their order), and no two references above it are equal. -/
inductive Meets : Ref A → Ref A → Prop
  | sym {x y : A} {s t : CStr} (hne : x ≠ y) : Meets (.sym x s) (.sym y t)
  | head {x y : A} {h t h' t' : Ref A} (hne : x ≠ y) (hh : Meets h h') :
      Meets (.cons x h t) (.cons y h' t')
  | tail {x y : A} {h t h' t' : Ref A} (hne : x ≠ y) (hh : Alike h h') (ht : Meets t t') :
      Meets (.cons x h t) (.cons y h' t')
  | array {x y : A} {vs ws : List (Ref A)} (hne : x ≠ y) (hlen : vs.length = ws.length)
      (h : MeetsElems vs ws) : Meets (.array x vs) (.array y ws)
  | nvl {x y : A} {ps qs : List (CStr × Ref A)} (hne : x ≠ y) (h : MeetsPairs ps qs) :
      Meets (.nvl x ps) (.nvl y qs)

inductive MeetsElems : List (Ref A) → List (Ref A) → Prop
  | here {v w : Ref A} {vs ws : List (Ref A)} (h : Meets v w) : MeetsElems (v :: vs) (w :: ws)
  | there {v w : Ref A} {vs ws : List (Ref A)} (h : Alike v w) (hs : MeetsElems vs ws) :
      MeetsElems (v :: vs) (w :: ws)

inductive MeetsPairs : List (CStr × Ref A) → List (CStr × Ref A) → Prop
  | here {name : CStr} {v w : Ref A} {ps qs : List (CStr × Ref A)} (h : Meets v w) :
      MeetsPairs ((name, v) :: ps) ((name, w) :: qs)
  | there {name : CStr} {v w : Ref A} {ps qs : List (CStr × Ref A)} (h : Alike v w)
      (hs : MeetsPairs ps qs) : MeetsPairs ((name, v) :: ps) ((name, w) :: qs)

end

end Libjeffpc.Sexpr
