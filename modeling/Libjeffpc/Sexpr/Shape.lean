import Libjeffpc.Sexpr.Compact

/-!
# Lists, alists and their compact form

`Val.compact` is what compaction is for, on values and without pointers: a proper list becomes an nvlist
if all of its items are pairs with a string or a symbol as their name, else an array; a list with
another end stays as it is, with all that is in it. `Shape` says the same as a relation. `Visits` tells
where compaction goes, and `Stops` that it comes to a place where it cannot go on.
-/

namespace Libjeffpc

open Lib

namespace Val

/-- A list that ends in the empty list. -/
def isProper : Val → Bool
  | nil => true
  | cons _ tail => isProper tail
  | _ => false

def isPair : Val → Bool
  | cons (str _) _ => true
  | cons (sym _) _ => true
  | _ => false

/-- The name of a pair. -/
def pairName : Val → CStr
  | cons (str s) _ => s
  | cons (sym s) _ => s
  | _ => CStr.empty

def pairValue : Val → Val
  | cons _ value => value
  | v => v

def items : Val → List Val
  | cons head tail => head :: items tail
  | _ => []

mutual

def compact : Val → Val
  | cons head tail =>
    if isProper tail then
      if isPair head && (items tail).all isPair then
        .nvl (nvSetAll [] ((pairName head, compactValue head) :: compactEntries tail))
      else .array (compact head :: compactItems tail)
    else .cons head tail
  | array vals => array (compactAll vals)
  | nvl pairs => nvl (compactPairs pairs)
  | null => null
  | int i => int i
  | str s => str s
  | sym s => sym s
  | bool b => bool b
  | nil => nil
  | char c => char c
  | blob bytes => blob bytes

/-- The value of a pair. -/
def compactValue : Val → Val
  | cons _ value => compact value
  | v => v

def compactItems : Val → List Val
  | cons head tail => compact head :: compactItems tail
  | _ => []

def compactEntries : Val → List (CStr × Val)
  | cons head tail => (pairName head, compactValue head) :: compactEntries tail
  | _ => []

def compactAll : List Val → List Val
  | [] => []
  | v :: vals => compact v :: compactAll vals

def compactPairs : List (CStr × Val) → List (CStr × Val)
  | [] => []
  | (name, v) :: pairs => (name, compact v) :: compactPairs pairs

end

end Val

/-- The compact form of a value, at every depth except inside of a list with another end. -/
inductive Shape : Val → Val → Prop
  | leaf {v : Val} (h : v.type ≠ .cons ∧ v.type ≠ .array ∧ v.type ≠ .nvl) : Shape v v
  | empty : Shape .nil .nil
  | improper {head tail : Val} (h : tail.isProper = false) : Shape (.cons head tail) (.cons head tail)
  | array {vals vals' : List Val} (h : List.Forall₂ Shape vals vals') :
      Shape (.array vals) (.array vals')
  | nvl {pairs pairs' : List (CStr × Val)} (hnames : pairs.map Prod.fst = pairs'.map Prod.fst)
      (h : List.Forall₂ Shape (pairs.map Prod.snd) (pairs'.map Prod.snd)) :
      Shape (.nvl pairs) (.nvl pairs')
  /-- As many elements, in the same order. -/
  | list {head tail : Val} {vals : List Val} (hp : tail.isProper)
      (hno : (Val.items (.cons head tail)).all Val.isPair = false)
      (h : List.Forall₂ Shape (Val.items (.cons head tail)) vals) :
      Shape (.cons head tail) (.array vals)
  /-- The pairs are set one after the other. -/
  | alist {head tail : Val} {vals : List Val} (hp : tail.isProper)
      (hall : (Val.items (.cons head tail)).all Val.isPair)
      (h : List.Forall₂ Shape ((Val.items (.cons head tail)).map Val.pairValue) vals) :
      Shape (.cons head tail)
        (.nvl (nvSetAll [] (((Val.items (.cons head tail)).map Val.pairName).zip vals)))

namespace Sexpr

variable {A : Type}

/-- The heads of the cells of a list. -/
def Ref.items : Ref A → List (Ref A)
  | .cons _ head tail => if head.isNone && tail.isNone then [] else head :: items tail
  | _ => []

/-- A proper list whose items are all pairs with a string or a symbol as their name. -/
def IsAlist (v : Ref A) : Prop := v.toVal.isProper ∧ ∀ w ∈ v.items, w.toVal.isPair

/-- The pairs of an alist that have a name, from the first one to the last one. -/
def Ref.pairsNamed (name : CStr) (v : Ref A) : List (Ref A) :=
  v.items.filter fun w => w.toVal.pairName = name

/-- Compaction of the first value comes to the second one: it goes through arrays, nvlists, proper lists
and the values of alists, and does not look into other lists. -/
inductive Visits : Ref A → Ref A → Prop
  | refl (v : Ref A) : Visits v v
  | elem {a : A} {vals : List (Ref A)} {v w : Ref A} (hv : v ∈ vals) (h : Visits v w) :
      Visits (.array a vals) w
  | value {a : A} {pairs : List (CStr × Ref A)} {p : CStr × Ref A} {w : Ref A} (hp : p ∈ pairs)
      (h : Visits p.2 w) : Visits (.nvl a pairs) w
  | item {v u w : Ref A} (hv : whatIsIt v = .array) (hu : u ∈ v.items) (h : Visits u w) : Visits v w
  | entry {v u w : Ref A} (hv : whatIsIt v = .nvl) (hu : u ∈ v.items) (h : Visits (sexprCdr u) w) :
      Visits v w

/-- A list whose number of items is not an int. -/
def TooLong (v : Ref A) : Prop := whatIsIt v = .array ∧ 2 ^ 31 ≤ v.items.length

/-- Compaction comes to a NULL pointer, or to a list that is too long. -/
def Stops (v : Ref A) : Prop := ∃ w, Visits v w ∧ (w = .null ∨ TooLong w)

/-- No pointer is NULL, except for those of the empty cons cell. -/
def NullFree (v : Ref A) : Prop :=
  v ≠ .null ∧ (∀ a h t, Reaches v (.cons a h t) → sexprIsNull (.cons a h t) = false →
      h ≠ .null ∧ t ≠ .null) ∧
    (∀ a vals, Reaches v (.array a vals) → Ref.null ∉ vals) ∧
    ∀ a pairs, Reaches v (.nvl a pairs) → ∀ p ∈ pairs, p.2 ≠ Ref.null

/-- The number of items of each list is an int. -/
def ShortLists (v : Ref A) : Prop := ∀ x, Reaches v x → x.items.length < 2 ^ 31

/-- The pairs of nvlists are walked in the order of their names. -/
def NvOrdered (v : Ref A) : Prop := ∀ a pairs, Reaches v (.nvl a pairs) → Assoc.Sorted strcmp pairs

/-- The objects of a value are static or among the first `n`. -/
def Below (n : Nat) (v : Ref Addr) : Prop := ∀ x, Reaches v x → ∀ k, x.addr = some (.obj k) → k < n

mutual

/-- The value with an empty cons cell in the place of every NULL pointer. -/
def Ref.fill : Ref Addr → Ref Addr
  | .null => valEmptyCons
  | .cons a head tail =>
    if head.isNone && tail.isNone then .cons a head tail else .cons a head.fill tail.fill
  | .array a vals => .array a (fillAll vals)
  | .nvl a pairs => .nvl a (fillPairs pairs)
  | .vtNull a => .vtNull a
  | .int a i => .int a i
  | .str a s => .str a s
  | .sym a s => .sym a s
  | .bool a b => .bool a b
  | .char a c => .char a c
  | .blob a bytes => .blob a bytes

def fillAll : List (Ref Addr) → List (Ref Addr)
  | [] => []
  | v :: vals => v.fill :: fillAll vals

def fillPairs : List (CStr × Ref Addr) → List (CStr × Ref Addr)
  | [] => []
  | (name, v) :: pairs => (name, v.fill) :: fillPairs pairs

end

end Sexpr

end Libjeffpc
