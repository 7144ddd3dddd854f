import Mathlib
import Libjeffpc.Sexpr.Eval
import Libjeffpc.Sexpr.Structure

/-!
# Expressions and their values

The expressions over numbers, booleans and the operators `+`, `*`, `and`, `or`, `=` and `if`, with what
they are meant to denote. `Builds` relates an expression to the lists that stand for it, with one of the
two ways to end a list.
-/

namespace Libjeffpc.Sexpr

open Lib

inductive Op where
  | add
  | mult
  | and
  | or
  | equal
  | cond
  deriving DecidableEq

def Op.name : Op → CStr
  | add => cstr (text ['+'])
  | mult => cstr (text ['*'])
  | and => cstr (text ['a', 'n', 'd'])
  | or => cstr (text ['o', 'r'])
  | equal => cstr (text ['='])
  | cond => cstr (text ['i', 'f'])

inductive Literal where
  | int (i : UInt64)
  | bool (b : Bool)
  deriving DecidableEq

inductive Expr where
  | literal (x : Literal)
  | app (op : Op) (args : List Expr)

def Literal.int? : Literal → Option UInt64
  | int i => some i
  | bool _ => none

def Literal.bool? : Literal → Option Bool
  | int _ => none
  | bool b => some b

def Literal.toVal : Literal → Val
  | int i => .int i
  | bool b => .bool b

/-- The members of all arguments, if each has a value of the right type. -/
def members {α : Type} (member : Literal → Option α) (args : List (Option Literal)) :
    Option (List α) :=
  args.mapM fun arg => arg.bind member

/-- What an operator makes of the values of its arguments; there is none if an argument that is
needed has none or one of the wrong type, or if the number of arguments is wrong. -/
def Op.apply : Op → List (Option Literal) → Option Literal
  | add, args => (members Literal.int? args).map fun xs => .int xs.sum
  | mult, args => (members Literal.int? args).map fun xs => .int xs.prod
  | and, args => (members Literal.bool? args).map fun bs => .bool (bs.all id)
  | or, args => (members Literal.bool? args).map fun bs => .bool (bs.any id)
  | equal, [some x, some y] => some (.bool (x = y))
  | cond, [some (.bool c), t, f] => if c then t else f
  | _, _ => none

mutual

/-- The value of an expression, if it has one. -/
def Expr.denote : Expr → Option Literal
  | .literal x => some x
  | .app op args => op.apply (denoteAll args)

def denoteAll : List Expr → List (Option Literal)
  | [] => []
  | e :: es => e.denote :: denoteAll es

end

/-- An operator that goes through its arguments, however many there are. -/
def Op.IsReduction (op : Op) : Prop := op ≠ .equal ∧ op ≠ .cond

/-- An application of `+`, `*`, `and` or `or` is evaluated on the way to the value of an expression. -/
inductive Reduces : Expr → Prop
  | reduction {op : Op} {args : List Expr} (h : op.IsReduction) : Reduces (.app op args)
  | left {a b : Expr} (h : Reduces a) : Reduces (.app .equal [a, b])
  | right {a b : Expr} (h : Reduces b) : Reduces (.app .equal [a, b])
  | test {c t f : Expr} (h : Reduces c) : Reduces (.app .cond [c, t, f])
  | yes {c t f : Expr} (hc : c.denote = some (.bool true)) (h : Reduces t) :
      Reduces (.app .cond [c, t, f])
  | no {c t f : Expr} (hc : c.denote = some (.bool false)) (h : Reduces f) :
      Reduces (.app .cond [c, t, f])

/-- The end of a list. -/
inductive Terminator where
  /-- A NULL pointer, as from `sexpr_array_to_list`. -/
  | null
  /-- An empty cons cell, as from `sexpr_parse`. -/
  | empty

inductive Ends : Terminator → Ref Addr → Prop
  | null : Ends .null .null
  | empty (a : Addr) : Ends .empty (.cons a .null .null)

/-- A list of the given objects. -/
inductive Lists (end_ : Terminator) : List (Ref Addr) → Ref Addr → Prop
  | nil {v : Ref Addr} (h : Ends end_ v) : Lists end_ [] v
  | cons (a : Addr) {v tail : Ref Addr} {vs : List (Ref Addr)} (h : Lists end_ vs tail) :
      Lists end_ (v :: vs) (.cons a v tail)

/-- The object of a literal. -/
def Literal.ref (a : Addr) : Literal → Ref Addr
  | int i => .int a i
  | bool b => .bool a b

inductive Builds (end_ : Terminator) : Expr → Ref Addr → Prop
  | literal (a : Addr) (x : Literal) : Builds end_ (.literal x) (x.ref a)
  | app (a : Addr) {op : Op} {args : List Expr} {vs : List (Ref Addr)} {tail : Ref Addr}
      (hargs : List.Forall₂ (Builds end_) args vs) (hlist : Lists end_ vs tail) (x : Addr) :
      Builds end_ (.app op args) (.cons a (.sym x op.name) tail)

/-- The static objects. -/
def IsStatic (v : Ref Addr) : Prop :=
  v = .bool .valTrue true ∨ v = .bool .valFalse false ∨ v = valEmptyCons ∨
    ∃ i : Fin 10, v = .int (.valInts i) (.ofNat i)

/-- The references of a value lead to objects among the first `n` ones and to static objects, and equal
pointers lead to the same object. -/
def Allocated (n : Nat) (v : Ref Addr) : Prop :=
  Consistent v v ∧ ∀ x, Reaches v x → x ≠ .null → IsStatic x ∨ ∃ k < n, x.addr = some (.obj k)

/-- The list of the actions of the grammar for `toklist`. -/
def parsedList : List (Ref Addr) → EvalM (Ref Addr)
  | [] => pure valEmptyCons
  | v :: vals => do valAllocCons v (← parsedList vals)

def Terminator.list : Terminator → List (Ref Addr) → EvalM (Ref Addr)
  | null => sexprArrayToList
  | empty => parsedList

def valAllocSym (name : CStr) : EvalM (Ref Addr) := modifyGet fun n => (.sym (.obj n) name, n + 1)

mutual

/-- Allocates the lists that stand for an expression. -/
def Expr.build (end_ : Terminator) : Expr → EvalM (Ref Addr)
  | .literal (.int i) => valAllocInt i
  | .literal (.bool b) => valAllocBool b
  | .app op args => do
    let sym ← valAllocSym op.name
    let vals ← buildAll end_ args
    end_.list (sym :: vals)

def buildAll (end_ : Terminator) : List Expr → EvalM (List (Ref Addr))
  | [] => pure []
  | e :: es => do
    let v ← e.build end_
    let vals ← buildAll end_ es
    pure (v :: vals)

end

/-- The types of expressions whose value can be computed. -/
inductive Ty where
  | int
  | bool

def Literal.type : Literal → Ty
  | int _ => .int
  | bool _ => .bool

inductive HasType : Expr → Ty → Prop
  | literal (x : Literal) : HasType (.literal x) x.type
  | add {args : List Expr} (h : ∀ e ∈ args, HasType e .int) : HasType (.app .add args) .int
  | mult {args : List Expr} (h : ∀ e ∈ args, HasType e .int) : HasType (.app .mult args) .int
  | and {args : List Expr} (h : ∀ e ∈ args, HasType e .bool) : HasType (.app .and args) .bool
  | or {args : List Expr} (h : ∀ e ∈ args, HasType e .bool) : HasType (.app .or args) .bool
  | equal {a b : Expr} {s t : Ty} (ha : HasType a s) (hb : HasType b t) :
      HasType (.app .equal [a, b]) .bool
  | cond {c t f : Expr} {s : Ty} (hc : HasType c .bool) (ht : HasType t s) (hf : HasType f s) :
      HasType (.app .cond [c, t, f]) s

/-- The hooks of the environment leave the operators alone. -/
def Standard (env : SexprEvalEnv) : Prop :=
  ∀ (op : Op) (n : Nat), fxnlookup env op.name n = pure (fxnlookupBuiltin op.name, n)

end Libjeffpc.Sexpr
