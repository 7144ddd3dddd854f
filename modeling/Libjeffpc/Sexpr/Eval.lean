import Libjeffpc.Lib.Numeral
import Libjeffpc.Sexpr.Sexpr

/-!
# Evaluation of S-expressions (`sexpr_eval.c`)

The evaluator allocates its results, so its state is the number of objects that exist: object `n` has
the address `obj n`. The booleans, the small integers and the empty cons cell are static objects. Allocation does not
fail here (`VAL_ALLOC_INT` asserts it).

What the hooks of the environment do is up to the caller. A function that `fxnlookup` finds is
described in the same way as a builtin one.
-/

namespace Libjeffpc.Sexpr

open Lib

inductive Addr where
  | valTrue
  | valFalse
  | valInts (i : Fin 10)
  | valConsEmpty
  | obj (n : Nat)
  deriving DecidableEq

abbrev EvalM (α : Type) := StateT Nat Comp α

def valAllocInt (i : UInt64) : EvalM (Ref Addr) :=
  if h : i.toNat < 10 then pure (.int (.valInts ⟨i.toNat, h⟩) i)
  else modifyGet fun n => (.int (.obj n) i, n + 1)

def valAllocBool (b : Bool) : EvalM (Ref Addr) :=
  pure (.bool (if b then .valTrue else .valFalse) b)

def valEmptyCons : Ref Addr := .cons .valConsEmpty .null .null

def valAllocCons (head tail : Ref Addr) : EvalM (Ref Addr) :=
  if head.isNone && tail.isNone then pure valEmptyCons
  else modifyGet fun n => (.cons (.obj n) head tail, n + 1)

/-- The loop of `sexpr_array_to_list`, from the last value to the first one. -/
def arrayToList : List (Ref Addr) → EvalM (Ref Addr)
  | [] => pure .null
  | v :: vals => do valAllocCons v (← arrayToList vals)

def sexprArrayToList (vals : List (Ref Addr)) : EvalM (Ref Addr) :=
  if vals.isEmpty then pure valEmptyCons else arrayToList vals

/-- The function that an entry of a table of functions leads to. -/
inductive Fxn where
  | fxnAnd
  | fxnOr
  | fxnAdd
  | fxnMult
  | fxnQuote
  | fxnCar
  | fxnCdr
  | fxnEqual
  | fxnIf
  | other (f : Ref Addr → EvalM (Ref Addr))

structure BuiltinFxn where
  name : CStr
  f : Fxn
  /-- None if any length is ok. -/
  arglen : Option Nat

structure SexprEvalEnv where
  symlookup : Option (CStr → EvalM (Ref Addr))
  fxnlookup : Option (CStr → EvalM (Option BuiltinFxn))

def emptyenv : SexprEvalEnv where
  symlookup := none
  fxnlookup := none

def builtins : List BuiltinFxn := [
  { name := cstr (text ['a', 'n', 'd']), f := .fxnAnd, arglen := none },
  { name := cstr (text ['o', 'r']), f := .fxnOr, arglen := none },
  { name := cstr (text ['+']), f := .fxnAdd, arglen := none },
  { name := cstr (text ['*']), f := .fxnMult, arglen := none },
  { name := cstr (text ['q', 'u', 'o', 't', 'e']), f := .fxnQuote, arglen := some 1 },
  { name := cstr (text ['c', 'a', 'r']), f := .fxnCar, arglen := some 1 },
  { name := cstr (text ['c', 'd', 'r']), f := .fxnCdr, arglen := some 1 },
  { name := cstr (text ['=']), f := .fxnEqual, arglen := some 2 },
  { name := cstr (text ['=', '=']), f := .fxnEqual, arglen := some 2 },
  { name := cstr (text ['i', 'f']), f := .fxnIf, arglen := some 3 }]

def fxnlookupBuiltin (name : CStr) : Option BuiltinFxn :=
  builtins.find? fun fxn => strcmp fxn.name name = 0

/-- The lookup of `eval_cons`: the environment comes first. -/
def fxnlookup (env : SexprEvalEnv) (name : CStr) : EvalM (Option BuiltinFxn) :=
  match env.fxnlookup with
  | none => pure (fxnlookupBuiltin name)
  | some lookup => do
    match ← lookup name with
    | some fxn => pure (some fxn)
    | none => pure (fxnlookupBuiltin name)

/-- The parameters of `__REDUCE`, except for the name of the function. -/
structure Reduce (α : Type) where
  alloc : α → EvalM (Ref Addr)
  /-- The member of an object of the type `t`. -/
  valmember : Ref Addr → Option α
  ident : α
  op : α → α → α

def boolMember : Ref Addr → Option Bool
  | .bool _ b => some b
  | _ => none

def intMember : Ref Addr → Option UInt64
  | .int _ i => some i
  | _ => none

def boolReduce (ident : Bool) (op : Bool → Bool → Bool) : Reduce Bool where
  alloc := valAllocBool
  valmember := boolMember
  ident := ident
  op := op

def intReduce (ident : UInt64) (op : UInt64 → UInt64 → UInt64) : Reduce UInt64 where
  alloc := valAllocInt
  valmember := intMember
  ident := ident
  op := op

def fxnOr : Reduce Bool := boolReduce false or

def fxnAnd : Reduce Bool := boolReduce true and

def fxnAdd : Reduce UInt64 := intReduce 0 (· + ·)

def fxnMult : Reduce UInt64 := intReduce 1 (· * ·)

mutual

/-- The inner loop of `__REDUCE`. -/
def evalElement (env : SexprEvalEnv) (el : Ref Addr) : EvalM (Ref Addr) :=
  if el.type = some .cons || el.type = some .sym then do
    (by apply evalElement : _ → _ → EvalM _) env (← (by apply sexprEval : _ → _ → EvalM _) env el)
  else pure el
partial_fixpoint

/-- The outer loop of `__REDUCE`. -/
def reduceArgs {α : Type} (r : Reduce α) (env : SexprEvalEnv) (args : Ref Addr) (ret : α) :
    EvalM α :=
  if args.isNone then pure ret
  else do
    let el ← (by apply evalElement : _ → _ → EvalM (Ref Addr)) env (sexprCar args)
    match r.valmember el with
    -- `el` is NULL, or has another type
    | none => throw .assert
    | some x => (by apply reduceArgs : Reduce α → _ → _ → _ → EvalM _) r env (sexprCdr args) (r.op ret x)
partial_fixpoint

/-- The function that `__REDUCE` defines. -/
def fxnReduce {α : Type} (r : Reduce α) (args : Ref Addr) (env : SexprEvalEnv) : EvalM (Ref Addr) := do
  r.alloc (← (by apply reduceArgs : Reduce α → _ → _ → _ → EvalM _) r env args r.ident)
partial_fixpoint

def fxnCxr (args : Ref Addr) (env : SexprEvalEnv) (cxr : Ref Addr → Ref Addr) : EvalM (Ref Addr) := do
  return cxr (← (by apply sexprEval : _ → _ → EvalM _) env (sexprCar args))
partial_fixpoint

def fxnEqual (args : Ref Addr) (env : SexprEvalEnv) : EvalM (Ref Addr) := do
  let a ← (by apply sexprEval : _ → _ → EvalM (Ref Addr)) env (sexprNth args 1)
  let b ← (by apply sexprEval : _ → _ → EvalM (Ref Addr)) env (sexprNth args 2)
  valAllocBool (← sexprEqual a b)
partial_fixpoint

def fxnIf (args : Ref Addr) (env : SexprEvalEnv) : EvalM (Ref Addr) := do
  match ← (by apply sexprEval : _ → _ → EvalM (Ref Addr)) env (sexprNth args 1) with
  | .bool _ c => (by apply sexprEval : _ → _ → EvalM _) env (if c then sexprNth args 2 else sexprNth args 3)
  | .null => throw .null
  | _ => throw .assert
partial_fixpoint

/-- The part of `eval_cons` after the label `found`. -/
def evalFound (fxn : BuiltinFxn) (args : Ref Addr) (env : SexprEvalEnv) : EvalM (Ref Addr) :=
  if fxn.arglen.all fun n => sexprLength args = n then
    match fxn.f with
    | .fxnAnd => (by apply fxnReduce : Reduce Bool → _ → _ → EvalM _) fxnAnd args env
    | .fxnOr => (by apply fxnReduce : Reduce Bool → _ → _ → EvalM _) fxnOr args env
    | .fxnAdd => (by apply fxnReduce : Reduce UInt64 → _ → _ → EvalM _) fxnAdd args env
    | .fxnMult => (by apply fxnReduce : Reduce UInt64 → _ → _ → EvalM _) fxnMult args env
    | .fxnQuote => pure (sexprCar args)
    | .fxnCar => (by apply fxnCxr : _ → _ → _ → EvalM _) args env sexprCar
    | .fxnCdr => (by apply fxnCxr : _ → _ → _ → EvalM _) args env sexprCdr
    | .fxnEqual => (by apply fxnEqual : _ → _ → EvalM _) args env
    | .fxnIf => (by apply fxnIf : _ → _ → EvalM _) args env
    | .other f => f args
  else throw .assert
partial_fixpoint

def evalCons (expr : Ref Addr) (env : SexprEvalEnv) : EvalM (Ref Addr) := do
  match sexprCar expr with
  | .sym _ name =>
    match ← fxnlookup env name with
    | none => throw .assert
    | some fxn => (by apply evalFound : _ → _ → _ → EvalM _) fxn (sexprCdr expr) env
  | _ => throw .assert
partial_fixpoint

def sexprEval (env : SexprEvalEnv) (expr : Ref Addr) : EvalM (Ref Addr) :=
  match expr with
  | .null => pure .null
  | .sym _ name =>
    match env.symlookup with
    | none => throw .assert
    | some lookup => lookup name
  | .cons a head tail => (by apply evalCons : Ref Addr → SexprEvalEnv → EvalM _) (.cons a head tail) env
  | expr => pure expr
partial_fixpoint

end

end Libjeffpc.Sexpr
