import Libjeffpc.Lib.Assoc
import Libjeffpc.Lib.CString

/-!
# Values (`val.h`)

A `Val` is what a pointer to a `struct val` leads to: the whole finite tree of values. Reference
counts and the ways a string is stored are left out. The empty list is the VT_CONS value that has
neither a head nor a tail. The pairs of an nvlist stand in the order in which its tree is walked, by
name; `nvSet` is what `nvl_set_pair` does to them.
-/

namespace Libjeffpc

open Lib

/-- `enum val_type`. -/
inductive ValType where
  | null
  | int
  | str
  | sym
  | bool
  | cons
  | char
  | blob
  | array
  | nvl
  deriving DecidableEq, Repr

inductive Val where
  | null
  | int (i : UInt64)
  | str (s : CStr)
  | sym (s : CStr)
  | bool (b : Bool)
  | nil
  | cons (head tail : Val)
  | char (c : UInt64)
  | blob (bytes : Bytes)
  | array (vals : List Val)
  | nvl (pairs : List (CStr × Val))
  deriving Repr

namespace Val

def type : Val → ValType
  | null => .null
  | int _ => .int
  | str _ => .str
  | sym _ => .sym
  | bool _ => .bool
  | nil => .cons
  | cons _ _ => .cons
  | char _ => .char
  | blob _ => .blob
  | array _ => .array
  | nvl _ => .nvl

end Val

/-- The names of an nvlist grow: it is walked in the order of its tree, and no name is there twice. -/
abbrev NvSorted (pairs : List (CStr × Val)) : Prop := Assoc.Sorted strcmp pairs

/-- `nvl_set_pair`: the value of the pair is replaced, or a new pair is put where its name belongs. -/
def nvSet (pairs : List (CStr × Val)) (name : CStr) (v : Val) : List (CStr × Val) :=
  Assoc.set strcmp pairs name v

/-- `nvSet` of one pair after the other. -/
def nvSetAll (pairs : List (CStr × Val)) (ps : List (CStr × Val)) : List (CStr × Val) :=
  ps.foldl (fun acc p => nvSet acc p.1 p.2) pairs

theorem nvSorted_nvSetAll {pairs : List (CStr × Val)} (h : NvSorted pairs)
    (ps : List (CStr × Val)) : NvSorted (nvSetAll pairs ps) := h.setAll strcmp_isCmp ps

/-- A name has the last value that was set for it. -/
theorem lookup_nvSetAll (pairs ps : List (CStr × Val)) (name : CStr) :
    (nvSetAll pairs ps).lookup name = (ps.reverse.lookup name).or (pairs.lookup name) :=
  Assoc.lookup_setAll (fun _ _ => strcmp_eq_zero) pairs ps name

/-- Setting the pairs of a sorted list in an empty nvlist gives that list. -/
theorem nvSetAll_sorted {ps : List (CStr × Val)} (h : NvSorted ps) : nvSetAll [] ps = ps :=
  Assoc.setAll_sorted strcmp_isCmp (fun _ _ => strcmp_eq_zero) h

end Libjeffpc
