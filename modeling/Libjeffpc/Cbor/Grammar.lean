import Libjeffpc.Cbor.Pack

/-!
# The data items

The CBOR data items that have a meaning as a value, independent of how they are read: which bytes
form an item, and what it stands for.
-/

namespace Libjeffpc.Cbor

open Lib

/-- The first byte of an item. -/
def typeByte (type : MajorType) (additional : Nat) : UInt8 :=
  .ofNat (32 * type.code.toNat + additional)

/-- The byte that ends an item of indefinite length. -/
def breakByte : UInt8 := typeByte .float 31

/-- `Head type bs n`: `bs` starts an item of the major type, with the argument `n`. -/
inductive Head (type : MajorType) : Bytes → Nat → Prop
  | direct {n : Nat} (h : n ≤ 23) : Head type [typeByte type n] n
  | one {b : Bytes} (h : b.length = 1) : Head type (typeByte type 24 :: b) (beValue b)
  | two {b : Bytes} (h : b.length = 2) : Head type (typeByte type 25 :: b) (beValue b)
  | four {b : Bytes} (h : b.length = 4) : Head type (typeByte type 26 :: b) (beValue b)
  | eight {b : Bytes} (h : b.length = 8) : Head type (typeByte type 27 :: b) (beValue b)

/-- `EncodedInt bs v`: `bs` is the integer `v` (RFC 7049: a negative integer has the argument `-1 - v`). -/
inductive EncodedInt : Bytes → Int → Prop
  | uint {bs : Bytes} {n : Nat} (h : Head .uint bs n) : EncodedInt bs n
  | nint {bs : Bytes} {n : Nat} (h : Head .nint bs n) : EncodedInt bs (-1 - n)

/-- The first bytes of an array or a map: its length, and whether it has an end. -/
def Start (type : MajorType) (bs : Bytes) (r : UInt64 × Bool) : Prop :=
  (r = (0, true) ∧ bs = [typeByte type 31]) ∨ (r.2 = false ∧ Head type bs r.1.toNat)

/-- `Text bs payload`: `bs` is a text string of definite length. -/
inductive Text : Bytes → Bytes → Prop
  | mk {h payload : Bytes} (hh : Head .text h payload.length) : Text (h ++ payload) payload

/-- A name and a value of a map: the bytes and the text of the name, the bytes and the meaning of the
value. -/
structure PairItem where
  nameBytes : Bytes
  name : Bytes
  valueBytes : Bytes
  value : Val

def PairItem.bytes (p : PairItem) : Bytes := p.nameBytes ++ p.valueBytes

def PairItem.pair (p : PairItem) : CStr × Val := (cstr p.name, p.value)

/-- An nvlist is the map that pairs form, where a later pair overrides an earlier one. -/
def LastWins (nvl pairs : List (CStr × Val)) : Prop :=
  NvSorted nvl ∧ ∀ name, nvl.lookup name = pairs.reverse.lookup name

/-- `Item room bs v`: the bytes `bs` are one data item, and its meaning is `v`. Arrays have a length
that satisfies `room`. -/
inductive Item (room : Nat → Prop) : Bytes → Val → Prop
  | uint {bs : Bytes} {n : Nat} (h : Head .uint bs n) : Item room bs (.int (.ofNat n))
  | text {bs payload : Bytes} (h : Text bs payload) : Item room bs (.str (cstr payload))
  | false : Item room [typeByte .float 20] (.bool .false)
  | true : Item room [typeByte .float 21] (.bool .true)
  | null : Item room [typeByte .float 22] .null
  | array {h : Bytes} (items : List (Bytes × Val)) (hh : Head .array h items.length)
      (hroom : room items.length) (hitems : ∀ x ∈ items, Item room x.1 x.2) :
      Item room (h ++ (items.map Prod.fst).flatten) (.array (items.map Prod.snd))
  | arrayIndef (items : List (Bytes × Val)) (hroom : room items.length)
      (hitems : ∀ x ∈ items, Item room x.1 x.2) :
      Item room (typeByte .array 31 :: (items.map Prod.fst).flatten ++ [breakByte])
        (.array (items.map Prod.snd))
  | map {h : Bytes} {nvl : List (CStr × Val)} (pairs : List PairItem)
      (hh : Head .map h pairs.length) (hnames : ∀ p ∈ pairs, Text p.nameBytes p.name)
      (hvalues : ∀ p ∈ pairs, Item room p.valueBytes p.value)
      (hnvl : LastWins nvl (pairs.map PairItem.pair)) :
      Item room (h ++ (pairs.map PairItem.bytes).flatten) (.nvl nvl)
  | mapIndef {nvl : List (CStr × Val)} (pairs : List PairItem)
      (hnames : ∀ p ∈ pairs, Text p.nameBytes p.name)
      (hvalues : ∀ p ∈ pairs, Item room p.valueBytes p.value)
      (hnvl : LastWins nvl (pairs.map PairItem.pair)) :
      Item room (typeByte .map 31 :: (pairs.map PairItem.bytes).flatten ++ [breakByte]) (.nvl nvl)

/-- One data item of the supported subset. -/
abbrev DataItem : Bytes → Val → Prop := Item fun _ => True

end Libjeffpc.Cbor
