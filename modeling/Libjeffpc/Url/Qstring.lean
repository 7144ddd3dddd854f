import Libjeffpc.Nvl.Refused
import Libjeffpc.Url.Urldecode

/-!
# Query strings (`qstring.c`)

The loop of `qstring_parse_len` cuts a query string into names and values, which `insert` decodes and
puts into an nvlist. A pointer into the query string is an index. Memory may run out: `refusals` says which requests
are refused in a call of `insert`.
-/

namespace Libjeffpc.Url

open Lib Libjeffpc.Tree Libjeffpc.Nvl

variable {N A M : Type} [DecidableEq N] [DecidableEq A] [TreeMem A M]

section Parse

variable (refusals : Nat → Refusals) (alloc : Allocator A)

/-- The string of a value (possibly the empty string). -/
def insertVal (refused : Bool) (val : Bytes) : Comp (Except Errno CStr) :=
  if val.length = 0 then pure (.ok CStr.empty)
  else do
    match ← urldecodeStr val with
    | .error e => pure (.error e)
    -- the string is copied
    | .ok str => if copyRefused refused str then pure (.error .ENOMEM) else pure (.ok str)

/-- `insert`; it is the k-th call. -/
def insert (nvl : N) (k : Nat) (name : Bytes) (val : Option Bytes) (l : Lists N A M) :
    Comp (Except Errno Unit × Lists N A M) := do
  let (newlen, buf) ← urldecode (some name) (some (List.replicate (name.length + 1) 0))
  match newlen with
  | .error e => pure (.error e, l)
  | .ok newlen =>
    let buf ← store (← deref buf) newlen 0
    match val with
    | none => l.nvlSetNull alloc (refusals k) nvl (cstr buf)
    | some val =>
      match ← insertVal (refusals k).value val with
      | .error e => pure (.error e, l)
      | .ok val => l.nvlSetStr alloc (refusals k) nvl (cstr buf) val

inductive QsState where
  | name
  | val
  deriving DecidableEq

/-- The variables of the loop; `k` counts the calls of `insert`. -/
structure Qs (N A M : Type) where
  state : QsState
  cur : Nat
  name : Nat
  nameLen : Nat
  val : Nat
  k : Nat
  lists : Lists N A M

/-- The bytes of a value, from a pointer that may be NULL. -/
def sliceVal (qs : Bytes) : Option (Nat × Nat) → Comp (Option Bytes)
  | none => pure none
  | some (i, len) => do return some (← slice qs i len)

/-- The value of a call of `insert` is not used. -/
def insertPart (nvl : N) (qs : Bytes) (s : Qs N A M) (nameLen : Nat) (val : Option (Nat × Nat)) :
    Comp (Qs N A M) := do
  let name ← slice qs s.name nameLen
  let val ← sliceVal qs val
  let (_, lists) ← insert refusals alloc nvl s.k name val s.lists
  pure { s with k := s.k + 1, lists }

/-- A round of the loop, for a character `c`. -/
def qstringStep (nvl : N) (qs : Bytes) (s : Qs N A M) (c : UInt8) :
    Comp (Qs N A M ⊕ (Except Errno Unit × Lists N A M)) :=
  match s.state with
  | .name =>
    if c = ch '=' then
      pure (.inl { s with nameLen := s.cur - s.name, val := s.cur + 1, state := .val, cur := s.cur + 1 })
    else if c = ch '&' then do
      let s ← insertPart refusals alloc nvl qs s (s.cur - s.name) none
      pure (.inl { s with name := s.cur + 1, state := .name, cur := s.cur + 1 })
    else pure (.inl { s with cur := s.cur + 1 })
  | .val =>
    if c = ch '&' then do
      let s ← insertPart refusals alloc nvl qs s s.nameLen (some (s.val, s.cur - s.val))
      pure (.inl { s with name := s.cur + 1, state := .name, cur := s.cur + 1 })
    else if c = ch '=' then pure (.inr (.error .EILSEQ, s.lists))
    else pure (.inl { s with cur := s.cur + 1 })

def insertIf (c : Bool) (nvl : N) (qs : Bytes) (s : Qs N A M) (nameLen : Nat) (val : Option (Nat × Nat)) :
    Comp (Qs N A M) :=
  if c then insertPart refusals alloc nvl qs s nameLen val else pure s

/-- What is left after the last character. -/
def qstringEnd (nvl : N) (qs : Bytes) (len : Nat) (s : Qs N A M) :
    Comp (Except Errno Unit × Lists N A M) := do
  let s ← insertIf refusals alloc (s.state = .name ∧ s.name < len) nvl qs s (len - s.name) none
  let s ← insertIf refusals alloc (s.state = .val ∧ s.val = len) nvl qs s s.nameLen (some (s.val, 0))
  let s ← insertIf refusals alloc (s.state = .val ∧ s.val < len) nvl qs s s.nameLen
    (some (s.val, len - s.val))
  pure (.ok (), s.lists)

def qstringRound (nvl : N) (qs : Bytes) (len : Nat) (s : Qs N A M) :
    Comp (Qs N A M ⊕ (Except Errno Unit × Lists N A M)) :=
  if s.cur < len then do
    qstringStep refusals alloc nvl qs s (← fetch qs s.cur)
  else do
    return .inr (← qstringEnd refusals alloc nvl qs len s)

def qstringParseLen (nvl : Option N) (qs : Option Bytes) (len : Nat) (lists : Lists N A M) :
    Comp (Except Errno Unit × Lists N A M) :=
  match nvl, qs with
  | none, _ => pure (.error .EINVAL, lists)
  | some _, none => pure (if len = 0 then .ok () else .error .EINVAL, lists)
  | some nvl, some qs =>
    loop (qstringRound refusals alloc nvl qs len)
      { state := .name, cur := 0, name := 0, nameLen := 0, val := 0, k := 0, lists }

end Parse

/-! ## Segments and entries -/

/-- The segments between ampersands, without an empty last one. -/
def segments : Bytes → List Bytes
  | [] => []
  | c :: rest =>
    if c = ch '&' then [] :: segments rest
    else
      match segments rest with
      | [] => [[c]]
      | s :: ss => (c :: s) :: ss

/-- The name of a segment, and its value if there is an equals sign. -/
def segName (seg : Bytes) : Bytes := seg.takeWhile (· ≠ ch '=')

def segValue (seg : Bytes) : Option Bytes :=
  if ch '=' ∈ seg then some ((seg.dropWhile (· ≠ ch '=')).drop 1) else none

/-- A second equals sign. -/
def TwoEquals (seg : Bytes) : Prop := ∃ v, segValue seg = some v ∧ ch '=' ∈ v

instance : DecidablePred TwoEquals := fun seg =>
  decidable_of_iff ((segValue seg).any fun v => decide (ch '=' ∈ v)) (by simp [TwoEquals, Option.any_eq_true])

/-- A bad escape or a second equals sign. -/
def Malformed (seg : Bytes) : Prop :=
  BadEscape (segName seg) ∨ (∃ v, segValue seg = some v ∧ BadEscape v) ∨ TwoEquals seg

/-- The name and the value of a segment can be decoded, and the name is in the nvlist. -/
def Parsed (l : Lists N A M) (nvl : N) (seg : Bytes) : Prop :=
  ∃ d : CStr, percentDecode (segName seg) = some d.1 ∧
    (∀ v, segValue seg = some v → (percentDecode v).isSome) ∧ l.nvlExists nvl d = pure true

/-- The name and the value that bytes stand for. -/
def entryOf {N : Type} (name : Bytes) (val : Option Bytes) : Option (CStr × Value N) :=
  (percentDecode name).bind fun d =>
    match val with
    | none => some (cstr d, .null)
    | some v => (percentDecode v).map fun u => (cstr d, .str (cstr u))

/-- The calls that the segments lead to, from the k-th one on. -/
def segCalls {N : Type} (refusals : Nat → Refusals) : Nat → List Bytes → List (Call N)
  | _, [] => []
  | k, seg :: segs =>
    ((entryOf (segName seg) (segValue seg)).map fun e => ⟨e.1, e.2, refusals k⟩).toList ++
      segCalls refusals (k + 1) segs

/-- A call for a value that is there and a name that is not, whose copy is refused; the calls in `pre` come before
it. -/
def Unnamed {N : Type} (map : NvMap N) (pre : List (Call N)) (c : Call N) : Prop :=
  ¬c.valueRefused ∧ New map pre c.name ∧ c.nameRefused

/-- A call leaves a code for the name of a pair. -/
def Corrupts {N : Type} (map : NvMap N) (calls : List (Call N)) : Prop :=
  ∃ pre c post, calls = pre ++ c :: post ∧ Unnamed map pre c

/-- The code is used as a pointer: there is no memory for the pair, or there are other pairs, or there is a call for
another value behind it. -/
def Crashes {N : Type} (map : NvMap N) (calls : List (Call N)) : Prop :=
  ∃ pre c post, calls = pre ++ c :: post ∧ Unnamed map pre c ∧
    (c.refused.pair ∨ (∃ name, map name ≠ none) ∨ (∃ d ∈ pre, d.puts) ∨ ∃ d ∈ post, ¬d.valueRefused)

/-- Some segment has a second equals sign, and no code is used as a pointer before it; or all segments can be decoded to
a name without a NUL, no copy of a name is refused where it is needed, and each name was in the nvlist or is the one
of a segment whose `insert` does not run out of memory. -/
def AllKept (refusals : Nat → Refusals) (map : NvMap N) (segs : List Bytes) : Prop :=
  (∃ pre seg post, segs = pre ++ seg :: post ∧ TwoEquals seg ∧ (∀ seg' ∈ pre, ¬TwoEquals seg') ∧
    ¬Crashes map (segCalls refusals 0 pre)) ∨
  (∀ seg ∈ segs, ¬TwoEquals seg) ∧ ¬Corrupts map (segCalls refusals 0 segs) ∧
    ∀ seg ∈ segs, ∃ d : CStr, percentDecode (segName seg) = some d.1 ∧
      (∀ v, segValue seg = some v → (percentDecode v).isSome) ∧
      (map d ≠ none ∨ ∃ c ∈ segCalls (N := N) refusals 0 segs, c.puts ∧ c.name = d)

/-- Bytes in the form that a query string has. -/
inductive FormEncodes : Bytes → Bytes → Prop
  | nil : FormEncodes [] []
  | lit {c : UInt8} {b t : Bytes} (hc : c ≠ ch '%' ∧ c ≠ ch '+' ∧ c ≠ ch '&' ∧ c ≠ ch '=')
      (h : FormEncodes b t) : FormEncodes (c :: b) (c :: t)
  | plus {b t : Bytes} (h : FormEncodes b t) : FormEncodes (ch ' ' :: b) (ch '+' :: t)
  | esc {c x y : UInt8} {b t : Bytes} (hx : hexValue x = some (c.toNat / 16))
      (hy : hexValue y = some (c.toNat % 16)) (h : FormEncodes b t) :
      FormEncodes (c :: b) (ch '%' :: x :: y :: t)

/-- The text of an entry. -/
inductive EntryEncodes : CStr × Option CStr → Bytes → Prop
  | null {name : CStr} {t : Bytes} (h : FormEncodes name.1 t) : EntryEncodes (name, none) t
  | str {name val : CStr} {t u : Bytes} (ht : FormEncodes name.1 t) (hu : FormEncodes val.1 u) :
      EntryEncodes (name, some val) (t ++ ch '=' :: u)

/-- The map after all entries are set one after the other. -/
def setEntries {N : Type} (entries : List (CStr × Option CStr)) (map : NvMap N) : NvMap N :=
  entries.foldl (fun m e => m.set e.1 (e.2.elim .null .str)) map

end Libjeffpc.Url
