import Libjeffpc.Lib.Comp
import Mathlib.Algebra.BigOperators.Group.Finset.Basic

/-!
# Objects with reference counts

Objects of type `B` live in a heap and hold references to each other. `getref` and `putref` change the
count of an object; the last `putref` releases the references that the object holds and frees it. NULL
and static objects are not counted.

`Balanced h owned` is the invariant that such a heap is kept in: the count of every object is the number
of references to it from objects that are in use, plus those in `owned`, the list of the references that
the running functions hold. A function that consumes or returns a reference takes it from that list or
puts it there.
-/

namespace Libjeffpc.Lib

/-- A pointer: to no object, to a static one, to one that is counted, or a code in the place of a
pointer. -/
inductive Ptr (S E : Type) where
  | null
  | static (s : S)
  | err (e : E)
  | obj (a : Nat)
  deriving DecidableEq

/-- The references that an object holds. -/
class Holder (S E : outParam Type) (B : Type) where
  refs : B → List (Ptr S E)

structure Counted (B : Type) where
  count : Nat
  body : B

/-- The addresses below `next` have been given to objects; none is given out twice. -/
structure RcHeap (B : Type) where
  next : Nat
  obj : Nat → Option (Counted B)

namespace Ptr

variable {S E : Type}

def isErr : Ptr S E → Bool
  | err _ => true
  | _ => false

/-- The reference that a function hands over with its result. -/
def given : Ptr S E → List (Ptr S E)
  | err _ => []
  | p => [p]

end Ptr

/-- How many of the references are to the object at an address. -/
def uses {S E : Type} (a : Nat) (l : List (Ptr S E)) : Nat := l.countP fun p => match p with
  | .obj b => b = a
  | _ => false

section Uses

variable {S E : Type} {a b : Nat} {l l' : List (Ptr S E)} {p : Ptr S E}

@[simp] theorem uses_nil : uses a ([] : List (Ptr S E)) = 0 := rfl

theorem uses_cons : uses a (p :: l) = uses a [p] + uses a l := by
  rw [uses, List.countP_cons, uses, List.countP_cons, List.countP_nil, uses]
  omega

@[simp] theorem uses_append : uses a (l ++ l') = uses a l + uses a l' := List.countP_append

@[simp] theorem uses_obj : uses a [(.obj b : Ptr S E)] = if b = a then 1 else 0 := by
  simp [uses, List.countP_cons]

@[simp] theorem uses_null : uses a [(.null : Ptr S E)] = 0 := rfl

@[simp] theorem uses_static {s : S} : uses a [(.static s : Ptr S E)] = 0 := rfl

@[simp] theorem uses_err {e : E} : uses a [(.err e : Ptr S E)] = 0 := rfl

theorem uses_pos (h : .obj a ∈ l) : 0 < uses a l :=
  List.countP_pos_iff.mpr ⟨.obj a, h, by simp⟩

end Uses

namespace RcHeap

variable {S E B : Type} [Holder S E B]

def count (h : RcHeap B) (a : Nat) : Nat := (h.obj a).elim 0 Counted.count

/-- An object that is in use. -/
def live (h : RcHeap B) (a : Nat) : Option B :=
  match h.obj a with
  | some o => if o.count = 0 then none else some o.body
  | none => none

def refsAt (h : RcHeap B) (a : Nat) : List (Ptr S E) := (h.live a).elim [] Holder.refs

/-- The number of references to an object from objects that are in use. -/
def held (h : RcHeap B) (a : Nat) : Nat := ∑ i ∈ Finset.range h.next, uses a (h.refsAt i)

def total (h : RcHeap B) : Nat := ∑ i ∈ Finset.range h.next, h.count i

def put (h : RcHeap B) (a : Nat) (o : Option (Counted B)) : RcHeap B :=
  { h with obj := Function.update h.obj a o }

/-- A new object with one reference to it. -/
def alloc (h : RcHeap B) (b : B) : RcHeap B :=
  { next := h.next + 1, obj := Function.update h.obj h.next (some ⟨1, b⟩) }

/-- Change what an object consists of. -/
def setBody (h : RcHeap B) (a : Nat) (b : B) : RcHeap B :=
  h.put a ((h.obj a).map fun o => { o with body := b })

/-- What a pointer leads to. -/
def deref (static : S → B) (h : RcHeap B) : Ptr S E → Comp B
  | .null => throw .null
  | .static s => pure (static s)
  | .err _ => throw .code
  | .obj a =>
    match h.obj a with
    | some o => pure o.body
    | none => throw .bounds

def getref (p : Ptr S E) (h : RcHeap B) : Comp (RcHeap B) :=
  match p with
  | .null => pure h
  | .static _ => pure h
  | .err _ => throw .code
  | .obj a =>
    match h.obj a with
    | none => throw .bounds
    | some o => if o.count = 0 then throw .assert else pure (h.put a (some { o with count := o.count + 1 }))

mutual

def putref (p : Ptr S E) (h : RcHeap B) : Comp (RcHeap B) :=
  match p with
  | .null => pure h
  | .static _ => pure h
  | .err _ => throw .code
  | .obj a =>
    match h.obj a with
    | none => throw .bounds
    | some o =>
      if o.count = 0 then throw .assert
      else if o.count = 1 then do
        -- the references are released before the memory is given back
        let h ← (by apply putrefAll : _ → _ → Comp (RcHeap B)) (Holder.refs o.body)
          (h.put a (some { o with count := 0 }))
        pure (h.put a none)
      else pure (h.put a (some { o with count := o.count - 1 }))
partial_fixpoint

def putrefAll (l : List (Ptr S E)) (h : RcHeap B) : Comp (RcHeap B) :=
  match l with
  | [] => pure h
  | p :: l => do
    let h ← (by apply putref : _ → _ → Comp (RcHeap B)) p h
    (by apply putrefAll : _ → _ → Comp _) l h
partial_fixpoint

end

/-! ## The invariant -/

/-- The counts are right, and no code stands in the place of a reference. -/
structure Balanced (h : RcHeap B) (owned : List (Ptr S E)) : Prop where
  fresh : ∀ i, h.next ≤ i → h.obj i = none
  count : ∀ a, h.count a = h.held a + uses a owned
  clean : ∀ i, ∀ p ∈ h.refsAt i, p.isErr = false
  owned : ∀ p ∈ owned, p.isErr = false

/-- The objects of the first heap that are still in use have not changed. -/
structure Keeps (h h' : RcHeap B) : Prop where
  next : h.next ≤ h'.next
  body : ∀ i < h.next, ∀ b, h'.live i = some b → h.live i = some b

section Basic

variable {h h' : RcHeap B} {a i x : Nat} {b : B} {o : Option (Counted B)}

omit [Holder S E B] in
theorem live_eq_some : h.live a = some b ↔ ∃ n, h.obj a = some ⟨n + 1, b⟩ := by
  rw [live]
  rcases h.obj a with _ | ⟨n, c⟩
  · simp
  · cases n with
    | zero => simp
    | succ n => simp

omit [Holder S E B] in
theorem live_isSome_iff : (∃ b, h.live a = some b) ↔ 0 < h.count a := by
  rw [live, count]
  rcases h.obj a with _ | ⟨n, c⟩
  · simp
  · cases n <;> simp

omit [Holder S E B] in
theorem deref_live {static : S → B} (hl : h.live a = some b) :
    h.deref static (.obj a : Ptr S E) = pure b := by
  obtain ⟨n, hn⟩ := live_eq_some.mp hl
  rw [deref, hn]

omit [Holder S E B] in
theorem obj_put_self : (h.put a o).obj a = o := Function.update_self ..

omit [Holder S E B] in
theorem obj_put_ne (hne : i ≠ a) : (h.put a o).obj i = h.obj i := Function.update_of_ne hne ..

omit [Holder S E B] in
theorem obj_alloc_self : (h.alloc b).obj h.next = some ⟨1, b⟩ := Function.update_self ..

omit [Holder S E B] in
theorem obj_alloc_ne (hne : i ≠ h.next) : (h.alloc b).obj i = h.obj i := Function.update_of_ne hne ..

omit [Holder S E B] in
theorem live_put_ne (hne : i ≠ a) : (h.put a o).live i = h.live i := by
  rw [live, live, obj_put_ne hne]

omit [Holder S E B] in
theorem count_put_self : (h.put a o).count a = o.elim 0 Counted.count := by
  rw [count, obj_put_self]

omit [Holder S E B] in
theorem count_put_ne (hne : i ≠ a) : (h.put a o).count i = h.count i := by
  rw [count, count, obj_put_ne hne]

theorem refsAt_put_ne (hne : i ≠ a) : (h.put a o).refsAt i = h.refsAt i := by
  rw [refsAt, refsAt, live_put_ne hne]

theorem refsAt_live (hl : h.live a = some b) : h.refsAt a = Holder.refs b := by
  rw [refsAt, hl]
  rfl

omit [Holder S E B] in
theorem sum_range_change {n : Nat} (ha : a < n) {f g : Nat → Nat} (hfg : ∀ i, i ≠ a → g i = f i) :
    ∑ i ∈ Finset.range n, g i + f a = ∑ i ∈ Finset.range n, f i + g a := by
  have hmem := Finset.mem_range.mpr ha
  have hrest : ∑ i ∈ (Finset.range n).erase a, g i = ∑ i ∈ (Finset.range n).erase a, f i :=
    Finset.sum_congr rfl fun i hi => hfg i (Finset.ne_of_mem_erase hi)
  rw [← Finset.add_sum_erase _ f hmem, ← Finset.add_sum_erase _ g hmem, hrest]
  omega

theorem held_put (ha : a < h.next) : (h.put a o).held x + uses x (h.refsAt a) =
    h.held x + uses x ((h.put a o).refsAt a) := by
  refine sum_range_change (f := fun i => uses x (h.refsAt i))
    (g := fun i => uses x ((h.put a o).refsAt i)) ha fun i hi => ?_
  rw [refsAt_put_ne hi]

omit [Holder S E B] in
theorem total_put (ha : a < h.next) :
    (h.put a o).total + h.count a = h.total + o.elim 0 Counted.count := by
  have hsum := sum_range_change ha (f := h.count) (g := (h.put a o).count) fun i hi => count_put_ne hi
  rw [count_put_self] at hsum
  exact hsum

omit [Holder S E B] in
theorem Keeps.refl (h : RcHeap B) : Keeps h h := ⟨le_rfl, fun _ _ _ hb => hb⟩

omit [Holder S E B] in
theorem Keeps.trans {h₁ h₂ h₃ : RcHeap B} (h₁₂ : Keeps h₁ h₂) (h₂₃ : Keeps h₂ h₃) : Keeps h₁ h₃ :=
  ⟨h₁₂.next.trans h₂₃.next, fun i hi b hb => h₁₂.body i hi b (h₂₃.body i (hi.trans_le h₁₂.next) b hb)⟩

omit [Holder S E B] in
/-- One object changes, but not what it consists of. -/
theorem Keeps.put (hk : ∀ b, (h.put a o).live a = some b → h.live a = some b) : Keeps h (h.put a o) := by
  refine ⟨le_rfl, fun i _ b hb => ?_⟩
  by_cases hi : i = a
  · subst hi
    exact hk b hb
  · rwa [live_put_ne hi] at hb

/-- Fewer objects in use hold fewer references. -/
theorem Keeps.held_le (hk : Keeps h h') (hnext : h'.next = h.next) : h'.held x ≤ h.held x := by
  rw [held, held, hnext]
  refine Finset.sum_le_sum fun i hi => ?_
  rcases hl : h'.live i with _ | b
  · rw [refsAt, hl]
    exact Nat.zero_le _
  · rw [refsAt_live hl, refsAt_live (hk.body i (Finset.mem_range.mp hi) b hl)]

end Basic

namespace Balanced

variable {h h' : RcHeap B} {a i x : Nat} {b : B} {owned owned' l l' : List (Ptr S E)} {p : Ptr S E}

theorem lt_next (hb : Balanced h owned) (hl : h.live a = some b) : a < h.next := by
  by_contra hge
  obtain ⟨n, hn⟩ := live_eq_some.mp hl
  rw [hb.fresh a (Nat.not_lt.mp hge)] at hn
  cases hn

/-- Only the references count, not their order. -/
theorem congr (hb : Balanced h owned) (huses : ∀ x, uses x owned' = uses x owned)
    (hclean : ∀ p ∈ owned', p.isErr = false) : Balanced h owned' :=
  ⟨hb.fresh, fun a => by rw [hb.count a, huses a], hb.clean, hclean⟩

theorem perm (hb : Balanced h owned) (hp : owned'.Perm owned) : Balanced h owned' :=
  hb.congr (fun _ => hp.countP_eq _) fun p hm => hb.owned p (hp.mem_iff.mp hm)

theorem live_of_owned (hb : Balanced h owned) (hm : .obj a ∈ owned) : ∃ b, h.live a = some b := by
  have := uses_pos hm
  rw [live_isSome_iff, hb.count a]
  omega

theorem live_of_held (hb : Balanced h owned) (hl : h.live i = some b) (hm : .obj a ∈ Holder.refs b) :
    ∃ b', h.live a = some b' := by
  have hpos : 0 < uses a (h.refsAt i) := by
    rw [refsAt_live hl]
    exact uses_pos hm
  have hle : uses a (h.refsAt i) ≤ h.held a :=
    Finset.single_le_sum (f := fun i => uses a (h.refsAt i)) (fun _ _ => Nat.zero_le _)
      (Finset.mem_range.mpr (hb.lt_next hl))
  rw [live_isSome_iff, hb.count a]
  omega

/-- The references of a new object are moved into it. -/
theorem alloc (hb : Balanced h (Holder.refs b ++ owned)) :
    Balanced (h.alloc b) (.obj h.next :: owned) ∧ Keeps h (h.alloc b) := by
  have hnext : h.obj h.next = none := hb.fresh _ le_rfl
  have hlive : ∀ i, i ≠ h.next → (h.alloc b).live i = h.live i := by
    intro i hi
    rw [live, live, obj_alloc_ne hi]
  have hself : (h.alloc b).live h.next = some b := by
    rw [live, obj_alloc_self]
    rfl
  have hrefs : ∀ i, i ≠ h.next → (h.alloc b).refsAt i = h.refsAt i := by
    intro i hi
    rw [refsAt, refsAt, hlive i hi]
  have hheld : ∀ x, (h.alloc b).held x = h.held x + uses x (Holder.refs b) := by
    intro x
    rw [held]
    show ∑ i ∈ Finset.range (h.next + 1), uses x ((h.alloc b).refsAt i) = _
    rw [Finset.sum_range_succ, refsAt_live hself]
    congr 1
    exact Finset.sum_congr rfl fun i hi => by rw [hrefs i (Finset.mem_range.mp hi).ne]
  refine ⟨⟨fun i hi => ?_, fun x => ?_, fun i p hp => ?_, ?_⟩, ⟨Nat.le_succ _, fun i hi c hc => ?_⟩⟩
  · have hne : i ≠ h.next := by
      have : h.next + 1 ≤ i := hi
      omega
    rw [obj_alloc_ne hne]
    exact hb.fresh i (by have : h.next + 1 ≤ i := hi; omega)
  · have hold := hb.count x
    rw [uses_append] at hold
    rw [hheld, uses_cons, uses_obj]
    by_cases hx : x = h.next
    · subst hx
      have hzero : h.count h.next = 0 := by rw [RcHeap.count, hnext]; rfl
      have hone : (h.alloc b).count h.next = 1 := by
        rw [RcHeap.count, obj_alloc_self]
        rfl
      rw [hone, if_pos rfl]
      omega
    · have hsame : (h.alloc b).count x = h.count x := by
        rw [RcHeap.count, RcHeap.count, obj_alloc_ne hx]
      rw [hsame, if_neg (Ne.symm hx)]
      omega
  · by_cases hi : i = h.next
    · rw [hi, refsAt_live hself] at hp
      exact hb.owned p (List.mem_append_left _ hp)
    · rw [hrefs i hi] at hp
      exact hb.clean i p hp
  · refine List.forall_mem_cons.mpr ⟨rfl, fun p hp => hb.owned p (List.mem_append_right _ hp)⟩
  · rwa [hlive i hi.ne] at hc

/-- One object changes: what its count gains, and what the others lose with its references. -/
theorem put (hb : Balanced h owned) (ha : a < h.next) {o : Option (Counted B)}
    (hcount : ∀ x, uses x ((h.put a o).refsAt a) + uses x owned' + (if x = a then h.count a else 0) =
      uses x (h.refsAt a) + uses x owned + (if x = a then o.elim 0 Counted.count else 0))
    (hclean : ∀ p ∈ (h.put a o).refsAt a, p.isErr = false) (howned : ∀ p ∈ owned', p.isErr = false) :
    Balanced (h.put a o) owned' := by
  refine ⟨fun i hi => ?_, fun x => ?_, fun i p hp => ?_, howned⟩
  · have hne : i ≠ a := by
      have : h.next ≤ i := hi
      omega
    rw [obj_put_ne hne]
    exact hb.fresh i hi
  · have hold := hb.count x
    have hheld := held_put (o := o) (x := x) ha
    have hx := hcount x
    by_cases hxa : x = a
    · subst hxa
      rw [if_pos rfl, if_pos rfl] at hx
      rw [count_put_self]
      omega
    · rw [if_neg hxa, if_neg hxa] at hx
      rw [count_put_ne hxa]
      omega
  · by_cases hi : i = a
    · subst hi
      exact hclean p hp
    · rw [refsAt_put_ne hi] at hp
      exact hb.clean i p hp

theorem getref (hb : Balanced h owned) (hp : p.isErr = false)
    (hl : ∀ a, p = .obj a → ∃ b, h.live a = some b) :
    ∃ h', RcHeap.getref p h = pure h' ∧ Balanced h' (p :: owned) ∧ Keeps h h' := by
  cases p with
  | null => exact ⟨h, rfl, hb.congr (fun _ => uses_cons.trans (Nat.zero_add _))
      (List.forall_mem_cons.mpr ⟨rfl, hb.owned⟩), .refl h⟩
  | static s => exact ⟨h, rfl, hb.congr (fun _ => uses_cons.trans (Nat.zero_add _))
      (List.forall_mem_cons.mpr ⟨rfl, hb.owned⟩), .refl h⟩
  | err e => cases hp
  | obj a =>
    obtain ⟨b, hlive⟩ := hl a rfl
    obtain ⟨n, hn⟩ := live_eq_some.mp hlive
    have hlive' : (h.put a (some ⟨n + 2, b⟩)).live a = some b := by
      rw [live_eq_some, obj_put_self]
      exact ⟨n + 1, rfl⟩
    have hcount : h.count a = n + 1 := by
      rw [RcHeap.count, hn]
      rfl
    refine ⟨h.put a (some ⟨n + 2, b⟩), ?_, hb.put (hb.lt_next hlive) (fun x => ?_) ?_
      (List.forall_mem_cons.mpr ⟨rfl, hb.owned⟩), .put fun c hc => ?_⟩
    · rw [RcHeap.getref, hn]
      rfl
    · rw [refsAt_live hlive', refsAt_live hlive, hcount, uses_cons, uses_obj]
      by_cases hx : x = a
      · rw [if_pos hx, if_pos hx, if_pos hx.symm]
        simp only [Option.elim_some]
        omega
      · rw [if_neg hx, if_neg hx, if_neg (Ne.symm hx)]
        omega
    · rw [refsAt_live hlive', ← refsAt_live hlive]
      exact hb.clean a
    · rw [hlive'] at hc
      rwa [hlive]

/-- An object is changed: the references that it gives up are owned, and those that it takes were. -/
theorem setBody {c : B} (hb : Balanced h (l ++ owned)) (hl : h.live a = some b)
    (huses : ∀ x, uses x (Holder.refs c) + uses x l' = uses x (Holder.refs b) + uses x l)
    (hclean : ∀ p ∈ Holder.refs c ++ l', p.isErr = false) :
    Balanced (h.setBody a c) (l' ++ owned) ∧ (h.setBody a c).live a = some c := by
  obtain ⟨n, hn⟩ := live_eq_some.mp hl
  have hset : h.setBody a c = h.put a (some ⟨n + 1, c⟩) := by
    rw [RcHeap.setBody, hn]
    rfl
  have hlive : (h.put a (some ⟨n + 1, c⟩)).live a = some c := by
    rw [live_eq_some, obj_put_self]
    exact ⟨n, rfl⟩
  have hcount : h.count a = n + 1 := by
    rw [RcHeap.count, hn]
    rfl
  rw [hset]
  refine ⟨hb.put (hb.lt_next hl) (fun x => ?_) (fun p hp => ?_) fun p hp => ?_, hlive⟩
  · have hx := huses x
    rw [refsAt_live hlive, refsAt_live hl, hcount, uses_append, uses_append]
    simp only [Option.elim_some]
    omega
  · rw [refsAt_live hlive] at hp
    exact hclean p (List.mem_append_left _ hp)
  · rcases List.mem_append.mp hp with hp | hp
    · exact hclean p (List.mem_append_right _ hp)
    · exact hb.owned p (List.mem_append_right _ hp)

end Balanced

/-! ## Releasing references -/

section Putref

variable {h : RcHeap B} {owned l : List (Ptr S E)} {p : Ptr S E}

theorem putrefAll_nil (h : RcHeap B) : putrefAll ([] : List (Ptr S E)) h = pure h := by
  rw [putrefAll.eq_def]

theorem putrefAll_cons (p : Ptr S E) (l : List (Ptr S E)) (h : RcHeap B) :
    putrefAll (p :: l) h = (putref p h >>= fun h => putrefAll l h) := by
  rw [putrefAll.eq_def]

/-- One reference is released; `ih` is for the references that the object holds. -/
theorem putref_obj {a : Nat} {b : B} (hb : Balanced h (.obj a :: owned)) (hl : h.live a = some b)
    (ih : ∀ m < h.total, ∀ (l : List (Ptr S E)) (h' : RcHeap B), Balanced h' (l ++ owned) →
      h'.total = m → ∃ h'', putrefAll l h' = pure h'' ∧ Balanced h'' owned ∧ Keeps h' h'' ∧
        h''.next = h'.next ∧ h''.total ≤ h'.total) :
    ∃ h', putref (.obj a) h = pure h' ∧ Balanced h' owned ∧ Keeps h h' ∧ h'.next = h.next ∧
      h'.total < h.total := by
  have ha := hb.lt_next hl
  have howned : ∀ p ∈ owned, p.isErr = false := fun p hp => hb.owned p (List.mem_cons_of_mem _ hp)
  obtain ⟨n, hn⟩ := live_eq_some.mp hl
  have hcount : h.count a = n + 1 := by
    rw [RcHeap.count, hn]
    rfl
  cases n with
  | zero =>
    -- the object is not in use any more, and what it holds is owned by `putref`
    set h1 := h.put a (some ⟨0, b⟩) with hh1
    have hdead : h1.live a = none := by
      rw [live, obj_put_self]
      rfl
    have hrefs1 : h1.refsAt a = [] := by
      rw [refsAt, hdead]
      rfl
    have hb1 : Balanced h1 (Holder.refs b ++ owned) := by
      refine hb.put ha (fun x => ?_) (by rw [hrefs1]; simp) fun p hp => ?_
      · rw [hrefs1, refsAt_live hl, hcount, uses_append, uses_cons, uses_obj, uses_nil]
        by_cases hx : x = a
        · rw [if_pos hx, if_pos hx, if_pos hx.symm]
          simp only [Option.elim_some]
          omega
        · rw [if_neg hx, if_neg hx, if_neg (Ne.symm hx)]
          omega
      · rcases List.mem_append.mp hp with hp | hp
        · exact hb.clean a p (by rwa [refsAt_live hl])
        · exact howned p hp
    have htotal1 : h1.total + 1 = h.total := by
      have := total_put (o := some ⟨0, b⟩) ha
      rw [hcount] at this
      exact this
    obtain ⟨h2, hrun2, hb2, hk2, hnext2, htotal2⟩ := ih h1.total (by omega) _ h1 hb1 rfl
    have hzero : h2.count a = 0 := by
      have hc1 := hb1.count a
      have hc2 := hb2.count a
      have hle := hk2.held_le (x := a) hnext2
      rw [hh1, count_put_self, ← hh1, uses_append] at hc1
      simp only [Option.elim_some] at hc1
      omega
    have hnone : h2.live a = none := by
      rcases hl2 : h2.live a with _ | c
      · rfl
      · have := live_isSome_iff.mp ⟨c, hl2⟩
        omega
    have hrefs2 : h2.refsAt a = [] := by
      rw [refsAt, hnone]
      rfl
    have hlive3 : (h2.put a none).live a = none := by rw [live, obj_put_self]
    have hrefs3 : (h2.put a none).refsAt a = [] := by
      rw [refsAt, hlive3]
      rfl
    have ha2 : a < h2.next := hnext2 ▸ ha
    refine ⟨h2.put a none, ?_, ?_, ?_, hnext2, ?_⟩
    · rw [putref.eq_def]
      dsimp only
      rw [hn]
      dsimp only
      rw [if_neg (by omega), if_pos rfl, hrun2, pure_bind]
    · refine hb2.put ha2 (fun x => ?_) (by rw [hrefs3]; simp) howned
      rw [hrefs3, hrefs2, hzero]
      rfl
    · refine (Keeps.put fun c hc => ?_).trans (hk2.trans (.put fun c hc => ?_))
      · rw [hdead] at hc
        cases hc
      · rw [hlive3] at hc
        cases hc
    · have := total_put (o := none) ha2
      rw [hzero, Option.elim_none] at this
      omega
  | succ n =>
    have hlive1 : (h.put a (some ⟨n + 1, b⟩)).live a = some b := by
      rw [live_eq_some, obj_put_self]
      exact ⟨n, rfl⟩
    refine ⟨h.put a (some ⟨n + 1, b⟩), ?_, hb.put ha (fun x => ?_) ?_ howned, .put fun c hc => ?_, rfl, ?_⟩
    · rw [putref.eq_def]
      dsimp only
      rw [hn]
      dsimp only
      rw [if_neg (by omega), if_neg (by omega)]
      rfl
    · rw [refsAt_live hlive1, refsAt_live hl, hcount, uses_cons, uses_obj]
      by_cases hx : x = a
      · rw [if_pos hx, if_pos hx, if_pos hx.symm]
        simp only [Option.elim_some]
        omega
      · rw [if_neg hx, if_neg hx, if_neg (Ne.symm hx)]
        omega
    · rw [refsAt_live hlive1, ← refsAt_live hl]
      exact hb.clean a
    · rw [hlive1] at hc
      rwa [hl]
    · have htotal : (h.put a (some ⟨n + 1, b⟩)).total + h.count a = h.total + (n + 1) := total_put ha
      omega

/-- Every reference that is released makes the sum of all counts smaller. -/
theorem putrefAll_total (n : Nat) : ∀ (l : List (Ptr S E)) (h : RcHeap B) (owned : List (Ptr S E)),
    h.total ≤ n → Balanced h (l ++ owned) →
    ∃ h', putrefAll l h = pure h' ∧ Balanced h' owned ∧ Keeps h h' ∧ h'.next = h.next ∧
      h'.total ≤ h.total := by
  induction n using Nat.strong_induction_on with
  | _ n ihn =>
  intro l
  induction l with
  | nil => exact fun h owned _ hb => ⟨h, putrefAll_nil h, hb, .refl h, rfl, le_rfl⟩
  | cons p l ihl =>
    intro h owned hn hb
    -- NULL and static objects are passed over
    have hskip : putref p h = pure h → (∀ x, uses x [p] = 0) →
        ∃ h', putrefAll (p :: l) h = pure h' ∧ Balanced h' owned ∧ Keeps h h' ∧ h'.next = h.next ∧
          h'.total ≤ h.total := by
      intro hrun huses
      rw [putrefAll_cons, hrun, pure_bind]
      refine ihl h owned hn (hb.congr (fun x => ?_) fun q hq => hb.owned q (List.mem_cons_of_mem _ hq))
      rw [List.cons_append, uses_cons, huses x, Nat.zero_add]
    cases p with
    | null => exact hskip (by rw [putref.eq_def]) fun _ => rfl
    | static s => exact hskip (by rw [putref.eq_def]) fun _ => rfl
    | err e => cases hb.owned _ List.mem_cons_self
    | obj a =>
      obtain ⟨b, hlive⟩ := hb.live_of_owned List.mem_cons_self
      obtain ⟨h1, hrun, hb1, hk1, hnext1, htotal1⟩ := putref_obj hb hlive fun m hm l' h' hb' ht =>
        ihn m (hm.trans_le hn) l' h' (l ++ owned) ht.le hb'
      rw [putrefAll_cons, hrun, pure_bind]
      obtain ⟨h2, hrun2, hb2, hk2, hnext2, htotal2⟩ := ihl h1 owned (htotal1.le.trans hn) hb1
      exact ⟨h2, hrun2, hb2, hk1.trans hk2, hnext2.trans hnext1, htotal2.trans htotal1.le⟩

theorem Balanced.putrefAll (hb : Balanced h (l ++ owned)) :
    ∃ h', RcHeap.putrefAll l h = pure h' ∧ Balanced h' owned ∧ Keeps h h' := by
  obtain ⟨h', hrun, hb', hk, -, -⟩ := putrefAll_total h.total l h owned le_rfl hb
  exact ⟨h', hrun, hb', hk⟩

/-- A reference that is owned is released. -/
theorem Balanced.putref (hb : Balanced h (p :: owned)) :
    ∃ h', RcHeap.putref p h = pure h' ∧ Balanced h' owned ∧ Keeps h h' := by
  obtain ⟨h', hrun, hb', hk⟩ := Balanced.putrefAll (l := [p]) hb
  refine ⟨h', ?_, hb', hk⟩
  rw [putrefAll_cons] at hrun
  simpa only [putrefAll_nil, bind_pure] using hrun

end Putref

end RcHeap

end Libjeffpc.Lib
