import Libjeffpc.Sexpr.Proofs.ListProofs
import Libjeffpc.Sexpr.Ownership
import Libjeffpc.Val.Proofs.HeapProofs

/-!
# Lists on the heap

The functions that only read the heap see what the functions on values see. `sexpr_length` gives back
the references that it takes on the way, and `sexpr_list_to_array` takes one for each element.
-/

namespace Libjeffpc.Heap

open Lib Libjeffpc.Lib.RcHeap
open Sexpr (Ref)

variable {α β : Type} {m : Mode} {h₀ h h' : RcHeap Obj} {owned : List Pointer} {p : Pointer} {v : Ref Pointer}

/-! ## Values in the heap -/

theorem InHeap.ptr_ne_null (hv : InHeap h v) (hn : v ≠ .null) : ptr v ≠ .null := by
  cases hv with
  | null => exact absurd rfl hn
  | leaf _ hp => exact hp.ne_null
  | cons hp _ _ => exact hp.ne_null
  | array hp _ => exact hp.ne_null
  | nvl hp _ _ => exact hp.ne_null

theorem InHeap.other (hv : InHeap h v) (hn : v ≠ .null) (hc : v.type ≠ some .cons) :
    ∃ b, Holds h (ptr v) b ∧ ∀ x y, b ≠ .cons x y := by
  cases hv with
  | null => exact absurd rfl hn
  | cons _ _ _ => exact absurd rfl hc
  | @leaf v b hb hp =>
    refine ⟨b, hp, ?_⟩
    rintro x y rfl
    cases v <;> cases hb
  | array hp _ => exact ⟨_, hp, nofun⟩
  | nvl hp _ _ => exact ⟨_, hp, nofun⟩

/-- A value can be referred to. -/
theorem InHeap.ref (hv : InHeap h v) :
    (ptr v).isErr = false ∧ ∀ a, ptr v = .obj a → ∃ b, h.live a = some b := by
  cases hv with
  | null => exact ⟨rfl, nofun⟩
  | leaf _ hp => exact hp.ref
  | cons hp _ _ => exact hp.ref
  | array hp _ => exact hp.ref
  | nvl hp _ _ => exact hp.ref

/-- A value whose first object is in use stays in the heap. -/
theorem InHeap.keep {owned' : List Pointer} (hv : InHeap h v) (hb : Balanced h owned) (hk : Keeps h h')
    (hb' : Balanced h' owned') (hl : ∀ a, ptr v = .obj a → ∃ c, h'.live a = some c) : InHeap h' v := by
  have hheld : ∀ {p : Pointer} {b : Obj}, Holds h' p b → ∀ x, .obj x ∈ Holder.refs b →
      ∃ c, h'.live x = some c := fun hp x hx => (hp.held hb' hx).2 x rfl
  induction hv with
  | null => exact .null
  | leaf hleaf hp => exact .leaf hleaf (hp.keep hb hk hl)
  | cons hp _ _ ihh iht =>
    have hp' := hp.keep hb hk hl
    refine .cons hp' (ihh fun a ha => hheld hp' a ?_) (iht fun a ha => hheld hp' a ?_)
    · rw [← ha]
      exact List.mem_cons_self
    · rw [← ha]
      exact List.mem_cons_of_mem _ List.mem_cons_self
  | array hp _ ih =>
    have hp' := hp.keep hb hk hl
    refine .array hp' fun w hw => ih w hw fun a ha => hheld hp' a ?_
    rw [← ha]
    exact List.mem_map_of_mem hw
  | nvl hp hqs _ ih =>
    have hp' := hp.keep hb hk hl
    refine .nvl hp' hqs fun q hq => ih q hq fun a ha => hheld hp' a ?_
    have hmem : (q.1, ptr q.2) ∈ _ := List.mem_map_of_mem (f := fun q => (q.1, ptr q.2)) hq
    rw [← hqs] at hmem
    obtain ⟨q', hq', heq⟩ := List.mem_map.mp hmem
    refine List.mem_flatMap.mpr ⟨q', hq', ?_⟩
    rw [← ha, ← (Prod.mk.inj heq).2]
    exact List.mem_cons_of_mem _ List.mem_cons_self

/-- The first object of a value that is owned. -/
theorem InHeap.keep_owned {owned' : List Pointer} (hv : InHeap h v) (hb : Balanced h owned)
    (hk : Keeps h h') (hb' : Balanced h' owned') (hm : ptr v ∈ owned') : InHeap h' v :=
  hv.keep hb hk hb' fun _ ha => hb'.live_of_owned (ha ▸ hm)

/-- A new cell takes over the references to its head and its tail. -/
theorem InHeap.alloc_cons {w : Ref Pointer} (hw : InHeap h w) (hv : InHeap h v) (hb : Balanced h (ptr w :: ptr v :: owned)) :
    InHeap (h.alloc (.cons (ptr w) (ptr v))) (.cons (.obj h.next) w v) ∧
      Balanced (h.alloc (.cons (ptr w) (ptr v))) (.obj h.next :: owned) := by
  obtain ⟨hb', hk⟩ := Balanced.alloc (b := Obj.cons (ptr w) (ptr v)) hb
  have hnew : Holds (h.alloc (.cons (ptr w) (ptr v))) (.obj h.next) (.cons (ptr w) (ptr v)) := live_alloc _ _
  have hheld : ∀ {c : Ref Pointer}, InHeap h c → ptr c ∈ [ptr w, ptr v] →
      InHeap (h.alloc (.cons (ptr w) (ptr v))) c := fun hc hm =>
    hc.keep hb hk hb' (hnew.held hb' hm).2
  exact ⟨.cons hnew (hheld hw (by simp)) (hheld hv (by simp)), hb'⟩

/-- The value stays in the heap as long as the references are owned. -/
def Stays (h : RcHeap Obj) (owned : List Pointer) (v : Ref Pointer) : Prop :=
  ∀ h' l, Keeps h h' → Balanced h' (l ++ owned) → InHeap h' v

theorem InHeap.stays (hv : InHeap h v) (hb : Balanced h owned) (hm : ptr v ∈ owned) : Stays h owned v :=
  fun _ _ hk hb' => hv.keep_owned hb hk hb' (List.mem_append_right _ hm)

namespace Stays

theorem inHeap {l : List Pointer} (hv : Stays h owned v) (hb : Balanced h (l ++ owned)) : InHeap h v :=
  hv h l (.refl h) hb

theorem keep (hv : Stays h owned v) (hk : Keeps h h') : Stays h' owned v :=
  fun h'' l hk' hb => hv h'' l (hk.trans hk') hb

theorem owns (hv : Stays h owned v) (l : List Pointer) : Stays h (l ++ owned) v := by
  intro h' l' hk hb
  rw [← List.append_assoc] at hb
  exact hv h' _ hk hb

theorem head {head tail : Ref Pointer} (hv : Stays h owned (.cons p head tail)) : Stays h owned head := by
  intro h' l hk hb
  cases hv h' l hk hb with
  | leaf hb' _ => cases hb'
  | cons _ hh _ => exact hh

theorem tail {head tail : Ref Pointer} (hv : Stays h owned (.cons p head tail)) : Stays h owned tail := by
  intro h' l hk hb
  cases hv h' l hk hb with
  | leaf hb' _ => cases hb'
  | cons _ _ ht => exact ht

theorem elem {vals : List (Ref Pointer)} (hv : Stays h owned (.array p vals)) (hw : v ∈ vals) :
    Stays h owned v := by
  intro h' l hk hb
  cases hv h' l hk hb with
  | leaf hb' _ => cases hb'
  | array _ hvals => exact hvals v hw

theorem value {pairs : List (CStr × Ref Pointer)} {q : CStr × Ref Pointer}
    (hv : Stays h owned (.nvl p pairs)) (hq : q ∈ pairs) : Stays h owned q.2 := by
  intro h' l hk hb
  cases hv h' l hk hb with
  | leaf hb' _ => cases hb'
  | nvl _ _ hpairs => exact hpairs q hq

end Stays

/-! ## Functions that read -/

theorem sexprIsNull_reads (hv : InHeap h v) : Reads (sexprIsNull (ptr v)) h (Sexpr.sexprIsNull v) := by
  cases hv with
  | null => exact reads_pure true
  | leaf hb hp =>
    rw [sexprIsNull, if_neg hp.ne_null]
    refine (load_reads hp).then ?_
    cases v <;> cases hb <;> exact reads_pure false
  | @cons p head tail hp hh ht =>
    show Reads (sexprIsNull p) h _
    rw [sexprIsNull, if_neg hp.ne_null]
    refine (load_reads hp).then ?_
    have heq : (decide (ptr head = .null) && decide (ptr tail = .null)) =
        Sexpr.sexprIsNull (.cons p head tail) := by
      have hiff : ∀ {w : Ref Pointer}, InHeap h w → decide (ptr w = .null) = w.isNone := by
        intro w hw
        cases w with
        | null => rfl
        | _ => exact decide_eq_false (hw.ptr_ne_null (by simp))
      rw [hiff hh, hiff ht]
      rfl
    rw [← heq]
    exact reads_pure _
  | @array p vals hp hv =>
    show Reads (sexprIsNull p) h _
    rw [sexprIsNull, if_neg hp.ne_null]
    exact (load_reads hp).then (reads_pure false)
  | @nvl p pairs qs hp hqs hv =>
    show Reads (sexprIsNull p) h _
    rw [sexprIsNull, if_neg hp.ne_null]
    exact (load_reads hp).then (reads_pure false)

theorem isPair_reads (hv : InHeap h v) : Reads (isPair (ptr v)) h (Sexpr.isPair v) := by
  refine (sexprIsNull_reads hv).then ?_
  cases hn : Sexpr.sexprIsNull v with
  | true =>
    have hno : Sexpr.isPair v = false := by
      by_contra hp
      have := Sexpr.not_null_of_isPair (Bool.eq_true_of_not_eq_false hp)
      rw [hn] at this
      cases this
    rw [hno]
    exact reads_pure false
  | false =>
    rw [if_neg (by simp)]
    cases hv with
    | null => cases hn
    | leaf hb hp =>
      refine (load_reads hp).then ?_
      cases v <;> cases hb <;> exact reads_pure false
    | @cons p head tail hp hh ht =>
      refine (load_reads hp).then ?_
      refine (sexprIsNull_reads hh).then ?_
      rw [Sexpr.isPair, hn]
      cases hh with
      | null => exact reads_pure false
      | leaf hb hp' =>
        cases head with
        | null => cases hb
        | cons _ _ _ => cases hb
        | array _ _ => cases hb
        | nvl _ _ => cases hb
        | _ =>
          obtain rfl := Option.some.inj hb
          exact (load_reads hp').then (reads_pure _)
      | @cons p' head' tail' hp' _ _ =>
        cases hn' : Sexpr.sexprIsNull (.cons p' head' tail') with
        | true => exact reads_pure false
        | false => exact (load_reads hp').then (reads_pure false)
      | array hp' _ => exact (load_reads hp').then (reads_pure false)
      | nvl hp' _ _ => exact (load_reads hp').then (reads_pure false)
    | array hp _ => exact (load_reads hp).then (reads_pure false)
    | nvl hp _ _ => exact (load_reads hp).then (reads_pure false)

theorem whatLoop_reads (hv : InHeap h v) : ∀ nvl, Reads (whatLoop (ptr v) nvl) h (Sexpr.whatLoop v nvl) := by
  induction hv with
  | null =>
    intro nvl
    rw [whatLoop.eq_def]
    exact (sexprIsNull_reads .null).then (reads_pure _)
  | @leaf v b hb hp =>
    intro nvl
    rw [whatLoop.eq_def]
    refine (sexprIsNull_reads (.leaf hb hp)).then ?_
    cases v with
    | null => cases hb
    | cons _ _ _ => cases hb
    | array _ _ => cases hb
    | nvl _ _ => cases hb
    | _ =>
      obtain rfl := Option.some.inj hb
      exact (load_reads hp).then (reads_pure _)
  | @cons p head tail hp hh ht _ iht =>
    intro nvl
    rw [whatLoop.eq_def, Sexpr.whatLoop]
    refine (sexprIsNull_reads (.cons hp hh ht)).then ?_
    split
    · exact reads_pure _
    · refine (load_reads hp).then ?_
      cases nvl with
      | true => exact (isPair_reads hh).then (iht _)
      | false => exact iht false
  | @array p vals hp hv _ =>
    intro nvl
    rw [whatLoop.eq_def]
    exact (sexprIsNull_reads (.array hp hv)).then ((load_reads hp).then (reads_pure _))
  | @nvl p pairs qs hp hqs hv _ =>
    intro nvl
    rw [whatLoop.eq_def]
    exact (sexprIsNull_reads (.nvl hp hqs hv)).then ((load_reads hp).then (reads_pure _))

theorem whatIsIt_reads (hv : InHeap h v) : Reads (whatIsIt (ptr v)) h (Sexpr.whatIsIt v) := by
  refine (sexprIsNull_reads hv).then ?_
  rw [Sexpr.whatIsIt]
  split
  · exact reads_pure _
  · exact whatLoop_reads hv true

/-! ## Walks with references -/

theorem InHeap.getref_runs (hv : InHeap h v) (hb : Balanced h owned) :
    Runs m h (valGetref (ptr v)) h fun r h' => r = ptr v ∧ Balanced h' (ptr v :: owned) :=
  valGetref_runs hb hv.ref.1 hv.ref.2

theorem sexprCdr_runs {head tail : Ref Pointer} (hp : Holds h p (.cons (ptr head) (ptr tail)))
    (ht : InHeap h tail) (hb : Balanced h (p :: owned)) :
    Runs m h (sexprCdr p) h fun r h' =>
      r = ptr tail ∧ InHeap h' tail ∧ Balanced h' (ptr tail :: owned) := by
  rw [sexprCdr, if_neg hp.ne_null]
  refine (load_reads hp).runs (.refl h) ?_
  refine (ht.getref_runs hb).bind fun _ h1 hk1 h1' => ?_
  obtain ⟨rfl, hb1⟩ := h1'
  refine ((valPutref_runs (hb1.perm (.swap _ _ _))).base hk1).bind fun _ h2 hk2 h2' => ?_
  exact .pure hk2 ⟨rfl, ht.keep_owned hb hk2 h2'.2 List.mem_cons_self, h2'.2⟩

/-- A walk ends, and its last reference is released. -/
theorem put_runs {q : Pointer} (r : α) (hb : Balanced h (q :: owned)) :
    Runs m h (do valPutref q; pure r) h fun r' h' => r' = r ∧ Balanced h' owned :=
  (valPutref_runs hb).bind fun _ _ hk hb' => .pure hk ⟨rfl, hb'⟩

/-- Another value is not a list. -/
theorem lengthLoop_other (len : Int) (hv : InHeap h v) (hn : v ≠ .null) (hc : v.type ≠ some .cons)
    (hb : Balanced h (ptr v :: owned)) :
    Runs m h (lengthLoop (ptr v) len) h fun r h' =>
      r = (if v.toVal.isProper then len + v.items.length else -1) ∧ Balanced h' owned := by
  obtain ⟨b, hp, hbody⟩ := hv.other hn hc
  obtain ⟨hnull, hproper⟩ : Sexpr.sexprIsNull v = false ∧ v.toVal.isProper = false := by
    cases v with
    | null => exact absurd rfl hn
    | cons _ _ _ => exact absurd rfl hc
    | _ => exact ⟨rfl, rfl⟩
  have hread := sexprIsNull_reads hv
  rw [hnull] at hread
  rw [lengthLoop.eq_def, hproper]
  refine hread.runs (.refl h) ((load_reads hp).runs (.refl h) ?_)
  cases b with
  | cons x y => exact absurd rfl (hbody x y)
  | _ => exact put_runs (-1) hb

theorem lengthLoop_runs : ∀ (v : Ref Pointer) (h : RcHeap Obj) (len : Int), InHeap h v →
    Balanced h (ptr v :: owned) → Runs m h (lengthLoop (ptr v) len) h fun r h' =>
      r = (if v.toVal.isProper then len + v.items.length else -1) ∧ Balanced h' owned
  | .cons p head tail, h, len, hv, hb => by
    cases hv with
    | leaf hb' _ => cases hb'
    | cons hp hh ht =>
    rw [lengthLoop.eq_def]
    refine (sexprIsNull_reads (.cons hp hh ht)).runs (.refl h) ?_
    cases hn : Sexpr.sexprIsNull (.cons p head tail) with
    | true =>
      have hlen : (if Val.nil.isProper then len + (([] : List (Ref Pointer)).length : Int) else -1) = len :=
        Int.add_zero len
      rw [Sexpr.toVal_eq_nil.mpr hn, Sexpr.items_empty hn, hlen]
      exact put_runs len hb
    | false =>
      rw [Sexpr.toVal_cons hn, Sexpr.items_cons hn, Val.isProper, List.length_cons]
      refine (load_reads hp).runs (.refl h) ?_
      refine (sexprCdr_runs hp ht hb).bind fun _ h1 hk1 h1' => ?_
      obtain ⟨rfl, ht1, hb1⟩ := h1'
      refine ((lengthLoop_runs tail h1 (len + 1) ht1 hb1).base hk1).mono fun r h2 h2' => ?_
      obtain ⟨-, rfl, hb2⟩ := h2'
      refine ⟨?_, hb2⟩
      split_ifs
      · push_cast
        omega
      · rfl
  | .null, h, len, hv, hb => by
    rw [lengthLoop.eq_def]
    refine (sexprIsNull_reads hv).runs (.refl h) ?_
    have hlen : (if (Ref.null : Ref Pointer).toVal.isProper
        then len + ((Ref.null : Ref Pointer).items.length : Int) else -1) = len := Int.add_zero len
    rw [hlen]
    exact put_runs len hb
  | .array _ _, _, len, hv, hb => lengthLoop_other len hv (by simp) (by simp [Sexpr.Ref.type]) hb
  | .nvl _ _, _, len, hv, hb => lengthLoop_other len hv (by simp) (by simp [Sexpr.Ref.type]) hb
  | .vtNull _, _, len, hv, hb => lengthLoop_other len hv (by simp) (by simp [Sexpr.Ref.type]) hb
  | .int _ _, _, len, hv, hb => lengthLoop_other len hv (by simp) (by simp [Sexpr.Ref.type]) hb
  | .str _ _, _, len, hv, hb => lengthLoop_other len hv (by simp) (by simp [Sexpr.Ref.type]) hb
  | .sym _ _, _, len, hv, hb => lengthLoop_other len hv (by simp) (by simp [Sexpr.Ref.type]) hb
  | .bool _ _, _, len, hv, hb => lengthLoop_other len hv (by simp) (by simp [Sexpr.Ref.type]) hb
  | .char _ _, _, len, hv, hb => lengthLoop_other len hv (by simp) (by simp [Sexpr.Ref.type]) hb
  | .blob _ _, _, len, hv, hb => lengthLoop_other len hv (by simp) (by simp [Sexpr.Ref.type]) hb

/-- The length of a list, which is still owned. -/
theorem sexprLength_runs (hv : InHeap h v) (hb : Balanced h (ptr v :: owned)) :
    Runs m h (do sexprLength (← valGetref (ptr v))) h fun r h' =>
      r = (if v.toVal.isProper then (v.items.length : Int) else -1) ∧ InHeap h' v ∧
        Balanced h' (ptr v :: owned) := by
  refine (hv.getref_runs hb).bind fun _ h1 hk1 h1' => ?_
  obtain ⟨rfl, hb1⟩ := h1'
  have hv1 := hv.keep_owned hb hk1 hb1 List.mem_cons_self
  refine ((lengthLoop_runs v h1 0 hv1 hb1).base hk1).mono fun r h2 h2' => ?_
  obtain ⟨hk12, rfl, hb2⟩ := h2'
  refine ⟨?_, hv1.keep_owned hb1 hk12 hb2 List.mem_cons_self, hb2⟩
  rw [Int.zero_add]

/-- The code of `sexpr_list_to_array` for a list of `n` cells. -/
def arrayCode (isProper : Bool) (n alen : Nat) : Option Errno :=
  if isProper ∧ n ≤ alen then none else if alen ≤ n then some .ENOMEM else some .EINVAL

theorem arrayCode_succ (isProper : Bool) (n alen : Nat) :
    arrayCode isProper (n + 1) (alen + 1) = arrayCode isProper n alen := by
  simp [arrayCode]

/-- Another value is an error, and nothing is stored for it. -/
theorem listToArray_other (alen : Nat) (hv : InHeap h v) (hn : v ≠ .null) (hc : v.type ≠ some .cons)
    (hb : Balanced h owned) :
    Runs m h (listToArrayLoop (ptr v) alen) h fun r h' =>
      r = ((v.items.take alen).map ptr, arrayCode v.toVal.isProper v.items.length alen) ∧
        Balanced h' ((v.items.take alen).map ptr ++ owned) := by
  obtain ⟨b, hp, hbody⟩ := hv.other hn hc
  obtain ⟨hnull, hproper, hitems⟩ : Sexpr.sexprIsNull v = false ∧ v.toVal.isProper = false ∧ v.items = [] := by
    cases v with
    | null => exact absurd rfl hn
    | cons _ _ _ => exact absurd rfl hc
    | _ => exact ⟨rfl, rfl, rfl⟩
  have hread := sexprIsNull_reads hv
  rw [hnull] at hread
  rw [listToArrayLoop.eq_def, hproper, hitems]
  refine hread.runs (.refl h) ?_
  cases alen with
  | zero => exact .pure (.refl h) ⟨rfl, hb⟩
  | succ alen =>
    refine (load_reads hp).runs (.refl h) ?_
    cases b with
    | cons x y => exact absurd rfl (hbody x y)
    | _ => exact .pure (.refl h) ⟨rfl, hb⟩

/-- The values that are stored, each with a new reference, and the code. -/
theorem listToArray_runs : ∀ (v : Ref Pointer) (alen : Nat) (h : RcHeap Obj) (owned : List Pointer),
    Stays h owned v → Balanced h owned →
    Runs m h (listToArrayLoop (ptr v) alen) h fun r h' =>
      r = ((v.items.take alen).map ptr, arrayCode v.toVal.isProper v.items.length alen) ∧
        Balanced h' ((v.items.take alen).map ptr ++ owned)
  | .cons p head tail, alen, h, owned, hv, hb => by
    rw [listToArrayLoop.eq_def]
    have hin := hv.inHeap (l := []) hb
    refine (sexprIsNull_reads hin).runs (.refl h) ?_
    cases hn : Sexpr.sexprIsNull (.cons p head tail) with
    | true =>
      have hcode : arrayCode Val.nil.isProper ([] : List (Ref Pointer)).length alen = none := by
        simp [arrayCode, Val.isProper]
      rw [Sexpr.toVal_eq_nil.mpr hn, Sexpr.items_empty hn, hcode, List.take_nil]
      exact .pure (.refl h) ⟨rfl, hb⟩
    | false =>
      rw [Sexpr.toVal_cons hn, Sexpr.items_cons hn, Val.isProper, List.length_cons]
      cases alen with
      | zero => exact .pure (.refl h) ⟨by simp [arrayCode], hb⟩
      | succ alen =>
        cases hin with
        | leaf hb' _ => cases hb'
        | cons hp hh ht =>
        rw [arrayCode_succ]
        refine (load_reads hp).runs (.refl h) ?_
        refine (hh.getref_runs hb).bind fun _ h1 hk1 h1' => ?_
        obtain ⟨rfl, hb1⟩ := h1'
        have hstays : Stays h1 (ptr head :: owned) tail := (hv.tail.keep hk1).owns [ptr head]
        refine ((listToArray_runs tail alen h1 _ hstays hb1).base hk1).bind fun r h2 hk2 h2' => ?_
        obtain ⟨-, rfl, hb2⟩ := h2'
        exact .pure hk2 ⟨rfl, hb2.perm List.perm_middle.symm⟩
  | .null, alen, h, owned, hv, hb => by
    have hcode : arrayCode Val.nil.isProper ([] : List (Ref Pointer)).length alen = none := by
      simp [arrayCode, Val.isProper]
    rw [listToArrayLoop.eq_def]
    refine (sexprIsNull_reads (hv.inHeap (l := []) hb)).runs (.refl h) (.pure (.refl h) ⟨?_, ?_⟩)
    · rw [show (Ref.null : Ref Pointer).items = [] from rfl, show (Ref.null : Ref Pointer).toVal = .nil from rfl,
        hcode, List.take_nil]
      rfl
    · rw [show (Ref.null : Ref Pointer).items = [] from rfl, List.take_nil]
      exact hb
  | .array _ _, alen, _, _, hv, hb =>
    listToArray_other alen (hv.inHeap (l := []) hb) (by simp) (by simp [Sexpr.Ref.type]) hb
  | .nvl _ _, alen, _, _, hv, hb =>
    listToArray_other alen (hv.inHeap (l := []) hb) (by simp) (by simp [Sexpr.Ref.type]) hb
  | .vtNull _, alen, _, _, hv, hb =>
    listToArray_other alen (hv.inHeap (l := []) hb) (by simp) (by simp [Sexpr.Ref.type]) hb
  | .int _ _, alen, _, _, hv, hb =>
    listToArray_other alen (hv.inHeap (l := []) hb) (by simp) (by simp [Sexpr.Ref.type]) hb
  | .str _ _, alen, _, _, hv, hb =>
    listToArray_other alen (hv.inHeap (l := []) hb) (by simp) (by simp [Sexpr.Ref.type]) hb
  | .sym _ _, alen, _, _, hv, hb =>
    listToArray_other alen (hv.inHeap (l := []) hb) (by simp) (by simp [Sexpr.Ref.type]) hb
  | .bool _ _, alen, _, _, hv, hb =>
    listToArray_other alen (hv.inHeap (l := []) hb) (by simp) (by simp [Sexpr.Ref.type]) hb
  | .char _ _, alen, _, _, hv, hb =>
    listToArray_other alen (hv.inHeap (l := []) hb) (by simp) (by simp [Sexpr.Ref.type]) hb
  | .blob _ _, alen, _, _, hv, hb =>
    listToArray_other alen (hv.inHeap (l := []) hb) (by simp) (by simp [Sexpr.Ref.type]) hb

theorem sexprListToArray_runs (hv : Stays h owned v) (hp : v.toVal.isProper) (hb : Balanced h owned) :
    Runs m h (sexprListToArray (ptr v) v.items.length) h fun r h' =>
      r = .ok (v.items.map ptr) ∧ Balanced h' (v.items.map ptr ++ owned) := by
  refine (listToArray_runs v v.items.length h owned hv hb).bind fun r h1 hk h1' => ?_
  obtain ⟨rfl, hb1⟩ := h1'
  rw [List.take_length] at hb1 ⊢
  rw [arrayCode, if_pos ⟨hp, le_rfl⟩]
  exact .pure hk ⟨rfl, hb1⟩

end Libjeffpc.Heap
