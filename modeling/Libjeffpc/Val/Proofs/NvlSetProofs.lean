import Libjeffpc.Val.Proofs.StrCatProofs
import Libjeffpc.Val.NvlSet

/-!
# What is left of an nvlist when there is no memory

The value is allocated first, then the name, then the pair. A name that cannot be allocated is noticed
by nobody: the comparison with other names looks into the code, and so does the release of the name when there is no
memory for the pair either; in an empty nvlist the pair stays, without a name.
-/

namespace Libjeffpc.Heap

open Lib Libjeffpc.Lib.RcHeap

variable {h h' : RcHeap Obj} {a n : Nat} {pairs : Pairs} {cname : CStr} {name val p : Pointer} {b : Obj}
  {given owned : List Pointer} {f : HeapM Pointer}

/-! ## Pairs in order -/

theorem valueOf_append (l r : Pairs) (m : CStr) : valueOf (l ++ r) m = (valueOf l m).or (valueOf r m) := by
  rw [valueOf, findPair, List.find?_append]
  rcases hl : l.find? fun q => strcmp m q.1 = 0 with _ | q
  · rw [valueOf, findPair, hl]
    rfl
  · rw [valueOf, findPair, hl]
    rfl

theorem valueOf_cons (q : CStr × Pointer × Pointer) (pairs : Pairs) (m : CStr) :
    valueOf (q :: pairs) m = if m = q.1 then some q.2.2 else valueOf pairs m := by
  rw [valueOf, findPair, List.find?_cons]
  by_cases hm : m = q.1
  · rw [if_pos hm, decide_eq_true (strcmp_eq_zero.mpr hm)]
    rfl
  · rw [if_neg hm, decide_eq_false (mt strcmp_eq_zero.mp hm)]
    rfl

/-- A name that is not there. -/
theorem valueOf_absent {m : CStr} (hm : ∀ q ∈ pairs, strcmp m q.1 ≠ 0) : valueOf pairs m = none := by
  rw [valueOf, findPair, List.find?_eq_none.mpr fun q hq => by rw [decide_eq_true_iff]; exact hm q hq]
  rfl

/-- All that it can do: a pair goes between the smaller names and the greater ones, or it has a new value. -/
theorem setPair_cases (cname : CStr) (name val : Pointer) (ho : Increasing strcmp Prod.fst pairs) :
    (∃ l r, pairs = l ++ r ∧ (∀ q ∈ l, 0 < strcmp cname q.1) ∧ (∀ q ∈ r, strcmp cname q.1 < 0) ∧
      setPair cname name val pairs = (l ++ (cname, name, val) :: r, none)) ∨
    (∃ l r nm old, pairs = l ++ (cname, nm, old) :: r ∧ (∀ q ∈ l, 0 < strcmp cname q.1) ∧
      setPair cname name val pairs = (l ++ (cname, nm, val) :: r, some old)) := by
  induction pairs with
  | nil => exact .inl ⟨[], [], rfl, List.forall_mem_nil _, List.forall_mem_nil _, rfl⟩
  | cons q pairs ih =>
    obtain ⟨hq, ho'⟩ := List.pairwise_cons.mp ho
    rw [setPair]
    split_ifs with hlt heq
    · refine .inl ⟨[], q :: pairs, rfl, List.forall_mem_nil _, fun r hr => ?_, rfl⟩
      exact strcmp_isCmp.lt_of_lt_of_le hlt (ho.head_le strcmp_isCmp hr)
    · obtain rfl := strcmp_eq_zero.mp heq
      exact .inr ⟨[], pairs, q.2.1, q.2.2, rfl, List.forall_mem_nil _, rfl⟩
    · have hgt : 0 < strcmp cname q.1 := by omega
      have hcons : ∀ {l : Pairs}, (∀ r ∈ l, 0 < strcmp cname r.1) → ∀ r ∈ q :: l, 0 < strcmp cname r.1 :=
        fun hl => List.forall_mem_cons.mpr ⟨hgt, hl⟩
      rcases ih ho' with ⟨l, r, rfl, hl, hr, hset⟩ | ⟨l, r, nm, old, rfl, hl, hset⟩
      · exact .inl ⟨q :: l, r, rfl, hcons hl, hr, by rw [hset]; rfl⟩
      · exact .inr ⟨q :: l, r, nm, old, rfl, hcons hl, by rw [hset]; rfl⟩

theorem valueOf_smaller {l : Pairs} (hl : ∀ q ∈ l, 0 < strcmp cname q.1) : valueOf l cname = none :=
  valueOf_absent fun q hq => (hl q hq).ne'

theorem valueOf_insert {l r : Pairs} (hl : ∀ q ∈ l, 0 < strcmp cname q.1) (m : CStr) :
    valueOf (l ++ (cname, name, val) :: r) m = if m = cname then some val else valueOf (l ++ r) m := by
  rw [valueOf_append, valueOf_append, valueOf_cons]
  by_cases hm : m = cname
  · rw [hm, if_pos rfl, if_pos rfl, valueOf_smaller hl]
    rfl
  · rw [if_neg hm, if_neg hm]

/-- What is put into an ordered nvlist, and what was there. -/
structure SetsPair (pairs : Pairs) (cname : CStr) (name val : Pointer) : Prop where
  old : (setPair cname name val pairs).2 = valueOf pairs cname
  value : ∀ m, valueOf (setPair cname name val pairs).1 m = if m = cname then some val else valueOf pairs m
  ordered : Increasing strcmp Prod.fst (setPair cname name val pairs).1
  mem : ∀ q ∈ (setPair cname name val pairs).1, q ∈ pairs ∨ (valueOf pairs cname = none ∧ q = (cname, name, val)) ∨
    ∃ old, (cname, q.2.1, old) ∈ pairs ∧ q = (cname, q.2.1, val)

theorem setsPair (cname : CStr) (name val : Pointer) (ho : Increasing strcmp Prod.fst pairs) :
    SetsPair pairs cname name val := by
  rcases setPair_cases cname name val ho with ⟨l, r, rfl, hl, hr, hset⟩ | ⟨l, r, nm, old, rfl, hl, hset⟩
  · have habsent : valueOf (l ++ r) cname = none := by
      refine valueOf_absent fun q hq => ?_
      rcases List.mem_append.mp hq with hq | hq
      · exact (hl q hq).ne'
      · exact (hr q hq).ne
    refine ⟨?_, fun m => ?_, ?_, fun q hq => ?_⟩
    · rw [hset, habsent]
    · rw [hset, valueOf_insert hl]
    · rw [hset]
      exact ho.insert strcmp_isCmp hl hr
    · rw [hset, List.mem_append, List.mem_cons] at hq
      rcases hq with hq | rfl | hq
      · exact .inl (List.mem_append_left _ hq)
      · exact .inr (.inl ⟨habsent, rfl⟩)
      · exact .inl (List.mem_append_right _ hq)
  · refine ⟨?_, fun m => ?_, ?_, fun q hq => ?_⟩
    · rw [hset, valueOf_insert hl, if_pos rfl]
    · rw [hset, valueOf_insert hl, valueOf_insert hl]
      split_ifs <;> rfl
    · rw [hset]
      have hnames : ∀ v : Pointer, (l ++ (cname, nm, v) :: r).map Prod.fst = l.map Prod.fst ++ cname :: r.map Prod.fst :=
        fun v => by rw [List.map_append, List.map_cons]
      have hmap : ∀ ps : Pairs, Increasing strcmp Prod.fst ps ↔ (ps.map Prod.fst).Pairwise fun c d => strcmp c d < 0 :=
        fun ps => by rw [Increasing, List.pairwise_map]
      rw [hmap, hnames] at ho ⊢
      exact ho
    · rw [hset, List.mem_append, List.mem_cons] at hq
      rcases hq with hq | rfl | hq
      · exact .inl (List.mem_append_left _ hq)
      · exact .inr (.inr ⟨old, List.mem_append_right _ List.mem_cons_self, rfl⟩)
      · exact .inl (List.mem_append_right _ (List.mem_cons_of_mem _ hq))

/-! ## The nvlist on the heap -/

theorem KeepsOthers.of_keeps (hk : Keeps h h') : KeepsOthers a h h' := fun i hi _ => hk.body i hi

theorem KeepsOthers.trans {h₁ : RcHeap Obj} (h01 : KeepsOthers a h h₁) (hnext : h.next ≤ h₁.next)
    (h12 : KeepsOthers a h₁ h') : KeepsOthers a h h' :=
  fun i hi hne b hb => h01 i hi hne b (h12 i (Nat.lt_of_lt_of_le hi hnext) hne b hb)

theorem next_setBody {c : Obj} : (h.setBody a c).next = h.next := rfl

theorem keepsOthers_setBody {c : Obj} : KeepsOthers a h (h.setBody a c) := by
  intro i _ hne b hb
  rwa [setBody, live_put_ne hne] at hb

theorem Holds.others (hp : Holds h p b) (hb : Balanced h owned) (hk : KeepsOthers a h h') (hne : p ≠ .obj a)
    (hl : ∀ x, p = .obj x → ∃ c, h'.live x = some c) : Holds h' p b := by
  cases p with
  | obj x =>
    obtain ⟨c, hc⟩ := hl x rfl
    have hx : x ≠ a := fun he => hne (he ▸ rfl)
    have hold := hk x (hb.lt_next hp) hx c hc
    obtain rfl : b = c := Option.some.inj (Eq.trans (Eq.symm hp) hold)
    exact hc
  | _ => exact hp

theorem NvlAt.pairs_mem {q : CStr × Pointer × Pointer} (hq : q ∈ pairs) : q.2.1 ∈ pairRefs pairs ∧ q.2.2 ∈ pairRefs pairs :=
  ⟨List.mem_flatMap.mpr ⟨q, hq, List.mem_cons_self⟩,
    List.mem_flatMap.mpr ⟨q, hq, List.mem_cons_of_mem _ List.mem_cons_self⟩⟩

/-- Names and values that were there are there as long as a pair has them. -/
theorem nvlAt_of {owned' : List Pointer} (hl : h.live a = some (.nvl pairs)) (hb : Balanced h owned) {pairs' : Pairs}
    (hk : KeepsOthers a h h') (hl' : h'.live a = some (.nvl pairs')) (hb' : Balanced h' owned')
    (ho : Increasing strcmp Prod.fst pairs') (hname : ∀ q ∈ pairs', Holds h q.2.1 (.str q.1))
    (hvalue : ∀ q ∈ pairs', ∃ b, Holds h q.2.2 b) : NvlAt h' a pairs' := by
  have hlive : ∀ p ∈ pairRefs pairs', ∀ x, p = .obj x → ∃ c, h'.live x = some c := by
    rintro p hp x rfl
    exact hb'.live_of_held hl' hp
  refine ⟨hl', ho, fun q hq => ?_, fun q hq => ?_⟩
  · refine (hname q hq).others hb hk ?_ (hlive _ (NvlAt.pairs_mem hq).1)
    intro he
    have hstr := hname q hq
    rw [he] at hstr
    have := Option.some.inj (Eq.trans (Eq.symm hl) hstr)
    cases this
  · obtain ⟨b, hv⟩ := hvalue q hq
    by_cases hne : q.2.2 = .obj a
    · rw [hne]
      exact ⟨_, hl'⟩
    · exact ⟨b, hv.others hb hk hne (hlive _ (NvlAt.pairs_mem hq).2)⟩

theorem NvlAt.keep (hat : NvlAt h a pairs) (hb : Balanced h owned) {owned' : List Pointer} (hk : Keeps h h')
    (hb' : Balanced h' owned') (hm : .obj a ∈ owned') : NvlAt h' a pairs :=
  nvlAt_of hat.live hb (.of_keeps hk) (Keeps.live_owned hk hb' hm (hb.lt_next hat.live) hat.live) hb' hat.ordered hat.name
    hat.value

theorem nvlPairs_reads (hl : h.live a = some (.nvl pairs)) : Reads (nvlPairs (.obj a)) h pairs :=
  (load_reads (p := .obj a) hl).then (reads_pure _)

theorem valPutref_null (s : State) : valPutref .null s = pure ((), s) := by
  rw [valPutref, onHeap, putref.eq_def]
  rfl

theorem setPairs_eq (a : Nat) (pairs : Pairs) (g : Nat → Bool) :
    setPairs (.obj a) pairs ⟨h, g⟩ = pure ((), ⟨h.setBody a (.nvl pairs), g⟩) := rfl

/-! ## The pairs after `setPair` -/

theorem mem_of_valueOf {m : CStr} {v : Pointer} (hv : valueOf pairs m = some v) : ∃ q ∈ pairs, q.2.2 = v := by
  obtain ⟨q, hq, rfl⟩ := Option.map_eq_some_iff.mp hv
  exact ⟨q, List.mem_of_find?_eq_some hq, rfl⟩

section Update

variable (hat : NvlAt h a pairs) (hn : valueOf pairs cname = none → Holds h name (.str cname)) (hv : Holds h val b)
include hat hn hv

omit hv in
theorem setPair_name : ∀ q ∈ (setPair cname name val pairs).1, Holds h q.2.1 (.str q.1) := by
  intro q hq
  rcases (setsPair cname name val hat.ordered).mem q hq with hq | ⟨habsent, rfl⟩ | ⟨old, hq, he⟩
  · exact hat.name q hq
  · exact hn habsent
  · rw [he]
    exact hat.name (cname, q.2.1, old) hq

omit hn in
theorem setPair_value : ∀ q ∈ (setPair cname name val pairs).1, ∃ b, Holds h q.2.2 b := by
  intro q hq
  rcases (setsPair cname name val hat.ordered).mem q hq with hq | ⟨-, rfl⟩ | ⟨old, -, he⟩
  · exact hat.value q hq
  · exact ⟨b, hv⟩
  · rw [he]
    exact ⟨b, hv⟩

theorem setPair_clean : ∀ p ∈ pairRefs (setPair cname name val pairs).1, p.isErr = false := by
  intro p hp
  obtain ⟨q, hq, hp⟩ := List.mem_flatMap.mp hp
  rcases List.mem_cons.mp hp with rfl | hp
  · exact (setPair_name hat hn q hq).ref.1
  · obtain rfl := List.mem_singleton.mp hp
    obtain ⟨c, hc⟩ := setPair_value hat hv q hq
    exact hc.ref.1

/-- The nvlist has its new pairs, and what else happens to the heap is only that objects go. -/
theorem setPair_done (hb : Balanced h given) (hk : KeepsOthers a h h')
    (hl' : h'.live a = some (.nvl (setPair cname name val pairs).1)) (hb' : Balanced h' owned) :
    NvlAt h' a (setPair cname name val pairs).1 ∧ (val ≠ .obj a → Holds h' val b) := by
  have hsets := setsPair cname name val hat.ordered
  refine ⟨nvlAt_of hat.live hb hk hl' hb' hsets.ordered (setPair_name hat hn) (setPair_value hat hv),
    fun hne => hv.others hb hk hne ?_⟩
  rintro x rfl
  obtain ⟨q, hq, he⟩ := mem_of_valueOf ((hsets.value cname).trans (if_pos rfl))
  exact hb'.live_of_held hl' (he ▸ (NvlAt.pairs_mem hq).2)

end Update

/-! ## `nvl_set` -/

/-- The name has the value. -/
def SetsTo (f : HeapM (Option Errno)) (s : State) (a : Nat) (pairs : Pairs) (cname : CStr) (val : Pointer) (b : Obj)
    (owned : List Pointer) : Prop :=
  ∃ s' pairs', f s = pure (none, s') ∧ NvlAt s'.heap a pairs' ∧ (val ≠ .obj a → Holds s'.heap val b) ∧
    (∀ n, valueOf pairs' n = if n = cname then some val else valueOf pairs n) ∧
    KeepsOthers a s.heap s'.heap ∧ s'.heap.Balanced owned

/-- There was no memory. -/
def Refuses (f : HeapM (Option Errno)) (s : State) (a : Nat) (pairs : Pairs) (owned : List Pointer) : Prop :=
  ∃ s', f s = pure (some .ENOMEM, s') ∧ NvlAt s'.heap a pairs ∧ KeepsOthers a s.heap s'.heap ∧ s'.heap.Balanced owned

theorem SetsTo.atomic {f : HeapM (Option Errno)} {s : State} (hf : SetsTo f s a pairs cname val b owned) :
    Atomic f s a pairs cname b owned := by
  obtain ⟨s', pairs', hrun, hat, hv, hvalue, ho, hb⟩ := hf
  exact .inl ⟨s', pairs', val, hrun, hat, hv, hvalue, ho, hb⟩

theorem Refuses.atomic {f : HeapM (Option Errno)} {s : State} (hf : Refuses f s a pairs owned) :
    Atomic f s a pairs cname b owned := .inr hf

theorem findPair_some {v : Pointer} (hv : valueOf pairs cname = some v) : ∃ q, findPair pairs cname = some q := by
  obtain ⟨q, hq, -⟩ := Option.map_eq_some_iff.mp hv
  exact ⟨q, hq⟩

theorem nvlSet_present {old : Pointer} (hat : NvlAt h a pairs) (hb : Balanced h (val :: owned)) (hm : .obj a ∈ owned)
    (hv : Holds h val b) (hold : valueOf pairs cname = some old) (g : Nat → Bool) :
    SetsTo (nvlSet (.obj a) cname val) ⟨h, g⟩ a pairs cname val b owned := by
  have hn : valueOf pairs cname = none → Holds h .null (.str cname) := fun habsent => by
    rw [hold] at habsent
    cases habsent
  have hsets := setsPair cname .null val hat.ordered
  have hclean := setPair_clean hat hn hv
  have huses := uses_setPair cname .null val pairs
  obtain ⟨q, hq, rfl⟩ := mem_of_valueOf hold
  obtain ⟨c, hc⟩ := hat.value q hq
  obtain ⟨f, hf⟩ := findPair_some hold
  obtain ⟨pairs', hset⟩ : ∃ pairs', setPair cname .null val pairs = (pairs', some q.2.2) :=
    ⟨_, Prod.ext rfl (hsets.old.trans hold)⟩
  have hdone := fun h' => @setPair_done h h' a pairs cname .null val b (val :: owned) owned hat hn hv hb
  simp only [hset] at hclean huses hdone
  have hvalue := hsets.value
  rw [hset] at hvalue
  obtain ⟨hb1, hl1⟩ := @Balanced.setBody _ _ _ _ _ _ _ _ [val] [q.2.2] (.nvl pairs') hb hat.live huses
    (List.forall_mem_append.mpr ⟨hclean, List.forall_mem_singleton.mpr hc.ref.1⟩)
  obtain ⟨h2, hput, hb2, hk2⟩ := valPutref_eq hb1
  have hl2 : h2.live a = some (.nvl pairs') := Keeps.live_owned hk2 hb2 hm (hb1.lt_next hl1) hl1
  have hk : KeepsOthers a h h2 := keepsOthers_setBody.trans next_setBody.ge (.of_keeps hk2)
  obtain ⟨hat2, hv2⟩ := hdone h2 hk hl2 hb2
  refine ⟨⟨h2, g⟩, pairs', ?_, hat2, hv2, hvalue, hk, hb2⟩
  rw [nvlSet, (nvlPairs_reads hat.live).bind]
  simp only [hf]
  rw [doNvlSet, (nvlPairs_reads hat.live).bind]
  simp only [hset]
  rw [bind_run (valPutref_null _), bind_run (setPairs_eq a pairs' g), bind_run (hput g)]
  rfl

theorem findPair_none (hv : valueOf pairs cname = none) : findPair pairs cname = none := Option.map_eq_none_iff.mp hv

theorem valCstr_str {s : CStr} (hp : Holds h p (.str s)) : Reads (valCstr p) h s :=
  (load_reads hp).then (reads_pure _)

theorem rbAdd_eq (hn : Holds h name (.str cname)) (pairs : Pairs) (g : Nat → Bool) :
    rbAdd (.obj a) cname name val pairs ⟨h, g⟩ = pure ((), ⟨h.setBody a (.nvl (setPair cname name val pairs).1), g⟩) := by
  cases pairs with
  | nil => rfl
  | cons q pairs =>
    show (valCstr name >>= fun _ => setPairs _ _) _ = _
    rw [(valCstr_str hn).bind]
    rfl

/-- The pair comes after the name. -/
theorem nvlSet_absent {s : State} {g : Nat → Bool} (hl : h.live a = some (.nvl pairs)) (habsent : valueOf pairs cname = none)
    (hdup : strDup cname ⟨h, g⟩ = pure (name, s)) : nvlSet (.obj a) cname val ⟨h, g⟩ = (do
      if ← request then do
        rbAdd (.obj a) cname name val pairs
        pure none
      else do
        valPutref name
        valPutref val
        pure (some .ENOMEM) : HeapM (Option Errno)) s := by
  rw [nvlSet, (nvlPairs_reads hl).bind]
  simp only [findPair_none habsent]
  rw [bind_run hdup]

section Named

variable {h₁ : RcHeap Obj} {g g₁ : Nat → Bool} (hat : NvlAt h a pairs) (hb : Balanced h (val :: owned))
  (hm : .obj a ∈ owned) (habsent : valueOf pairs cname = none)
  (hdup : strDup cname ⟨h, g⟩ = pure (name, ⟨h₁, g₁⟩)) (hb1 : Balanced h₁ (name :: val :: owned)) (hk1 : Keeps h h₁)
include hat hb hm habsent hdup hb1 hk1

/-- There is memory for the pair. -/
theorem nvlSet_named (hv : Holds h val b) (hn : Holds h₁ name (.str cname)) (hg : g₁ 0 = true) :
    SetsTo (nvlSet (.obj a) cname val) ⟨h, g⟩ a pairs cname val b owned := by
  have hmem : ∀ p ∈ val :: owned, p ∈ name :: val :: owned := fun p hp => List.mem_cons_of_mem _ hp
  have hat1 := hat.keep hb hk1 hb1 (hmem _ (List.mem_cons_of_mem _ hm))
  have hv1 : Holds h₁ val b :=
    hv.keep hb hk1 fun x he => hb1.live_of_owned (he ▸ hmem _ List.mem_cons_self)
  have hsets := setsPair cname name val hat.ordered
  have huses := uses_setPair cname name val pairs
  obtain ⟨pairs', hset⟩ : ∃ pairs', setPair cname name val pairs = (pairs', none) :=
    ⟨_, Prod.ext rfl (hsets.old.trans habsent)⟩
  have hclean := setPair_clean hat1 (fun _ => hn) hv1
  have hvalue := hsets.value
  have hdone := fun h' => @setPair_done h₁ h' a pairs cname name val b _ owned hat1 (fun _ => hn) hv1 hb1
  rw [hset] at huses hclean hvalue hdone
  obtain ⟨hb2, hl2⟩ := @Balanced.setBody _ _ _ _ _ _ _ _ [name, val] [] (.nvl pairs') hb1 hat1.live
    (fun x => by
      have := huses x
      show uses x (pairRefs pairs') + 0 = uses x (pairRefs pairs) + uses x [name, val]
      rw [uses_cons (l := [val])]
      omega) (List.forall_mem_append.mpr ⟨hclean, nofun⟩)
  obtain ⟨hat2, hv2⟩ := hdone _ keepsOthers_setBody hl2 hb2
  refine ⟨⟨h₁.setBody a (.nvl pairs'), fun k => g₁ (k + 1)⟩, pairs', ?_, hat2, hv2, hvalue,
    (KeepsOthers.of_keeps hk1).trans hk1.next keepsOthers_setBody, hb2⟩
  have hadd := @rbAdd_eq _ a _ _ val hn pairs fun k => g₁ (k + 1)
  rw [hset] at hadd
  rw [nvlSet_absent hat.live habsent hdup, bind_run (request_answer hg), if_pos rfl, bind_run hadd]
  rfl

/-- There is no memory for the pair. -/
theorem nvlSet_pair_refused (hg : g₁ 0 = false) : Refuses (nvlSet (.obj a) cname val) ⟨h, g⟩ a pairs owned := by
  obtain ⟨h2, hput2, hb2, hk2⟩ := valPutref_eq hb1
  obtain ⟨h3, hput3, hb3, hk3⟩ := valPutref_eq hb2
  have hk : Keeps h h3 := hk1.trans (hk2.trans hk3)
  refine ⟨⟨h3, fun k => g₁ (k + 1)⟩, ?_, hat.keep hb hk hb3 hm, .of_keeps hk, hb3⟩
  rw [nvlSet_absent hat.live habsent hdup, bind_run (request_answer hg), if_neg Bool.false_ne_true,
    bind_run (hput2 _), bind_run (hput3 _)]
  rfl

end Named

theorem live_setBody {c : Obj} (hl : h.live a = some c) (b : Obj) : (h.setBody a b).live a = some b := by
  obtain ⟨n, hn⟩ := live_eq_some.mp hl
  rw [live_eq_some]
  exact ⟨n, by rw [setBody, hn, obj_put_self]; rfl⟩

/-- What must not happen: an error, or an nvlist that is none. -/
def Corrupts (f : HeapM (Option Errno)) (s : State) (a : Nat) : Prop :=
  ∀ r s', f s = pure (r, s') → r = none ∧ ∀ pairs, ¬ NvlAt s'.heap a pairs

theorem Corrupts.not_atomic {f : HeapM (Option Errno)} {s : State} (hf : Corrupts f s a) :
    ¬ Atomic f s a pairs cname b owned := by
  rintro (⟨s', pairs', v, hrun, hat, -⟩ | ⟨s', hrun, -⟩)
  · exact (hf _ _ hrun).2 _ hat
  · cases (hf _ _ hrun).1

theorem Corrupts.of_throw {f : HeapM (Option Errno)} {s : State} {e : Fault} (hf : f s = throw e) : Corrupts f s a := by
  intro r s' hrun
  rw [hf] at hrun
  cases hrun

section Unnamed

variable {h₁ : RcHeap Obj} {g g₁ : Nat → Bool} {e : Errno} (hl : h.live a = some (.nvl pairs))
  (habsent : valueOf pairs cname = none) (hdup : strDup cname ⟨h, g⟩ = pure (.err e, ⟨h₁, g₁⟩))
include hl habsent hdup

/-- The name is a code, and it is looked at. -/
theorem nvlSet_crash (hg : pairs ≠ [] ∨ g₁ 0 = false) : nvlSet (.obj a) cname val ⟨h, g⟩ = throw .code := by
  rw [nvlSet_absent hl habsent hdup]
  cases hg0 : g₁ 0 with
  | true =>
    obtain ⟨q, rest, rfl⟩ := List.exists_cons_of_ne_nil (hg.resolve_right fun h0 => by rw [hg0] at h0; cases h0)
    rw [bind_run (request_answer hg0), if_pos rfl]
    rfl
  | false =>
    rw [bind_run (request_answer hg0), if_neg Bool.false_ne_true]
    refine run_throw ?_
    rw [valPutref, onHeap, putref.eq_def]
    rfl

/-- The only pair has a code for its name. -/
theorem nvlSet_coded (hnil : pairs = []) (hg : g₁ 0 = true) : nvlSet (.obj a) cname val ⟨h, g⟩ =
    pure (none, ⟨h₁.setBody a (.nvl [(cname, .err e, val)]), fun k => g₁ (k + 1)⟩) := by
  subst hnil
  rw [nvlSet_absent hl habsent hdup, bind_run (request_answer hg)]
  rfl

end Unnamed

theorem Corrupts.of_coded {f : HeapM (Option Errno)} {s s' : State} {e : Errno} (hf : f s = pure (none, s'))
    (hl : s'.heap.live a = some (.nvl [(cname, .err e, val)])) : Corrupts f s a := by
  intro r s₁ hrun
  obtain ⟨rfl, rfl⟩ := Prod.mk.inj (pure_inj (hf.symm.trans hrun))
  refine ⟨rfl, fun pairs hat => ?_⟩
  obtain rfl : [(cname, .err e, val)] = pairs := Obj.nvl.inj (Option.some.inj (hl.symm.trans hat.live))
  exact hat.name _ List.mem_cons_self

theorem nvlSet_atomic (hat : NvlAt h a pairs) (hb : Balanced h (val :: owned)) (hm : .obj a ∈ owned) (hv : Holds h val b)
    (g : Nat → Bool) (hg : valueOf pairs cname ≠ none ∨ ∀ k < strDupRequests cname, g k = true) :
    Atomic (nvlSet (.obj a) cname val) ⟨h, g⟩ a pairs cname b owned := by
  rcases hold : valueOf pairs cname with _ | old
  · obtain ⟨name, h1, hdup, hn, hb1, hk1⟩ :=
      (strDup_allocates cname hb).granted g (hg.resolve_left fun hne => hne hold)
    cases hpair : g (strDupRequests cname) with
    | true => exact (nvlSet_named hat hb hm hold hdup hb1 hk1 hv hn hpair).atomic
    | false => exact (nvlSet_pair_refused hat hb hm hold hdup hb1 hk1 hpair).atomic
  · exact (nvlSet_present hat hb hm hv hold g).atomic

theorem nvlSet_corrupts (hat : NvlAt h a pairs) (hb : Balanced h (val :: owned)) (hm : .obj a ∈ owned) {g : Nat → Bool}
    (habsent : valueOf pairs cname = none) {k : Nat} (hk : k < strDupRequests cname) (hg : g k = false) :
    Corrupts (nvlSet (.obj a) cname val) ⟨h, g⟩ a := by
  obtain ⟨h1, g1, hdup, hb1, hk1⟩ := (strDup_allocates cname hb).refused g k hk hg
  by_cases hcrash : pairs ≠ [] ∨ g1 0 = false
  · exact .of_throw (nvlSet_crash hat.live habsent hdup hcrash)
  · obtain ⟨hnil, hg1⟩ := not_or.mp hcrash
    have hl1 := (hat.keep hb hk1 hb1 (List.mem_cons_of_mem _ hm)).live
    exact .of_coded (nvlSet_coded hat.live habsent hdup (not_not.mp hnil) (Bool.eq_true_of_not_eq_false hg1))
      (live_setBody hl1 _)

/-! ## The setters -/

theorem setArg_value {s s' : State} (hf : f s = pure (p, s')) (hp : p.isErr = false) :
    setArg (.obj a) cname f s = nvlSet (.obj a) cname p s' := by
  rw [setArg, bind_run hf]
  cases p with
  | err e => cases hp
  | _ => rfl

theorem setArg_err {s s' : State} {e : Errno} (hf : f s = pure (.err e, s')) :
    setArg (.obj a) cname f s = pure (some e, s') := by
  rw [setArg, bind_run hf]
  rfl

/-- Each of them allocates the value, and then sets it. -/
theorem SetCall.Takes.run {c : SetCall} (ht : c.Takes h given b n) (hb : Balanced h (given ++ owned)) :
    ∃ f, Allocates f n b h owned ∧ ∀ g, c.run (.obj a) cname ⟨h, g⟩ = setArg (.obj a) cname f ⟨h, g⟩ := by
  cases ht with
  | set hp => exact ⟨_, .pure hp hb, fun g => (setArg_value rfl hp.ref.1).symm⟩
  | array vals => exact ⟨_, valAllocArray_allocates hb, fun _ => rfl⟩
  | arrayCopy vals => exact ⟨_, valAllocArrayDup_allocates hb, fun _ => rfl⟩
  | blob bytes => exact ⟨_, .valAlloc rfl hb, fun _ => rfl⟩
  | blobCopy bytes =>
    exact ⟨_, (Allocates.valAlloc rfl hb).request fun g => ⟨h, g, rfl, hb, .refl h⟩, fun _ => rfl⟩
  | bool v => exact ⟨valAllocBool v, .pure (p := .static (.bool v)) rfl (balanced_static hb _), fun _ => rfl⟩
  | cstrDup v => exact ⟨_, strDup_allocates v hb, fun _ => rfl⟩
  | int v =>
    refine ⟨valAllocInt v, ?_, fun _ => rfl⟩
    rw [valAllocInt]
    split_ifs with hv
    · have hobj : (Static.int ⟨v.toNat, hv⟩).obj = .int v := congrArg Obj.int UInt64.ofNat_toNat
      exact .pure hobj (balanced_static hb _)
    · exact .valAlloc rfl hb
  | null => exact ⟨valAllocNull, .pure (p := .static .null) rfl (balanced_static hb _), fun _ => rfl⟩
  | nvl hp => exact ⟨_, .pure hp hb, fun _ => rfl⟩
  | str hp => exact ⟨_, .pure hp hb, fun _ => rfl⟩

theorem Atomic.before {e e' : HeapM (Option Errno)} {g g' : Nat → Bool} (he : e ⟨h, g⟩ = e' ⟨h', g'⟩) (hk : Keeps h h')
    (ha : Atomic e' ⟨h', g'⟩ a pairs cname b owned) : Atomic e ⟨h, g⟩ a pairs cname b owned := by
  rcases ha with ⟨s, pairs', v, hrun, hat, hv, hvalue, ho, hb⟩ | ⟨s, hrun, hat, ho, hb⟩
  · exact .inl ⟨s, pairs', v, he.trans hrun, hat, hv, hvalue, (KeepsOthers.of_keeps hk).trans hk.next ho, hb⟩
  · exact .inr ⟨s, he.trans hrun, hat, (KeepsOthers.of_keeps hk).trans hk.next ho, hb⟩

theorem nvl_set_atomic_iff {c : SetCall} (ht : c.Takes h given b n) (hb : Balanced h (given ++ owned))
    (hat : NvlAt h a pairs) (hm : .obj a ∈ owned) (cname : CStr) (g : Nat → Bool) :
    Atomic (c.run (.obj a) cname) ⟨h, g⟩ a pairs cname b owned ↔
      (∃ k < n, g k = false) ∨ valueOf pairs cname ≠ none ∨ ∀ k < strDupRequests cname, g (n + k) = true := by
  obtain ⟨f, hf, hc⟩ := @SetCall.Takes.run _ a _ cname _ _ _ _ ht hb
  by_cases hg : ∀ k < n, g k = true
  · obtain ⟨p, h1, hrun, hp, hb1, hk1⟩ := hf.granted g hg
    have hat1 : NvlAt h1 a pairs := hat.keep hb hk1 hb1 (List.mem_cons_of_mem _ hm)
    have heq := (hc g).trans (setArg_value hrun hp.ref.1)
    have hno : ¬ ∃ k < n, g k = false := by simpa using hg
    rw [or_iff_right hno]
    refine ⟨fun ha => ?_, fun hcond => (nvlSet_atomic hat1 hb1 hm hp _ hcond).before heq hk1⟩
    by_contra hbad
    obtain ⟨habsent, hnames⟩ := not_or.mp hbad
    obtain ⟨k, hk, hgk⟩ : ∃ k < strDupRequests cname, g (n + k) = false := by simpa using hnames
    have hlost := nvlSet_corrupts hat1 hb1 hm (g := fun k => g (n + k)) (not_not.mp habsent) hk hgk
    refine Corrupts.not_atomic (fun r s' hr => hlost r s' ?_) ha
    rwa [heq] at hr
  · obtain ⟨k, hk, hgk⟩ : ∃ k < n, g k = false := by simpa using hg
    obtain ⟨h1, g1, hrun, hb1, hk1⟩ := hf.refused g k hk hgk
    refine iff_of_true (.inr ⟨_, (hc g).trans (setArg_err hrun), hat.keep hb hk1 hb1 hm, .of_keeps hk1, hb1⟩)
      (.inl ⟨k, hk, hgk⟩)

/-- A heap with an nvlist, which has no pairs. -/
def emptyNvl : RcHeap Obj := (⟨0, fun _ => none⟩ : RcHeap Obj).alloc (.nvl [])

theorem emptyNvl_at : NvlAt emptyNvl 0 [] := ⟨live_alloc _ _, List.Pairwise.nil, nofun, nofun⟩

theorem emptyNvl_balanced : Balanced emptyNvl [.obj 0] :=
  (@Balanced.alloc _ _ _ _ _ (Obj.nvl []) [] balanced_empty).1

/-- A heap with an nvlist, in which b has the number 1. -/
def pairNvl : RcHeap Obj :=
  (⟨0, fun _ => none⟩ : RcHeap Obj).alloc (.nvl [((cstr [98]), .static (.str (cstr [98])), .static (.int 1))])

theorem pairNvl_at :
    NvlAt pairNvl 0 [((cstr [98]), .static (.str (cstr [98])), .static (.int 1))] :=
  ⟨live_alloc _ _, List.pairwise_singleton _ _, List.forall_mem_singleton.mpr rfl,
    List.forall_mem_singleton.mpr ⟨_, rfl⟩⟩

theorem pairNvl_balanced : Balanced pairNvl [.obj 0] :=
  (@Balanced.alloc _ _ _ _ _ (Obj.nvl _) [] (balanced_static (balanced_static balanced_empty _) _)).1

/-- A new name, with memory for everything, and a name that is there, with memory for nothing. -/
theorem nvl_set_atomic_iff_pair :
    Atomic (SetCall.run (.obj 0) (cstr [97, 98]) (.int 70000)) ⟨pairNvl, fun _ => true⟩ 0
        [((cstr [98]), .static (.str (cstr [98])), .static (.int 1))] (cstr [97, 98]) (.int 70000) [.obj 0] ∧
      Atomic (SetCall.run (.obj 0) (cstr [98]) (.int 7)) ⟨pairNvl, fun _ => false⟩ 0
        [((cstr [98]), .static (.str (cstr [98])), .static (.int 1))] (cstr [98]) (.int 7) [.obj 0] :=
  ⟨(nvl_set_atomic_iff (.int 70000) pairNvl_balanced pairNvl_at List.mem_cons_self _ _).mpr
      (.inr (.inr fun _ _ => rfl)),
    (nvl_set_atomic_iff (.int 7) pairNvl_balanced pairNvl_at List.mem_cons_self _ _).mpr
      (.inr (.inl (Option.some_ne_none _)))⟩

/-- There is no memory for the name ab, and then there is memory for its pair. -/
theorem nvl_set_atomic_ab :
    ¬ Atomic (SetCall.run (.obj 0) ⟨[97, 98], by decide⟩ .null) ⟨emptyNvl, fun k => k ≠ 0⟩ 0 [] ⟨[97, 98], by decide⟩
      .null [.obj 0] := by
  have hnull : Balanced emptyNvl (.static .null :: [.obj 0]) := balanced_static emptyNvl_balanced _
  have hcorrupts : Corrupts (nvlSet (.obj 0) ⟨[97, 98], by decide⟩ (.static .null)) ⟨emptyNvl, fun k => k ≠ 0⟩ 0 :=
    nvlSet_corrupts emptyNvl_at hnull List.mem_cons_self rfl (k := 0) (by decide) rfl
  exact Corrupts.not_atomic hcorrupts

end Libjeffpc.Heap
