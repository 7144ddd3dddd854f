import Libjeffpc.Nvl.NvMap
import Libjeffpc.Tree.Proofs.FlavourProofs

/-!
# An nvlist is a finite map

`Holds` ties the tree of one nvlist to a map, `Related` the whole heap to all maps: no two nvlists
share a pair, and all pairs are allocated, so a new pair is in none of them. A call on one nvlist
leaves the others alone, which is what lets `nvl_merge` walk one nvlist while it changes another.
-/

set_option linter.unusedSectionVars false

namespace Libjeffpc.Nvl

open Lib Libjeffpc.Tree

variable {N A M : Type} [DecidableEq N] [DecidableEq A] [TreeMem A M] [LawfulTreeMem A M]

/-- The nvlist `nvl`, whose tree has the shape `s`, contains `map`. -/
structure Holds (h : Heap N A M) (nvl : N) (s : BTree A) (map : NvMap N) : Prop where
  trees : h.trees nvl = some (s.ptr, s.size)
  repr : Repr h.mem none s
  nodup : s.toList.Nodup
  balanced : RbBalanced s
  increasing : Increasing strcmp h.name s.toList
  live : ∀ p ∈ s.toList, p ∈ h.live
  entry : ∀ name v, map name = some v ↔ ∃ p ∈ s.toList, h.name p = name ∧ h.value p = v

/-- The heap contains the maps of `σ`. -/
structure Related (h : Heap N A M) (σ : NvState N) (shape : N → BTree A) : Prop where
  holds : ∀ nvl map, σ nvl = some map → Holds h nvl (shape nvl) map
  absent : ∀ nvl, σ nvl = none → shape nvl = .nil
  disjoint : ∀ n m, n ≠ m → ∀ p ∈ (shape n).toList, p ∉ (shape m).toList

section One

variable {h h' : Heap N A M} {nvl : N} {s : BTree A} {map : NvMap N} {name : CStr}

theorem Holds.rep (hh : Holds h nvl s map) : Rep ⟨s.ptr, s.size, h.mem⟩ s := ⟨rfl, hh.repr, hh.nodup⟩

theorem Holds.values_eq (hh : Holds h nvl s map) :
    values h nvl = pure ⟨s.ptr, s.size, h.mem⟩ := by
  rw [values, hh.trees]
  rfl

/-- The pair with a name is unique. -/
theorem Holds.name_inj (hh : Holds h nvl s map) {p q : A} (hp : p ∈ s.toList) (hq : q ∈ s.toList)
    (hpq : h.name p = h.name q) : p = q :=
  hh.increasing.eq_of_cmp strcmp_isCmp hp hq (strcmp_eq_zero.mpr hpq)

theorem Holds.map_eq (hh : Holds h nvl s map) {p : A} (hp : p ∈ s.toList) :
    map (h.name p) = some (h.value p) := (hh.entry _ _).mpr ⟨p, hp, rfl, rfl⟩

theorem Holds.find_eq (hh : Holds h nvl s map) (name : CStr) : find h nvl name = (do
    let (pair, _) ← treeFind strcmp h.name ⟨s.ptr, s.size, h.mem⟩ name none
    pure pair) := by
  rw [find, hh.values_eq, pure_bind]
  rfl

theorem Holds.find_spec (hh : Holds h nvl s map) (name : CStr) :
    (∃ p, find h nvl name = pure (some p) ∧ p ∈ s.toList ∧ h.name p = name ∧
      map name = some (h.value p)) ∨
    (find h nvl name = pure none ∧ map name = none ∧ ∀ p ∈ s.toList, h.name p ≠ name) := by
  rw [hh.find_eq]
  rcases treeFind_spec strcmp_isCmp hh.rep hh.increasing name none with ⟨p, hf, hp, h0⟩ | ⟨k, hf, hs, hk⟩
  · have hname : h.name p = name := (strcmp_eq_zero.mp h0).symm
    exact Or.inl ⟨p, by rw [hf]; rfl, hp, hname, hname ▸ hh.map_eq hp⟩
  · have hno : ∀ p ∈ s.toList, h.name p ≠ name := by
      intro p hp he
      rw [hs] at hp
      exact hk.ne hp (strcmp_eq_zero.mpr he.symm)
    refine Or.inr ⟨by rw [hf]; rfl, ?_, hno⟩
    cases hm : map name with
    | none => rfl
    | some v =>
      obtain ⟨p, hp, hpn, -⟩ := (hh.entry name v).mp hm
      exact absurd hpn (hno p hp)

/-- What happens outside of an nvlist does not change it. -/
theorem Holds.frame (hh : Holds h nvl s map) (ht : h'.trees nvl = h.trees nvl)
    (hm : ∀ p ∈ s.toList, (∀ d, child h'.mem p d = child h.mem p d) ∧
      getParent h'.mem p = getParent h.mem p ∧ getExtra h'.mem p = getExtra h.mem p)
    (hn : ∀ p ∈ s.toList, h'.name p = h.name p) (hv : ∀ p ∈ s.toList, h'.value p = h.value p)
    (hl : ∀ p ∈ s.toList, p ∈ h'.live) : Holds h' nvl s map where
  trees := ht.trans hh.trees
  repr := hh.repr.frame hm
  nodup := hh.nodup
  balanced := hh.balanced
  increasing := hh.increasing.congr hn
  live := hl
  entry name v := by
    rw [hh.entry]
    constructor
    · rintro ⟨p, hp, h1, h2⟩
      exact ⟨p, hp, (hn p hp).trans h1, (hv p hp).trans h2⟩
    · rintro ⟨p, hp, h1, h2⟩
      exact ⟨p, hp, (hn p hp).symm.trans h1, (hv p hp).symm.trans h2⟩

/-- The value of a pair is replaced. -/
theorem Holds.replace (hh : Holds h nvl s map) {p : A} (hp : p ∈ s.toList) (v : Value N) :
    Holds { h with value := Function.update h.value p v } nvl s (map.set (h.name p) v) := by
  refine ⟨hh.trees, hh.repr, hh.nodup, hh.balanced, hh.increasing, hh.live, fun name w => ?_⟩
  by_cases hname : name = h.name p
  · subst hname
    rw [NvMap.set, Function.update_self]
    constructor
    · rintro ⟨⟩
      exact ⟨p, hp, rfl, Function.update_self ..⟩
    · rintro ⟨q, hq, hqn, hqv⟩
      obtain rfl := hh.name_inj hq hp hqn
      simpa using hqv
  · rw [NvMap.set, Function.update_of_ne hname, hh.entry]
    refine exists_congr fun q => and_congr_right fun hq => and_congr_right fun hqn => ?_
    have hqp : q ≠ p := by
      rintro rfl
      exact hname hqn.symm
    show h.value q = w ↔ Function.update h.value p v q = w
    rw [Function.update_of_ne hqp]

end One

section Set

variable {h : Heap N A M} {σ : NvState N} {shape : N → BTree A} {nvl : N} {map : NvMap N}
  (alloc : Allocator A)

/-- The other nvlists when one nvlist gets a new shape and a new map. -/
theorem Related.update (hr : Related h σ shape) {h' : Heap N A M} {s' : BTree A} {map' : NvMap N}
    (hh' : Holds h' nvl s' map') (ht : ∀ m, m ≠ nvl → h'.trees m = h.trees m)
    (S : List A) (hoff : SameOff S h.mem h'.mem)
    (hname : ∀ p ∉ S, h'.name p = h.name p) (hval : ∀ p ∉ S, h'.value p = h.value p)
    (hlive : ∀ p ∉ S, p ∈ h.live → p ∈ h'.live)
    (hS : ∀ p ∈ S, p ∉ h.live ∨ p ∈ (shape nvl).toList) (hs' : ∀ p ∈ s'.toList, p ∈ S) :
    Related h' (Function.update σ nvl (some map')) (Function.update shape nvl s') := by
  have hother : ∀ m, m ≠ nvl → ∀ mp, σ m = some mp → ∀ p ∈ (shape m).toList, p ∉ S := by
    intro m hm mp hmp p hp hpS
    rcases hS p hpS with hl | hl
    · exact hl ((hr.holds m mp hmp).live p hp)
    · exact hr.disjoint m nvl hm p hp hl
  have hout : ∀ m, m ≠ nvl → ∀ p ∈ (shape m).toList, p ∉ S := by
    intro m hm p hp
    cases hσ : σ m with
    | none =>
      rw [hr.absent m hσ] at hp
      simp at hp
    | some mp => exact hother m hm mp hσ p hp
  refine ⟨fun m mp hmp => ?_, fun m hm => ?_, fun a b hab p hp hq => ?_⟩
  · by_cases hmn : m = nvl
    · subst hmn
      rw [Function.update_self] at hmp ⊢
      cases hmp
      exact hh'
    · rw [Function.update_of_ne hmn] at hmp ⊢
      have hh := hr.holds m mp hmp
      have ho := hother m hmn mp hmp
      exact hh.frame (ht m hmn) (fun p hp => hoff p (ho p hp)) (fun p hp => hname p (ho p hp))
        (fun p hp => hval p (ho p hp)) (fun p hp => hlive p (ho p hp) (hh.live p hp))
  · by_cases hmn : m = nvl
    · subst hmn
      simp at hm
    · rw [Function.update_of_ne hmn] at hm ⊢
      exact hr.absent m hm
  · by_cases ha : a = nvl
    · subst ha
      rw [Function.update_self] at hp
      rw [Function.update_of_ne (Ne.symm hab)] at hq
      exact hout b (Ne.symm hab) p hq (hs' p hp)
    · rw [Function.update_of_ne ha] at hp
      by_cases hb : b = nvl
      · subst hb
        rw [Function.update_self] at hq
        exact hout a ha p hp (hs' p hq)
      · rw [Function.update_of_ne hb] at hq
        exact hr.disjoint a b hab p hp hq

/-- What a call that sets one name in one nvlist leaves behind. -/
def SetsOne (h : Heap N A M) (σ : NvState N) (shape : N → BTree A) (nvl : N) (name : CStr)
    (v : Value N) (run : Comp (Except Errno Unit × Heap N A M)) : Prop :=
  ∃ h' s', run = pure (.ok (), h') ∧
    Related h' (σ.modify nvl (·.set name v)) (Function.update shape nvl s') ∧
    ∀ m, m ≠ nvl → ∀ p ∈ (shape m).toList, h'.name p = h.name p ∧ h'.value p = h.value p

theorem Related.modify_eq {map : NvMap N} (hn : σ nvl = some map) (f : NvMap N → NvMap N) :
    σ.modify nvl f = Function.update σ nvl (some (f map)) := by
  rw [NvState.modify, hn]
  rfl

/-- The name is there: its pair gets the value. -/
theorem doNvlSet_found (hr : Related h σ shape) (hn : σ nvl = some map) {p : A}
    (hp : p ∈ (shape nvl).toList) (v : Value N) :
    SetsOne h σ shape nvl (h.name p) v
      (pure (.ok (), { h with value := Function.update h.value p v })) := by
  have hh := hr.holds nvl map hn
  have hne : ∀ m, m ≠ nvl → ∀ q ∈ (shape m).toList, q ≠ p := by
    rintro m hm q hq rfl
    exact hr.disjoint m nvl hm q hq hp
  refine ⟨_, shape nvl, rfl, ?_, fun m hm q hq => ⟨rfl, Function.update_of_ne (hne m hm q hq) _ _⟩⟩
  rw [Related.modify_eq hn]
  refine hr.update (hh.replace hp v) (fun _ _ => rfl) (shape nvl).toList (SameOff.refl _ _)
    (fun _ _ => rfl) (fun q hq => Function.update_of_ne ?_ _ _) (fun _ _ hl => hl)
    (fun q hq => Or.inr hq) (fun _ hq => hq)
  rintro rfl
  exact hq hp

/-- The name is not there: a new pair. -/
theorem doNvlSet_new (hr : Related h σ shape) (hn : σ nvl = some map) {name : CStr}
    (hno : ∀ p ∈ (shape nvl).toList, h.name p ≠ name) (v : Value N) :
    SetsOne h σ shape nvl name v (do
      let (pair, h) ← nvlAdd alloc h nvl name
      pure (.ok (), { h with value := Function.update h.value pair v })) := by
  have hh := hr.holds nvl map hn
  set s := shape nvl with hs
  set p := alloc.1 h.live with hp
  have hfresh : p ∉ h.live := alloc.2 h.live
  have hps : ∀ m, ∀ q ∈ (shape m).toList, q ≠ p := by
    rintro m q hq rfl
    cases hm : σ m with
    | none =>
      rw [hr.absent m hm] at hq
      simp at hq
    | some mp => exact hfresh ((hr.holds m mp hm).live _ hq)
  have hnames : ∀ q ∈ s.toList, Function.update h.name p name q = h.name q := fun q hq =>
    Function.update_of_ne (hps nvl q hq) _ _
  -- the search for the new name fails, so the tree gets the new pair
  rcases (rb_isFlavour (M := M)).insert_spec strcmp_isCmp hh.rep hh.balanced
    (hh.increasing.congr hnames) p with ⟨b, -, hb, h0⟩ | ⟨-, hins⟩
  · rw [strcmp_eq_zero, Function.update_self, hnames b hb] at h0
    exact absurd h0.symm (hno b hb)
  obtain ⟨t', s', l, r, hrun, hl, hch, hinc, hnum⟩ := hins
  have hadd : nvlAdd alloc h nvl name = pure (p, setValues { h with
      live := p :: h.live
      name := Function.update h.name p name
      value := Function.update h.value p .null } nvl t') := by
    have hvals : values { h with
        live := p :: h.live
        name := Function.update h.name p name
        value := Function.update h.value p .null } nvl = pure ⟨s.ptr, s.size, h.mem⟩ := by
      rw [values, hh.trees]
      rfl
    have hrb : rbAdd strcmp (Function.update h.name p name) ⟨s.ptr, s.size, h.mem⟩ p = pure t' := by
      have hrun' : rbInsertHere strcmp (Function.update h.name p name) ⟨s.ptr, s.size, h.mem⟩ p none =
          pure (none, t') := hrun
      rw [rbAdd, hrun']
      rfl
    simp only [nvlAdd, nvpairAlloc, ← hp, hvals, pure_bind, hrb]
  have hmem : ∀ q, q ∈ s'.toList ↔ q = p ∨ q ∈ s.toList := by
    intro q
    rw [hch.list, hl]
    simp only [List.mem_append, List.mem_cons]
    tauto
  have hsize : t'.numNodes = s'.size := by
    rw [hnum, ← BTree.length_toList s', hch.list]
    have : s.size = (l ++ r).length := by rw [← hl, BTree.length_toList]
    simp only [List.length_append, List.length_cons] at this ⊢
    omega
  refine ⟨_, s', by rw [hadd, pure_bind], ?_, fun m hm q hq => ⟨?_, ?_⟩⟩
  · rw [Related.modify_eq hn]
    refine hr.update (S := p :: s.toList) ?_ ?_ hch.off (fun q hq => ?_) (fun q hq => ?_)
      (fun q _ hq => List.mem_cons_of_mem _ hq) (fun q hq => ?_) (fun q hq => ?_)
    · refine ⟨?_, hch.rep.repr, hch.rep.nodup, hch.good, by rw [hch.list]; exact hinc, ?_, ?_⟩
      · simp only [setValues, Function.update_self, hch.rep.root, hsize]
      · intro q hq
        rcases (hmem q).mp hq with rfl | hq
        · exact List.mem_cons_self
        · exact List.mem_cons_of_mem _ (hh.live q hq)
      · intro name' w
        by_cases hname : name' = name
        · subst hname
          rw [NvMap.set, Function.update_self]
          constructor
          · rintro ⟨⟩
            exact ⟨p, (hmem p).mpr (Or.inl rfl), Function.update_self .., Function.update_self ..⟩
          · rintro ⟨q, hq, hqn, hqv⟩
            rcases (hmem q).mp hq with rfl | hq
            · simpa using hqv
            · exact absurd ((hnames q hq).symm.trans hqn) (hno q hq)
        · rw [NvMap.set, Function.update_of_ne hname, hh.entry]
          constructor
          · rintro ⟨q, hq, hqn, hqv⟩
            refine ⟨q, (hmem q).mpr (Or.inr hq), (hnames q hq).trans hqn, ?_⟩
            simp [setValues, Function.update_of_ne (hps nvl q hq), hqv]
          · rintro ⟨q, hq, hqn, hqv⟩
            rcases (hmem q).mp hq with rfl | hq
            · exact absurd ((Function.update_self ..).symm.trans hqn).symm hname
            · refine ⟨q, hq, (hnames q hq).symm.trans hqn, ?_⟩
              simpa [setValues, Function.update_of_ne (hps nvl q hq)] using hqv
    · intro m hm
      simp [setValues, Function.update_of_ne hm]
    · rw [List.mem_cons, not_or] at hq
      simp [setValues, Function.update_of_ne hq.1]
    · rw [List.mem_cons, not_or] at hq
      simp [setValues, Function.update_of_ne hq.1]
    · rcases List.mem_cons.mp hq with rfl | hq
      · exact Or.inl hfresh
      · exact Or.inr hq
    · rw [List.mem_cons]
      exact (hmem q).mp hq
  · simp [setValues, Function.update_of_ne (hps m q hq)]
  · simp [setValues, Function.update_of_ne (hps m q hq)]

/-- `do_nvl_set` updates the map. -/
theorem doNvlSet_spec (hr : Related h σ shape) (hn : σ nvl = some map) (name : CStr) (v : Value N) :
    SetsOne h σ shape nvl name v (doNvlSet alloc h nvl name v) := by
  rw [doNvlSet]
  rcases (hr.holds nvl map hn).find_spec name with ⟨p, hf, hp, rfl, -⟩ | ⟨hf, -, hno⟩
  · rw [hf, pure_bind]
    exact doNvlSet_found hr hn hp v
  · rw [hf, pure_bind]
    exact doNvlSet_new alloc hr hn hno v

end Set

section Iterate

variable {h : Heap N A M} {nvl : N} {s : BTree A} {map : NvMap N}

theorem Holds.iterStart (hh : Holds h nvl s map) : nvlIterStart h nvl = pure s.toList.head? := by
  rw [nvlIterStart, hh.values_eq, pure_bind, treeFirst_spec hh.rep]

theorem Holds.iterNext (hh : Holds h nvl s map) {p : A} {l r : List A} (hl : s.toList = l ++ p :: r) :
    nvlIterNext h nvl p = pure r.head? := by
  rw [nvlIterNext, hh.values_eq, pure_bind, treeNext_spec hh.rep hl]

theorem Holds.forEach_loop (hh : Holds h nvl s map) : ∀ todo done, s.toList = done ++ todo →
    loop (fun (c : Option A × List A) => match c.1 with
      | none => (pure (.inr c.2) : Comp _)
      | some pair => do
        let next ← nvlIterNext h nvl pair
        pure (.inl (next, c.2 ++ [pair]))) (todo.head?, done) = pure s.toList := by
  intro todo
  induction todo with
  | nil =>
    intro done hd
    exact loop_done (by simp [hd])
  | cons p todo ih =>
    intro done hd
    refine (loop_next (by simp [hh.iterNext hd]; rfl)).trans ?_
    exact ih (done ++ [p]) (by simp [hd])

/-- The iteration visits the pairs in the order of the tree. -/
theorem Holds.forEach (hh : Holds h nvl s map) : nvlForEach h nvl = pure s.toList := by
  rw [nvlForEach, hh.iterStart, pure_bind]
  exact hh.forEach_loop s.toList [] rfl

/-- The nodes of a tree are the pairs of the sorted list, one by one. -/
theorem Holds.forall₂ (hh : Holds h nvl s map) {W : Type} {pairs : List (CStr × W)}
    (hsorted : Assoc.Sorted strcmp pairs)
    (hnone : ∀ name, map name = none ↔ pairs.lookup name = none) {R : Value N → W → Prop}
    (hsome : ∀ name v w, map name = some v → pairs.lookup name = some w → R v w) :
    List.Forall₂ (fun p q => h.name p = q.1 ∧ R (h.value p) q.2) s.toList pairs := by
  let entries := s.toList.map fun p => (h.name p, h.value p)
  have hentries : Assoc.Sorted strcmp entries := List.pairwise_map.mpr hh.increasing
  have hlookup : ∀ name, entries.lookup name = map name := by
    intro name
    cases hm : map name with
    | none =>
      rw [List.lookup_eq_none_iff]
      intro e he
      obtain ⟨p, hp, rfl⟩ := List.mem_map.mp he
      have hne : name ≠ h.name p := by
        rintro rfl
        rw [hh.map_eq hp] at hm
        cases hm
      simpa using hne
    | some v =>
      obtain ⟨p, hp, rfl, rfl⟩ := (hh.entry name v).mp hm
      exact hentries.lookup_of_mem strcmp_isCmp (List.mem_map_of_mem hp)
  have hkeys : s.toList.map h.name = pairs.map Prod.fst := by
    have hkeys := hentries.keys_eq strcmp_isCmp hsorted fun name => by rw [hlookup, hnone]
    simpa [entries, Function.comp_def] using hkeys
  have hlen : s.toList.length = pairs.length := by simpa using congrArg List.length hkeys
  refine List.forall₂_iff_get.mpr ⟨hlen, fun i hi hi' => ?_⟩
  have hname : h.name (s.toList.get ⟨i, hi⟩) = (pairs.get ⟨i, hi'⟩).1 := by
    have hget := congrArg (fun l => l[i]?) hkeys
    simp only [List.getElem?_map, List.getElem?_eq_getElem hi, List.getElem?_eq_getElem hi',
      Option.map_some, Option.some.injEq] at hget
    exact hget
  refine ⟨hname, hsome _ _ _ (hh.map_eq (List.get_mem _ _)) ?_⟩
  rw [hname]
  exact hsorted.lookup_of_mem strcmp_isCmp (List.get_mem _ _)

end Iterate

section Unset

variable {h : Heap N A M} {σ : NvState N} {shape : N → BTree A} {nvl : N} {map : NvMap N}

/-- The pair that is found leaves the nvlist. -/
theorem unset_found (hr : Related h σ shape) (hn : σ nvl = some map) {p : A}
    (hp : p ∈ (shape nvl).toList) :
    ∃ h' s', (do
        let t ← values h nvl
        let t ← rbRemove t p
        pure ((.ok () : Except Errno Unit), nvpairFree (setValues h nvl t) p)) = pure (.ok (), h') ∧
      Related h' (σ.modify nvl (·.unset (h.name p))) (Function.update shape nvl s') := by
  have hh := hr.holds nvl map hn
  set s := shape nvl with hs
  obtain ⟨t', s', l, r, hrun, hl, hch, hnum⟩ := rbRemove_mem hh.rep hh.balanced hp
  have hinc := hh.increasing
  have hnd := hh.nodup
  rw [hl] at hinc hnd
  have hpl : p ∉ l ++ r := (List.nodup_cons.mp (List.nodup_middle.mp hnd)).1
  have hmem : ∀ q, q ∈ s'.toList ↔ q ∈ s.toList ∧ q ≠ p := by
    intro q
    rw [hch.list, hl]
    constructor
    · intro hq
      refine ⟨by simp only [List.mem_append, List.mem_cons] at hq ⊢; tauto, ?_⟩
      rintro rfl
      exact hpl hq
    · rintro ⟨hq, hqp⟩
      simp only [List.mem_append, List.mem_cons] at hq ⊢
      tauto
  have hsize : t'.numNodes = s'.size := by
    rw [hnum, ← BTree.length_toList s', hch.list]
    have : s.size = (l ++ p :: r).length := by rw [← hl, BTree.length_toList]
    simp only [List.length_append, List.length_cons] at this ⊢
    omega
  refine ⟨_, s', by rw [hh.values_eq, pure_bind, hrun, pure_bind], ?_⟩
  rw [Related.modify_eq hn]
  refine hr.update (S := s.toList) ?_ ?_ hch.off (fun q hq => rfl) (fun q hq => rfl)
    (fun q hqs hq => ?_) (fun q hq => Or.inr hq) (fun q hq => ((hmem q).mp hq).1)
  · refine ⟨?_, hch.rep.repr, hch.rep.nodup, hch.good, by rw [hch.list]; exact hinc.remove, ?_, ?_⟩
    · simp only [nvpairFree, setValues, Function.update_self, hch.rep.root, hsize]
    · intro q hq
      obtain ⟨hqs, hqp⟩ := (hmem q).mp hq
      exact (List.mem_erase_of_ne hqp).mpr (hh.live q hqs)
    · intro name w
      by_cases hname : name = h.name p
      · subst hname
        rw [NvMap.unset, Function.update_self]
        simp only [reduceCtorEq, false_iff]
        rintro ⟨q, hq, hqn, -⟩
        obtain ⟨hqs, hqp⟩ := (hmem q).mp hq
        exact hqp (hh.name_inj hqs hp hqn)
      · rw [NvMap.unset, Function.update_of_ne hname, hh.entry]
        constructor
        · rintro ⟨q, hq, hqn, hqv⟩
          refine ⟨q, (hmem q).mpr ⟨hq, ?_⟩, hqn, hqv⟩
          rintro rfl
          exact hname hqn.symm
        · rintro ⟨q, hq, hqn, hqv⟩
          exact ⟨q, ((hmem q).mp hq).1, hqn, hqv⟩
  · intro m hm
    simp [nvpairFree, setValues, Function.update_of_ne hm]
  · refine (List.mem_erase_of_ne ?_).mpr hq
    rintro rfl
    exact hqs hp

/-- `unset` deletes from the map; where it fails, nothing changes. -/
theorem unset_spec (hr : Related h σ shape) (hn : σ nvl = some map) (name : CStr) (type : ValType)
    (matchtype : Bool) :
    ∃ h' shape', unset h nvl name type matchtype =
        pure ((specUnset σ nvl name fun v => !matchtype || v.type = type).1, h') ∧
      Related h' (specUnset σ nvl name fun v => !matchtype || v.type = type).2 shape' ∧
      ((specUnset σ nvl name fun v => !matchtype || v.type = type).1 ≠ .ok () → h' = h) := by
  have hget : σ.get nvl name = map name := by rw [NvState.get, hn]; rfl
  rw [unset]
  rcases (hr.holds nvl map hn).find_spec name with ⟨p, hf, hp, rfl, hm⟩ | ⟨hf, hm, -⟩
  · rw [hf, pure_bind]
    by_cases hbad : (matchtype && decide ((h.value p).type ≠ type)) = true
    · have hok : (!matchtype || decide ((h.value p).type = type)) = false := by
        cases matchtype <;> simp_all
      refine ⟨h, shape, ?_, ?_, fun _ => rfl⟩
      · simp only [hbad, if_true, specUnset, hget, hm, hok, Bool.false_eq_true, if_false]
      · simpa only [specUnset, hget, hm, hok, Bool.false_eq_true, if_false] using hr
    · have hok : (!matchtype || decide ((h.value p).type = type)) = true := by
        cases matchtype <;> simp_all
      obtain ⟨h', s', hrun, hrel⟩ := unset_found hr hn hp
      refine ⟨h', Function.update shape nvl s', ?_, ?_, fun hne => ?_⟩
      · simp only [hbad, Bool.false_eq_true, if_false, specUnset, hget, hm, hok, if_true]
        exact hrun
      · simpa only [specUnset, hget, hm, hok, if_true] using hrel
      · simp [specUnset, hget, hm, hok] at hne
  · rw [hf, pure_bind]
    refine ⟨h, shape, ?_, ?_, fun _ => rfl⟩
    · simp only [specUnset, hget, hm]
    · simpa only [specUnset, hget, hm] using hr

end Unset

end Libjeffpc.Nvl
