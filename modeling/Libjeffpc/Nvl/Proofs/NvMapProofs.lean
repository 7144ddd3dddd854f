import Libjeffpc.Nvl.Proofs.NvlProofs
import Libjeffpc.Tree.Proofs.InvariantProofs

/-!
# Runs of calls on nvlists

`nvl_merge` is a walk of one nvlist with an update of another one at every stop; the two may be the
same nvlist, and then no update changes anything. With it every call refines its specification, and
so does every run of calls.
-/

set_option linter.unusedSectionVars false

namespace Libjeffpc.Nvl

open Lib Libjeffpc.Tree

variable {N A M : Type} [DecidableEq N] [DecidableEq A] [TreeMem A M] [LawfulTreeMem A M]
  (alloc : Allocator A)

section Merge

variable {h : Heap N A M} {σ : NvState N} {shape : N → BTree A} {dest src : N}

/-- A map after the pairs of a list have been set in it. -/
def setAll (h : Heap N A M) (l : List A) (map : NvMap N) : NvMap N :=
  l.foldl (fun map p => map.set (h.name p) (h.value p)) map

theorem modify_modify (σ : NvState N) (nvl : N) (f g : NvMap N → NvMap N) :
    (σ.modify nvl f).modify nvl g = σ.modify nvl (g ∘ f) := by
  rw [NvState.modify, NvState.modify, NvState.modify, Function.update_idem, Function.update_self,
    Option.map_map]

theorem modify_self {nvl : N} {map : NvMap N} (hn : σ nvl = some map) (f : NvMap N → NvMap N) :
    (σ.modify nvl f) nvl = some (f map) := by
  rw [Related.modify_eq hn, Function.update_self]

/-- One round of `nvl_merge`. -/
def mergeRound (dest src : N) (s : Option A × Heap N A M) :
    Comp ((Option A × Heap N A M) ⊕ (Except Errno Unit × Heap N A M)) :=
  match s.1 with
  | none => pure (.inr (.ok (), s.2))
  | some spair => do
    match ← nvlSet alloc s.2 dest (s.2.name spair) (s.2.value spair) with
    | (.error e, h) => pure (.inr (.error e, h))
    | (.ok (), h) => do
      let next ← nvlIterNext h src spair
      pure (.inl (next, h))

theorem nvlMerge_eq (h : Heap N A M) (dest src : N) : nvlMerge alloc h dest src = (do
    let start ← nvlIterStart h src
    loop (mergeRound alloc dest src) (start, h)) := rfl

/-- The walk of another nvlist, by induction on the pairs that are still to come. -/
theorem mergeLoop_other (hne : src ≠ dest) {md ms : NvMap N} (todo done : List A)
    (hr : Related h σ shape) (hd : σ dest = some md) (hs : σ src = some ms)
    (hl : (shape src).toList = done ++ todo) :
    ∃ h' shape', loop (mergeRound alloc dest src) (todo.head?, h) = pure (.ok (), h') ∧
      Related h' (σ.modify dest (setAll h todo)) shape' := by
  induction todo generalizing h σ shape md done with
  | nil =>
    refine ⟨h, shape, loop_done rfl, ?_⟩
    have hsame : σ.modify dest (setAll h []) = σ := by
      rw [Related.modify_eq hd]
      exact (Function.update_eq_self_iff).mpr hd.symm
    rw [hsame]
    exact hr
  | cons p todo ih =>
    obtain ⟨h1, s1, hrun1, hr1, hkeep⟩ := doNvlSet_spec alloc hr hd (h.name p) (h.value p)
    have hsrc : (Function.update shape dest s1) src = shape src := Function.update_of_ne hne _ _
    have hs1 : (σ.modify dest (·.set (h.name p) (h.value p))) src = some ms := by
      rw [NvState.modify, Function.update_of_ne hne, hs]
    have hd1 : (σ.modify dest (·.set (h.name p) (h.value p))) dest =
        some (md.set (h.name p) (h.value p)) := by
      rw [NvState.modify, Function.update_self, hd]
      rfl
    have hnext : nvlIterNext h1 src p = pure todo.head? := by
      have := hr1.holds src ms hs1
      rw [hsrc] at this
      exact this.iterNext hl
    have hround : mergeRound alloc dest src (some p, h) = pure (.inl (todo.head?, h1)) := by
      simp only [mergeRound, nvlSet, hrun1, pure_bind, hnext]
    obtain ⟨h', shape', hrun, hr'⟩ := ih (done ++ [p]) hr1 hd1 hs1 (by rw [hsrc, hl]; simp)
    refine ⟨h', shape', (loop_next hround).trans hrun, ?_⟩
    -- the pairs to come still have their names and values
    have hset : setAll h1 todo ∘ (·.set (h.name p) (h.value p)) = setAll h (p :: todo) := by
      funext map
      refine List.foldl_ext _ _ _ fun map' q hq => ?_
      obtain ⟨hqn, hqv⟩ := hkeep src hne q (by rw [hl]; simp [hq])
      rw [hqn, hqv]
    rw [modify_modify, hset] at hr'
    exact hr'

/-- Setting the pairs of an nvlist is the union that prefers its map. -/
theorem setAll_eq_merge {s : BTree A} {ms : NvMap N} (hh : Holds h src s ms) :
    setAll h s.toList = fun map => map.merge ms := by
  have hgen : ∀ l, Increasing strcmp h.name l → ∀ (map : NvMap N) name,
      (∀ p ∈ l, h.name p = name → setAll h l map name = some (h.value p)) ∧
      ((∀ p ∈ l, h.name p ≠ name) → setAll h l map name = map name) := by
    intro l
    induction l with
    | nil => exact fun _ map name => ⟨by simp, fun _ => rfl⟩
    | cons q l ih =>
      intro hinc map name
      obtain ⟨hq, hinc'⟩ := List.pairwise_cons.mp hinc
      obtain ⟨ih1, ih2⟩ := ih hinc' (map.set (h.name q) (h.value q)) name
      refine ⟨fun p hp hpn => ?_, fun hno => ?_⟩
      · rcases List.mem_cons.mp hp with rfl | hp
        · refine (ih2 fun r hr hrn => ?_).trans ?_
          · have := hq r hr
            rw [hpn, hrn, strcmp_isCmp.refl] at this
            omega
          · rw [hpn, NvMap.set, Function.update_self]
        · exact ih1 p hp hpn
      · refine (ih2 fun p hp => hno p (List.mem_cons_of_mem _ hp)).trans ?_
        exact Function.update_of_ne (Ne.symm (hno q List.mem_cons_self)) _ _
  funext map name
  obtain ⟨h1, h2⟩ := hgen s.toList hh.increasing map name
  cases hm : ms name with
  | none =>
    rw [NvMap.merge, hm, Option.none_or]
    refine h2 fun p hp hpn => ?_
    have := hh.map_eq hp
    rw [hpn, hm] at this
    simp at this
  | some v =>
    obtain ⟨p, hp, hpn, rfl⟩ := (hh.entry name v).mp hm
    rw [NvMap.merge, hm, h1 p hp hpn]
    rfl

/-- The walk of the nvlist that is changed: it sets every pair to what it is. -/
theorem mergeLoop_self {md : NvMap N} (hr : Related h σ shape) (hd : σ dest = some md)
    (todo done : List A) (hl : (shape dest).toList = done ++ todo) :
    loop (mergeRound alloc dest dest) (todo.head?, h) = pure (.ok (), h) := by
  have hh := hr.holds dest md hd
  induction todo generalizing done with
  | nil => exact loop_done rfl
  | cons p todo ih =>
    have hp : p ∈ (shape dest).toList := by rw [hl]; simp
    have hset : nvlSet alloc h dest (h.name p) (h.value p) = pure (.ok (), h) := by
      rw [nvlSet, doNvlSet]
      rcases hh.find_spec (h.name p) with ⟨q, hf, hq, hqn, -⟩ | ⟨-, -, hno⟩
      · obtain rfl := hh.name_inj hq hp hqn
        rw [hf, pure_bind]
        simp
      · exact absurd rfl (hno p hp)
    have hround : mergeRound alloc dest dest (some p, h) = pure (.inl (todo.head?, h)) := by
      simp only [mergeRound, hset, pure_bind, hh.iterNext hl]
    exact (loop_next hround).trans (ih (done ++ [p]) (by rw [hl]; simp))

theorem NvMap.merge_self (map : NvMap N) : map.merge map = map := by
  funext name
  rw [NvMap.merge, Option.or_self]

theorem NvMap.merge_merge (dest src : NvMap N) : (dest.merge src).merge src = dest.merge src := by
  funext name
  rw [NvMap.merge, NvMap.merge]
  cases src name <;> rfl

theorem nvlMerge_spec (hr : Related h σ shape) {md ms : NvMap N} (hd : σ dest = some md)
    (hs : σ src = some ms) :
    ∃ h' shape', nvlMerge alloc h dest src = pure (.ok (), h') ∧
      Related h' (σ.modify dest (·.merge ms)) shape' := by
  have hh := hr.holds src ms hs
  rw [nvlMerge_eq, hh.iterStart, pure_bind]
  by_cases hne : src = dest
  · subst hne
    obtain rfl : md = ms := Option.some_inj.mp (hd.symm.trans hs)
    refine ⟨h, shape, mergeLoop_self alloc hr hd _ [] rfl, ?_⟩
    rw [Related.modify_eq hd, NvMap.merge_self, Function.update_eq_self_iff.mpr hd.symm]
    exact hr
  · rw [← setAll_eq_merge hh]
    exact mergeLoop_other alloc hne _ [] hr hd hs rfl

end Merge

section Run

variable {h : Heap N A M} {σ : NvState N} {shape : N → BTree A}

theorem execSet_eq (h : Heap N A M) (nvl : N) (name : CStr) (setter : Setter N) :
    execSet alloc h nvl name setter = doNvlSet alloc h nvl name setter.value := by
  cases setter <;> rfl

theorem nvlAlloc_spec (hr : Related h σ shape) (nvl : N) :
    Related (nvlAlloc h nvl) (Function.update σ nvl (some fun _ => none))
      (Function.update shape nvl .nil) := by
  refine hr.update (S := []) ?_ (fun m hm => ?_) (SameOff.refl _ _) (fun _ _ => rfl) (fun _ _ => rfl)
    (fun _ _ hp => hp) (by simp) (by simp)
  · refine ⟨?_, trivial, by simp, RbBalanced.nil, List.Pairwise.nil, by simp, by simp⟩
    simp [nvlAlloc, setValues, rbCreate, BTree.size]
  · simp [nvlAlloc, setValues, Function.update_of_ne hm]

/-- A legal call does what its specification says. -/
theorem exec_spec (hr : Related h σ shape) {c : NvCall N} (hc : LegalCall σ c) :
    ∃ h' shape', exec alloc h c = pure ((specStep σ c).1, h') ∧ Related h' (specStep σ c).2 shape' := by
  cases c with
  | alloc nvl => exact ⟨_, _, rfl, nvlAlloc_spec hr nvl⟩
  | set nvl name setter =>
    obtain ⟨map, hn⟩ := Option.ne_none_iff_exists'.mp hc
    obtain ⟨h', s', hrun, hr', -⟩ := doNvlSet_spec alloc hr hn name setter.value
    exact ⟨h', _, (execSet_eq ..).trans hrun, hr'⟩
  | setPair nvl src name =>
    obtain ⟨hc1, hc2⟩ := hc
    obtain ⟨map, hn⟩ := Option.ne_none_iff_exists'.mp hc1
    obtain ⟨v, hv⟩ := Option.ne_none_iff_exists'.mp hc2
    obtain ⟨ms, hs, hms⟩ := Option.bind_eq_some_iff.mp hv
    rcases (hr.holds src ms hs).find_spec name with ⟨p, hf, -, hpn, hpv⟩ | ⟨-, hno, -⟩
    · obtain rfl : h.value p = v := Option.some_inj.mp (hpv.symm.trans hms)
      obtain ⟨h', s', hrun, hr', -⟩ := doNvlSet_spec alloc hr hn name (h.value p)
      refine ⟨h', _, ?_, by simpa only [specStep, hv] using hr'⟩
      simp only [exec, nvlLookup, hf, pure_bind, nvlSetPair, hpn, hrun, specStep, hv]
    · rw [hno] at hms
      simp at hms
  | unset nvl name =>
    obtain ⟨map, hn⟩ := Option.ne_none_iff_exists'.mp hc
    obtain ⟨h', shape', hrun, hr', -⟩ := unset_spec hr hn name .null false
    exact ⟨h', shape', hrun, hr'⟩
  | unsetType nvl name type =>
    obtain ⟨map, hn⟩ := Option.ne_none_iff_exists'.mp hc
    obtain ⟨h', shape', hrun, hr', -⟩ := unset_spec hr hn name type true
    simp only [Bool.not_true, Bool.false_or] at hrun hr'
    exact ⟨h', shape', hrun, hr'⟩
  | merge dest src =>
    obtain ⟨md, hd⟩ := Option.ne_none_iff_exists'.mp hc.1
    obtain ⟨ms, hs⟩ := Option.ne_none_iff_exists'.mp hc.2
    obtain ⟨h', shape', hrun, hr'⟩ := nvlMerge_spec alloc hr hd hs
    exact ⟨h', shape', hrun, by simpa only [specStep, hs, Option.getD_some] using hr'⟩

theorem execRun_spec (hr : Related h σ shape) {cs : List (NvCall N)} (hc : LegalCalls σ cs) :
    ∃ h' shape', execRun alloc h cs = pure ((specRun σ cs).1, h') ∧
      Related h' (specRun σ cs).2 shape' := by
  induction cs generalizing h σ shape with
  | nil => exact ⟨h, shape, rfl, hr⟩
  | cons c cs ih =>
    obtain ⟨h1, shape1, hrun1, hr1⟩ := exec_spec alloc hr hc.1
    obtain ⟨h2, shape2, hrun2, hr2⟩ := ih hr1 hc.2
    exact ⟨h2, shape2, by simp only [execRun, hrun1, pure_bind, hrun2]; rfl, hr2⟩

theorem related_empty (m : M) : Related (Heap.empty N m : Heap N A M) (fun _ => none) fun _ => .nil :=
  ⟨by simp, by simp, by simp⟩

end Run

section Queries

variable {h : Heap N A M} {nvl : N} {s : BTree A} {map : NvMap N} (name : CStr)

/-- What a typed function returns for the value of a name: the value of that type. -/
def typedSpec {α : Type} (get : Value N → Option α) : Option (Value N) → Except Errno α
  | none => .error .ENOENT
  | some v => (get v).elim (.error .ERANGE) .ok

theorem Holds.lookupWith (hh : Holds h nvl s map) {α : Type} (get : Value N → Option α) :
    nvlLookupWith (nvpairValue get) h nvl name = pure (typedSpec get (map name)) := by
  rw [nvlLookupWith]
  rcases hh.find_spec name with ⟨p, hf, -, -, hm⟩ | ⟨hf, hm, -⟩
  · rw [hf, hm, pure_bind]
    simp only [Option.map_some, nvpairValue, typedSpec]
    cases get (h.value p) <;> rfl
  · rw [hf, hm]
    rfl

/-- The answers of all functions that only look at an nvlist. -/
structure Answers (h : Heap N A M) (nvl : N) (map : NvMap N) : Prop where
  exist : ∀ name, nvlExists h nvl name = pure (map name).isSome
  existType : ∀ name type, nvlExistsType h nvl name type =
    pure (typedSpec (fun v => if v.type = type then some () else none) (map name))
  lookup : ∀ name, match map name with
    | none => nvlLookup h nvl name = pure (.error .ENOENT)
    | some v => ∃ p, nvlLookup h nvl name = pure (.ok p) ∧ h.name p = name ∧ h.value p = v
  lookupArray : ∀ name, nvlLookupArray h nvl name = pure (typedSpec Value.array? (map name))
  lookupBlob : ∀ name, nvlLookupBlob h nvl name = pure (typedSpec Value.blob? (map name))
  lookupBool : ∀ name, nvlLookupBool h nvl name = pure (typedSpec Value.bool? (map name))
  lookupInt : ∀ name, nvlLookupInt h nvl name = pure (typedSpec Value.int? (map name))
  lookupNull : ∀ name, nvlLookupNull h nvl name = pure (typedSpec Value.null? (map name))
  lookupNvl : ∀ name, nvlLookupNvl h nvl name = pure (typedSpec Value.nvl? (map name))
  lookupStr : ∀ name, nvlLookupStr h nvl name = pure (typedSpec Value.str? (map name))
  /-- The iteration visits every pair once, in increasing order. -/
  iterate : ∃ pairs, nvlForEach h nvl = pure pairs ∧ pairs.Nodup ∧ Increasing strcmp h.name pairs ∧
    ∀ name v, map name = some v ↔ ∃ p ∈ pairs, h.name p = name ∧ h.value p = v
  /-- A failed `nvl_unset_type` changes nothing. -/
  unsetFails : ∀ name type r h', nvlUnsetType h nvl name type = pure (r, h') → r ≠ .ok () → h' = h

theorem Related.answers {σ : NvState N} {shape : N → BTree A} (hr : Related h σ shape)
    (hn : σ nvl = some map) : Answers h nvl map := by
  have hh := hr.holds nvl map hn
  refine ⟨fun name => ?_, fun name type => ?_, fun name => ?_, fun _ => hh.lookupWith _ _,
    fun _ => hh.lookupWith _ _, fun _ => hh.lookupWith _ _, fun _ => hh.lookupWith _ _,
    fun _ => hh.lookupWith _ _, fun _ => hh.lookupWith _ _, fun _ => hh.lookupWith _ _,
    ⟨_, hh.forEach, hh.nodup, hh.increasing, hh.entry⟩, fun name type r h' hrun hne => ?_⟩
  · rcases hh.find_spec name with ⟨p, hf, -, -, hm⟩ | ⟨hf, hm, -⟩ <;> simp [nvlExists, hf, hm]
  · rcases hh.find_spec name with ⟨p, hf, -, -, hm⟩ | ⟨hf, hm, -⟩
    · by_cases ht : (h.value p).type = type <;> simp [nvlExistsType, hf, hm, ht, typedSpec]
    · simp [nvlExistsType, hf, hm, typedSpec]
  · rcases hh.find_spec name with ⟨p, hf, -, hpn, hm⟩ | ⟨hf, hm, -⟩
    · rw [hm]
      exact ⟨p, by simp [nvlLookup, hf], hpn, rfl⟩
    · rw [hm]
      simp [nvlLookup, hf]
  · obtain ⟨h1, _, hrun', -, hfail⟩ := unset_spec hr hn name type true
    have heq := pure_inj (hrun.symm.trans hrun')
    rw [Prod.mk.injEq] at heq
    rw [heq.2]
    exact hfail (heq.1 ▸ hne)

end Queries

/-- For every legal run from no nvlists at all, every call returns what the maps say, and in the state
that is reached every nvlist answers as its map does. `nvl_merge` is the union that prefers `src`; it
leaves `src` alone, and doing it twice is doing it once. -/
theorem nvl_is_map (m : M) (cs : List (NvCall N)) (hc : LegalCalls (fun _ => none) cs) :
    ∃ h : Heap N A M, execRun alloc (Heap.empty N m) cs = pure ((specRun (fun _ => none) cs).1, h) ∧
      (∀ nvl map, (specRun (fun _ => none) cs).2 nvl = some map → Answers h nvl map) ∧
      (∀ dest src md ms, (specRun (fun _ => none) cs).2 dest = some md →
        (specRun (fun _ => none) cs).2 src = some ms →
        ∃ h₁ h₂, nvlMerge alloc h dest src = pure (.ok (), h₁) ∧
          nvlMerge alloc h₁ dest src = pure (.ok (), h₂) ∧
          Answers h₁ dest (md.merge ms) ∧ Answers h₁ src ms ∧
          Answers h₂ dest (md.merge ms) ∧ Answers h₂ src ms) := by
  obtain ⟨h, shape, hrun, hr⟩ := execRun_spec alloc (related_empty (A := A) m) hc
  refine ⟨h, hrun, fun nvl map hn => hr.answers hn, fun dest src md ms hd hs => ?_⟩
  set σ := (specRun (fun _ => none) cs).2
  obtain ⟨h₁, shape₁, hrun₁, hr₁⟩ := nvlMerge_spec alloc hr hd hs
  have hd₁ : (σ.modify dest (·.merge ms)) dest = some (md.merge ms) := by
    rw [NvState.modify, Function.update_self, hd]
    rfl
  have hs₁ : (σ.modify dest (·.merge ms)) src = some ms := by
    by_cases hne : src = dest
    · subst hne
      obtain rfl : md = ms := Option.some_inj.mp (hd.symm.trans hs)
      rw [hd₁, NvMap.merge_self]
    · rw [NvState.modify, Function.update_of_ne hne, hs]
  obtain ⟨h₂, shape₂, hrun₂, hr₂⟩ := nvlMerge_spec alloc hr₁ hd₁ hs₁
  have hsame : (σ.modify dest (·.merge ms)).modify dest (·.merge ms) = σ.modify dest (·.merge ms) := by
    rw [modify_modify]
    congr 1
    funext map
    exact NvMap.merge_merge map ms
  rw [hsame] at hr₂
  exact ⟨h₁, h₂, hrun₁, hrun₂, hr₁.answers hd₁, hr₁.answers hs₁, hr₂.answers hd₁, hr₂.answers hs₁⟩

/-- Addresses that are numbers: the next one after all that are in use. -/
def natAllocator : Allocator Nat :=
  ⟨fun l => l.foldr max 0 + 1, fun l hl => by
    have hle : ∀ (l : List Nat) x, x ∈ l → x ≤ l.foldr max 0 := by
      intro l
      induction l with
      | nil => simp
      | cons y l ih =>
        intro x hx
        rcases List.mem_cons.mp hx with rfl | hx
        · exact le_max_left _ _
        · exact (ih x hx).trans (le_max_right _ _)
    have : l.foldr max 0 + 1 ≤ l.foldr max 0 := hle l _ hl
    omega⟩

/-- Two nvlists: one is merged into the other and then loses a name. -/
theorem nvl_is_map_merge : ∃ h : Heap Bool Nat (PlainMem Nat),
    execRun natAllocator (Heap.empty Bool (freshMem Nat))
      [.alloc false, .alloc true, .set false CStr.empty (.int 1), .merge true false,
        .unsetType false CStr.empty .str, .unset false CStr.empty] =
      pure ([.ok (), .ok (), .ok (), .ok (), .error .ERANGE, .ok ()], h) ∧
    nvlLookupInt h true CStr.empty = pure (.ok 1) ∧ nvlExists h false CStr.empty = pure false := by
  have hc : LegalCalls (N := Bool) (fun _ => none)
      [.alloc false, .alloc true, .set false CStr.empty (.int 1), .merge true false,
        .unsetType false CStr.empty .str, .unset false CStr.empty] := by
    refine ⟨rfl, rfl, ?_, ⟨?_, ?_⟩, ?_, ?_, trivial⟩ <;> exact Option.some_ne_none _
  obtain ⟨h, hrun, hans, -⟩ := nvl_is_map natAllocator (freshMem Nat) _ hc
  have ht := hans true _ rfl
  have hf := hans false _ rfl
  exact ⟨h, hrun, (ht.lookupInt CStr.empty).trans rfl, (hf.exist CStr.empty).trans rfl⟩

/-- The calls that set the strings of `pairs` in an nvlist. -/
def setStrings (pairs : List (CStr × CStr)) : List (NvCall Unit) :=
  pairs.map fun e => .set () e.1 (.str e.2)

theorem setStrings_spec (pairs : List (CStr × CStr)) :
    ∀ {σ : NvState Unit} {map : NvMap Unit}, σ () = some map → (pairs.map Prod.fst).Nodup →
      LegalCalls σ (setStrings pairs) ∧
      (specRun σ (setStrings pairs)).1 = pairs.map (fun _ => .ok ()) ∧
      ∃ map', (specRun σ (setStrings pairs)).2 () = some map' ∧
        ∀ name, map' name = ((pairs.lookup name).map Value.str).or (map name) := by
  induction pairs with
  | nil =>
    intro σ map hn hd
    exact ⟨trivial, rfl, map, hn, fun name => rfl⟩
  | cons e pairs ih =>
    intro σ map hn hd
    rw [List.map_cons, List.nodup_cons] at hd
    obtain ⟨hlegal, hanswers, map', hmap', hlookup⟩ := ih (modify_self hn (·.set e.1 (.str e.2))) hd.2
    refine ⟨⟨?_, hlegal⟩, congrArg (List.cons (Except.ok ())) hanswers, map', hmap', fun name => ?_⟩
    · intro hnone
      cases hn.symm.trans hnone
    rw [hlookup, NvMap.set, List.lookup_cons]
    by_cases hname : name = e.1
    · have hother : pairs.lookup e.1 = none := by
        refine List.lookup_eq_none_iff.mpr fun q hq => ?_
        rw [bne_iff_ne]
        intro heq
        exact hd.1 (heq ▸ List.mem_map_of_mem hq)
      rw [hname, hother, Function.update_self, beq_self_eq_true]
      rfl
    · rw [Function.update_of_ne hname, beq_false_of_ne hname]

/-- A new nvlist with the strings of `pairs`. -/
theorem setStrings_run (pairs : List (CStr × CStr)) (hd : (pairs.map Prod.fst).Nodup) :
    ∃ (h : Heap Unit Nat (PlainMem Nat)) (σ : NvState Unit) (map : NvMap Unit) (shape : Unit → BTree Nat),
      execRun natAllocator (Heap.empty Unit (freshMem Nat)) (.alloc () :: setStrings pairs) =
        pure (.ok () :: pairs.map (fun _ => .ok ()), h) ∧
      Related h σ shape ∧ σ () = some map ∧ ∀ name, map name = (pairs.lookup name).map Value.str := by
  have hn : (specStep (fun _ => none) (.alloc () : NvCall Unit)).2 () = some fun _ => none := rfl
  obtain ⟨hlegal, hanswers, map, hmap, hlookup⟩ := setStrings_spec pairs hn hd
  have hcalls : LegalCalls (fun _ => none) (.alloc () :: setStrings pairs) := ⟨rfl, hlegal⟩
  obtain ⟨h, shape, hrun, hr⟩ := execRun_spec natAllocator (related_empty (freshMem Nat)) hcalls
  rw [specRun, hanswers] at hrun
  exact ⟨h, _, map, shape, hrun, hr, hmap, fun name => (hlookup name).trans (Option.or_none ..)⟩

end Libjeffpc.Nvl
