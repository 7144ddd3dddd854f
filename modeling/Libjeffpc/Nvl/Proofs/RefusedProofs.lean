import Libjeffpc.Nvl.Proofs.NvMapProofs
import Libjeffpc.Nvl.Refused

/-!
# What a refused request does to an nvlist

`Sets` says what a call can do: set the name, fail and leave the nvlist as it is, or leave a code behind. Every later
call for a value that is there comes to the code.
-/

namespace Libjeffpc.Nvl

open Lib Libjeffpc.Tree

section Calls

variable {N : Type} {map : NvMap N} {pre calls : List (Call N)} {c : Call N} {name : CStr}

theorem Call.puts_iff : c.puts = true ↔ c.valueRefused = false ∧ c.nameRefused = false ∧ c.refused.pair = false := by
  rw [Call.puts, Bool.and_eq_true, Bool.and_eq_true, Bool.not_eq_true', Bool.not_eq_true', Bool.not_eq_true', and_assoc]

theorem Call.puts_of_none (h : c.refused = .none) : c.puts = true := by
  rw [Call.puts_iff, Call.nameRefused, Call.valueRefused, h]
  refine ⟨?_, rfl, rfl⟩
  split <;> rfl

theorem new_nil : New map [] name ↔ map name = none :=
  ⟨fun h => h.1, fun h => ⟨h, fun _ hc => by cases hc⟩⟩

/-- A name that is set is there afterwards, whether or not it was before. -/
theorem new_set (hset : map c.name ≠ none ∨ c.puts = true) :
    New map (c :: pre) name ↔ New (map.set c.name c.value) pre name := by
  have hmap : NvMap.set map c.name c.value name = none ↔ name ≠ c.name ∧ map name = none := by
    rw [NvMap.set]
    by_cases hname : name = c.name
    · subst hname
      simp
    · rw [Function.update_of_ne hname]
      exact ⟨fun h => ⟨hname, h⟩, fun h => h.2⟩
  rw [New, New, hmap, List.forall_mem_cons]
  constructor
  · rintro ⟨hnone, hc, hpre⟩
    refine ⟨⟨?_, hnone⟩, hpre⟩
    rintro rfl
    exact hset.elim (fun h => h hnone) fun h => hc h rfl
  · rintro ⟨⟨hname, hnone⟩, hpre⟩
    exact ⟨hnone, fun _ => Ne.symm hname, hpre⟩

/-- A call that is refused something sets no name. -/
theorem new_skip (hputs : c.puts = false) : New map (c :: pre) name ↔ New map pre name := by
  rw [New, New, List.forall_mem_cons, hputs]
  simp

end Calls

section Set

variable {N A M : Type} [DecidableEq N] [DecidableEq A] [TreeMem A M] [LawfulTreeMem A M]
  (alloc : Allocator A) {l : Lists N A M} {σ : NvState N} {shape : N → BTree A} {nvl : N} {map : NvMap N}

/-- A call, with the value first. -/
def Lists.call (c : Call N) (l : Lists N A M) (nvl : N) : Comp (Except Errno Unit × Lists N A M) :=
  if c.valueRefused then pure (.error .ENOMEM, l) else l.nvlSet alloc c.refused nvl c.name c.value

/-- What a call can do. -/
inductive Sets (l : Lists N A M) (σ : NvState N) (nvl : N) (map : NvMap N) (c : Call N) :
    Comp (Except Errno Unit × Lists N A M) → Prop
  | value (hv : c.valueRefused = true) : Sets l σ nvl map c (pure (.error .ENOMEM, l))
  | pair (hv : c.valueRefused = false) (hnew : map c.name = none) (hname : c.nameRefused = false)
      (hpair : c.refused.pair = true) : Sets l σ nvl map c (pure (.error .ENOMEM, l))
  | crash (hv : c.valueRefused = false) (hnew : map c.name = none) (hname : c.nameRefused = true)
      (hother : c.refused.pair = true ∨ ∃ name, map name ≠ none) : Sets l σ nvl map c (throw .code)
  | code {l' : Lists N A M} (hv : c.valueRefused = false) (hnew : map c.name = none) (hname : c.nameRefused = true)
      (hpair : c.refused.pair = false) (hempty : ∀ name, map name = none) (hc : l'.coded nvl = true) :
      Sets l σ nvl map c (pure (.ok (), l'))
  | set {h' : Heap N A M} {shape' : N → BTree A} (hv : c.valueRefused = false)
      (hset : map c.name ≠ none ∨ c.puts = true) (hr : Related h' (σ.modify nvl (·.set c.name c.value)) shape') :
      Sets l σ nvl map c (pure (.ok (), { l with heap := h' }))

theorem Holds.root_isSome {h : Heap N A M} {s : BTree A} (hh : Holds h nvl s map) :
    s.ptr.isSome = true ↔ ∃ name, map name ≠ none := by
  constructor
  · intro hs
    obtain ⟨p, hp⟩ := Option.isSome_iff_exists.mp hs
    exact ⟨_, Option.ne_none_iff_exists'.mpr ⟨_, hh.map_eq (BTree.mem_of_ptr hp)⟩⟩
  · rintro ⟨name, hname⟩
    obtain ⟨v, hv⟩ := Option.ne_none_iff_exists'.mp hname
    obtain ⟨p, hp, -⟩ := (hh.entry name v).mp hv
    rw [Option.isSome_iff_ne_none, Ne, BTree.ptr_eq_none]
    rintro rfl
    cases hp

theorem Lists.nvlAdd_spec (hr : Related l.heap σ shape) (hn : σ nvl = some map) {c : Call N}
    (hv : c.valueRefused = false) (hnew : map c.name = none) (hno : ∀ p ∈ (shape nvl).toList, l.heap.name p ≠ c.name) :
    Sets l σ nvl map c (l.nvlAdd alloc c.refused nvl c.name c.value) := by
  have hh := hr.holds nvl map hn
  obtain ⟨h', s', hrun, hr', -⟩ := doNvlSet_new alloc hr hn hno c.value
  have hname : copyRefused c.refused.name c.name = c.nameRefused := rfl
  rw [Lists.nvlAdd, hh.values_eq, pure_bind, hname]
  dsimp only
  cases hpair : c.refused.pair with
  | true =>
    cases hcopy : c.nameRefused with
    | true => exact .crash hv hnew hcopy (.inl hpair)
    | false => exact .pair hv hnew hcopy hpair
  | false =>
    obtain ⟨⟨pair, heap⟩, hadd, hpure⟩ := bind_eq_pure hrun
    obtain rfl : { heap with value := Function.update heap.value pair c.value } = h' :=
      congrArg Prod.snd (pure_inj hpure)
    cases hcopy : c.nameRefused with
    | true =>
      by_cases hsome : (shape nvl).ptr.isSome = true
      · rw [if_neg Bool.false_ne_true, if_pos (by rw [hsome]; rfl)]
        exact .crash hv hnew hcopy (.inr (hh.root_isSome.mp hsome))
      · have hempty : ∀ name, map name = none := fun name => by
          by_contra hne
          exact hsome (hh.root_isSome.mpr ⟨name, hne⟩)
        rw [if_neg Bool.false_ne_true, if_neg (by simp [Bool.eq_false_iff.mpr hsome]), hadd, pure_bind]
        exact .code hv hnew hcopy hpair hempty (Function.update_self ..)
    | false =>
      rw [if_neg Bool.false_ne_true, if_neg (by simp), hadd, pure_bind]
      exact .set hv (.inr (Call.puts_iff.mpr ⟨hv, hcopy, hpair⟩)) hr'

theorem Lists.call_spec (hr : Related l.heap σ shape) (hn : σ nvl = some map) (hc : l.coded nvl = false)
    (c : Call N) : Sets l σ nvl map c (l.call alloc c nvl) := by
  rw [Lists.call]
  cases hv : c.valueRefused with
  | true => exact .value hv
  | false =>
    rw [if_neg Bool.false_ne_true, Lists.nvlSet, Lists.named, hc, if_neg Bool.false_ne_true, pure_bind]
    rcases (hr.holds nvl map hn).find_spec c.name with ⟨p, hf, hp, hname, hm⟩ | ⟨hf, hm, hno⟩
    · obtain ⟨h', s', hrun, hr', -⟩ := doNvlSet_found hr hn hp c.value
      obtain rfl : { l.heap with value := Function.update l.heap.value p c.value } = h' :=
        congrArg Prod.snd (pure_inj hrun)
      rw [hf, pure_bind]
      rw [hname] at hr'
      exact .set hv (.inl (by rw [hm]; exact Option.some_ne_none _)) hr'
    · rw [hf, pure_bind]
      exact nvlAdd_spec alloc hr hn hv hm hno

/-- A call that is refused nothing. -/
theorem Lists.call_none (hr : Related l.heap σ shape) (hn : σ nvl = some map) (hc : l.coded nvl = false)
    {c : Call N} (hnone : c.refused = .none) : ∃ h' shape', l.call alloc c nvl = pure (.ok (), { l with heap := h' }) ∧
      Related h' (σ.modify nvl (·.set c.name c.value)) shape' := by
  obtain ⟨hv, hname, hpair⟩ := Call.puts_iff.mp (Call.puts_of_none hnone)
  have hspec := Lists.call_spec alloc hr hn hc c
  generalize l.call alloc c nvl = result at hspec
  cases hspec with
  | value hv' => cases hv.symm.trans hv'
  | pair _ _ _ hpair' => cases hpair.symm.trans hpair'
  | crash _ _ hname' => cases hname.symm.trans hname'
  | code _ _ hname' => cases hname.symm.trans hname'
  | set _ _ hr' => exact ⟨_, _, rfl, hr'⟩

omit [LawfulTreeMem A M] in
/-- A call that comes to a code. -/
theorem Lists.call_coded (hc : l.coded nvl = true) (c : Call N) :
    l.call alloc c nvl = if c.valueRefused then pure (.error .ENOMEM, l) else throw .code := by
  rw [Lists.call, Lists.nvlSet, Lists.named, hc, if_pos rfl]
  rfl

end Set

end Libjeffpc.Nvl
