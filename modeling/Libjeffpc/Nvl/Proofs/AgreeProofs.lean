import Libjeffpc.Nvl.Proofs.RefusedProofs
import Libjeffpc.Val.Proofs.NvlSetProofs

/-!
# The nvlist with a tree, and the nvlist on the heap of values

`Nvl.Lists` has the tree of pairs, and values without references; `Heap` has the references, and pairs in the order of
their names. `nvl_set` in the one does what it does in the other, also where a request is refused: what is refused is
read off the run on the heap of values.
-/

namespace Libjeffpc

open Lib Libjeffpc.Heap Libjeffpc.Lib.RcHeap

variable {N A M : Type} {R : Nvl.Value N → Obj → Prop} {h h' : RcHeap Obj} {a : Nat} {pairs pairs' : Pairs}
  {map : Nvl.NvMap N} {cname : CStr} {v : Nvl.Value N} {val : Pointer} {b : Obj} {owned owned' : List Pointer}

/-- The same names with related values; no value is the nvlist itself. -/
def Agrees (R : Nvl.Value N → Obj → Prop) (h : RcHeap Obj) (a : Nat) (map : Nvl.NvMap N) (pairs : Pairs) : Prop :=
  ∀ name, Option.Rel (fun v p => p ≠ .obj a ∧ ∃ b, Holds h p b ∧ R v b) (map name) (valueOf pairs name)

theorem Agrees.none_iff (hag : Agrees R h a map pairs) (name : CStr) : map name = none ↔ valueOf pairs name = none := by
  have hname := hag name
  generalize map name = o at hname
  generalize valueOf pairs name = o' at hname
  cases hname with
  | none => exact ⟨fun _ => rfl, fun _ => rfl⟩
  | some hrel => exact ⟨nofun, nofun⟩

theorem Agrees.nil_iff (hag : Agrees R h a map pairs) : (∀ name, map name = none) ↔ pairs = [] := by
  constructor
  · intro hempty
    cases pairs with
    | nil => rfl
    | cons q pairs =>
      have hq := (hag.none_iff q.1).mp (hempty q.1)
      rw [valueOf_cons, if_pos rfl] at hq
      cases hq
  · rintro rfl name
    exact (hag.none_iff name).mpr rfl

/-- Values of an nvlist that are in use afterwards are what they were. -/
theorem Agrees.value_keep (hag : Agrees R h a map pairs) (hb : Balanced h owned) (hk : KeepsOthers a h h')
    (hat' : NvlAt h' a pairs') {name : CStr} (hsame : valueOf pairs' name = valueOf pairs name) :
    Option.Rel (fun v p => p ≠ .obj a ∧ ∃ b, Holds h' p b ∧ R v b) (map name) (valueOf pairs' name) := by
  have hname := hag name
  rw [← hsame] at hname
  generalize map name = o at hname ⊢
  cases hp : valueOf pairs' name with
  | none =>
    rw [hp] at hname
    cases hname
    exact .none
  | some p =>
    rw [hp] at hname
    obtain @⟨v, _, hne, b, hold, hvb⟩ := hname
    obtain ⟨q, hq, rfl⟩ := mem_of_valueOf hp
    refine .some ⟨hne, b, hold.others hb hk hne ?_, hvb⟩
    intro x hx
    obtain ⟨c, hc⟩ := hat'.value q hq
    rw [hx] at hc
    exact ⟨c, hc⟩

theorem Agrees.keep (hag : Agrees R h a map pairs) (hb : Balanced h owned) (hk : KeepsOthers a h h')
    (hat' : NvlAt h' a pairs) : Agrees R h' a map pairs :=
  fun _ => hag.value_keep hb hk hat' rfl

theorem Agrees.set (hag : Agrees R h a map pairs) (hb : Balanced h owned) (hk : KeepsOthers a h h')
    (hat' : NvlAt h' a pairs')
    (hvalue : ∀ n, valueOf pairs' n = if n = cname then some val else valueOf pairs n) (hne : val ≠ .obj a)
    (hv : Holds h' val b) (hvb : R v b) : Agrees R h' a (map.set cname v) pairs' := by
  intro name
  rw [Nvl.NvMap.set]
  by_cases hname : name = cname
  · rw [hname, Function.update_self, hvalue, if_pos rfl]
    exact .some ⟨hne, b, hv, hvb⟩
  · rw [Function.update_of_ne hname]
    exact hag.value_keep hb hk hat' ((hvalue name).trans (if_neg hname))

/-- A copy of a name, or a code where something was asked for. -/
theorem strDup_cases {g g₁ : Nat → Bool} {h₁ : RcHeap Obj} {name : Pointer} (hb : Balanced h owned)
    (hdup : strDup cname ⟨h, g⟩ = pure (name, ⟨h₁, g₁⟩)) :
    (name.isErr = false ∧ Holds h₁ name (.str cname) ∧ Balanced h₁ (name :: owned) ∧ Keeps h h₁) ∨
      ∃ e, name = .err e ∧ strDupRequests cname ≠ 0 ∧ Balanced h₁ owned ∧ Keeps h h₁ := by
  by_cases hg : ∀ k < strDupRequests cname, g k = true
  · obtain ⟨r, h2, hrun, hr, hb2, hk⟩ := (strDup_allocates cname hb).granted g hg
    obtain ⟨rfl, hs⟩ := Prod.mk.inj (pure_inj (hdup.symm.trans hrun))
    obtain ⟨rfl, -⟩ := State.mk.inj hs
    exact .inl ⟨hr.ref.1, hr, hb2, hk⟩
  · obtain ⟨k, hk, hgk⟩ : ∃ k < strDupRequests cname, g k = false := by simpa using hg
    obtain ⟨h2, g2, hrun, hb2, hk2⟩ := (strDup_allocates cname hb).refused g k hk hgk
    obtain ⟨rfl, hs⟩ := Prod.mk.inj (pure_inj (hdup.symm.trans hrun))
    obtain ⟨rfl, -⟩ := State.mk.inj hs
    exact .inr ⟨_, rfl, Nat.ne_of_gt (Nat.zero_lt_of_lt hk), hb2, hk2⟩

/-- The copy of the name is refused if it is a code. -/
theorem nameRefused_eq {g g₁ : Nat → Bool} {h₁ : RcHeap Obj} {name : Pointer} (hb : Balanced h owned)
    (hdup : strDup cname ⟨h, g⟩ = pure (name, ⟨h₁, g₁⟩)) (pair : Bool) :
    Nvl.Call.nameRefused ⟨cname, v, ⟨false, name.isErr, pair⟩⟩ = name.isErr := by
  rw [Nvl.Call.nameRefused, Nvl.copyRefused]
  dsimp only
  rcases strDup_cases hb hdup with ⟨herr, -⟩ | ⟨e, -, hreq, -⟩
  · rw [herr, Bool.false_and]
  · rw [decide_eq_true hreq, Bool.and_true]

section Set

variable [DecidableEq N] [DecidableEq A] [Tree.TreeMem A M]

/-- What the two calls do. -/
inductive Agree (R : Nvl.Value N → Obj → Prop) (l : Nvl.Lists N A M) (σ : Nvl.NvState N) (nvl : N) (map : Nvl.NvMap N)
    (a : Nat) (pairs : Pairs) (cname : CStr) (v : Nvl.Value N) (val : Pointer) (owned : List Pointer) :
    Comp (Except Errno Unit × Nvl.Lists N A M) → Comp (Option Errno × State) → Prop
  | set {heap : Nvl.Heap N A M} {shape : N → BTree A} {s : State} {pairs' : Pairs}
      (hr : Nvl.Related heap (σ.modify nvl (·.set cname v)) shape) (hat : NvlAt s.heap a pairs')
      (hb : Balanced s.heap owned) (hag : Agrees R s.heap a (map.set cname v) pairs') :
      Agree R l σ nvl map a pairs cname v val owned (pure (.ok (), { l with heap })) (pure (none, s))
  | refused {s : State} (hat : NvlAt s.heap a pairs) (hb : Balanced s.heap owned) (hag : Agrees R s.heap a map pairs) :
      Agree R l σ nvl map a pairs cname v val owned (pure (.error .ENOMEM, l)) (pure (some .ENOMEM, s))
  | code {l' : Nvl.Lists N A M} {s : State} {e : Errno} (hc : l'.coded nvl = true)
      (hl : s.heap.live a = some (.nvl [(cname, .err e, val)])) :
      Agree R l σ nvl map a pairs cname v val owned (pure (.ok (), l')) (pure (none, s))
  | crash : Agree R l σ nvl map a pairs cname v val owned (throw .code) (throw .code)

variable [Tree.LawfulTreeMem A M] (alloc : Nvl.Allocator A) {l : Nvl.Lists N A M} {σ : Nvl.NvState N}
  {shape : N → BTree A} {nvl : N} {g g₁ : Nat → Bool} {h₁ : RcHeap Obj} {name : Pointer}

/-- `nvl_set` of the two models. -/
theorem nvlSet_agree (hr : Nvl.Related l.heap σ shape) (hn : σ nvl = some map) (hc : l.coded nvl = false)
    (hat : NvlAt h a pairs) (hb : Balanced h (val :: owned)) (hm : .obj a ∈ owned) (hv : Holds h val b)
    (hvb : R v b) (hne : val ≠ .obj a) (hag : Agrees R h a map pairs)
    (hdup : strDup cname ⟨h, g⟩ = pure (name, ⟨h₁, g₁⟩)) :
    Agree R l σ nvl map a pairs cname v val owned (l.nvlSet alloc ⟨false, name.isErr, !g₁ 0⟩ nvl cname v)
      (nvlSet (.obj a) cname val ⟨h, g⟩) := by
  have hset : ∀ {heap : Nvl.Heap N A M} {shape' : N → BTree A},
      Nvl.Related heap (σ.modify nvl (·.set cname v)) shape' →
      SetsTo (nvlSet (.obj a) cname val) ⟨h, g⟩ a pairs cname val b owned →
      Agree R l σ nvl map a pairs cname v val owned (pure (.ok (), { l with heap }))
        (nvlSet (.obj a) cname val ⟨h, g⟩) := by
    intro heap shape' hr' hsets
    obtain ⟨s', pairs', hrun, hat', hv', hvalue, hk, hb'⟩ := hsets
    rw [hrun]
    exact .set hr' hat' hb' (hag.set hb hk hat' hvalue hne (hv' hne) hvb)
  have hcopy := strDup_cases hb hdup
  have hspec := Nvl.Lists.call_spec alloc hr hn hc ⟨cname, v, ⟨false, name.isErr, !g₁ 0⟩⟩
  have hvalue : Nvl.Call.valueRefused ⟨cname, v, ⟨false, name.isErr, !g₁ 0⟩⟩ = false := by
    cases v <;> rfl
  rw [Nvl.Lists.call, hvalue, if_neg Bool.false_ne_true] at hspec
  dsimp only at hspec
  generalize l.nvlSet alloc ⟨false, name.isErr, !g₁ 0⟩ nvl cname v = result at hspec
  cases hspec with
  | value hv' => cases hvalue.symm.trans hv'
  | pair _ hnew hname hpair =>
    have habsent := (hag.none_iff cname).mp hnew
    rcases hcopy with ⟨-, -, hb1, hk1⟩ | ⟨e, rfl, -⟩
    · have hg : g₁ 0 = false := (Bool.not_eq_true' _).mp hpair
      obtain ⟨s', hrun, hat', hk, hb'⟩ := nvlSet_pair_refused hat hb hm habsent hdup hb1 hk1 hg
      rw [hrun]
      exact .refused hat' hb' (hag.keep hb hk hat')
    · cases (nameRefused_eq hb hdup _).symm.trans hname
  | crash _ hnew hname hother =>
    have habsent := (hag.none_iff cname).mp hnew
    rcases hcopy with ⟨herr, -⟩ | ⟨e, rfl, -⟩
    · cases herr.symm.trans ((nameRefused_eq hb hdup _).symm.trans hname)
    · have hg : pairs ≠ [] ∨ g₁ 0 = false := by
        rcases hother with hpair | ⟨n, hother⟩
        · exact .inr ((Bool.not_eq_true' _).mp hpair)
        · exact .inl fun hnil => hother (hag.nil_iff.mpr hnil n)
      rw [nvlSet_crash hat.live habsent hdup hg]
      exact .crash
  | code _ hnew hname hpair hempty hcoded =>
    have habsent := (hag.none_iff cname).mp hnew
    rcases hcopy with ⟨herr, -⟩ | ⟨e, rfl, -, hb1, hk1⟩
    · cases herr.symm.trans ((nameRefused_eq hb hdup _).symm.trans hname)
    · have hg : g₁ 0 = true := (Bool.not_eq_false' _).mp hpair
      rw [nvlSet_coded hat.live habsent hdup (hag.nil_iff.mp hempty) hg]
      exact .code hcoded (live_setBody (hat.keep hb hk1 hb1 (List.mem_cons_of_mem _ hm)).live _)
  | set _ hthere hr' =>
    refine hset hr' ?_
    cases hold : valueOf pairs cname with
    | some old => exact nvlSet_present hat hb hm hv hold g
    | none =>
      have hputs := hthere.resolve_left fun hsome => hsome ((hag.none_iff cname).mpr hold)
      obtain ⟨-, hname, hpair⟩ := Nvl.Call.puts_iff.mp hputs
      rcases hcopy with ⟨-, hholds, hb1, hk1⟩ | ⟨e, rfl, -⟩
      · exact nvlSet_named hat hb hm hold hdup hb1 hk1 hv hholds ((Bool.not_eq_false' _).mp hpair)
      · cases (nameRefused_eq hb hdup _).symm.trans hname

end Set

end Libjeffpc
