import Libjeffpc.Sexpr.ListHeap
import Libjeffpc.Sexpr.Proofs.OwnershipProofs

/-!
# Lists, arrays and the walks between them

Each walk is an induction over the list: the length and the n-th value give up one reference for the next,
the array collects new ones and gives all of them back when it fails. A list is built from its end, and
every cell takes over the reference to the list so far.
-/

namespace Libjeffpc.Sexpr

variable {A : Type}

/-- The n-th value of a proper list, counted from 1; NULL stands for what is not there. -/
theorem sexprNth_proper : ∀ {v : Ref A}, v.toVal.isProper → ∀ i, sexprNth v (i + 1) = v.items.getD i .null
  | .cons a h t, hp, i => by
    cases hn : sexprIsNull (.cons a h t) with
    | true =>
      have hempty : h.isNone && t.isNone := by simpa [sexprIsNull, Ref.isNone, Ref.isEmptyCons] using hn
      obtain ⟨rfl, rfl⟩ : h = .null ∧ t = .null := by
        cases h <;> cases t <;> first | exact ⟨rfl, rfl⟩ | cases hempty
      rw [items_empty hn]
      cases i with
      | zero => rfl
      | succ i => simp [sexprNth]
    | false =>
      rw [toVal_cons hn, Val.isProper] at hp
      rw [items_cons hn]
      cases i with
      | zero => rfl
      | succ i =>
        rw [sexprNth, if_pos (by omega), sexprNth_proper hp, List.getD_cons_succ]
  | .null, _, i => by simp [sexprNth, Ref.items]

end Libjeffpc.Sexpr

namespace Libjeffpc.Heap

open Lib Libjeffpc.Lib.RcHeap
open Sexpr (Ref)

variable {α : Type} {m : Mode} {h h' : RcHeap Obj} {owned : List Pointer} {p : Pointer} {v w : Ref Pointer}

theorem Runs.gives {f : HeapM α} {r : α} {left : List Pointer}
    (hf : Runs .any h f h fun r' h' => r' = r ∧ Balanced h' left) : Gives f h r left := by
  intro g
  obtain ⟨_, h', g', hrun, _, rfl, hb⟩ := hf g
  exact ⟨⟨h', g'⟩, hrun, hb⟩

/-! ## The n-th value -/

theorem sexprNth_null (n : Nat) (hb : Balanced h owned) :
    Runs m h (sexprNth .null n) h fun r h' => r = .null ∧ Balanced h' (r :: owned) := by
  cases n with
  | zero => exact .pure (.refl h) ⟨rfl, balanced_null.mpr hb⟩
  | succ n => exact .pure (.refl h) ⟨rfl, balanced_null.mpr hb⟩

/-- The reference is given up for one to a part, and the walk goes on from there. -/
theorem follow_runs {c : Ref Pointer} {n : Nat} (hc : InHeap h c) (hb : Balanced h (p :: owned))
    (ih : ∀ h', InHeap h' c → Balanced h' (ptr c :: owned) → Runs m h' (sexprNth (ptr c) n) h' fun r h'' =>
      r = ptr (Sexpr.sexprNth c n) ∧ Balanced h'' (r :: owned)) :
    Runs m h (do
      let tmp ← valGetref (ptr c)
      valPutref p
      sexprNth tmp n) h fun r h' => r = ptr (Sexpr.sexprNth c n) ∧ Balanced h' (r :: owned) := by
  refine (hc.getref_runs hb).bind fun _ h1 hk1 h1' => ?_
  obtain ⟨rfl, hb1⟩ := h1'
  refine ((valPutref_runs (hb1.perm (.swap _ _ _))).base hk1).bind fun _ h2 hk2 h2' => ?_
  have hc2 := hc.keep_owned hb hk2 h2'.2 List.mem_cons_self
  exact ((ih h2 hc2 h2'.2).base hk2).mono fun _ _ h' => h'.2

theorem sexprNth_runs (n : Nat) : ∀ (v : Ref Pointer) (h : RcHeap Obj), InHeap h v →
    Balanced h (ptr v :: owned) → Runs m h (sexprNth (ptr v) n) h fun r h' =>
      r = ptr (Sexpr.sexprNth v n) ∧ Balanced h' (r :: owned) := by
  induction n with
  | zero =>
    intro v h hv hb
    have hself : Sexpr.sexprNth v 0 = v := by cases v <;> rfl
    rw [hself]
    exact .pure (.refl h) ⟨rfl, hb⟩
  | succ n ih =>
    intro v h hv hb
    by_cases hnull : v = .null
    · subst hnull
      exact .pure (.refl h) ⟨by simp [Sexpr.sexprNth, ptr, Sexpr.Ref.addr], hb⟩
    · rw [sexprNth, if_neg (hv.ptr_ne_null hnull)]
      by_cases hcons : v.type = some .cons
      · cases v with
        | cons q head tail =>
          cases hv with
          | leaf hl _ => cases hl
          | cons hp hh ht =>
            refine (load_reads hp).runs (.refl h) ?_
            dsimp only
            rw [Sexpr.sexprNth]
            by_cases hn : n ≠ 0
            · rw [if_pos hn, if_pos hn]
              exact follow_runs ht hb (ih tail)
            · rw [if_neg hn, if_neg hn]
              obtain rfl : n = 0 := by omega
              refine (follow_runs hh hb (ih head)).mono fun r h' h1 => ?_
              have hself : Sexpr.sexprNth head 0 = head := by cases head <;> rfl
              rwa [hself] at h1
        | _ => cases hcons
      · obtain ⟨b, hp, hbody⟩ := hv.other hnull hcons
        have hother : Sexpr.sexprNth v (n + 1) = .null := by
          cases v with
          | null => exact absurd rfl hnull
          | cons _ _ _ => exact absurd rfl hcons
          | _ => rfl
        have hdrop : Runs m h (do valPutref (ptr v); sexprNth .null n) h fun r h' =>
            r = ptr .null ∧ Balanced h' (r :: owned) := by
          refine (valPutref_runs hb).bind fun _ h1 hk1 hb1 => ?_
          exact ((sexprNth_null n hb1).base hk1).mono fun _ _ h' => h'.2
        rw [hother]
        refine (load_reads hp).runs (.refl h) ?_
        cases b with
        | cons x y => exact absurd rfl (hbody x y)
        | _ =>
          dsimp only
          rw [pure_bind]
          exact hdrop

/-! ## Arrays -/

theorem sexprListToArray_ok {alen : Nat} (hv : InHeap h v) (hb : Balanced h (ptr v :: owned))
    (hp : v.toVal.isProper) (hlen : v.items.length ≤ alen) :
    Runs m h (sexprListToArray (ptr v) alen) h fun r h' =>
      r = .ok (v.items.map ptr) ∧ Balanced h' (v.items.map ptr ++ ptr v :: owned) := by
  refine (listToArray_runs v alen h _ (hv.stays hb List.mem_cons_self) hb).bind fun r h1 hk h1' => ?_
  obtain ⟨rfl, hb1⟩ := h1'
  rw [arrayCode, if_pos ⟨hp, hlen⟩]
  rw [List.take_of_length_le hlen] at hb1 ⊢
  exact .pure hk ⟨rfl, hb1⟩

theorem sexprListToArray_error {alen : Nat} {e : Errno} (hv : InHeap h v) (hb : Balanced h (ptr v :: owned))
    (he : arrayCode v.toVal.isProper v.items.length alen = some e) :
    Runs m h (sexprListToArray (ptr v) alen) h fun r h' =>
      r = .error e ∧ Balanced h' (ptr v :: owned) := by
  refine (listToArray_runs v alen h _ (hv.stays hb List.mem_cons_self) hb).bind fun r h1 hk h1' => ?_
  obtain ⟨rfl, hb1⟩ := h1'
  simp only [he]
  have hperm := hb1.perm (List.Perm.append_right (ptr v :: owned) (List.reverse_perm _))
  refine ((putAll_runs hperm).base hk).bind fun _ h2 hk2 h2' => ?_
  exact .pure hk2 ⟨rfl, h2'.2⟩

/-! ## Building a list -/

/-- A value in front of a list. -/
theorem IsList.cons {vals : List (Ref Pointer)} (hw : w ≠ .null) (hv : IsList v vals) :
    IsList (.cons p w v) (w :: vals) := by
  have hn : Sexpr.sexprIsNull (.cons p w v) = false := by
    cases w with
    | null => exact absurd rfl hw
    | _ => rfl
  refine ⟨?_, ?_⟩
  · rw [Sexpr.toVal_cons hn, Val.isProper]
    exact hv.1
  · rw [Sexpr.items_cons hn, hv.2]

theorem valAllocCons_granted {g : Nat → Bool} {head tail : Pointer} (hh : head ≠ .null) (hg : g 0 = true) :
    valAllocCons head tail ⟨h, g⟩ =
      pure (.obj h.next, ⟨h.alloc (.cons head tail), fun k => g (k + 1)⟩) := by
  rw [valAllocCons, if_neg (by simp [hh])]
  rw [bind_run (valAlloc_granted hg)]
  rfl

theorem valAllocCons_refused {g : Nat → Bool} {head tail : Pointer} (hh : head ≠ .null) (hg : g 0 = false)
    (hb : Balanced h (head :: tail :: owned)) :
    ∃ s, valAllocCons head tail ⟨h, g⟩ = pure (.err .ENOMEM, s) := by
  have hput : Runs .any h (do valPutref head; valPutref tail; pure (.err .ENOMEM : Pointer)) h
      fun r _ => r = .err .ENOMEM := by
    refine (valPutref_runs hb).bind fun _ h1 hk1 hb1 => ?_
    exact ((valPutref_runs hb1).base hk1).bind fun _ _ hk2 _ => .pure hk2 rfl
  obtain ⟨_, h', g', hrun, _, rfl⟩ := hput fun k => g (k + 1)
  refine ⟨⟨h', g'⟩, ?_⟩
  rw [valAllocCons, if_neg (by simp [hh]), bind_run (valAlloc_denied hg)]
  exact hrun

/-- One round of the loop: the cell, and the values that are left. -/
theorem arrayToList_step {rest : List (Ref Pointer)} (hin : ∀ u ∈ w :: rest, InHeap h u) (hv : InHeap h v)
    (hb : Balanced h ((w :: rest).map ptr ++ ptr v :: owned)) :
    Balanced h (ptr w :: ptr v :: (rest.map ptr ++ owned)) ∧
      InHeap (h.alloc (.cons (ptr w) (ptr v))) (.cons (.obj h.next) w v) ∧
      Balanced (h.alloc (.cons (ptr w) (ptr v))) (rest.map ptr ++ ptr (.cons (.obj h.next) w v) :: owned) ∧
      ∀ u ∈ rest, InHeap (h.alloc (.cons (ptr w) (ptr v))) u := by
  have hb1 : Balanced h (ptr w :: ptr v :: (rest.map ptr ++ owned)) :=
    hb.perm (List.Perm.cons _ List.perm_middle.symm)
  obtain ⟨hcell, hb2⟩ := InHeap.alloc_cons (hin w List.mem_cons_self) hv hb1
  have hk : Keeps h (h.alloc (.cons (ptr w) (ptr v))) :=
    (Balanced.alloc (b := Obj.cons (ptr w) (ptr v)) hb1).2
  refine ⟨hb1, hcell, hb2.perm List.perm_middle, fun u hu => ?_⟩
  exact (hin u (List.mem_cons_of_mem _ hu)).keep_owned hb hk hb2
    (List.mem_cons_of_mem _ (List.mem_append_left _ (List.mem_map_of_mem hu)))

theorem arrayToListLoop_granted : ∀ (rest : List (Ref Pointer)) (v : Ref Pointer) (vals : List (Ref Pointer))
    (h : RcHeap Obj) (g : Nat → Bool), (∀ w ∈ rest, InHeap h w) → (∀ w ∈ rest, w ≠ .null) → InHeap h v →
    IsList v vals → Balanced h (rest.map ptr ++ ptr v :: owned) → (∀ k < rest.length, g k = true) →
    ∃ v' s, arrayToListLoop (rest.map ptr) (ptr v) ⟨h, g⟩ = pure (ptr v', s) ∧
      IsList v' (rest.reverse ++ vals) ∧ InHeap s.heap v' ∧ Balanced s.heap (ptr v' :: owned) := by
  intro rest
  induction rest with
  | nil => exact fun v vals h g _ _ hv hlist hb _ => ⟨v, ⟨h, g⟩, rfl, hlist, hv, hb⟩
  | cons w rest ih =>
    intro v vals h g hin hne hv hlist hb hg
    have hw := hne w List.mem_cons_self
    obtain ⟨-, hcell, hb1, hrest⟩ := arrayToList_step hin hv hb
    obtain ⟨v', s, hrun, hlist', hin', hb'⟩ := ih (.cons (.obj h.next) w v) (w :: vals) _
      (fun k => g (k + 1)) hrest (fun u hu => hne u (List.mem_cons_of_mem _ hu)) hcell (hlist.cons hw) hb1
      fun k hk => hg (k + 1) (Nat.succ_lt_succ hk)
    refine ⟨v', s, ?_, ?_, hin', hb'⟩
    · rw [List.map_cons, arrayToListLoop,
        bind_run (valAllocCons_granted ((hin w List.mem_cons_self).ptr_ne_null hw) (hg 0 (Nat.zero_lt_succ _)))]
      exact hrun
    · rw [List.reverse_cons, List.append_assoc]
      exact hlist'

theorem arrayToListLoop_refused : ∀ (rest : List (Ref Pointer)) (v : Ref Pointer) (h : RcHeap Obj)
    (g : Nat → Bool), (∀ w ∈ rest, InHeap h w) → (∀ w ∈ rest, w ≠ .null) → InHeap h v →
    Balanced h (rest.map ptr ++ ptr v :: owned) → (∃ k < rest.length, g k = false) →
    arrayToListLoop (rest.map ptr) (ptr v) ⟨h, g⟩ = throw .assert := by
  intro rest
  induction rest with
  | nil =>
    rintro v h g _ _ _ _ ⟨k, hk, _⟩
    exact absurd hk (Nat.not_lt_zero k)
  | cons w rest ih =>
    rintro v h g hin hne hv hb ⟨k, hk, hgk⟩
    have hw := (hin w List.mem_cons_self).ptr_ne_null (hne w List.mem_cons_self)
    obtain ⟨hb1, hcell, hb2, hrest⟩ := arrayToList_step hin hv hb
    rw [List.map_cons, arrayToListLoop]
    cases hg : g 0 with
    | false =>
      obtain ⟨s, hrun⟩ := valAllocCons_refused hw hg hb1
      rw [bind_run hrun]
      rfl
    | true =>
      rw [bind_run (valAllocCons_granted hw hg)]
      cases k with
      | zero =>
        rw [hg] at hgk
        cases hgk
      | succ k =>
        exact ih _ _ (fun k => g (k + 1)) hrest (fun u hu => hne u (List.mem_cons_of_mem _ hu)) hcell hb2
          ⟨k, Nat.lt_of_succ_lt_succ hk, hgk⟩

/-! ## The conversions agree -/

theorem buildsList {vals : List (Ref Pointer)} (hvals : Given h owned vals) : BuildsList h owned vals := by
  have hrev : (vals.map ptr).reverse = vals.reverse.map ptr := List.map_reverse.symm
  have hin : ∀ w ∈ vals.reverse, InHeap h w := fun w hw => hvals.inHeap w (List.mem_reverse.mp hw)
  have hne : ∀ w ∈ vals.reverse, w ≠ .null := fun w hw => hvals.ne_null w (List.mem_reverse.mp hw)
  have hb : Balanced h (vals.reverse.map ptr ++ ptr .null :: owned) := by
    have hperm : (vals.reverse.map ptr ++ ptr .null :: owned).Perm (.null :: (vals.map ptr ++ owned)) :=
      List.perm_middle.trans (((List.reverse_perm vals).map ptr).append_right owned |>.cons _)
    exact (balanced_null.mpr hvals.balanced).perm hperm
  constructor
  · intro g hg
    by_cases hlen : (vals.map ptr).length = 0
    · obtain rfl : vals = [] := by simpa using hlen
      refine ⟨.cons valEmptyCons .null .null, ⟨h, g⟩, rfl, ⟨rfl, rfl⟩, .cons rfl .null .null, ?_⟩
      exact hvals.balanced.congr (fun _ => uses_cons.trans (Nat.zero_add _))
        (List.forall_mem_cons.mpr ⟨rfl, hvals.balanced.owned⟩)
    · obtain ⟨v, s, hrun, hlist, hin', hb'⟩ := arrayToListLoop_granted vals.reverse .null [] h g hin hne .null
        ⟨rfl, rfl⟩ hb (by simpa using hg)
      refine ⟨v, s, ?_, by simpa using hlist, hin', hb'⟩
      rw [sexprArrayToList, if_neg hlen, hrev]
      exact hrun
  · rintro g ⟨k, hk, hgk⟩
    rw [sexprArrayToList, if_neg (by rw [List.length_map]; omega), hrev]
    exact arrayToListLoop_refused vals.reverse .null h g hin hne .null hb ⟨k, by simpa using hk, hgk⟩

theorem readsList {vals : List (Ref Pointer)} (hv : InHeap h v) (hb : Balanced h (ptr v :: owned))
    (hlist : IsList v vals) : ReadsList h owned v vals := by
  obtain ⟨hproper, rfl⟩ := hlist
  refine ⟨?_, fun i hi => ?_, fun i hi => ?_, fun alen hlen => ?_, fun alen hlen => ⟨.ENOMEM, ?_⟩⟩
  · have hrun := lengthLoop_runs (m := .any) v h 0 hv hb
    rw [if_pos hproper, Int.zero_add] at hrun
    exact hrun.gives
  · have hrun := sexprNth_runs (m := .any) (i + 1) v h hv hb
    rw [Sexpr.sexprNth_proper hproper, List.getD_eq_getElem?_getD, List.getElem?_eq_getElem hi, Option.getD_some] at hrun
    refine Runs.gives (hrun.mono ?_)
    rintro r h' ⟨rfl, hb'⟩
    exact ⟨rfl, hb'⟩
  · obtain ⟨i, rfl⟩ : ∃ j, i = j + 1 := ⟨i - 1, by omega⟩
    have hrun := sexprNth_runs (m := .any) (i + 1) v h hv hb
    rw [Sexpr.sexprNth_proper hproper, List.getD_eq_getElem?_getD, List.getElem?_eq_none (by omega),
      Option.getD_none] at hrun
    refine Runs.gives (hrun.mono ?_)
    rintro r h' ⟨rfl, hb'⟩
    exact ⟨rfl, balanced_null.mp hb'⟩
  · exact (sexprListToArray_ok hv hb hproper hlen).gives
  · refine (sexprListToArray_error hv hb ?_).gives
    rw [arrayCode, if_neg (by omega), if_pos (by omega)]

theorem refusesList (hv : InHeap h v) (hb : Balanced h (ptr v :: owned)) (himp : IsImproper v) :
    RefusesList h owned v := by
  have himp' : v.toVal.isProper = false := himp
  refine ⟨?_, fun alen => ?_⟩
  · have hrun := lengthLoop_runs (m := .any) v h 0 hv hb
    rw [himp', if_neg (by simp)] at hrun
    exact hrun.gives
  · by_cases hle : alen ≤ v.items.length
    · exact ⟨.ENOMEM, (sexprListToArray_error hv hb (by simp [arrayCode, himp', hle])).gives⟩
    · exact ⟨.EINVAL, (sexprListToArray_error hv hb (by simp [arrayCode, himp', hle])).gives⟩

/-- An array becomes a list of its values. Every walk through a list, whichever way it ends, gives these
values back, and a list with another end is refused by the walks that count it or store it. -/
theorem sexpr_list_conversions (h : RcHeap Obj) (owned : List Pointer) :
    (∀ vals, Given h owned vals → BuildsList h owned vals) ∧
    (∀ v vals, InHeap h v → Balanced h (ptr v :: owned) → IsList v vals → ReadsList h owned v vals) ∧
    (∀ v, InHeap h v → Balanced h (ptr v :: owned) → IsImproper v → RefusesList h owned v) :=
  ⟨fun _ => buildsList, fun _ _ => readsList, fun _ => refusesList⟩

/-- The number 1 and an empty cons cell, in a heap without objects. -/
theorem sexpr_list_conversions_static :
    BuildsList ⟨0, fun _ => none⟩ [] [.int (.static (.int 1)) 1, .cons valEmptyCons .null .null] := by
  refine (sexpr_list_conversions _ []).1 _ ⟨?_, by simp, ?_⟩
  · intro w hw
    rcases List.mem_cons.mp hw with rfl | hw
    · exact .leaf (b := .int 1) rfl rfl
    · obtain rfl := List.mem_singleton.mp hw
      exact .cons rfl .null .null
  · exact balanced_static (balanced_static balanced_empty _) _

end Libjeffpc.Heap
