import Libjeffpc.Sexpr.Proofs.CompactHeapProofs

/-!
# When compaction keeps the counts

Where compaction requests memory it can be made to fail, and where it does not look for an error it can
be made to stop. With the lists that are never released, this is all that can go wrong.
-/

namespace Libjeffpc.Heap

open Lib Libjeffpc.Lib.RcHeap
open Sexpr (Ref Visits AllocFree NameReady Frail Keeping TooLong Stops)

variable {m : Mode} {h₀ h h' : RcHeap Obj} {owned : List Pointer} {p : Pointer} {v : Ref Pointer}

theorem Safe.chosen (hs : Safe .any v) : Safe .chosen v := by
  rintro w hw (hnull | hlong | ⟨hm, -⟩)
  · exact hs w hw (Or.inl hnull)
  · exact hs w hw (Or.inr (Or.inl hlong))
  · cases hm

theorem allocFree_other (hty : v.type ≠ some .array ∧ v.type ≠ some .nvl)
    (hw : Sexpr.whatIsIt v ≠ .array ∧ Sexpr.whatIsIt v ≠ .nvl) : AllocFree v := by
  intro w hvis
  rw [(Sexpr.visits_other hty hw).mp hvis]
  exact ⟨hty.2, hw.1, hw.2⟩

/-! ## Failures -/

theorem valAllocArrayDup_refused {vals : List Pointer} (hb : Balanced h (vals ++ owned)) :
    Runs .chosen h (valAllocArrayDup vals) h fun r h' => r = .err .ENOMEM ∧ Balanced h' owned := by
  refine (Runs.request_refused (P := fun granted h' => granted = false ∧ h' = h) (.refl h)
    ⟨rfl, rfl⟩).bind fun granted h1 _ hg => ?_
  obtain ⟨rfl, rfl⟩ := hg
  exact (putAll_runs hb).bind fun _ _ hk hb' => .pure hk ⟨rfl, hb'⟩

/-- A run that ends with an error. -/
def Fails (v : Ref Pointer) : Prop :=
  ¬AllocFree v → Safe .any v → ∀ h owned, InHeap h v → Balanced h (ptr v :: owned) →
    Runs .chosen h (sexprCompact (ptr v)) h fun r h' =>
      ∃ e lost, r = .err e ∧ Balanced h' (lost ++ owned)

/-- The loop ends at the first element whose compaction requests memory. -/
theorem compactArr_fails {vals : List (Ref Pointer)} (hfails : ∀ v ∈ vals, Fails v) :
    ∀ h owned, (∃ v ∈ vals, ¬AllocFree v) → (∀ v ∈ vals, Safe .any v) → (∀ v ∈ vals, InHeap h v) →
      Balanced h (vals.map ptr ++ owned) →
      Runs .chosen h (compactArr (vals.map ptr)) h fun r h' =>
        ∃ e lost, r.2 = some e ∧ Balanced h' (r.1.filter (!·.isErr) ++ (lost ++ owned)) := by
  induction vals with
  | nil => exact fun _ _ hex => absurd hex (by simp)
  | cons v vals ih =>
    intro h owned hex hsafe hin hb
    rw [List.map_cons, compactArr.eq_def]
    have hsafe' : ∀ w ∈ vals, Safe .any w := fun w hw => hsafe w (List.mem_cons_of_mem _ hw)
    by_cases hfree : AllocFree v
    · refine (sexprCompact_runs v (hsafe v List.mem_cons_self).chosen h (vals.map ptr ++ owned)
        (hin v List.mem_cons_self) hb).bind fun r h1 hk1 h1' => ?_
      obtain ⟨lost, hb1, hres⟩ := h1'
      have hok := hres.ok rfl
      have hex' : ∃ w ∈ vals, ¬AllocFree w := by
        obtain ⟨w, hw, hno⟩ := hex
        rcases List.mem_cons.mp hw with rfl | hw
        · exact absurd hfree hno
        · exact ⟨w, hw, hno⟩
      obtain ⟨hb1', hin'⟩ := arr_step hb (fun w hw => hin w (List.mem_cons_of_mem _ hw)) hk1 hok hb1
      have hnext : Runs .chosen h (compactArr (vals.map ptr) >>= fun x => pure (r :: x.1, x.2)) h1
          fun r h' => ∃ e lost, r.2 = some e ∧ Balanced h' (r.1.filter (!·.isErr) ++ (lost ++ owned)) := by
        refine ((ih (fun w hw => hfails w (List.mem_cons_of_mem _ hw)) h1 _ hex' hsafe' hin' hb1').base
          hk1).bind fun x h2 hk2 h2' => ?_
        obtain ⟨ws, ret⟩ := x
        obtain ⟨-, e, lost', hret, hb2⟩ := h2'
        refine .pure hk2 ⟨e, lost ++ lost', hret, ?_⟩
        rw [List.filter_cons_of_pos (by simp [hok])]
        exact hb2.perm (perm_results r _ lost lost' owned)
      cases r with
      | err e => cases hok
      | _ => exact hnext
    · refine (hfails v List.mem_cons_self hfree (hsafe v List.mem_cons_self) h (vals.map ptr ++ owned)
        (hin v List.mem_cons_self) hb).bind fun r h1 hk1 h1' => ?_
      obtain ⟨e, lost, rfl, hb1⟩ := h1'
      refine .pure hk1 ⟨e, lost, rfl, ?_⟩
      show Balanced h1 ((vals.map ptr).filter (!·.isErr) ++ (lost ++ owned))
      rw [filter_owned hb]
      exact hb1.perm (List.perm_append_comm_assoc _ _ _)

theorem sexprCompact_fails (v : Ref Pointer) : Fails v := by
  induction v using Sexpr.visits_induction with
  | null => exact fun _ hsafe => absurd (Or.inl rfl) (hsafe _ (.refl _))
  | other v _ hty hw => exact fun hno => absurd (allocFree_other hty hw) hno
  | array a vals ih =>
    intro hno hsafe
    exact absurd (allocFree_array.mpr ((safe_array.mp hsafe).1 rfl)) hno
  | nvl a pairs ih =>
    intro _ _ h owned hin hb
    cases hin with
    | leaf hb' _ => cases hb'
    | nvl hp _ _ =>
    refine .congr (sexprCompact_nvl_eq hp) ?_
    refine (valAlloc_refused _).bind fun r h1 _ hr => ?_
    obtain ⟨rfl, rfl⟩ := hr
    exact (valPutref_runs hb).bind fun _ _ hk hb' => .pure hk ⟨.ENOMEM, [], rfl, hb'⟩
  | alist q head tail hw ih =>
    intro _ _ h owned hin hb
    refine .congr (sexprCompact_alist_eq hin hw) ?_
    refine (valAlloc_refused _).bind fun r h1 _ hr => ?_
    obtain ⟨rfl, rfl⟩ := hr
    exact (valPutref_runs hb).bind fun _ _ hk hb' => .pure hk ⟨.ENOMEM, [], rfl, hb'⟩
  | list q head tail hw ih =>
    intro _ hsafe h owned hin hb
    obtain ⟨hlen, hsafe⟩ := (safe_list hw).mp hsafe
    refine .congr (sexprCompact_list_eq hin hw) ?_
    refine (consArrayFront_runs hin (Sexpr.whatIsIt_array hw).1 hb hlen).bind fun arr h1 hk1 h1' => ?_
    obtain ⟨rfl, hin1, hb1⟩ := h1'
    by_cases hex : ∃ u ∈ (Ref.cons q head tail).items, ¬AllocFree u
    · refine ((compactArr_fails ih h1 _ hex hsafe hin1 hb1).base hk1).bind fun x h2 hk2 h2' => ?_
      obtain ⟨ws, ret⟩ := x
      obtain ⟨-, e, lost, rfl, hb2⟩ := h2'
      refine ((putAll_runs hb2).base hk2).bind fun _ h3 hk3 h3' => ?_
      refine .pure hk3 ⟨e, lost ++ [q], rfl, ?_⟩
      rw [List.append_assoc]
      exact h3'.2
    · refine ((compactArr_runs (fun u _ => sexprCompact_runs u) h1 _ (fun u hu => (hsafe u hu).chosen) hin1
        hb1).base hk1).bind fun x h2 hk2 h2' => ?_
      obtain ⟨ws, ret⟩ := x
      obtain ⟨-, lost, hb2, hok, hret⟩ := h2'
      obtain rfl : ret = none := hret rfl
      have hfilter : ws.filter (!·.isErr) = ws :=
        List.filter_eq_self.mpr fun w hw => by rw [hok rfl w hw]; rfl
      rw [hfilter] at hb2
      refine ((valAllocArrayDup_refused hb2).base hk2).mono fun r h3 h3' => ?_
      obtain ⟨-, rfl, hb3⟩ := h3'
      refine ⟨.ENOMEM, lost ++ [q], rfl, ?_⟩
      rw [List.append_assoc]
      exact hb3

/-! ## Runs that do not return -/

def Breaks (v : Ref Pointer) : Prop :=
  ¬Safe .any v → ∀ h owned, InHeap h v → Balanced h (ptr v :: owned) → Stuck (sexprCompact (ptr v)) h

theorem part_stuck (hbreaks : Breaks v) (hno : ¬Safe .any v) (hk : Keeps h₀ h) (hv : Stays h₀ owned v)
    (hb : Balanced h owned) : Stuck (do sexprCompact (← valGetref (ptr v))) h := by
  refine .right (((hv h [] hk hb).getref_runs hb).base hk) fun _ h1 hk1 h1' => ?_
  obtain ⟨-, rfl, hb1⟩ := h1'
  exact hbreaks hno h1 owned (hv h1 [_] hk1 hb1) hb1

/-- The compaction of a part fails if it requests memory. -/
theorem part_fails (hsafe : Safe .any v) (hk : Keeps h₀ h) (hv : Stays h₀ owned v) (hb : Balanced h owned) :
    Runs .chosen h₀ (do sexprCompact (← valGetref (ptr v))) h fun r h' =>
      (¬AllocFree v → ∃ e, r = .err e) ∧ ∃ lost, Balanced h' (r.given ++ (lost ++ owned)) := by
  by_cases hfree : AllocFree v
  · refine (part_runs (sexprCompact_runs v) hsafe.chosen hk hv hb).mono fun r h1 h1' => ?_
    obtain ⟨-, lost, hb1, -⟩ := h1'
    exact ⟨fun hno => absurd hfree hno, lost, hb1⟩
  · refine (((hv h [] hk hb).getref_runs hb).base hk).bind fun _ h1 hk1 h1' => ?_
    obtain ⟨-, rfl, hb1⟩ := h1'
    refine ((sexprCompact_fails v hfree hsafe h1 owned (hv h1 [_] hk1 hb1) hb1).base hk1).mono
      fun r h2 h2' => ?_
    obtain ⟨-, e, lost, rfl, hb2⟩ := h2'
    exact ⟨fun _ => ⟨e, rfl⟩, lost, hb2⟩

/-- The loop over the elements of an array goes on after an error. -/
theorem compactElems_fails {vals : List (Ref Pointer)} :
    ∀ h owned, Keeps h₀ h → (∀ v ∈ vals, Safe .any v) → (∀ v ∈ vals, Stays h₀ owned v) → Balanced h owned →
      Runs .chosen h₀ (compactElems (vals.map ptr)) h fun ws h' =>
        ((∃ v ∈ vals, ¬AllocFree v) → ∃ e, .err e ∈ ws) ∧
          ∃ lost, Balanced h' (ws.filter (!·.isErr) ++ (lost ++ owned)) := by
  induction vals with
  | nil =>
    intro h owned hk _ _ hb
    rw [List.map_nil, compactElems.eq_def]
    exact .pure hk ⟨fun hex => absurd hex (by simp), [], hb⟩
  | cons v vals ih =>
    intro h owned hk hsafe hstays hb
    rw [List.map_cons, compactElems_cons]
    refine (part_fails (hsafe v List.mem_cons_self) hk (hstays v List.mem_cons_self) hb).bind
      fun r h1 hk1 h1' => ?_
    obtain ⟨herr, lost, hb1⟩ := h1'
    have hstays' : ∀ w ∈ vals, Stays h₀ (r.given ++ (lost ++ owned)) w := fun w hw =>
      ((hstays w (List.mem_cons_of_mem _ hw)).owns lost).owns r.given
    refine (ih h1 _ hk1 (fun w hw => hsafe w (List.mem_cons_of_mem _ hw)) hstays' hb1).bind
      fun ws h2 hk2 h2' => ?_
    obtain ⟨herr', lost', hb2⟩ := h2'
    refine .pure hk2 ⟨?_, lost ++ lost', ?_⟩
    · rintro ⟨w, hw, hno⟩
      rcases List.mem_cons.mp hw with rfl | hw
      · obtain ⟨e, rfl⟩ := herr hno
        exact ⟨e, List.mem_cons_self⟩
      · obtain ⟨e, he⟩ := herr' ⟨w, hw, hno⟩
        exact ⟨e, List.mem_cons_of_mem _ he⟩
    · cases hr : r.isErr with
      | false =>
        rw [given_of_ok hr] at hb2
        rw [List.filter_cons_of_pos (by simp [hr])]
        exact hb2.perm (perm_results r _ lost lost' owned)
      | true =>
        cases r with
        | err e =>
          rw [List.filter_cons_of_neg (by simp [Ptr.isErr])]
          refine hb2.perm ?_
          rw [List.perm_iff_count]
          intro x
          simp only [List.count_append, Ptr.given, List.count_nil]
          omega
        | _ => cases hr

theorem compactElems_stuck {vals : List (Ref Pointer)} (hbreaks : ∀ v ∈ vals, Breaks v) :
    ∀ h owned, Keeps h₀ h → (∃ v ∈ vals, ¬Safe .any v) → (∀ v ∈ vals, Stays h₀ owned v) →
      Balanced h owned → Stuck (compactElems (vals.map ptr)) h := by
  induction vals with
  | nil => exact fun _ _ _ hex => absurd hex (by simp)
  | cons v vals ih =>
    intro h owned hk hex hstays hb
    rw [List.map_cons, compactElems_cons]
    have hv := hstays v List.mem_cons_self
    by_cases hsafe : Safe .any v
    · refine .right (part_runs (sexprCompact_runs v) hsafe.chosen hk hv hb) fun r h1 hk1 h1' => ?_
      obtain ⟨-, lost, hb1, -⟩ := h1'
      have hstays' : ∀ w ∈ vals, Stays h₀ (r.given ++ (lost ++ owned)) w := fun w hw =>
        ((hstays w (List.mem_cons_of_mem _ hw)).owns lost).owns r.given
      have hex' : ∃ w ∈ vals, ¬Safe .any w :=
        ((List.exists_mem_cons_iff _ _ _).mp hex).resolve_left (not_not.mpr hsafe)
      exact .left (ih (fun w hw => hbreaks w (List.mem_cons_of_mem _ hw)) h1 _ hk1 hex' hstays' hb1)
    · exact .left (part_stuck (hbreaks v List.mem_cons_self) hsafe hk hv hb)

theorem compactArr_stuck {vals : List (Ref Pointer)} (hbreaks : ∀ v ∈ vals, Breaks v) :
    ∀ h owned, (∃ v ∈ vals, ¬Safe .any v) → (∀ v ∈ vals, InHeap h v) →
      Balanced h (vals.map ptr ++ owned) → Stuck (compactArr (vals.map ptr)) h := by
  induction vals with
  | nil => exact fun _ _ hex => absurd hex (by simp)
  | cons v vals ih =>
    intro h owned hex hin hb
    rw [List.map_cons, compactArr.eq_def]
    by_cases hsafe : Safe .any v
    · refine .right (sexprCompact_runs v hsafe.chosen h (vals.map ptr ++ owned) (hin v List.mem_cons_self)
        hb) fun r h1 hk1 h1' => ?_
      obtain ⟨lost, hb1, hres⟩ := h1'
      have hok := hres.ok rfl
      obtain ⟨hb1', hin'⟩ := arr_step hb (fun w hw => hin w (List.mem_cons_of_mem _ hw)) hk1 hok hb1
      have hex' : ∃ w ∈ vals, ¬Safe .any w :=
        ((List.exists_mem_cons_iff _ _ _).mp hex).resolve_left (not_not.mpr hsafe)
      have hrest := ih (fun w hw => hbreaks w (List.mem_cons_of_mem _ hw)) h1 _ hex' hin' hb1'
      cases r with
      | err e => cases hok
      | _ => exact .left hrest
    · exact .left (hbreaks v List.mem_cons_self hsafe h _ (hin v List.mem_cons_self) hb)

theorem compactPairs_stuck {a : Nat} {pairs : List (CStr × Ref Pointer)} (hbreaks : ∀ q ∈ pairs, Breaks q.2) :
    ∀ qs h owned equal, qs.map (fun q => (q.1, q.2.2)) = pairs.map (fun q => (q.1, ptr q.2)) →
      Fresh h₀ h owned a → (∃ q ∈ pairs, ¬Safe .any q.2) → (∀ q ∈ pairs, Stays h₀ owned q.2) →
      (∀ q ∈ qs, NameStays h₀ owned q.2.1) → Stuck (compactPairs qs (.obj a) equal) h := by
  induction pairs with
  | nil => exact fun _ _ _ _ _ _ hex => absurd hex (by simp)
  | cons q pairs ih =>
    intro qs h owned equal hqs hf hex hstays hnames
    obtain ⟨⟨cname, name, value⟩, qs, rfl, heq, hqs'⟩ := List.map_eq_cons_iff.mp hqs
    obtain rfl : value = ptr q.2 := (Prod.mk.inj heq).2
    rw [compactPairs_cons]
    have hv := hstays q List.mem_cons_self
    by_cases hsafe : Safe .any q.2
    · refine .right (pairStep_runs (sexprCompact_runs q.2) hsafe.chosen hv (hnames _ List.mem_cons_self) hf)
        fun r h1 hk1 h1' => ?_
      obtain ⟨lost, hf1, -, hok⟩ := h1'
      obtain ⟨w, rfl⟩ := hok rfl
      have hex' : ∃ q ∈ pairs, ¬Safe .any q.2 :=
        ((List.exists_mem_cons_iff _ _ _).mp hex).resolve_left (not_not.mpr hsafe)
      exact ih (fun w hw => hbreaks w (List.mem_cons_of_mem _ hw)) qs h1 (lost ++ owned) _ hqs' hf1 hex'
        (fun w hw => (hstays w (List.mem_cons_of_mem _ hw)).owns lost)
        fun w hw => (hnames w (List.mem_cons_of_mem _ hw)).owns lost
    · rw [pairStep, ← bind_assoc]
      exact .left (.left (part_stuck (hbreaks q List.mem_cons_self) hsafe hf.keeps hv hf.balanced))

theorem strDup_refused {s : CStr} (hs : ¬getPreallocated s = true) :
    Runs .chosen h (strDup s) h fun r h' => r = .err .ENOMEM ∧ h' = h := by
  rw [strDup, if_neg hs]
  split
  · exact valAlloc_refused _
  · refine (Runs.request_refused (P := fun granted h' => granted = false ∧ h' = h) (.refl h)
      ⟨rfl, rfl⟩).bind fun granted h1 hk hg => ?_
    obtain ⟨rfl, rfl⟩ := hg
    exact .pure hk ⟨rfl, rfl⟩

theorem entryStep_stuck {a : Nat} {name : Ref Pointer} (hbreaks : Breaks v) (hv : Stays h₀ owned v)
    (hin : InHeap h name) (hty : name.type = some .str ∨ name.type = some .sym)
    (hno : ¬Safe .any v ∨ ∃ b s, name = .sym b s ∧ ¬getPreallocated s = true) (hf : Fresh h₀ h owned a) :
    Stuck (entryStep (ptr name) (ptr v) (.obj a)) h := by
  by_cases hsafe : Safe .any v
  · -- the copy of the name fails, and its code is taken for a pointer
    obtain ⟨b, s, rfl, hs⟩ := hno.resolve_left (not_not.mpr hsafe)
    have hname : Runs .chosen h₀ (pairName (ptr (.sym b s))) h fun r h' => r = .err .ENOMEM ∧ h' = h := by
      cases hin with
      | leaf hleaf hp =>
        obtain rfl := Option.some.inj hleaf
        exact (load_reads hp).runs hf.keeps (((strDup_refused hs).base hf.keeps).mono fun _ _ h => h.2)
    refine .right hname fun r h1 hk1 h1' => ?_
    obtain ⟨rfl, rfl⟩ := h1'
    rw [← bind_assoc]
    refine .right (part_runs (sexprCompact_runs v) hsafe.chosen hk1 hv hf.balanced) fun r h2 _ h2' => ?_
    obtain ⟨-, lost, -, hres⟩ := h2'
    have hok := hres.ok rfl
    have hcstr : Stuck (strCstr (.err .ENOMEM)) h2 := .left (.of_throw (e := .code) fun _ => rfl)
    cases r with
    | err e => cases hok
    | _ => exact .left hcstr
  · refine .right ((pairName_runs (m := .chosen) hin hf.balanced hty nofun).base hf.keeps)
      fun name' h1 hk1 h1' => ?_
    obtain ⟨-, hb1, -⟩ := h1'
    rw [← bind_assoc]
    exact .left (part_stuck hbreaks hsafe hk1 (hv.owns [name']) hb1)

theorem compactEntries_stuck {a : Nat} : ∀ (v : Ref Pointer) (h : RcHeap Obj) (owned : List Pointer),
    (∀ u ∈ v.items, Breaks (Sexpr.sexprCdr u)) → v.toVal.isProper → (∀ u ∈ v.items, Sexpr.isPair u) →
    (∃ u ∈ v.items, ¬Safe .any (Sexpr.sexprCdr u) ∨ ¬NameReady u) →
    Fresh h₀ h owned a → Stays h₀ owned v → Stuck (compactEntries (ptr v) (.obj a)) h
  | .null, _, _, _, _, _, hex, _, _ => absurd hex (by simp [Ref.items])
  | .cons p item tail, h, owned, hbreaks, hproper, hpair, hex, hf, hv => by
    have hin := hv h [] hf.keeps hf.balanced
    cases hn : Sexpr.sexprIsNull (.cons p item tail) with
    | true =>
      rw [Sexpr.items_empty hn] at hex
      exact absurd hex (by simp)
    | false =>
      rw [Sexpr.toVal_cons hn, Val.isProper] at hproper
      rw [Sexpr.items_cons hn] at hbreaks hpair hex
      obtain ⟨q, name, value, rfl, hty⟩ := isPair_cases (hpair item List.mem_cons_self)
      have hname : InHeap h name := hv.head.head h [] hf.keeps hf.balanced
      refine .congr (compactEntries_pair hin hn) ?_
      by_cases hbad : ¬Safe .any value ∨ ∃ b s, name = .sym b s ∧ ¬getPreallocated s = true
      · exact .left (entryStep_stuck (hbreaks _ List.mem_cons_self) hv.head.tail hname hty hbad hf)
      · obtain ⟨hsafe, hready⟩ := not_or.mp hbad
        have hsafe : Safe .any value := not_not.mp hsafe
        refine .right (entryStep_runs (m := .chosen) (sexprCompact_runs value) hsafe.chosen hv.head.tail hname
          hty (by rintro ⟨⟩) hf) fun r h1 hk1 h1' => ?_
        obtain ⟨lost, hf1, -, hok⟩ := h1'
        obtain rfl := hok rfl
        have hex' : ∃ u ∈ tail.items, ¬Safe .any (Sexpr.sexprCdr u) ∨ ¬NameReady u := by
          refine ((List.exists_mem_cons_iff _ _ _).mp hex).resolve_left ?_
          rintro (hno | hno)
          · exact hno hsafe
          · refine hno fun _ b s _ heq => ?_
            obtain ⟨-, rfl, -⟩ := Sexpr.Ref.cons.inj heq
            by_contra hs
            exact hready ⟨b, s, rfl, hs⟩
        exact compactEntries_stuck tail h1 (lost ++ owned) (fun u hu => hbreaks u (List.mem_cons_of_mem _ hu))
          hproper (fun u hu => hpair u (List.mem_cons_of_mem _ hu)) hex' hf1 (hv.tail.owns lost)

/-! ## The kinds of values -/

theorem breaks_array {vals : List (Ref Pointer)} (ih : ∀ v ∈ vals, Breaks v) : Breaks (.array p vals) := by
  intro hno h owned hin hb
  have hstays := hin.stays hb List.mem_cons_self
  cases hin with
  | leaf hb' _ => cases hb'
  | array hp hvals =>
  refine .congr (sexprCompact_array_eq hp) ?_
  by_cases hall : ∀ v ∈ vals, Safe .any v
  · -- an error among the new elements; it is released like a pointer
    have hex : ∃ v ∈ vals, ¬AllocFree v := by
      by_contra hfree
      refine hno (safe_array.mpr ⟨fun _ v hv => ?_, hall⟩)
      by_contra hno'
      exact hfree ⟨v, hv, hno'⟩
    refine .right (compactElems_fails h _ (.refl h) hall (fun v hv => hstays.elem hv) hb)
      fun ws h1 hk1 h1' => ?_
    obtain ⟨herr, lost, hb1⟩ := h1'
    obtain ⟨e, he⟩ := herr hex
    have hne : ws ≠ vals.map ptr := by
      rintro rfl
      obtain ⟨v, hv, hptr⟩ := List.mem_map.mp he
      have hok := (hvals v hv).ref.1
      rw [hptr] at hok
      cases hok
    rw [if_neg hne]
    have hb1' : Balanced h1 (p :: (ws.filter (!·.isErr) ++ (lost ++ owned))) := by
      refine hb1.perm ?_
      rw [List.perm_iff_count]
      intro x
      simp only [List.count_append, List.count_cons, ptr, Sexpr.Ref.addr, Option.getD_some]
      omega
    refine .right (valPutref_runs (m := .chosen) hb1') fun _ h2 _ hb2 => ?_
    refine .right (Runs.request_refused (P := fun granted h' => granted = false ∧ h' = h2) (.refl h2)
      ⟨rfl, rfl⟩) fun granted h3 _ hg => ?_
    obtain ⟨rfl, rfl⟩ := hg
    exact .left (putAll_stuck hb2 he)
  · have hex : ∃ v ∈ vals, ¬Safe .any v := by
      by_contra hno'
      refine hall fun v hv => ?_
      by_contra hv'
      exact hno' ⟨v, hv, hv'⟩
    exact .left (compactElems_stuck ih h _ (.refl h) hex (fun v hv => hstays.elem hv) hb)

theorem breaks_nvl {pairs : List (CStr × Ref Pointer)} (ih : ∀ q ∈ pairs, Breaks q.2) :
    Breaks (.nvl p pairs) := by
  intro hno h owned hin hb
  have hex : ∃ q ∈ pairs, ¬Safe .any q.2 := by
    by_contra hall
    refine hno (safe_nvl.mpr fun q hq => ?_)
    by_contra hq'
    exact hall ⟨q, hq, hq'⟩
  have hstays := hin.stays hb List.mem_cons_self
  cases hin with
  | leaf hb' _ => cases hb'
  | @nvl _ _ qs hp hqs _ =>
  refine .congr (sexprCompact_nvl_eq hp) ?_
  refine .right (nvlAlloc_runs hb) fun dst h1 hk1 h1' => ?_
  rcases h1' with ⟨hm, -⟩ | ⟨a, rfl, hf1⟩
  · cases hm
  have hnames : ∀ q ∈ qs, NameStays h (.obj a :: p :: owned) q.2.1 := fun q hq =>
    (nameStays hp hb List.mem_cons_self hq).owns [.obj a]
  exact .left (compactPairs_stuck ih qs h1 _ true hqs hf1 hex
    (fun q hq => (hstays.value hq).owns [.obj a]) hnames)

theorem breaks_list {q : Pointer} {head tail : Ref Pointer}
    (hw : Sexpr.whatIsIt (.cons q head tail) = .array)
    (ih : ∀ u ∈ (Ref.cons q head tail).items, Breaks u) : Breaks (.cons q head tail) := by
  intro hno h owned hin hb
  have hproper := (Sexpr.whatIsIt_array hw).1
  refine .congr (sexprCompact_list_eq hin hw) ?_
  by_cases hlen : (Ref.cons q head tail).items.length < 2 ^ 31
  · have hex : ∃ u ∈ (Ref.cons q head tail).items, ¬Safe .any u := by
      by_contra hall
      refine hno ((safe_list hw).mpr ⟨hlen, fun u hu => ?_⟩)
      by_contra hu'
      exact hall ⟨u, hu, hu'⟩
    refine .right (consArrayFront_runs hin hproper hb hlen) fun arr h1 hk1 h1' => ?_
    obtain ⟨rfl, hin1, hb1⟩ := h1'
    exact .left (compactArr_stuck ih h1 _ hex hin1 hb1)
  · exact .left (consArrayFront_stuck hin hproper hb (Nat.not_lt.mp hlen))

theorem breaks_alist {q : Pointer} {head tail : Ref Pointer}
    (hw : Sexpr.whatIsIt (.cons q head tail) = .nvl)
    (ih : ∀ u ∈ (Ref.cons q head tail).items, Breaks (Sexpr.sexprCdr u)) : Breaks (.cons q head tail) := by
  intro hno h owned hin hb
  have hex : ∃ u ∈ (Ref.cons q head tail).items, ¬Safe .any (Sexpr.sexprCdr u) ∨ ¬NameReady u := by
    by_contra hall
    refine hno ((safe_alist hw).mpr ⟨fun _ u hu => ?_, fun u hu => ?_⟩)
    · by_contra hu'
      exact hall ⟨u, hu, Or.inr hu'⟩
    · by_contra hu'
      exact hall ⟨u, hu, Or.inl hu'⟩
  have hstays := hin.stays hb List.mem_cons_self
  have hpair : ∀ u ∈ (Ref.cons q head tail).items, Sexpr.isPair u := fun u hu =>
    (Sexpr.isPair_toVal u).trans ((Sexpr.IsAlist.of_whatIsIt hw).2 u hu)
  refine .congr (sexprCompact_alist_eq hin hw) ?_
  refine .right (nvlAlloc_runs hb) fun out h1 hk1 h1' => ?_
  rcases h1' with ⟨hm, -⟩ | ⟨a, rfl, hf1⟩
  · cases hm
  exact .left (compactEntries_stuck _ h1 _ ih (Sexpr.whatIsIt_nvl hw).1 hpair hex hf1
    (hstays.owns [.obj a]))

theorem sexprCompact_breaks (v : Ref Pointer) : Breaks v := by
  induction v using Sexpr.visits_induction with
  | null =>
    intro _ h owned _ _
    rw [sexprCompact.eq_def]
    exact .left (.of_throw (e := .null) fun _ => rfl)
  | other v hn hty hw =>
    intro hno
    refine absurd (fun w hvis hbad => ?_) hno
    obtain rfl := (Sexpr.visits_other hty hw).mp hvis
    rcases hbad with hnull | ⟨hlong, -⟩ | ⟨-, ⟨_, _, rfl, -⟩ | ⟨hnvl, -⟩⟩
    · exact hn hnull
    · exact hw.1 hlong
    · exact hty.1 rfl
    · exact hw.2 hnvl
  | array a vals ih => exact breaks_array ih
  | nvl a pairs ih => exact breaks_nvl ih
  | list a h t hw ih => exact breaks_list hw ih
  | alist a h t hw ih => exact breaks_alist hw ih

/-! ## The result -/

theorem keeping_iff : Keeping v ↔ Safe .any v ∧ NoList v := by
  constructor
  · refine fun hk => ⟨fun w hw hbad => ?_, fun w hw => (hk w hw).2.1⟩
    obtain ⟨hnull, hlist, hfrail⟩ := hk w hw
    rcases hbad with h | ⟨h, -⟩ | ⟨-, h⟩
    · exact hnull h
    · exact hlist h
    · exact hfrail h
  · rintro ⟨hsafe, hno⟩ w hw
    exact ⟨fun h => hsafe w hw (Or.inl h), hno w hw, fun h => hsafe w hw (Or.inr (Or.inr ⟨rfl, h⟩))⟩

theorem Runs.leaves {f : HeapM Pointer} {left : List Pointer}
    (hf : Runs .any h f h fun r h' => Balanced h' (r.given ++ left)) : Leaves f h left := by
  intro g
  obtain ⟨r, h', g', hrun, -, hb⟩ := hf g
  exact ⟨r, ⟨h', g'⟩, hrun, hb⟩

theorem Stuck.not_leaves {f : HeapM Pointer} {left : List Pointer} (hf : Stuck f h) : ¬Leaves f h left := by
  obtain ⟨g, hg⟩ := hf
  intro hl
  obtain ⟨r, s, hrun, -⟩ := hl g
  exact hg _ hrun

/-- The counts tell how many references there are. -/
theorem Leaves.uses_eq {f : HeapM Pointer} {left : List Pointer} {P : Pointer → RcHeap Obj → Prop}
    (hl : Leaves f h left) (hf : Runs .chosen h f h P) :
    ∃ r h', P r h' ∧ ∀ owned', Balanced h' owned' → ∀ x, uses x owned' = uses x (r.given ++ left) := by
  obtain ⟨gs, r, h', hrun, -, hP⟩ := hf
  obtain ⟨r', s, hrun', hb⟩ := hl (gs ++ₛ fun _ => true)
  obtain ⟨rfl, rfl⟩ := Prod.mk.inj (pure_inj ((hrun _).symm.trans hrun'))
  refine ⟨r, h', hP, fun owned' hb' x => ?_⟩
  have hcount : h'.held x + uses x owned' = h'.held x + uses x (r.given ++ left) :=
    (hb'.count x).symm.trans (hb.count x)
  omega

theorem sexprCompact_leaves_iff (hin : InHeap h v) (hb : Balanced h (ptr v :: owned)) :
    Leaves (sexprCompact (ptr v)) h owned ↔ Keeping v := by
  rw [keeping_iff]
  constructor
  · intro hl
    have hsafe : Safe .any v := by
      by_contra hno
      exact (sexprCompact_breaks v hno h owned hin hb).not_leaves hl
    refine ⟨hsafe, ?_⟩
    by_contra hno
    obtain ⟨r, h', ⟨lost, hb', hres⟩, huses⟩ :=
      hl.uses_eq (sexprCompact_runs v hsafe.chosen h owned hin hb)
    obtain ⟨a, ha⟩ := hres.lost.some rfl hno
    have hcount := huses _ hb' a
    have hpos := uses_pos ha
    rw [uses_append, uses_append, uses_append] at hcount
    omega
  · rintro ⟨hsafe, hno⟩
    refine Runs.leaves ((sexprCompact_runs v hsafe h owned hin hb).mono fun r h' hr => ?_)
    obtain ⟨lost, hb', hres⟩ := hr
    rw [hres.lost.none hno] at hb'
    exact hb'

/-! ## `sexpr_list_to_val_array` -/

/-- The function after it has found the length of the list. -/
def listToValArrayRest (list : Pointer) (len : Int) : HeapM Pointer := do
  if len < 0 then do
    valPutref list
    pure (.err .EINVAL)
  else if ← request then
    match ← sexprListToArray list len.toNat with
    | .ok arr => if intOfLength arr.length = len then valAllocArray arr else pure (.err .EINVAL)
    | .error _ => pure (.err .EINVAL)
  else do
    valPutref list
    pure (.err .ENOMEM)

theorem sexprListToValArray_eq (list : Pointer) :
    sexprListToValArray list = (do sexprLength (← valGetref list)) >>= listToValArrayRest list := by
  rw [bind_assoc]
  rfl

theorem listToValArray_improper (hin : InHeap h v) (hb : Balanced h (ptr v :: owned))
    (hp : v.toVal.isProper = false) :
    Runs m h (sexprListToValArray (ptr v)) h fun r h' => Balanced h' (r.given ++ owned) := by
  rw [sexprListToValArray_eq]
  refine (sexprLength_runs hin hb).bind fun len h1 hk1 h1' => ?_
  obtain ⟨rfl, -, hb1⟩ := h1'
  rw [hp, listToValArrayRest, if_pos (by simp)]
  exact ((valPutref_runs hb1).base hk1).bind fun _ _ hk2 h2' => .pure hk2 h2'.2

/-- No memory for the elements: the list is released. -/
theorem listToValArray_refused (hin : InHeap h v) (hb : Balanced h (ptr v :: owned))
    (hp : v.toVal.isProper) :
    Runs .chosen h (sexprListToValArray (ptr v)) h fun r h' => r.given = [] ∧ Balanced h' owned := by
  rw [sexprListToValArray_eq]
  refine (sexprLength_runs hin hb).bind fun len h1 hk1 h1' => ?_
  obtain ⟨rfl, -, hb1⟩ := h1'
  rw [if_pos hp, listToValArrayRest, if_neg (by omega)]
  refine (Runs.request_refused (P := fun granted h' => granted = false ∧ h' = h1) hk1 ⟨rfl, rfl⟩).bind
    fun granted h2 hk2 hg => ?_
  obtain ⟨rfl, rfl⟩ := hg
  exact ((valPutref_runs hb1).base hk2).bind fun _ _ hk3 h3' => .pure hk3 ⟨rfl, h3'.2⟩

/-- With memory for the elements the list is not released. If it is too long, neither are its elements. -/
theorem listToValArray_granted (hin : InHeap h v) (hb : Balanced h (ptr v :: owned)) (hp : v.toVal.isProper)
    {P : Pointer → RcHeap Obj → Prop} (hk : Keeps h₀ h)
    (hP : ∀ r h' lost, Balanced h' (r.given ++ (lost ++ (ptr v :: owned))) →
      (v.items.length < 2 ^ 31 → lost = []) → P r h') :
    Runs m h₀ (do
      match ← sexprListToArray (ptr v) v.items.length with
      | .ok arr => if intOfLength arr.length = v.items.length then valAllocArray arr else pure (.err .EINVAL)
      | .error _ => pure (.err .EINVAL)) h P := by
  have hstays := hin.stays hb List.mem_cons_self
  refine ((sexprListToArray_runs hstays hp hb).base hk).bind fun arr h1 hk1 h1' => ?_
  obtain ⟨-, rfl, hb1⟩ := h1'
  dsimp only
  rw [List.length_map]
  by_cases hlen : v.items.length < 2 ^ 31
  · rw [if_pos ((intOfLength_eq_iff _).mpr hlen)]
    refine ((valAllocArray_runs hb1).base hk1).mono fun r h2 h2' => ?_
    exact hP r h2 [] h2'.2.1 fun _ => rfl
  · rw [if_neg fun heq => hlen ((intOfLength_eq_iff _).mp heq)]
    exact .pure hk1 (hP _ _ (v.items.map ptr) hb1 fun h => absurd h hlen)

/-- A pointer to no object on the heap is not counted. -/
theorem balanced_uncounted {p : Pointer} {l : List Pointer} (hp : ∀ a, p ≠ .obj a)
    (hb : Balanced h (l ++ (p :: owned))) : Balanced h (l ++ owned) := by
  refine hb.congr (fun x => ?_) fun q hq => hb.owned q ?_
  · have hzero : uses x [p] = 0 := by
      cases p with
      | obj a => exact absurd rfl (hp a)
      | _ => rfl
    rw [uses_append, uses_append, uses_cons (p := p), hzero, Nat.zero_add]
  · rcases List.mem_append.mp hq with hq | hq
    · exact List.mem_append_left _ hq
    · exact List.mem_append_right _ (List.mem_cons_of_mem _ hq)

theorem items_uncounted (hin : InHeap h v) (hp : ∀ a, ptr v ≠ .obj a) : v.items = [] := by
  cases v with
  | cons q head tail =>
    cases hn : Sexpr.sexprIsNull (.cons q head tail) with
    | true => exact Sexpr.items_empty hn
    | false =>
      obtain ⟨a, ha⟩ := ptr_list hin hn
      exact absurd ha (hp a)
  | _ => rfl

theorem listToValArray_uncounted (hin : InHeap h v) (hb : Balanced h (ptr v :: owned))
    (hproper : v.toVal.isProper) (hp : ∀ a, ptr v ≠ .obj a) :
    Runs .any h (sexprListToValArray (ptr v)) h fun r h' => Balanced h' (r.given ++ owned) := by
  rw [sexprListToValArray_eq]
  refine (sexprLength_runs hin hb).bind fun len h1 hk1 h1' => ?_
  obtain ⟨rfl, hin1, hb1⟩ := h1'
  rw [if_pos hproper, listToValArrayRest, if_neg (by omega), Int.toNat_natCast]
  refine (Runs.request (P := fun _ h' => h' = h1) hk1 rfl fun _ => rfl).bind fun granted h2 hk2 hg => ?_
  obtain rfl := hg
  cases granted with
  | true =>
    refine listToValArray_granted hin1 hb1 hproper hk2 fun r h3 lost hb3 hlost => ?_
    rw [hlost (by rw [items_uncounted hin hp]; simp), List.nil_append] at hb3
    exact balanced_uncounted hp hb3
  | false => exact ((valPutref_runs hb1).base hk2).bind fun _ _ hk3 h3' => .pure hk3 h3'.2

theorem sexprListToValArray_leaves_iff (hin : InHeap h v) (hb : Balanced h (ptr v :: owned)) :
    (Leaves (sexprListToValArray (ptr v)) h owned ∨ Leaves (sexprListToValArray (ptr v)) h (ptr v :: owned)) ↔
      (v.toVal.isProper = false ∨ ∀ a, ptr v ≠ .obj a) := by
  constructor
  · intro hl
    by_contra hno
    obtain ⟨hproper, hobj⟩ := not_or.mp hno
    have hproper : v.toVal.isProper = true := Bool.eq_true_of_not_eq_false hproper
    obtain ⟨a, ha⟩ : ∃ a, ptr v = .obj a := by
      by_contra hne
      exact hobj fun a ha => hne ⟨a, ha⟩
    have hone : uses a [ptr v] = 1 := by
      rw [ha, uses_obj, if_pos rfl]
    rcases hl with hl | hl
    · have hrun : Runs .chosen h (sexprListToValArray (ptr v)) h fun r h' =>
          ∃ lost, Balanced h' (r.given ++ (lost ++ (ptr v :: owned))) := by
        rw [sexprListToValArray_eq]
        refine (sexprLength_runs hin hb).bind fun len h1 hk1 h1' => ?_
        obtain ⟨rfl, hin1, hb1⟩ := h1'
        rw [if_pos hproper, listToValArrayRest, if_neg (by omega), Int.toNat_natCast]
        refine (Runs.request (m := .chosen) (P := fun granted h' => granted = true ∧ h' = h1) hk1 ⟨rfl, rfl⟩
          nofun).bind fun granted h2 hk2 hg => ?_
        obtain ⟨rfl, rfl⟩ := hg
        exact listToValArray_granted hin1 hb1 hproper hk2 fun r h3 lost hb3 _ => ⟨lost, hb3⟩
      obtain ⟨r, h', ⟨lost, hb'⟩, huses⟩ := hl.uses_eq hrun
      have hcount := huses _ hb' a
      rw [uses_append, uses_append, uses_append, uses_cons, hone] at hcount
      omega
    · obtain ⟨r, h', ⟨hgiven, hb'⟩, huses⟩ := hl.uses_eq (listToValArray_refused hin hb hproper)
      have hcount := huses _ hb' a
      rw [hgiven, List.nil_append, uses_cons (p := ptr v), hone] at hcount
      omega
  · intro hcond
    left
    cases hproper : v.toVal.isProper with
    | false => exact (listToValArray_improper hin hb hproper).leaves
    | true => exact (listToValArray_uncounted hin hb hproper (hcond.resolve_left (by simp [hproper]))).leaves

/-- `sexpr_compact` takes one reference and returns one, with the counts right and for all answers to its
requests for memory, if and only if the value is `Keeping`. `sexpr_list_to_val_array` always releases its
list, or never, if and only if the list is not proper or not on the heap. -/
theorem sexpr_compact_references (hin : InHeap h v) (hb : Balanced h (ptr v :: owned)) :
    (Leaves (sexprCompact (ptr v)) h owned ↔ Keeping v) ∧
    ((Leaves (sexprListToValArray (ptr v)) h owned ∨
        Leaves (sexprListToValArray (ptr v)) h (ptr v :: owned)) ↔
      (v.toVal.isProper = false ∨ ∀ a, ptr v ≠ .obj a)) :=
  ⟨sexprCompact_leaves_iff hin hb, sexprListToValArray_leaves_iff hin hb⟩

section Cells

/-- A heap without objects. -/
def noObjects : RcHeap Obj := ⟨0, fun _ => none⟩

/-- The pair `(a . 1)`: a cons cell on the heap, with one reference to it. -/
def symbolPair : Ref Pointer :=
  .cons (.obj 0) (.sym (.static (.sym (cstr [97]))) (cstr [97])) (.int (.static (.int 1)) 1)

def symbolPairHeap : RcHeap Obj := noObjects.alloc (.cons (.static (.sym (cstr [97]))) (.static (.int 1)))

theorem symbolPair_inHeap : InHeap symbolPairHeap symbolPair ∧ Balanced symbolPairHeap [ptr symbolPair] := by
  have hname : InHeap noObjects (.sym (.static (.sym (cstr [97]))) (cstr [97])) := .leaf rfl rfl
  have hvalue : InHeap noObjects (.int (.static (.int 1)) 1) := .leaf rfl rfl
  exact InHeap.alloc_cons hname hvalue (balanced_static (balanced_static balanced_empty _) _)

/-- The alist `((a . 1))`. -/
def onePair : Ref Pointer := .cons (.obj 1) symbolPair (.cons (.static .consEmpty) .null .null)

def onePairHeap : RcHeap Obj := symbolPairHeap.alloc (.cons (ptr symbolPair) (.static .consEmpty))

theorem onePair_inHeap : InHeap onePairHeap onePair ∧ Balanced onePairHeap [ptr onePair] := by
  obtain ⟨hpair, hbal⟩ := symbolPair_inHeap
  have hempty : InHeap symbolPairHeap (.cons (.static .consEmpty) .null .null) := .cons rfl .null .null
  exact InHeap.alloc_cons hpair hempty ((balanced_static hbal .consEmpty).perm (List.Perm.swap _ _ _))

/-- The alist becomes an nvlist, for the name needs no copy; the pair is not a proper list. -/
theorem sexpr_compact_references_pair : Leaves (sexprCompact (ptr onePair)) onePairHeap [] ∧
    (Leaves (sexprListToValArray (ptr symbolPair)) symbolPairHeap [] ∨
      Leaves (sexprListToValArray (ptr symbolPair)) symbolPairHeap [ptr symbolPair]) := by
  refine ⟨(sexpr_compact_references onePair_inHeap.1 onePair_inHeap.2).1.mpr ?_,
    (sexpr_compact_references symbolPair_inHeap.1 symbolPair_inHeap.2).2.mpr (.inl rfl)⟩
  have hwhat : Sexpr.whatIsIt onePair = .nvl := rfl
  intro w hw
  rcases (Sexpr.visits_alist hwhat).mp hw with rfl | ⟨u, hu, hw⟩
  · refine ⟨by rintro ⟨⟩, by decide, ?_⟩
    rintro (⟨a, vals, hval, -⟩ | ⟨-, u, hu, hready⟩)
    · cases hval
    · obtain rfl : u = symbolPair := List.mem_singleton.mp hu
      refine hready ?_
      rintro a b s t ⟨⟩
      rfl
  · obtain rfl : u = symbolPair := List.mem_singleton.mp hu
    have hvalue : Sexpr.sexprCdr symbolPair = .int (.static (.int 1)) 1 := rfl
    rw [hvalue] at hw
    cases hw with
    | refl =>
      refine ⟨by rintro ⟨⟩, by decide, ?_⟩
      rintro (⟨a, vals, hval, -⟩ | ⟨hnvl, -⟩)
      · cases hval
      · cases hnvl
    | item hv => cases hv
    | entry hv => cases hv

/-- The list `(1)`. -/
def oneElement : Ref Pointer := .cons (.obj 0) (.int (.static (.int 1)) 1) .null

def oneElementHeap : RcHeap Obj := noObjects.alloc (.cons (.static (.int 1)) .null)

theorem oneElement_inHeap : InHeap oneElementHeap oneElement ∧ Balanced oneElementHeap [ptr oneElement] := by
  have hvalue : InHeap noObjects (.int (.static (.int 1)) 1) := .leaf rfl rfl
  exact InHeap.alloc_cons hvalue .null (balanced_static (balanced_null.mpr balanced_empty) _)

/-- The cell keeps a count of one, and nothing refers to it. -/
theorem sexpr_compact_leaks_list : InHeap oneElementHeap oneElement ∧
    Balanced oneElementHeap [ptr oneElement] ∧
      ¬Leaves (sexprCompact (ptr oneElement)) oneElementHeap [] := by
  obtain ⟨hin, hbal⟩ := oneElement_inHeap
  refine ⟨hin, hbal, fun hl => ?_⟩
  have hk := (sexprCompact_leaves_iff hin hbal).mp hl
  exact (hk oneElement (.refl _)).2.1 rfl

end Cells

end Libjeffpc.Heap
