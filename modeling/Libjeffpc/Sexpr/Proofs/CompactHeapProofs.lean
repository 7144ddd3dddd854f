import Libjeffpc.Sexpr.Proofs.CompactProofs
import Libjeffpc.Sexpr.Proofs.OwnershipProofs

/-!
# The references of compaction

`Spec m v` describes a run of `sexpr_compact`: it takes one reference to the value, gives one to its
result, and the references in `lost` are never released. The list that becomes an array is among them.
With `any` answers to the requests for memory a run may fail; with `chosen` ones all are granted.
-/

namespace Libjeffpc.Heap

open Lib Libjeffpc.Lib.RcHeap
open Sexpr (Ref Visits AllocFree NameReady Frail Keeping TooLong Stops)

variable {α β : Type} {m : Mode} {h₀ h h' : RcHeap Obj} {owned : List Pointer} {p : Pointer} {v : Ref Pointer}

/-- A place where a run may not go on. -/
def Bad (m : Mode) (w : Ref Pointer) : Prop := w = .null ∨ TooLong w ∨ (m = .any ∧ Frail w)

def Safe (m : Mode) (v : Ref Pointer) : Prop := ∀ w, Visits v w → ¬Bad m w

def NoList (v : Ref Pointer) : Prop := ∀ w, Visits v w → Sexpr.whatIsIt w ≠ .array

/-- Nothing is lost under a condition, and with all requests granted only then. -/
structure Lost (m : Mode) (cond : Prop) (lost : List Pointer) : Prop where
  none : cond → lost = []
  some : m = .chosen → ¬cond → ∃ a, .obj a ∈ lost

structure Result (m : Mode) (v : Ref Pointer) (lost : List Pointer) (r : Pointer) : Prop where
  lost : Lost m (NoList v) lost
  same : AllocFree v → r = ptr v
  ok : m = .chosen → r.isErr = false

def Spec (m : Mode) (v : Ref Pointer) : Prop :=
  Safe m v → ∀ h owned, InHeap h v → Balanced h (ptr v :: owned) →
    Runs m h (sexprCompact (ptr v)) h fun r h' =>
      ∃ lost, Balanced h' (r.given ++ (lost ++ owned)) ∧ Result m v lost r

theorem Lost.nil {cond : Prop} (hc : cond) : Lost m cond [] := ⟨fun _ => rfl, fun _ hno => absurd hc hno⟩

theorem Lost.append {P Q : Prop} {l l' : List Pointer} (hP : Lost m P l) (hQ : Lost m Q l') :
    Lost m (P ∧ Q) (l ++ l') := by
  refine ⟨fun hc => ?_, fun hm hno => ?_⟩
  · rw [hP.none hc.1, hQ.none hc.2]
    rfl
  · by_cases hc : P
    · obtain ⟨a, ha⟩ := hQ.some hm fun hq => hno ⟨hc, hq⟩
      exact ⟨a, List.mem_append_right _ ha⟩
    · obtain ⟨a, ha⟩ := hP.some hm hc
      exact ⟨a, List.mem_append_left _ ha⟩

theorem Lost.imp {P Q : Prop} {l : List Pointer} (hP : Lost m P l) (hiff : Q ↔ P) : Lost m Q l :=
  ⟨fun hc => hP.none (hiff.mp hc), fun hm hno => hP.some hm fun hc => hno (hiff.mpr hc)⟩

theorem given_of_ok {r : Pointer} (hr : r.isErr = false) : r.given = [r] := by
  cases r with
  | err e => cases hr
  | _ => rfl

/-- A value that is owned in place of the reference to it, one after the other. -/
theorem perm_results (r : Pointer) (ws l l' owned : List Pointer) :
    ((r :: ws) ++ ((l ++ l') ++ owned)).Perm (ws ++ (l' ++ (r :: (l ++ owned)))) := by
  rw [List.perm_iff_count]
  intro x
  simp only [List.count_append, List.count_cons]
  omega

/-! ## Loops -/

/-- A new reference to a part of a value is compacted. -/
theorem part_runs (hspec : Spec m v) (hsafe : Safe m v) (hk : Keeps h₀ h) (hv : Stays h₀ owned v)
    (hb : Balanced h owned) :
    Runs m h₀ (do sexprCompact (← valGetref (ptr v))) h fun r h' =>
      Keeps h h' ∧ ∃ lost, Balanced h' (r.given ++ (lost ++ owned)) ∧ Result m v lost r := by
  refine (((hv h [] hk hb).getref_runs hb).base hk).bind fun _ h1 hk1 h1' => ?_
  obtain ⟨hk01, rfl, hb1⟩ := h1'
  refine ((hspec hsafe h1 owned (hv h1 [_] hk1 hb1) hb1).base hk1).mono fun r h2 h2' => ?_
  exact ⟨hk01.trans h2'.1, h2'.2⟩

theorem compactElems_cons (v : Pointer) (vals : List Pointer) :
    compactElems (v :: vals) = (do
      let w ← (do sexprCompact (← valGetref v))
      let ws ← compactElems vals
      pure (w :: ws)) := by
  rw [compactElems.eq_def]
  simp only [bind_assoc]

/-- The elements of an array. -/
theorem compactElems_runs {vals : List (Ref Pointer)} (hspec : ∀ v ∈ vals, Spec m v) :
    ∀ h owned, Keeps h₀ h → (∀ v ∈ vals, Safe m v) → (∀ v ∈ vals, Stays h₀ owned v) →
      (m = .any → ∀ v ∈ vals, AllocFree v) → Balanced h owned →
      Runs m h₀ (compactElems (vals.map ptr)) h fun ws h' =>
        ∃ lost, Balanced h' (ws ++ (lost ++ owned)) ∧ Lost m (∀ v ∈ vals, NoList v) lost ∧
          ((∀ v ∈ vals, AllocFree v) → ws = vals.map ptr) := by
  induction vals with
  | nil =>
    intro h owned hk _ _ _ hb
    rw [List.map_nil, compactElems.eq_def]
    exact .pure hk ⟨[], hb, .nil (by simp), fun _ => rfl⟩
  | cons v vals ih =>
    intro h owned hk hsafe hstays hfree hb
    rw [List.map_cons, compactElems_cons]
    refine (part_runs (hspec v List.mem_cons_self) (hsafe v List.mem_cons_self) hk
      (hstays v List.mem_cons_self) hb).bind fun r h2 hk2 h2' => ?_
    obtain ⟨-, lost, hb2, hres⟩ := h2'
    have hok : r.isErr = false := by
      cases m with
      | chosen => exact hres.ok rfl
      | any =>
        rw [hres.same (hfree rfl v List.mem_cons_self)]
        exact (hstays v List.mem_cons_self h [] hk hb).ref.1
    rw [given_of_ok hok] at hb2
    have hstays' : ∀ w ∈ vals, Stays h₀ (r :: (lost ++ owned)) w := fun w hw =>
      (hstays w (List.mem_cons_of_mem _ hw)).owns (r :: lost)
    refine (ih (fun w hw => hspec w (List.mem_cons_of_mem _ hw)) h2 _ hk2
      (fun w hw => hsafe w (List.mem_cons_of_mem _ hw)) hstays'
      (fun hm w hw => hfree hm w (List.mem_cons_of_mem _ hw)) hb2).bind fun ws h3 hk3 h3' => ?_
    obtain ⟨lost', hb3, hlost, hsame⟩ := h3'
    refine .pure hk3 ⟨lost ++ lost', hb3.perm (perm_results r ws lost lost' owned),
      (hres.lost.append hlost).imp List.forall_mem_cons, fun hall => ?_⟩
    rw [hres.same (hall v List.mem_cons_self), hsame fun w hw => hall w (List.mem_cons_of_mem _ hw)]

/-- An element of a list is compacted; the ones after it are still owned. -/
theorem arr_step {vals : List (Ref Pointer)} {r : Pointer} {lost : List Pointer}
    (hb : Balanced h (ptr v :: (vals.map ptr ++ owned))) (hin : ∀ w ∈ vals, InHeap h w) (hk : Keeps h h')
    (hok : r.isErr = false) (hb' : Balanced h' (r.given ++ (lost ++ (vals.map ptr ++ owned)))) :
    Balanced h' (vals.map ptr ++ (r :: (lost ++ owned))) ∧ ∀ w ∈ vals, InHeap h' w := by
  rw [given_of_ok hok] at hb'
  have hb'' : Balanced h' (vals.map ptr ++ (r :: (lost ++ owned))) := by
    refine hb'.perm ?_
    rw [List.perm_iff_count]
    intro x
    simp only [List.count_append, List.count_cons, List.count_nil]
    omega
  exact ⟨hb'', fun w hw => (hin w hw).keep_owned hb hk hb''
    (List.mem_append_left _ (List.mem_map_of_mem hw))⟩

/-- The elements after an error are not compacted. -/
theorem filter_owned {vals : List (Ref Pointer)} (hb : Balanced h (ptr v :: (vals.map ptr ++ owned))) :
    (vals.map ptr).filter (!·.isErr) = vals.map ptr := by
  refine List.filter_eq_self.mpr fun q hq => ?_
  rw [hb.owned q (List.mem_cons_of_mem _ (List.mem_append_left _ hq))]
  rfl

/-- The elements of a list; the first error ends the loop. -/
theorem compactArr_runs {vals : List (Ref Pointer)} (hspec : ∀ v ∈ vals, Spec m v) :
    ∀ h owned, (∀ v ∈ vals, Safe m v) → (∀ v ∈ vals, InHeap h v) → Balanced h (vals.map ptr ++ owned) →
      Runs m h (compactArr (vals.map ptr)) h fun r h' =>
        ∃ lost, Balanced h' (r.1.filter (!·.isErr) ++ (lost ++ owned)) ∧
          (r.2 = none → ∀ w ∈ r.1, w.isErr = false) ∧ (m = .chosen → r.2 = none) := by
  induction vals with
  | nil =>
    intro h owned _ _ hb
    rw [List.map_nil, compactArr.eq_def]
    exact .pure (.refl h) ⟨[], hb, by simp, fun _ => rfl⟩
  | cons v vals ih =>
    intro h owned hsafe hin hb
    rw [List.map_cons, compactArr.eq_def]
    have hrun := hspec v List.mem_cons_self (hsafe v List.mem_cons_self) h (vals.map ptr ++ owned)
      (hin v List.mem_cons_self) hb
    refine hrun.bind fun r h1 hk1 h1' => ?_
    obtain ⟨lost, hb1, hres⟩ := h1'
    cases hr : r.isErr with
    | true =>
      cases r with
      | err e =>
        refine .pure hk1 ⟨lost, ?_, by rintro ⟨⟩, fun hm => ?_⟩
        · show Balanced h1 ((vals.map ptr).filter (!·.isErr) ++ (lost ++ owned))
          rw [filter_owned hb]
          exact hb1.perm (List.perm_append_comm_assoc _ _ _)
        · have := hres.ok hm
          cases this
      | _ => cases hr
    | false =>
      obtain ⟨hb1', hin'⟩ := arr_step hb (fun w hw => hin w (List.mem_cons_of_mem _ hw)) hk1 hr hb1
      have hrest := (ih (fun w hw => hspec w (List.mem_cons_of_mem _ hw)) h1 _
        (fun w hw => hsafe w (List.mem_cons_of_mem _ hw)) hin' hb1').base hk1
      have hnext : Runs m h (compactArr (vals.map ptr) >>= fun x => pure (r :: x.1, x.2)) h1
          fun r h' => ∃ lost, Balanced h' (r.1.filter (!·.isErr) ++ (lost ++ owned)) ∧
            (r.2 = none → ∀ w ∈ r.1, w.isErr = false) ∧ (m = .chosen → r.2 = none) := by
        refine hrest.bind fun x h2 hk2 h2' => ?_
        obtain ⟨ws, ret⟩ := x
        obtain ⟨-, lost', hb2, hok, hret⟩ := h2'
        refine .pure hk2 ⟨lost ++ lost', ?_, fun hnone => ?_, hret⟩
        · rw [List.filter_cons_of_pos (by simp [hr])]
          exact hb2.perm (perm_results r _ lost lost' owned)
        · exact List.forall_mem_cons.mpr ⟨hr, hok hnone⟩
      cases r with
      | err e => cases hr
      | _ => exact hnext

/-- A new nvlist that is owned, and that is not in the heap to be kept. -/
structure Fresh (h₀ h : RcHeap Obj) (owned : List Pointer) (a : Nat) : Prop where
  keeps : Keeps h₀ h
  next : h₀.next ≤ a
  balanced : Balanced h owned
  mem : .obj a ∈ owned
  live : ∃ pairs, h.live a = some (.nvl pairs)

theorem Fresh.step {a : Nat} {owned' : List Pointer} (hf : Fresh h₀ h owned a) (hk : Keeps h h')
    (hb' : Balanced h' owned') (hm : .obj a ∈ owned') : Fresh h₀ h' owned' a := by
  obtain ⟨pairs, hl⟩ := hf.live
  exact ⟨hf.keeps.trans hk, hf.next, hb', hm, pairs,
    Keeps.live_owned hk hb' hm (hf.balanced.lt_next hl) hl⟩

theorem Fresh.setPair {a : Nat} {cname : CStr} {name w : Pointer} (hf : Fresh h₀ h owned a) (hw : w ∈ owned)
    (hname : name.isErr = false ∧ ∀ x, name = .obj x → ∃ b, h.live x = some b) :
    Runs m h₀ (nvlSetPair (.obj a) cname name w) h fun ret h' =>
      Fresh h₀ h' owned a ∧ (m = .chosen → ret = none) := by
  obtain ⟨pairs, hl⟩ := hf.live
  refine (nvlSetPair_runs hf.keeps hf.next hf.balanced hl hf.mem hname.1 hname.2 hw).keeps.mono
    fun ret h1 h1' => ?_
  obtain ⟨hk1, hb1, hl1, hret⟩ := h1'
  exact ⟨⟨hk1, hf.next, hb1, hf.mem, hl1⟩, hret⟩

theorem Fresh.putref {a : Nat} {w : Pointer} (hf : Fresh h₀ h (w :: owned) a) (hm : .obj a ∈ owned) :
    Runs m h₀ (valPutref w) h fun _ h' => Fresh h₀ h' owned a :=
  ((valPutref_runs hf.balanced).base hf.keeps).mono fun _ _ h' => hf.step h'.1 h'.2 hm

/-- The name of a pair stays in the heap as long as the references are owned. -/
def NameStays (h : RcHeap Obj) (owned : List Pointer) (name : Pointer) : Prop :=
  ∀ h' l, Keeps h h' → Balanced h' (l ++ owned) →
    name.isErr = false ∧ ∀ x, name = .obj x → ∃ b, h'.live x = some b

theorem NameStays.owns {name : Pointer} (hn : NameStays h owned name) (l : List Pointer) :
    NameStays h (l ++ owned) name := by
  intro h' l' hk hb
  rw [← List.append_assoc] at hb
  exact hn h' _ hk hb

/-- The body of the loop over the pairs of an nvlist. -/
def pairStep (cname : CStr) (name value dst : Pointer) : HeapM (Except Errno Pointer) := do
  let w ← sexprCompact (← valGetref value)
  match w with
  | .err e => pure (.error e)
  | w => do
    let ret ← nvlSetPair dst cname name w
    valPutref w
    match ret with
    | some e => pure (.error e)
    | none => pure (.ok w)

theorem compactPairs_cons (cname : CStr) (name value : Pointer) (pairs : List (CStr × Pointer × Pointer))
    (dst : Pointer) (equal : Bool) :
    compactPairs ((cname, name, value) :: pairs) dst equal = (do
      match ← pairStep cname name value dst with
      | .error e => pure (.error e)
      | .ok w => compactPairs pairs dst (equal && w = value)) := by
  rw [compactPairs.eq_def, pairStep]
  simp only [bind_assoc]
  refine bind_congr fun x => bind_congr fun w => ?_
  cases w with
  | err e => exact (pure_bind _ _).symm
  | _ =>
    simp only [bind_assoc]
    refine bind_congr fun ret => bind_congr fun _ => ?_
    cases ret with
    | some e => exact (pure_bind _ _).symm
    | none => exact (pure_bind _ _).symm

theorem pairStep_runs {a : Nat} {cname : CStr} {name : Pointer} (hspec : Spec m v) (hsafe : Safe m v)
    (hv : Stays h₀ owned v) (hname : NameStays h₀ owned name) (hf : Fresh h₀ h owned a) :
    Runs m h₀ (pairStep cname name (ptr v) (.obj a)) h fun r h' =>
      ∃ lost, Fresh h₀ h' (lost ++ owned) a ∧ Lost m (NoList v) lost ∧
        (m = .chosen → ∃ w, r = .ok w) := by
  have hrun := part_runs hspec hsafe hf.keeps hv hf.balanced
  rw [pairStep, ← bind_assoc]
  refine hrun.bind fun r h1 hk1 h1' => ?_
  obtain ⟨hk01, lost, hb1, hres⟩ := h1'
  have hmem : Ptr.obj a ∈ lost ++ owned := List.mem_append_right _ hf.mem
  have hf1 := hf.step hk01 hb1 (List.mem_append_right _ hmem)
  cases hr : r.isErr with
  | true =>
    cases r with
    | err e =>
      refine .pure hk1 ⟨lost, hf1, hres.lost, fun hm => ?_⟩
      cases hres.ok hm
    | _ => cases hr
  | false =>
    rw [given_of_ok hr] at hf1
    have hnext : Runs m h₀ (do
        let ret ← nvlSetPair (.obj a) cname name r
        valPutref r
        match ret with
        | some e => pure (.error e)
        | none => pure (.ok r) : HeapM (Except Errno Pointer)) h1 fun r h' => ∃ lost, Fresh h₀ h' (lost ++ owned) a ∧
          Lost m (NoList v) lost ∧ (m = .chosen → ∃ w, r = .ok w) := by
      refine (hf1.setPair List.mem_cons_self (hname h1 (r :: lost) hk1 hf1.balanced)).bind
        fun ret h2 _ h2' => ?_
      obtain ⟨hf2, hret⟩ := h2'
      refine (hf2.putref hmem).bind fun _ h3 _ hf3 => ?_
      cases ret with
      | some e =>
        refine .pure hf3.keeps ⟨lost, hf3, hres.lost, fun hm => ?_⟩
        cases hret hm
      | none => exact .pure hf3.keeps ⟨lost, hf3, hres.lost, fun _ => ⟨r, rfl⟩⟩
    cases r with
    | err e => cases hr
    | _ => exact hnext

/-- What is lost in one step and in the others. -/
theorem Lost.cons {ι : Type} {P : ι → Prop} {i : ι} {l : List ι} {lost lost' : List Pointer}
    (hi : Lost m (P i) lost) (hl : Lost m (∀ j ∈ l, P j) lost') :
    Lost m (∀ j ∈ i :: l, P j) (lost' ++ lost) :=
  (hl.append hi).imp (List.forall_mem_cons.trans and_comm)

/-- A loop that ends early with an error. -/
theorem Lost.early {ι : Type} {P : ι → Prop} {i : ι} {l : List ι} {lost : List Pointer}
    (hi : Lost m (P i) lost) (hm : m ≠ .chosen) : Lost m (∀ j ∈ i :: l, P j) lost :=
  ⟨fun hall => hi.none (hall i List.mem_cons_self), fun hm' => absurd hm' hm⟩

/-- The pairs of an nvlist. -/
theorem compactPairs_runs {a : Nat} {pairs : List (CStr × Ref Pointer)} (hspec : ∀ q ∈ pairs, Spec m q.2) :
    ∀ qs h owned equal, qs.map (fun q => (q.1, q.2.2)) = pairs.map (fun q => (q.1, ptr q.2)) →
      Fresh h₀ h owned a → (∀ q ∈ pairs, Safe m q.2) → (∀ q ∈ pairs, Stays h₀ owned q.2) →
      (∀ q ∈ qs, NameStays h₀ owned q.2.1) →
      Runs m h₀ (compactPairs qs (.obj a) equal) h fun r h' =>
        ∃ lost, Fresh h₀ h' (lost ++ owned) a ∧ Lost m (∀ q ∈ pairs, NoList q.2) lost ∧
          (m = .chosen → ∃ equal', r = .ok equal') := by
  induction pairs with
  | nil =>
    intro qs h owned equal hqs hf _ _ _
    obtain rfl := List.map_eq_nil_iff.mp hqs
    rw [compactPairs.eq_def]
    exact .pure hf.keeps ⟨[], hf, .nil (by simp), fun _ => ⟨equal, rfl⟩⟩
  | cons q pairs ih =>
    intro qs h owned equal hqs hf hsafe hstays hnames
    obtain ⟨⟨cname, name, value⟩, qs, rfl, heq, hqs'⟩ := List.map_eq_cons_iff.mp hqs
    obtain rfl : value = ptr q.2 := (Prod.mk.inj heq).2
    rw [compactPairs_cons]
    refine (pairStep_runs (hspec q List.mem_cons_self) (hsafe q List.mem_cons_self)
      (hstays q List.mem_cons_self) (hnames _ List.mem_cons_self) hf).bind fun r h1 hk1 h1' => ?_
    obtain ⟨lost, hf1, hlost, hok⟩ := h1'
    cases r with
    | error e =>
      have hm : m ≠ .chosen := by
        intro hm
        obtain ⟨w, hw⟩ := hok hm
        cases hw
      exact .pure hk1 ⟨lost, hf1, .early (P := fun q : CStr × Ref Pointer => NoList q.2) hlost hm,
        fun hm' => absurd hm' hm⟩
    | ok w =>
      have hrest := ih (fun w hw => hspec w (List.mem_cons_of_mem _ hw)) qs h1 (lost ++ owned)
        (equal && w = ptr q.2) hqs' hf1 (fun w hw => hsafe w (List.mem_cons_of_mem _ hw))
        (fun w hw => (hstays w (List.mem_cons_of_mem _ hw)).owns lost)
        fun w hw => (hnames w (List.mem_cons_of_mem _ hw)).owns lost
      refine hrest.mono fun r' h2 h2' => ?_
      obtain ⟨lost', hf2, hlost', hok'⟩ := h2'
      rw [← List.append_assoc] at hf2
      exact ⟨lost' ++ lost, hf2, .cons (P := fun q : CStr × Ref Pointer => NoList q.2) hlost hlost', hok'⟩

/-! ## The pairs of an alist -/

/-- The name of a pair is a new reference to a string. -/
theorem pairName_runs {name : Ref Pointer} (hin : InHeap h name) (hb : Balanced h owned)
    (hty : name.type = some .str ∨ name.type = some .sym)
    (hready : m = .any → ∀ b s, name = .sym b s → getPreallocated s) :
    Runs m h (pairName (ptr name)) h fun r h' =>
      Balanced h' (r :: owned) ∧ ∃ s, Holds h' r (.str s) := by
  cases hin with
  | leaf hleaf hp =>
    cases name with
    | str q s =>
      obtain rfl := Option.some.inj hleaf
      refine (load_reads hp).runs (.refl h) ?_
      refine ((InHeap.leaf (v := .str q s) rfl hp).getref_runs hb).keeps.mono fun r h1 h1' => ?_
      obtain ⟨hk, rfl, hb1⟩ := h1'
      exact ⟨hb1, s, hp.keep hb hk fun a ha => hb1.live_of_owned (ha ▸ List.mem_cons_self)⟩
    | sym q s =>
      obtain rfl := Option.some.inj hleaf
      refine (load_reads hp).runs (.refl h) ?_
      refine (strDup_runs hb fun hm => hready hm q s rfl).mono fun r h1 h1' => ?_
      exact ⟨h1'.1, s, h1'.2⟩
    | _ => simp [Sexpr.Ref.type] at hty
  | _ => simp [Sexpr.Ref.type] at hty

theorem isPair_cases {u : Ref Pointer} (hu : Sexpr.isPair u) :
    ∃ q name value, u = .cons q name value ∧ (name.type = some .str ∨ name.type = some .sym) := by
  cases u with
  | cons q name value =>
    have hty := (Bool.and_eq_true_iff.mp hu).2
    exact ⟨q, name, value, rfl, by simpa using hty⟩
  | _ => cases hu

/-- The body of the loop over the pairs of an alist. -/
def entryStep (name value out : Pointer) : HeapM (Option Errno) := do
  let name ← pairName name
  let w ← sexprCompact (← valGetref value)
  match w with
  | .err e => do
    valPutref name
    pure (some e)
  | w => do
    let cname ← strCstr name
    let ret ← nvlSetPair out cname name w
    valPutref name
    valPutref w
    pure ret

theorem compactEntries_pair {q : Pointer} {name value tail : Ref Pointer} {out : Pointer}
    (hin : InHeap h (.cons p (.cons q name value) tail))
    (hn : Sexpr.sexprIsNull (.cons p (.cons q name value) tail) = false) (g : Nat → Bool) :
    compactEntries p out ⟨h, g⟩ = (do
      match ← entryStep (ptr name) (ptr value) out with
      | some e => pure (some e)
      | none => compactEntries (ptr tail) out : HeapM (Option Errno)) ⟨h, g⟩ := by
  have hnull := sexprIsNull_reads hin
  rw [hn] at hnull
  rw [compactEntries.eq_def]
  refine (hnull.bind _ g).trans ?_
  cases hin with
  | leaf hb _ => cases hb
  | cons hp hitem _ =>
  cases hitem with
  | leaf hb _ => cases hb
  | cons hq _ _ =>
  refine ((load_reads hp).bind _ g).trans ?_
  have hne : ptr (.cons q name value) ≠ .null := hq.ne_null
  dsimp only
  rw [if_neg hne]
  refine ((load_reads hq).bind _ g).trans ?_
  rw [entryStep]
  simp only [bind_assoc]
  refine congrArg (fun f : HeapM (Option Errno) => f ⟨h, g⟩) ?_
  refine bind_congr fun name' => bind_congr fun x => bind_congr fun w => ?_
  cases w with
  | err e =>
    simp only [bind_assoc]
    exact bind_congr fun _ => (pure_bind _ _).symm
  | _ =>
    simp only [bind_assoc]
    exact bind_congr fun _ => bind_congr fun _ => bind_congr fun _ => bind_congr fun _ =>
      (pure_bind _ _).symm

theorem entryStep_runs {a : Nat} {name : Ref Pointer} (hspec : Spec m v) (hsafe : Safe m v)
    (hv : Stays h₀ owned v) (hin : InHeap h name) (hty : name.type = some .str ∨ name.type = some .sym)
    (hready : m = .any → ∀ b s, name = .sym b s → getPreallocated s) (hf : Fresh h₀ h owned a) :
    Runs m h₀ (entryStep (ptr name) (ptr v) (.obj a)) h fun r h' =>
      ∃ lost, Fresh h₀ h' (lost ++ owned) a ∧ Lost m (NoList v) lost ∧ (m = .chosen → r = none) := by
  refine ((pairName_runs hin hf.balanced hty hready).base hf.keeps).bind fun name' h1 hk1 h1' => ?_
  obtain ⟨hk01, hb1, s, hs1⟩ := h1'
  have hf1 := hf.step hk01 hb1 (List.mem_cons_of_mem _ hf.mem)
  rw [← bind_assoc]
  refine (part_runs hspec hsafe hk1 (hv.owns [name']) hb1).bind fun r h2 hk2 h2' => ?_
  obtain ⟨hk12, lost, hb2, hres⟩ := h2'
  have hmem : Ptr.obj a ∈ lost ++ owned := List.mem_append_right _ hf.mem
  have hperm : (name' :: r.given ++ (lost ++ owned)).Perm (r.given ++ (lost ++ name' :: owned)) := by
    rw [List.perm_iff_count]
    intro x
    simp only [List.count_append, List.count_cons, List.cons_append]
    omega
  have hb2' := hb2.perm hperm
  have hf2 := hf1.step hk12 hb2' (List.mem_append_right _ hmem)
  have hs2 : Holds h2 name' (.str s) := by
    refine hs1.keep hb1 hk12 fun x hx => hb2'.live_of_owned ?_
    rw [← hx]
    exact List.mem_cons_self
  cases hr : r.isErr with
  | true =>
    cases r with
    | err e =>
      refine (hf2.putref hmem).bind fun _ h3 _ hf3 => .pure hf3.keeps ⟨lost, hf3, hres.lost, fun hm => ?_⟩
      cases hres.ok hm
    | _ => cases hr
  | false =>
    rw [given_of_ok hr] at hf2
    have hnext : Runs m h₀ (do
        let cname ← strCstr name'
        let ret ← nvlSetPair (.obj a) cname name' r
        valPutref name'
        valPutref r
        pure ret) h2 fun r h' => ∃ lost, Fresh h₀ h' (lost ++ owned) a ∧ Lost m (NoList v) lost ∧
          (m = .chosen → r = none) := by
      refine ((load_reads hs2).then (reads_pure s)).runs hk2 ?_
      refine (hf2.setPair (List.mem_cons_of_mem _ List.mem_cons_self) hs2.ref).bind fun ret h3 _ h3' => ?_
      obtain ⟨hf3, hret⟩ := h3'
      refine (hf3.putref (List.mem_cons_of_mem _ hmem)).bind fun _ h4 _ hf4 => ?_
      refine (hf4.putref hmem).bind fun _ h5 _ hf5 => ?_
      exact .pure hf5.keeps ⟨lost, hf5, hres.lost, hret⟩
    cases r with
    | err e => cases hr
    | _ => exact hnext

theorem compactEntries_runs {a : Nat} : ∀ (v : Ref Pointer) (h : RcHeap Obj) (owned : List Pointer),
    (∀ u ∈ v.items, Spec m (Sexpr.sexprCdr u)) → v.toVal.isProper → (∀ u ∈ v.items, Sexpr.isPair u) →
    (∀ u ∈ v.items, Safe m (Sexpr.sexprCdr u)) → (m = .any → ∀ u ∈ v.items, NameReady u) →
    Fresh h₀ h owned a → Stays h₀ owned v →
    Runs m h₀ (compactEntries (ptr v) (.obj a)) h fun r h' =>
      ∃ lost, Fresh h₀ h' (lost ++ owned) a ∧ Lost m (∀ u ∈ v.items, NoList (Sexpr.sexprCdr u)) lost ∧
        (m = .chosen → r = none)
  | .null, h, owned, _, _, _, _, _, hf, hv => by
    rw [compactEntries.eq_def]
    exact (sexprIsNull_reads (hv h [] hf.keeps hf.balanced)).runs hf.keeps
      (.pure hf.keeps ⟨[], hf, .nil (by simp [Ref.items]), fun _ => rfl⟩)
  | .cons p item tail, h, owned, hspec, hproper, hpair, hsafe, hready, hf, hv => by
    have hin := hv h [] hf.keeps hf.balanced
    cases hn : Sexpr.sexprIsNull (.cons p item tail) with
    | true =>
      have hnull := sexprIsNull_reads hin
      rw [hn] at hnull
      rw [compactEntries.eq_def, Sexpr.items_empty hn]
      exact hnull.runs hf.keeps (.pure hf.keeps ⟨[], hf, .nil (by simp), fun _ => rfl⟩)
    | false =>
      rw [Sexpr.toVal_cons hn, Val.isProper] at hproper
      rw [Sexpr.items_cons hn] at hspec hpair hsafe hready ⊢
      obtain ⟨q, name, value, rfl, hty⟩ := isPair_cases (hpair item List.mem_cons_self)
      have hname : InHeap h name := hv.head.head h [] hf.keeps hf.balanced
      have hready' : m = .any → ∀ b s, name = .sym b s → getPreallocated s := by
        rintro hm b s rfl
        exact hready hm _ List.mem_cons_self q b s value rfl
      refine .congr (compactEntries_pair hin hn) ?_
      refine (entryStep_runs (hspec _ List.mem_cons_self) (hsafe _ List.mem_cons_self) hv.head.tail hname hty
        hready' hf).bind fun r h1 hk1 h1' => ?_
      obtain ⟨lost, hf1, hlost, hok⟩ := h1'
      cases r with
      | some e =>
        have hm : m ≠ .chosen := fun hm => by cases hok hm
        exact .pure hk1 ⟨lost, hf1, .early (P := fun u => NoList (Sexpr.sexprCdr u)) hlost hm,
          fun hm' => absurd hm' hm⟩
      | none =>
        have hrest := compactEntries_runs tail h1 (lost ++ owned)
          (fun u hu => hspec u (List.mem_cons_of_mem _ hu)) hproper
          (fun u hu => hpair u (List.mem_cons_of_mem _ hu))
          (fun u hu => hsafe u (List.mem_cons_of_mem _ hu))
          (fun hm u hu => hready hm u (List.mem_cons_of_mem _ hu)) hf1 (hv.tail.owns lost)
        refine hrest.mono fun r' h2 h2' => ?_
        obtain ⟨lost', hf2, hlost', hok'⟩ := h2'
        rw [← List.append_assoc] at hf2
        exact ⟨lost' ++ lost, hf2, .cons (P := fun u => NoList (Sexpr.sexprCdr u)) hlost hlost', hok'⟩

/-! ## The kinds of values -/

theorem sexprCompact_array_eq {vals : List Pointer} (hp : Holds h p (.array vals)) (g : Nat → Bool) :
    sexprCompact p ⟨h, g⟩ = (do
      let ws ← compactElems vals
      if ws = vals then do
        putAll ws
        pure p
      else do
        valPutref p
        valAllocArrayDup ws : HeapM Pointer) ⟨h, g⟩ := by
  rw [sexprCompact.eq_def, (load_reads hp).bind]
  dsimp only
  rw [sexprCompactArray.eq_def, (load_reads hp).bind]

theorem sexprCompact_nvl_eq {pairs : List (CStr × Pointer × Pointer)} (hp : Holds h p (.nvl pairs))
    (g : Nat → Bool) :
    sexprCompact p ⟨h, g⟩ = (do
      let dst ← nvlAlloc
      if dst.isErr then do
        valPutref p
        pure dst
      else
        match ← compactPairs pairs dst true with
        | .error e => do
          valPutref dst
          valPutref p
          pure (.err e)
        | .ok equal =>
          if equal then do
            valPutref dst
            pure p
          else do
            valPutref p
            pure dst : HeapM Pointer) ⟨h, g⟩ := by
  rw [sexprCompact.eq_def, (load_reads hp).bind]
  dsimp only
  have hload : Reads (nvlPairs p) h pairs := (load_reads hp).then (reads_pure pairs)
  rw [sexprCompactNvl.eq_def]
  exact hload.bind _ g

theorem sexprCompact_cons_eq {q : Pointer} {head tail : Ref Pointer} (hin : InHeap h (.cons q head tail))
    (g : Nat → Bool) :
    sexprCompact q ⟨h, g⟩ = (match Sexpr.whatIsIt (.cons q head tail) with
      | .cons => pure q
      | .null => pure q
      | .array => sexprCompactConsArray q
      | .nvl => sexprCompactConsNvl q
      | _ => throw .assert : HeapM Pointer) ⟨h, g⟩ := by
  have hwhat := whatIsIt_reads hin
  cases hin with
  | leaf hb _ => cases hb
  | cons hp _ _ =>
    rw [sexprCompact.eq_def, (load_reads hp).bind]
    dsimp only
    rw [sexprCompactCons.eq_def, (load_reads hp).bind]
    dsimp only
    exact hwhat.bind _ g

theorem spec_other (hn : v ≠ .null) (hty : v.type ≠ some .array ∧ v.type ≠ some .nvl)
    (hw : Sexpr.whatIsIt v ≠ .array ∧ Sexpr.whatIsIt v ≠ .nvl) : Spec m v := by
  intro _ h owned hin hb
  have hread : Reads (sexprCompact (ptr v)) h (ptr v) := by
    intro g
    cases hin with
    | null => exact absurd rfl hn
    | @leaf v b hleaf hp =>
      rw [sexprCompact.eq_def, (load_reads hp).bind]
      cases v <;> cases hleaf <;> rfl
    | array _ _ => exact absurd rfl hty.1
    | nvl _ _ _ => exact absurd rfl hty.2
    | @cons q head tail hp hh ht =>
      have heq := sexprCompact_cons_eq (.cons hp hh ht) g
      rcases Sexpr.whatIsIt_cases (.cons q head tail) with hw' | hw' | hw' | hw'
      · rw [hw'] at heq
        exact heq
      · rw [hw'] at heq
        exact heq
      · exact absurd hw' hw.1
      · exact absurd hw' hw.2
  have hok : (ptr v).isErr = false := hb.owned _ List.mem_cons_self
  refine .det hread (.refl h) ⟨[], ?_, ⟨.nil fun w hvis => ?_, fun _ => rfl, fun _ => hok⟩⟩
  · rw [given_of_ok hok]
    exact hb
  · rw [(Sexpr.visits_other hty hw).mp hvis]
    exact hw.1

/-! ### Arrays -/

theorem noList_array {vals : List (Ref Pointer)} : NoList (.array p vals) ↔ ∀ v ∈ vals, NoList v :=
  (Sexpr.forall_visits fun _ => Sexpr.visits_array).trans (and_iff_right nofun)

theorem allocFree_array {vals : List (Ref Pointer)} :
    AllocFree (.array p vals) ↔ ∀ v ∈ vals, AllocFree v :=
  (Sexpr.forall_visits fun _ => Sexpr.visits_array).trans (and_iff_right ⟨nofun, nofun, nofun⟩)

theorem bad_array {vals : List (Ref Pointer)} :
    Bad m (.array p vals) ↔ m = .any ∧ ∃ v ∈ vals, ¬AllocFree v := by
  constructor
  · rintro (hnull | ⟨hlong, -⟩ | ⟨hm, ⟨a, ws, heq, hex⟩ | ⟨hnvl, -⟩⟩)
    · cases hnull
    · cases hlong
    · obtain ⟨-, rfl⟩ := Sexpr.Ref.array.inj heq
      exact ⟨hm, hex⟩
    · cases hnvl
  · rintro ⟨hm, hex⟩
    exact Or.inr (Or.inr ⟨hm, Or.inl ⟨p, vals, rfl, hex⟩⟩)

theorem safe_array {vals : List (Ref Pointer)} : Safe m (.array p vals) ↔
    (m = .any → ∀ v ∈ vals, AllocFree v) ∧ ∀ v ∈ vals, Safe m v := by
  refine (Sexpr.forall_visits fun _ => Sexpr.visits_array).trans (and_congr_left fun _ => ?_)
  rw [bad_array]
  push Not
  rfl

theorem spec_array {vals : List (Ref Pointer)} (ih : ∀ v ∈ vals, Spec m v) : Spec m (.array p vals) := by
  intro hsafe h owned hin hb
  obtain ⟨hfree, hsafe⟩ := safe_array.mp hsafe
  have hstays := hin.stays hb List.mem_cons_self
  cases hin with
  | leaf hb' _ => cases hb'
  | array hp _ =>
  refine .congr (sexprCompact_array_eq hp) ?_
  refine (compactElems_runs ih h _ (.refl h) hsafe (fun v hv => hstays.elem hv) hfree hb).bind
    fun ws h1 hk1 h1' => ?_
  obtain ⟨lost, hb1, hlost, hsame⟩ := h1'
  have hlost := hlost.imp (noList_array (p := p))
  by_cases heq : ws = vals.map ptr
  · rw [if_pos heq]
    have hok : (ptr (.array p vals)).isErr = false := hb.owned _ List.mem_cons_self
    refine ((putAll_runs hb1).base hk1).bind fun _ h2 hk2 h2' => .pure hk2 ⟨lost, ?_, hlost, fun _ => rfl,
      fun _ => hok⟩
    rw [given_of_ok hok]
    rw [List.singleton_append]
    exact h2'.2.perm List.perm_middle.symm
  · rw [if_neg heq]
    have hb1' : Balanced h1 (p :: (ws ++ (lost ++ owned))) := by
      refine hb1.perm ?_
      rw [List.perm_iff_count]
      intro x
      simp only [List.count_append, List.count_cons, ptr, Sexpr.Ref.addr, Option.getD_some]
      omega
    refine ((valPutref_runs hb1').base hk1).bind fun _ h2 hk2 h2' => ?_
    refine ((valAllocArrayDup_runs h2'.2).base hk2).mono fun r h3 h3' => ?_
    exact ⟨lost, h3'.2.1, hlost, fun hall => absurd (hsame (allocFree_array.mp hall)) heq, h3'.2.2⟩

/-! ### Nvlists -/

theorem noList_nvl {pairs : List (CStr × Ref Pointer)} : NoList (.nvl p pairs) ↔ ∀ q ∈ pairs, NoList q.2 :=
  (Sexpr.forall_visits fun _ => Sexpr.visits_nvl).trans (and_iff_right nofun)

theorem safe_nvl {pairs : List (CStr × Ref Pointer)} : Safe m (.nvl p pairs) ↔ ∀ q ∈ pairs, Safe m q.2 := by
  refine (Sexpr.forall_visits fun _ => Sexpr.visits_nvl).trans (and_iff_right ?_)
  rintro (hnull | ⟨hlong, -⟩ | ⟨-, ⟨_, _, heq, -⟩ | ⟨hnvl, -⟩⟩)
  · cases hnull
  · cases hlong
  · cases heq
  · cases hnvl

theorem nvlAlloc_runs (hb : Balanced h owned) : Runs m h nvlAlloc h fun r h' =>
    (m = .any ∧ r = .err .ENOMEM ∧ h' = h) ∨ ∃ a, r = .obj a ∧ Fresh h h' (.obj a :: owned) a := by
  have hb' : Balanced h (Holder.refs (Obj.nvl []) ++ owned) := hb
  refine (valAlloc_runs hb').keeps.mono fun r h1 h1' => ?_
  obtain ⟨hk, hno | ⟨rfl, hb1, hl⟩⟩ := h1'
  · exact Or.inl hno
  · exact Or.inr ⟨h.next, rfl, hk, le_rfl, hb1, List.mem_cons_self, _, hl⟩

/-- The names of an nvlist that is owned. -/
theorem nameStays {qs : List (CStr × Pointer × Pointer)} (hp : Holds h p (.nvl qs)) (hb : Balanced h owned)
    (hm : p ∈ owned) {q : CStr × Pointer × Pointer} (hq : q ∈ qs) : NameStays h owned q.2.1 := by
  intro h' l hk hb'
  have hp' : Holds h' p (.nvl qs) := by
    refine hp.keep hb hk fun a ha => hb'.live_of_owned (List.mem_append_right _ ?_)
    rwa [← ha]
  exact hp'.held hb' (List.mem_flatMap.mpr ⟨q, hq, List.mem_cons_self⟩)

/-- The end of a conversion: one of the two references is released. -/
theorem perm_release (p q : Pointer) (lost owned : List Pointer) :
    (p :: ([q] ++ (lost ++ owned))).Perm (lost ++ (p :: q :: owned)) := by
  rw [List.perm_iff_count]
  intro x
  simp only [List.count_append, List.count_cons, List.count_nil]
  omega

theorem spec_nvl {pairs : List (CStr × Ref Pointer)} (ih : ∀ q ∈ pairs, Spec m q.2) :
    Spec m (.nvl p pairs) := by
  intro hsafe h owned hin hb
  have hsafe := safe_nvl.mp hsafe
  have hstays := hin.stays hb List.mem_cons_self
  have hok : (ptr (.nvl p pairs)).isErr = false := hb.owned _ List.mem_cons_self
  have hfree : ¬AllocFree (.nvl p pairs) := fun hall => (hall _ (.refl _)).1 rfl
  cases hin with
  | leaf hb' _ => cases hb'
  | @nvl _ _ qs hp hqs _ =>
  refine .congr (sexprCompact_nvl_eq hp) ?_
  refine (nvlAlloc_runs hb).bind fun dst h1 hk1 h1' => ?_
  rcases h1' with ⟨rfl, rfl, rfl⟩ | ⟨a, rfl, hf1⟩
  · exact (valPutref_runs hb).bind fun _ _ hk2 hb2 =>
      .pure hk2 ⟨[], hb2, ⟨fun _ => rfl, nofun⟩, fun hall => absurd hall hfree, nofun⟩
  have hnames : ∀ q ∈ qs, NameStays h (.obj a :: p :: owned) q.2.1 := fun q hq =>
    (nameStays hp hb List.mem_cons_self hq).owns [.obj a]
  refine (compactPairs_runs ih qs h1 _ true hqs hf1 hsafe
    (fun q hq => (hstays.value hq).owns [.obj a]) hnames).bind fun r h2 hk2 h2' => ?_
  obtain ⟨lost, hf2, hlost, hret⟩ := h2'
  have hlost := hlost.imp (noList_nvl (p := p))
  have hb2 := hf2.balanced.perm (perm_release (.obj a) p lost owned)
  cases r with
  | error e =>
    refine ((valPutref_runs hb2).base hk2).bind fun _ h3 hk3 h3' => ?_
    refine ((valPutref_runs h3'.2).base hk3).bind fun _ h4 hk4 h4' => ?_
    refine .pure hk4 ⟨lost, h4'.2, hlost, fun hall => absurd hall hfree, fun hm => ?_⟩
    obtain ⟨equal, heq⟩ := hret hm
    cases heq
  | ok equal =>
    cases equal with
    | true =>
      refine ((valPutref_runs hb2).base hk2).bind fun _ h3 hk3 h3' => ?_
      refine .pure hk3 ⟨lost, ?_, hlost, fun hall => absurd hall hfree, fun _ => hok⟩
      rw [given_of_ok hok]
      exact h3'.2
    | false =>
      have hb2' := hb2.perm (.swap _ _ _)
      refine ((valPutref_runs hb2').base hk2).bind fun _ h3 hk3 h3' => ?_
      exact .pure hk3 ⟨lost, h3'.2, hlost, fun hall => absurd hall hfree, fun _ => rfl⟩

/-! ### Lists -/

theorem noList_list (hw : Sexpr.whatIsIt v = .array) : ¬NoList v := fun hno => hno v (.refl v) hw

theorem safe_list (hw : Sexpr.whatIsIt v = .array) :
    Safe m v ↔ v.items.length < 2 ^ 31 ∧ ∀ u ∈ v.items, Safe m u := by
  refine (Sexpr.forall_visits fun _ => Sexpr.visits_list hw).trans (and_congr_left fun _ => ?_)
  constructor
  · intro hgood
    by_contra hlen
    exact hgood (Or.inr (Or.inl ⟨hw, Nat.not_lt.mp hlen⟩))
  · rintro hlen (rfl | ⟨-, hlong⟩ | ⟨-, ⟨_, _, rfl, -⟩ | ⟨hnvl, -⟩⟩)
    · cases hw
    · omega
    · cases hw
    · cases hw.symm.trans hnvl

theorem InHeap.items : ∀ {v : Ref Pointer}, InHeap h v → ∀ u ∈ v.items, InHeap h u
  | .cons q head tail, hin, u, hu => by
    cases hn : Sexpr.sexprIsNull (.cons q head tail) with
    | true =>
      rw [Sexpr.items_empty hn] at hu
      cases hu
    | false =>
      rw [Sexpr.items_cons hn] at hu
      cases hin with
      | leaf hb _ => cases hb
      | cons _ hh ht =>
        rcases List.mem_cons.mp hu with rfl | hu
        · exact hh
        · exact InHeap.items ht u hu

/-- A list that is not empty is not a static object. -/
theorem ptr_list {q : Pointer} {head tail : Ref Pointer} (hin : InHeap h (.cons q head tail))
    (hn : Sexpr.sexprIsNull (.cons q head tail) = false) : ∃ a, q = .obj a := by
  have hread := sexprIsNull_reads hin fun _ => true
  rw [hn] at hread
  cases hin with
  | leaf hb _ => cases hb
  | cons hp _ _ =>
    cases q with
    | obj a => exact ⟨a, rfl⟩
    | static s =>
      cases s with
      | consEmpty => cases hread
      | _ => cases hp
    | null => exact hp.elim
    | err e => exact hp.elim

theorem intOfLength_eq_iff (n : Nat) : intOfLength n = n ↔ n < 2 ^ 31 := Sexpr.ofNat_toInt_eq_iff n

/-- `sexpr_compact_cons_array` before it compacts the elements. -/
def consArrayFront (v : Pointer) : HeapM (List Pointer) := do
  let len ← sexprLength (← valGetref v)
  assert (0 ≤ len)
  match ← sexprListToArray v len.toNat with
  | .error _ => throw .assert
  | .ok arr => do
    assert (intOfLength arr.length = len)
    pure arr

def consArrayRest (arr : List Pointer) : HeapM Pointer := do
  let (ws, ret) ← compactArr arr
  match ret with
  | none => valAllocArrayDup ws
  | some e => do
    putAll (ws.filter (!·.isErr))
    pure (.err e)

theorem sexprCompactConsArray_eq (v : Pointer) :
    sexprCompactConsArray v = consArrayFront v >>= consArrayRest := by
  rw [sexprCompactConsArray.eq_def, consArrayFront]
  simp only [bind_assoc]
  refine bind_congr fun x => bind_congr fun len => bind_congr fun _ => bind_congr fun arr => ?_
  cases arr with
  | error e => rfl
  | ok arr =>
    dsimp only
    rw [bind_assoc]
    exact bind_congr fun _ => (pure_bind arr consArrayRest).symm

theorem assert_reads {c : Bool} (hc : c = true) : Reads (liftM (assert c) : HeapM Unit) h () := by
  intro g
  rw [hc]
  rfl

theorem assert_stuck {c : Bool} (hc : c = false) : Stuck (liftM (assert c) : HeapM Unit) h := by
  refine .of_throw (e := .assert) fun s => ?_
  rw [hc]
  rfl

theorem consArrayFront_runs (hin : InHeap h v) (hproper : v.toVal.isProper) (hb : Balanced h (ptr v :: owned))
    (hlen : v.items.length < 2 ^ 31) :
    Runs m h (consArrayFront (ptr v)) h fun arr h' =>
      arr = v.items.map ptr ∧ (∀ u ∈ v.items, InHeap h' u) ∧
        Balanced h' (v.items.map ptr ++ (ptr v :: owned)) := by
  have hrun := (sexprLength_runs (m := m) hin hb).bind (g := fun len => do
    assert (0 ≤ len)
    match ← sexprListToArray (ptr v) len.toNat with
    | .error _ => throw .assert
    | .ok arr => do
      assert (intOfLength arr.length = len)
      pure arr) (R := fun arr h' => arr = v.items.map ptr ∧ (∀ u ∈ v.items, InHeap h' u) ∧
        Balanced h' (v.items.map ptr ++ (ptr v :: owned))) ?_
  · rw [bind_assoc] at hrun
    exact hrun
  rintro len h1 hk1 ⟨rfl, hin1, hb1⟩
  rw [if_pos hproper, Int.toNat_natCast]
  refine (assert_reads (decide_eq_true (Int.natCast_nonneg _))).runs hk1 ?_
  have hstays := hin1.stays hb1 List.mem_cons_self
  refine ((sexprListToArray_runs hstays hproper hb1).base hk1).bind fun arr h2 hk2 h2' => ?_
  obtain ⟨-, rfl, hb2⟩ := h2'
  have hint : intOfLength (v.items.map ptr).length = v.items.length := by
    rw [List.length_map]
    exact (intOfLength_eq_iff _).mpr hlen
  refine (assert_reads (decide_eq_true hint)).runs hk2 (.pure hk2 ⟨rfl, ?_, hb2⟩)
  exact (hin.stays hb List.mem_cons_self h2 _ hk2 hb2).items

theorem consArrayFront_stuck (hin : InHeap h v) (hproper : v.toVal.isProper)
    (hb : Balanced h (ptr v :: owned)) (hlen : 2 ^ 31 ≤ v.items.length) :
    Stuck (consArrayFront (ptr v)) h := by
  have hstuck := Stuck.right (sexprLength_runs hin hb) (g := fun len => do
    assert (0 ≤ len)
    match ← sexprListToArray (ptr v) len.toNat with
    | .error _ => throw .assert
    | .ok arr => do
      assert (intOfLength arr.length = len)
      pure arr) ?_
  · rw [bind_assoc] at hstuck
    exact hstuck
  rintro len h1 hk1 ⟨rfl, hin1, hb1⟩
  rw [if_pos hproper, Int.toNat_natCast]
  refine (assert_reads (decide_eq_true (Int.natCast_nonneg _))).stuck ?_
  have hstays := hin1.stays hb1 List.mem_cons_self
  refine .right (sexprListToArray_runs hstays hproper hb1) fun arr h2 hk2 h2' => ?_
  obtain ⟨rfl, -⟩ := h2'
  have hint : intOfLength (v.items.map ptr).length ≠ v.items.length := by
    rw [List.length_map]
    intro heq
    have := (intOfLength_eq_iff _).mp heq
    omega
  exact .left (assert_stuck (decide_eq_false hint))

theorem sexprCompact_list_eq {q : Pointer} {head tail : Ref Pointer} (hin : InHeap h (.cons q head tail))
    (hw : Sexpr.whatIsIt (.cons q head tail) = .array) (g : Nat → Bool) :
    sexprCompact q ⟨h, g⟩ = (consArrayFront q >>= consArrayRest) ⟨h, g⟩ := by
  rw [sexprCompact_cons_eq hin, hw, ← sexprCompactConsArray_eq]

theorem spec_list {q : Pointer} {head tail : Ref Pointer}
    (hw : Sexpr.whatIsIt (.cons q head tail) = .array)
    (ih : ∀ u ∈ (Ref.cons q head tail).items, Spec m u) : Spec m (.cons q head tail) := by
  intro hsafe h owned hin hb
  obtain ⟨hlen, hsafe⟩ := (safe_list hw).mp hsafe
  have hfree : ¬AllocFree (.cons q head tail) := fun hall => (hall _ (.refl _)).2.1 hw
  obtain ⟨a, ha⟩ := ptr_list hin (Sexpr.not_null_of_whatIsIt (by simp [hw]))
  refine .congr (sexprCompact_list_eq hin hw) ?_
  refine (consArrayFront_runs hin (Sexpr.whatIsIt_array hw).1 hb hlen).bind fun arr h1 hk1 h1' => ?_
  obtain ⟨rfl, hin1, hb1⟩ := h1'
  refine ((compactArr_runs ih h1 _ hsafe hin1 hb1).base hk1).bind fun x h2 hk2 h2' => ?_
  obtain ⟨ws, ret⟩ := x
  obtain ⟨-, lost, hb2, hok, hret⟩ := h2'
  -- the list is among the lost references
  have hlost : Lost m (NoList (.cons q head tail)) (lost ++ [ptr (.cons q head tail)]) := by
    refine ⟨fun hno => absurd hno (noList_list hw), fun _ _ => ⟨a, List.mem_append_right _ ?_⟩⟩
    rw [← ha]
    exact List.mem_cons_self
  have happ : lost ++ (ptr (.cons q head tail) :: owned) = (lost ++ [ptr (.cons q head tail)]) ++ owned := by
    rw [List.append_assoc, List.singleton_append]
  rw [happ] at hb2
  cases ret with
  | none =>
    have hfilter : ws.filter (!·.isErr) = ws :=
      List.filter_eq_self.mpr fun w hw => by rw [hok rfl w hw]; rfl
    rw [hfilter] at hb2
    refine ((valAllocArrayDup_runs hb2).base hk2).mono fun r h3 h3' => ?_
    exact ⟨_, h3'.2.1, hlost, fun hall => absurd hall hfree, h3'.2.2⟩
  | some e =>
    refine ((putAll_runs hb2).base hk2).bind fun _ h3 hk3 h3' => ?_
    refine .pure hk3 ⟨_, h3'.2, hlost, fun hall => absurd hall hfree, fun hm => ?_⟩
    cases hret hm

/-! ### Alists -/

theorem noList_alist (hw : Sexpr.whatIsIt v = .nvl) :
    NoList v ↔ ∀ u ∈ v.items, NoList (Sexpr.sexprCdr u) :=
  (Sexpr.forall_visits fun _ => Sexpr.visits_alist hw).trans (and_iff_right (by simp [hw]))

theorem safe_alist (hw : Sexpr.whatIsIt v = .nvl) :
    Safe m v ↔ (m = .any → ∀ u ∈ v.items, NameReady u) ∧ ∀ u ∈ v.items, Safe m (Sexpr.sexprCdr u) := by
  refine (Sexpr.forall_visits fun _ => Sexpr.visits_alist hw).trans (and_congr_left fun _ => ?_)
  constructor
  · intro hgood hm u hu
    by_contra hno
    exact hgood (Or.inr (Or.inr ⟨hm, Or.inr ⟨hw, u, hu, hno⟩⟩))
  · rintro hready (rfl | ⟨hlist, -⟩ | ⟨hm, ⟨_, _, rfl, -⟩ | ⟨-, u, hu, hno⟩⟩)
    · cases hw
    · cases hw.symm.trans hlist
    · cases hw
    · exact hno (hready hm u hu)

theorem sexprCompact_alist_eq {q : Pointer} {head tail : Ref Pointer} (hin : InHeap h (.cons q head tail))
    (hw : Sexpr.whatIsIt (.cons q head tail) = .nvl) (g : Nat → Bool) :
    sexprCompact q ⟨h, g⟩ = (do
      let out ← nvlAlloc
      if out.isErr then do
        valPutref q
        pure out
      else
        match ← compactEntries q out with
        | none => do
          valPutref q
          pure out
        | some e => do
          valPutref q
          valPutref out
          pure (.err e) : HeapM Pointer) ⟨h, g⟩ := by
  rw [sexprCompact_cons_eq hin, hw]
  exact congrFun (sexprCompactConsNvl.eq_def q) ⟨h, g⟩

theorem spec_alist {q : Pointer} {head tail : Ref Pointer}
    (hw : Sexpr.whatIsIt (.cons q head tail) = .nvl)
    (ih : ∀ u ∈ (Ref.cons q head tail).items, Spec m (Sexpr.sexprCdr u)) : Spec m (.cons q head tail) := by
  intro hsafe h owned hin hb
  obtain ⟨hready, hsafe⟩ := (safe_alist hw).mp hsafe
  have hstays := hin.stays hb List.mem_cons_self
  have hfree : ¬AllocFree (.cons q head tail) := fun hall => (hall _ (.refl _)).2.2 hw
  have hpair : ∀ u ∈ (Ref.cons q head tail).items, Sexpr.isPair u := fun u hu =>
    (Sexpr.isPair_toVal u).trans ((Sexpr.IsAlist.of_whatIsIt hw).2 u hu)
  refine .congr (sexprCompact_alist_eq hin hw) ?_
  refine (nvlAlloc_runs hb).bind fun out h1 hk1 h1' => ?_
  rcases h1' with ⟨rfl, rfl, rfl⟩ | ⟨a, rfl, hf1⟩
  · exact (valPutref_runs hb).bind fun _ _ hk2 hb2 =>
      .pure hk2 ⟨[], hb2, ⟨fun _ => rfl, nofun⟩, fun hall => absurd hall hfree, nofun⟩
  refine (compactEntries_runs _ h1 _ ih (Sexpr.whatIsIt_nvl hw).1 hpair hsafe hready hf1
    (hstays.owns [.obj a])).bind fun r h2 hk2 h2' => ?_
  obtain ⟨lost, hf2, hlost, hret⟩ := h2'
  have hlost := hlost.imp (noList_alist hw)
  have hb2 := (hf2.balanced.perm (perm_release (.obj a) q lost owned)).perm (.swap _ _ _)
  cases r with
  | none =>
    refine ((valPutref_runs hb2).base hk2).bind fun _ h3 hk3 h3' => ?_
    exact .pure hk3 ⟨lost, h3'.2, hlost, fun hall => absurd hall hfree, fun _ => rfl⟩
  | some e =>
    refine ((valPutref_runs hb2).base hk2).bind fun _ h3 hk3 h3' => ?_
    refine ((valPutref_runs h3'.2).base hk3).bind fun _ h4 hk4 h4' => ?_
    refine .pure hk4 ⟨lost, h4'.2, hlost, fun hall => absurd hall hfree, fun hm => ?_⟩
    cases hret hm

/-- Every run of compaction. -/
theorem sexprCompact_runs (v : Ref Pointer) : Spec m v := by
  induction v using Sexpr.visits_induction with
  | null => exact fun hsafe => absurd (Or.inl rfl) (hsafe _ (.refl _))
  | other v hn hty hw => exact spec_other hn hty hw
  | array a vals ih => exact spec_array ih
  | nvl a pairs ih => exact spec_nvl ih
  | list a h t hw ih => exact spec_list hw ih
  | alist a h t hw ih => exact spec_alist hw ih

end Libjeffpc.Heap
