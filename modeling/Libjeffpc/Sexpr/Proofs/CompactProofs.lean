import Libjeffpc.Sexpr.Proofs.ListProofs

/-!
# Compaction computes the compact form

The result of `sexpr_compact` is its argument or a new object, so that equal pointers mean that nothing
was done. `CompactSpec` is proved by induction on the size of the value.
-/

namespace Libjeffpc.Sexpr

open Lib

/-- A value that compaction returns as it is. -/
inductive Compacted : Ref Addr → Prop
  | leaf {v : Ref Addr} (hn : v ≠ .null)
      (h : v.type ≠ some .cons ∧ v.type ≠ some .array ∧ v.type ≠ some .nvl) : Compacted v
  | cons {a : Addr} {h t : Ref Addr}
      (hw : whatIsIt (.cons a h t) = .cons ∨ whatIsIt (.cons a h t) = .null) : Compacted (.cons a h t)
  | array {a : Addr} {vals : List (Ref Addr)} (h : ∀ v ∈ vals, Compacted v) : Compacted (.array a vals)
  | nvl {a : Addr} {pairs : List (CStr × Ref Addr)} (h : ∀ p ∈ pairs, Compacted p.2) :
      Compacted (.nvl a pairs)

/-- A computation that faults if it has to stop, and returns otherwise. -/
structure Outcome {α : Type} (stops : Prop) (c : Comp (α × Nat)) (n : Nat) (post : α → Prop) : Prop where
  faults : stops → ∃ e, c = throw e
  returns : ¬stops → ∃ r n', c = pure (r, n') ∧ n ≤ n' ∧ post r

/-- What is known of the compaction of one value. -/
structure CompactPost (n : Nat) (v r : Ref Addr) : Prop where
  value : r.toVal = v.toVal.compact
  same : r = v ∨ ∃ k, n ≤ k ∧ r.addr = some (.obj k)
  compacted : Compacted r

def CompactSpec (v : Ref Addr) : Prop :=
  ∀ n, Below n v → NvOrdered v → Outcome (Stops v) (sexprCompact v n) n (CompactPost n v)

section Below

variable {n n' : Nat} {v w : Ref Addr}

theorem Below.mono (h : Below n v) (hle : n ≤ n') : Below n' v :=
  fun x hx k hk => (h x hx k hk).trans_le hle

theorem Below.part (h : Below n v) (hw : ∀ x, Reaches w x → x ≠ .null → Reaches v x) : Below n w := by
  intro x hx k hk
  have hne : x ≠ .null := by
    rintro rfl
    cases hk
  exact h x (hw x hx hne) k hk

theorem NvOrdered.part (h : NvOrdered v) (hw : ∀ x, Reaches w x → x ≠ .null → Reaches v x) :
    NvOrdered w := fun a pairs hx => h a pairs (hw _ hx (by simp))

/-- Equal pointers: nothing was done. -/
theorem CompactPost.eq_of_addr {r : Ref Addr} (h : CompactPost n v r) (hb : Below n v)
    (haddr : r.addr = v.addr) : r = v := by
  rcases h.same with hr | ⟨k, hle, hk⟩
  · exact hr
  · have := hb v (.refl v) k (haddr.symm.trans hk)
    omega

end Below

/-! ## Runs -/

section Outcome

variable {α β : Type} {P P' : Prop} {c : Comp (α × Nat)} {n : Nat} {Q Q' : α → Prop}

theorem Outcome.ret {r : α} {n' : Nat} (hP : ¬P) (hle : n ≤ n') (hQ : Q r) :
    Outcome P (pure (r, n')) n Q :=
  ⟨fun h => absurd h hP, fun _ => ⟨r, n', rfl, hle, hQ⟩⟩

/-- One run after the other. -/
theorem Outcome.bind {f : α × Nat → Comp (β × Nat)} {R : β → Prop} (h : Outcome P c n Q)
    (hf : ∀ r n', n ≤ n' → Q r → Outcome P' (f (r, n')) n' R) : Outcome (P ∨ P') (c >>= f) n R := by
  by_cases hP : P
  · refine ⟨fun _ => ?_, fun hno => absurd (Or.inl hP) hno⟩
    obtain ⟨e, rfl⟩ := h.faults hP
    exact ⟨e, rfl⟩
  · obtain ⟨r, n1, rfl, hle, hQ⟩ := h.returns hP
    have hf := hf r n1 hle hQ
    rw [pure_bind]
    refine ⟨fun hor => hf.faults (hor.resolve_left hP), fun hno => ?_⟩
    obtain ⟨r', n2, hr, hle2, hR⟩ := hf.returns fun hP' => hno (Or.inr hP')
    exact ⟨r', n2, hr, hle.trans hle2, hR⟩

theorem Outcome.imp (h : Outcome P c n Q) (hP : P' ↔ P) (hQ : ∀ r, Q r → Q' r) : Outcome P' c n Q' := by
  refine ⟨fun hh => h.faults (hP.mp hh), fun hh => ?_⟩
  obtain ⟨r, n1, hr, hle, hq⟩ := h.returns fun hp => hh (hP.mpr hp)
  exact ⟨r, n1, hr, hle, hQ r hq⟩

theorem Outcome.from {n' : Nat} (h : Outcome P c n' Q) (hle : n ≤ n') : Outcome P c n Q := by
  refine ⟨h.faults, fun hP => ?_⟩
  obtain ⟨r, n1, hr, hle1, hQ⟩ := h.returns hP
  exact ⟨r, n1, hr, hle.trans hle1, hQ⟩

end Outcome

/-! ## Loops -/

theorem compactElems_spec {vals : List (Ref Addr)} (hspec : ∀ v ∈ vals, CompactSpec v) :
    ∀ n, (∀ v ∈ vals, Below n v ∧ NvOrdered v) →
      Outcome (∃ v ∈ vals, Stops v) (compactElems vals n) n fun ws =>
        ws.map Ref.toVal = vals.map (fun v => v.toVal.compact) ∧
        (ws.map Ref.addr = vals.map Ref.addr → ws = vals) ∧ ∀ w ∈ ws, Compacted w := by
  induction vals with
  | nil =>
    intro n _
    have hrun : compactElems [] n = pure ([], n) := by
      rw [compactElems.eq_def]
      rfl
    rw [hrun]
    exact .ret (by simp) le_rfl ⟨rfl, fun _ => rfl, by simp⟩
  | cons v vals ih =>
    intro n hall
    have hrun : compactElems (v :: vals) n = (sexprCompact v n >>= fun p =>
        compactElems vals p.2 >>= fun q => pure (p.1 :: q.1, q.2)) := by
      rw [compactElems.eq_def]
      rfl
    have ih := ih fun w hw => hspec w (List.mem_cons_of_mem _ hw)
    obtain ⟨hbv, hov⟩ := hall v List.mem_cons_self
    rw [hrun]
    refine .imp ((hspec v List.mem_cons_self n hbv hov).bind fun r n1 hle hpost => ?_)
      (List.exists_mem_cons_iff _ _ _) fun _ h => h
    have hrest := ih n1 fun w hw =>
      ⟨(hall w (List.mem_cons_of_mem _ hw)).1.mono hle, (hall w (List.mem_cons_of_mem _ hw)).2⟩
    refine .imp (hrest.bind fun ws n2 _ hws => ?_) (or_false _).symm.to_iff fun _ h => h
    obtain ⟨hvals, haddrs, hcomp⟩ := hws
    refine .ret not_false le_rfl ⟨?_, ?_, ?_⟩
    · rw [List.map_cons, List.map_cons, hpost.value, hvals]
    · intro heq
      obtain ⟨h1, h2⟩ := List.cons.inj heq
      rw [hpost.eq_of_addr hbv h1, haddrs h2]
    · exact List.forall_mem_cons.mpr ⟨hpost.compacted, hcomp⟩

theorem compactPairs_spec {pairs : List (CStr × Ref Addr)} (hspec : ∀ p ∈ pairs, CompactSpec p.2) :
    ∀ n dst equal, (∀ p ∈ pairs, Below n p.2 ∧ NvOrdered p.2) →
      Outcome (∃ p ∈ pairs, Stops p.2) (compactPairs pairs dst equal n) n fun r =>
        ∃ qs, r.1 = Assoc.setAll strcmp dst qs ∧
          Assoc.mapValues Ref.toVal qs = Assoc.mapValues (fun v => v.toVal.compact) pairs ∧
          (r.2 = true → equal = true ∧ qs = pairs) ∧ ∀ q ∈ qs, Compacted q.2 := by
  induction pairs with
  | nil =>
    intro n dst equal _
    have hrun : compactPairs [] dst equal n = pure ((dst, equal), n) := by
      rw [compactPairs.eq_def]
      rfl
    rw [hrun]
    exact .ret (by simp) le_rfl ⟨[], rfl, rfl, fun h => ⟨h, rfl⟩, by simp⟩
  | cons p pairs ih =>
    obtain ⟨name, v⟩ := p
    intro n dst equal hall
    have hrun : compactPairs ((name, v) :: pairs) dst equal n = (sexprCompact v n >>= fun p =>
        compactPairs pairs (nvlSetPair dst name p.1) (equal && (p.1.addr = v.addr)) p.2) := by
      rw [compactPairs.eq_def]
      rfl
    have ih := ih fun w hw => hspec w (List.mem_cons_of_mem _ hw)
    obtain ⟨hbv, hov⟩ := hall _ List.mem_cons_self
    rw [hrun]
    refine .imp ((hspec _ List.mem_cons_self n hbv hov).bind fun r n1 hle hpost => ?_)
      (List.exists_mem_cons_iff _ _ _) fun _ h => h
    have hrest := ih n1 (nvlSetPair dst name r) (equal && (r.addr = v.addr)) fun w hw =>
      ⟨(hall w (List.mem_cons_of_mem _ hw)).1.mono hle, (hall w (List.mem_cons_of_mem _ hw)).2⟩
    refine hrest.imp Iff.rfl ?_
    rintro ⟨qs', equal'⟩ ⟨qs, hqs, hvals, heq, hcomp⟩
    refine ⟨(name, r) :: qs, hqs, ?_, ?_, List.forall_mem_cons.mpr ⟨hpost.compacted, hcomp⟩⟩
    · simp only [Assoc.mapValues, List.map_cons] at hvals ⊢
      rw [hpost.value, hvals]
    · intro htrue
      obtain ⟨hsame, rfl⟩ := heq htrue
      obtain ⟨hequal, haddr⟩ := Bool.and_eq_true_iff.mp hsame
      rw [hpost.eq_of_addr hbv (of_decide_eq_true haddr)]
      exact ⟨hequal, rfl⟩

/-- The name is read before the value is compacted; it may be copied. -/
theorem pairName_spec {a : Addr} {h t : Ref Addr} (hp : isPair (.cons a h t)) (n : Nat) :
    Outcome False (pairName h n) n fun s => s = (Ref.cons a h t).toVal.pairName := by
  cases h with
  | str b s =>
    have hrun : pairName (.str b s) n = pure (s, n) := rfl
    rw [hrun]
    exact .ret not_false le_rfl (by cases t <;> rfl)
  | sym b s =>
    have hrun : pairName (.sym b s) n = pure (s, n + 1) := rfl
    rw [hrun]
    exact .ret not_false (Nat.le_succ n) (by cases t <;> rfl)
  | _ => simp [isPair, Ref.type] at hp

theorem compactEntries_spec {items : List (Ref Addr)} (hspec : ∀ w ∈ items, CompactSpec (sexprCdr w))
    (hpair : ∀ w ∈ items, isPair w) :
    ∀ n out, (∀ w ∈ items, Below n (sexprCdr w) ∧ NvOrdered (sexprCdr w)) →
      Outcome (∃ w ∈ items, Stops (sexprCdr w)) (compactEntries items out n) n fun r =>
        ∃ qs, r = Assoc.setAll strcmp out qs ∧
          Assoc.mapValues Ref.toVal qs =
            items.map (fun w => (w.toVal.pairName, w.toVal.pairValue.compact)) ∧
          ∀ q ∈ qs, Compacted q.2 := by
  induction items with
  | nil =>
    intro n out _
    have hrun : compactEntries [] out n = pure (out, n) := by
      rw [compactEntries.eq_def]
      rfl
    rw [hrun]
    exact .ret (by simp) le_rfl ⟨[], rfl, rfl, by simp⟩
  | cons w items ih =>
    intro n out hall
    have hw := hpair w List.mem_cons_self
    obtain ⟨a, name, v, rfl⟩ : ∃ a h t, w = .cons a h t := by
      cases w with
      | cons a h t => exact ⟨a, h, t, rfl⟩
      | _ => cases hw
    have hrun : compactEntries (.cons a name v :: items) out n = (pairName name n >>= fun p =>
        sexprCompact v p.2 >>= fun q => compactEntries items (nvlSetPair out p.1 q.1) q.2) := by
      rw [compactEntries.eq_def]
      rfl
    have ih := ih (fun w hw => hspec w (List.mem_cons_of_mem _ hw))
      fun w hw => hpair w (List.mem_cons_of_mem _ hw)
    obtain ⟨hbv, hov⟩ := hall _ List.mem_cons_self
    rw [hrun]
    refine .imp ((pairName_spec hw n).bind fun s n0 hle0 hs => ?_) (false_or _).symm.to_iff fun _ h => h
    refine .imp ((hspec _ List.mem_cons_self n0 (hbv.mono hle0) hov).bind fun r n1 hle hpost => ?_)
      (List.exists_mem_cons_iff _ _ _) fun _ h => h
    have hrest := ih n1 (nvlSetPair out s r) fun w hw =>
      ⟨(hall w (List.mem_cons_of_mem _ hw)).1.mono (hle0.trans hle),
        (hall w (List.mem_cons_of_mem _ hw)).2⟩
    refine hrest.imp Iff.rfl ?_
    rintro qs' ⟨qs, hqs, hvals, hcomp⟩
    refine ⟨(s, r) :: qs, hqs, ?_, List.forall_mem_cons.mpr ⟨hpost.compacted, hcomp⟩⟩
    have hcdr : (Ref.cons a name v).toVal.pairValue = v.toVal := pairValue_toVal hw
    simp only [Assoc.mapValues, List.map_cons] at hvals ⊢
    rw [hcdr, hpost.value, hvals, hs]
    rfl

/-! ## Where compaction goes -/

section Visits

variable {A : Type} {a : A} {v w : Ref A} {B : Ref A → Prop}

theorem visits_array {vals : List (Ref A)} :
    Visits (.array a vals) w ↔ w = .array a vals ∨ ∃ v ∈ vals, Visits v w := by
  constructor
  · intro h
    cases h with
    | refl => exact Or.inl rfl
    | elem hv h => exact Or.inr ⟨_, hv, h⟩
    | item hw _ _ => cases hw
    | entry hw _ _ => cases hw
  · rintro (rfl | ⟨v, hv, h⟩)
    · exact .refl _
    · exact .elem hv h

theorem visits_nvl {pairs : List (CStr × Ref A)} :
    Visits (.nvl a pairs) w ↔ w = .nvl a pairs ∨ ∃ p ∈ pairs, Visits p.2 w := by
  constructor
  · intro h
    cases h with
    | refl => exact Or.inl rfl
    | value hp h => exact Or.inr ⟨_, hp, h⟩
    | item hw _ _ => cases hw
    | entry hw _ _ => cases hw
  · rintro (rfl | ⟨p, hp, h⟩)
    · exact .refl _
    · exact .value hp h

theorem visits_list (hv : whatIsIt v = .array) : Visits v w ↔ w = v ∨ ∃ u ∈ v.items, Visits u w := by
  constructor
  · intro h
    cases h with
    | refl => exact Or.inl rfl
    | elem _ _ => cases hv
    | value _ _ => cases hv
    | item _ hu h => exact Or.inr ⟨_, hu, h⟩
    | entry hv' _ _ => cases hv.symm.trans hv'
  · rintro (rfl | ⟨u, hu, h⟩)
    · exact .refl _
    · exact .item hv hu h

theorem visits_alist (hv : whatIsIt v = .nvl) :
    Visits v w ↔ w = v ∨ ∃ u ∈ v.items, Visits (sexprCdr u) w := by
  constructor
  · intro h
    cases h with
    | refl => exact Or.inl rfl
    | elem _ _ => cases hv
    | value _ _ => cases hv
    | item hv' _ _ => cases hv.symm.trans hv'
    | entry _ hu h => exact Or.inr ⟨_, hu, h⟩
  · rintro (rfl | ⟨u, hu, h⟩)
    · exact .refl _
    · exact .entry hv hu h

/-- Compaction does not look into other values. -/
theorem visits_other (hty : v.type ≠ some .array ∧ v.type ≠ some .nvl)
    (hv : whatIsIt v ≠ .array ∧ whatIsIt v ≠ .nvl) : Visits v w ↔ w = v := by
  constructor
  · intro h
    cases h with
    | refl => rfl
    | elem => exact absurd rfl hty.1
    | value => exact absurd rfl hty.2
    | item hv' => exact absurd hv' hv.1
    | entry hv' => exact absurd hv' hv.2
  · rintro rfl
    exact .refl _

/-- Something is found at the value itself, or behind it. -/
theorem exists_visits {ι : Type} {P : ι → Prop} {f : ι → Ref A}
    (h : ∀ w, Visits v w ↔ w = v ∨ ∃ i, P i ∧ Visits (f i) w) :
    (∃ w, Visits v w ∧ B w) ↔ B v ∨ ∃ i, P i ∧ ∃ w, Visits (f i) w ∧ B w := by
  constructor
  · rintro ⟨w, hw, hB⟩
    rcases (h w).mp hw with rfl | ⟨i, hi, hw⟩
    · exact Or.inl hB
    · exact Or.inr ⟨i, hi, w, hw, hB⟩
  · rintro (hB | ⟨i, hi, w, hw, hB⟩)
    · exact ⟨v, .refl v, hB⟩
    · exact ⟨w, (h w).mpr (Or.inr ⟨i, hi, hw⟩), hB⟩

theorem forall_visits {ι : Type} {P : ι → Prop} {f : ι → Ref A}
    (h : ∀ w, Visits v w ↔ w = v ∨ ∃ i, P i ∧ Visits (f i) w) :
    (∀ w, Visits v w → B w) ↔ B v ∧ ∀ i, P i → ∀ w, Visits (f i) w → B w := by
  constructor
  · exact fun hall => ⟨hall v (.refl v), fun i hi w hw => hall w ((h w).mpr (Or.inr ⟨i, hi, hw⟩))⟩
  · rintro ⟨hB, hall⟩ w hw
    rcases (h w).mp hw with rfl | ⟨i, hi, hw⟩
    · exact hB
    · exact hall i hi w hw

/-- Induction along the way that compaction goes. -/
theorem visits_induction {P : Ref A → Prop} (null : P .null)
    (other : ∀ v, v ≠ .null → v.type ≠ some .array ∧ v.type ≠ some .nvl →
      whatIsIt v ≠ .array ∧ whatIsIt v ≠ .nvl → P v)
    (array : ∀ a vals, (∀ v ∈ vals, P v) → P (.array a vals))
    (nvl : ∀ a pairs, (∀ p ∈ pairs, P p.2) → P (.nvl a pairs))
    (list : ∀ a h t, whatIsIt (.cons a h t) = .array → (∀ w ∈ (Ref.cons a h t).items, P w) →
      P (.cons a h t))
    (alist : ∀ a h t, whatIsIt (.cons a h t) = .nvl → (∀ w ∈ (Ref.cons a h t).items, P (sexprCdr w)) →
      P (.cons a h t)) (v : Ref A) : P v := by
  induction hs : sizeOf v using Nat.strong_induction_on generalizing v with
  | _ s ih =>
    have ih : ∀ w : Ref A, sizeOf w < sizeOf v → P w := fun w hw => ih (sizeOf w) (hs ▸ hw) w rfl
    cases v with
    | null => exact null
    | cons a h t =>
      rcases whatIsIt_cases (.cons a h t) with hw | hw | hw | hw
      · exact other _ (by simp) (by simp [Ref.type]) (by simp [hw])
      · exact other _ (by simp) (by simp [Ref.type]) (by simp [hw])
      · exact list a h t hw fun w hm => ih w (sizeOf_item hm)
      · exact alist a h t hw fun w hm => ih _ ((sizeOf_cdr w).trans_lt (sizeOf_item hm))
    | array a vals =>
      refine array a vals fun v hv => ih v ?_
      have := List.sizeOf_lt_of_mem hv
      simp only [Ref.array.sizeOf_spec]
      omega
    | nvl a pairs =>
      refine nvl a pairs fun p hp => ih p.2 ?_
      have := List.sizeOf_lt_of_mem hp
      have : sizeOf p.2 < sizeOf p := by
        cases p
        simp only [Prod.mk.sizeOf_spec]
        omega
      simp only [Ref.nvl.sizeOf_spec]
      omega
    | _ =>
      refine other _ ?_ ?_ ?_
      all_goals simp [Ref.type, whatIsIt, whatLoop, sexprIsNull, Ref.isNone, Ref.isEmptyCons]

theorem stops_array {vals : List (Ref A)} : Stops (.array a vals) ↔ ∃ v ∈ vals, Stops v := by
  refine (exists_visits fun _ => visits_array).trans (or_iff_right ?_)
  rintro (hw | ⟨hw, -⟩) <;> cases hw

theorem stops_nvl {pairs : List (CStr × Ref A)} : Stops (.nvl a pairs) ↔ ∃ p ∈ pairs, Stops p.2 := by
  refine (exists_visits fun _ => visits_nvl).trans (or_iff_right ?_)
  rintro (hw | ⟨hw, -⟩) <;> cases hw

theorem stops_list (hv : whatIsIt v = .array) :
    Stops v ↔ 2 ^ 31 ≤ v.items.length ∨ ∃ w ∈ v.items, Stops w := by
  refine (exists_visits fun _ => visits_list hv).trans (or_congr_left ?_)
  constructor
  · rintro (rfl | ⟨-, hlen⟩)
    · cases hv
    · exact hlen
  · exact fun hlen => Or.inr ⟨hv, hlen⟩

theorem stops_alist (hv : whatIsIt v = .nvl) : Stops v ↔ ∃ w ∈ v.items, Stops (sexprCdr w) := by
  refine (exists_visits fun _ => visits_alist hv).trans (or_iff_right ?_)
  rintro (rfl | ⟨hw, -⟩)
  · cases hv
  · cases hv.symm.trans hw

theorem not_stops (hn : v ≠ .null) (hty : v.type ≠ some .array ∧ v.type ≠ some .nvl)
    (hv : whatIsIt v ≠ .array ∧ whatIsIt v ≠ .nvl) : ¬Stops v := by
  rintro ⟨w, hvisit, hw⟩
  obtain rfl := (visits_other hty hv).mp hvisit
  rcases hw with hw | ⟨hw, -⟩
  · exact hn hw
  · exact hv.1 hw

end Visits

/-! ## The kinds of values -/

theorem compactSpec_self {v : Ref Addr} (hrun : ∀ n, sexprCompact v n = pure (v, n)) (hstops : ¬Stops v)
    (hval : v.toVal.compact = v.toVal) (hc : Compacted v) : CompactSpec v := by
  intro n _ _
  rw [hrun n]
  exact .ret hstops le_rfl ⟨hval.symm, Or.inl rfl, hc⟩

theorem sexprCompact_array (a : Addr) (vals : List (Ref Addr)) (n : Nat) :
    sexprCompact (.array a vals) n = (compactElems vals n >>= fun p =>
      if p.1.map Ref.addr = vals.map Ref.addr then pure (.array a vals, p.2)
      else pure (.array (.obj p.2) p.1, p.2 + 1)) := by
  rw [sexprCompact.eq_def]
  show sexprCompactArray (.array a vals) n = _
  rw [sexprCompactArray.eq_def]
  show (compactElems vals n >>= fun p => _) = _
  refine congrArg _ (funext fun p => ?_)
  dsimp only
  split <;> rfl

theorem sexprCompact_nvl (a : Addr) (pairs : List (CStr × Ref Addr)) (n : Nat) :
    sexprCompact (.nvl a pairs) n = (compactPairs pairs [] true (n + 1) >>= fun p =>
      pure (if p.1.2 then .nvl a pairs else .nvl (.obj n) p.1.1, p.2)) := by
  rw [sexprCompact.eq_def]
  show sexprCompactNvl (.nvl a pairs) n = _
  rw [sexprCompactNvl.eq_def]
  rfl

theorem compactSpec_array {a : Addr} {vals : List (Ref Addr)} (ih : ∀ v ∈ vals, CompactSpec v) :
    CompactSpec (.array a vals) := by
  intro n hb ho
  have hloop := compactElems_spec ih n fun v hv =>
    ⟨hb.part fun x hx _ => .elem hv hx, ho.part fun x hx _ => .elem hv hx⟩
  rw [sexprCompact_array]
  refine .imp (hloop.bind fun ws n1 hle hws => (?_ : Outcome False _ _ _))
    (stops_array.trans (or_false _).symm.to_iff) fun _ h => h
  obtain ⟨hvals, haddrs, hcomp⟩ := hws
  have hcompact : (Ref.array a vals).toVal.compact = .array (ws.map Ref.toVal) := by
    rw [Ref.toVal, Val.compact, Val.compactAll_eq, toVals_eq, List.map_map, hvals]
    rfl
  dsimp only
  by_cases heq : ws.map Ref.addr = vals.map Ref.addr
  · rw [if_pos heq]
    obtain rfl := haddrs heq
    refine .ret not_false le_rfl ⟨?_, Or.inl rfl, .array hcomp⟩
    rw [hcompact, Ref.toVal, toVals_eq]
  · rw [if_neg heq]
    refine .ret not_false (Nat.le_succ n1) ⟨?_, Or.inr ⟨n1, hle, rfl⟩, .array hcomp⟩
    rw [hcompact, Ref.toVal, toVals_eq]

/-- An nvlist that is walked in the order of its names is built again in that order. -/
theorem compactSpec_nvl {a : Addr} {pairs : List (CStr × Ref Addr)} (ih : ∀ p ∈ pairs, CompactSpec p.2) :
    CompactSpec (.nvl a pairs) := by
  intro n hb ho
  have hloop := compactPairs_spec ih (n + 1) [] true fun p hp =>
    ⟨(hb.part fun x hx _ => .value hp hx).mono (Nat.le_succ n), ho.part fun x hx _ => .value hp hx⟩
  rw [sexprCompact_nvl]
  refine .imp ((hloop.from (Nat.le_succ n)).bind fun r n1 hle hr => (?_ : Outcome False _ _ _))
    (stops_nvl.trans (or_false _).symm.to_iff) fun _ h => h
  obtain ⟨qs', equal⟩ := r
  obtain ⟨qs, rfl, hvals, heq, hcomp⟩ := hr
  have hcompact : (Ref.nvl a pairs).toVal.compact = .nvl (Assoc.mapValues Ref.toVal qs) := by
    rw [Ref.toVal, Val.compact, Val.compactPairs_eq, toPairs_eq, hvals, Assoc.mapValues, Assoc.mapValues,
      Assoc.mapValues, List.map_map]
    rfl
  have hsorted : Assoc.Sorted strcmp qs := by
    have hmap : qs.map Prod.fst = pairs.map Prod.fst := by
      have := congrArg (List.map Prod.fst) hvals
      simpa [Assoc.mapValues, Function.comp_def] using this
    have hp : (pairs.map Prod.fst).Pairwise fun x y => strcmp x y < 0 :=
      List.pairwise_map.mpr (ho a pairs (.refl _))
    exact List.pairwise_map.mp (hmap ▸ hp)
  have hset : Assoc.setAll strcmp [] qs = qs :=
    Assoc.setAll_sorted strcmp_isCmp (fun _ _ => strcmp_eq_zero) hsorted
  dsimp only
  rw [hset]
  cases equal with
  | true =>
    obtain rfl := (heq rfl).2
    refine .ret not_false le_rfl ⟨?_, Or.inl rfl, .nvl hcomp⟩
    rw [hcompact]
    exact congrArg Val.nvl (toPairs_eq _)
  | false =>
    refine .ret not_false le_rfl ⟨?_, Or.inr ⟨n, le_rfl, rfl⟩, .nvl hcomp⟩
    rw [hcompact]
    exact congrArg Val.nvl (toPairs_eq _)

section Cons

variable {a : Addr} {h t : Ref Addr}

/-- A length that is cut to an int. -/
theorem ofNat_toInt_eq_iff (n : Nat) : (Int32.ofNat n).toInt = n ↔ n < 2 ^ 31 := by
  constructor
  · intro h
    have := (Int32.ofNat n).toInt_lt
    omega
  · intro h
    exact Int32.toInt_ofNat_of_lt h

theorem sexprCompactConsArray_run {v : Ref Addr} (hp : v.toVal.isProper) (n : Nat) :
    sexprCompactConsArray v n = if v.items.length < 2 ^ 31 then
      compactElems v.items n >>= fun p => pure (.array (.obj p.2) p.1, p.2 + 1) else throw .assert := by
  have hlen : (sexprLength v).toNat = v.items.length := by
    rw [sexprLength_proper hp, Int.toNat_natCast]
  rw [sexprCompactConsArray.eq_def]
  dsimp only
  rw [hlen, sexprListToArray_proper hp, sexprLength_proper hp]
  dsimp only
  rw [decide_eq_true (Int.natCast_nonneg _)]
  by_cases hint : v.items.length < 2 ^ 31
  · rw [decide_eq_true ((ofNat_toInt_eq_iff _).mpr hint), if_pos hint]
    rfl
  · rw [decide_eq_false fun h => hint ((ofNat_toInt_eq_iff _).mp h), if_neg hint]
    rfl

theorem compactSpec_list (hw : whatIsIt (.cons a h t) = .array)
    (ih : ∀ w ∈ (Ref.cons a h t).items, CompactSpec w) : CompactSpec (.cons a h t) := by
  intro n hb ho
  obtain ⟨hp, hno⟩ := whatIsIt_array hw
  have hrun : sexprCompact (.cons a h t) n = sexprCompactConsArray (.cons a h t) n := by
    rw [sexprCompact.eq_def]
    show sexprCompactCons (.cons a h t) n = _
    rw [sexprCompactCons.eq_def, if_neg (by simp [Ref.type]), hw]
  rw [hrun, sexprCompactConsArray_run hp]
  by_cases hint : (Ref.cons a h t).items.length < 2 ^ 31
  · rw [if_pos hint]
    have hloop := compactElems_spec ih n fun v hv =>
      ⟨hb.part fun x hx _ => reaches_item hv hx, ho.part fun x hx _ => reaches_item hv hx⟩
    have hstops : Stops (.cons a h t) ↔ (∃ w ∈ (Ref.cons a h t).items, Stops w) ∨ False := by
      rw [stops_list hw, or_false, or_iff_right (Nat.not_le.mpr hint)]
    refine .imp (hloop.bind fun ws n1 hle hws => (?_ : Outcome False _ _ _)) hstops fun _ h => h
    obtain ⟨hvals, -, hcomp⟩ := hws
    refine .ret not_false (Nat.le_succ n1) ⟨?_, Or.inr ⟨n1, hle, rfl⟩, .array hcomp⟩
    have hv := toVal_cons (not_null_of_whatIsIt (by simp [hw] : whatIsIt (.cons a h t) ≠ .null))
    rw [hv] at hp hno
    have hp : t.toVal.isProper := hp
    rw [hv, Val.compact_list hp hno, ← hv, ← items_toVal, List.map_map, Ref.toVal, toVals_eq, hvals]
    rfl
  · rw [if_neg hint]
    have hstops : Stops (.cons a h t) := (stops_list hw).mpr (Or.inl (Nat.not_lt.mp hint))
    exact ⟨fun _ => ⟨.assert, rfl⟩, fun hno => absurd hstops hno⟩

theorem sexprCompact_alist (hw : whatIsIt (.cons a h t) = .nvl) (n : Nat) :
    sexprCompact (.cons a h t) n = (compactEntries (Ref.cons a h t).items [] (n + 1) >>=
      fun p => pure (.nvl (.obj n) p.1, p.2)) := by
  have hfor : sexprForEach (.cons a h t) = (Ref.cons a h t).items := by
    refine sexprForEach_eq fun w hm => ?_
    rintro rfl
    cases (IsAlist.of_whatIsIt hw).2 _ hm
  rw [sexprCompact.eq_def]
  show sexprCompactCons (.cons a h t) n = _
  rw [sexprCompactCons.eq_def, if_neg (by simp [Ref.type]), hw]
  show sexprCompactConsNvl (.cons a h t) n = _
  rw [sexprCompactConsNvl.eq_def, hfor]
  rfl

theorem compactSpec_alist (hw : whatIsIt (.cons a h t) = .nvl)
    (ih : ∀ w ∈ (Ref.cons a h t).items, CompactSpec (sexprCdr w)) : CompactSpec (.cons a h t) := by
  intro n hb ho
  obtain ⟨hp, hall⟩ := whatIsIt_nvl hw
  have hpair : ∀ w ∈ (Ref.cons a h t).items, isPair w := fun w hm =>
    (isPair_toVal w).trans ((IsAlist.of_whatIsIt hw).2 w hm)
  have hreach : ∀ w ∈ (Ref.cons a h t).items, ∀ x, Reaches (sexprCdr w) x → x ≠ .null →
      Reaches (.cons a h t) x := fun w hm x hx hne => reaches_item hm (reaches_cdr hx hne)
  have hloop := compactEntries_spec ih hpair (n + 1) [] fun w hm =>
    ⟨(hb.part (hreach w hm)).mono (Nat.le_succ n), ho.part (hreach w hm)⟩
  rw [sexprCompact_alist hw]
  refine .imp ((hloop.from (Nat.le_succ n)).bind fun r n1 hle hr => (?_ : Outcome False _ _ _))
    ((stops_alist hw).trans (or_false _).symm.to_iff) fun _ h => h
  obtain ⟨qs, rfl, hvals, hcomp⟩ := hr
  refine .ret not_false le_rfl ⟨?_, Or.inr ⟨n, le_rfl, rfl⟩, .nvl ?_⟩
  · have hv := toVal_cons (not_null_of_whatIsIt (by simp [hw] : whatIsIt (.cons a h t) ≠ .null))
    have hmap : Assoc.mapValues Ref.toVal (Assoc.setAll strcmp [] qs) =
        Assoc.setAll strcmp [] (Assoc.mapValues Ref.toVal qs) := Assoc.mapValues_setAll _ _ _
    rw [hv] at hp hall
    have hp : t.toVal.isProper := hp
    rw [hv, Val.compact_alist hp hall, ← hv, ← items_toVal, List.map_map, Ref.toVal, toPairs_eq, hmap,
      hvals]
    rfl
  · exact Assoc.forall_setAll (by simp) hcomp

/-- The cons cells that stay as they are. -/
theorem compactSpec_kept (hw : whatIsIt (.cons a h t) = .null ∨ whatIsIt (.cons a h t) = .cons) :
    CompactSpec (.cons a h t) := by
  have hself : ∀ n, sexprCompact (.cons a h t) n = pure (.cons a h t, n) := by
    intro n
    rw [sexprCompact.eq_def]
    show sexprCompactCons (.cons a h t) n = _
    rw [sexprCompactCons.eq_def, if_neg (by simp [Ref.type])]
    rcases hw with hw | hw
    · rw [hw]
      rfl
    · rw [hw]
      rfl
  rcases hw with hw | hw
  · refine compactSpec_self hself (not_stops (by simp) (by simp [Ref.type]) (by simp [hw])) ?_
      (.cons (Or.inr hw))
    have hn : sexprIsNull (.cons a h t) = true := by
      by_contra hn
      rw [whatIsIt_eq (Bool.eq_false_iff.mpr hn)] at hw
      split at hw
      · split at hw <;> cases hw
      · cases hw
    rw [toVal_eq_nil.mpr hn]
    rfl
  · refine compactSpec_self hself (not_stops (by simp) (by simp [Ref.type]) (by simp [hw])) ?_
      (.cons (Or.inl hw))
    have hp := whatIsIt_cons hw
    rw [toVal_cons (not_null_of_whatIsIt (by simp [hw]))] at hp ⊢
    exact Val.compact_improper hp

end Cons

/-- Compaction returns a compact form, or has to stop. -/
theorem sexprCompact_spec (v : Ref Addr) : CompactSpec v := by
  induction v using visits_induction with
  | null =>
    intro n _ _
    refine ⟨fun _ => ⟨.null, ?_⟩, fun hno => absurd ⟨_, .refl _, Or.inl rfl⟩ hno⟩
    rw [sexprCompact.eq_def]
    rfl
  | list a h t hw ih => exact compactSpec_list hw ih
  | alist a h t hw ih => exact compactSpec_alist hw ih
  | array a vals ih => exact compactSpec_array ih
  | nvl a pairs ih => exact compactSpec_nvl ih
  | other v hn hty hv =>
    cases v with
    | null => exact absurd rfl hn
    | array _ _ => exact absurd rfl hty.1
    | nvl _ _ => exact absurd rfl hty.2
    | cons a h t =>
      refine compactSpec_kept ?_
      rcases whatIsIt_cases (.cons a h t) with hw | hw | hw | hw
      · exact Or.inl hw
      · exact Or.inr hw
      · exact absurd hw hv.1
      · exact absurd hw hv.2
    | _ =>
      refine compactSpec_self (fun n => ?_) (not_stops ?_ ?_ ?_) rfl (.leaf ?_ ?_)
      · rw [sexprCompact.eq_def]
        rfl
      all_goals simp [Ref.type, whatIsIt, whatLoop, sexprIsNull, Ref.isNone, Ref.isEmptyCons]

end Libjeffpc.Sexpr
