import Libjeffpc.Sexpr.Proofs.CompactProofs

/-!
# The shape of compact values

A compact value is returned as it is; values without NULL pointers are always compacted, and a value
with an empty cons cell for each NULL pointer stands for the same lists.
-/

namespace Libjeffpc

open Lib

/-! ## The compact form has the shape -/

theorem forall₂_map {α β : Type} {R : α → β → Prop} {f : α → β} {l : List α} (h : ∀ a ∈ l, R a (f a)) :
    List.Forall₂ R l (l.map f) := List.forall₂_map_right_iff.mpr (List.forall₂_same.mpr h)

theorem Val.sizeOf_mem_items : ∀ {v w : Val}, w ∈ v.items → sizeOf w < sizeOf v
  | .cons head tail, w, hw => by
    simp only [Val.cons.sizeOf_spec]
    rcases List.mem_cons.mp hw with rfl | hw
    · omega
    · have := sizeOf_mem_items hw
      omega

theorem Val.sizeOf_pairValue (v : Val) : sizeOf v.pairValue ≤ sizeOf v := by
  cases v <;> simp +arith [Val.pairValue]

theorem shape_cons {head tail : Val} (ih : ∀ w, sizeOf w < sizeOf (Val.cons head tail) → Shape w w.compact) :
    Shape (.cons head tail) (Val.compact (.cons head tail)) := by
  cases hp : tail.isProper with
  | false =>
    rw [Val.compact_improper hp]
    exact .improper hp
  | true =>
    cases hall : (Val.items (.cons head tail)).all Val.isPair with
    | false =>
      rw [Val.compact_list hp hall]
      exact .list hp hall (forall₂_map fun w hw => ih w (Val.sizeOf_mem_items hw))
    | true =>
      have hzip : ((Val.items (.cons head tail)).map fun w => (w.pairName, w.pairValue.compact)) =
          ((Val.items (.cons head tail)).map Val.pairName).zip
            (((Val.items (.cons head tail)).map Val.pairValue).map Val.compact) := by
        rw [List.map_map, List.zip_map']
        rfl
      rw [Val.compact_alist hp hall, hzip]
      refine .alist hp hall (forall₂_map fun w hw => ?_)
      obtain ⟨u, hu, rfl⟩ := List.mem_map.mp hw
      exact ih _ ((Val.sizeOf_pairValue u).trans_lt (Val.sizeOf_mem_items hu))

theorem shape_compact (v : Val) : Shape v v.compact := by
  induction hs : sizeOf v using Nat.strong_induction_on generalizing v with
  | _ s ih =>
    have ih : ∀ w : Val, sizeOf w < sizeOf v → Shape w w.compact := fun w hw =>
      ih (sizeOf w) (hs ▸ hw) w rfl
    cases v with
    | cons head tail => exact shape_cons ih
    | array vals =>
      rw [Val.compact, Val.compactAll_eq]
      refine .array (forall₂_map fun w hw => ih w ?_)
      have := List.sizeOf_lt_of_mem hw
      simp only [Val.array.sizeOf_spec]
      omega
    | nvl pairs =>
      rw [Val.compact, Val.compactPairs_eq]
      refine .nvl (by simp [Assoc.mapValues, Function.comp_def]) ?_
      have hsnd : (Assoc.mapValues Val.compact pairs).map Prod.snd =
          (pairs.map Prod.snd).map Val.compact := by
        simp [Assoc.mapValues, Function.comp_def]
      rw [hsnd]
      refine forall₂_map fun w hw => ih w ?_
      obtain ⟨p, hp, rfl⟩ := List.mem_map.mp hw
      have := List.sizeOf_lt_of_mem hp
      have : sizeOf p.2 < sizeOf p := by
        cases p
        simp only [Prod.mk.sizeOf_spec]
        omega
      simp only [Val.nvl.sizeOf_spec]
      omega
    | nil => exact .empty
    | _ => exact .leaf (by simp [Val.type])

namespace Sexpr

/-! ## Compact values -/

theorem compactElems_compacted {vals : List (Ref Addr)}
    (h : ∀ v ∈ vals, ∀ n, ∃ n', sexprCompact v n = pure (v, n')) :
    ∀ n, ∃ n', compactElems vals n = pure (vals, n') := by
  induction vals with
  | nil =>
    intro n
    refine ⟨n, ?_⟩
    rw [compactElems.eq_def]
    rfl
  | cons v vals ih =>
    intro n
    obtain ⟨hv, hvals⟩ := List.forall_mem_cons.mp h
    obtain ⟨n1, hn1⟩ := hv n
    obtain ⟨n2, hn2⟩ := ih hvals n1
    refine ⟨n2, ?_⟩
    have hrun : compactElems (v :: vals) n = (sexprCompact v n >>= fun p =>
        compactElems vals p.2 >>= fun q => pure (p.1 :: q.1, q.2)) := by
      rw [compactElems.eq_def]
      rfl
    rw [hrun, hn1, pure_bind, hn2, pure_bind]

theorem compactPairs_compacted {pairs : List (CStr × Ref Addr)}
    (h : ∀ p ∈ pairs, ∀ n, ∃ n', sexprCompact p.2 n = pure (p.2, n')) :
    ∀ dst n, ∃ qs n', compactPairs pairs dst true n = pure ((qs, true), n') := by
  induction pairs with
  | nil =>
    intro dst n
    refine ⟨dst, n, ?_⟩
    rw [compactPairs.eq_def]
    rfl
  | cons p pairs ih =>
    obtain ⟨name, v⟩ := p
    intro dst n
    obtain ⟨hv, hvals⟩ := List.forall_mem_cons.mp h
    obtain ⟨n1, hn1⟩ := hv n
    obtain ⟨qs, n2, hn2⟩ := ih hvals (nvlSetPair dst name v) n1
    refine ⟨qs, n2, ?_⟩
    have hrun : compactPairs ((name, v) :: pairs) dst true n = (sexprCompact v n >>= fun p =>
        compactPairs pairs (nvlSetPair dst name p.1) (true && (p.1.addr = v.addr)) p.2) := by
      rw [compactPairs.eq_def]
      rfl
    rw [hrun, hn1, pure_bind]
    dsimp only
    rw [decide_eq_true rfl]
    exact hn2

/-- The very same object is returned. -/
theorem Compacted.sexprCompact_self {r : Ref Addr} (h : Compacted r) :
    ∀ n, ∃ n', sexprCompact r n = pure (r, n') := by
  induction h with
  | leaf hn h =>
    rename_i v
    intro n
    refine ⟨n, ?_⟩
    rw [sexprCompact.eq_def]
    cases v <;> simp_all [Ref.type] <;> rfl
  | cons hw =>
    intro n
    refine ⟨n, ?_⟩
    rw [sexprCompact.eq_def]
    dsimp only
    rw [sexprCompactCons.eq_def, if_neg (by simp [Ref.type])]
    rcases hw with hw | hw
    · rw [hw]
      rfl
    · rw [hw]
      rfl
  | @array a vals _ ih =>
    intro n
    obtain ⟨n', hn'⟩ := compactElems_compacted ih n
    refine ⟨n', ?_⟩
    rw [sexprCompact_array, hn', pure_bind, if_pos rfl]
  | @nvl a pairs _ ih =>
    intro n
    obtain ⟨qs, n', hn'⟩ := compactPairs_compacted ih [] (n + 1)
    refine ⟨n', ?_⟩
    rw [sexprCompact_nvl, hn', pure_bind]
    rfl

/-! ## Values without NULL pointers -/

section NullFree

variable {A : Type} {v w x : Ref A}

theorem Reaches.trans {u v : Ref A} (huv : Reaches u v) {w : Ref A} (hvw : Reaches v w) :
    Reaches u w := by
  induction huv with
  | refl => exact hvw
  | head _ ih => exact .head (ih hvw)
  | tail _ ih => exact .tail (ih hvw)
  | elem hv _ ih => exact .elem hv (ih hvw)
  | value hp _ ih => exact .value hp (ih hvw)

theorem NullFree.part (h : NullFree v) (hw : Reaches v w) (hne : w ≠ .null) : NullFree w := by
  obtain ⟨-, hcons, harr, hnvl⟩ := h
  exact ⟨hne, fun a hd tl hx => hcons a hd tl (hw.trans hx), fun a vals hx => harr a vals (hw.trans hx),
    fun a pairs hx => hnvl a pairs (hw.trans hx)⟩

theorem NullFree.item_ne_null (h : NullFree v) : ∀ {u w : Ref A}, Reaches v u → w ∈ u.items → w ≠ .null
  | .cons a hd tl, w, hu, hw => by
    cases hn : sexprIsNull (.cons a hd tl) with
    | true =>
      rw [items_empty hn] at hw
      cases hw
    | false =>
      obtain ⟨hhd, -⟩ := h.2.1 a hd tl hu hn
      rw [items_cons hn] at hw
      rcases List.mem_cons.mp hw with rfl | hw
      · exact hhd
      · exact item_ne_null h (hu.trans (.tail (.refl _))) hw

/-- Compaction goes to parts of the value. -/
theorem NullFree.visits (h : NullFree v) (hw : Visits v w) : w ≠ .null ∧ Reaches v w := by
  induction hw with
  | refl => exact ⟨h.1, .refl _⟩
  | @elem a vals v _ hv _ ih =>
    have hne : v ≠ .null := by
      rintro rfl
      exact h.2.2.1 a vals (.refl _) hv
    have hpart : Reaches (.array a vals) v := .elem hv (.refl _)
    exact (ih (h.part hpart hne)).imp_right hpart.trans
  | @value a pairs p _ hp _ ih =>
    have hpart : Reaches (.nvl a pairs) p.2 := .value hp (.refl _)
    exact (ih (h.part hpart (h.2.2.2 a pairs (.refl _) p hp))).imp_right hpart.trans
  | @item v u _ _ hu _ ih =>
    have hpart : Reaches v u := reaches_item hu (.refl _)
    exact (ih (h.part hpart (h.item_ne_null (.refl _) hu))).imp_right hpart.trans
  | @entry v u _ hnvl hu _ ih =>
    have hpair : isPair u := (isPair_toVal u).trans ((IsAlist.of_whatIsIt hnvl).2 u hu)
    cases u with
    | cons a hd tl =>
      have hreach : Reaches v (.cons a hd tl) := reaches_item hu (.refl _)
      have hpart : Reaches v tl := hreach.trans (.tail (.refl _))
      exact (ih (h.part hpart (h.2.1 a hd tl hreach (not_null_of_isPair hpair)).2)).imp_right hpart.trans
    | _ => cases hpair

theorem NullFree.not_stops (h : NullFree v) (hshort : ShortLists v) : ¬Stops v := by
  rintro ⟨w, hw, hstuck⟩
  obtain ⟨hne, hreach⟩ := h.visits hw
  rcases hstuck with hnull | ⟨-, hlong⟩
  · exact hne hnull
  · have := hshort w hreach
    omega

end NullFree

/-! ## Empty cons cells for NULL pointers -/

theorem fill_ne_null (v : Ref Addr) : v.fill ≠ .null := by
  cases v with
  | cons a h t =>
    rw [Ref.fill]
    split <;> simp
  | _ => simp [Ref.fill, valEmptyCons]

theorem isNone_fill (v : Ref Addr) : v.fill.isNone = false := by
  have h := fill_ne_null v
  cases hv : v.fill with
  | null => exact absurd hv h
  | _ => rfl

theorem fill_empty {a : Addr} {h t : Ref Addr} (hn : sexprIsNull (.cons a h t) = true) :
    (Ref.cons a h t).fill = .cons a h t := if_pos (c := (h.isNone && t.isNone) = true) hn

theorem fill_cons {a : Addr} {h t : Ref Addr} (hn : sexprIsNull (.cons a h t) = false) :
    (Ref.cons a h t).fill = .cons a h.fill t.fill := by
  have hn' : ¬(h.isNone && t.isNone) = true := by
    intro hc
    cases hn.symm.trans hc
  rw [Ref.fill, if_neg hn']

theorem fillAll_eq (vals : List (Ref Addr)) : fillAll vals = vals.map Ref.fill := by
  induction vals with
  | nil => rfl
  | cons v vals ih => rw [fillAll, List.map_cons, ih]

theorem fillPairs_eq (pairs : List (CStr × Ref Addr)) : fillPairs pairs = Assoc.mapValues Ref.fill pairs := by
  induction pairs with
  | nil => rfl
  | cons p pairs ih =>
    obtain ⟨name, v⟩ := p
    rw [fillPairs, ih]
    rfl

mutual

theorem toVal_fill : ∀ v : Ref Addr, v.fill.toVal = v.toVal
  | .cons a h t => by
    cases hn : sexprIsNull (.cons a h t) with
    | true => rw [fill_empty hn]
    | false =>
      have hn' : sexprIsNull (.cons a h.fill t.fill) = false := by
        show (h.fill.isNone && t.fill.isNone) = false
        rw [isNone_fill]
        rfl
      rw [fill_cons hn, toVal_cons hn, toVal_cons hn', toVal_fill h, toVal_fill t]
  | .array a vals => by rw [Ref.fill, Ref.toVal, toVals_fill vals, Ref.toVal]
  | .nvl a pairs => by rw [Ref.fill, Ref.toVal, toPairs_fill pairs, Ref.toVal]
  | .null => rfl
  | .vtNull _ => rfl
  | .int _ _ => rfl
  | .str _ _ => rfl
  | .sym _ _ => rfl
  | .bool _ _ => rfl
  | .char _ _ => rfl
  | .blob _ _ => rfl

theorem toVals_fill : ∀ vals : List (Ref Addr), toVals (fillAll vals) = toVals vals
  | [] => rfl
  | v :: vals => by rw [fillAll, toVals, toVals, toVal_fill v, toVals_fill vals]

theorem toPairs_fill : ∀ pairs : List (CStr × Ref Addr), toPairs (fillPairs pairs) = toPairs pairs
  | [] => rfl
  | (name, v) :: pairs => by rw [fillPairs, toPairs, toPairs, toVal_fill v, toPairs_fill pairs]

end

theorem fill_eq_cons {v h t : Ref Addr} {a : Addr} (hu : v.fill = .cons a h t) :
    (h = .null ∧ t = .null) ∨ ∃ h' t', v = .cons a h' t' ∧ h = h'.fill ∧ t = t'.fill := by
  cases v with
  | null =>
    cases hu
    exact Or.inl ⟨rfl, rfl⟩
  | cons b h' t' =>
    cases hn : sexprIsNull (.cons b h' t') with
    | true =>
      rw [fill_empty hn] at hu
      obtain ⟨rfl, rfl⟩ := emptyCons_iff.mp hn
      cases hu
      exact Or.inl ⟨rfl, rfl⟩
    | false =>
      rw [fill_cons hn] at hu
      cases hu
      exact Or.inr ⟨h', t', rfl, rfl, rfl⟩
  | _ => cases hu

theorem fill_eq_array {v : Ref Addr} {a : Addr} {vals : List (Ref Addr)} (hu : v.fill = .array a vals) :
    ∃ vals', v = .array a vals' ∧ vals = vals'.map Ref.fill := by
  cases v with
  | array b vals' =>
    rw [Ref.fill, fillAll_eq] at hu
    cases hu
    exact ⟨vals', rfl, rfl⟩
  | cons b h' t' =>
    rw [Ref.fill] at hu
    split at hu <;> cases hu
  | _ => cases hu

theorem fill_eq_nvl {v : Ref Addr} {a : Addr} {pairs : List (CStr × Ref Addr)}
    (hu : v.fill = .nvl a pairs) : ∃ pairs', v = .nvl a pairs' ∧ pairs = Assoc.mapValues Ref.fill pairs' := by
  cases v with
  | nvl b pairs' =>
    rw [Ref.fill, fillPairs_eq] at hu
    cases hu
    exact ⟨pairs', rfl, rfl⟩
  | cons b h' t' =>
    rw [Ref.fill] at hu
    split at hu <;> cases hu
  | _ => cases hu

theorem reaches_null {A : Type} {x : Ref A} (h : Reaches .null x) : x = .null := by
  cases h
  rfl

/-- What is reached after the change was reached before it, or is an empty cons cell. -/
theorem reaches_fill {v x : Ref Addr} (h : Reaches v.fill x) :
    x = .null ∨ x = valEmptyCons ∨ ∃ y, Reaches v y ∧ y ≠ .null ∧ x = y.fill := by
  generalize hu : v.fill = u at h
  induction h generalizing v with
  | refl u =>
    by_cases hv : v = .null
    · subst hv
      exact Or.inr (Or.inl hu.symm)
    · exact Or.inr (Or.inr ⟨v, .refl v, hv, hu.symm⟩)
  | head hx ih =>
    rcases fill_eq_cons hu with ⟨rfl, -⟩ | ⟨h', t', rfl, rfl, -⟩
    · exact Or.inl (reaches_null hx)
    · exact (ih rfl).imp_right (Or.imp_right fun ⟨y, hy, hyx⟩ => ⟨y, .head hy, hyx⟩)
  | tail hx ih =>
    rcases fill_eq_cons hu with ⟨-, rfl⟩ | ⟨h', t', rfl, -, rfl⟩
    · exact Or.inl (reaches_null hx)
    · exact (ih rfl).imp_right (Or.imp_right fun ⟨y, hy, hyx⟩ => ⟨y, .tail hy, hyx⟩)
  | elem hv hx ih =>
    obtain ⟨vals', rfl, rfl⟩ := fill_eq_array hu
    obtain ⟨w, hw, rfl⟩ := List.mem_map.mp hv
    exact (ih rfl).imp_right (Or.imp_right fun ⟨y, hy, hyx⟩ => ⟨y, .elem hw hy, hyx⟩)
  | value hp hx ih =>
    obtain ⟨pairs', rfl, rfl⟩ := fill_eq_nvl hu
    obtain ⟨q, hq, rfl⟩ := List.mem_map.mp hp
    exact (ih rfl).imp_right (Or.imp_right fun ⟨y, hy, hyx⟩ => ⟨y, .value hq hy, hyx⟩)

theorem nullFree_fill (v : Ref Addr) : NullFree v.fill := by
  refine ⟨fill_ne_null v, fun a h t hx hn => ?_, fun a vals hx hmem => ?_, fun a pairs hx p hp => ?_⟩
  · rcases reaches_fill hx with hx | hx | ⟨y, -, -, hx⟩
    · cases hx
    · rw [hx] at hn
      cases hn
    · rcases fill_eq_cons hx.symm with ⟨rfl, rfl⟩ | ⟨h', t', -, rfl, rfl⟩
      · cases hn
      · exact ⟨fill_ne_null h', fill_ne_null t'⟩
  · rcases reaches_fill hx with hx | hx | ⟨y, -, -, hx⟩
    · cases hx
    · cases hx
    · obtain ⟨vals', -, rfl⟩ := fill_eq_array hx.symm
      obtain ⟨w, -, hw⟩ := List.mem_map.mp hmem
      exact fill_ne_null w hw
  · rcases reaches_fill hx with hx | hx | ⟨y, -, -, hx⟩
    · cases hx
    · cases hx
    · obtain ⟨pairs', -, rfl⟩ := fill_eq_nvl hx.symm
      obtain ⟨q, -, rfl⟩ := List.mem_map.mp hp
      exact fill_ne_null q.2

theorem sexprIsNull_fill (v : Ref Addr) : sexprIsNull v.fill = sexprIsNull v := by
  cases v with
  | cons a h t =>
    cases hn : sexprIsNull (.cons a h t) with
    | true => rw [fill_empty hn, hn]
    | false =>
      rw [fill_cons hn]
      show (h.fill.isNone && t.fill.isNone) = false
      rw [isNone_fill]
      rfl
  | _ => rfl

theorem whatIsIt_fill (v : Ref Addr) : whatIsIt v.fill = whatIsIt v := by
  cases hn : sexprIsNull v with
  | true => rw [whatIsIt, sexprIsNull_fill, hn, whatIsIt, hn, if_pos rfl, if_pos rfl]
  | false => rw [whatIsIt_eq ((sexprIsNull_fill v).trans hn), whatIsIt_eq hn, toVal_fill]

theorem items_fill : ∀ v : Ref Addr, v.fill.items = v.items.map Ref.fill
  | .cons a h t => by
    cases hn : sexprIsNull (.cons a h t) with
    | true =>
      rw [fill_empty hn, items_empty hn]
      rfl
    | false =>
      have hn' := (sexprIsNull_fill (.cons a h t)).trans hn
      rw [fill_cons hn] at hn' ⊢
      rw [items_cons hn', items_cons hn, List.map_cons, items_fill t]
  | .null => rfl
  | .vtNull _ => rfl
  | .int _ _ => rfl
  | .str _ _ => rfl
  | .sym _ _ => rfl
  | .bool _ _ => rfl
  | .char _ _ => rfl
  | .blob _ _ => rfl
  | .array _ _ => rfl
  | .nvl _ _ => rfl

/-- Compaction goes to the same places. -/
theorem visits_fill {v w : Ref Addr} (h : Visits v.fill w) : ∃ u, Visits v u ∧ w = u.fill := by
  generalize hx : v.fill = x at h
  induction h generalizing v with
  | refl => exact ⟨v, .refl v, hx.symm⟩
  | elem hv _ ih =>
    obtain ⟨vals', rfl, rfl⟩ := fill_eq_array hx
    obtain ⟨y, hy, rfl⟩ := List.mem_map.mp hv
    obtain ⟨u, hu, hw⟩ := ih rfl
    exact ⟨u, .elem hy hu, hw⟩
  | value hp _ ih =>
    obtain ⟨pairs', rfl, rfl⟩ := fill_eq_nvl hx
    obtain ⟨q, hq, rfl⟩ := List.mem_map.mp hp
    obtain ⟨u, hu, hw⟩ := ih rfl
    exact ⟨u, .value hq hu, hw⟩
  | item hv hm _ ih =>
    subst hx
    rw [items_fill] at hm
    obtain ⟨y, hy, rfl⟩ := List.mem_map.mp hm
    obtain ⟨u, hu, hw⟩ := ih rfl
    exact ⟨u, .item ((whatIsIt_fill v).symm.trans hv) hy hu, hw⟩
  | entry hv hm _ ih =>
    subst hx
    rw [items_fill] at hm
    obtain ⟨y, hy, rfl⟩ := List.mem_map.mp hm
    have hnvl := (whatIsIt_fill v).symm.trans hv
    have hpair : isPair y := (isPair_toVal y).trans ((IsAlist.of_whatIsIt hnvl).2 y hy)
    have hcdr : (sexprCdr y).fill = sexprCdr y.fill := by
      cases y with
      | cons a hd tl => rw [fill_cons (not_null_of_isPair hpair)]; rfl
      | _ => cases hpair
    obtain ⟨u, hu, hw⟩ := ih hcdr
    exact ⟨u, .entry hnvl hy hu, hw⟩

theorem not_stops_fill {v : Ref Addr} (h : ¬Stops v) : ¬Stops v.fill := by
  rintro ⟨w, hw, hstuck⟩
  obtain ⟨u, hu, rfl⟩ := visits_fill hw
  rcases hstuck with hnull | ⟨hwhat, hlong⟩
  · exact fill_ne_null u hnull
  · rw [items_fill, List.length_map] at hlong
    exact h ⟨u, hu, Or.inr ⟨(whatIsIt_fill u).symm.trans hwhat, hlong⟩⟩

theorem NvOrdered.fill {v : Ref Addr} (h : NvOrdered v) : NvOrdered v.fill := by
  intro a pairs hx
  rcases reaches_fill hx with hx | hx | ⟨y, hy, -, hx⟩
  · cases hx
  · cases hx
  · obtain ⟨pairs', rfl, rfl⟩ := fill_eq_nvl hx.symm
    exact List.pairwise_map.mpr (h a pairs' hy)

theorem Below.fill {n : Nat} {v : Ref Addr} (h : Below n v) : Below n v.fill := by
  intro x hx k hk
  rcases reaches_fill hx with rfl | rfl | ⟨y, hy, hne, rfl⟩
  · cases hk
  · cases hk
  · refine h y hy k (Eq.trans ?_ hk)
    cases y with
    | null => exact absurd rfl hne
    | cons b h' t' =>
      rw [Ref.fill]
      split <;> rfl
    | _ => rfl

/-! ## Small values -/

section Parts

variable {n : Nat} {a : Addr} {h t : Ref Addr}

theorem Below.cons (ha : ∀ k, a = .obj k → k < n) (hh : Below n h) (ht : Below n t) :
    Below n (.cons a h t) := by
  intro x hx k hk
  cases hx with
  | refl => exact ha k (Option.some.inj hk)
  | head hx => exact hh x hx k hk
  | tail hx => exact ht x hx k hk

theorem NvOrdered.cons (hh : NvOrdered h) (ht : NvOrdered t) : NvOrdered (.cons a h t) := by
  intro b pairs hx
  cases hx with
  | head hx => exact hh b pairs hx
  | tail hx => exact ht b pairs hx

theorem ShortLists.cons (hlen : (Ref.cons a h t).items.length < 2 ^ 31) (hh : ShortLists h)
    (ht : ShortLists t) : ShortLists (.cons a h t) := by
  intro x hx
  cases hx with
  | refl => exact hlen
  | head hx => exact hh x hx
  | tail hx => exact ht x hx

theorem shortLists_null : ShortLists (.null : Ref Addr) := by
  intro x hx
  cases hx
  exact Nat.two_pow_pos 31

theorem shortLists_sym {s : CStr} : ShortLists (.sym a s) := by
  intro x hx
  cases hx
  exact Nat.two_pow_pos 31

theorem shortLists_int {j : UInt64} : ShortLists (.int a j) := by
  intro x hx
  cases hx
  exact Nat.two_pow_pos 31

theorem shortLists_empty : ShortLists valEmptyCons :=
  .cons (Nat.two_pow_pos 31) shortLists_null shortLists_null

theorem below_null : Below n .null := by
  intro x hx k hk
  cases hx
  cases hk

theorem nvOrdered_null : NvOrdered (.null : Ref Addr) := by
  intro b pairs hx
  cases hx

theorem below_sym {s : CStr} {i : Nat} (hi : i < n) : Below n (.sym (.obj i) s) := by
  intro x hx k hk
  cases hx
  cases hk
  exact hi

theorem nvOrdered_sym {s : CStr} : NvOrdered (.sym a s) := by
  intro b pairs hx
  cases hx

theorem below_valInts {i : Fin 10} {j : UInt64} : Below n (.int (.valInts i) j) := by
  intro x hx k hk
  cases hx
  cases hk

theorem nvOrdered_int {j : UInt64} : NvOrdered (.int a j) := by
  intro b pairs hx
  cases hx

theorem symA_noNul : 0 ∉ [(97 : UInt8)] := by decide

/-- The pair `(a . i)` with the objects that start at a number. -/
def numPair (i : Fin 10) (k : Nat) : Ref Addr :=
  .cons (.obj (k + 1)) (.sym (.obj k) ⟨[97], symA_noNul⟩) (.int (.valInts i) (.ofNat i))

theorem below_numPair (i : Fin 10) {k n : Nat} (h : k + 1 < n) : Below n (numPair i k) := by
  refine .cons ?_ (below_sym (by omega)) below_valInts
  rintro j ⟨⟩
  exact h

theorem nvOrdered_numPair (i : Fin 10) (k : Nat) : NvOrdered (numPair i k) :=
  .cons nvOrdered_sym nvOrdered_int

theorem shortLists_numPair (i : Fin 10) (k : Nat) : ShortLists (numPair i k) := by
  have hlen : (numPair i k).items.length = 1 := rfl
  exact .cons (hlen.trans_lt (by decide)) shortLists_sym shortLists_int

/-- The list `((a . 1) (a . 2))`. -/
def alistOfTwo : Ref Addr :=
  .cons (.obj 5) (numPair 1 0) (.cons (.obj 4) (numPair 2 2) valEmptyCons)

theorem nullFree_alistOfTwo : NullFree alistOfTwo :=
  nullFree_fill (.cons (.obj 5) (numPair 1 0) (.cons (.obj 4) (numPair 2 2) .null))

theorem shortLists_alistOfTwo : ShortLists alistOfTwo :=
  .cons (by decide) (shortLists_numPair 1 0) (.cons (by decide) (shortLists_numPair 2 2) shortLists_empty)

theorem nvOrdered_alistOfTwo : NvOrdered alistOfTwo :=
  .cons (nvOrdered_numPair 1 0) (.cons (nvOrdered_numPair 2 2) (.cons nvOrdered_null nvOrdered_null))

theorem below_alistOfTwo (h : 6 ≤ n) : Below n alistOfTwo := by
  have hempty : Below n valEmptyCons := .cons (by simp) below_null below_null
  refine .cons ?_ (below_numPair 1 (by omega)) (.cons ?_ (below_numPair 2 (by omega)) hempty)
  · rintro k ⟨⟩
    omega
  · rintro k ⟨⟩
    omega

end Parts

/-! ## Compaction of all values -/

/-- The result is compact, so that it is returned as it is, and it has the shape. -/
theorem sexpr_compact_shape (v : Ref Addr) (n : Nat) (hnull : NullFree v) (hshort : ShortLists v)
    (hord : NvOrdered v) (hb : Below n v) :
    ∃ r n', sexprCompact v n = pure (r, n') ∧ Shape v.toVal r.toVal ∧
      ∀ m, ∃ m', sexprCompact r m = pure (r, m') := by
  obtain ⟨r, n', hr, -, hpost⟩ := (sexprCompact_spec v n hb hord).returns (hnull.not_stops hshort)
  refine ⟨r, n', hr, ?_, hpost.compacted.sexprCompact_self⟩
  rw [hpost.value]
  exact shape_compact v.toVal

/-- The list `(((a . 1) (a . 2)) (a))`. -/
def nestedList : Ref Addr := .cons (.obj 9) alistOfTwo
  (.cons (.obj 8) (.cons (.obj 7) (.sym (.obj 6) ⟨[97], symA_noNul⟩) valEmptyCons) valEmptyCons)

theorem sexpr_compact_shape_nested : ∃ r n', sexprCompact nestedList 10 = pure (r, n') ∧
    Shape nestedList.toVal r.toVal ∧ ∀ m, ∃ m', sexprCompact r m = pure (r, m') := by
  have hnull : NullFree nestedList := nullFree_fill (.cons (.obj 9) alistOfTwo
    (.cons (.obj 8) (.cons (.obj 7) (.sym (.obj 6) ⟨[97], symA_noNul⟩) .null) .null))
  have hshort : ShortLists nestedList := .cons (by decide) shortLists_alistOfTwo
    (.cons (by decide) (.cons (by decide) shortLists_sym shortLists_empty) shortLists_empty)
  have hord : NvOrdered nestedList := .cons nvOrdered_alistOfTwo
    (.cons (.cons nvOrdered_sym (.cons nvOrdered_null nvOrdered_null)) (.cons nvOrdered_null nvOrdered_null))
  have hempty : Below 10 valEmptyCons := .cons (by simp) below_null below_null
  have hb : Below 10 nestedList := .cons (by simp) (below_alistOfTwo (by decide))
    (.cons (by simp) (.cons (by simp) (below_sym (by decide)) hempty) hempty)
  exact sexpr_compact_shape nestedList 10 hnull hshort hord hb

/-- The list `(a)` as the parser builds it. -/
def listOfSym : Ref Addr := .cons (.obj 1) (.sym (.obj 0) ⟨[97], symA_noNul⟩) valEmptyCons

/-- The list `((a) . b)`. -/
def listInImproper : Ref Addr := .cons (.obj 3) listOfSym (.sym (.obj 2) ⟨[98], by decide⟩)

/-- A proper list that is not empty stays a list of cons cells. -/
theorem sexpr_compact_keeps_inner_list : NullFree listInImproper ∧
    ShortLists listInImproper ∧ NvOrdered listInImproper ∧ Below 4 listInImproper ∧
    ∃ r n', sexprCompact listInImproper 4 = pure (r, n') ∧
      ∃ x, Reaches r x ∧ x.type = some .cons ∧ x.toVal.isProper ∧ x.items ≠ [] := by
  have hempty : Below 4 valEmptyCons := .cons (by simp) below_null below_null
  have hnull : NullFree listInImproper := nullFree_fill (.cons (.obj 3)
    (.cons (.obj 1) (.sym (.obj 0) ⟨[97], by decide⟩) .null) (.sym (.obj 2) ⟨[98], by decide⟩))
  have hord : NvOrdered listInImproper :=
    .cons (.cons nvOrdered_sym (.cons nvOrdered_null nvOrdered_null)) nvOrdered_sym
  have hb : Below 4 listInImproper :=
    .cons (by simp) (.cons (by simp) (below_sym (by decide)) hempty) (below_sym (by decide))
  have hshort : ShortLists listInImproper :=
    .cons (by decide) (.cons (by decide) shortLists_sym shortLists_empty) shortLists_sym
  have hrun := Compacted.sexprCompact_self (.cons (Or.inl rfl) : Compacted listInImproper) 4
  obtain ⟨n', hrun⟩ := hrun
  exact ⟨hnull, hshort, hord, hb, listInImproper, n', hrun, listOfSym, .head (.refl _), rfl, rfl, by decide⟩

/-- NULL is the empty list exactly where compaction does not come to it (nor to a list that is too long). -/
theorem sexpr_compact_null_iff (v : Ref Addr) (n : Nat) (hord : NvOrdered v) (hb : Below n v) :
    (∃ r n' r' m', sexprCompact v n = pure (r, n') ∧ sexprCompact v.fill n = pure (r', m') ∧
      r.toVal = r'.toVal) ↔ ¬Stops v := by
  constructor
  · rintro ⟨r, n', -, -, hr, -, -⟩ hstops
    obtain ⟨e, he⟩ := (sexprCompact_spec v n hb hord).faults hstops
    cases he.symm.trans hr
  · intro hstops
    obtain ⟨r, n', hr, -, hpost⟩ := (sexprCompact_spec v n hb hord).returns hstops
    obtain ⟨r', m', hr', -, hpost'⟩ :=
      (sexprCompact_spec v.fill n hb.fill hord.fill).returns (not_stops_fill hstops)
    refine ⟨r, n', r', m', hr, hr', ?_⟩
    rw [hpost.value, hpost'.value, toVal_fill]

theorem sexpr_compact_null_iff_sym : ∃ r n' r' m',
    sexprCompact (.cons (.obj 1) (.sym (.obj 0) ⟨[97], by decide⟩) .null) 2 = pure (r, n') ∧
    sexprCompact listOfSym 2 = pure (r', m') ∧ r.toVal = r'.toVal := by
  refine (sexpr_compact_null_iff (.cons (.obj 1) (.sym (.obj 0) ⟨[97], by decide⟩) .null) 2
    (.cons nvOrdered_sym nvOrdered_null) (.cons (by simp) (below_sym (by decide)) below_null)).mpr ?_
  rw [stops_list rfl]
  rintro (hlong | ⟨w, hw, hstops⟩)
  · exact absurd hlong (by decide)
  · obtain rfl := List.mem_singleton.mp hw
    exact not_stops (by simp) (by simp [Ref.type])
      (by simp [whatIsIt, whatLoop, sexprIsNull, Ref.isNone, Ref.isEmptyCons]) hstops

/-- The list `((a))` whose cells end in NULL: the value of the pair is NULL. -/
theorem sexpr_compact_null_value : (do
    let pair ← sexprArrayToList [.sym (.obj 0) ⟨[97], by decide⟩]
    let v ← sexprArrayToList [pair]
    sexprCompact v : EvalM (Ref Addr)) 1 = throw .null := by
  show sexprCompact (.cons (.obj 2) (.cons (.obj 1) (.sym (.obj 0) ⟨[97], by decide⟩) .null) .null) 3 = _
  rw [sexprCompact_alist rfl, items_cons rfl, compactEntries.eq_def]
  show ((sexprCompact .null 5 >>= fun q => _) >>= fun p => _) = throw .null
  rw [sexprCompact.eq_def]
  rfl

end Sexpr

end Libjeffpc
