import Libjeffpc.Sexpr.Proofs.ShapeProofs

/-!
# Lookups before and after compaction

`sexpr_assoc` stops at the first pair with a name; `nvl_set_pair` replaces the value that an earlier pair
has set.
-/

namespace Libjeffpc.Sexpr

open Lib

/-- The nvlist has the value of the last pair with the name. -/
theorem lookup_compact {v r : Ref Addr} (h : IsAlist v) (hne : v.items ≠ [])
    (hr : r.toVal = v.toVal.compact) (name : CStr) :
    ∃ a pairs, r = .nvl a pairs ∧ (pairs.lookup name).map Ref.toVal =
      (v.pairsNamed name).getLast?.map fun w => w.toVal.pairValue.compact := by
  have hwhat := whatIsIt_alist h hne
  have hval : v.toVal.compact =
      .nvl (nvSetAll [] (v.items.map fun w => (w.toVal.pairName, w.toVal.pairValue.compact))) := by
    obtain ⟨hp, hall⟩ := whatIsIt_nvl hwhat
    have hmap := congrArg (List.map fun w : Val => (w.pairName, w.pairValue.compact)) (items_toVal v)
    cases hv : v.toVal with
    | cons head tail =>
      rw [hv] at hp hall hmap
      have hp : tail.isProper := hp
      rw [Val.compact_alist hp hall, ← hmap, List.map_map]
      rfl
    | nil =>
      have hitems := items_toVal v
      rw [hv] at hitems
      exact absurd (List.map_eq_nil_iff.mp hitems) hne
    | _ =>
      rw [hv] at hp
      cases hp
  rw [hval] at hr
  obtain ⟨a, pairs, rfl⟩ : ∃ a pairs, r = .nvl a pairs := by
    cases r with
    | nvl a pairs => exact ⟨a, pairs, rfl⟩
    | cons a hd tl =>
      rw [Ref.toVal] at hr
      split at hr <;> cases hr
    | _ => cases hr
  have hpairs : Assoc.mapValues Ref.toVal pairs = nvSetAll []
      (v.items.map fun w => (w.toVal.pairName, w.toVal.pairValue.compact)) := by
    rw [← toPairs_eq]
    exact Val.nvl.inj hr
  refine ⟨a, pairs, rfl, ?_⟩
  rw [← Assoc.lookup_mapValues, hpairs, lookup_nvSetAll, ← List.map_reverse, Assoc.lookup_map, List.filter_reverse,
    List.head?_reverse]
  exact Option.or_none

/-- Nothing is found on either side, or the first pair with the name on one side and the last one on the
other. -/
theorem sexpr_compact_lookup (v : Ref Addr) (n : Nat) (name : CStr) (halist : IsAlist v)
    (hne : v.items ≠ []) (hstops : ¬Stops v) (hord : NvOrdered v) (hb : Below n v) :
    ∃ a pairs n', sexprCompact v n = pure (.nvl a pairs, n') ∧
      (sexprAlistLookupVal v name = .null ↔ nvlLookup pairs name = .error .ENOENT) ∧
      (sexprAlistLookupVal v name ≠ .null → ∃ first last x r m,
        (v.pairsNamed name).head? = some first ∧ (v.pairsNamed name).getLast? = some last ∧
        sexprAlistLookupVal v name = sexprCdr first ∧ nvlLookup pairs name = .ok x ∧
        sexprCompact (sexprCdr last) n = pure (r, m) ∧ x.toVal = r.toVal) := by
  have hwhat := whatIsIt_alist halist hne
  obtain ⟨r, n', hr, -, hpost⟩ := (sexprCompact_spec v n hb hord).returns hstops
  obtain ⟨a, pairs, rfl, hlookup⟩ := lookup_compact halist hne hpost.value name
  have hassoc : sexprAlistLookupVal v name = sexprCdr ((v.pairsNamed name).head?.getD .null) :=
    congrArg sexprCdr (sexprAssoc_eq name halist.2)
  -- no value of a pair is NULL, so NULL is returned only where there is no pair
  have hvalue : ∀ w ∈ v.pairsNamed name, sexprCdr w ≠ .null := by
    intro w hw hnull
    exact hstops ((stops_alist hwhat).mpr ⟨w, (List.mem_filter.mp hw).1, .null, hnull ▸ .refl _, Or.inl rfl⟩)
  refine ⟨a, pairs, n', hr, ?_⟩
  rcases hnamed : v.pairsNamed name with _ | ⟨first, rest⟩
  · rw [hnamed] at hassoc hlookup
    have hnone : pairs.lookup name = none := Option.map_eq_none_iff.mp hlookup
    have herr : nvlLookup pairs name = .error .ENOENT := by rw [nvlLookup, hnone]
    exact ⟨⟨fun _ => herr, fun _ => hassoc⟩, fun hne => absurd hassoc hne⟩
  · have hlast := List.getLast?_eq_some_getLast (List.cons_ne_nil first rest)
    rw [hnamed] at hassoc hlookup hvalue
    have hmem := List.getLast_mem (List.cons_ne_nil first rest)
    generalize (first :: rest).getLast (List.cons_ne_nil first rest) = last at hlast hmem
    rw [hlast, Option.map_some, Option.map_eq_some_iff] at hlookup
    obtain ⟨x, hx, hxval⟩ := hlookup
    have hok : nvlLookup pairs name = .ok x := by rw [nvlLookup, hx]
    have hitem : last ∈ v.items := (List.mem_filter.mp (hnamed ▸ hmem : last ∈ v.pairsNamed name)).1
    have hreach : ∀ y, Reaches (sexprCdr last) y → y ≠ .null → Reaches v y :=
      fun y hy hne => reaches_item hitem (reaches_cdr hy hne)
    obtain ⟨r', m, hr', -, hpost'⟩ := (sexprCompact_spec (sexprCdr last) n (hb.part hreach)
      (hord.part hreach)).returns fun hh => hstops ((stops_alist hwhat).mpr ⟨last, hitem, hh⟩)
    have hfirst : sexprAlistLookupVal v name = sexprCdr first := hassoc
    have hnn : sexprCdr first ≠ .null := hvalue first List.mem_cons_self
    refine ⟨⟨fun h => absurd (hfirst.symm.trans h) hnn, fun h => ?_⟩, fun _ => ?_⟩
    · rw [hok] at h
      cases h
    · refine ⟨first, last, x, r', m, rfl, hlast, hfirst, hok, hr', ?_⟩
      rw [hxval, hpost'.value, pairValue_toVal ((isPair_toVal last).trans (halist.2 last hitem))]

theorem compact_valInts {i : Fin 10} {j : UInt64} {m m' : Nat} {r : Ref Addr}
    (h : sexprCompact (.int (.valInts i) j) m = pure (r, m')) : r.toVal = .int j := by
  obtain ⟨n', hn'⟩ := Compacted.sexprCompact_self (r := .int (.valInts i) j)
    (.leaf (by simp) (by simp [Ref.type])) m
  cases hn'.symm.trans h
  rfl

theorem alistOfTwo_isAlist : IsAlist alistOfTwo :=
  ⟨rfl, List.forall_mem_cons.mpr ⟨rfl, List.forall_mem_singleton.mpr rfl⟩⟩

/-- The first value before compaction, and the last one after it. -/
theorem sexpr_compact_lookup_two : ∃ a pairs n' x,
    sexprCompact alistOfTwo 6 = pure (.nvl a pairs, n') ∧
    sexprAlistLookupVal alistOfTwo ⟨[97], by decide⟩ = .int (.valInts 1) 1 ∧
    nvlLookup pairs ⟨[97], by decide⟩ = .ok x ∧ x.toVal = .int 2 := by
  obtain ⟨a, pairs, n', hr, -, hfound⟩ := sexpr_compact_lookup alistOfTwo 6 ⟨[97], by decide⟩ alistOfTwo_isAlist
    (List.cons_ne_nil _ _) (nullFree_alistOfTwo.not_stops shortLists_alistOfTwo) nvOrdered_alistOfTwo
    (below_alistOfTwo le_rfl)
  obtain ⟨first, last, x, r, m, hfirst, hlast, hcdr, hok, hrun, hx⟩ := hfound (by
    show Ref.int (Addr.valInts 1) 1 ≠ .null
    simp)
  obtain rfl : numPair 1 0 = first := Option.some.inj hfirst
  obtain rfl : numPair 2 2 = last := Option.some.inj hlast
  exact ⟨a, pairs, n', x, hr, hcdr, hok, hx.trans (compact_valInts hrun)⟩

theorem sexpr_compact_lookup_repeated : IsAlist alistOfTwo ∧ NullFree alistOfTwo ∧
    sexprAlistLookupVal alistOfTwo ⟨[97], by decide⟩ = .int (.valInts 1) 1 ∧
    ∃ a pairs n' x, sexprCompact alistOfTwo 6 = pure (.nvl a pairs, n') ∧
      nvlLookup pairs ⟨[97], by decide⟩ = .ok x ∧
      ∀ m r m', sexprCompact (.int (.valInts 1) 1) m = pure (r, m') → x.toVal ≠ r.toVal := by
  obtain ⟨r, n', hr, -, hpost⟩ := (sexprCompact_spec alistOfTwo 6 (below_alistOfTwo le_rfl)
    nvOrdered_alistOfTwo).returns (nullFree_alistOfTwo.not_stops shortLists_alistOfTwo)
  obtain ⟨a, pairs, rfl, hlookup⟩ :=
    lookup_compact alistOfTwo_isAlist (List.cons_ne_nil _ _) hpost.value ⟨[97], by decide⟩
  have hlookup : (pairs.lookup ⟨[97], by decide⟩).map Ref.toVal = some (.int 2) := hlookup
  obtain ⟨x, hx, hxval⟩ := Option.map_eq_some_iff.mp hlookup
  refine ⟨alistOfTwo_isAlist, nullFree_alistOfTwo, rfl, a, pairs, n', x, hr, by rw [nvlLookup, hx], fun m r m' hrun => ?_⟩
  rw [hxval, compact_valInts hrun]
  simp

end Libjeffpc.Sexpr
