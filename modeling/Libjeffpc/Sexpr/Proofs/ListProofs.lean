import Libjeffpc.Sexpr.Proofs.StructureProofs
import Libjeffpc.Sexpr.Shape

/-!
# What the loops over a list agree on

`what_is_it`, `sexpr_length`, `sexpr_list_to_array` and `sexpr_for_each` each walk a list in their own
way. For a proper list they all see the items of the value that the list stands for.
-/

namespace Libjeffpc

open Lib

/-! ## The compact form of a list -/

namespace Val

theorem compactItems_eq (v : Val) : compactItems v = v.items.map compact := by
  fun_induction items v with
  | case1 head tail ih => rw [compactItems, List.map_cons, ih]
  | case2 v hv =>
    cases v with
    | cons head tail => exact absurd rfl (hv head tail)
    | _ => rfl

theorem compactEntries_eq (v : Val) :
    compactEntries v = v.items.map fun w => (w.pairName, w.compactValue) := by
  fun_induction items v with
  | case1 head tail ih => rw [compactEntries, List.map_cons, ih]
  | case2 v hv =>
    cases v with
    | cons head tail => exact absurd rfl (hv head tail)
    | _ => rfl

theorem compactAll_eq (vals : List Val) : compactAll vals = vals.map compact := by
  induction vals with
  | nil => rfl
  | cons v vals ih => rw [compactAll, List.map_cons, ih]

theorem compactPairs_eq (pairs : List (CStr × Val)) :
    compactPairs pairs = Assoc.mapValues compact pairs := by
  induction pairs with
  | nil => rfl
  | cons p pairs ih =>
    obtain ⟨name, v⟩ := p
    rw [compactPairs, ih]
    rfl

theorem compactValue_eq {v : Val} (h : v.isPair) : v.compactValue = v.pairValue.compact := by
  cases v with
  | cons head tail => rfl
  | _ => cases h

theorem compact_improper {head tail : Val} (h : tail.isProper = false) :
    compact (.cons head tail) = .cons head tail := by
  rw [compact, if_neg (by simp [h])]

theorem compact_list {head tail : Val} (hp : tail.isProper)
    (hno : (items (.cons head tail)).all isPair = false) :
    compact (.cons head tail) = .array ((items (.cons head tail)).map compact) := by
  have hno' : ¬(isPair head && (items tail).all isPair) = true := by
    intro hc
    cases hno.symm.trans hc
  rw [compact, if_pos hp, if_neg hno', compactItems_eq]
  rfl

theorem compact_alist {head tail : Val} (hp : tail.isProper)
    (hall : (items (.cons head tail)).all isPair) :
    compact (.cons head tail) =
      .nvl (nvSetAll [] ((items (.cons head tail)).map fun w => (w.pairName, w.pairValue.compact))) := by
  have hall' : (isPair head && (items tail).all isPair) = true := hall
  have hentries : (pairName head, compactValue head) :: compactEntries tail =
      (items (.cons head tail)).map fun w => (w.pairName, w.pairValue.compact) := by
    rw [← compactEntries, compactEntries_eq]
    refine List.map_congr_left fun w hw => ?_
    rw [compactValue_eq (List.all_eq_true.mp hall w hw)]
  rw [compact, if_pos hp, if_pos hall', hentries]

end Val

namespace Sexpr

variable {A : Type}

/-! ## Walks -/

theorem toPairs_eq (pairs : List (CStr × Ref A)) : toPairs pairs = Assoc.mapValues Ref.toVal pairs := by
  induction pairs with
  | nil => rfl
  | cons p pairs ih =>
    obtain ⟨name, v⟩ := p
    rw [toPairs, ih]
    rfl

theorem isPair_toVal (v : Ref A) : isPair v = v.toVal.isPair := by
  cases v with
  | cons a h t =>
    cases hn : sexprIsNull (.cons a h t) with
    | true =>
      rw [toVal_eq_nil.mpr hn, isPair, hn]
      rfl
    | false =>
      rw [toVal_cons hn, isPair, hn]
      cases h with
      | cons b h' t' =>
        cases hn' : sexprIsNull (.cons b h' t') with
        | true => rw [toVal_eq_nil.mpr hn']; rfl
        | false => rw [toVal_cons hn']; rfl
      | _ => rfl
  | _ => rfl

theorem not_null_of_isPair {v : Ref A} (hp : isPair v) : sexprIsNull v = false := by
  cases v with
  | cons a h t =>
    cases hn : sexprIsNull (.cons a h t) with
    | false => rfl
    | true => simp [isPair, hn] at hp
  | _ => cases hp

theorem pairValue_toVal {v : Ref A} (hp : isPair v) : v.toVal.pairValue = (sexprCdr v).toVal := by
  cases v with
  | cons a h t =>
    rw [toVal_cons (not_null_of_isPair hp)]
    rfl
  | _ => cases hp

theorem items_toVal : ∀ v : Ref A, v.items.map Ref.toVal = v.toVal.items
  | .cons a h t => by
    cases hn : sexprIsNull (.cons a h t) with
    | true =>
      have hn' : (h.isNone && t.isNone) = true := hn
      rw [toVal_eq_nil.mpr hn, Ref.items, if_pos hn']
      rfl
    | false =>
      have hn' : ¬(h.isNone && t.isNone) = true := by
        intro hc
        cases hn.symm.trans hc
      rw [toVal_cons hn, Ref.items, if_neg hn', List.map_cons, items_toVal t]
      rfl
  | .null => rfl
  | .vtNull _ => rfl
  | .int _ _ => rfl
  | .str _ _ => rfl
  | .sym _ _ => rfl
  | .bool _ _ => rfl
  | .char _ _ => rfl
  | .blob _ _ => rfl
  | .array _ _ => rfl
  | .nvl _ _ => rfl

theorem items_cons {a : A} {h t : Ref A} (hn : sexprIsNull (.cons a h t) = false) :
    (Ref.cons a h t).items = h :: t.items := by
  have hn' : ¬(h.isNone && t.isNone) = true := by
    intro hc
    cases hn.symm.trans hc
  rw [Ref.items, if_neg hn']

theorem items_empty {a : A} {h t : Ref A} (hn : sexprIsNull (.cons a h t) = true) :
    (Ref.cons a h t).items = [] := by
  have hn' : (h.isNone && t.isNone) = true := hn
  rw [Ref.items, if_pos hn']

/-- What a proper list is, or VT_CONS. -/
theorem whatLoop_eq : ∀ (v : Ref A) (nvl : Bool), whatLoop v nvl =
    if v.toVal.isProper then if nvl && v.toVal.items.all Val.isPair then .nvl else .array else .cons
  | .cons a h t, nvl => by
    cases hn : sexprIsNull (.cons a h t) with
    | true =>
      rw [whatLoop, if_pos hn, toVal_eq_nil.mpr hn]
      simp [Val.isProper, Val.items]
    | false =>
      rw [whatLoop, if_neg (by simp [hn]), toVal_cons hn, whatLoop_eq t, isPair_toVal h]
      simp only [Val.isProper, Val.items, List.all_cons, Bool.and_assoc]
      rfl
  | .null, nvl => by simp [whatLoop, Ref.toVal, Val.isProper, Val.items]
  | .vtNull _, _ => rfl
  | .int _ _, _ => rfl
  | .str _ _, _ => rfl
  | .sym _ _, _ => rfl
  | .bool _ _, _ => rfl
  | .char _ _, _ => rfl
  | .blob _ _, _ => rfl
  | .array _ _, _ => rfl
  | .nvl _ _, _ => rfl

/-- `what_is_it` of a cons cell that is not empty. -/
theorem whatIsIt_eq {v : Ref A} (hn : sexprIsNull v = false) : whatIsIt v =
    if v.toVal.isProper then if v.toVal.items.all Val.isPair then .nvl else .array else .cons := by
  rw [whatIsIt, if_neg (by simp [hn]), whatLoop_eq]
  simp

theorem not_null_of_whatIsIt {v : Ref A} (h : whatIsIt v ≠ .null) : sexprIsNull v = false := by
  cases hn : sexprIsNull v with
  | false => rfl
  | true => exact absurd (if_pos hn) h

theorem whatIsIt_array {v : Ref A} (h : whatIsIt v = .array) :
    v.toVal.isProper ∧ v.toVal.items.all Val.isPair = false := by
  have hn := not_null_of_whatIsIt (v := v) (by simp [h])
  rw [whatIsIt_eq hn] at h
  split at h
  · next hp =>
    split at h
    · cases h
    · next hno => exact ⟨hp, Bool.eq_false_iff.mpr hno⟩
  · cases h

theorem whatIsIt_nvl {v : Ref A} (h : whatIsIt v = .nvl) :
    v.toVal.isProper ∧ v.toVal.items.all Val.isPair := by
  have hn := not_null_of_whatIsIt (v := v) (by simp [h])
  rw [whatIsIt_eq hn] at h
  split at h
  · next hp =>
    split at h
    · next hall => exact ⟨hp, hall⟩
    · cases h
  · cases h

theorem whatIsIt_cons {v : Ref A} (h : whatIsIt v = .cons) : v.toVal.isProper = false := by
  have hn := not_null_of_whatIsIt (v := v) (by simp [h])
  rw [whatIsIt_eq hn] at h
  split at h
  · split at h <;> cases h
  · next hp => exact Bool.eq_false_iff.mpr hp

/-- There are no other kinds of lists. -/
theorem whatIsIt_cases (v : Ref A) :
    whatIsIt v = .null ∨ whatIsIt v = .cons ∨ whatIsIt v = .array ∨ whatIsIt v = .nvl := by
  cases hn : sexprIsNull v with
  | true => exact Or.inl (if_pos hn)
  | false =>
    rw [whatIsIt_eq hn]
    split
    · split
      · exact Or.inr (Or.inr (Or.inr rfl))
      · exact Or.inr (Or.inr (Or.inl rfl))
    · exact Or.inr (Or.inl rfl)

theorem sexprLength_proper : ∀ {v : Ref A}, v.toVal.isProper → sexprLength v = v.items.length
  | .cons a h t, hp => by
    cases hn : sexprIsNull (.cons a h t) with
    | true =>
      rw [sexprLength, if_pos hn, items_empty hn]
      rfl
    | false =>
      rw [toVal_cons hn, Val.isProper] at hp
      rw [sexprLength, if_neg (by simp [hn]), sexprLength_proper hp, items_cons hn, if_neg (by omega),
        List.length_cons]
      omega
  | .null, _ => rfl

theorem sexprListToArray_proper : ∀ {v : Ref A}, v.toVal.isProper →
    sexprListToArray v v.items.length = .ok v.items
  | .cons a h t, hp => by
    cases hn : sexprIsNull (.cons a h t) with
    | true =>
      rw [items_empty hn, sexprListToArray.eq_def]
      exact if_pos hn
    | false =>
      rw [toVal_cons hn, Val.isProper] at hp
      rw [items_cons hn, List.length_cons, sexprListToArray, if_neg (by simp [hn]),
        sexprListToArray_proper hp]
      rfl
  | .null, _ => rfl

/-- The loop goes through all items if none is NULL. -/
theorem sexprForEach_eq : ∀ {v : Ref A}, (∀ w ∈ v.items, w ≠ .null) → sexprForEach v = v.items
  | .cons a h t, hne => by
    cases hn : sexprIsNull (.cons a h t) with
    | true =>
      obtain ⟨rfl, rfl⟩ := emptyCons_iff.mp hn
      rfl
    | false =>
      rw [items_cons hn] at hne ⊢
      have hh : h.isNone = false := by
        have hne := hne h List.mem_cons_self
        cases h with
        | null => exact absurd rfl hne
        | _ => rfl
      rw [sexprForEach, hh, sexprForEach_eq fun w hw => hne w (List.mem_cons_of_mem _ hw)]
      rfl
  | .null, _ => rfl
  | .vtNull _, _ => rfl
  | .int _ _, _ => rfl
  | .str _ _, _ => rfl
  | .sym _ _, _ => rfl
  | .bool _ _, _ => rfl
  | .char _ _, _ => rfl
  | .blob _ _, _ => rfl
  | .array _ _, _ => rfl
  | .nvl _ _, _ => rfl

/-! ## Alists -/

theorem whatIsIt_alist {v : Ref A} (h : IsAlist v) (hne : v.items ≠ []) : whatIsIt v = .nvl := by
  have hn : sexprIsNull v = false := by
    cases hn : sexprIsNull v with
    | false => rfl
    | true =>
      cases v with
      | cons a hd tl => exact absurd (items_empty hn) hne
      | null => exact absurd rfl hne
      | _ => cases hn
  have hall : v.toVal.items.all Val.isPair := by
    rw [← items_toVal, List.all_map, List.all_eq_true]
    exact h.2
  rw [whatIsIt_eq hn, if_pos h.1, if_pos hall]

theorem IsAlist.of_whatIsIt {v : Ref A} (h : whatIsIt v = .nvl) : IsAlist v := by
  obtain ⟨hp, hall⟩ := whatIsIt_nvl h
  rw [← items_toVal, List.all_map, List.all_eq_true] at hall
  exact ⟨hp, hall⟩

theorem sexprAssoc_cons {a : A} {h t : Ref A} (name : CStr) (hh : h.toVal.isPair) :
    sexprAssoc name (.cons a h t) = if h.toVal.pairName = name then h else sexprAssoc name t := by
  rw [← isPair_toVal] at hh
  cases h with
  | cons b hd tl =>
    cases hd with
    | str c s =>
      have hname : (Ref.cons b (.str c s) tl).toVal.pairName = s := rfl
      simp only [sexprAssoc, hname, strcmp_eq_zero]
    | sym c s =>
      have hname : (Ref.cons b (.sym c s) tl).toVal.pairName = s := rfl
      simp only [sexprAssoc, hname, strcmp_eq_zero]
    | _ => simp [isPair, Ref.type] at hh
  | _ => cases hh

/-- `sexpr_assoc` returns the first pair with the name. -/
theorem sexprAssoc_eq (name : CStr) : ∀ {v : Ref A}, (∀ w ∈ v.items, w.toVal.isPair) →
    sexprAssoc name v = (v.pairsNamed name).head?.getD .null
  | .cons a h t, hall => by
    cases hn : sexprIsNull (.cons a h t) with
    | true =>
      obtain ⟨rfl, rfl⟩ := emptyCons_iff.mp hn
      rfl
    | false =>
      rw [items_cons hn] at hall
      obtain ⟨hh, ht⟩ := List.forall_mem_cons.mp hall
      have ih := sexprAssoc_eq name ht
      rw [sexprAssoc_cons name hh, Ref.pairsNamed, items_cons hn, List.filter_cons, ih]
      by_cases hname : h.toVal.pairName = name
      · rw [if_pos hname, if_pos (decide_eq_true hname)]
        rfl
      · rw [if_neg hname, if_neg (by simpa using hname)]
        rfl
  | .null, _ => rfl
  | .vtNull _, _ => rfl
  | .int _ _, _ => rfl
  | .str _ _, _ => rfl
  | .sym _ _, _ => rfl
  | .bool _ _, _ => rfl
  | .char _ _, _ => rfl
  | .blob _ _, _ => rfl
  | .array _ _, _ => rfl
  | .nvl _ _, _ => rfl

/-! ## Parts of a value -/

theorem reaches_item : ∀ {v w x : Ref A}, w ∈ v.items → Reaches w x → Reaches v x
  | .cons a h t, w, x, hw, hx => by
    cases hn : sexprIsNull (.cons a h t) with
    | true =>
      rw [items_empty hn] at hw
      cases hw
    | false =>
      rw [items_cons hn] at hw
      rcases List.mem_cons.mp hw with rfl | hw
      · exact .head hx
      · exact .tail (reaches_item hw hx)

theorem sizeOf_item [SizeOf A] : ∀ {v w : Ref A}, w ∈ v.items → sizeOf w < sizeOf v
  | .cons a h t, w, hw => by
    cases hn : sexprIsNull (.cons a h t) with
    | true =>
      rw [items_empty hn] at hw
      cases hw
    | false =>
      rw [items_cons hn] at hw
      rcases List.mem_cons.mp hw with rfl | hw
      · simp only [Ref.cons.sizeOf_spec]
        omega
      · have := sizeOf_item hw
        simp only [Ref.cons.sizeOf_spec]
        omega

theorem sizeOf_cdr [SizeOf A] (v : Ref A) : sizeOf (sexprCdr v) ≤ sizeOf v := by
  cases v <;> simp +arith [sexprCdr]

theorem reaches_cdr {v x : Ref A} (h : Reaches (sexprCdr v) x) (hx : x ≠ .null) : Reaches v x := by
  cases v with
  | cons a hd tl => exact .tail h
  | _ =>
    cases h
    exact absurd rfl hx

end Sexpr

end Libjeffpc
