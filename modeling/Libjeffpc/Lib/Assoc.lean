import Libjeffpc.Lib.Order

/-!
# Sorted association lists

A finite map as the list of its pairs in the order of a comparison function. The list is determined
by the map.
-/

namespace Libjeffpc.Lib.Assoc

variable {K V : Type}

/-- The keys grow. -/
def Sorted (cmp : K → K → Int) (l : List (K × V)) : Prop := l.Pairwise fun p q => cmp p.1 q.1 < 0

/-- Replace the value of a key, or put a new pair where its key belongs. -/
def set (cmp : K → K → Int) : List (K × V) → K → V → List (K × V)
  | [], k, v => [(k, v)]
  | p :: l, k, v =>
    if cmp k p.1 < 0 then (k, v) :: p :: l
    else if cmp k p.1 = 0 then (p.1, v) :: l
    else p :: set cmp l k v

variable {cmp : K → K → Int}

theorem key_mem_set {l : List (K × V)} {k : K} {v : V} {p : K × V} (h : p ∈ set cmp l k v) :
    p.1 = k ∨ ∃ q ∈ l, p.1 = q.1 := by
  induction l with
  | nil =>
    rw [set, List.mem_singleton] at h
    exact .inl (by rw [h])
  | cons q l ih =>
    rw [set] at h
    split_ifs at h with hlt heq
    · rcases List.mem_cons.mp h with rfl | hm
      · exact .inl rfl
      · exact .inr ⟨p, hm, rfl⟩
    · rcases List.mem_cons.mp h with rfl | hm
      · exact .inr ⟨q, List.mem_cons_self, rfl⟩
      · exact .inr ⟨p, List.mem_cons_of_mem _ hm, rfl⟩
    · rcases List.mem_cons.mp h with rfl | hm
      · exact .inr ⟨p, List.mem_cons_self, rfl⟩
      · rcases ih hm with hk | ⟨x, hx, hk⟩
        · exact .inl hk
        · exact .inr ⟨x, List.mem_cons_of_mem _ hx, hk⟩

theorem Sorted.set (hc : IsCmp cmp) {l : List (K × V)} (h : Sorted cmp l) (k : K) (v : V) :
    Sorted cmp (set cmp l k v) := by
  induction l with
  | nil => simp [Assoc.set, Sorted]
  | cons q l ih =>
    obtain ⟨hq, hl⟩ := List.pairwise_cons.mp h
    rw [Assoc.set]
    split_ifs with hlt heq
    · refine List.pairwise_cons.mpr ⟨fun x hx => ?_, h⟩
      rcases List.mem_cons.mp hx with rfl | hx
      · exact hlt
      · exact hc.lt_of_lt_of_le hlt (hq x hx).le
    · exact List.pairwise_cons.mpr ⟨hq, hl⟩
    · refine List.pairwise_cons.mpr ⟨fun x hx => ?_, ih hl⟩
      rcases key_mem_set hx with hk | ⟨y, hy, hk⟩
      · have := hc.swap q.1 k
        rw [hk]
        omega
      · rw [hk]
        exact hq y hy

/-- `set` of one pair after the other. -/
def setAll (cmp : K → K → Int) (l ps : List (K × V)) : List (K × V) :=
  ps.foldl (fun acc p => set cmp acc p.1 p.2) l

theorem Sorted.setAll (hc : IsCmp cmp) {l : List (K × V)} (h : Sorted cmp l) (ps : List (K × V)) :
    Sorted cmp (setAll cmp l ps) := by
  induction ps generalizing l with
  | nil => exact h
  | cons p ps ih => exact ih (h.set hc p.1 p.2)

/-- What holds of all values before and of the value that is set. -/
theorem forall_set {P : V → Prop} {l : List (K × V)} {k : K} {v : V} (hl : ∀ p ∈ l, P p.2) (hv : P v) :
    ∀ p ∈ set cmp l k v, P p.2 := by
  induction l with
  | nil => exact List.forall_mem_singleton.mpr hv
  | cons q l ih =>
    obtain ⟨hq, hl'⟩ := List.forall_mem_cons.mp hl
    rw [set]
    split_ifs
    · exact List.forall_mem_cons.mpr ⟨hv, hl⟩
    · exact List.forall_mem_cons.mpr ⟨hv, hl'⟩
    · exact List.forall_mem_cons.mpr ⟨hq, ih hl'⟩

theorem forall_setAll {P : V → Prop} {l ps : List (K × V)} (hl : ∀ p ∈ l, P p.2)
    (hps : ∀ p ∈ ps, P p.2) : ∀ p ∈ setAll cmp l ps, P p.2 := by
  induction ps generalizing l with
  | nil => exact hl
  | cons p ps ih =>
    obtain ⟨hp, hps⟩ := List.forall_mem_cons.mp hps
    exact ih (forall_set hl hp) hps

/-- The values of a list, changed by a function. -/
def mapValues {W : Type} (f : V → W) (l : List (K × V)) : List (K × W) := l.map fun p => (p.1, f p.2)

theorem mapValues_set {W : Type} (f : V → W) (l : List (K × V)) (k : K) (v : V) :
    mapValues f (set cmp l k v) = set cmp (mapValues f l) k (f v) := by
  induction l with
  | nil => rfl
  | cons q l ih =>
    simp only [mapValues] at ih
    simp only [set, mapValues, List.map_cons]
    split_ifs
    · rfl
    · rfl
    · rw [List.map_cons, ih]

theorem mapValues_setAll {W : Type} (f : V → W) (l ps : List (K × V)) :
    mapValues f (setAll cmp l ps) = setAll cmp (mapValues f l) (mapValues f ps) := by
  induction ps generalizing l with
  | nil => rfl
  | cons p ps ih =>
    show mapValues f (setAll cmp (set cmp l p.1 p.2) ps) = _
    rw [ih, mapValues_set]
    rfl

variable [BEq K] [LawfulBEq K]

theorem lookup_set [DecidableEq K] (heq0 : ∀ a b, cmp a b = 0 ↔ a = b) (l : List (K × V)) (k : K) (v : V) :
    (fun x => (set cmp l k v).lookup x) = Function.update (fun x => l.lookup x) k (some v) := by
  funext x
  induction l with
  | nil =>
    rw [set, List.lookup_cons]
    by_cases hx : x = k
    · simp [hx]
    · simp [beq_false_of_ne hx, Function.update_of_ne hx]
  | cons q l ih =>
    rw [set]
    split_ifs with hlt heq
    · by_cases hx : x = k
      · simp [hx]
      · rw [List.lookup_cons, beq_false_of_ne hx, Function.update_of_ne hx]
    · have hk : q.1 = k := ((heq0 k q.1).mp heq).symm
      by_cases hx : x = k
      · simp [hk, hx]
      · have hxq : x ≠ q.1 := fun h => hx (h.trans hk)
        rw [Function.update_of_ne hx, List.lookup_cons, List.lookup_cons, beq_false_of_ne hxq]
    · have hk : q.1 ≠ k := fun h => heq ((heq0 k q.1).mpr h.symm)
      by_cases hxq : x = q.1
      · have hxk : x ≠ k := fun h => hk (hxq.symm.trans h)
        rw [Function.update_of_ne hxk, hxq, List.lookup_cons, List.lookup_cons, beq_self_eq_true]
      · rw [List.lookup_cons, beq_false_of_ne hxq, ih]
        by_cases hx : x = k
        · simp [hx]
        · rw [Function.update_of_ne hx, Function.update_of_ne hx, List.lookup_cons,
            beq_false_of_ne hxq]

/-- A key of a sorted list is found with the value it has there. -/
theorem Sorted.lookup_of_mem (hc : IsCmp cmp) {l : List (K × V)} (h : Sorted cmp l) {p : K × V}
    (hp : p ∈ l) : l.lookup p.1 = some p.2 := by
  induction l with
  | nil => cases hp
  | cons q l ih =>
    obtain ⟨hq, hl⟩ := List.pairwise_cons.mp h
    rcases List.mem_cons.mp hp with rfl | hp
    · rw [List.lookup_cons, beq_self_eq_true]
    · have hne : p.1 ≠ q.1 := by
        intro he
        have hlt := hq p hp
        rw [he, hc.refl] at hlt
        omega
      rw [List.lookup_cons, beq_false_of_ne hne]
      exact ih hl hp

theorem mem_of_lookup {l : List (K × V)} {k : K} {v : V} (h : l.lookup k = some v) :
    (k, v) ∈ l := by
  induction l with
  | nil => cases h
  | cons q l ih =>
    rw [List.lookup_cons] at h
    by_cases hk : k = q.1
    · rw [hk, beq_self_eq_true] at h
      rw [hk, ← Option.some.inj h]
      exact List.mem_cons_self
    · rw [beq_false_of_ne hk] at h
      exact List.mem_cons_of_mem _ (ih h)

/-- No key of a sorted list is there twice, so the search may start at either end. -/
theorem Sorted.lookup_reverse (hc : IsCmp cmp) {l : List (K × V)} (h : Sorted cmp l) (k : K) :
    l.reverse.lookup k = l.lookup k := by
  have hsome : ∀ v, l.reverse.lookup k = some v → l.lookup k = some v := by
    intro v hv
    exact h.lookup_of_mem hc (List.mem_reverse.mp (mem_of_lookup hv))
  cases hr : l.reverse.lookup k with
  | some v => exact (hsome v hr).symm
  | none =>
    rw [List.lookup_eq_none_iff] at hr
    symm
    rw [List.lookup_eq_none_iff]
    exact fun p hp => hr p (List.mem_reverse.mpr hp)

/-- Two sorted lists that have the same value under every key are equal. -/
theorem Sorted.ext (hc : IsCmp cmp) {p q : List (K × V)} (hp : Sorted cmp p) (hq : Sorted cmp q)
    (h : ∀ k, p.lookup k = q.lookup k) : p = q := by
  have hmem : ∀ x, x ∈ p ↔ x ∈ q := by
    intro x
    constructor
    · intro hx
      exact mem_of_lookup ((h x.1).symm.trans (hp.lookup_of_mem hc hx))
    · intro hx
      exact mem_of_lookup ((h x.1).trans (hq.lookup_of_mem hc hx))
  have hirr : ∀ x : K × V, ¬ cmp x.1 x.1 < 0 := fun x => by
    have := hc.refl x.1
    omega
  have hnd : ∀ l : List (K × V), Sorted cmp l → l.Nodup := by
    intro l hl
    refine List.Pairwise.imp ?_ hl
    rintro a b hab rfl
    exact hirr a hab
  have hperm : p.Perm q := (List.perm_ext_iff_of_nodup (hnd p hp) (hnd q hq)).mpr hmem
  refine hperm.eq_of_pairwise (fun a b _ _ hab hba => ?_) hp hq
  have := hc.swap a.1 b.1
  omega

omit [LawfulBEq K] in
theorem lookup_mapValues {W : Type} (f : V → W) (l : List (K × V)) (k : K) :
    (mapValues f l).lookup k = (l.lookup k).map f := by
  induction l with
  | nil => rfl
  | cons p l ih =>
    obtain ⟨k', v⟩ := p
    show ((k', f v) :: mapValues f l).lookup k = _
    rw [List.lookup_cons, List.lookup_cons, ih]
    split <;> rfl

theorem lookup_map [DecidableEq K] {α : Type} (name : α → K) (val : α → V) (l : List α) (k : K) :
    (l.map fun w => (name w, val w)).lookup k = (l.filter fun w => name w = k).head?.map val := by
  induction l with
  | nil => rfl
  | cons w l ih =>
    rw [List.map_cons, List.lookup_cons, List.filter_cons, ih]
    by_cases hk : name w = k
    · simp [hk]
    · have hk' : (k == name w) = false := beq_false_of_ne fun h => hk h.symm
      simp [hk, hk']

/-- A key has the last value that was set for it. -/
theorem lookup_setAll [DecidableEq K] (heq0 : ∀ a b, cmp a b = 0 ↔ a = b) (l ps : List (K × V)) (k : K) :
    (setAll cmp l ps).lookup k = (ps.reverse.lookup k).or (l.lookup k) := by
  induction ps generalizing l with
  | nil => simp [setAll]
  | cons p ps ih =>
    have hset := congrFun (lookup_set heq0 l p.1 p.2) k
    show (setAll cmp (set cmp l p.1 p.2) ps).lookup k = _
    rw [ih, List.reverse_cons, List.lookup_append, Option.or_assoc]
    congr 1
    rw [hset, List.lookup_cons]
    by_cases hk : k = p.1
    · simp [hk]
    · simp [Function.update_of_ne hk, beq_false_of_ne hk]

/-- Setting the pairs of a sorted list in an empty one gives that list. -/
theorem setAll_sorted [DecidableEq K] (hc : IsCmp cmp) (heq0 : ∀ a b, cmp a b = 0 ↔ a = b)
    {ps : List (K × V)} (h : Sorted cmp ps) : setAll cmp [] ps = ps := by
  have hnil : Sorted cmp ([] : List (K × V)) := List.Pairwise.nil
  refine (hnil.setAll hc ps).ext hc h fun k => ?_
  rw [lookup_setAll heq0, h.lookup_reverse hc]
  simp

/-- Two sorted lists that have values under the same keys have the same keys in the same places. -/
theorem Sorted.keys_eq {W : Type} (hc : IsCmp cmp) {p : List (K × V)} {q : List (K × W)}
    (hp : Sorted cmp p) (hq : Sorted cmp q) (h : ∀ k, p.lookup k = none ↔ q.lookup k = none) :
    p.map Prod.fst = q.map Prod.fst := by
  have hmem : ∀ {X : Type} (l : List (K × X)) k, k ∈ l.map Prod.fst ↔ ¬l.lookup k = none := by
    intro X l k
    rw [List.lookup_eq_none_iff, List.mem_map]
    constructor
    · rintro ⟨x, hx, rfl⟩ hno
      simpa using hno x hx
    · intro hno
      push Not at hno
      obtain ⟨x, hx, hk⟩ := hno
      have hkx : k = x.1 := by simpa using hk
      exact ⟨x, hx, hkx.symm⟩
  have hkeys : ∀ {X : Type} (l : List (K × X)), Sorted cmp l →
      (l.map Prod.fst).Pairwise fun a b => cmp a b < 0 := fun l hl => List.pairwise_map.mpr hl
  have hnd : ∀ l : List K, (l.Pairwise fun a b => cmp a b < 0) → l.Nodup := by
    intro l hl
    refine List.Pairwise.imp ?_ hl
    rintro a b hab rfl
    have := hc.refl a
    omega
  have hperm : (p.map Prod.fst).Perm (q.map Prod.fst) := by
    refine (List.perm_ext_iff_of_nodup (hnd _ (hkeys p hp)) (hnd _ (hkeys q hq))).mpr fun k => ?_
    rw [hmem, hmem, h k]
  refine hperm.eq_of_pairwise (fun a b _ _ hab hba => ?_) (hkeys p hp) (hkeys q hq)
  have := hc.swap a b
  omega

end Libjeffpc.Lib.Assoc
