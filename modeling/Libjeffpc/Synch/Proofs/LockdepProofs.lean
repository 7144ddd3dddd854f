import Libjeffpc.Synch.Lockdep

/-!
# The checker finds exactly the inversions

While the checker is on, the graph has no infinite walk (`Grounded`), and of two locks on one stack
the later one reaches the earlier one. So the one edge that an acquisition adds, from the new class to
the class of the last lock, makes the new class reach every class that is held, and the graph covers
all pairs although it has few of them.
-/

set_option linter.unusedSectionVars false

namespace Libjeffpc.Synch

open Lib Relation

variable {T L C : Type} [DecidableEq T] [DecidableEq L] [DecidableEq C] {cfg : Config L C}
  {s s' : Lockdep T L C}

/-- The edges of the class graph. -/
def Dep (deps : C → List C) (c d : C) : Prop := d ∈ deps c

/-- The lock that is on the stack of a thread before the thread has it. -/
def pending : Pc L → List L
  | .acquiring l => [l]
  | _ => []

/-- What a thread knows at a point of `check_unheld_for_lock`. -/
def PcOk (cfg : Config L C) (deps : C → List C) (held : List L) : Pc L → Prop
  | .rereading l => ∀ k ∈ held, TransGen (Dep deps) (cfg.lc l) (cfg.lc k)
  | .pushing l => ∀ k ∈ held, TransGen (Dep deps) (cfg.lc l) (cfg.lc k)
  | _ => True

structure OnInv (cfg : Config L C) (s : Lockdep T L C) : Prop where
  grounded : Grounded (Dep s.deps)
  covered : ∀ c d, s.Acquired c d → TransGen (Dep s.deps) c d
  stack : ∀ t, s.held t = s.owned t ++ pending (s.pc t)
  nested : ∀ t, (s.held t).Pairwise fun k l => TransGen (Dep s.deps) (cfg.lc l) (cfg.lc k)
  pcOk : ∀ t, PcOk cfg s.deps (s.held t) (s.pc t)

structure Inv (cfg : Config L C) (s : Lockdep T L C) : Prop where
  recorded : ∀ c d, Dep s.deps c d → s.Acquired c d
  circular : s.circular = true → Cyclic s.Acquired
  scanned : ∀ t l, s.pc t = .ordering l → s.held t ≠ [] ∧ ∀ k ∈ s.held t, cfg.lc l ≠ cfg.lc k
  on : s.lockdepOn = true → OnInv cfg s

section FindPath

variable {deps deps' : C → List C} {dst : C}

/-- The search visits the classes that can be reached without going through `dst`. -/
theorem findPath_spec (hg : Grounded (Dep deps)) (hd : ∀ c, c ≠ dst → deps' c = deps c) (src : C) :
    (ReflTransGen (Dep deps) src dst ∧ findPath deps' src dst = pure true) ∨
    (¬ReflTransGen (Dep deps) src dst ∧ findPath deps' src dst = pure false) := by
  induction src using hg.induction with
  | _ src ih =>
    by_cases hs : src = dst
    · subst hs
      exact Or.inl ⟨.refl, by rw [findPath, if_pos rfl]⟩
    have hloop : ∀ ds, (∀ d ∈ ds, Dep deps src d) →
        ((∃ d ∈ ds, ReflTransGen (Dep deps) d dst) ∧ findPathDeps deps' ds dst = pure true) ∨
        ((∀ d ∈ ds, ¬ReflTransGen (Dep deps) d dst) ∧ findPathDeps deps' ds dst = pure false) := by
      intro ds
      induction ds with
      | nil => exact fun _ => Or.inr ⟨by simp, by rw [findPathDeps]⟩
      | cons d ds ihd =>
        intro hsub
        rcases ih d (hsub d (by simp)) with ⟨hr, hrun⟩ | ⟨hr, hrun⟩
        · exact Or.inl ⟨⟨d, by simp, hr⟩, by rw [findPathDeps, hrun]; rfl⟩
        · have hstep : findPathDeps deps' (d :: ds) dst = findPathDeps deps' ds dst := by
            rw [findPathDeps, hrun]
            rfl
          rw [hstep]
          rcases ihd (fun x hx => hsub x (List.mem_cons_of_mem _ hx)) with
            ⟨⟨x, hx, hxr⟩, hrun⟩ | ⟨hno, hrun⟩
          · exact Or.inl ⟨⟨x, List.mem_cons_of_mem _ hx, hxr⟩, hrun⟩
          · refine Or.inr ⟨fun x hx => ?_, hrun⟩
            rcases List.mem_cons.mp hx with rfl | hx
            · exact hr
            · exact hno x hx
    rw [findPath, if_neg hs, hd src hs]
    rcases hloop (deps src) (fun d hd => hd) with ⟨⟨d, hd, hr⟩, hrun⟩ | ⟨hno, hrun⟩
    · exact Or.inl ⟨.head hd hr, hrun⟩
    · refine Or.inr ⟨fun hr => ?_, hrun⟩
      rcases ReflTransGen.cases_head hr with he | ⟨d, hd, hr⟩
      · exact hs he
      · exact hno d hd hr

end FindPath

/-- The graph with one more edge. -/
def addEdge (deps : C → List C) (c d : C) : C → List C := Function.update deps c (deps c ++ [d])

theorem dep_addEdge {deps : C → List C} {c d a b : C} :
    Dep (addEdge deps c d) a b ↔ Dep deps a b ∨ (a = c ∧ b = d) := by
  by_cases ha : a = c
  · subst ha
    simp [Dep, addEdge]
  · simp [Dep, addEdge, ha]

/-- Everything the section under `lockdep_lock` can do. -/
theorem checkCircularDeps_cases (hg : s.lockdepOn = true → Grounded (Dep s.deps)) {l : L} {d : C}
    (hne : cfg.lc l ≠ d) :
    ∃ s', checkCircularDeps cfg s l d = pure s' ∧
      ((s' = s ∧ (s.lockdepOn = true → Dep s.deps (cfg.lc l) d)) ∨
      s' = { s with lockdepOn := false } ∨
      (s' = { s with deps := addEdge s.deps (cfg.lc l) d, lockdepOn := false, circular := true } ∧
        s.lockdepOn = true ∧ ReflTransGen (Dep s.deps) d (cfg.lc l)) ∨
      (s' = { s with deps := addEdge s.deps (cfg.lc l) d } ∧ s.lockdepOn = true ∧
        ¬ReflTransGen (Dep s.deps) d (cfg.lc l))) := by
  have hass : assert (cfg.lc l ≠ d) = pure () := by simp [hne]
  by_cases hon : s.lockdepOn = true
  · by_cases hmem : d ∈ s.deps (cfg.lc l)
    · exact ⟨s, by simp [checkCircularDeps, addDependency, hne, hon, hmem],
        Or.inl ⟨rfl, fun _ => hmem⟩⟩
    by_cases hlen : (s.deps (cfg.lc l)).length ≥ cfg.depCount - 1
    · refine ⟨_, ?_, Or.inr (Or.inl rfl)⟩
      simp only [checkCircularDeps, addDependency, hass, hon, hmem, hlen, pure_bind, Bool.not_true,
        Bool.false_eq_true, if_false, if_true]
      rfl
    have hadd : addDependency cfg s (cfg.lc l) d =
        pure (1, { s with deps := addEdge s.deps (cfg.lc l) d }) := by
      simp only [addDependency, hass, hon, hmem, hlen, pure_bind, Bool.not_true, Bool.false_eq_true,
        if_false]
      rfl
    have hsame : ∀ c, c ≠ cfg.lc l → addEdge s.deps (cfg.lc l) d c = s.deps c := fun c hc =>
      Function.update_of_ne hc _ _
    rcases findPath_spec (hg hon) hsame d with ⟨hr, hrun⟩ | ⟨hr, hrun⟩
    · refine ⟨_, ?_, Or.inr (Or.inr (Or.inl ⟨rfl, hon, hr⟩))⟩
      simp only [checkCircularDeps, hadd, pure_bind, hrun]
      rfl
    · refine ⟨_, ?_, Or.inr (Or.inr (Or.inr ⟨rfl, hon, hr⟩))⟩
      simp only [checkCircularDeps, hadd, pure_bind, hrun]
      rfl
  · have hoff : s.lockdepOn = false := by simpa using hon
    exact ⟨s, by simp [checkCircularDeps, addDependency, hne, hoff], Or.inl ⟨rfl, by simp [hoff]⟩⟩

theorem acquired_record {t : T} {l : L} {c d : C} : (record cfg s t l).Acquired c d ↔
    s.Acquired c d ∨ ∃ k ∈ s.owned t, cfg.lc l = c ∧ cfg.lc k = d := by
  simp [record, Lockdep.Acquired]

theorem PcOk.mono {deps deps' : C → List C} (hd : ∀ a b, Dep deps a b → Dep deps' a b) {held : List L}
    {pc : Pc L} (h : PcOk cfg deps held pc) : PcOk cfg deps' held pc := by
  cases pc with
  | rereading l => exact fun k hk => TransGen.mono (fun a b hab => hd a b hab) _ _ (h k hk)
  | pushing l => exact fun k hk => TransGen.mono (fun a b hab => hd a b hab) _ _ (h k hk)
  | _ => trivial

/-- A thread moves on within the checks. -/
theorem OnInv.setPc (h : OnInv cfg s) {t : T} {pc : Pc L} (hp : pending pc = pending (s.pc t))
    (hok : PcOk cfg s.deps (s.held t) pc) : OnInv cfg (setPc s t pc) where
  grounded := h.grounded
  covered := h.covered
  stack u := by
    by_cases hu : u = t
    · subst hu
      simp [Synch.setPc, hp, h.stack]
    · simp [Synch.setPc, Function.update_of_ne hu, h.stack]
  nested := h.nested
  pcOk u := by
    by_cases hu : u = t
    · subst hu
      simpa [Synch.setPc] using hok
    · simpa [Synch.setPc, Function.update_of_ne hu] using h.pcOk u

theorem scanned_setPc {t : T} {pc : Pc L}
    (h : ∀ u l, s.pc u = .ordering l → s.held u ≠ [] ∧ ∀ k ∈ s.held u, cfg.lc l ≠ cfg.lc k)
    (ht : ∀ l, pc = .ordering l → s.held t ≠ [] ∧ ∀ k ∈ s.held t, cfg.lc l ≠ cfg.lc k) (u : T) (l : L)
    (hu : (setPc s t pc).pc u = .ordering l) :
    (setPc s t pc).held u ≠ [] ∧ ∀ k ∈ (setPc s t pc).held u, cfg.lc l ≠ cfg.lc k := by
  by_cases hut : u = t
  · subst hut
    exact ht l (by simpa [setPc] using hu)
  · exact h u l (by simpa [setPc, Function.update_of_ne hut] using hu)

/-- A step that only moves the program counter of one thread. -/
theorem Inv.setPc (h : Inv cfg s) {t : T} {pc : Pc L} (hp : pending pc = pending (s.pc t))
    (hs : ∀ l, pc = .ordering l → s.held t ≠ [] ∧ ∀ k ∈ s.held t, cfg.lc l ≠ cfg.lc k)
    (hok : s.lockdepOn = true → PcOk cfg s.deps (s.held t) pc) : Inv cfg (setPc s t pc) :=
  ⟨h.recorded, h.circular, scanned_setPc h.scanned hs, fun hon => (h.on hon).setPc hp (hok hon)⟩

/-- A step that leaves the checker off may do to the ghosts and to one program counter what it likes. -/
theorem Inv.setPc_off (h : Inv cfg s) {t : T} {pc : Pc L} (hs : ∀ l, pc ≠ .ordering l)
    (hoff : s.lockdepOn = false) : Inv cfg (Synch.setPc s t pc) :=
  ⟨h.recorded, h.circular, scanned_setPc h.scanned (fun l hl => absurd hl (hs l)),
    fun hon => absurd hon (by simp [Synch.setPc, hoff])⟩

theorem Inv.turnOff (h : Inv cfg s) : Inv cfg { s with lockdepOn := false } :=
  ⟨h.recorded, h.circular, h.scanned, by simp⟩

theorem Inv.record_off (h : Inv cfg s) (t : T) (l : L) :
    Inv cfg { record cfg s t l with lockdepOn := false } := by
  refine ⟨fun c d hd => acquired_record.mpr (Or.inl (h.recorded c d hd)), fun hc => ?_, h.scanned,
    by simp⟩
  exact (h.circular hc).mono (fun a b hab => .single (acquired_record.mpr (Or.inl hab)))

/-- The class of the new lock reaches every class that the thread holds. -/
theorem OnInv.reach_held (h : OnInv cfg s) {t : T} {l k : L} (hk : (s.held t).getLast? = some k)
    {deps' : C → List C} (hd : ∀ a b, Dep s.deps a b → Dep deps' a b)
    (hlk : Dep deps' (cfg.lc l) (cfg.lc k)) :
    ∀ k' ∈ s.held t, TransGen (Dep deps') (cfg.lc l) (cfg.lc k') := by
  intro k' hk'
  obtain ⟨ks, hks⟩ := List.getLast?_eq_some_iff.mp hk
  have hn := h.nested t
  rw [hks] at hn hk'
  rcases List.mem_append.mp hk' with hk' | hk'
  · have := (List.pairwise_append.mp hn).2.2 k' hk' k (by simp)
    exact .head hlk (TransGen.mono (fun a b hab => hd a b hab) _ _ this)
  · rw [List.mem_singleton.mp hk']
    exact .single hlk

/-- The checks under `lockdep_lock`. -/
theorem Inv.order (h : Inv cfg s) {t : T} {l k : L} (hpc : s.pc t = .ordering l)
    (hk : (s.held t).getLast? = some k) (hne : cfg.lc l ≠ cfg.lc k)
    (hrun : checkCircularDeps cfg (record cfg s t l) l (cfg.lc k) = pure s') :
    Inv cfg (Synch.setPc s' t (.rereading l)) := by
  have hheld : s.lockdepOn = true → s.held t = s.owned t := fun hon => by
    have := (h.on hon).stack t
    rw [hpc] at this
    simpa [pending] using this
  have hkm : k ∈ s.held t := List.mem_of_getLast? hk
  -- the pairs of this acquisition are covered once the edge is there
  have hcov : ∀ (hon : s.lockdepOn = true) (deps' : C → List C),
      (∀ a b, Dep s.deps a b → Dep deps' a b) → Dep deps' (cfg.lc l) (cfg.lc k) →
      ∀ c d, (record cfg s t l).Acquired c d → TransGen (Dep deps') c d := by
    intro hon deps' hd hlk c d hcd
    rcases acquired_record.mp hcd with hcd | ⟨k', hk', rfl, rfl⟩
    · exact TransGen.mono (fun a b hab => hd a b hab) _ _ ((h.on hon).covered c d hcd)
    · exact (h.on hon).reach_held hk hd hlk k' (hheld hon ▸ hk')
  have hgrow : ∀ a b, s.Acquired a b → TransGen (record cfg s t l).Acquired a b :=
    fun a b hab => .single (acquired_record.mpr (Or.inl hab))
  have hnot : ∀ l', Pc.rereading l ≠ .ordering l' := by simp
  obtain ⟨s'', hrun', hcases⟩ := checkCircularDeps_cases (s := record cfg s t l)
    (fun hon => (h.on hon).grounded) hne
  obtain rfl : s' = s'' := pure_inj (hrun.symm.trans hrun')
  rcases hcases with ⟨rfl, hdep⟩ | rfl | ⟨rfl, hon, hr⟩ | ⟨rfl, hon, hr⟩
  · refine ⟨fun c d hd => acquired_record.mpr (Or.inl (h.recorded c d hd)),
      fun hc => (h.circular hc).mono hgrow, scanned_setPc h.scanned (by simp), fun hon => ?_⟩
    have hon' := h.on hon
    have hrec : OnInv cfg (record cfg s t l) :=
      ⟨hon'.grounded, hcov hon s.deps (fun _ _ hab => hab) (hdep hon), hon'.stack, hon'.nested,
        hon'.pcOk⟩
    refine hrec.setPc ?_ (hon'.reach_held hk (fun _ _ hab => hab) (hdep hon))
    show _ = pending (s.pc t)
    rw [hpc]
    rfl
  · exact (h.record_off t l).setPc_off hnot rfl
  · refine ⟨?_, fun _ => ?_, scanned_setPc h.scanned (by simp), fun hon => by simp [Synch.setPc] at hon⟩
    · intro c d hd
      rcases dep_addEdge.mp hd with hd | ⟨rfl, rfl⟩
      · exact acquired_record.mpr (Or.inl (h.recorded c d hd))
      · exact acquired_record.mpr (Or.inr ⟨k, hheld hon ▸ hkm, rfl, rfl⟩)
    · -- the path back, closed by the new pair
      have hback : ReflTransGen (record cfg s t l).Acquired (cfg.lc k) (cfg.lc l) :=
        ReflTransGen.mono (fun a b hab => acquired_record.mpr (Or.inl (h.recorded a b hab))) _ _ hr
      have hnew : (record cfg s t l).Acquired (cfg.lc l) (cfg.lc k) :=
        acquired_record.mpr (Or.inr ⟨k, hheld hon ▸ hkm, rfl, rfl⟩)
      exact ⟨cfg.lc l, TransGen.head' hnew hback⟩
  · have hon' := h.on hon
    have hsub : ∀ a b, Dep s.deps a b → Dep (addEdge s.deps (cfg.lc l) (cfg.lc k)) a b :=
      fun a b hab => dep_addEdge.mpr (Or.inl hab)
    have hnew : Dep (addEdge s.deps (cfg.lc l) (cfg.lc k)) (cfg.lc l) (cfg.lc k) :=
      dep_addEdge.mpr (Or.inr ⟨rfl, rfl⟩)
    refine ⟨?_, fun hc => (h.circular hc).mono hgrow, scanned_setPc h.scanned (by simp), fun _ => ?_⟩
    · intro c d hd
      rcases dep_addEdge.mp hd with hd | ⟨rfl, rfl⟩
      · exact acquired_record.mpr (Or.inl (h.recorded c d hd))
      · exact acquired_record.mpr (Or.inr ⟨k, hheld hon ▸ hkm, rfl, rfl⟩)
    · have hadd : OnInv cfg { record cfg s t l with deps := addEdge s.deps (cfg.lc l) (cfg.lc k) } :=
        ⟨hon'.grounded.insert hr (fun a b hab => dep_addEdge.mp hab), hcov hon _ hsub hnew, hon'.stack,
          fun u => (hon'.nested u).imp (TransGen.mono (fun a b hab => hsub a b hab) _ _),
          fun u => (hon'.pcOk u).mono hsub⟩
      refine hadd.setPc ?_ (hon'.reach_held hk hsub hnew)
      show _ = pending (s.pc t)
      rw [hpc]
      rfl

theorem Inv.push (h : Inv cfg s) {t : T} {l : L} (hpc : s.pc t = .pushing l) :
    Inv cfg (Synch.setPc { s with held := Function.update s.held t (s.held t ++ [l]) } t
      (.acquiring l)) := by
  refine ⟨h.recorded, h.circular, ?_, fun hon => ?_⟩
  · intro u l' hu
    have hut : u ≠ t := by
      rintro rfl
      simp [Synch.setPc] at hu
    have hu' : s.pc u = .ordering l' := by simpa [Synch.setPc, Function.update_of_ne hut] using hu
    simpa [Synch.setPc, Function.update_of_ne hut] using h.scanned u l' hu'
  · have hon' := h.on hon
    have hstack := hon'.stack t
    have hok := hon'.pcOk t
    rw [hpc] at hstack hok
    refine ⟨hon'.grounded, hon'.covered, fun u => ?_, fun u => ?_, fun u => ?_⟩ <;>
      by_cases hu : u = t
    · subst hu
      simpa [Synch.setPc, pending] using hstack
    · simpa [Synch.setPc, Function.update_of_ne hu] using hon'.stack u
    · subst hu
      simp only [Synch.setPc, Function.update_self]
      refine List.pairwise_append.mpr ⟨hon'.nested u, List.pairwise_singleton _ _, ?_⟩
      intro k hk l' hl'
      rw [List.mem_singleton.mp hl']
      exact hok k hk
    · simpa [Synch.setPc, Function.update_of_ne hu] using hon'.nested u
    · subst hu
      simp [Synch.setPc, PcOk]
    · simpa [Synch.setPc, Function.update_of_ne hu] using hon'.pcOk u

theorem Inv.acquire (h : Inv cfg s) {t : T} {l : L} (hpc : s.pc t = .acquiring l) :
    Inv cfg (Synch.setPc { s with owned := Function.update s.owned t (s.owned t ++ [l]) } t
      .outside) := by
  refine ⟨h.recorded, h.circular, scanned_setPc h.scanned (by simp), fun hon => ?_⟩
  have hon' := h.on hon
  refine ⟨hon'.grounded, hon'.covered, fun u => ?_, hon'.nested, fun u => ?_⟩ <;> by_cases hu : u = t
  · subst hu
    have := hon'.stack u
    rw [hpc] at this
    simpa [Synch.setPc, pending] using this
  · simpa [Synch.setPc, Function.update_of_ne hu] using hon'.stack u
  · subst hu
    simp [Synch.setPc, PcOk]
  · simpa [Synch.setPc, Function.update_of_ne hu] using hon'.pcOk u

/-- Locks may be released in any order: the rest of the stack is still nested. -/
theorem Inv.unlockOn (h : Inv cfg s) {t : T} {l : L} (hpc : s.pc t = .outside) :
    Inv cfg { s with
      held := Function.update s.held t ((s.held t).erase l)
      owned := Function.update s.owned t ((s.owned t).erase l) } := by
  refine ⟨h.recorded, h.circular, ?_, fun hon => ?_⟩
  · intro u l' hu
    have hut : u ≠ t := by
      rintro rfl
      simp [hpc] at hu
    simpa [Function.update_of_ne hut] using h.scanned u l' hu
  · have hon' := h.on hon
    refine ⟨hon'.grounded, hon'.covered, fun u => ?_, fun u => ?_, fun u => ?_⟩ <;>
      by_cases hu : u = t
    · subst hu
      have := hon'.stack u
      simp only [hpc, pending, List.append_nil] at this
      simp [hpc, pending, this]
    · simpa [Function.update_of_ne hu] using hon'.stack u
    · subst hu
      simpa using (hon'.nested u).sublist List.erase_sublist
    · simpa [Function.update_of_ne hu] using hon'.nested u
    · subst hu
      simp [hpc, PcOk]
    · simpa [Function.update_of_ne hu] using hon'.pcOk u

theorem Step.inv (hs : Step cfg s s') (h : Inv cfg s) : Inv cfg s' := by
  cases hs with
  | lockOff t l hpc hoff =>
    have := (h.record_off t l).setPc_off (t := t) (show ∀ k, Pc.acquiring l ≠ .ordering k by simp) rfl
    simpa [← hoff, record] using this
  | lockOn t l hpc hon => exact h.setPc (by simp [hpc, pending]) (by simp) (fun _ => trivial)
  | recursive t l k hpc hf hk => exact (h.record_off t l).setPc_off (by simp) rfl
  | scanned t l hpc hf =>
    have hne : ∀ k ∈ s.held t, cfg.lc l ≠ cfg.lc k := fun k hk he => by
      have := List.find?_eq_none.mp hf k hk
      simp [he] at this
    by_cases hh : s.held t = []
    · rw [if_pos hh]
      exact h.setPc (by simp [hpc, pending]) (by simp) (fun _ k hk => by simp [hh] at hk)
    · rw [if_neg hh]
      refine h.setPc (by simp [hpc, pending]) ?_ (fun _ => trivial)
      rintro l' ⟨⟩
      exact ⟨hh, hne⟩
  | order t l k s1 hpc hk hrun =>
    exact h.order hpc hk ((h.scanned t l hpc).2 k (List.mem_of_getLast? hk)) hrun
  | reread t l hpc =>
    by_cases hon : s.lockdepOn = true
    · rw [if_pos hon]
      refine h.setPc (by simp [hpc, pending]) (by simp) (fun _ => ?_)
      have := (h.on hon).pcOk t
      rw [hpc] at this
      exact this
    · rw [if_neg hon]
      exact h.setPc_off (by simp) (by simpa using hon)
  | push t l hpc hn => exact h.push hpc
  | pushLimit t l hpc hn => exact h.turnOff.setPc_off (by simp) rfl
  | acquire t l hpc => exact h.acquire hpc
  | unlockOff t l hpc hl hoff =>
    exact ⟨h.recorded, h.circular, h.scanned, fun hon => by simp [hoff] at hon⟩
  | unlockOn t l hpc hl hon hh => exact h.unlockOn hpc
  | turnOff => exact h.turnOff

theorem inv_init : Inv cfg (Lockdep.init T L C) := by
  refine ⟨by simp [Dep, Lockdep.init], by simp [Lockdep.init], by simp [Lockdep.init], fun _ => ?_⟩
  refine ⟨⟨fun c => Acc.intro c fun d hd => ?_⟩, ?_, fun _ => rfl, fun _ => List.Pairwise.nil,
    fun _ => trivial⟩
  · simp [Dep, Lockdep.init] at hd
  · simp [Lockdep.Acquired, Lockdep.init]

theorem Reachable.inv (h : Reachable cfg s) : Inv cfg s := by
  induction h with
  | init => exact inv_init
  | step _ hs ih => exact hs.inv ih

/-- In every state of every interleaving: while the checker is on, the acquisitions so far are
acyclic; once it has called `error_lock_circular`, they are cyclic; and a thread at the check under
`lockdep_lock` gets through it, whatever the graph looks like. -/
theorem lockdep_finds_inversions (h : Reachable cfg s) :
    (s.lockdepOn = true → ¬Cyclic s.Acquired) ∧
    (s.circular = true → Cyclic s.Acquired) ∧
    (∀ t l, s.pc t = .ordering l → ∃ k s', (s.held t).getLast? = some k ∧
      checkCircularDeps cfg (record cfg s t l) l (cfg.lc k) = pure s' ∧
      (s'.circular = true → Cyclic (record cfg s t l).Acquired)) := by
  have hi := h.inv
  refine ⟨fun hon hc => ?_, hi.circular, fun t l hpc => ?_⟩
  · exact (hi.on hon).grounded.not_cyclic (hc.mono (hi.on hon).covered)
  · obtain ⟨hne, hall⟩ := hi.scanned t l hpc
    obtain ⟨k, hk⟩ : ∃ k, (s.held t).getLast? = some k :=
      ⟨_, List.getLast?_eq_some_getLast hne⟩
    obtain ⟨s', hrun, hcases⟩ := checkCircularDeps_cases (s := record cfg s t l)
      (fun hon => (hi.on hon).grounded) (hall k (List.mem_of_getLast? hk))
    have hacq : s'.Acquired = (record cfg s t l).Acquired := by
      rcases hcases with ⟨rfl, -⟩ | rfl | ⟨rfl, -⟩ | ⟨rfl, -⟩ <;> rfl
    refine ⟨k, s', hk, hrun, fun hc => ?_⟩
    have := (h.step (.order t l k s' hpc hk hrun)).inv.circular hc
    rw [← hacq]
    exact this

/-- Two locks, each of a class of its own. -/
def twoLocks : Config Bool Bool := ⟨id, 16, 32⟩

/-- A thread that acquires one lock while it holds the other: the checker stays on. -/
theorem lockdep_finds_inversions_nested : ∃ s : Lockdep Unit Bool Bool, Reachable twoLocks s ∧
    s.lockdepOn = true ∧ s.Acquired true false ∧ ¬Cyclic s.Acquired := by
  have h0 : Reachable twoLocks (Lockdep.init Unit Bool Bool) := .init
  have h1 := h0.step (.lockOn () false rfl rfl)
  have h2 := h1.step (.scanned () false rfl rfl)
  have h3 := h2.step (.push () false rfl (by decide))
  have h4 := h3.step (.acquire () false rfl)
  have h5 := h4.step (.lockOn () true rfl rfl)
  have h6 := h5.step (.scanned () true rfl rfl)
  have h7 := h6.step (.order () true false _ rfl rfl (by
    have hf : findPath (addEdge (fun _ : Bool => []) true false) false true = pure false := by
      rw [findPath, if_neg (by decide)]
      show findPathDeps _ [] true = _
      rw [findPathDeps]
    simp only [checkCircularDeps]
    erw [pure_bind]
    show (findPath (addEdge (fun _ : Bool => []) true false) false true >>= _) = _
    rw [hf]
    rfl))
  exact ⟨_, h7, rfl, List.mem_singleton.mpr rfl, (lockdep_finds_inversions h7).1 rfl⟩

end Libjeffpc.Synch
