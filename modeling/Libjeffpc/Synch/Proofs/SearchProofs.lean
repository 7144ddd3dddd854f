import Libjeffpc.Synch.Proofs.LockdepProofs

/-!
# The search for a path terminates

`find_path` runs right after an edge has been added, and only if the checker is on: the graph without that
edge has no infinite walks, and the search does not go beyond the class where the edge starts. When a search
has closed a cycle the checker is off, and no search starts again.
-/

set_option linter.unusedSectionVars false

namespace Libjeffpc.Synch

open Lib Relation

variable {T L C : Type} [DecidableEq T] [DecidableEq L] [DecidableEq C]
  {cfg : Config L C} {s s' : Lockdep T L C}

/-- The edges out of `dst` make no difference to what reaches it. -/
theorem reaches_iff {deps deps' : C → List C} {src dst : C} (hd : ∀ c, c ≠ dst → deps' c = deps c) :
    ReflTransGen (Dep deps') src dst ↔ ReflTransGen (Dep deps) src dst := by
  have hto : ∀ {d d' : C → List C}, (∀ c, c ≠ dst → d' c = d c) →
      ReflTransGen (Dep d') src dst → ReflTransGen (Dep d) src dst := by
    intro d d' hsame h
    induction h using ReflTransGen.head_induction_on with
    | refl => exact .refl
    | @head a c hac _ ih =>
      by_cases ha : a = dst
      · subst ha
        exact .refl
      · refine .head ?_ ih
        rwa [Dep, hsame a ha] at hac
  exact ⟨hto hd, hto fun c hc => (hd c hc).symm⟩

/-! ## `add_dependency` -/

/-- A dependency is only added while the checker is on. -/
theorem addDependency_added {src dst : C} {ret : Int} (h : addDependency cfg s src dst = pure (ret, s'))
    (hret : 0 < ret) : s.lockdepOn = true ∧ s' = { s with deps := addEdge s.deps src dst } := by
  rw [addDependency] at h
  by_cases hne : src = dst
  · rw [decide_eq_false (not_not.mpr hne)] at h
    cases h
  rw [decide_eq_true hne, assert_true, pure_bind] at h
  split_ifs at h with hoff hmem hfull
  · obtain ⟨rfl, -⟩ := Prod.mk.inj (pure_inj h)
    omega
  · obtain ⟨rfl, -⟩ := Prod.mk.inj (pure_inj h)
    omega
  · obtain ⟨rfl, -⟩ := Prod.mk.inj (pure_inj h)
    omega
  · obtain ⟨-, rfl⟩ := Prod.mk.inj (pure_inj h)
    exact ⟨by simpa using hoff, rfl⟩

theorem addDependency_off {src dst : C} (hne : src ≠ dst) (hoff : s.lockdepOn = false) :
    addDependency cfg s src dst = pure (0, s) := by
  rw [addDependency, decide_eq_true hne, assert_true, pure_bind, hoff]
  rfl

/-! ## Runs -/

/-- What `check_circular_deps` leaves of a report. -/
theorem checkCircularDeps_circular {l : L} {d : C} (h : checkCircularDeps cfg s l d = pure s')
    (hg : s.lockdepOn = true → Grounded (Dep s.deps)) (hne : cfg.lc l ≠ d) (hc : s.circular = true) :
    s'.circular = true := by
  obtain ⟨s₁, hrun, hcases⟩ := checkCircularDeps_cases hg hne
  obtain rfl := pure_inj (hrun.symm.trans h)
  rcases hcases with ⟨rfl, -⟩ | rfl | ⟨rfl, -⟩ | ⟨rfl, -⟩
  · exact hc
  · exact hc
  · rfl
  · exact hc

/-- A report is not taken back. -/
theorem Step.circular (hs : Step cfg s s') (hi : Inv cfg s) (hc : s.circular = true) : s'.circular = true := by
  cases hs with
  | order t l k s₁ hpc hk hrun =>
    obtain ⟨-, hall⟩ := hi.scanned t l hpc
    have hcirc : s₁.circular = true := checkCircularDeps_circular (s := record cfg s t l) hrun
      (fun hon => (hi.on hon).grounded) (hall k (List.mem_of_getLast? hk)) hc
    exact hcirc
  | _ => exact hc

theorem circular_later (h : Reachable cfg s) (hc : s.circular = true) (hs : ReflTransGen (Step cfg) s s') :
    Reachable cfg s' ∧ s'.circular = true := by
  induction hs with
  | refl => exact ⟨h, hc⟩
  | tail _ hstep ih => exact ⟨ih.1.step hstep, hstep.circular ih.1.inv ih.2⟩

theorem off_of_circular (h : Reachable cfg s) (hc : s.circular = true) : s.lockdepOn = false := by
  by_contra hne
  have hon := h.inv.on (by simpa using hne)
  exact hon.grounded.not_cyclic ((h.inv.circular hc).mono hon.covered)

/-- In every reachable state: a search that starts ends, with the right answer, on a graph that is acyclic but
for the new edge; after a report no search starts. -/
theorem find_path_terminates (h : Reachable cfg s) :
    (∀ t l k ret s₁, s.pc t = .ordering l → (s.held t).getLast? = some k →
      addDependency cfg (record cfg s t l) (cfg.lc l) (cfg.lc k) = pure (ret, s₁) → 0 < ret →
        s.lockdepOn = true ∧ s₁.deps = addEdge s.deps (cfg.lc l) (cfg.lc k) ∧ ¬Cyclic (Dep s.deps) ∧
        ∃ found, findPath s₁.deps (cfg.lc k) (cfg.lc l) = pure found ∧
          (found = true ↔ ReflTransGen (Dep s₁.deps) (cfg.lc k) (cfg.lc l))) ∧
    (s.circular = true → ∀ s', ReflTransGen (Step cfg) s s' → ∀ src dst, src ≠ dst →
      addDependency cfg s' src dst = pure (0, s')) ∧
    (Cyclic (Dep s.deps) → ∀ src dst, src ≠ dst → addDependency cfg s src dst = pure (0, s)) := by
  refine ⟨fun t l k ret s₁ hpc hk hadd hret => ?_, fun hc s' hs src dst hne => ?_, fun hcyc src dst hne => ?_⟩
  · obtain ⟨hon, rfl⟩ := addDependency_added hadd hret
    have hg := (h.inv.on hon).grounded
    have hsame : ∀ c, c ≠ cfg.lc l → addEdge s.deps (cfg.lc l) (cfg.lc k) c = s.deps c := fun c hc =>
      Function.update_of_ne hc _ _
    refine ⟨hon, rfl, hg.not_cyclic, ?_⟩
    show ∃ found, findPath (addEdge s.deps (cfg.lc l) (cfg.lc k)) (cfg.lc k) (cfg.lc l) = pure found ∧
      (found = true ↔ ReflTransGen (Dep (addEdge s.deps (cfg.lc l) (cfg.lc k))) (cfg.lc k) (cfg.lc l))
    rw [reaches_iff hsame]
    rcases findPath_spec hg hsame (cfg.lc k) with ⟨hr, hrun⟩ | ⟨hr, hrun⟩
    · exact ⟨true, hrun, iff_of_true rfl hr⟩
    · exact ⟨false, hrun, iff_of_false (by decide) hr⟩
  · obtain ⟨h', hc'⟩ := circular_later h hc hs
    exact addDependency_off hne (off_of_circular h' hc')
  · refine addDependency_off hne ?_
    by_contra hon
    exact (h.inv.on (by simpa using hon)).grounded.not_cyclic hcyc

/-- A thread that holds one lock and acquires another one: the search finds nothing. -/
theorem find_path_terminates_nested : ∃ s : Lockdep Unit Bool Bool, Reachable twoLocks s ∧ s.lockdepOn = true ∧
    ∃ found, findPath (addEdge s.deps true false) false true = pure found ∧
      (found = true ↔ ReflTransGen (Dep (addEdge s.deps true false)) false true) := by
  have h0 : Reachable twoLocks (Lockdep.init Unit Bool Bool) := .init
  have h1 := h0.step (.lockOn () false rfl rfl)
  have h2 := h1.step (.scanned () false rfl rfl)
  have h3 := h2.step (.push () false rfl (by decide))
  have h4 := h3.step (.acquire () false rfl)
  have h5 := h4.step (.lockOn () true rfl rfl)
  have h6 := h5.step (.scanned () true rfl rfl)
  obtain ⟨hon, -, -, found, hrun, hiff⟩ :=
    (find_path_terminates h6).1 () true false 1 _ rfl rfl rfl (by decide)
  exact ⟨_, h6, hon, found, hrun, hiff⟩

end Libjeffpc.Synch
