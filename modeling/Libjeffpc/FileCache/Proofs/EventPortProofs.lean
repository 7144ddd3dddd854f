import Libjeffpc.FileCache.EventPort

/-!
# The nodes of the file cache

The count of a node is the number of references to it that callers have, and one for the tree. A node has at
most one token: it is about to be inserted, has an association, or is in `process_file` before `rb_remove`. A node
with a token stays in the tree until `process_file` or `uncache_all_files` takes it out.
-/

set_option linter.unusedSectionVars false

namespace Libjeffpc.FileCache

open Lib Lib.Threads

variable {α β C : Type} [DecidableEq α] [DecidableEq C] [Fintype C] {fc fc' : Cache α β C} {who : Option C} {c : C}
  {phase phase' : Phase} {events : Events} {n m : Nat} {name : α}

/-! ## References and tokens -/

def weight (m n k : Nat) : Nat := if m = n then k else 0

/-- How many references a caller has to a node. -/
def Caller.refs (n : Nat) : Caller α → Nat
  | .inserting m | .output m | .releasing m => weight m n 1
  | .processing .drop m => weight m n 2
  | .processing _ m => weight m n 1
  | _ => 0

def Caller.tokens (n : Nat) : Caller α → Nat
  | .inserting m => weight m n 1
  | .processing .drop _ => 0
  | .processing _ m => weight m n 1
  | _ => 0

def Filemon.refs (n : Nat) : Filemon → Nat
  | .processing .drop m => weight m n 1
  | _ => 0

def Filemon.tokens (n : Nat) : Filemon → Nat
  | .processing .drop _ => 0
  | .processing _ m => weight m n 1
  | .waiting => 0

def Cache.refs (fc : Cache α β C) (n : Nat) : Nat := total fc.callers (Caller.refs n) + fc.filemon.refs n

def Cache.tokens (fc : Cache α β C) (n : Nat) : Nat :=
  total fc.callers (Caller.tokens n) + fc.filemon.tokens n + if fc.pending n then 1 else 0

/-- The reference of the cache is that of the thread once the node is not in the tree. -/
def Phase.extra : Phase → Nat
  | .drop => 1
  | _ => 0

/-- The references of a thread in `process_file`: a caller has one of its own. -/
def processRefs (own : Bool) (phase : Phase) (n m : Nat) : Nat := weight n m (own.toNat + phase.extra)

def processTokens (phase : Phase) (n m : Nat) : Nat :=
  match phase with
  | .drop => 0
  | _ => weight n m 1

section Weights

theorem refs_setCaller (fc : Cache α β C) (c : C) (v : Caller α) (m : Nat) :
    (fc.setCaller c v).refs m + (fc.callers c).refs m = fc.refs m + v.refs m := by
  have htotal := total_update fc.callers c v (Caller.refs m)
  change total (Function.update fc.callers c v) (Caller.refs m) + fc.filemon.refs m + _ = _
  rw [Cache.refs]
  omega

theorem tokens_setCaller (fc : Cache α β C) (c : C) (v : Caller α) (m : Nat) :
    (fc.setCaller c v).tokens m + (fc.callers c).tokens m = fc.tokens m + v.tokens m := by
  have htotal := total_update fc.callers c v (Caller.tokens m)
  change total (Function.update fc.callers c v) (Caller.tokens m) + fc.filemon.tokens m +
    (if fc.pending m then 1 else 0) + _ = _
  rw [Cache.tokens]
  omega

theorem process_eq : fc.process who = some (phase, n) ↔
    match who with
    | some c => fc.callers c = .processing phase n
    | none => fc.filemon = .processing phase n := by
  cases who with
  | some c =>
    rw [Cache.process]
    cases hst : fc.callers c <;> simp [hst]
  | none =>
    rw [Cache.process]
    cases fc.filemon <;> simp

theorem caller_processing : (Caller.processing phase n : Caller α).refs m = processRefs true phase n m ∧
    (Caller.processing phase n : Caller α).tokens m = processTokens phase n m := by
  cases phase <;> exact ⟨rfl, rfl⟩

theorem filemon_processing : (Filemon.processing phase n).refs m = processRefs false phase n m ∧
    (Filemon.processing phase n).tokens m = processTokens phase n m := by
  cases phase
  · exact ⟨(ite_self _).symm, rfl⟩
  · exact ⟨(ite_self _).symm, rfl⟩
  · exact ⟨rfl, rfl⟩

/-- What changes when a thread goes on in `process_file`. -/
theorem setPhase_weights (h : fc.process who = some (phase, n)) (phase' : Phase) (m : Nat) :
    (fc.setPhase who phase' n).refs m + processRefs who.isSome phase n m =
        fc.refs m + processRefs who.isSome phase' n m ∧
      (fc.setPhase who phase' n).tokens m + processTokens phase n m = fc.tokens m + processTokens phase' n m := by
  rw [process_eq] at h
  cases who with
  | some c =>
    have hrefs := refs_setCaller fc c (.processing phase' n) m
    have htokens := tokens_setCaller fc c (.processing phase' n) m
    rw [h, caller_processing.1, caller_processing.1] at hrefs
    rw [h, caller_processing.2, caller_processing.2] at htokens
    exact ⟨hrefs, htokens⟩
  | none =>
    constructor
    · change total fc.callers (Caller.refs m) + (Filemon.processing phase' n).refs m + processRefs false phase n m =
        _ + processRefs false phase' n m
      rw [Cache.refs, h, filemon_processing.1, filemon_processing.1]
      omega
    · change total fc.callers (Caller.tokens m) + (Filemon.processing phase' n).tokens m +
        (if fc.pending m then 1 else 0) + _ = _
      rw [Cache.tokens, h, filemon_processing.2, filemon_processing.2]
      omega

/-- What changes when a thread leaves `process_file`: a caller keeps its own reference. -/
theorem leave_weights (h : fc.process who = some (phase, n)) (m : Nat) :
    (fc.leave who n).refs m + processRefs who.isSome phase n m = fc.refs m + weight n m who.isSome.toNat ∧
      (fc.leave who n).tokens m + processTokens phase n m = fc.tokens m := by
  rw [process_eq] at h
  cases who with
  | some c =>
    have hrefs := refs_setCaller fc c (.output n) m
    have htokens := tokens_setCaller fc c (.output n) m
    rw [h, caller_processing.1] at hrefs
    rw [h, caller_processing.2] at htokens
    exact ⟨hrefs, htokens⟩
  | none =>
    have hzero : weight n m false.toNat = 0 := ite_self _
    constructor
    · change total fc.callers (Caller.refs m) + 0 + processRefs false phase n m = _ + weight n m false.toNat
      rw [Cache.refs, h, filemon_processing.1, hzero]
      omega
    · change total fc.callers (Caller.tokens m) + 0 + (if fc.pending m then 1 else 0) + _ = _
      rw [Cache.tokens, h, filemon_processing.2]
      omega

/-- Nobody else is moved. -/
theorem inserting_setPhase (h : fc.process who = some (phase, n)) :
    (fc.setPhase who phase' n).callers c = .inserting m ↔ fc.callers c = .inserting m := by
  rw [process_eq] at h
  cases who with
  | none => exact Iff.rfl
  | some c' =>
    change Function.update fc.callers c' _ c = _ ↔ _
    rcases eq_or_ne c c' with rfl | hne
    · rw [Function.update_self, h]
      exact iff_of_false nofun nofun
    · rw [Function.update_of_ne hne]

theorem inserting_leave (h : fc.process who = some (phase, n)) :
    (fc.leave who n).callers c = .inserting m ↔ fc.callers c = .inserting m := by
  rw [process_eq] at h
  cases who with
  | none => exact Iff.rfl
  | some c' =>
    change Function.update fc.callers c' _ c = _ ↔ _
    rcases eq_or_ne c c' with rfl | hne
    · rw [Function.update_self, h]
      exact iff_of_false nofun nofun
    · rw [Function.update_of_ne hne]

end Weights

/-! ## The invariant -/

structure Inv (fc : Cache α β C) : Prop where
  name : ∀ x n, fc.tree x = some n → (fc.nodes n).name = x
  count : ∀ n, (fc.nodes n).refcnt = fc.refs n + if fc.Cached n then 1 else 0
  tokens : ∀ n, fc.tokens n ≤ 1
  busy : ∀ n, 0 < fc.tokens n → fc.Cached n ∨ fc.uncached n = true ∨ ∃ c, fc.callers c = .inserting n
  gone : ∀ n, fc.uncached n = true → ¬fc.Cached n
  inserting : ∀ c n, fc.callers c = .inserting n → ¬fc.Cached n ∧ fc.uncached n = false
  fresh : ∀ n, fc.next ≤ n → fc.refs n = 0 ∧ fc.tokens n = 0 ∧ ¬fc.Cached n ∧ fc.uncached n = false

/-- A step that leaves the tree alone. -/
theorem Inv.same (h : Inv fc) (htree : fc'.tree = fc.tree) (huncached : fc'.uncached = fc.uncached)
    (hnext : fc'.next = fc.next) (hname : ∀ n, (fc'.nodes n).name = (fc.nodes n).name)
    (hcount : ∀ n, (fc'.nodes n).refcnt + fc.refs n = (fc.nodes n).refcnt + fc'.refs n)
    (htokens : ∀ n, fc'.tokens n ≤ fc.tokens n)
    (hrefs : ∀ n, 0 < fc'.refs n → 0 < fc.refs n ∨ 0 < fc.tokens n ∨ fc.Cached n)
    (hinserting : ∀ c n, fc'.callers c = .inserting n → fc.callers c = .inserting n)
    (hinserted : ∀ c n, fc.callers c = .inserting n → fc'.callers c = .inserting n ∨ fc'.tokens n = 0) : Inv fc' := by
  have hcached : ∀ n, fc'.Cached n ↔ fc.Cached n := fun n => by rw [Cache.Cached, Cache.Cached, htree, hname]
  constructor
  · intro x n hx
    rw [hname]
    exact h.name x n (htree ▸ hx)
  · intro n
    have hold := h.count n
    have hstep := hcount n
    simp only [hcached]
    omega
  · exact fun n => (htokens n).trans (h.tokens n)
  · intro n hn
    rw [hcached, huncached]
    refine (h.busy n (hn.trans_le (htokens n))).imp_right (Or.imp_right fun ⟨c, hc⟩ => ⟨c, ?_⟩)
    exact (hinserted c n hc).resolve_right hn.ne'
  · intro n hn
    rw [hcached]
    exact h.gone n (huncached ▸ hn)
  · intro c n hc
    rw [hcached, huncached]
    exact h.inserting c n (hinserting c n hc)
  · intro n hn
    obtain ⟨hrefs0, htokens0, hcached0, huncached0⟩ := h.fresh n (hnext ▸ hn)
    refine ⟨?_, ?_, (hcached n).not.mpr hcached0, huncached ▸ huncached0⟩
    · by_contra hne
      rcases hrefs n (Nat.pos_of_ne_zero hne) with hpos | hpos | hpos
      · exact hpos.ne' hrefs0
      · exact hpos.ne' htokens0
      · exact hcached0 hpos
    · exact Nat.le_zero.mp ((htokens n).trans_eq htokens0)

/-! ## Steps of `file_cache_get` -/

theorem refs_congr (hcallers : fc'.callers = fc.callers) (hfilemon : fc'.filemon = fc.filemon) :
    fc'.refs m = fc.refs m := by
  rw [Cache.refs, Cache.refs, hcallers, hfilemon]

theorem tokens_congr (hcallers : fc'.callers = fc.callers) (hfilemon : fc'.filemon = fc.filemon)
    (hpending : fc'.pending = fc.pending) : fc'.tokens m = fc.tokens m := by
  rw [Cache.tokens, Cache.tokens, hcallers, hfilemon, hpending]

theorem inserting_tokens (h : fc.callers c = .inserting n) : 1 ≤ fc.tokens n := by
  have hle := le_total fc.callers c (Caller.tokens n)
  rw [h] at hle
  have hone : (Caller.inserting n : Caller α).tokens n = 1 := if_pos rfl
  rw [Cache.tokens]
  omega

/-- A caller goes on, and not to insert a node. -/
theorem Inv.move {v : Caller α} (h : Inv fc) (htree : fc'.tree = fc.tree) (huncached : fc'.uncached = fc.uncached)
    (hnext : fc'.next = fc.next) (hpending : fc'.pending = fc.pending) (hfilemon : fc'.filemon = fc.filemon)
    (hcallers : fc'.callers = Function.update fc.callers c v) (hname : ∀ n, (fc'.nodes n).name = (fc.nodes n).name)
    (hcount : ∀ n, (fc'.nodes n).refcnt + (fc.callers c).refs n = (fc.nodes n).refcnt + v.refs n)
    (htokens : ∀ n, v.tokens n = 0) (hrefs : ∀ n, 0 < v.refs n → 0 < (fc.callers c).refs n ∨ fc.Cached n)
    (hv : ∀ n, v ≠ .inserting n) : Inv fc' := by
  have hrefs' : ∀ n, fc'.refs n + (fc.callers c).refs n = fc.refs n + v.refs n := by
    intro n
    have hsame : fc'.refs n = (fc.setCaller c v).refs n := refs_congr hcallers hfilemon
    rw [hsame, refs_setCaller]
  have htokens' : ∀ n, fc'.tokens n + (fc.callers c).tokens n = fc.tokens n := by
    intro n
    have hsame : fc'.tokens n = (fc.setCaller c v).tokens n := tokens_congr hcallers hfilemon hpending
    rw [hsame, tokens_setCaller, htokens, Nat.add_zero]
  refine h.same htree huncached hnext hname (fun n => ?_) (fun n => ?_) (fun n hn => ?_) (fun c' n hc' => ?_)
    fun c' n hc' => ?_
  · have := hcount n
    have := hrefs' n
    omega
  · have := htokens' n
    omega
  · have hle := le_total fc.callers c (Caller.refs n)
    have hstep := hrefs' n
    rcases Nat.eq_zero_or_pos (v.refs n) with hzero | hpos
    · exact .inl (by omega)
    · refine (hrefs n hpos).imp (fun hold => hold.trans_le (hle.trans (Nat.le_add_right _ _))) .inr
  · rw [hcallers] at hc'
    rcases eq_or_ne c' c with rfl | hne
    · rw [Function.update_self] at hc'
      exact absurd hc' (hv n)
    · rwa [Function.update_of_ne hne] at hc'
  · rcases eq_or_ne c' c with rfl | hne
    · right
      have hstep := htokens' n
      have hone : (Caller.inserting n : Caller α).tokens n = 1 := if_pos rfl
      have hle := h.tokens n
      rw [hc', hone] at hstep
      omega
    · left
      rw [hcallers, Function.update_of_ne hne]
      exact hc'

/-- Two callers never insert the same node. -/
theorem Inv.inserting_unique (h : Inv fc) {c' : C} (hc : fc.callers c = .inserting n)
    (hc' : fc.callers c' = .inserting n) : c = c' := by
  by_contra hne
  have hle := add_le_total fc.callers hne (Caller.tokens n)
  have hone : (Caller.inserting n : Caller α).tokens n = 1 := if_pos rfl
  have htokens := h.tokens n
  rw [hc, hc', hone] at hle
  rw [Cache.tokens] at htokens
  omega

theorem refcnt_setNode (node : FileNode α β) :
    ((fc.setNode n node).nodes m).refcnt = if m = n then node.refcnt else (fc.nodes m).refcnt := by
  change (Function.update fc.nodes n node m).refcnt = _
  rw [Function.update_apply]
  split <;> rfl

theorem name_setNode (node : FileNode α β) (h : node.name = (fc.nodes n).name) :
    ((fc.setNode n node).nodes m).name = (fc.nodes m).name := by
  change (Function.update fc.nodes n node m).name = _
  rw [Function.update_apply]
  split
  · next heq => rw [heq, h]
  · rfl

theorem weight_self (k : Nat) : weight n n k = k := if_pos rfl

theorem weight_ne (h : n ≠ m) (k : Nat) : weight n m k = 0 := if_neg h

theorem refcnt_getref : ((fc.getref n).nodes m).refcnt = (fc.nodes m).refcnt + weight n m 1 := by
  rw [Cache.getref, refcnt_setNode]
  rcases eq_or_ne m n with rfl | hne
  · rw [if_pos rfl, weight_self]
  · rw [if_neg hne, weight_ne hne.symm, Nat.add_zero]

theorem refcnt_putref (h : 0 < (fc.nodes n).refcnt) :
    ((fc.putref n).nodes m).refcnt + weight n m 1 = (fc.nodes m).refcnt := by
  rw [Cache.putref, refcnt_setNode]
  rcases eq_or_ne m n with rfl | hne
  · rw [if_pos rfl, weight_self]
    exact Nat.sub_add_cancel h
  · rw [if_neg hne, weight_ne hne.symm, Nat.add_zero]

theorem name_getref : ((fc.getref n).nodes m).name = (fc.nodes m).name := name_setNode _ rfl

theorem name_putref : ((fc.putref n).nodes m).name = (fc.nodes m).name := name_setNode _ rfl

/-- A reference that a caller has is counted. -/
theorem Inv.refcnt_pos (h : Inv fc) (hrefs : 0 < (fc.callers c).refs n) : 0 < (fc.nodes n).refcnt := by
  have hle := le_total fc.callers c (Caller.refs n)
  have hcount := h.count n
  rw [Cache.refs] at hcount
  omega

theorem Inv.cached_of_tree (h : Inv fc) (htree : fc.tree name = some n) : fc.Cached n := by
  rw [Cache.Cached, h.name name n htree, htree]

theorem find_inv (h : Inv fc) (hc : fc.callers c = .finding name) : Inv (getFind fc c name) := by
  have hold : ∀ n, (fc.callers c).refs n = 0 := fun n => by rw [hc]; rfl
  rw [getFind]
  cases htree : fc.tree name with
  | none =>
    exact h.move rfl rfl rfl rfl rfl rfl (fun _ => rfl) (fun n => by rw [hold]; rfl) (fun _ => rfl)
      (fun _ hpos => nomatch hpos) nofun
  | some out =>
    refine h.move rfl rfl rfl rfl rfl rfl (fun n => name_getref) (fun n => ?_) (fun _ => rfl) (fun n hpos => ?_) nofun
    · rw [hold]
      exact refcnt_getref
    · rcases eq_or_ne out n with rfl | hne
      · exact .inr (h.cached_of_tree htree)
      · exact absurd (weight_ne hne 1) hpos.ne'

theorem reload_node (node : FileNode α β) (revision : UInt64) (r : Except Errno β) :
    (reload node revision r).2.1.name = node.name ∧ (reload node revision r).2.1.refcnt = node.refcnt := by
  unfold reload
  split
  · exact ⟨rfl, rfl⟩
  · cases r <;> exact ⟨rfl, rfl⟩

theorem output_inv {r : Except Errno β} (h : Inv fc) (hc : fc.callers c = .output n) : Inv (getOutput fc c n r).2 := by
  obtain ⟨hname, hrefcnt⟩ := reload_node (fc.nodes n) fc.revision r
  refine h.move rfl rfl rfl rfl rfl rfl (fun m => name_setNode _ hname) (fun m => ?_) (fun _ => rfl)
    (fun m hpos => .inl ?_) nofun
  · have hsame : ((fc.setNode n (reload (fc.nodes n) fc.revision r).2.1).nodes m).refcnt = (fc.nodes m).refcnt := by
      rw [refcnt_setNode, hrefcnt]
      split
      · next heq => rw [heq]
      · rfl
    rw [hc]
    exact congrArg (· + weight n m 1) hsame
  · rw [hc]
    exact hpos

theorem release_inv (h : Inv fc) (hc : fc.callers c = .releasing n) : Inv (getRelease fc c n) := by
  have hrefs : (fc.callers c).refs n = 1 := by
    rw [hc]
    exact weight_self 1
  refine h.move rfl rfl rfl rfl rfl rfl (fun m => name_putref) (fun m => ?_) (fun _ => rfl) (fun _ hpos => nomatch hpos) nofun
  rw [hc]
  exact refcnt_putref (h.refcnt_pos (hrefs ▸ Nat.one_pos))

theorem call_inv (h : Inv fc) (hc : fc.callers c = .outside) : Inv (fc.setCaller c (.finding name)) :=
  h.move rfl rfl rfl rfl rfl rfl (fun _ => rfl) (fun n => by rw [hc]; rfl) (fun _ => rfl) (fun _ hpos => nomatch hpos) nofun

theorem load_inv {r : Load β} (h : Inv fc) (hc : fc.callers c = .loading name) : Inv (loadFile fc c name r) := by
  cases r with
  | noMemory =>
    exact h.move rfl rfl rfl rfl rfl rfl (fun _ => rfl) (fun n => by rw [hc]; rfl) (fun _ => rfl)
      (fun _ hpos => nomatch hpos) nofun
  | unreadable =>
    exact h.move rfl rfl rfl rfl rfl rfl (fun _ => rfl) (fun n => by rw [hc]; rfl) (fun _ => rfl)
      (fun _ hpos => nomatch hpos) nofun
  | contents b =>
    obtain ⟨hrefs0, htokens0, hcached0, huncached0⟩ := h.fresh fc.next le_rfl
    generalize hfc' : loadFile fc c name (.contents b) = fc'
    have hnode : ∀ n, n ≠ fc.next → fc'.nodes n = fc.nodes n := fun n hne => hfc' ▸ Function.update_of_ne hne _ _
    have hself : (fc'.nodes fc.next).refcnt = 1 := by
      rw [← hfc']
      exact congrArg FileNode.refcnt (Function.update_self fc.next _ fc.nodes)
    have htree : fc'.tree = fc.tree := hfc' ▸ rfl
    have hcallers : fc'.callers = Function.update fc.callers c (.inserting fc.next) := hfc' ▸ rfl
    have huncached : fc'.uncached = fc.uncached := hfc' ▸ rfl
    have hnext : fc'.next = fc.next + 1 := hfc' ▸ rfl
    have hnot : ∀ x, fc.tree x ≠ some fc.next := fun x hx => hcached0 (h.cached_of_tree hx)
    have hcached : ∀ n, fc'.Cached n ↔ fc.Cached n := by
      intro n
      rw [Cache.Cached, htree]
      rcases eq_or_ne n fc.next with rfl | hne
      · exact iff_of_false (hnot _) hcached0
      · rw [hnode n hne, Cache.Cached]
    have hrefs : ∀ n, fc'.refs n = fc.refs n + weight fc.next n 1 := by
      intro n
      have hset := refs_setCaller fc c (.inserting fc.next) n
      rw [hc] at hset
      have hsame : fc'.refs n = (fc.setCaller c (.inserting fc.next)).refs n := refs_congr hcallers (hfc' ▸ rfl)
      exact hsame.trans hset
    have htokens : ∀ n, fc'.tokens n = fc.tokens n + weight fc.next n 1 := by
      intro n
      have hset := tokens_setCaller fc c (.inserting fc.next) n
      rw [hc] at hset
      have hsame : fc'.tokens n = (fc.setCaller c (.inserting fc.next)).tokens n :=
        tokens_congr hcallers (hfc' ▸ rfl) (hfc' ▸ rfl)
      exact hsame.trans hset
    constructor
    · intro x n hx
      rw [htree] at hx
      rw [hnode n fun heq => hnot x (heq ▸ hx)]
      exact h.name x n hx
    · intro n
      simp only [hcached]
      rcases eq_or_ne n fc.next with rfl | hne
      · rw [hself, hrefs, hrefs0, weight_self, if_neg hcached0]
      · rw [hnode n hne, hrefs, weight_ne hne.symm]
        exact h.count n
    · intro n
      rcases eq_or_ne n fc.next with rfl | hne
      · rw [htokens, htokens0, weight_self]
      · rw [htokens, weight_ne hne.symm]
        exact h.tokens n
    · intro n hn
      rw [hcached, huncached]
      rcases eq_or_ne n fc.next with rfl | hne
      · exact .inr (.inr ⟨c, by rw [hcallers, Function.update_self]⟩)
      · rw [htokens, weight_ne hne.symm] at hn
        refine (h.busy n hn).imp_right (Or.imp_right fun ⟨c', hc'⟩ => ⟨c', ?_⟩)
        rw [hcallers, Function.update_of_ne]
        · exact hc'
        · rintro rfl
          rw [hc] at hc'
          cases hc'
    · intro n hn
      rw [hcached]
      exact h.gone n (huncached ▸ hn)
    · intro c' n hc'
      rw [hcached, huncached]
      rw [hcallers] at hc'
      rcases eq_or_ne c' c with rfl | hne
      · rw [Function.update_self] at hc'
        cases hc'
        exact ⟨hcached0, huncached0⟩
      · rw [Function.update_of_ne hne] at hc'
        exact h.inserting c' n hc'
    · intro n hn
      rw [hnext] at hn
      have hne : fc.next ≠ n := by omega
      rw [hcached, huncached, hrefs, htokens, weight_ne hne]
      exact h.fresh n (by omega)

theorem insert_inv (h : Inv fc) (hc : fc.callers c = .inserting n) : Inv (getInsert fc c n) := by
  obtain ⟨hnot, huncached⟩ := h.inserting c n hc
  have hrefs : (fc.callers c).refs n = 1 := by
    rw [hc]
    exact weight_self 1
  rw [getInsert]
  cases htree : fc.tree (fc.nodes n).name with
  | some tmp =>
    have hcached := h.cached_of_tree htree
    have hpos : 0 < ((fc.getref tmp).nodes n).refcnt := by
      rw [refcnt_getref]
      exact Nat.add_pos_left (h.refcnt_pos (hrefs ▸ Nat.one_pos)) _
    refine h.move rfl rfl rfl rfl rfl rfl (fun m => name_putref.trans name_getref) (fun m => ?_) (fun _ => rfl)
      (fun m hm => ?_) nofun
    · have hput := @refcnt_putref α β C _ _ _ (fc.getref tmp) n m hpos
      rw [refcnt_getref] at hput
      rw [hc]
      exact hput
    · rcases eq_or_ne tmp m with rfl | hne
      · exact .inr hcached
      · exact absurd (weight_ne hne 1) hm.ne'
  | none =>
    dsimp only
    generalize hfc' : Cache.setCaller _ c (.processing (.start .none) n) = fc'
    have htree' : fc'.tree = Function.update fc.tree (fc.nodes n).name (some n) := hfc' ▸ rfl
    have hcallers : fc'.callers = Function.update fc.callers c (.processing (.start .none) n) := hfc' ▸ rfl
    have huncached' : fc'.uncached = fc.uncached := hfc' ▸ rfl
    have hname : ∀ m, (fc'.nodes m).name = (fc.nodes m).name := fun m => hfc' ▸ name_getref
    have hrefcnt : ∀ m, (fc'.nodes m).refcnt = (fc.nodes m).refcnt + weight n m 1 := fun m => hfc' ▸ refcnt_getref
    have hrefs' : ∀ m, fc'.refs m = fc.refs m := by
      intro m
      have hset := refs_setCaller fc c (.processing (.start .none) n) m
      rw [hc] at hset
      have hsame : fc'.refs m = (fc.setCaller c (.processing (.start .none) n)).refs m :=
        refs_congr hcallers (hfc' ▸ rfl)
      exact hsame.trans (Nat.add_right_cancel hset)
    have htokens : ∀ m, fc'.tokens m = fc.tokens m := by
      intro m
      have hset := tokens_setCaller fc c (.processing (.start .none) n) m
      rw [hc] at hset
      have hsame : fc'.tokens m = (fc.setCaller c (.processing (.start .none) n)).tokens m :=
        tokens_congr hcallers (hfc' ▸ rfl) (hfc' ▸ rfl)
      exact hsame.trans (Nat.add_right_cancel hset)
    have hself : fc'.Cached n := by rw [Cache.Cached, htree', hname, Function.update_self]
    have hcached : ∀ m, m ≠ n → (fc'.Cached m ↔ fc.Cached m) := by
      intro m hne
      rw [Cache.Cached, htree', hname, Cache.Cached]
      by_cases heq : (fc.nodes m).name = (fc.nodes n).name
      · rw [heq, Function.update_self, htree]
        exact iff_of_false (fun hsome => hne (Option.some.inj hsome).symm) nofun
      · rw [Function.update_of_ne heq]
    have hother : ∀ c' m, fc'.callers c' = .inserting m → c' ≠ c ∧ fc.callers c' = .inserting m := by
      intro c' m hc'
      rw [hcallers] at hc'
      rcases eq_or_ne c' c with rfl | hne
      · rw [Function.update_self] at hc'
        cases hc'
      · rw [Function.update_of_ne hne] at hc'
        exact ⟨hne, hc'⟩
    constructor
    · intro x m hx
      rw [hname]
      rw [htree'] at hx
      rcases eq_or_ne x (fc.nodes n).name with rfl | hne
      · rw [Function.update_self] at hx
        rw [Option.some.inj hx]
      · rw [Function.update_of_ne hne] at hx
        exact h.name x m hx
    · intro m
      have hcount := h.count m
      rw [hrefcnt, hrefs']
      rcases eq_or_ne m n with rfl | hne
      · rw [if_neg hnot] at hcount
        rw [if_pos hself, weight_self, hcount]
      · rw [weight_ne hne.symm, hcount]
        simp only [hcached m hne, Nat.add_zero]
    · intro m
      rw [htokens]
      exact h.tokens m
    · intro m hm
      rcases eq_or_ne m n with rfl | hne
      · exact .inl hself
      · rw [htokens] at hm
        rw [hcached m hne, huncached']
        refine (h.busy m hm).imp_right (Or.imp_right fun ⟨c', hc'⟩ => ⟨c', ?_⟩)
        rw [hcallers, Function.update_of_ne]
        · exact hc'
        · rintro rfl
          rw [hc] at hc'
          exact hne (Caller.inserting.inj hc').symm
    · intro m hm
      rw [huncached'] at hm
      have hne : m ≠ n := by
        rintro rfl
        rw [huncached] at hm
        cases hm
      rw [hcached m hne]
      exact h.gone m hm
    · intro c' m hc'
      obtain ⟨hc'', hins⟩ := hother c' m hc'
      have hne : m ≠ n := by
        rintro rfl
        exact hc'' (h.inserting_unique hins hc)
      rw [hcached m hne, huncached']
      exact h.inserting c' m hins
    · intro m hm
      have hfresh := h.fresh m ((hfc' ▸ rfl : fc'.next = fc.next) ▸ hm)
      have hne : m ≠ n := by
        rintro rfl
        have hone := inserting_tokens hc
        omega
      rw [hrefs', htokens, hcached m hne, huncached']
      exact hfresh

end Libjeffpc.FileCache
