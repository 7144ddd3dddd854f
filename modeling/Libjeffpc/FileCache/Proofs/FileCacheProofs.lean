import Libjeffpc.FileCache.Proofs.EventPortProofs

/-!
# Runs of the file cache

`process_file` comes to a dead node, or to one that is not in the tree, exactly when `uncache_all_files` has taken
the node out of the tree before.
-/

set_option linter.unusedSectionVars false

namespace Libjeffpc.FileCache

open Lib Lib.Threads

variable {α β C : Type} [DecidableEq α] [DecidableEq C] [Fintype C] {fc fc' : Cache α β C} {who : Option C} {c : C}
  {phase phase' : Phase} {events : Events} {n m : Nat} {name : α}

/-! ## Steps of `process_file` -/

theorem process_refs_le (hp : fc.process who = some (phase, n)) : phase.extra ≤ fc.refs n := by
  obtain ⟨hleave, -⟩ := leave_weights hp n
  rw [processRefs, weight_self, weight_self] at hleave
  omega

/-- A thread in `process_file` has the token of the node. -/
theorem Inv.token (h : Inv fc) (hp : fc.process who = some (phase, n)) (hphase : phase ≠ .drop) :
    fc.pending n = false ∧ (fc.Cached n ∨ fc.uncached n = true) := by
  have hone : processTokens phase n n = 1 := by
    cases phase with
    | drop => exact absurd rfl hphase
    | _ => exact weight_self 1
  obtain ⟨-, hdrop⟩ := setPhase_weights hp .drop n
  have hle := h.tokens n
  have hzero : (fc.setPhase who .drop n).tokens n = 0 := by
    rw [hone, show processTokens .drop n n = 0 from rfl] at hdrop
    omega
  have hbusy := h.busy n (by rw [hone, show processTokens .drop n n = 0 from rfl] at hdrop; omega)
  constructor
  · have hpending : (fc.setPhase who .drop n).pending = fc.pending := by cases who <;> rfl
    rw [Cache.tokens, hpending] at hzero
    by_contra htrue
    rw [if_pos (Bool.not_eq_false _ ▸ htrue)] at hzero
    omega
  · refine hbusy.imp_right fun hrest => hrest.resolve_right ?_
    rintro ⟨c, hc⟩
    have hins := inserting_tokens ((inserting_setPhase hp).mpr hc : (fc.setPhase who .drop n).callers c = .inserting n)
    omega

theorem event_inv (h : Inv fc) (hf : fc.filemon = .waiting) (hn : fc.pending n = true) :
    Inv { fc with pending := Function.update fc.pending n false, filemon := .processing (.start events) n } := by
  generalize hfc' : ({ fc with
    pending := Function.update fc.pending n false
    filemon := .processing (.start events) n } : Cache α β C) = fc'
  have htokens : ∀ m, fc'.tokens m = fc.tokens m := by
    intro m
    rw [← hfc', Cache.tokens, Cache.tokens, hf]
    change _ + weight n m 1 + (if Function.update fc.pending n false m then 1 else 0) = _ + 0 + _
    rcases eq_or_ne m n with rfl | hne
    · rw [weight_self, Function.update_self, hn]
      rfl
    · rw [weight_ne hne.symm, Function.update_of_ne hne]
  have hrefs : ∀ m, fc'.refs m = fc.refs m := by
    intro m
    rw [← hfc', Cache.refs, Cache.refs, hf]
    rfl
  refine h.same (hfc' ▸ rfl) (hfc' ▸ rfl) (hfc' ▸ rfl) (fun _ => hfc' ▸ rfl) (fun m => ?_) (fun m => (htokens m).le)
    (fun m hm => .inl (hrefs m ▸ hm)) (fun _ _ hc => ?_) fun _ _ hc => .inl (hfc' ▸ hc)
  · rw [hrefs, ← hfc']
  · rw [← hfc'] at hc
    exact hc

/-- A thread goes on in `process_file` with the lock of the node. -/
theorem Inv.setPhase {node : FileNode α β} (h : Inv fc) (hp : fc.process who = some (phase, n))
    (hrefs : processRefs who.isSome phase n = processRefs who.isSome phase' n)
    (htokens : processTokens phase n = processTokens phase' n) (hname : node.name = (fc.nodes n).name)
    (hrefcnt : node.refcnt = (fc.nodes n).refcnt) : Inv ((fc.setNode n node).setPhase who phase' n) := by
  have hweights := fun m => @setPhase_weights _ _ _ _ _ _ (fc.setNode n node) who phase n hp phase' m
  have hrefs' : ∀ m, ((fc.setNode n node).setPhase who phase' n).refs m = fc.refs m := fun m => by
    have hstep := (hweights m).1
    rw [hrefs] at hstep
    exact Nat.add_right_cancel hstep
  have htokens' : ∀ m, ((fc.setNode n node).setPhase who phase' n).tokens m = fc.tokens m := fun m => by
    have hstep := (hweights m).2
    rw [htokens] at hstep
    exact Nat.add_right_cancel hstep
  refine h.same rfl rfl rfl (fun m => name_setNode _ hname) (fun m => ?_) (fun m => (htokens' m).le)
    (fun m hm => .inl (hrefs' m ▸ hm)) (fun c m hc => ?_) fun c m hc => .inl ?_
  · rw [hrefs']
    refine congrArg (· + fc.refs m) ((refcnt_setNode _).trans ?_)
    split
    · next heq => rw [heq, hrefcnt]
    · rfl
  · exact (@inserting_setPhase _ _ _ _ _ _ (fc.setNode n node) who c phase phase' n m hp).mp hc
  · exact (@inserting_setPhase _ _ _ _ _ _ (fc.setNode n node) who c phase phase' n m hp).mpr hc

/-- A thread leaves `process_file` with an association for the node. -/
theorem Inv.register {node : FileNode α β} (h : Inv fc) (hp : fc.process who = some (.start events, n))
    (hname : node.name = (fc.nodes n).name) (hrefcnt : node.refcnt = (fc.nodes n).refcnt) :
    Inv (({ fc.setNode n node with pending := Function.update fc.pending n true } : Cache α β C).leave who n) := by
  obtain ⟨hpending, -⟩ := h.token hp nofun
  generalize hfc₀ : ({ fc.setNode n node with pending := Function.update fc.pending n true } : Cache α β C) = fc₀
  have hp₀ : fc₀.process who = some (.start events, n) := hfc₀ ▸ hp
  have hrefs : ∀ m, (fc₀.leave who n).refs m = fc.refs m := by
    intro m
    have hstep := (leave_weights hp₀ m).1
    have hsame : fc₀.refs m = fc.refs m := hfc₀ ▸ rfl
    rw [hsame] at hstep
    exact Nat.add_right_cancel hstep
  have htokens : ∀ m, (fc₀.leave who n).tokens m = fc.tokens m := by
    intro m
    have hstep := (leave_weights hp₀ m).2
    have hmore : fc₀.tokens m = fc.tokens m + weight n m 1 := by
      rw [← hfc₀, Cache.tokens, Cache.tokens]
      change _ + _ + (if Function.update fc.pending n true m then 1 else 0) = _
      rcases eq_or_ne m n with rfl | hne
      · rw [Function.update_self, hpending, weight_self]
        rfl
      · rw [Function.update_of_ne hne, weight_ne hne.symm]
        rfl
    rw [hmore] at hstep
    exact Nat.add_right_cancel hstep
  refine h.same (hfc₀ ▸ rfl) (hfc₀ ▸ rfl) (hfc₀ ▸ rfl) (fun m => ?_) (fun m => ?_) (fun m => (htokens m).le)
    (fun m hm => .inl (hrefs m ▸ hm)) (fun c m hc => ?_) fun c m hc => .inl ?_
  · rw [← hfc₀]
    exact name_setNode _ hname
  · have hnode : ((fc₀.leave who n).nodes m).refcnt = (fc.nodes m).refcnt := by
      rw [← hfc₀]
      refine (refcnt_setNode _).trans ?_
      split
      · next heq => rw [heq, hrefcnt]
      · rfl
    rw [hrefs, hnode]
  · have hold := (inserting_leave hp₀).mp hc
    rw [← hfc₀] at hold
    exact hold
  · rw [inserting_leave hp₀, ← hfc₀]
    exact hc

theorem start_inv {statOk associateOk : Bool} (h : Inv fc) (hp : fc.process who = some (.start events, n)) :
    Inv (processStart fc who n events statOk associateOk) := by
  have hfree : ∀ node : FileNode α β, node.name = (fc.nodes n).name → node.refcnt = (fc.nodes n).refcnt →
      Inv ((fc.setNode n node).setPhase who .remove n) := fun node => h.setPhase hp rfl rfl
  have hregister : ∀ node : FileNode α β, node.name = (fc.nodes n).name → node.refcnt = (fc.nodes n).refcnt →
      Inv (({ fc.setNode n node with pending := Function.update fc.pending n true } : Cache α β C).leave who n) :=
    fun node => h.register hp
  unfold processStart
  cases events with
  | exception => exact hfree _ rfl rfl
  | changed =>
    cases statOk with
    | false => exact hfree _ rfl rfl
    | true =>
      cases associateOk with
      | false => exact hfree _ rfl rfl
      | true => exact hregister _ rfl rfl
  | none =>
    cases statOk with
    | false => exact hfree _ rfl rfl
    | true =>
      cases associateOk with
      | false => exact hfree _ rfl rfl
      | true => exact hregister _ rfl rfl

theorem drop_inv (h : Inv fc) (hp : fc.process who = some (.drop, n)) : Inv (processDrop fc who n) := by
  have hpos : 0 < (fc.nodes n).refcnt := by
    have hle := process_refs_le hp
    have hcount := h.count n
    rw [Phase.extra] at hle
    omega
  have hweights := fun m => @leave_weights _ _ _ _ _ _ (fc.putref n) who .drop n hp m
  have htokens : ∀ m, (processDrop fc who n).tokens m = fc.tokens m := fun m => (hweights m).2
  have hrefs : ∀ m, (processDrop fc who n).refs m + weight n m 1 = fc.refs m := by
    intro m
    have hstep := (hweights m).1
    rw [processRefs, Phase.extra] at hstep
    rcases eq_or_ne m n with rfl | hne
    · rw [weight_self, weight_self, Nat.add_comm _ 1, ← Nat.add_assoc] at hstep
      rw [weight_self]
      exact Nat.add_right_cancel hstep
    · rw [weight_ne hne.symm, weight_ne hne.symm] at hstep
      rw [weight_ne hne.symm]
      exact hstep
  refine h.same rfl rfl rfl (fun m => name_putref) (fun m => ?_) (fun m => (htokens m).le)
    (fun m hm => .inl (hm.trans_le ?_)) (fun c m hc => ?_) fun c m hc => .inl ?_
  · have hput := @refcnt_putref _ _ _ _ _ _ fc n m hpos
    have hstep := hrefs m
    change ((fc.putref n).nodes m).refcnt + _ = _
    omega
  · have hstep := hrefs m
    omega
  · exact (@inserting_leave _ _ _ _ _ _ (fc.putref n) who c .drop n m hp).mp hc
  · exact (@inserting_leave _ _ _ _ _ _ (fc.putref n) who c .drop n m hp).mpr hc

theorem remove_inv (h : Inv fc) (hp : fc.process who = some (.remove, n)) (hcached : fc.Cached n) :
    Inv (processRemove fc who n) := by
  generalize hfc' : processRemove fc who n = fc'
  have htree : fc'.tree = Function.update fc.tree (fc.nodes n).name none := hfc' ▸ rfl
  have huncached : fc'.uncached = fc.uncached := hfc' ▸ rfl
  have hnext : fc'.next = fc.next := hfc' ▸ rfl
  have hname : ∀ m, (fc'.nodes m).name = (fc.nodes m).name := fun m => by
    rw [← hfc']
    exact name_setNode _ rfl
  have hrefcnt : ∀ m, (fc'.nodes m).refcnt = (fc.nodes m).refcnt := by
    intro m
    rw [← hfc']
    refine (refcnt_setNode _).trans ?_
    split
    · next heq => rw [heq]
    · rfl
  have hweights : ∀ m, fc'.refs m + processRefs who.isSome .remove n m = fc.refs m + processRefs who.isSome .drop n m ∧
      fc'.tokens m + processTokens .remove n m = fc.tokens m + processTokens .drop n m := by
    intro m
    rw [← hfc']
    exact @setPhase_weights _ _ _ _ _ _ (({ fc with tree := _ } : Cache α β C).setNode n _) who .remove n hp .drop m
  have hrefs : ∀ m, fc'.refs m = fc.refs m + weight n m 1 := by
    intro m
    have hstep : fc'.refs m + weight n m who.isSome.toNat = fc.refs m + weight n m (who.isSome.toNat + 1) :=
      (hweights m).1
    rcases eq_or_ne m n with rfl | hne
    · rw [weight_self, weight_self] at hstep
      rw [weight_self]
      omega
    · rw [weight_ne hne.symm, weight_ne hne.symm] at hstep
      rw [weight_ne hne.symm]
      exact hstep
  have htokens : ∀ m, fc'.tokens m + weight n m 1 = fc.tokens m := fun m => (hweights m).2
  have hself : ¬fc'.Cached n := by
    rw [Cache.Cached, htree, hname, Function.update_self]
    rintro ⟨⟩
  have hother : ∀ m, m ≠ n → (fc'.Cached m ↔ fc.Cached m) := by
    intro m hne
    rw [Cache.Cached, htree, hname, Cache.Cached]
    by_cases heq : (fc.nodes m).name = (fc.nodes n).name
    · rw [heq, Function.update_self, hcached]
      exact iff_of_false (by rintro ⟨⟩) fun hsome => hne (Option.some.inj hsome).symm
    · rw [Function.update_of_ne heq]
  have hnot : fc.uncached n = false := by
    by_contra htrue
    exact h.gone n (Bool.not_eq_false _ ▸ htrue) hcached
  have hinserting : ∀ c m, fc'.callers c = .inserting m ↔ fc.callers c = .inserting m := by
    intro c m
    rw [← hfc']
    exact @inserting_setPhase _ _ _ _ _ _ (({ fc with tree := _ } : Cache α β C).setNode n _) who c .remove .drop n m hp
  constructor
  · intro x m hx
    rw [hname]
    rw [htree] at hx
    rcases eq_or_ne x (fc.nodes n).name with rfl | hne
    · rw [Function.update_self] at hx
      cases hx
    · rw [Function.update_of_ne hne] at hx
      exact h.name x m hx
  · intro m
    have hcount := h.count m
    rw [hrefcnt, hrefs, hcount]
    rcases eq_or_ne m n with rfl | hne
    · rw [if_pos hcached, if_neg hself, weight_self]
    · rw [weight_ne hne.symm]
      simp only [hother m hne, Nat.add_zero]
  · intro m
    have hold := h.tokens m
    have hstep := htokens m
    omega
  · intro m hm
    have hstep := htokens m
    rcases eq_or_ne m n with rfl | hne
    · have hle := h.tokens m
      rw [weight_self] at hstep
      omega
    · rw [hother m hne, huncached]
      rw [weight_ne hne.symm] at hstep
      exact (h.busy m (by omega)).imp_right (Or.imp_right (Exists.imp fun c hc => (hinserting c m).mpr hc))
  · intro m hm
    rw [huncached] at hm
    rcases eq_or_ne m n with rfl | hne
    · exact hself
    · rw [hother m hne]
      exact h.gone m hm
  · intro c m hc
    obtain ⟨hnotcached, hfalse⟩ := h.inserting c m ((hinserting c m).mp hc)
    have hne : m ≠ n := by
      rintro rfl
      exact hnotcached hcached
    rw [hother m hne, huncached]
    exact ⟨hnotcached, hfalse⟩
  · intro m hm
    obtain ⟨hrefs0, htokens0, hcached0, huncached0⟩ := h.fresh m (hnext ▸ hm)
    have hne : m ≠ n := by
      rintro rfl
      exact hcached0 hcached
    have hstep := htokens m
    rw [hrefs, hother m hne, huncached, weight_ne hne.symm]
    exact ⟨hrefs0, by omega, hcached0, huncached0⟩

theorem uncache_inv (h : Inv fc) : Inv (uncacheAllFiles fc) := by
  have hname : ∀ m, ((uncacheAllFiles fc).nodes m).name = (fc.nodes m).name := by
    intro m
    change (if fc.Cached m then _ else fc.nodes m : FileNode α β).name = _
    split <;> rfl
  have hnot : ∀ m, ¬(uncacheAllFiles fc).Cached m := nofun
  constructor
  · nofun
  · intro m
    have hcount := h.count m
    have hrefcnt : ((uncacheAllFiles fc).nodes m).refcnt =
        (fc.nodes m).refcnt - if fc.Cached m then 1 else 0 := by
      change (if fc.Cached m then _ else fc.nodes m : FileNode α β).refcnt = _
      split <;> rfl
    rw [hrefcnt, if_neg (hnot m), hcount]
    exact Nat.add_sub_cancel _ _
  · exact h.tokens
  · intro m hm
    refine .inr ?_
    rcases h.busy m hm with hcached | huncached | hins
    · exact .inl (Bool.or_eq_true_iff.mpr (.inr (decide_eq_true hcached)))
    · exact .inl (Bool.or_eq_true_iff.mpr (.inl huncached))
    · exact .inr hins
  · exact fun m _ => hnot m
  · intro c m hc
    obtain ⟨hcached, huncached⟩ := h.inserting c m hc
    exact ⟨hnot m, Bool.or_eq_false_iff.mpr ⟨huncached, decide_eq_false hcached⟩⟩
  · intro m hm
    obtain ⟨hrefs, htokens, hcached, huncached⟩ := h.fresh m hm
    exact ⟨hrefs, htokens, hnot m, Bool.or_eq_false_iff.mpr ⟨huncached, decide_eq_false hcached⟩⟩

/-! ## Runs -/

theorem init_inv {nodes : Nat → FileNode α β} {revision : UInt64} : Inv (fileCacheInit nodes revision : Cache α β C) := by
  have hrefs : ∀ n, (fileCacheInit nodes revision : Cache α β C).refs n = 0 := fun n => Finset.sum_const_zero
  have htokens : ∀ n, (fileCacheInit nodes revision : Cache α β C).tokens n = 0 := fun n => Finset.sum_const_zero
  constructor
  · nofun
  · intro n
    rw [hrefs]
    rfl
  · intro n
    rw [htokens]
    exact Nat.zero_le 1
  · intro n hn
    rw [htokens] at hn
    cases hn
  · nofun
  · nofun
  · exact fun n _ => ⟨hrefs n, htokens n, nofun, rfl⟩

theorem step_inv {act : Act α β C} (h : Inv fc) (hact : Undisturbed fc act) (hs : Step fc act fc') : Inv fc' := by
  cases hs with
  | call hc => exact call_inv h hc
  | find hc => exact find_inv h hc
  | load hc => exact load_inv h hc
  | insert hc => exact insert_inv h hc
  | output hc => exact output_inv h hc
  | release hc => exact release_inv h hc
  | event hf hn => exact event_inv h hf hn
  | start hp => exact start_inv h hp
  | remove hp =>
    refine remove_inv h hp ((h.token hp nofun).2.resolve_right ?_)
    rw [hact _ _ hp]
    exact Bool.false_ne_true
  | drop hp => exact drop_inv h hp
  | uncache => exact uncache_inv h

theorem Reachable.inv (h : Reachable Undisturbed fc) : Inv fc := by
  induction h with
  | init => exact init_inv
  | step _ hact hs ih => exact step_inv ih hact hs

theorem holds_iff : (fc.callers c).Holds n ↔ 0 < (fc.callers c).refs n := by
  have hweight : ∀ m k : Nat, m = n ↔ 0 < weight m n (k + 1) := by
    intro m k
    rw [weight]
    split
    · next heq => exact iff_of_true heq (Nat.succ_pos k)
    · next hne => exact iff_of_false hne (Nat.not_lt_zero 0)
  cases fc.callers c with
  | inserting m => exact hweight m 0
  | output m => exact hweight m 0
  | releasing m => exact hweight m 0
  | processing phase m =>
    cases phase with
    | drop => exact hweight m 1
    | _ => exact hweight m 0
  | _ => exact iff_of_false id (Nat.not_lt_zero 0)

theorem process_unique {p p' : Phase × Nat} (hp : fc.process who = some p) (hp' : fc.process who = some p') : p = p' :=
  Option.some.inj (hp.symm.trans hp')

/-- `process_file` may start on a node that is in the tree, or that a caller has a reference to. -/
theorem Inv.start_safe (h : Inv fc) (hp : fc.process who = some (.start events, n)) :
    0 < (fc.nodes n).refcnt ↔ (fc.uncached n = true → ∃ c, (fc.callers c).Holds n) := by
  have hcount := h.count n
  constructor
  · intro hpos huncached
    rw [if_neg (h.gone n huncached), Cache.refs] at hcount
    rcases Nat.eq_zero_or_pos (fc.filemon.refs n) with hzero | hfilemon
    · have htotal : 0 < total fc.callers (Caller.refs n) := by omega
      obtain ⟨c, hc⟩ := total_pos_iff.mp htotal
      exact ⟨c, holds_iff.mpr hc⟩
    · cases who with
      | some c =>
        refine ⟨c, ?_⟩
        rw [process_eq.mp hp]
        rfl
      | none =>
        rw [process_eq.mp hp] at hfilemon
        cases hfilemon
  · intro hheld
    rcases (h.token hp (by rintro ⟨⟩)).2 with hcached | huncached
    · rw [hcount, if_pos hcached]
      exact Nat.succ_pos _
    · obtain ⟨c, hc⟩ := hheld huncached
      exact h.refcnt_pos (holds_iff.mp hc)

theorem Inv.remove_safe (h : Inv fc) (hp : fc.process who = some (.remove, n)) :
    (0 < (fc.nodes n).refcnt ∧ fc.Cached n) ↔ fc.uncached n = false := by
  have hcount := h.count n
  constructor
  · rintro ⟨-, hcached⟩
    by_contra htrue
    exact h.gone n (Bool.not_eq_false _ ▸ htrue) hcached
  · intro hfalse
    have hcached : fc.Cached n := (h.token hp nofun).2.resolve_right (by rw [hfalse]; exact Bool.false_ne_true)
    rw [if_pos hcached] at hcount
    exact ⟨by omega, hcached⟩

/-- In every run without a disturbed step, the next step is safe if and only if it is not disturbed either. -/
theorem file_cache_runs {act : Act α β C} (h : Reachable Undisturbed fc) (hs : Step fc act fc') :
    Safe fc act ↔ Undisturbed fc act := by
  cases hs with
  | start hp =>
    have hsafe := h.inv.start_safe hp
    constructor
    · intro hact phase m hp'
      obtain ⟨-, rfl⟩ := Prod.mk.inj (process_unique hp hp')
      exact hsafe.mp (hact _ _ hp)
    · intro hact phase m hp'
      obtain ⟨-, rfl⟩ := Prod.mk.inj (process_unique hp hp')
      exact hsafe.mpr (hact _ _ hp)
  | remove hp =>
    have hsafe := h.inv.remove_safe hp
    constructor
    · intro hact phase m hp'
      obtain ⟨-, rfl⟩ := Prod.mk.inj (process_unique hp hp')
      exact hsafe.mp (hact _ _ hp)
    · intro hact phase m hp'
      obtain ⟨-, rfl⟩ := Prod.mk.inj (process_unique hp hp')
      exact hsafe.mpr (hact _ _ hp)
  | drop hp =>
    refine iff_of_true (fun phase m hp' => ?_) trivial
    have hle := process_refs_le hp
    have hcount := h.inv.count m
    rw [(Prod.mk.inj (process_unique hp hp')).2, Phase.extra] at hle
    omega
  | _ => exact Iff.rfl

/-! ## One caller, one file -/

/-- A caller has put a node into the tree. -/
def inserted : Cache Unit Unit Unit :=
  let fc := fileCacheInit (fun _ => ⟨(), 0, false, none, false, 0⟩) 0
  getInsert (loadFile (getFind (fc.setCaller () (.finding ())) () ()) () () (.contents ())) () 0

theorem reachable_inserted {ok : Cache Unit Unit Unit → Act Unit Unit Unit → Prop}
    (hok : ∀ fc, ok fc (.call () ()) ∧ ok fc (.find ()) ∧ ok fc (.load () (.contents ())) ∧ ok fc (.insert ())) :
    Reachable ok inserted := by
  obtain ⟨hcall, -, -, -⟩ := hok (fileCacheInit (fun _ => ⟨(), 0, false, none, false, 0⟩) 0)
  have hfinding := Reachable.step .init hcall (.call rfl)
  have hloading := hfinding.step (hok _).2.1 (.find rfl)
  have hinserting := hloading.step (hok _).2.2.1 (.load rfl)
  exact hinserting.step (hok _).2.2.2 (.insert rfl)

/-- The first `process_file` of the node. -/
theorem file_cache_runs_first :
    Safe inserted (.start (some ()) true true) ↔ Undisturbed inserted (.start (some ()) true true) := by
  have hstep : Step inserted (.start (some ()) true true) (processStart inserted (some ()) 0 .none true true) :=
    .start rfl rfl
  exact file_cache_runs (reachable_inserted fun _ => ⟨trivial, trivial, trivial, trivial⟩) hstep

/-- The node has been associated and is in the tree no more. -/
def uncached : Cache Unit Unit Unit :=
  uncacheAllFiles (getRelease (getOutput (processStart inserted (some ()) 0 .none true true) () 0 (.ok ())).2 () 0)

/-- The association of a node is still there when `uncache_all_files` has freed it: its event leads to a dead node. -/
theorem uncached_event : ∃ fc fc' : Cache Unit Unit Unit, Reachable (fun _ _ => True) fc ∧
    Step fc (.start none true true) fc' ∧ ¬Safe fc (.start none true true) := by
  have hstart : Step inserted (.start (some ()) true true) (processStart inserted (some ()) 0 .none true true) :=
    .start rfl rfl
  have houtput : Step (processStart inserted (some ()) 0 .none true true) (.output () (.ok ()))
      (getOutput (processStart inserted (some ()) 0 .none true true) () 0 (.ok ())).2 := .output rfl rfl
  have hrelease : Step (getOutput (processStart inserted (some ()) 0 .none true true) () 0 (.ok ())).2 (.release ())
      (getRelease (getOutput (processStart inserted (some ()) 0 .none true true) () 0 (.ok ())).2 () 0) := .release rfl
  have hevent : Step uncached (.event 0 .exception)
      { uncached with pending := Function.update uncached.pending 0 false, filemon := .processing (.start .exception) 0 } :=
    .event rfl rfl
  have hinserted : Reachable (fun _ _ => True) inserted := reachable_inserted fun _ => ⟨trivial, trivial, trivial, trivial⟩
  have hreleased := ((hinserted.step trivial hstart).step trivial houtput).step trivial hrelease
  have hdelivered := (hreleased.step trivial .uncache).step trivial hevent
  refine ⟨_, _, hdelivered, .start rfl rfl, fun hsafe => ?_⟩
  exact absurd (hsafe (.start .exception) 0 rfl) (Nat.lt_irrefl 0)

end Libjeffpc.FileCache
