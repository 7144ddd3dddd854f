import Libjeffpc.Taskq.Wakeup

/-!
# No wakeup is lost

The invariant `Inv` counts the workers that are awake against the items in the queue: there are as
many of them as there are items, or all workers are awake. It may be one short between the `enqueue`
of `taskq_dispatch` and its `CONDSIG`. A worker goes to sleep only with an empty queue in front of it,
and it has held the lock since it saw that queue.
-/

set_option linter.unusedSectionVars false

namespace Libjeffpc.Taskq.Wakeup

open Lib

variable {n : Nat} {C D T : Type} [DecidableEq C] [DecidableEq D]

/-- Where a thread may be when it gets the lock. -/
def Point.IsEntry : Point T → Prop
  | test | count | waitTest | enqueue _ | destroyVerify => True
  | _ => False

/-- The places that belong to a function. -/
def Pc.Fits (k : Kind) : Pc T → Prop
  | outside => True
  | locking p => p.kind = k ∧ p.IsEntry
  | locked p => p.kind = k
  | asleep c p => p.kind = k ∧ p.IsEntry ∧ (c = .parent2worker → k = .worker)
  | running _ | exited => k = .worker
  | joining _ | returned => k = .destroyer

def Pc.sleeping : Pc T → Bool
  | asleep .parent2worker _ => true
  | _ => false

/-- `taskq_destroy` has set `shutdown`. -/
def Pc.Down : Pc T → Prop
  | locked .destroyBroadcast | locked .destroyUnlock | joining _ | returned => True
  | _ => False

/-- `taskq_destroy` has made its broadcast. -/
def Pc.Woken : Pc T → Prop
  | locked .destroyUnlock | joining _ | returned => True
  | _ => False

/-- The number of workers that are not asleep on `cond_parent2worker`. -/
def State.awake (s : State n C D T) : Nat :=
  Threads.count (fun w : Fin n => s.pc (.worker w)) (·.sleeping = false)

structure Inv (s : State n C D T) : Prop where
  owner : ∀ t, (∃ p, s.pc t = .locked p) ↔ s.lock = some t
  fits : ∀ t, (s.pc t).Fits t.kind
  empty : ∀ t, s.pc t = .locked .condwait → s.queue = []
  nonempty : ∀ t, s.pc t = .locked .waitCondwait → s.queue ≠ []
  up : ∀ t, s.pc t = .locked .dequeue ∨ s.pc t = .locked .condwait → s.shutdown = false
  short : min n s.queue.length ≤ s.awake + 1
  awake : (∀ t, s.pc t ≠ .locked .signal) → min n s.queue.length ≤ s.awake
  drained : s.queue = [] → (∃ t item, s.pc t = .locked (.broadcast item)) ∨
    ∀ t p, s.pc t ≠ .asleep .worker2parent p
  down : (s.pc .destroyer).Down → s.shutdown = true
  woken : (s.pc .destroyer).Woken → ∀ t p, s.pc t ≠ .asleep .parent2worker p

variable {s s' : State n C D T} {t : Thread n C D} {p : Point T} {v : Pc T}

theorem goto_self (s : State n C D T) (t : Thread n C D) (v : Pc T) : (s.goto t v).pc t = v :=
  Function.update_self ..

theorem goto_other {t' : Thread n C D} (h : t' ≠ t) : (s.goto t v).pc t' = s.pc t' :=
  Function.update_of_ne h ..

/-- Only one thread is inside. -/
theorem Inv.alone (h : Inv s) (ht : s.pc t = .locked p) (t' : Thread n C D) (hne : t' ≠ t)
    (q : Point T) : s.pc t' ≠ .locked q := by
  intro hq
  have h1 := (h.owner t).mp ⟨p, ht⟩
  have h2 := (h.owner t').mp ⟨q, hq⟩
  rw [h1] at h2
  exact hne (Option.some.inj h2).symm

theorem Inv.kind (h : Inv s) (ht : s.pc t = .locked p) : p.kind = t.kind := by
  have hf := h.fits t
  rwa [ht] at hf

theorem Inv.free (h : Inv s) (hl : s.lock = none) (t : Thread n C D) (q : Point T) :
    s.pc t ≠ .locked q := by
  intro hq
  have h1 := (h.owner t).mp ⟨q, hq⟩
  rw [hl] at h1
  cases h1

/-- The invariant is enough for the queue: while nobody is at a `CONDSIG`, or inside at all. -/
theorem Inv.awake_of_ne_signal (h : Inv s) (ht : s.pc t = .locked p) (hp : p ≠ .signal) :
    min n s.queue.length ≤ s.awake := by
  refine h.awake fun t' ht' => ?_
  by_cases hne : t' = t
  · subst hne
    rw [ht] at ht'
    exact hp (Pc.locked.inj ht')
  · exact h.alone ht t' hne _ ht'

theorem awake_le (h : ∀ w, (s.pc (.worker w)).sleeping = false → (s'.pc (.worker w)).sleeping = false) :
    s.awake ≤ s'.awake := Threads.count_le h

/-- What a thread does to the others: nothing, or it wakes them up. -/
def Wakes (s s' : State n C D T) (t : Thread n C D) : Prop :=
  ∀ t', t' ≠ t → s'.pc t' = s.pc t' ∨ ∃ c q, s.pc t' = .asleep c q ∧ s'.pc t' = .locking q

theorem wakes_goto {s₀ : State n C D T} (hpc : s₀.pc = s.pc) (t : Thread n C D) (v : Pc T) :
    Wakes s (s₀.goto t v) t := by
  intro t' hne
  rw [goto_other hne, hpc]
  exact Or.inl rfl

theorem wakes_wakeAll (s : State n C D T) (c : Cond) (t : Thread n C D) (v : Pc T) :
    Wakes s ((s.wakeAll c).goto t v) t := by
  intro t' hne
  rw [goto_other hne]
  cases hp : s.pc t' with
  | asleep c' q =>
    by_cases hc : c' = c
    · exact Or.inr ⟨c', q, rfl, by simp [State.wakeAll, hp, hc]⟩
    · exact Or.inl (by simp [State.wakeAll, hp, hc])
  | _ => exact Or.inl (by simp [State.wakeAll, hp])

/-- A broadcast leaves nobody asleep. -/
theorem wakeAll_ne_asleep (s : State n C D T) (c : Cond) (t : Thread n C D) (p : Point T) :
    (s.wakeAll c).pc t ≠ .asleep c p := by
  intro h
  cases hp : s.pc t with
  | asleep c' q =>
    by_cases hc : c' = c
    · simp [State.wakeAll, hp, hc] at h
    · simp [State.wakeAll, hp, hc] at h
  | _ => simp [State.wakeAll, hp] at h

/-- The sleepers of `s'` were asleep before, apart from the thread that has made the step. -/
theorem Wakes.asleep (hw : Wakes s s' t) {t' : Thread n C D} (hne : t' ≠ t) {c : Cond}
    (h : s'.pc t' = .asleep c p) : s.pc t' = .asleep c p := by
  rcases hw t' hne with he | ⟨c', q, -, he⟩
  · rwa [he] at h
  · rw [he] at h
    cases h

/-- The same for a thread that does not go to sleep itself. -/
theorem Wakes.asleep_of_self (hw : Wakes s s' t) (hself : ∀ c q, s'.pc t ≠ .asleep c q)
    (t' : Thread n C D) (c : Cond) (q : Point T) (h : s'.pc t' = .asleep c q) :
    s.pc t' = .asleep c q := by
  by_cases hne : t' = t
  · subst hne
    exact absurd h (hself c q)
  · exact hw.asleep hne h

theorem Wakes.locked (hw : Wakes s s' t) {t' : Thread n C D} (hne : t' ≠ t)
    (h : s'.pc t' = .locked p) : s.pc t' = .locked p := by
  rcases hw t' hne with he | ⟨c', q, -, he⟩
  · rwa [he] at h
  · rw [he] at h
    cases h

theorem Wakes.fits (hw : Wakes s s' t) {t' : Thread n C D} (hne : t' ≠ t)
    (h : (s.pc t').Fits t'.kind) : (s'.pc t').Fits t'.kind := by
  rcases hw t' hne with he | ⟨c', q, hq, he⟩
  · rwa [he]
  · rw [he]
    rw [hq] at h
    exact ⟨h.1, h.2.1⟩

theorem Wakes.sleeping (hw : Wakes s s' t) {t' : Thread n C D} (hne : t' ≠ t)
    (h : (s.pc t').sleeping = false) : (s'.pc t').sleeping = false := by
  rcases hw t' hne with he | ⟨c', q, -, he⟩
  · rwa [he]
  · rw [he]
    rfl

/-- As long as the thread itself does not go to sleep, no worker does. -/
theorem Wakes.awake_le (hw : Wakes s s' t) (hv : (s'.pc t).sleeping = false) :
    s.awake ≤ s'.awake := by
  refine Wakeup.awake_le fun w hs => ?_
  by_cases hne : Thread.worker w = t
  · rw [hne]
    exact hv
  · exact hw.sleeping hne hs

/-- A step of a thread that is alone inside, from `s` on: what its new place `v` and the new state have
to satisfy. -/
theorem inv_alone (h : Inv s) (halone : ∀ t', t' ≠ t → ∀ q, s.pc t' ≠ .locked q) (hw : Wakes s s' t)
    (hv : s'.pc t = v) (hlock : s'.lock = some t ∧ (∃ q, v = .locked q) ∨
      s'.lock = none ∧ ∀ q, v ≠ .locked q)
    (hfits : v.Fits t.kind) (hempty : v = .locked .condwait → s'.queue = [])
    (hnonempty : v = .locked .waitCondwait → s'.queue ≠ [])
    (hup : v = .locked .dequeue ∨ v = .locked .condwait → s'.shutdown = false)
    (hshort : min n s'.queue.length ≤ s'.awake + 1)
    (hawake : v ≠ .locked .signal → min n s'.queue.length ≤ s'.awake)
    (hdrained : s'.queue = [] → (∃ item, v = .locked (.broadcast item)) ∨
      ∀ t' p, s'.pc t' ≠ .asleep .worker2parent p)
    (hdown : (s'.pc .destroyer).Down → s'.shutdown = true)
    (hwoken : (s'.pc .destroyer).Woken → ∀ t' p, s'.pc t' ≠ .asleep .parent2worker p) : Inv s' := by
  have hself : ∀ t' q, s'.pc t' = .locked q → t' = t := by
    intro t' q hq
    by_contra hne
    exact halone t' hne q (hw.locked hne hq)
  subst hv
  refine ⟨fun t' => ?_, fun t' => ?_, fun t' ht' => ?_, fun t' ht' => ?_, fun t' ht' => ?_, hshort,
    fun hs => hawake (hs t), fun hq => ?_, hdown, hwoken⟩
  · constructor
    · rintro ⟨q, hq⟩
      obtain rfl := hself t' q hq
      rcases hlock with ⟨hl, -⟩ | ⟨-, hl⟩
      · exact hl
      · exact absurd hq (hl q)
    · intro hl'
      rcases hlock with ⟨hl, q, hq⟩ | ⟨hl, -⟩
      · rw [hl] at hl'
        exact ⟨q, Option.some.inj hl' ▸ hq⟩
      · rw [hl] at hl'
        cases hl'
  · by_cases hne : t' = t
    · rw [hne]
      exact hfits
    · exact hw.fits hne (h.fits t')
  · obtain rfl := hself t' _ ht'
    exact hempty ht'
  · obtain rfl := hself t' _ ht'
    exact hnonempty ht'
  · obtain rfl : t' = t := ht'.elim (hself t' _) (hself t' _)
    exact hup ht'
  · rcases hdrained hq with ⟨item, hi⟩ | hs
    · exact Or.inl ⟨t, item, hi⟩
    · exact Or.inr hs

/-- A step outside of the lock that puts no thread to sleep. -/
theorem inv_outside (h : Inv s) (hout : ∀ q, s.pc t ≠ .locked q) (hv : ∀ q, v ≠ .locked q)
    (hs : ∀ c q, v ≠ .asleep c q) (hfits : v.Fits t.kind)
    (hdown : t = .destroyer → v.Down → (s.pc t).Down)
    (hwoken : t = .destroyer → v.Woken → (s.pc t).Woken) : Inv (s.goto t v) := by
  have hother : ∀ t' q, (s.goto t v).pc t' = .locked q → t' ≠ t := by
    rintro t' q hq rfl
    rw [goto_self] at hq
    exact hv q hq
  have hback : ∀ t' q, (s.goto t v).pc t' = .locked q → s.pc t' = .locked q := by
    intro t' q hq
    rwa [goto_other (hother t' q hq)] at hq
  have hfwd : ∀ t' q, s.pc t' = .locked q → (s.goto t v).pc t' = .locked q := by
    intro t' q hq
    have hne : t' ≠ t := fun he => hout q (he ▸ hq)
    rwa [goto_other hne]
  have hasleep := (wakes_goto rfl t v).asleep_of_self (s := s) (by simpa [goto_self] using hs)
  have hle : s.awake ≤ (s.goto t v).awake := by
    refine (wakes_goto rfl t v).awake_le ?_
    rw [goto_self]
    cases v with
    | asleep c q => exact absurd rfl (hs c q)
    | _ => rfl
  refine ⟨fun t' => ?_, fun t' => ?_, fun t' ht' => h.empty t' (hback t' _ ht'),
    fun t' ht' => h.nonempty t' (hback t' _ ht'),
    fun t' ht' => h.up t' (ht'.imp (hback t' _) (hback t' _)), ?_, fun hn => ?_, fun hq => ?_,
    fun hd => ?_, fun hd t' q hq => ?_⟩
  · exact ⟨fun ⟨q, hq⟩ => (h.owner t').mp ⟨q, hback t' q hq⟩, fun hl => by
      obtain ⟨q, hq⟩ := (h.owner t').mpr hl
      exact ⟨q, hfwd t' q hq⟩⟩
  · by_cases hne : t' = t
    · subst hne
      rwa [goto_self]
    · rw [goto_other hne]
      exact h.fits t'
  · exact h.short.trans (Nat.add_le_add_right hle 1)
  · exact (h.awake fun t' ht' => hn t' (hfwd t' _ ht')).trans hle
  · rcases h.drained hq with ⟨t', item, ht'⟩ | hn
    · exact Or.inl ⟨t', item, hfwd t' _ ht'⟩
    · exact Or.inr fun t' q hq => hn t' q (hasleep t' _ q hq)
  · by_cases hne : Thread.destroyer = t
    · subst hne
      rw [goto_self] at hd
      exact h.down (hdown rfl hd)
    · rw [goto_other hne] at hd
      exact h.down hd
  · refine h.woken ?_ t' q (hasleep t' _ q hq)
    by_cases hne : Thread.destroyer = t
    · subst hne
      rw [goto_self] at hd
      exact hwoken rfl hd
    · rwa [goto_other hne] at hd

theorem Pc.Woken.down {v : Pc T} (h : v.Woken) : v.Down := by
  cases v with
  | locked p => cases p <;> first | exact h | exact trivial
  | _ => exact h

/-- Nobody is asleep on `cond_worker2parent` in front of an empty queue, unless the broadcast is next. -/
theorem Inv.drained_of_ne_broadcast (h : Inv s) (ht : s.pc t = .locked p)
    (hp : ∀ item, p ≠ .broadcast item) (hq : s.queue = []) (t' : Thread n C D) (q : Point T) :
    s.pc t' ≠ .asleep .worker2parent q := by
  rcases h.drained hq with ⟨t₀, item, ht₀⟩ | hn
  · by_cases hne : t₀ = t
    · rw [hne, ht] at ht₀
      exact absurd (Pc.locked.inj ht₀) (hp item)
    · exact absurd ht₀ (h.alone ht t₀ hne _)
  · exact hn t' q

theorem goto_destroyer {P : Pc T → Prop} {s₀ : State n C D T} (hpc : s₀.pc = s.pc)
    (hv : t = .destroyer → P v → P (s.pc t)) (h : P ((s₀.goto t v).pc .destroyer)) :
    P (s.pc .destroyer) := by
  by_cases hne : Thread.destroyer = t
  · subst hne
    rw [goto_self] at h
    exact hv rfl h
  · rwa [goto_other hne, hpc] at h

/-- A statement that changes neither the queue nor `shutdown`, and wakes nobody up. -/
theorem inv_plain (h : Inv s) (ht : s.pc t = .locked p) (hp : p ≠ .signal)
    (hb : ∀ item, p ≠ .broadcast item) {s₀ : State n C D T} (hpc : s₀.pc = s.pc)
    (hqueue : s₀.queue = s.queue) (hshut : s₀.shutdown = s.shutdown) (hs : ∀ c q, v ≠ .asleep c q)
    (hlock : s₀.lock = some t ∧ (∃ q, v = .locked q) ∨ s₀.lock = none ∧ ∀ q, v ≠ .locked q)
    (hfits : v.Fits t.kind) (hempty : v = .locked .condwait → s.queue = [])
    (hnonempty : v = .locked .waitCondwait → s.queue ≠ [])
    (hup : v = .locked .dequeue ∨ v = .locked .condwait → s.shutdown = false)
    (hdown : t = .destroyer → v.Down → (s.pc t).Down)
    (hwoken : t = .destroyer → v.Woken → (s.pc t).Woken) : Inv (s₀.goto t v) := by
  have hw : Wakes s (s₀.goto t v) t := wakes_goto hpc t v
  have hasleep := hw.asleep_of_self (by simpa [goto_self] using hs)
  have hle : s.awake ≤ (s₀.goto t v).awake := by
    refine hw.awake_le ?_
    rw [goto_self]
    cases v with
    | asleep c q => exact absurd rfl (hs c q)
    | _ => rfl
  have hmin : min n (s₀.goto t v).queue.length ≤ (s₀.goto t v).awake := by
    show min n s₀.queue.length ≤ _
    rw [hqueue]
    exact (h.awake_of_ne_signal ht hp).trans hle
  refine inv_alone h (h.alone ht) hw (goto_self ..) hlock hfits (hqueue ▸ hempty) (hqueue ▸ hnonempty)
    (hshut ▸ hup) (hmin.trans (Nat.le_succ _)) (fun _ => hmin) (fun hq => ?_) (fun hd => ?_)
    (fun hd t' q hq => ?_)
  · exact Or.inr fun t' q hq' =>
      h.drained_of_ne_broadcast ht hb (hqueue ▸ hq) t' q (hasleep t' _ q hq')
  · exact hshut.trans (h.down (goto_destroyer hpc hdown hd))
  · exact h.woken (goto_destroyer hpc hwoken hd) t' q (hasleep t' _ q hq)

/-- A worker that finds nothing to do goes to sleep. -/
theorem inv_condwait (h : Inv s) (ht : s.pc t = .locked .condwait) : Inv (s.run t .condwait) := by
  have hq : s.queue = [] := h.empty t ht
  have hkind : Kind.worker = t.kind := h.kind ht
  have hw : Wakes s (s.run t .condwait) t := wakes_goto rfl t _
  have hd : Thread.destroyer ≠ t := by
    rintro rfl
    cases hkind
  have hpc : (s.run t .condwait).pc .destroyer = s.pc .destroyer := goto_other hd
  have hmin : min n (s.run t .condwait).queue.length = 0 := by
    show min n s.queue.length = 0
    rw [hq, List.length_nil, Nat.min_zero]
  refine inv_alone h (h.alone ht) hw (goto_self ..) (Or.inr ⟨rfl, by simp⟩) ⟨hkind, trivial, fun _ => hkind.symm⟩
    (by simp) (by simp) (by simp) (hmin ▸ Nat.zero_le _) (fun _ => hmin ▸ Nat.zero_le _) (fun _ => ?_)
    (fun hdn => h.down (hpc ▸ hdn)) (fun hwk => ?_)
  · refine Or.inr fun t' q hq' => ?_
    by_cases hne : t' = t
    · subst hne
      rw [State.run, goto_self] at hq'
      cases hq'
    · exact h.drained_of_ne_broadcast ht (by simp) hq t' q (hw.asleep hne hq')
  · -- `shutdown` was not set when the worker looked, and only the holder of the lock can set it
    have h1 := h.down (hpc ▸ hwk).down
    rw [h.up t (Or.inr ht)] at h1
    cases h1

/-- A caller of `taskq_wait` that finds items goes to sleep. -/
theorem inv_waitCondwait (h : Inv s) (ht : s.pc t = .locked .waitCondwait) :
    Inv (s.run t .waitCondwait) := by
  have hkind : Kind.waiter = t.kind := h.kind ht
  have hw : Wakes s (s.run t .waitCondwait) t := wakes_goto rfl t _
  have hd : Thread.destroyer ≠ t := by
    rintro rfl
    cases hkind
  have hpc : (s.run t .waitCondwait).pc .destroyer = s.pc .destroyer := goto_other hd
  have hself : (s.run t .waitCondwait).pc t = .asleep .worker2parent .waitTest := goto_self ..
  have hmin : min n s.queue.length ≤ (s.run t .waitCondwait).awake :=
    (h.awake_of_ne_signal ht (by simp)).trans (hw.awake_le (by rw [hself]; rfl))
  refine inv_alone h (h.alone ht) hw hself (Or.inr ⟨rfl, by simp⟩)
    ⟨hkind, trivial, by simp⟩ (by simp) (by simp) (by simp) (hmin.trans (Nat.le_succ _))
    (fun _ => hmin) (fun hq => absurd hq (h.nonempty t ht)) (fun hdn => h.down (hpc ▸ hdn))
    (fun hwk t' q hq' => ?_)
  by_cases hne : t' = t
  · subst hne
    rw [hself] at hq'
    cases hq'
  · exact h.woken (hpc ▸ hwk) t' q (hw.asleep hne hq')

/-- `dequeue` with an item in the queue. -/
theorem inv_dequeue (h : Inv s) (ht : s.pc t = .locked .dequeue) {item : T} {queue : List T}
    (hq : s.queue = item :: queue) :
    Inv ({ s with queue, queueLen := s.queueLen - 1 }.goto t (.locked (.broadcast item))) := by
  have hkind : Kind.worker = t.kind := h.kind ht
  have hd : Thread.destroyer ≠ t := by
    rintro rfl
    cases hkind
  have hw := @wakes_goto n C D T _ _ s { s with queue, queueLen := s.queueLen - 1 } rfl t
    (.locked (.broadcast item))
  set s' := { s with queue, queueLen := s.queueLen - 1 }.goto t (.locked (.broadcast item))
  have hself : s'.pc t = .locked (.broadcast item) := goto_self ..
  have hpc : s'.pc .destroyer = s.pc .destroyer := goto_other hd
  have hmin : min n s'.queue.length ≤ s'.awake := by
    have h1 := h.awake_of_ne_signal ht (by simp)
    have h2 := hw.awake_le (by rw [hself]; rfl)
    rw [hq, List.length_cons] at h1
    show min n queue.length ≤ _
    omega
  refine inv_alone h (h.alone ht) hw hself (Or.inl ⟨(h.owner t).mp ⟨_, ht⟩, _, rfl⟩) hkind (by simp)
    (by simp) (by simp) (hmin.trans (Nat.le_succ _)) (fun _ => hmin) (fun _ => Or.inl ⟨item, rfl⟩)
    (fun hdn => h.down (hpc ▸ hdn)) (fun hwk t' q hq' => ?_)
  exact h.woken (hpc ▸ hwk) t' q (hw.asleep_of_self (by simp [hself]) t' _ q hq')

/-- `enqueue`: the new item may be one too many for the workers that are awake. -/
theorem inv_enqueue (h : Inv s) {item : T} (ht : s.pc t = .locked (.enqueue item)) :
    Inv (s.run t (.enqueue item)) := by
  have hkind : Kind.dispatcher = t.kind := h.kind ht
  have hd : Thread.destroyer ≠ t := by
    rintro rfl
    cases hkind
  have hw : Wakes s (s.run t (.enqueue item)) t := wakes_goto rfl t _
  have hself : (s.run t (.enqueue item)).pc t = .locked .signal := goto_self ..
  have hpc : (s.run t (.enqueue item)).pc .destroyer = s.pc .destroyer := goto_other hd
  have hmin : min n (s.run t (.enqueue item)).queue.length ≤ (s.run t (.enqueue item)).awake + 1 := by
    have h1 := h.awake_of_ne_signal ht (by simp)
    have h2 := hw.awake_le (by rw [hself]; rfl)
    have hlen : (s.run t (.enqueue item)).queue.length = s.queue.length + 1 := by
      simp [State.run, State.goto]
    omega
  refine inv_alone h (h.alone ht) hw hself (Or.inl ⟨(h.owner t).mp ⟨_, ht⟩, _, rfl⟩) hkind (by simp)
    (by simp) (by simp) hmin (by simp) (fun hq => ?_) (fun hdn => h.down (hpc ▸ hdn))
    (fun hwk t' q hq' => ?_)
  · simp [State.run, State.goto] at hq
  · exact h.woken (hpc ▸ hwk) t' q (hw.asleep_of_self (by simp [hself]) t' _ q hq')

theorem inv_destroyShutdown (h : Inv s) (ht : s.pc t = .locked .destroyShutdown) :
    Inv (s.run t .destroyShutdown) := by
  have hkind : Kind.destroyer = t.kind := h.kind ht
  obtain rfl : t = .destroyer := by
    cases t <;> first | rfl | cases hkind
  have hw : Wakes s (s.run .destroyer .destroyShutdown) .destroyer := wakes_goto rfl _ _
  have hself : (s.run .destroyer .destroyShutdown).pc .destroyer = .locked .destroyBroadcast :=
    goto_self ..
  have hmin : min n s.queue.length ≤ (s.run .destroyer .destroyShutdown).awake :=
    (h.awake_of_ne_signal ht (by simp)).trans (hw.awake_le (by rw [hself]; rfl))
  refine inv_alone h (h.alone ht) hw hself (Or.inl ⟨(h.owner _).mp ⟨_, ht⟩, _, rfl⟩) rfl (by simp)
    (by simp) (by simp) (hmin.trans (Nat.le_succ _)) (fun _ => hmin) (fun hq => ?_) (fun _ => rfl)
    (fun hwk => ?_)
  · exact Or.inr fun t' q hq' => h.drained_of_ne_broadcast ht (by simp) hq t' q
      (hw.asleep_of_self (by simp [hself]) t' _ q hq')
  · rw [hself] at hwk
    cases hwk

theorem inv_broadcast (h : Inv s) {item : T} (ht : s.pc t = .locked (.broadcast item)) :
    Inv (s.run t (.broadcast item)) := by
  have hkind : Kind.worker = t.kind := h.kind ht
  have hd : Thread.destroyer ≠ t := by
    rintro rfl
    cases hkind
  have hw : Wakes s (s.run t (.broadcast item)) t := wakes_wakeAll s _ _ _
  have hself : (s.run t (.broadcast item)).pc t = .locked (.unlock item) := goto_self ..
  have hmin : min n s.queue.length ≤ (s.run t (.broadcast item)).awake :=
    (h.awake_of_ne_signal ht (by simp)).trans (hw.awake_le (by rw [hself]; rfl))
  have hdown : ∀ P : Pc T → Prop, (∀ q, ¬P (.locking q)) → P ((s.run t (.broadcast item)).pc .destroyer) →
      P (s.pc .destroyer) := by
    intro P hP h
    rcases hw .destroyer hd with he | ⟨c, q, -, he⟩
    · rwa [he] at h
    · rw [he] at h
      exact absurd h (hP q)
  refine inv_alone h (h.alone ht) hw hself (Or.inl ⟨(h.owner t).mp ⟨_, ht⟩, _, rfl⟩) hkind (by simp)
    (by simp) (by simp) (hmin.trans (Nat.le_succ _)) (fun _ => hmin) (fun _ => Or.inr fun t' q hq' => ?_)
    (fun hdn => h.down (hdown _ (fun _ h => h) hdn)) (fun hwk t' q hq' => ?_)
  · by_cases hne : t' = t
    · subst hne
      rw [hself] at hq'
      cases hq'
    · rw [State.run, goto_other hne] at hq'
      exact wakeAll_ne_asleep s _ t' q hq'
  · exact h.woken (hdown _ (fun _ h => h) hwk) t' q
      (hw.asleep_of_self (by simp [hself]) t' _ q hq')

theorem inv_destroyBroadcast (h : Inv s) (ht : s.pc t = .locked .destroyBroadcast) :
    Inv (s.run t .destroyBroadcast) := by
  have hkind : Kind.destroyer = t.kind := h.kind ht
  obtain rfl : t = .destroyer := by
    cases t <;> first | rfl | cases hkind
  have hw : Wakes s (s.run .destroyer .destroyBroadcast) .destroyer := wakes_wakeAll s _ _ _
  have hself : (s.run .destroyer .destroyBroadcast).pc .destroyer = .locked .destroyUnlock :=
    goto_self ..
  have hmin : min n s.queue.length ≤ (s.run .destroyer .destroyBroadcast).awake :=
    (h.awake_of_ne_signal ht (by simp)).trans (hw.awake_le (by rw [hself]; rfl))
  refine inv_alone h (h.alone ht) hw hself (Or.inl ⟨(h.owner _).mp ⟨_, ht⟩, _, rfl⟩) rfl (by simp)
    (by simp) (by simp) (hmin.trans (Nat.le_succ _)) (fun _ => hmin) (fun hq => ?_)
    (fun _ => h.down (by rw [ht]; trivial)) (fun _ t' q hq' => ?_)
  · exact Or.inr fun t' q hq' => h.drained_of_ne_broadcast ht (by simp) hq t' q
      (hw.asleep_of_self (by simp [hself]) t' _ q hq')
  · by_cases hne : t' = .destroyer
    · subst hne
      rw [hself] at hq'
      cases hq'
    · rw [State.run, goto_other hne] at hq'
      exact wakeAll_ne_asleep s _ t' q hq'

/-- `CONDSIG` makes up for the new item: it wakes one worker up, or all of them are awake. -/
theorem inv_signal (h : Inv s) (ht : s.pc t = .locked .signal) (hw : Wakes s s' t)
    (hself : s'.pc t = .locked .dispatchUnlock) (hqueue : s'.queue = s.queue)
    (hshut : s'.shutdown = s.shutdown) (hlock : s'.lock = s.lock)
    (hawake : s.awake + 1 ≤ s'.awake ∨ n ≤ s'.awake) : Inv s' := by
  have hkind : Kind.dispatcher = t.kind := h.kind ht
  have hd : Thread.destroyer ≠ t := by
    rintro rfl
    cases hkind
  have hasleep := hw.asleep_of_self (by simp [hself])
  have hdown : ∀ P : Pc T → Prop, (∀ q, ¬P (.locking q)) → P (s'.pc .destroyer) →
      P (s.pc .destroyer) := by
    intro P hP h
    rcases hw .destroyer hd with he | ⟨c, q, -, he⟩
    · rwa [he] at h
    · rw [he] at h
      exact absurd h (hP q)
  have hmin : min n s'.queue.length ≤ s'.awake := by
    have := h.short
    rw [hqueue]
    omega
  refine inv_alone h (h.alone ht) hw hself (Or.inl ⟨hlock.trans ((h.owner t).mp ⟨_, ht⟩), _, rfl⟩) hkind
    (by simp) (by simp) (by simp) (hmin.trans (Nat.le_succ _)) (fun _ => hmin) (fun hq => ?_)
    (fun hdn => hshut.trans (h.down (hdown _ (fun _ h => h) hdn))) (fun hwk t' q hq' => ?_)
  · exact Or.inr fun t' q hq' =>
      h.drained_of_ne_broadcast ht (by simp) (hqueue ▸ hq) t' q (hasleep t' _ q hq')
  · exact h.woken (hdown _ (fun _ h => h) hwk) t' q (hasleep t' _ q hq')

theorem inv_signalOne (h : Inv s) (ht : s.pc t = .locked .signal) {t' : Thread n C D}
    (ht' : s.pc t' = .asleep .parent2worker p) :
    Inv ((s.wake t' p).goto t (.locked .dispatchUnlock)) := by
  have hne : t' ≠ t := by
    rintro rfl
    rw [ht] at ht'
    cases ht'
  have hw : Wakes s ((s.wake t' p).goto t (.locked .dispatchUnlock)) t := by
    intro t'' hne''
    rw [goto_other hne'']
    by_cases he : t'' = t'
    · subst he
      exact Or.inr ⟨_, p, ht', goto_self ..⟩
    · exact Or.inl (goto_other he)
  refine inv_signal h ht hw (goto_self ..) rfl rfl rfl (Or.inl ?_)
  -- the sleepers of `cond_parent2worker` are workers
  have hkind : t'.kind = .worker := by
    have hf := h.fits t'
    rw [ht'] at hf
    exact hf.2.2 rfl
  obtain ⟨w, rfl⟩ : ∃ w, t' = .worker w := by
    cases t' with
    | worker w => exact ⟨w, rfl⟩
    | _ => cases hkind
  refine Threads.count_lt (w := w) (fun w' hs => ?_) ?_ ?_
  · by_cases hne' : Thread.worker w' = t
    · rw [hne', goto_self]
      rfl
    · exact hw.sleeping hne' hs
  · simp [ht', Pc.sleeping]
  · rw [goto_other hne, State.wake, goto_self]
    rfl

theorem inv_signalNone (h : Inv s) (ht : s.pc t = .locked .signal)
    (hs : ∀ t' p, s.pc t' ≠ .asleep .parent2worker p) : Inv (s.goto t (.locked .dispatchUnlock)) := by
  have hw : Wakes s (s.goto t (.locked .dispatchUnlock)) t := wakes_goto rfl t _
  refine inv_signal h ht hw (goto_self ..) rfl rfl rfl (Or.inr ?_)
  have hall : s.awake = n := by
    refine (Threads.count_eq_card fun w => ?_).trans (Fintype.card_fin n)
    cases hp : s.pc (.worker w) with
    | asleep c p =>
      cases c with
      | parent2worker => exact absurd hp (hs _ p)
      | worker2parent => rfl
    | _ => rfl
  have := hw.awake_le (by rw [goto_self]; rfl)
  omega

/-- `MXLOCK`: the thread goes on where it may get the lock. -/
theorem inv_lock (h : Inv s) (ht : s.pc t = .locking p) (hl : s.lock = none) :
    Inv ({ s with lock := some t }.goto t (.locked p)) := by
  obtain ⟨hkind, hentry⟩ : p.kind = t.kind ∧ p.IsEntry := by
    have hf := h.fits t
    rwa [ht] at hf
  have hw := @wakes_goto n C D T _ _ s { s with lock := some t } rfl t (.locked p)
  set s' := { s with lock := some t }.goto t (.locked p)
  have hself : s'.pc t = .locked p := goto_self ..
  have hasleep := hw.asleep_of_self (by simp [hself])
  have hmin : min n s.queue.length ≤ s'.awake :=
    (h.awake fun t' => h.free hl t' _).trans (hw.awake_le (by rw [hself]; rfl))
  have hdrained : s.queue = [] → ∀ t' q, s.pc t' ≠ .asleep .worker2parent q := by
    intro hq
    rcases h.drained hq with ⟨t', item, ht'⟩ | hn
    · exact absurd ht' (h.free hl t' _)
    · exact hn
  refine inv_alone h (fun t' _ => h.free hl t') hw hself (Or.inl ⟨rfl, _, rfl⟩) hkind ?_ ?_ ?_
    (hmin.trans (Nat.le_succ _)) (fun _ => hmin) (fun hq => ?_) (fun hdn => ?_) (fun hwk t' q hq' => ?_)
  · intro hp
    rw [Pc.locked.inj hp] at hentry
    cases hentry
  · intro hp
    rw [Pc.locked.inj hp] at hentry
    cases hentry
  · rintro (hp | hp) <;>
    · rw [Pc.locked.inj hp] at hentry
      cases hentry
  · exact Or.inr fun t' q hq' => hdrained hq t' q (hasleep t' _ q hq')
  · refine h.down ?_
    by_cases hne : Thread.destroyer = t
    · rw [hne, hself] at hdn
      cases p <;> first | exact False.elim hentry | exact False.elim hdn
    · rwa [goto_other hne] at hdn
  · refine h.woken ?_ t' q (hasleep t' _ q hq')
    by_cases hne : Thread.destroyer = t
    · rw [hne, hself] at hwk
      cases p <;> first | exact False.elim hentry | exact False.elim hwk
    · rwa [goto_other hne] at hwk

theorem inv_panic (h : Inv s) : Inv { s with panicked := true } :=
  ⟨h.owner, h.fits, h.empty, h.nonempty, h.up, h.short, h.awake, h.drained, h.down, h.woken⟩

/-- A statement of the thread that holds the lock. -/
theorem inv_run (h : Inv s) (ht : s.pc t = .locked p) (hp : p ≠ .signal) : Inv (s.run t p) := by
  have hown : s.lock = some t := (h.owner t).mp ⟨p, ht⟩
  have hkind : p.kind = t.kind := h.kind ht
  cases p with
  | test =>
    rw [State.run]
    cases hd : s.shutdown with
    | true =>
      exact inv_plain h ht (by simp) (by simp) rfl rfl rfl (by simp) (Or.inl ⟨hown, _, rfl⟩) hkind
        (by simp) (by simp) (by simp) (fun _ => False.elim) (fun _ => False.elim)
    | false =>
      exact inv_plain h ht (by simp) (by simp) rfl rfl rfl (by simp) (Or.inl ⟨hown, _, rfl⟩) hkind
        (by simp) (by simp) (fun _ => hd) (fun _ => False.elim) (fun _ => False.elim)
  | dequeue =>
    rw [State.run]
    cases hq : s.queue with
    | nil =>
      exact inv_plain h ht (by simp) (by simp) rfl rfl rfl (by simp) (Or.inl ⟨hown, _, rfl⟩) hkind
        (fun _ => hq) (by simp) (fun _ => h.up t (Or.inl ht)) (fun _ => False.elim) (fun _ => False.elim)
    | cons item queue => exact inv_dequeue h ht hq
  | condwait => exact inv_condwait h ht
  | broadcast item => exact inv_broadcast h ht
  | unlock item =>
    exact inv_plain h ht (by simp) (by simp) rfl rfl rfl (by simp) (Or.inr ⟨rfl, by simp⟩) hkind.symm
      (by simp) (by simp) (by simp) (fun _ => False.elim) (fun _ => False.elim)
  | count =>
    exact inv_plain h ht (by simp) (by simp) rfl rfl rfl (by simp) (Or.inl ⟨hown, _, rfl⟩) hkind
      (by simp) (by simp) (by simp) (fun _ => False.elim) (fun _ => False.elim)
  | leave =>
    exact inv_plain h ht (by simp) (by simp) rfl rfl rfl (by simp) (Or.inr ⟨rfl, by simp⟩) hkind.symm
      (by simp) (by simp) (by simp) (fun _ => False.elim) (fun _ => False.elim)
  | waitTest =>
    rw [State.run]
    cases hq : s.queue with
    | nil =>
      exact inv_plain h ht (by simp) (by simp) rfl rfl rfl (by simp) (Or.inl ⟨hown, _, rfl⟩) hkind
        (by simp) (by simp) (by simp) (fun _ => False.elim) (fun _ => False.elim)
    | cons item queue =>
      exact inv_plain h ht (by simp) (by simp) rfl rfl rfl (by simp) (Or.inl ⟨hown, _, rfl⟩) hkind
        (by simp) (by simp [hq]) (by simp) (fun _ => False.elim) (fun _ => False.elim)
  | waitCondwait => exact inv_waitCondwait h ht
  | waitVerify =>
    rw [State.run]
    split
    · exact inv_plain h ht (by simp) (by simp) rfl rfl rfl (by simp) (Or.inr ⟨rfl, by simp⟩) trivial
        (by simp) (by simp) (by simp) (fun _ => False.elim) (fun _ => False.elim)
    · exact inv_panic h
  | enqueue item => exact inv_enqueue h ht
  | signal => exact absurd rfl hp
  | dispatchUnlock =>
    exact inv_plain h ht (by simp) (by simp) rfl rfl rfl (by simp) (Or.inr ⟨rfl, by simp⟩) trivial
      (by simp) (by simp) (by simp) (fun _ => False.elim) (fun _ => False.elim)
  | destroyVerify =>
    rw [State.run]
    split
    · exact inv_plain h ht (by simp) (by simp) rfl rfl rfl (by simp) (Or.inl ⟨hown, _, rfl⟩) hkind
        (by simp) (by simp) (by simp) (fun _ => False.elim) (fun _ => False.elim)
    · exact inv_panic h
  | destroyShutdown => exact inv_destroyShutdown h ht
  | destroyBroadcast => exact inv_destroyBroadcast h ht
  | destroyUnlock =>
    exact inv_plain h ht (by simp) (by simp) rfl rfl rfl (by simp) (Or.inr ⟨rfl, by simp⟩) hkind.symm
      (by simp) (by simp) (by simp) (fun _ _ => ht ▸ trivial) (fun _ _ => ht ▸ trivial)

theorem inv_step (h : Inv s) (hs : Step s s') : Inv s' := by
  cases hs with
  | lock t p ht hl => exact inv_lock h ht hl
  | run t p ht hp => exact inv_run h ht hp
  | signalOne t ht t' p ht' => exact inv_signalOne h ht ht'
  | signalNone t ht hn => exact inv_signalNone h ht hn
  | spurious t c p ht =>
    have hf := h.fits t
    rw [ht] at hf
    exact inv_outside h (by simp [ht]) (by simp) (by simp) ⟨hf.1, hf.2.1⟩ (fun _ => False.elim)
      (fun _ => False.elim)
  | finish w item ht =>
    exact inv_outside h (by simp [ht]) (by simp) (by simp) ⟨rfl, trivial⟩ (fun _ => False.elim)
      (fun _ => False.elim)
  | callDispatch d item ht =>
    exact inv_outside h (by simp [ht]) (by simp) (by simp) ⟨rfl, trivial⟩ (fun _ => False.elim)
      (fun _ => False.elim)
  | callWait c ht =>
    exact inv_outside h (by simp [ht]) (by simp) (by simp) ⟨rfl, trivial⟩ (fun _ => False.elim)
      (fun _ => False.elim)
  | callDestroy ht =>
    exact inv_outside h (by simp [ht]) (by simp) (by simp) ⟨rfl, trivial⟩ (fun _ => False.elim)
      (fun _ => False.elim)
  | join i ht hw =>
    exact inv_outside h (by simp [ht]) (by simp) (by simp) rfl (fun _ _ => ht ▸ trivial)
      (fun _ _ => ht ▸ trivial)
  | destroyed ht =>
    exact inv_outside h (by simp [ht]) (by simp) (by simp) rfl (fun _ _ => ht ▸ trivial)
      (fun _ _ => ht ▸ trivial)

theorem inv_create : Inv (State.create n C D T) := by
  have hpc : ∀ t q, (State.create n C D T).pc t ≠ .locked q := by
    intro t q
    cases t <;> simp [State.create]
  have hasleep : ∀ t c q, (State.create n C D T).pc t ≠ .asleep c q := by
    intro t c q
    cases t <;> simp [State.create]
  refine ⟨fun t => ⟨fun ⟨q, hq⟩ => absurd hq (hpc t q), fun h => by cases h⟩, fun t => ?_,
    fun t h => absurd h (hpc t _), fun t h => absurd h (hpc t _), fun t h => ?_, ?_, fun _ => ?_,
    fun _ => Or.inr fun t => hasleep t _, False.elim, False.elim⟩
  · cases t with
    | worker w => exact ⟨rfl, trivial⟩
    | _ => trivial
  · rcases h with h | h <;> exact absurd h (hpc t _)
  · simp [State.create]
  · simp [State.create]

theorem reachable_inv (h : Reachable s) : Inv s := by
  induction h with
  | create => exact inv_create
  | step _ _ _ hs ih => exact inv_step ih hs

/-- The thread sleeps on a condition variable. -/
def State.Asleep (s : State n C D T) (c : Cond) (t : Thread n C D) : Prop := ∃ p, s.pc t = .asleep c p

/-- While nobody is on the way from its `enqueue` to its `CONDSIG`, a queue with items in it has a worker
that is awake. While nobody holds the lock, no caller of `taskq_wait` sleeps with an empty queue. Once
`taskq_destroy` has dropped the lock, no worker sleeps. -/
theorem taskq_no_lost_wakeup (hn : 1 ≤ n) (h : Reachable s) :
    ((∀ t, s.pc t ≠ .locked .signal) → s.queue ≠ [] →
      ¬∀ w : Fin n, s.Asleep .parent2worker (.worker w)) ∧
    (s.lock = none → s.queue = [] → ∀ c : C, ¬s.Asleep .worker2parent (.waiter c)) ∧
    ((∃ i, s.pc .destroyer = .joining i) ∨ s.pc .destroyer = .returned →
      ∀ w : Fin n, ¬s.Asleep .parent2worker (.worker w)) := by
  have hi := reachable_inv h
  refine ⟨fun hsig hq hall => ?_, fun hl hq c => ?_, fun hd w => ?_⟩
  · have hzero : s.awake = 0 := by
      refine Threads.count_eq_zero fun w => ?_
      obtain ⟨p, hp⟩ := hall w
      simp [hp, Pc.sleeping]
    have hlen : 0 < s.queue.length := List.length_pos_of_ne_nil hq
    have hmin := hi.awake hsig
    omega
  · rintro ⟨p, hp⟩
    rcases hi.drained hq with ⟨t, item, ht⟩ | hno
    · exact hi.free hl t _ ht
    · exact hno _ p hp
  · rintro ⟨p, hp⟩
    refine hi.woken ?_ _ p hp
    rcases hd with ⟨i, hd⟩ | hd <;>
    · rw [hd]
      trivial

/-- One worker sleeps, and a call of `taskq_dispatch` has enqueued an item. -/
theorem reachable_enqueued : ∃ s : State 1 Unit Unit Unit, Reachable s ∧ s.queue = [()] ∧
    s.panicked = false ∧ s.shutdown = false ∧ s.pc .destroyer = .outside ∧
    s.pc (.dispatcher ()) = .locked .signal ∧ s.pc (.worker 0) = .asleep .parent2worker .test := by
  have r0 : Reachable (State.create 1 Unit Unit Unit) := .create
  have r1 := r0.step rfl (by simp [State.create]) (.lock (.worker 0) .test rfl rfl)
  have r2 := r1.step rfl (by simp [State.create, State.goto]) (.run (.worker 0) .test rfl (by simp))
  have r3 := r2.step rfl (by simp [State.create, State.goto, State.run])
    (.run (.worker 0) .dequeue rfl (by simp))
  have r4 := r3.step rfl (by simp [State.create, State.goto, State.run])
    (.run (.worker 0) .condwait rfl (by simp))
  have r5 := r4.step rfl (by simp [State.create, State.goto, State.run, State.unlock])
    (.callDispatch () () rfl)
  have r6 := r5.step rfl (by simp [State.create, State.goto, State.run, State.unlock])
    (.lock (.dispatcher ()) (.enqueue ()) rfl rfl)
  have r7 := r6.step rfl (by simp [State.create, State.goto, State.run, State.unlock])
    (.run (.dispatcher ()) (.enqueue ()) rfl (by simp))
  exact ⟨_, r7, rfl, rfl, rfl, rfl, rfl, rfl⟩

/-- The item that was enqueued, once `CONDSIG` has been called. -/
theorem taskq_no_lost_wakeup_signalled : ∃ s : State 1 Unit Unit Unit, s.queue = [()] ∧
    ¬∀ w, s.Asleep .parent2worker (.worker w) := by
  obtain ⟨s, hr, hq, hp, -, hd, hs, hw⟩ := reachable_enqueued
  have hr' := hr.step hp (by simp [hd]) (.signalOne (.dispatcher ()) hs (.worker 0) .test hw)
  refine ⟨(s.wake (.worker 0) .test).goto (.dispatcher ()) (.locked .dispatchUnlock), hq,
    (taskq_no_lost_wakeup le_rfl hr').1 (fun t => ?_) (by simp [State.goto, State.wake, hq])⟩
  by_cases hne : t = .dispatcher ()
  · subst hne
    simp [goto_self]
  · have hi := reachable_inv hr
    rw [goto_other hne]
    by_cases hne' : t = .worker 0
    · subst hne'
      simp [State.wake, goto_self]
    · rw [State.wake, goto_other hne']
      exact hi.alone hs t hne _

/-- Between `enqueue` and `CONDSIG` there is an item in the queue, and every worker may be asleep. -/
theorem taskq_asleep_before_signal : ∃ s : State 1 Unit Unit Unit, Reachable s ∧
    s.shutdown = false ∧ s.queue ≠ [] ∧ ∀ w, s.Asleep .parent2worker (.worker w) := by
  obtain ⟨s, hr, hq, -, hsd, -, -, hw⟩ := reachable_enqueued
  refine ⟨s, hr, hsd, by simp [hq], fun w => ⟨.test, ?_⟩⟩
  rw [Subsingleton.elim w 0]
  exact hw

end Libjeffpc.Taskq.Wakeup
