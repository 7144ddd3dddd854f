import Libjeffpc.Taskq.Taskq

/-!
# Every item runs exactly once

The invariant `Inv` counts: an item that has left the queue is with exactly one worker or finished,
and a finished item has been counted or its worker is about to count it. Once `shutdown` is set the
queue is empty and stays so.
-/

set_option linter.unusedSectionVars false
set_option linter.dupNamespace false

namespace Libjeffpc.Taskq

open Lib

variable {n : Nat} {C T : Type} [DecidableEq C] [DecidableEq T]

/-- How many workers run `item`. -/
def runners (tq : Taskq n C T) (item : TaskqItem T) : Nat :=
  Threads.count tq.workers (· = .running item)

/-- How many workers have finished an item that they have not counted. -/
def uncounted (tq : Taskq n C T) : Nat := Threads.count tq.workers (· = .counting)

/-- `taskq_destroy` got past its `VERIFY`. -/
def Destroyer.verified : Destroyer → Bool
  | .joining _ => true
  | .returned => true
  | _ => false

structure Inv (tq : Taskq n C T) : Prop where
  ids : tq.dispatched.map TaskqItem.id = List.range tq.dispatched.length
  order : tq.dequeued ++ tq.queue = tq.dispatched
  len : tq.queueLen = tq.queue.length
  places : ∀ item, tq.dequeued.count item = runners tq item + tq.finished.count item
  counted : tq.processed + uncounted tq = tq.finished.length
  shut : tq.shutdown = tq.destroyer.verified
  drained : tq.shutdown = true → tq.queue = []
  joined : ∀ i, tq.destroyer = .joining i → ∀ w : Fin n, w.val < i → tq.workers w = .exited
  allJoined : tq.destroyer = .returned → ∀ w, tq.workers w = .exited

theorem inv_create : Inv (taskqCreateFixed n C T) where
  ids := rfl
  order := rfl
  len := rfl
  places item := by
    rw [runners, Threads.count_eq_zero (by simp [taskqCreateFixed])]
    rfl
  counted := by
    rw [uncounted, Threads.count_eq_zero (by simp [taskqCreateFixed])]
    rfl
  shut := rfl
  drained := by simp [taskqCreateFixed]
  joined := by simp [taskqCreateFixed]
  allJoined := by simp [taskqCreateFixed]

variable {tq tq' : Taskq n C T}

theorem inv_dispatch (h : Inv tq) (task : T) (hd : tq.destroyer = .notCalled) :
    Inv (taskqDispatch tq task) where
  ids := by simp [taskqDispatch, h.ids, List.range_succ]
  order := by simp [taskqDispatch, enqueue, ← h.order]
  len := by simp [taskqDispatch, enqueue, h.len]
  places := h.places
  counted := h.counted
  shut := h.shut
  drained hs := by
    have hs' : tq.shutdown = true := hs
    rw [h.shut, hd] at hs'
    simp [Destroyer.verified] at hs'
  joined := h.joined
  allJoined := h.allJoined

/-- The effect of `setWorker` on the two counts. -/
theorem runners_setWorker (tq : Taskq n C T) (w : Fin n) (st : Worker T) (item : TaskqItem T) :
    runners (setWorker tq w st) item + (if tq.workers w = .running item then 1 else 0) =
      runners tq item + (if st = .running item then 1 else 0) :=
  Threads.count_update tq.workers w st (· = .running item)

theorem uncounted_setWorker (tq : Taskq n C T) (w : Fin n) (st : Worker T) :
    uncounted (setWorker tq w st) + (if tq.workers w = .counting then 1 else 0) =
      uncounted tq + (if st = .counting then 1 else 0) :=
  Threads.count_update tq.workers w st (· = .counting)

/-- A worker that has not exited has not been joined. -/
theorem exited_setWorker {w : Fin n} {st : Worker T} (hw : tq.workers w ≠ .exited) {v : Fin n}
    (hv : tq.workers v = .exited) : (setWorker tq w st).workers v = .exited := by
  have hne : v ≠ w := fun he => hw (he ▸ hv)
  simp [setWorker, Function.update_of_ne hne, hv]

/-- A worker that holds no item moves between states that are not counted. -/
theorem inv_setWorker (h : Inv tq) {w : Fin n} {st : Worker T} (hw : tq.workers w ≠ .exited)
    (hr : ∀ item, tq.workers w ≠ .running item) (hc : tq.workers w ≠ .counting)
    (hr' : ∀ item, st ≠ .running item) (hc' : st ≠ .counting) : Inv (setWorker tq w st) where
  ids := h.ids
  order := h.order
  len := h.len
  places item := by
    have := runners_setWorker tq w st item
    rw [if_neg (hr item), if_neg (hr' item)] at this
    have := h.places item
    show tq.dequeued.count item = runners (setWorker tq w st) item + tq.finished.count item
    omega
  counted := by
    have := uncounted_setWorker tq w st
    rw [if_neg hc, if_neg hc'] at this
    have := h.counted
    show tq.processed + uncounted (setWorker tq w st) = tq.finished.length
    omega
  shut := h.shut
  drained := h.drained
  joined i hi v hv := exited_setWorker hw (h.joined i hi v hv)
  allJoined hd v := exited_setWorker hw (h.allJoined hd v)

/-- A round of a worker that has counted its last item. -/
theorem inv_taskqWorker (h : Inv tq) {w : Fin n} (hw : tq.workers w = .entering) :
    Inv (taskqWorker tq w) := by
  rw [taskqWorker]
  split
  · exact inv_setWorker h (by simp [hw]) (by simp [hw]) (by simp [hw]) (by simp) (by simp)
  · rename_i hs
    rw [dequeue]
    cases hq : tq.queue with
    | nil => exact inv_setWorker h (by simp [hw]) (by simp [hw]) (by simp [hw]) (by simp) (by simp)
    | cons item queue =>
      have hdes : tq.destroyer.verified = false := by
        rw [← h.shut]
        simpa using hs
      refine ⟨h.ids, ?_, ?_, ?_, ?_, h.shut, ?_, ?_, ?_⟩
      · have := h.order
        rw [hq] at this
        simpa [setWorker] using this
      · have := h.len
        rw [hq] at this
        simp [setWorker, this]
      · intro it
        have h1 := runners_setWorker tq w (.running item) it
        rw [hw, if_neg (by simp)] at h1
        have h2 := h.places it
        show (tq.dequeued ++ [item]).count it =
          runners (setWorker tq w (.running item)) it + tq.finished.count it
        rw [List.count_append, List.count_singleton]
        by_cases hit : item = it
        · subst hit
          simp only [if_true, beq_self_eq_true] at h1 ⊢
          omega
        · rw [if_neg (by simpa using hit)] at h1
          rw [if_neg (by simpa using hit)]
          omega
      · have h1 := uncounted_setWorker tq w (.running item)
        rw [hw, if_neg (by simp), if_neg (by simp)] at h1
        have h2 := h.counted
        show tq.processed + uncounted (setWorker tq w (.running item)) = tq.finished.length
        omega
      · intro hsd
        exact absurd hsd hs
      · intro i hi
        have : tq.destroyer = .joining i := hi
        simp [this, Destroyer.verified] at hdes
      · intro hd
        have : tq.destroyer = .returned := hd
        simp [this, Destroyer.verified] at hdes

/-- A round does not depend on where its worker came from. -/
theorem taskqWorker_setWorker (tq : Taskq n C T) (w : Fin n) (st : Worker T) :
    taskqWorker (setWorker tq w st) w = taskqWorker tq w := by
  rw [taskqWorker, taskqWorker]
  by_cases hs : tq.shutdown = true
  · simp [setWorker, hs]
  · cases hq : tq.queue <;> simp [setWorker, dequeue, hs, hq]

/-- Counting a finished item. -/
theorem inv_count (h : Inv tq) {w : Fin n} (hw : tq.workers w = .counting) :
    Inv (setWorker { tq with processed := tq.processed + 1 } w .entering) where
  ids := h.ids
  order := h.order
  len := h.len
  places item := by
    have h1 := runners_setWorker tq w .entering item
    rw [hw, if_neg (by simp), if_neg (by simp)] at h1
    have h2 := h.places item
    show tq.dequeued.count item = runners (setWorker tq w .entering) item + tq.finished.count item
    omega
  counted := by
    have h1 := uncounted_setWorker tq w .entering
    rw [hw, if_pos rfl, if_neg (by simp)] at h1
    have h2 := h.counted
    show tq.processed + 1 + uncounted (setWorker tq w .entering) = tq.finished.length
    omega
  shut := h.shut
  drained := h.drained
  joined i hi v hv := exited_setWorker (by simp [hw]) (h.joined i hi v hv)
  allJoined hd v := exited_setWorker (by simp [hw]) (h.allJoined hd v)

/-- The function of an item returns. -/
theorem inv_finish (h : Inv tq) {w : Fin n} {item : TaskqItem T} (hw : tq.workers w = .running item) :
    Inv (setWorker { tq with finished := tq.finished ++ [item] } w .counting) where
  ids := h.ids
  order := h.order
  len := h.len
  places it := by
    have h1 := runners_setWorker tq w .counting it
    have h2 := h.places it
    show tq.dequeued.count it = runners (setWorker tq w .counting) it + (tq.finished ++ [item]).count it
    rw [hw, if_neg (c := Worker.counting = _) (by simp)] at h1
    rw [List.count_append, List.count_singleton]
    by_cases hit : item = it
    · subst hit
      simp only [if_true, beq_self_eq_true] at h1 ⊢
      omega
    · rw [if_neg (by simpa using hit)] at h1
      rw [if_neg (by simpa using hit)]
      omega
  counted := by
    have h1 := uncounted_setWorker tq w .counting
    rw [hw, if_neg (by simp), if_pos rfl] at h1
    have h2 := h.counted
    show tq.processed + uncounted (setWorker tq w .counting) = (tq.finished ++ [item]).length
    rw [List.length_append, List.length_singleton]
    omega
  shut := h.shut
  drained := h.drained
  joined i hi v hv := exited_setWorker (by simp [hw]) (h.joined i hi v hv)
  allJoined hd v := exited_setWorker (by simp [hw]) (h.allJoined hd v)

theorem inv_destroy (h : Inv tq) : Inv (taskqDestroy tq) := by
  rw [taskqDestroy]
  split
  · rename_i hq
    exact ⟨h.ids, h.order, h.len, h.places, h.counted, rfl, fun _ => by simpa using hq,
      fun i hi w hw => by cases hi; simp at hw, by simp⟩
  · rename_i hq
    refine ⟨h.ids, h.order, h.len, h.places, h.counted, ?_, h.drained, by simp, by simp⟩
    cases hs : tq.shutdown with
    | false => rfl
    | true => exact absurd (h.drained hs) (by simpa using hq)

theorem Step.inv (hs : Step tq tq') (h : Inv tq) : Inv tq' := by
  cases hs with
  | dispatch task hd => exact inv_dispatch h task hd
  | workerEnter w hw => exact inv_taskqWorker h hw
  | workerWake w hw =>
    exact inv_setWorker h (by simp [hw]) (by simp [hw]) (by simp [hw]) (by simp) (by simp)
  | workerFinish w item hw => exact inv_finish h hw
  | workerCount w hw =>
    have := inv_taskqWorker (inv_count h hw) (w := w) (by simp [setWorker])
    rwa [taskqWorker_setWorker] at this
  | waitCall c hc =>
    exact ⟨h.ids, h.order, h.len, h.places, h.counted, h.shut, h.drained, h.joined, h.allJoined⟩
  | waitEnter c hc =>
    exact ⟨h.ids, h.order, h.len, h.places, h.counted, h.shut, h.drained, h.joined, h.allJoined⟩
  | waitWake c hc =>
    exact ⟨h.ids, h.order, h.len, h.places, h.counted, h.shut, h.drained, h.joined, h.allJoined⟩
  | destroyLock hd => exact inv_destroy h
  | destroyJoin i hd hw =>
    refine ⟨h.ids, h.order, h.len, h.places, h.counted, ?_, h.drained, ?_, by simp⟩
    · rw [h.shut, hd]
      rfl
    · rintro j ⟨⟩ v hv
      rcases Nat.lt_succ_iff_lt_or_eq.mp hv with hv | hv
      · exact h.joined i hd v hv
      · rw [Fin.ext hv]
        exact hw
  | destroyReturn hd =>
    refine ⟨h.ids, h.order, h.len, h.places, h.counted, ?_, h.drained, by simp, ?_⟩
    · rw [h.shut, hd]
      rfl
    · exact fun _ v => h.joined n hd v v.isLt

theorem Reachable.inv (h : Reachable tq) : Inv tq := by
  induction h with
  | create => exact inv_create
  | step _ _ _ hs ih => exact hs.inv ih

theorem Inv.nodup (h : Inv tq) : tq.dispatched.Nodup := by
  refine List.Nodup.of_map TaskqItem.id ?_
  rw [h.ids]
  exact List.nodup_range

/-- An item is in as many places as it was dispatched. -/
theorem Inv.count (h : Inv tq) (item : TaskqItem T) :
    tq.queue.count item + runners tq item + tq.finished.count item = tq.dispatched.count item := by
  have h1 := h.places item
  rw [← h.order, List.count_append]
  omega

/-- Once every worker has exited, every item is finished and counted. -/
theorem Inv.returned (h : Inv tq) (hd : tq.destroyer = .returned) :
    tq.finished.Perm tq.dispatched ∧ tq.processed = tq.dispatched.length := by
  have hex := h.allJoined hd
  have hrun : ∀ item, runners tq item = 0 := fun item => Threads.count_eq_zero (by simp [hex])
  have hunc : uncounted tq = 0 := Threads.count_eq_zero (by simp [hex])
  have hq : tq.queue = [] := h.drained (by rw [h.shut, hd]; rfl)
  have hperm : tq.finished.Perm tq.dispatched := by
    rw [List.perm_iff_count]
    intro item
    have := h.count item
    rw [hq, hrun item, List.count_nil] at this
    omega
  refine ⟨hperm, ?_⟩
  have := h.counted
  rw [hunc, hperm.length_eq] at this
  omega

/-- In every state of every interleaving each dispatched item is in exactly one place, the counters
are right and the queue is first-in first-out; when `taskq_destroy` returns, every item has run once
and has been counted. -/
theorem taskq_exactly_once (h : Reachable tq) :
    (∀ item ∈ tq.dispatched,
      tq.queue.count item + runners tq item + tq.finished.count item = 1) ∧
    (∀ item, item ∈ tq.queue ∨ 0 < runners tq item ∨ item ∈ tq.finished → item ∈ tq.dispatched) ∧
    tq.dispatched.map TaskqItem.id = List.range tq.dispatched.length ∧
    tq.queueLen = tq.queue.length ∧
    tq.dequeued ++ tq.queue = tq.dispatched ∧
    tq.processed ≤ tq.finished.length ∧
    (tq.destroyer = .returned →
      (∀ item ∈ tq.dispatched, tq.finished.count item = 1) ∧
      tq.processed = tq.dispatched.length) := by
  have hi := h.inv
  have hone : ∀ item ∈ tq.dispatched, tq.dispatched.count item = 1 := fun item hm =>
    List.count_eq_one_of_mem hi.nodup hm
  refine ⟨?_, ?_, hi.ids, hi.len, hi.order, ?_, ?_⟩
  · intro item hm
    rw [hi.count, hone item hm]
  · intro item hm
    rw [← List.count_pos_iff, ← hi.count]
    rcases hm with hm | hm | hm
    · have := List.count_pos_iff.mpr hm
      omega
    · omega
    · have := List.count_pos_iff.mpr hm
      omega
  · have := hi.counted
    omega
  · intro hd
    obtain ⟨hperm, hproc⟩ := hi.returned hd
    refine ⟨fun item hm => ?_, hproc⟩
    rw [hperm.count_eq, hone item hm]

/-- One worker runs one task before the queue is destroyed. -/
theorem taskq_exactly_once_one_task : ∃ tq : Taskq 1 Unit Unit, Reachable tq ∧
    tq.destroyer = .returned ∧ tq.dispatched = [⟨0, ()⟩] ∧ tq.finished.count ⟨0, ()⟩ = 1 ∧
    tq.processed = 1 := by
  have h0 : Reachable (taskqCreateFixed 1 Unit Unit) := .create
  have h1 := h0.step (by decide) (by decide) (.dispatch () rfl)
  have h2 := h1.step (by decide) (by decide) (.workerEnter 0 rfl)
  have h3 := h2.step (by decide) (by decide) (.workerFinish 0 ⟨0, ()⟩ rfl)
  have h4 := h3.step (by decide) (by decide) (.workerCount 0 rfl)
  have h5 := h4.step (by decide) (by decide) (.destroyLock rfl)
  have h6 := h5.step (by decide) (by decide) (.workerWake 0 rfl)
  have h7 := h6.step (by decide) (by decide) (.workerEnter 0 rfl)
  have h8 := h7.step (by decide) (by decide) (.destroyJoin 0 rfl rfl)
  have h9 := h8.step (by decide) (by decide) (.destroyReturn rfl)
  obtain ⟨-, -, -, -, -, -, hret⟩ := taskq_exactly_once h9
  obtain ⟨hcount, hproc⟩ := hret rfl
  exact ⟨_, h9, rfl, rfl, hcount ⟨0, ()⟩ (by decide), hproc⟩

end Libjeffpc.Taskq
