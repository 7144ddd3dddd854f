import Libjeffpc.Lib.Threads

/-!
# The task queue (`taskq.c`)

The shared state of a task queue, the local states of its `n` workers, of the callers of `taskq_wait`
and of the one caller of `taskq_destroy`. A step is a section of code between two points where a
thread takes, drops or waits for the lock. A call of `taskq_dispatch` is one step, its section under
the lock: before it the call only fills in an item that nobody else knows. `dispatched`, `dequeued`
and `finished` record what has happened and are never read.
-/

set_option linter.dupNamespace false

namespace Libjeffpc.Taskq

open Lib

/-- `struct taskq_item`; `task` is the pair of `fxn` and `arg`, and `id` tells the items of different
calls of `taskq_dispatch` apart. -/
structure TaskqItem (T : Type) where
  id : Nat
  task : T
  deriving DecidableEq

/-- Where a worker is in `taskq_worker`. -/
inductive Worker (T : Type) where
  /-- It needs the lock to look at `shutdown`: at the start, and when `CONDWAIT` wakes it up. -/
  | entering
  /-- In `CONDWAIT` on `cond_parent2worker`. -/
  | waiting
  /-- In `item->fxn(item->arg)`, without the lock. -/
  | running (item : TaskqItem T)
  /-- The item is done and freed; the worker needs the lock to count it. -/
  | counting
  | exited
  deriving DecidableEq

/-- Where a caller is in `taskq_wait`. -/
inductive Waiter where
  | outside
  /-- It needs the lock to look at the queue. -/
  | entering
  /-- In `CONDWAIT` on `cond_worker2parent`. -/
  | waiting
  deriving DecidableEq

/-- Where `taskq_destroy` is. -/
inductive Destroyer where
  | notCalled
  /-- `VERIFY(list_is_empty(&tq->queue))` failed. -/
  | panicked
  /-- The first `i` threads have been joined. -/
  | joining (i : Nat)
  | returned
  deriving DecidableEq

/-- `struct taskq` and its threads; `C` names the callers of `taskq_wait`. `queueLen` and `processed` are
`unsigned long` in the source, and numbers without a bound here; no function looks at them. -/
structure Taskq (n : Nat) (C T : Type) where
  queue : List (TaskqItem T)
  queueLen : Nat
  shutdown : Bool
  processed : Nat
  workers : Fin n → Worker T
  waiters : C → Waiter
  destroyer : Destroyer
  dispatched : List (TaskqItem T)
  dequeued : List (TaskqItem T)
  finished : List (TaskqItem T)

variable {n : Nat} {C T : Type}

/-- `taskq_create_fixed`: every thread has been started and needs the lock. -/
def taskqCreateFixed (n : Nat) (C T : Type) : Taskq n C T where
  queue := []
  queueLen := 0
  shutdown := false
  processed := 0
  workers := fun _ => .entering
  waiters := fun _ => .outside
  destroyer := .notCalled
  dispatched := []
  dequeued := []
  finished := []

def enqueue (tq : Taskq n C T) (item : TaskqItem T) : Taskq n C T :=
  { tq with queue := tq.queue ++ [item], queueLen := tq.queueLen + 1 }

def dequeue (tq : Taskq n C T) : Option (TaskqItem T) × Taskq n C T :=
  match tq.queue with
  | [] => (none, tq)
  | item :: queue =>
    (some item, { tq with queue, queueLen := tq.queueLen - 1, dequeued := tq.dequeued ++ [item] })

def setWorker (tq : Taskq n C T) (w : Fin n) (st : Worker T) : Taskq n C T :=
  { tq with workers := Function.update tq.workers w st }

/-- `taskq_dispatch`. -/
def taskqDispatch (tq : Taskq n C T) (task : T) : Taskq n C T :=
  let item := ⟨tq.dispatched.length, task⟩
  { enqueue tq item with dispatched := tq.dispatched ++ [item] }

/-- One round of the loop of `taskq_worker`, from where the worker holds the lock to where it drops
it: to wait, to run an item or to exit. -/
def taskqWorker (tq : Taskq n C T) (w : Fin n) : Taskq n C T :=
  if tq.shutdown then setWorker tq w .exited
  else match dequeue tq with
    | (none, tq) => setWorker tq w .waiting
    | (some item, tq) => setWorker tq w (.running item)

/-- The first section of `taskq_destroy`. -/
def taskqDestroy (tq : Taskq n C T) : Taskq n C T :=
  if tq.queue.isEmpty then { tq with shutdown := true, destroyer := .joining 0 }
  else { tq with destroyer := .panicked }

/-- A step of some thread. A wakeup needs no signal: `CONDSIG` and `CONDBCAST` make wakeups happen
that may happen anyway. -/
inductive Step [DecidableEq C] (tq : Taskq n C T) : Taskq n C T → Prop where
  /-- Any caller, a running task too, until `taskq_destroy` has taken the lock. -/
  | dispatch (task : T) (h : tq.destroyer = .notCalled) : Step tq (taskqDispatch tq task)
  | workerEnter (w : Fin n) (h : tq.workers w = .entering) : Step tq (taskqWorker tq w)
  | workerWake (w : Fin n) (h : tq.workers w = .waiting) : Step tq (setWorker tq w .entering)
  | workerFinish (w : Fin n) (item : TaskqItem T) (h : tq.workers w = .running item) :
      Step tq (setWorker { tq with finished := tq.finished ++ [item] } w .counting)
  | workerCount (w : Fin n) (h : tq.workers w = .counting) :
      Step tq (taskqWorker { tq with processed := tq.processed + 1 } w)
  | waitCall (c : C) (h : tq.waiters c = .outside) :
      Step tq { tq with waiters := Function.update tq.waiters c .entering }
  | waitEnter (c : C) (h : tq.waiters c = .entering) :
      Step tq { tq with
        waiters := Function.update tq.waiters c (if tq.queue.isEmpty then .outside else .waiting) }
  | waitWake (c : C) (h : tq.waiters c = .waiting) :
      Step tq { tq with waiters := Function.update tq.waiters c .entering }
  | destroyLock (h : tq.destroyer = .notCalled) : Step tq (taskqDestroy tq)
  | destroyJoin (i : Fin n) (h : tq.destroyer = .joining i) (hw : tq.workers i = .exited) :
      Step tq { tq with destroyer := .joining (i + 1) }
  | destroyReturn (h : tq.destroyer = .joining n) : Step tq { tq with destroyer := .returned }

/-- The states of a task queue with `n` workers. Nothing happens after a panic, and nobody may use
the queue once `taskq_destroy` has freed it. -/
inductive Reachable [DecidableEq C] : Taskq n C T → Prop where
  | create : Reachable (taskqCreateFixed n C T)
  | step {tq tq' : Taskq n C T} (h : Reachable tq) (hp : tq.destroyer ≠ .panicked)
      (hr : tq.destroyer ≠ .returned) (hs : Step tq tq') : Reachable tq'

end Libjeffpc.Taskq
