import Libjeffpc.Lib.Sizes
import Libjeffpc.Lib.Threads

/-!
# The lock and the condition variables of a task queue (`taskq.c`)

The same functions as in `Libjeffpc.Taskq.Taskq`, one statement at a time. `MXLOCK` waits until the
lock is free. `CONDWAIT` drops the lock and joins the sleepers of a condition variable in one step; a
thread that is woken up needs the lock again before it goes on. `CONDSIG` wakes one sleeper, if there
is any, and `CONDBCAST` wakes all of them. A sleeper may also wake up for no reason.
-/

namespace Libjeffpc.Taskq.Wakeup

open Lib

/-- The threads that use a task queue with `n` workers: `C` names the callers of `taskq_wait` and `D`
those of `taskq_dispatch`, among them the tasks that dispatch tasks. -/
inductive Thread (n : Nat) (C D : Type) where
  | worker (w : Fin n)
  | waiter (c : C)
  | dispatcher (d : D)
  | destroyer
  deriving DecidableEq

/-- The functions that the threads are in. -/
inductive Kind where
  | worker
  | waiter
  | dispatcher
  | destroyer
  deriving DecidableEq

def Thread.kind {n : Nat} {C D : Type} : Thread n C D → Kind
  | worker _ => .worker
  | waiter _ => .waiter
  | dispatcher _ => .dispatcher
  | destroyer => .destroyer

/-- The statements that are made with the lock held, by function. -/
inductive Point (T : Type) where
  /-- `taskq_worker`: `while (!tq->shutdown)`. -/
  | test
  | dequeue
  /-- `CONDWAIT(&tq->cond_parent2worker, &tq->lock)`. -/
  | condwait
  /-- `CONDBCAST(&tq->cond_worker2parent)`. -/
  | broadcast (item : T)
  | unlock (item : T)
  /-- `tq->processed++`. -/
  | count
  /-- The `MXUNLOCK` after the loop. -/
  | leave
  /-- `taskq_wait`: `while (!list_is_empty(&tq->queue))`. -/
  | waitTest
  /-- `CONDWAIT(&tq->cond_worker2parent, &tq->lock)`. -/
  | waitCondwait
  /-- `VERIFY(list_is_empty(&tq->queue))` and the `MXUNLOCK` after it. -/
  | waitVerify
  /-- `taskq_dispatch`: `enqueue(tq, item)`. -/
  | enqueue (item : T)
  /-- `CONDSIG(&tq->cond_parent2worker)`. -/
  | signal
  | dispatchUnlock
  /-- `taskq_destroy`: `VERIFY(list_is_empty(&tq->queue))`. -/
  | destroyVerify
  /-- `tq->shutdown = true`. -/
  | destroyShutdown
  /-- `CONDBCAST(&tq->cond_parent2worker)`. -/
  | destroyBroadcast
  | destroyUnlock

def Point.kind {T : Type} : Point T → Kind
  | test | dequeue | condwait | broadcast _ | unlock _ | count | leave => .worker
  | waitTest | waitCondwait | waitVerify => .waiter
  | enqueue _ | signal | dispatchUnlock => .dispatcher
  | destroyVerify | destroyShutdown | destroyBroadcast | destroyUnlock => .destroyer

inductive Cond where
  | parent2worker
  | worker2parent
  deriving DecidableEq

/-- Where a thread is. -/
inductive Pc (T : Type) where
  /-- Not in a call. -/
  | outside
  /-- In `MXLOCK`, or woken up in `CONDWAIT`; it goes on at `p` once it has the lock. -/
  | locking (p : Point T)
  /-- It holds the lock, and `p` is next. -/
  | locked (p : Point T)
  /-- In `CONDWAIT`, without the lock. -/
  | asleep (c : Cond) (p : Point T)
  /-- In `item->fxn(item->arg)`. -/
  | running (item : T)
  | exited
  /-- `taskq_destroy` has joined the first `i` threads. -/
  | joining (i : Nat)
  | returned

structure State (n : Nat) (C D T : Type) where
  queue : List T
  queueLen : Nat
  shutdown : Bool
  processed : Nat
  lock : Option (Thread n C D)
  pc : Thread n C D → Pc T
  /-- A `VERIFY` failed. -/
  panicked : Bool

variable {n : Nat} {C D T : Type} [DecidableEq C] [DecidableEq D]

/-- `n` threads have been started. -/
def State.create (n : Nat) (C D T : Type) : State n C D T where
  queue := []
  queueLen := 0
  shutdown := false
  processed := 0
  lock := none
  pc := fun t => match t with
    | .worker _ => .locking .test
    | _ => .outside
  panicked := false

namespace State

def goto (s : State n C D T) (t : Thread n C D) (pc : Pc T) : State n C D T :=
  { s with pc := Function.update s.pc t pc }

/-- `MXUNLOCK`. -/
def unlock (s : State n C D T) : State n C D T := { s with lock := none }

/-- A thread that sleeps is woken up. -/
def wake (s : State n C D T) (t : Thread n C D) (p : Point T) : State n C D T := s.goto t (.locking p)

/-- `CONDBCAST`. -/
def wakeAll (s : State n C D T) (c : Cond) : State n C D T :=
  { s with pc := fun t => match s.pc t with
      | .asleep c' p => if c' = c then .locking p else .asleep c' p
      | pc => pc }

/-- The statement at `p`, made by `t`. The `CONDSIG` of `signal` is a step of its own. -/
def run (s : State n C D T) (t : Thread n C D) : Point T → State n C D T
  | .test => s.goto t (.locked (if s.shutdown then .leave else .dequeue))
  | .dequeue =>
    match s.queue with
    | [] => s.goto t (.locked .condwait)
    | item :: queue =>
      { s with queue, queueLen := s.queueLen - 1 }.goto t (.locked (.broadcast item))
  | .condwait => s.unlock.goto t (.asleep .parent2worker .test)
  | .broadcast item => (s.wakeAll .worker2parent).goto t (.locked (.unlock item))
  | .unlock item => s.unlock.goto t (.running item)
  | .count => { s with processed := s.processed + 1 }.goto t (.locked .test)
  | .leave => s.unlock.goto t .exited
  | .waitTest => s.goto t (.locked (if s.queue.isEmpty then .waitVerify else .waitCondwait))
  | .waitCondwait => s.unlock.goto t (.asleep .worker2parent .waitTest)
  | .waitVerify => if s.queue.isEmpty then s.unlock.goto t .outside else { s with panicked := true }
  | .enqueue item =>
    { s with queue := s.queue ++ [item], queueLen := s.queueLen + 1 }.goto t (.locked .signal)
  | .signal => s
  | .dispatchUnlock => s.unlock.goto t .outside
  | .destroyVerify =>
    if s.queue.isEmpty then s.goto t (.locked .destroyShutdown) else { s with panicked := true }
  | .destroyShutdown => { s with shutdown := true }.goto t (.locked .destroyBroadcast)
  | .destroyBroadcast => (s.wakeAll .parent2worker).goto t (.locked .destroyUnlock)
  | .destroyUnlock => s.unlock.goto t (.joining 0)

end State

/-- A step of some thread. -/
inductive Step (s : State n C D T) : State n C D T → Prop where
  | lock (t : Thread n C D) (p : Point T) (h : s.pc t = .locking p) (hl : s.lock = none) :
      Step s ({ s with lock := some t }.goto t (.locked p))
  | run (t : Thread n C D) (p : Point T) (h : s.pc t = .locked p) (hp : p ≠ .signal) :
      Step s (s.run t p)
  | signalOne (t : Thread n C D) (h : s.pc t = .locked .signal) (t' : Thread n C D) (p : Point T)
      (hs : s.pc t' = .asleep .parent2worker p) :
      Step s ((s.wake t' p).goto t (.locked .dispatchUnlock))
  | signalNone (t : Thread n C D) (h : s.pc t = .locked .signal)
      (hs : ∀ t' p, s.pc t' ≠ .asleep .parent2worker p) : Step s (s.goto t (.locked .dispatchUnlock))
  | spurious (t : Thread n C D) (c : Cond) (p : Point T) (h : s.pc t = .asleep c p) :
      Step s (s.wake t p)
  /-- The task is done, and its item is freed. -/
  | finish (w : Fin n) (item : T) (h : s.pc (.worker w) = .running item) :
      Step s (s.goto (.worker w) (.locking .count))
  | callDispatch (d : D) (item : T) (h : s.pc (.dispatcher d) = .outside) :
      Step s (s.goto (.dispatcher d) (.locking (.enqueue item)))
  | callWait (c : C) (h : s.pc (.waiter c) = .outside) :
      Step s (s.goto (.waiter c) (.locking .waitTest))
  | callDestroy (h : s.pc .destroyer = .outside) :
      Step s (s.goto .destroyer (.locking .destroyVerify))
  | join (i : Fin n) (h : s.pc .destroyer = .joining i) (hw : s.pc (.worker i) = .exited) :
      Step s (s.goto .destroyer (.joining (i + 1)))
  | destroyed (h : s.pc .destroyer = .joining n) : Step s (s.goto .destroyer .returned)

/-- The states of a task queue. Nothing happens after a panic, and nobody may use the queue once
`taskq_destroy` has freed it. -/
inductive Reachable : State n C D T → Prop where
  | create : Reachable (.create n C D T)
  | step {s s' : State n C D T} (h : Reachable s) (hp : s.panicked = false)
      (hr : s.pc .destroyer ≠ .returned) (hs : Step s s') : Reachable s'

end Libjeffpc.Taskq.Wakeup
