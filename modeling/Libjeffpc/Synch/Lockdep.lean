import Libjeffpc.Lib.Comp
import Libjeffpc.Lib.Digraph

/-!
# The lock-order checker (`synch.c`, `JEFFPC_LOCK_TRACKING`)

Every thread has a stack of the locks it holds; the lock classes form a graph that all threads share.
`mxlock` and `rwlock` make the same checks before they take the lock, and `mxunlock` and `rwunlock`
the same after it. A step is a section of `check_unheld_for_lock` that reads or writes shared data
once: it reads `lockdep_on`, or runs with `lockdep_lock` held. Whether a lock is free is left open, so
an acquisition may end at any time. A panic ends the process: it has no step.

`owned` are the locks that a thread really holds and `acquired` the pairs of classes met when a thread
started to acquire a lock; the code reads neither.
-/

namespace Libjeffpc.Synch

open Lib

/-- Where a thread is in `mxlock` or `rwlock`. -/
inductive Pc (L : Type) where
  | outside
  /-- It has read that `lockdep_on` is set. -/
  | checking (l : L)
  /-- It is about to take `lockdep_lock`. -/
  | ordering (l : L)
  /-- It has dropped `lockdep_lock` and is about to read `lockdep_on` again. -/
  | rereading (l : L)
  /-- It is about to push onto its stack. -/
  | pushing (l : L)
  /-- The checks are over. -/
  | acquiring (l : L)
  deriving DecidableEq

/-- What is the same for the whole run: the class of every lock, `JEFFPC_LOCK_DEP_COUNT` and
`JEFFPC_LOCK_STACK_DEPTH`. -/
structure Config (L C : Type) where
  lc : L → C
  depCount : Nat
  stackDepth : Nat

structure Lockdep (T L C : Type) where
  lockdepOn : Bool
  deps : C → List C
  held : T → List L
  pc : T → Pc L
  owned : T → List L
  acquired : List (C × C)
  /-- `error_lock_circular` has been called. -/
  circular : Bool

variable {T L C : Type} [DecidableEq T] [DecidableEq L] [DecidableEq C]

def Lockdep.init (T L C : Type) : Lockdep T L C where
  lockdepOn := true
  deps := fun _ => []
  held := fun _ => []
  pc := fun _ => .outside
  owned := fun _ => []
  acquired := []
  circular := false

/-- The relation of the pairs of classes. -/
def Lockdep.Acquired (s : Lockdep T L C) (c d : C) : Prop := (c, d) ∈ s.acquired

def setPc (s : Lockdep T L C) (t : T) (pc : Pc L) : Lockdep T L C :=
  { s with pc := Function.update s.pc t pc }

/-- The thread starts to acquire `l` while it holds what it holds. -/
def record (cfg : Config L C) (s : Lockdep T L C) (t : T) (l : L) : Lockdep T L C :=
  { s with acquired := s.acquired ++ (s.owned t).map fun k => (cfg.lc l, cfg.lc k) }

/-- `add_dependency`: the sign of what it returns, and the new graph. -/
def addDependency (cfg : Config L C) (s : Lockdep T L C) (src dst : C) :
    Comp (Int × Lockdep T L C) := do
  assert (src ≠ dst)
  if !s.lockdepOn then pure (0, s)
  else if dst ∈ s.deps src then pure (0, s)
  else if (s.deps src).length ≥ cfg.depCount - 1 then pure (-1, s)
  else pure (1, { s with deps := Function.update s.deps src (s.deps src ++ [dst]) })

mutual

/-- `__find_path`; it returns true exactly if it has called `error_lock_circular`. -/
def findPath (deps : C → List C) (src dst : C) : Comp Bool :=
  if src = dst then pure true else (by apply findPathDeps : _ → _ → _ → Comp _) deps (deps src) dst
partial_fixpoint

def findPathDeps (deps : C → List C) (ds : List C) (dst : C) : Comp Bool :=
  match ds with
  | [] => pure false
  | d :: ds => do
    if ← (by apply findPath : _ → _ → _ → Comp Bool) deps d dst then pure true
    else (by apply findPathDeps : _ → _ → _ → Comp Bool) deps ds dst
partial_fixpoint

end

/-- `check_circular_deps` for a thread that holds a lock, the last one of class `last`. -/
def checkCircularDeps (cfg : Config L C) (s : Lockdep T L C) (l : L) (last : C) :
    Comp (Lockdep T L C) := do
  let (ret, s) ← addDependency cfg s (cfg.lc l) last
  if ret < 0 then pure { s with lockdepOn := false }
  else if ret > 0 then do
    if ← findPath s.deps last (cfg.lc l) then pure { s with lockdepOn := false, circular := true }
    else pure s
  else pure s

/-- A step of the thread `t`. -/
inductive Step (cfg : Config L C) (s : Lockdep T L C) : Lockdep T L C → Prop where
  | lockOff (t : T) (l : L) (h : s.pc t = .outside) (hon : s.lockdepOn = false) :
      Step cfg s (setPc (record cfg s t l) t (.acquiring l))
  | lockOn (t : T) (l : L) (h : s.pc t = .outside) (hon : s.lockdepOn = true) :
      Step cfg s (setPc s t (.checking l))
  /-- `error_lock`: the first lock of the same class on the stack is another lock. -/
  | recursive (t : T) (l k : L) (h : s.pc t = .checking l)
      (hf : (s.held t).find? (fun k => cfg.lc k = cfg.lc l) = some k) (hk : k ≠ l) :
      Step cfg s (setPc { record cfg s t l with lockdepOn := false } t (.acquiring l))
  | scanned (t : T) (l : L) (h : s.pc t = .checking l)
      (hf : (s.held t).find? (fun k => cfg.lc k = cfg.lc l) = none) :
      Step cfg s (setPc s t (if s.held t = [] then .pushing l else .ordering l))
  | order (t : T) (l k : L) (s' : Lockdep T L C) (h : s.pc t = .ordering l)
      (hk : (s.held t).getLast? = some k)
      (hrun : checkCircularDeps cfg (record cfg s t l) l (cfg.lc k) = pure s') :
      Step cfg s (setPc s' t (.rereading l))
  | reread (t : T) (l : L) (h : s.pc t = .rereading l) :
      Step cfg s (setPc s t (if s.lockdepOn then .pushing l else .acquiring l))
  | push (t : T) (l : L) (h : s.pc t = .pushing l) (hn : (s.held t).length ≠ cfg.stackDepth) :
      Step cfg s (setPc { s with held := Function.update s.held t (s.held t ++ [l]) } t (.acquiring l))
  | pushLimit (t : T) (l : L) (h : s.pc t = .pushing l) (hn : (s.held t).length = cfg.stackDepth) :
      Step cfg s (setPc { s with lockdepOn := false } t (.acquiring l))
  | acquire (t : T) (l : L) (h : s.pc t = .acquiring l) :
      Step cfg s (setPc { s with owned := Function.update s.owned t (s.owned t ++ [l]) } t .outside)
  | unlockOff (t : T) (l : L) (h : s.pc t = .outside) (hl : l ∈ s.owned t)
      (hon : s.lockdepOn = false) :
      Step cfg s { s with owned := Function.update s.owned t ((s.owned t).erase l) }
  /-- `held_stack_remove` of the first entry for the lock; without one `error_unlock` panics. -/
  | unlockOn (t : T) (l : L) (h : s.pc t = .outside) (hl : l ∈ s.owned t)
      (hon : s.lockdepOn = true) (hh : l ∈ s.held t) :
      Step cfg s { s with
        held := Function.update s.held t ((s.held t).erase l)
        owned := Function.update s.owned t ((s.owned t).erase l) }
  /-- Other code of the checker gives up. -/
  | turnOff : Step cfg s { s with lockdepOn := false }

inductive Reachable (cfg : Config L C) : Lockdep T L C → Prop where
  | init : Reachable cfg (Lockdep.init T L C)
  | step {s s' : Lockdep T L C} (h : Reachable cfg s) (hs : Step cfg s s') : Reachable cfg s'

end Libjeffpc.Synch
