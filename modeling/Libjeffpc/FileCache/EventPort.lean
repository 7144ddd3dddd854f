import Libjeffpc.Errno
import Libjeffpc.Lib.Threads

/-!
# The file cache (`file_cache_event_port.c`)

The nodes, the tree of those that are cached, the associations that the event port still has, and the local
states of the callers of `file_cache_get` and of the thread in `filemon`. A step is a section of code between
two points where a thread takes or drops a lock. `uncached` records what `uncache_all_files` has taken out of the
tree and is never read.
-/

namespace Libjeffpc.FileCache

open Lib

/-- `struct file_node`; `locked` says that `process_file` holds its lock. -/
structure FileNode (α β : Type) where
  name : α
  refcnt : Nat
  locked : Bool
  contents : Option β
  needsReload : Bool
  cacheRev : UInt64

/-- What `portev_events` says: nothing, that the file has changed, or one of the `FILE_EXCEPTION` events. -/
inductive Events where
  | none
  | changed
  | exception
  deriving DecidableEq

/-- Where a thread is in `process_file`. -/
inductive Phase where
  /-- It needs the lock of the node. -/
  | start (events : Events)
  /-- At `free`: it holds the lock of the node and needs the lock of the cache. -/
  | remove
  /-- At `fn_putref`. -/
  | drop
  deriving DecidableEq

/-- Where a caller of `file_cache_get` is; it has the address of a node. -/
inductive Caller (α : Type) where
  | outside
  | finding (name : α)
  | loading (name : α)
  | inserting (node : Nat)
  | processing (phase : Phase) (node : Nat)
  | output (node : Nat)
  /-- At the last `fn_putref`. -/
  | releasing (node : Nat)
  deriving DecidableEq

/-- Where the thread in `filemon` is: in `port_get` or in `process_file`. -/
inductive Filemon where
  | waiting
  | processing (phase : Phase) (node : Nat)
  deriving DecidableEq

/-- Addresses from `next` on have not been given to nodes; none is given out twice. -/
structure Cache (α β C : Type) where
  nodes : Nat → FileNode α β
  next : Nat
  tree : α → Option Nat
  pending : Nat → Bool
  callers : C → Caller α
  filemon : Filemon
  revision : UInt64
  uncached : Nat → Bool

section Sections

variable {α β C : Type} [DecidableEq α] [DecidableEq C]

/-- The node is in the tree. -/
def Cache.Cached (fc : Cache α β C) (n : Nat) : Prop := fc.tree (fc.nodes n).name = some n

instance (fc : Cache α β C) (n : Nat) : Decidable (fc.Cached n) :=
  inferInstanceAs (Decidable (fc.tree (fc.nodes n).name = some n))

def Cache.setNode (fc : Cache α β C) (n : Nat) (node : FileNode α β) : Cache α β C :=
  { fc with nodes := Function.update fc.nodes n node }

def Cache.setCaller (fc : Cache α β C) (c : C) (st : Caller α) : Cache α β C :=
  { fc with callers := Function.update fc.callers c st }

def Cache.getref (fc : Cache α β C) (n : Nat) : Cache α β C :=
  fc.setNode n { fc.nodes n with refcnt := (fc.nodes n).refcnt + 1 }

/-- A node is free when its count is zero. -/
def Cache.putref (fc : Cache α β C) (n : Nat) : Cache α β C :=
  fc.setNode n { fc.nodes n with refcnt := (fc.nodes n).refcnt - 1 }

/-! ## `process_file`, of a caller or of `filemon` (`none`) -/

def Cache.process (fc : Cache α β C) : Option C → Option (Phase × Nat)
  | some c => match fc.callers c with
    | .processing phase n => some (phase, n)
    | _ => none
  | none => match fc.filemon with
    | .processing phase n => some (phase, n)
    | .waiting => none

def Cache.setPhase (fc : Cache α β C) (who : Option C) (phase : Phase) (n : Nat) : Cache α β C :=
  { fc with
    callers := match who with
      | some c => Function.update fc.callers c (.processing phase n)
      | none => fc.callers
    filemon := match who with
      | some _ => fc.filemon
      | none => .processing phase n }

/-- `process_file` returns. -/
def Cache.leave (fc : Cache α β C) (who : Option C) (n : Nat) : Cache α β C :=
  { fc with
    callers := match who with
      | some c => Function.update fc.callers c (.output n)
      | none => fc.callers
    filemon := match who with
      | some _ => fc.filemon
      | none => .waiting }

/-- From `MXLOCK` to `MXUNLOCK`, or to `free`: the section under the lock of the node is one step.
`uncache_all_files` takes the lock of the tree and not this one, and may really run in the middle of it; here it runs
before or after. What `xstat` and `port_associate` say is not up to the program. -/
def processStart (fc : Cache α β C) (who : Option C) (n : Nat) (events : Events) (statOk associateOk : Bool) :
    Cache α β C :=
  let node := fc.nodes n
  let free (node : FileNode α β) := (fc.setNode n { node with locked := true }).setPhase who .remove n
  let register (node : FileNode α β) :=
    if associateOk then
      ({ fc.setNode n node with pending := Function.update fc.pending n true } : Cache α β C).leave who n
    else free node
  match events with
  | .exception => free { node with needsReload := true }
  | .changed => if statOk then register { node with needsReload := true, contents := none } else free node
  | .none => if statOk then register node else free node

/-- `rb_remove`, and both locks are dropped. -/
def processRemove (fc : Cache α β C) (who : Option C) (n : Nat) : Cache α β C :=
  let fc := { fc with tree := Function.update fc.tree (fc.nodes n).name none }
  (fc.setNode n { fc.nodes n with locked := false }).setPhase who .drop n

def processDrop (fc : Cache α β C) (who : Option C) (n : Nat) : Cache α β C := (fc.putref n).leave who n

/-! ## `file_cache_get` -/

def getFind (fc : Cache α β C) (c : C) (name : α) : Cache α β C :=
  match fc.tree name with
  | some n => (fc.getref n).setCaller c (.output n)
  | none => fc.setCaller c (.loading name)

/-- What `load_file` gets: no memory, a file that cannot be read, or one that can. -/
inductive Load (β : Type) where
  | noMemory
  | unreadable
  | contents (b : β)

/-- `load_file`; `cache_rev` is set by `fn_alloc` and once more by `__reload`. -/
def loadFile (fc : Cache α β C) (c : C) (name : α) : Load β → Cache α β C
  | .noMemory => fc.setCaller c .outside
  | .unreadable => { fc.setCaller c .outside with revision := fc.revision + 1 }
  | .contents b =>
    { fc.setNode fc.next ⟨name, 1, false, some b, false, fc.revision + 2⟩ with
      next := fc.next + 1, revision := fc.revision + 2,
      callers := Function.update fc.callers c (.inserting fc.next) }

def getInsert (fc : Cache α β C) (c : C) (out : Nat) : Cache α β C :=
  match fc.tree (fc.nodes out).name with
  | some tmp => ((fc.getref tmp).putref out).setCaller c (.output tmp)
  | none =>
    ({ fc.getref out with tree := Function.update fc.tree (fc.nodes out).name (some out) } : Cache α β C).setCaller c
      (.processing (.start .none) out)

/-- `__reload` with the lock of the node: what it returns, the node and the revision. -/
def reload (node : FileNode α β) (revision : UInt64) (r : Except Errno β) :
    Except Errno Unit × FileNode α β × UInt64 :=
  if !node.needsReload then (.ok (), node, revision)
  else
    match r with
    | .error e => (.error e, { node with contents := none }, revision)
    | .ok b => (.ok (), { node with contents := some b, needsReload := false, cacheRev := revision + 1 }, revision + 1)

/-- From `output` on with the lock of the node: what `file_cache_get` returns, if the file holds `r`. -/
def getOutput (fc : Cache α β C) (c : C) (n : Nat) (r : Except Errno β) :
    Except Errno (Option β × UInt64) × Cache α β C :=
  let (ret, node, revision) := reload (fc.nodes n) fc.revision r
  let fc := ({ fc.setNode n node with revision } : Cache α β C).setCaller c (.releasing n)
  (ret.map fun _ => (node.contents, node.cacheRev), fc)

def getRelease (fc : Cache α β C) (c : C) (n : Nat) : Cache α β C := (fc.putref n).setCaller c .outside

/-! ## `uncache_all_files` -/

def uncacheAllFiles (fc : Cache α β C) : Cache α β C :=
  { fc with
    nodes := fun n => if fc.Cached n then { fc.nodes n with refcnt := (fc.nodes n).refcnt - 1 } else fc.nodes n
    tree := fun _ => none
    uncached := fun n => fc.uncached n || decide (fc.Cached n) }

/-! ## Runs -/

inductive Act (α β C : Type) where
  | call (c : C) (name : α)
  | find (c : C)
  | load (c : C) (r : Load β)
  | insert (c : C)
  | output (c : C) (r : Except Errno β)
  | release (c : C)
  /-- `port_get` returns an event, and with it the association is gone. -/
  | event (n : Nat) (events : Events)
  | start (who : Option C) (statOk associateOk : Bool)
  | remove (who : Option C)
  | drop (who : Option C)
  | uncache

inductive Step (fc : Cache α β C) : Act α β C → Cache α β C → Prop where
  | call {c : C} {name : α} (h : fc.callers c = .outside) : Step fc (.call c name) (fc.setCaller c (.finding name))
  | find {c : C} {name : α} (h : fc.callers c = .finding name) : Step fc (.find c) (getFind fc c name)
  | load {c : C} {name : α} {r : Load β} (h : fc.callers c = .loading name) : Step fc (.load c r) (loadFile fc c name r)
  | insert {c : C} {n : Nat} (h : fc.callers c = .inserting n) : Step fc (.insert c) (getInsert fc c n)
  | output {c : C} {n : Nat} {r : Except Errno β} (h : fc.callers c = .output n)
      (hlock : (fc.nodes n).locked = false) : Step fc (.output c r) (getOutput fc c n r).2
  | release {c : C} {n : Nat} (h : fc.callers c = .releasing n) : Step fc (.release c) (getRelease fc c n)
  | event {n : Nat} {events : Events} (h : fc.filemon = .waiting) (hn : fc.pending n = true) :
      Step fc (.event n events)
        { fc with pending := Function.update fc.pending n false, filemon := .processing (.start events) n }
  | start {who : Option C} {n : Nat} {events : Events} {statOk associateOk : Bool}
      (h : fc.process who = some (.start events, n)) (hlock : (fc.nodes n).locked = false) :
      Step fc (.start who statOk associateOk) (processStart fc who n events statOk associateOk)
  | remove {who : Option C} {n : Nat} (h : fc.process who = some (.remove, n)) :
      Step fc (.remove who) (processRemove fc who n)
  | drop {who : Option C} {n : Nat} (h : fc.process who = some (.drop, n)) : Step fc (.drop who) (processDrop fc who n)
  | uncache : Step fc .uncache (uncacheAllFiles fc)

/-- `file_cache_init`; what is at addresses that have not been given out does not matter. -/
def fileCacheInit (nodes : Nat → FileNode α β) (revision : UInt64) : Cache α β C where
  nodes n := { nodes n with refcnt := 0 }
  next := 0
  tree := fun _ => none
  pending := fun _ => false
  callers := fun _ => .outside
  filemon := .waiting
  revision := revision
  uncached := fun _ => false

/-- `process_file` runs on a node with references, and takes a node out of the tree that is in it. -/
def Safe (fc : Cache α β C) : Act α β C → Prop
  | .start who _ _ | .drop who => ∀ phase n, fc.process who = some (phase, n) → 0 < (fc.nodes n).refcnt
  | .remove who => ∀ phase n, fc.process who = some (phase, n) → 0 < (fc.nodes n).refcnt ∧ fc.Cached n
  | _ => True

/-- A caller has a reference to the node. -/
def Caller.Holds : Caller α → Nat → Prop
  | .inserting m, n | .processing _ m, n | .output m, n | .releasing m, n => m = n
  | _, _ => False

/-- `process_file` comes to no node that `uncache_all_files` has taken out of the tree, unless it starts on a node
that a caller of `file_cache_get` still has a reference to. -/
def Undisturbed (fc : Cache α β C) : Act α β C → Prop
  | .start who _ _ => ∀ phase n, fc.process who = some (phase, n) → fc.uncached n = true → ∃ c, (fc.callers c).Holds n
  | .remove who => ∀ phase n, fc.process who = some (phase, n) → fc.uncached n = false
  | _ => True

/-- The states of the cache in runs whose steps are all `ok`. -/
inductive Reachable (ok : Cache α β C → Act α β C → Prop) : Cache α β C → Prop where
  | init {nodes : Nat → FileNode α β} {revision : UInt64} : Reachable ok (fileCacheInit nodes revision)
  | step {fc fc' : Cache α β C} {act : Act α β C} (h : Reachable ok fc) (hact : ok fc act) (hs : Step fc act fc') :
      Reachable ok fc'

end Sections

end Libjeffpc.FileCache
