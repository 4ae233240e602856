import IndexSet.Lib.LockOrder
import IndexSet.Concurrent.Machine
import IndexSet.Concurrent.Range

/-!
# The Locks of Inserts, Removes and Range Constructions

The same pieces of a call as in the machine of all threads, now with the single
acquisitions of the index lock and of the node mutexes, and with `Range::new`.

- `Job.guards` lists the locks that a phase runs with, in the order it takes them, and
  `Job.kept` says how many of them the step before has kept;
- a thread counts the locks it has `acquired`.  While one is missing its step is to take
  that lock, which has to be free; then it runs the phase and lets go of all locks that
  the next phase does not keep;
- when an equal element is there, `put_cdc_checked` returns the node's guard and lets go of
  the index lock: `replace` is the rest of `put_cdc`.
-/

namespace IndexSet.Concurrent.Locks

open KeyedList

variable {ι M T K Q : Type} [LinearOrder K] [Keyed T K] [LinearOrder Q]

/-! ## §1 Locks -/

/-- The index lock and the mutex of each node. -/
inductive Lock where
  | index
  | node (n : NodeId)
  deriving DecidableEq, Repr

/-- A lock as a thread holds it. -/
inductive Guard where
  | shared
  | exclusive
  | node (n : NodeId)
  deriving DecidableEq, Repr

def Guard.lock : Guard → Lock
  | .shared => .index
  | .exclusive => .index
  | .node n => .node n

/-- Two threads never hold such guards at once. -/
def Guard.excludes : Guard → Guard → Bool
  | .shared, .exclusive => true
  | .exclusive, .shared => true
  | .exclusive, .exclusive => true
  | .node m, .node n => decide (m = n)
  | _, _ => false

/-! ## §2 Threads -/

/-- What a thread is at. -/
inductive Job (T K Q : Type) where
  | call (call : Call T K) (phase : Phase T)
  /-- It has the guard that `put_cdc_checked` returned. -/
  | replace (call : Call T K) (entry : T × NodeId)
  | range (lo hi : Bound Q) (phase : RangePhase T)

/-- The locks a phase of a call runs with. -/
def phaseGuards : Phase T → List Guard
  | .lookup => [.shared]
  | .edit entry => [.shared, .node entry.2]
  | .release => [.shared]
  | .tryWrite => []
  | .insertFirst => []
  | .commit operation _ _ => [.exclusive, .node operation.node]
  | .search n => [.node n]

/-- The locks a phase of `Range::new` runs with. -/
def rangeGuards : RangePhase T → List Guard
  | .start => [.shared]
  | .front e => [.shared, .node e.2]
  | .preFront e p => [.shared, .node e.2, .node p.2]
  | .back _ _ e => [.shared, .node e.2]
  | .postBack _ _ e n => [.shared, .node e.2, .node n.2]
  | .last _ e => [.shared, .node e.2]
  | .first _ e => [.shared, .node e.2]

/-- The locks a thread runs with, in the order it takes them. -/
def Job.guards : Job T K Q → List Guard
  | .call _ phase => phaseGuards phase
  | .replace _ entry => [.node entry.2]
  | .range _ _ phase => rangeGuards phase

/-- How many of these it has kept from the step before. -/
def Job.kept : Job T K Q → ℕ
  | .call _ (.edit _) => 1
  | .call _ .release => 1
  | .call _ _ => 0
  | .replace _ _ => 1
  | .range _ _ .start => 0
  | .range _ _ (.preFront _ _) => 2
  | .range _ _ (.postBack _ _ _ _) => 2
  | .range _ _ _ => 1

/-- A thread. -/
inductive Thread (T K Q : Type) where
  | idle
  | running (job : Job T K Q) (acquired : ℕ)
  | panicked

namespace Thread

/-- The guards a thread has. -/
def guards : Thread T K Q → List Guard
  | .running job acquired => job.guards.take acquired
  | _ => []

/-- The locks a thread holds. -/
def holds (thread : Thread T K Q) : List Lock := thread.guards.map Guard.lock

/-- The lock a thread asks for next. -/
def waits : Thread T K Q → Option Lock
  | .running job acquired => job.guards[acquired]?.map Guard.lock
  | _ => none

def isIdle : Thread T K Q → Bool
  | .idle => true
  | _ => false

end Thread

/-- A thread goes on to its next phase. -/
def go (job : Job T K Q) : Thread T K Q := .running job job.kept

/-- What comes after a step of a call. -/
def afterCall (call : Call T K) : Next T → Thread T K Q
  | .goto phase => go (.call call phase)
  | .done _ _ => .idle
  | .panic => .panicked

/-- What comes after a step of a construction. -/
def afterRange (lo hi : Bound Q) : RangeNext T → Thread T K Q
  | .inl phase => go (.range lo hi phase)
  | .inr _ => .idle

/-! ## §3 Steps -/

section Run

variable [SkipMap M T K]

/-- The entry whose node `put_cdc_checked` is about to return in `Err`. -/
def conflict (s : BTreeSet M T) : Call T K → Phase T → Option (T × NodeId)
  | .insert _ value, .edit entry =>
    match s.putEdit entry value with
    | some (_, .conflict _ _) => some entry
    | _ => none
  | _, _ => none

/-- A thread that has all its locks runs its phase. -/
def Job.run (s : BTreeSet M T) (borrow : T → Q) (alone : Bool) :
    Job T K Q → Option (BTreeSet M T × Thread T K Q)
  | .call c phase =>
    match conflict s c phase with
    | some entry => some (s, go (.replace c entry))
    | none => (turn s alone c phase).map fun r => (r.1, afterCall c r.2)
  | .replace c entry =>
    (turn s alone c (.edit entry)).map fun r => (r.1, afterCall c r.2)
  | .range lo hi phase => some (s, afterRange lo hi (s.rangeTurn borrow lo hi phase))

end Run

/-- The shared set and the threads. -/
structure State (ι M T K Q : Type) where
  shared : BTreeSet M T
  threads : ι → Thread T K Q

/-- An idle thread begins an insert, a remove or a range, or a thread takes its next step. -/
inductive Label (ι T K Q : Type) where
  | insert (t : ι) (value : T)
  | remove (t : ι) (value : K)
  | range (t : ι) (lo hi : Bound Q)
  | turn (t : ι)

namespace State

/-- Threads at rest on a shared set. -/
def start (shared : BTreeSet M T) : State ι M T K Q := ⟨shared, fun _ => .idle⟩

variable [DecidableEq ι]

/-- A thread begins. -/
def begin (s : State ι M T K Q) (t : ι) (job : Job T K Q) : Option (State ι M T K Q) :=
  if (s.threads t).isIdle then
    some { s with threads := Function.update s.threads t (.running job 0) }
  else none

variable [Fintype ι]

/-- No other thread has a guard that excludes this one. -/
def free (s : State ι M T K Q) (t : ι) (guard : Guard) : Bool :=
  decide (∀ u, u ≠ t → ∀ held ∈ (s.threads u).guards, held.excludes guard = false)

variable [SkipMap M T K]

/-- One step. -/
def step (borrow : T → Q) (s : State ι M T K Q) : Label ι T K Q → Option (State ι M T K Q)
  | .insert t value => s.begin t (.call (.insert false value) .lookup)
  | .remove t value => s.begin t (.call (.remove value) .lookup)
  | .range t lo hi => s.begin t (.range lo hi .start)
  | .turn t =>
    match s.threads t with
    | .running job acquired =>
      match job.guards[acquired]? with
      | some guard =>
        if s.free t guard then
          some { s with threads := Function.update s.threads t (.running job (acquired + 1)) }
        else none
      | none =>
        (job.run s.shared borrow (s.free t .exclusive)).map fun r =>
          { shared := r.1, threads := Function.update s.threads t r.2 }
    | _ => none

/-- No thread is at anything. -/
def Quiescent (s : State ι M T K Q) : Prop := ∀ t, (s.threads t).isIdle = true

instance (s : State ι M T K Q) : Decidable s.Quiescent :=
  inferInstanceAs (Decidable (∀ t, (s.threads t).isIdle = true))

/-- Some threads wait for each other's locks.  A thread that asks for the index lock counts
as waiting for every holder, whatever the two modes: a queued writer keeps readers out. -/
def Deadlocked (s : State ι M T K Q) : Prop :=
  LockOrder.Deadlocked (fun t l => l ∈ (s.threads t).holds) fun t l => (s.threads t).waits = some l

end State

end IndexSet.Concurrent.Locks
