import IndexSet.Lib.Transition
import IndexSet.Concurrent.Set
import Mathlib.Data.Fintype.Basic

/-!
# Threads on One Shared Set

Any number of threads call the set; each step is what one thread does between acquiring
and releasing locks, or less.

- `Phase` says where a thread stands in its call.  A thread that has looked a node up and
  not edited it yet still holds the index lock shared (`holdsRead`);
- a commit needs the index lock exclusively: it waits while another thread holds it shared;
- the first-node path lets go of the shared lock (`release`), tests `try_write().is_ok()`,
  whose guard dies with the condition, and inserts into the index with no lock held;
- `contains` and `get` let go of the index lock before they search the node;
- the `Ref` that `get` returns keeps the node's mutex; here `get` gives the element and no step
  waits for a `Ref`;
- `try_write` also fails while another thread holds the lock exclusively.  Here a commit is
  one step, so that no other thread ever finds it so;
- a step draws all its identifiers at once.  `Drawing` cuts the calls at every `fetch_add`.

`invoked` and `returned` record what was called and what came back, with its events.
-/

namespace IndexSet.Concurrent

open KeyedList

variable {ι M T K : Type} [LinearOrder K] [Keyed T K]

/-! ## §1 Calls and where they stand -/

/-- A call; a `checked` insert is a `put_cdc_checked` that reports an equal element, any
other a `put_cdc`. -/
inductive Call (T K : Type) where
  | insert (checked : Bool) (value : T)
  | remove (value : K)
  | contains (value : K)
  | get (value : K)
  deriving DecidableEq

/-- What a call returns. -/
inductive Ret (T : Type) where
  | put (old : Option T)
  | refused
  | removed (deleted : Option T)
  | found (b : Bool)
  | got (x : Option T)
  deriving DecidableEq

/-- Where a thread stands in its call. -/
inductive Phase (T : Type) where
  | lookup
  /-- It found the entry of its value and goes for the node's mutex. -/
  | edit (entry : T × NodeId)
  /-- It found an empty index. -/
  | release
  | tryWrite
  | insertFirst
  /-- It waits for the exclusive lock. -/
  | commit (operation : Operation T) (deleted : Option T) (cdc : List (ChangeEvent T))
  /-- It has the node, and no lock. -/
  | search (node : NodeId)
  deriving DecidableEq

/-- The phases in which the index lock is held shared. -/
def Phase.holdsRead : Phase T → Bool
  | .edit _ => true
  | .release => true
  | _ => false

/-- What follows a step of a call. -/
inductive Next (T : Type) where
  | goto (phase : Phase T)
  | done (ret : Ret T) (cdc : List (ChangeEvent T))
  | panic

/-- A thread. -/
inductive Thread (T K : Type) where
  | idle
  | running (call : Call T K) (phase : Phase T)
  | panicked
  deriving DecidableEq

def Thread.holdsRead : Thread T K → Bool
  | .running _ phase => phase.holdsRead
  | _ => false

/-! ## §2 One step of a call -/

/-- What a call returns once its commit has given up or changed nothing but the index. -/
def Call.answer : Call T K → Option T → Ret T
  | .remove _, deleted => .removed deleted
  | _, _ => .put none

/-- One step of a call.  `alone` says that no other thread holds the index lock shared;
`none`, that the step has to wait. -/
def turn [SkipMap M T K] (s : BTreeSet M T) (alone : Bool) :
    Call T K → Phase T → Option (BTreeSet M T × Next T)
  -- `put_cdc_checked` and `put_cdc`
  | .insert _ value, .lookup =>
    match s.lookupPut (key value) with
    | some entry => some (s, .goto (.edit entry))
    | none => some (s, .goto .release)
  | .insert _ value, .release =>
    match s.firstNode value with
    | some _ => some (s, .goto .tryWrite)
    | none => some (s, .panic)
  | .insert _ _, .tryWrite =>
    if alone && !s.poisoned then some (s, .goto .insertFirst) else some (s, .goto .lookup)
  | .insert _ value, .insertFirst =>
    let (s, cdc) := s.insertFirst value
    some (s, .done (.put none) cdc)
  | .insert checked value, .edit entry =>
    match s.putEdit entry value with
    | none => some (s, .panic)
    | some (s, .done cdc) => some (s, .done (.put none) cdc)
    | some (s, .conflict idx max) =>
      if checked then some (s, .done .refused [])
      else
        match s.putReplace entry.2 idx max value with
        | none => some (s, .panic)
        | some (s, old, cdc) => some (s, .done (.put old) cdc)
    | some (s, .deferred operation cdc) => some (s, .goto (.commit operation none cdc))
  | .insert _ _, .commit operation _ cdc =>
    if alone then
      match s.commitDeferred operation cdc with
      | none => some ({ s with poisoned := true }, .panic)
      | some (s, some (old, cdc)) => some (s, .done (.put old) cdc)
      | some (s, none) =>
        match operation with
        | .split _ _ _ => some (s, .goto .lookup)
        | _ => some (s, .done (.put none) cdc)
    else none
  -- `remove_cdc`
  | .remove value, .lookup =>
    match s.lookupRemove value with
    | some entry => some (s, .goto (.edit entry))
    | none => some (s, .done (.removed none) [])
  | .remove value, .edit entry =>
    match s.removeEdit entry value with
    | none => some (s, .panic)
    | some (s, .absent) => some (s, .done (.removed none) [])
    | some (s, .done deleted cdc) => some (s, .done (.removed (some deleted)) cdc)
    | some (s, .deferred deleted operation cdc) =>
      some (s, .goto (.commit operation (some deleted) cdc))
  | .remove _, .commit operation deleted cdc =>
    if alone then
      match s.commitDeferred operation cdc with
      | none => some ({ s with poisoned := true }, .panic)
      | some (s, some (_, cdc)) => some (s, .done (.removed deleted) cdc)
      | some (s, none) => some (s, .done (.removed deleted) cdc)
    else none
  -- `contains` and `get`
  | .contains value, .lookup =>
    match s.locateNode value with
    | some n => some (s, .goto (.search n))
    | none => some (s, .done (.found false) [])
  | .contains value, .search n => some (s, .done (.found (Node.contains (s.nodes n) value)) [])
  | .get value, .lookup =>
    match s.locateNode value with
    | some n => some (s, .goto (.search n))
    | none => some (s, .done (.got none) [])
  | .get value, .search n =>
    let position := Node.trySelect (s.nodes n) value
    some (s, .done (.got (position.bind fun position => (s.nodes n)[position]?)) [])
  | _, _ => none

/-! ## §3 All threads -/

/-- A call that has returned. -/
structure Returned (ι T K : Type) where
  thread : ι
  call : Call T K
  ret : Ret T
  cdc : List (ChangeEvent T)

/-- The shared set, the threads, and what has been called and returned so far. -/
structure State (ι M T K : Type) where
  shared : BTreeSet M T
  threads : ι → Thread T K
  invoked : List (ι × Call T K)
  returned : List (Returned ι T K)

/-- An idle thread calls, or a thread in a call takes its next step. -/
inductive Label (ι T K : Type) where
  | call (t : ι) (call : Call T K)
  | turn (t : ι)

def Next.thread (call : Call T K) : Next T → Thread T K
  | .goto phase => .running call phase
  | .done _ _ => .idle
  | .panic => .panicked

def Next.record (t : ι) (call : Call T K) : Next T → List (Returned ι T K)
  | .done ret cdc => [⟨t, call, ret, cdc⟩]
  | _ => []

omit [LinearOrder K] [Keyed T K] in
@[simp] theorem Next.record_goto (t : ι) (call : Call T K) (phase : Phase T) :
    (Next.goto phase).record t call = [] := rfl

omit [LinearOrder K] [Keyed T K] in
@[simp] theorem Next.record_panic (t : ι) (call : Call T K) :
    (Next.panic : Next T).record t call = [] := rfl

namespace State

/-- Threads at rest on a shared set. -/
def start (shared : BTreeSet M T) : State ι M T K := ⟨shared, fun _ => .idle, [], []⟩

variable [DecidableEq ι]

/-- No thread but `t` holds the index lock shared. -/
def alone [Fintype ι] (s : State ι M T K) (t : ι) : Bool :=
  decide (∀ u, u ≠ t → (s.threads u).holdsRead = false)

/-- A call begins. -/
def invoke (s : State ι M T K) (t : ι) (call : Call T K) : State ι M T K :=
  { s with
    threads := Function.update s.threads t (.running call .lookup)
    invoked := s.invoked ++ [(t, call)] }

/-- A step of a call is over. -/
def advance (s : State ι M T K) (t : ι) (call : Call T K) (shared : BTreeSet M T)
    (next : Next T) : State ι M T K :=
  { s with
    shared
    threads := Function.update s.threads t (next.thread call)
    returned := s.returned ++ next.record t call }

variable [Fintype ι] [SkipMap M T K]

/-- One step of the machine. -/
def step (s : State ι M T K) : Label ι T K → Option (State ι M T K)
  | .call t call =>
    match s.threads t with
    | .idle => some (s.invoke t call)
    | _ => none
  | .turn t =>
    match s.threads t with
    | .running call phase =>
      (turn s.shared (s.alone t) call phase).map fun r => s.advance t call r.1 r.2
    | _ => none

/-- No call is in flight. -/
def Quiescent (s : State ι M T K) : Prop := ∀ t, s.threads t = .idle

instance [DecidableEq T] (s : State ι M T K) : Decidable s.Quiescent :=
  inferInstanceAs (Decidable (∀ t, s.threads t = .idle))

end State

end IndexSet.Concurrent
