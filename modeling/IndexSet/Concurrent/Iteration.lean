import IndexSet.Concurrent.Machine
import IndexSet.Concurrent.RankCount

/-!
# Iterating While Threads Insert

`Iter::new` and `Iter::next` of `concurrent/set.rs` read the index without its lock, so they
see a commit part-way: a commit takes an entry out of the skip list and puts its
successors in one at a time.

- `IndexWrite`, `BTreeSet.indexWrites`: what a commit does to the skip list, in order;
- `Iter`: an iteration that only goes forward.  Its back value is never set, and of its back
  node only the presence matters: with a back node `next` skips what it has yielded when it
  locks a node, without one it does not.  It skips by `rank`, which counts in `i32`;
- `State.step`: any number of inserting threads, and one iteration.  `writer` is the thread
  whose commit is under way: it has the index lock exclusively, and the mutex of its node.

A thread that commits changes its nodes when it begins, under the mutex that it keeps to the
end; `threads` says what comes after.
-/

namespace IndexSet.Concurrent.Iteration

open KeyedList

variable {ι M T K : Type} [LinearOrder K] [Keyed T K]

/-! ## §1 What a commit does to the skip list -/

/-- One operation on the skip list. -/
inductive IndexWrite (T K : Type) where
  | insert (max : T) (n : NodeId)
  | remove (max : K)
  deriving DecidableEq

def IndexWrite.apply [SkipMap M T K] (index : M) : IndexWrite T K → M
  | .insert max n => SkipMap.insert index max n
  | .remove max => SkipMap.remove index max

/-- The operation finds its entry under `old_max`, with its node. -/
def isRegistered [SkipMap M T K] (s : BTreeSet M T) (n : NodeId) (oldMax : T) : Bool :=
  match SkipMap.get s.index (key oldMax) with
  | some entry => decide (entry.2 = n)
  | none => false

/-- The operations of `Operation::commit` on the skip list, in order. -/
def indexWrites [SkipMap M T K] (s : BTreeSet M T) : Operation T → List (IndexWrite T K)
  | .split oldNode oldMax value =>
    if isRegistered s oldNode oldMax then
      let (lower, newVec) := Node.halve (s.nodes oldNode)
      let (insertAttempted, lowerWrites) : Bool × List (IndexWrite T K) := match Node.max lower with
        | some max =>
          (decide (key value ≤ key max), [.insert (lowerHalf lower max value).max oldNode])
        | none => (false, [])
      let upperWrites := match Node.max newVec with
        | some max =>
          [.insert (if insertAttempted then max else (upperHalf newVec max value).max) s.nextNode]
        | none => []
      .remove (key oldMax) :: lowerWrites ++ upperWrites
    else []
  | .updateMax node oldMax =>
    match Node.max (s.nodes node) with
    | none => []
    | some newMax =>
      if isRegistered s node oldMax ∧ key newMax ≠ key oldMax then
        [.remove (key oldMax), .insert newMax node]
      else []
  | .makeUnreachable node oldMax =>
    if isRegistered s node oldMax ∧
        BTreeSet.compareMax (Node.max (s.nodes node)) oldMax = .lt then
      [.remove (key oldMax)]
    else []

/-! ## §2 The iteration -/

/-- Where an iteration stands: its current front node, its guard and what is left of the
node's slice. -/
inductive Walk (T : Type) where
  /-- `Iter::new` has read the front of the index, not yet its back. -/
  | opened (front : Option NodeId)
  /-- There is no current node. -/
  | start
  /-- It goes for the mutex of its node; `resume`: it will skip what it has yielded. -/
  | lock (n : NodeId) (resume : Bool)
  /-- It has the mutex. -/
  | inside (n : NodeId) (rest : List T)
  /-- The slice is exhausted and the mutex released: it looks for the node in the index. -/
  | find (n : NodeId)
  /-- It has found the entry of the node and goes for the next one. -/
  | next (n : NodeId) (entry : T × NodeId)
  | ended
  | panicked
  deriving DecidableEq

/-- `struct Iter`, with what it has yielded and what the set held when it was made. -/
structure Iter (T : Type) where
  walk : Walk T
  hasBack : Bool
  currentFrontValue : Option T
  yielded : List T
  initial : List T
  deriving DecidableEq

/-- The node whose mutex the iteration holds. -/
def Walk.holds : Walk T → Option NodeId
  | .inside n _ => some n
  | _ => none

/-- The slice of a node that has just been locked, behind the last value yielded; `none` is the
panic of `rank`. -/
def resumeAt (overflowChecks : Bool) (l : List T) (currentFrontValue : Option T) :
    Option (List T) :=
  match currentFrontValue with
  | some value =>
    (Node.rankI32 overflowChecks key l (.excluded (key value)) true).map fun
      | some rank => l.drop (rank + 1)
      | none => l
  | none => some l

section Steps

variable [SkipMap M T K]

/-- `Iter::new`: the front of the index. -/
def Iter.new (s : BTreeSet M T) : Iter T where
  walk := .opened ((SkipMap.front s.index).map Prod.snd)
  hasBack := false
  currentFrontValue := none
  yielded := []
  initial := (SkipMap.iter s.index).flatMap fun e => s.nodes e.2

/-- The next step of `Iter::new` or `Iter::next`; `free`: nobody holds the node's mutex. -/
def Iter.step (overflowChecks : Bool) (s : BTreeSet M T) (free : NodeId → Bool) (it : Iter T) :
    Option (Iter T) :=
  match it.walk with
  | .opened front =>
    let it := { it with hasBack := (SkipMap.back s.index).isSome }
    match front with
    | some n => some { it with walk := .lock n true }
    | none => some { it with walk := .start }
  | .start =>
    match SkipMap.front s.index with
    | some e => some { it with walk := .lock e.2 it.hasBack }
    | none => some { it with walk := .ended }
  | .lock n resume =>
    if free n then
      let rest :=
        if resume then resumeAt overflowChecks (s.nodes n) it.currentFrontValue
        else some (s.nodes n)
      match rest with
      | some rest => some { it with walk := .inside n rest }
      | none => some { it with walk := .panicked }
    else none
  | .inside n (value :: rest) =>
    some { it with
      walk := .inside n rest, currentFrontValue := some value, yielded := it.yielded ++ [value] }
  | .inside n [] => some { it with walk := .find n }
  | .find n =>
    match (SkipMap.iter s.index).find? fun e => e.2 = n with
    | some e => some { it with walk := .next n e }
    | none => some { it with walk := .ended }
  | .next _ e =>
    match SkipMap.next s.index e with
    | some p => some { it with walk := .lock p.2 it.hasBack }
    | none => some { it with walk := .ended }
  | .ended => none
  | .panicked => none

/-! ## §3 All threads -/

/-- The thread whose commit is under way, the node whose mutex it has, and what it still has
to do to the skip list. -/
structure Writer (ι T K : Type) where
  thread : ι
  node : NodeId
  writes : List (IndexWrite T K)

/-- The build, the shared set, the threads, the commit under way, and the iteration once it has
begun. -/
structure State (ι M T K : Type) where
  overflowChecks : Bool
  shared : BTreeSet M T
  threads : ι → Thread T K
  writer : Option (Writer ι T K)
  iter : Option (Iter T)

/-- A thread begins an insert or takes its next step; the iteration begins or goes on. -/
inductive Label (ι T : Type) where
  | insert (t : ι) (value : T)
  | turn (t : ι)
  | iter
  | next

/-- The node whose mutex an edit runs with. -/
def editNode : Phase T → Option NodeId
  | .edit entry => some entry.2
  | _ => none

/-- The phases that hold no lock and ask for none they would have to wait for. -/
def unlocked : Phase T → Bool
  | .tryWrite => true
  | .insertFirst => true
  | _ => false

namespace State

/-- Threads at rest on a shared set. -/
def start (overflowChecks : Bool) (shared : BTreeSet M T) : State ι M T K :=
  ⟨overflowChecks, shared, fun _ => .idle, none, none⟩

variable [DecidableEq ι]

/-- The iteration does not hold the mutex of the node. -/
def free (s : State ι M T K) (n : NodeId) : Bool :=
  match s.iter with
  | some it => decide (it.walk.holds ≠ some n)
  | none => true

/-- No commit holds the mutex of the node. -/
def unwritten (s : State ι M T K) (n : NodeId) : Bool :=
  match s.writer with
  | some w => decide (w.node ≠ n)
  | none => true

/-- No thread but `t` holds the index lock shared. -/
def alone [Fintype ι] (s : State ι M T K) (t : ι) : Bool :=
  decide (∀ u, u ≠ t → (s.threads u).holdsRead = false)

/-- A step of a call is over. -/
def advance (s : State ι M T K) (t : ι) (call : Call T K) (shared : BTreeSet M T)
    (next : Next T) : State ι M T K :=
  { s with shared, threads := Function.update s.threads t (next.thread call) }

variable [Fintype ι]

/-- A commit begins: all but the operations on the skip list, which are still to do. -/
def beginCommit (s : State ι M T K) (t : ι) (call : Call T K) (operation : Operation T)
    (shared : BTreeSet M T) (next : Next T) : State ι M T K :=
  { s.advance t call { shared with index := s.shared.index } next with
    writer := match next with
      | .panic => none
      | _ => some ⟨t, operation.node, indexWrites s.shared operation⟩ }

/-- The next operation of a commit on the skip list, or its end. -/
def write (s : State ι M T K) (w : Writer ι T K) : State ι M T K :=
  match w.writes with
  | op :: writes =>
    { s with
      shared := { s.shared with index := op.apply s.shared.index }
      writer := some { w with writes } }
  | [] => { s with writer := none }

/-- A step of a thread. -/
def turn (s : State ι M T K) (t : ι) : Option (State ι M T K) :=
  match s.writer, s.threads t with
  | some w, thread =>
    if w.thread = t then some (s.write w)
    else match thread with
      | .running call phase =>
        if unlocked phase then
          (Concurrent.turn s.shared false call phase).map fun r => s.advance t call r.1 r.2
        else none
      | _ => none
  | none, .running call (.commit operation deleted cdc) =>
    if s.free operation.node then
      (Concurrent.turn s.shared (s.alone t) call (.commit operation deleted cdc)).map fun r =>
        s.beginCommit t call operation r.1 r.2
    else none
  | none, .running call phase =>
    if (editNode phase).all s.free then
      (Concurrent.turn s.shared (s.alone t) call phase).map fun r => s.advance t call r.1 r.2
    else none
  | none, _ => none

/-- One step. -/
def step (s : State ι M T K) : Label ι T → Option (State ι M T K)
  | .insert t value =>
    if (s.writer.map Writer.thread) ≠ some t then
      match s.threads t with
      | .idle =>
        some { s with
          threads := Function.update s.threads t (.running (.insert false value) .lookup) }
      | _ => none
    else none
  | .turn t => s.turn t
  | .iter =>
    match s.iter with
    | none => some { s with iter := some (Iter.new s.shared) }
    | some _ => none
  | .next =>
    match s.iter with
    | some it =>
      (it.step s.overflowChecks s.shared s.unwritten).map fun it => { s with iter := some it }
    | none => none

end State

end Steps

end IndexSet.Concurrent.Iteration
