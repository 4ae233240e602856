import IndexSet.Core.Node
import IndexSet.Cdc.Change
import IndexSet.Concurrent.SkipMap
import Mathlib.Logic.Function.Basic

/-!
# The Shared State and the Deferred Operations

`concurrent/set.rs` and `concurrent/operation.rs`: the state that all threads share, and
`Operation::commit`, which a thread runs under the exclusive index lock some time after
it decided on the operation.

- a node is a heap cell: `nodes` maps node identifiers to node contents, and a node keeps
  its identifier when it moves in the index;
- `cdc` says whether the crate is built with the feature of that name;
- `elementSize` is `size_of::<T>()`: the first node is allocated at the node capacity, which
  panics when that is too many bytes;
- `poisoned`: a thread panicked while it held the index lock exclusively.  Only
  `try_write().is_ok()` looks at it.
-/

namespace IndexSet.Concurrent

open KeyedList

/-- `struct BTreeSet` of `concurrent/set.rs`, with the heap its nodes live in. -/
structure BTreeSet (M T : Type) where
  index : M
  elementSize : ℕ
  nodeCapacity : ℕ
  eventId : ℕ
  cdc : Bool
  poisoned : Bool
  nodes : NodeId → List T
  nextNode : NodeId

/-- `enum Operation`. -/
inductive Operation (T : Type) where
  | split (oldNode : NodeId) (oldMax value : T)
  | updateMax (node : NodeId) (oldMax : T)
  | makeUnreachable (node : NodeId) (oldMax : T)
  deriving DecidableEq, Repr

/-- The node an operation is about: it locks its mutex. -/
def Operation.node {T : Type} : Operation T → NodeId
  | .split oldNode _ _ => oldNode
  | .updateMax node _ => node
  | .makeUnreachable node _ => node

variable {M T K : Type} [LinearOrder K] [Keyed T K]

/-! ## §1 The heap and the event counter -/

namespace BTreeSet

/-- Write the contents of a node. -/
def setNode (s : BTreeSet M T) (n : NodeId) (node : List T) : BTreeSet M T :=
  { s with nodes := Function.update s.nodes n node }

/-- `Arc::new(Mutex::new(node))`: the state and the identifier of the new node. -/
def newNode (s : BTreeSet M T) (node : List T) : BTreeSet M T × NodeId :=
  ({ s.setNode s.nextNode node with nextNode := s.nextNode + 1 }, s.nextNode)

/-- Assign an identifier to each event, in order, when the crate is built with `cdc`. -/
def emit (s : BTreeSet M T) : List (ChangeEventUnassigned T) →
    BTreeSet M T × List (ChangeEvent T)
  | [] => (s, [])
  | change :: changes =>
    if s.cdc then
      let (s', events) := emit { s with eventId := fetchAdd s.eventId } changes
      (s', change.assignId s.eventId :: events)
    else (s, [])

end BTreeSet

/-! ## §2 The halves of a split -/

/-- `NodeLike::insert`, and `NodeLike::replace` at the position found when an equal element
was there: the node, the position and the element replaced. -/
def insertOrReplace (node : List T) (value : T) : List T × ℕ × Option T :=
  match Node.insert node value with
  | (node, true, idx) => (node, idx, none)
  | (node, false, idx) =>
    let (node, oldValue) := Node.replace node idx value
    (node, idx, oldValue)

/-- The events for the value that went into a half known under `maxValue`. -/
def halfEvents (maxValue value : T) (idx : ℕ) (oldValue : Option T) :
    List (ChangeEventUnassigned T) :=
  match oldValue with
  | some old => [.removeAt maxValue old idx, .insertAt maxValue value idx]
  | none => [.insertAt maxValue value idx]

/-- What the split does with one half: its contents, the key it is registered under, the
element replaced and the events. -/
structure Half (T : Type) where
  node : List T
  max : T
  oldValue : Option T
  events : List (ChangeEventUnassigned T)

/-- The lower half: it takes the value when its maximum is not below it, and keeps the
maximum it had as its key. -/
def lowerHalf (node : List T) (max value : T) : Half T :=
  if key value ≤ key max then
    let (node, idx, oldValue) := insertOrReplace node value
    ⟨node, max, oldValue, halfEvents max value idx oldValue⟩
  else ⟨node, max, none, []⟩

/-- The upper half when the value goes there: a value above its maximum becomes its key. -/
def upperHalf (node : List T) (max value : T) : Half T :=
  let (node', idx, oldValue) := insertOrReplace node value
  let newMax := if oldValue.isNone ∧ key max < key value then value else max
  ⟨node', newMax, oldValue, halfEvents max value idx oldValue⟩

/-! ## §3 `Operation::commit` -/

namespace BTreeSet

variable [SkipMap M T K]

/-- The body of `Operation::Split` once the node is known to be registered under `old_max`. -/
def commitSplit (s : BTreeSet M T) (oldNode : NodeId) (oldMax value : T) :
    BTreeSet M T × Option T × List (ChangeEventUnassigned T) :=
  let guard := s.nodes oldNode
  let (lower, newVec) := Node.halve guard
  let nodeSplit := match Node.max guard with
    | some maxValue => [.splitNode maxValue lower.length]
    | none => []
  let s := { s with index := SkipMap.remove s.index (key oldMax) }.setNode oldNode lower
  -- the lower half stays in the old node
  let (s, insertAttempted, oldValue, lowerEvents) := match Node.max lower with
    | some max =>
      let half := lowerHalf lower max value
      let s := s.setNode oldNode half.node
      ({ s with index := SkipMap.insert s.index half.max oldNode }, decide (key value ≤ key max),
        half.oldValue, half.events)
    | none => (s, false, none, [])
  -- the upper half moves to a new one
  match Node.max newVec with
  | some max =>
    let half := if insertAttempted then ⟨newVec, max, oldValue, []⟩ else upperHalf newVec max value
    let (s, newNode) := s.newNode half.node
    ({ s with index := SkipMap.insert s.index half.max newNode }, half.oldValue,
      if s.cdc then nodeSplit ++ lowerEvents ++ half.events else [])
  | none => (s, oldValue, if s.cdc then nodeSplit ++ lowerEvents else [])

/-- `new_max.cmp(&Some(&old_max))`: an absent maximum is below every other. -/
def compareMax (newMax : Option T) (oldMax : T) : Ordering :=
  match newMax with
  | some newMax => compare (key newMax) (key oldMax)
  | none => .lt

/-- `Operation::commit`.  `none` is the panic of `expect("node should be non empty if split")`;
`Except.error` is `Err(())`. -/
def commit (s : BTreeSet M T) :
    Operation T → Option (BTreeSet M T × Except Unit (Option T × List (ChangeEventUnassigned T)))
  | .split oldNode oldMax value =>
    match SkipMap.get s.index (key oldMax) with
    | some entry =>
      if entry.2 = oldNode then
        if s.cdc ∧ Node.max (s.nodes oldNode) = none then none
        else
          let (s, oldValue, cdc) := s.commitSplit oldNode oldMax value
          some (s, .ok (oldValue, cdc))
      else some (s, .error ())
    | none => some (s, .error ())
  | .updateMax node oldMax =>
    match Node.max (s.nodes node) with
    | none => some (s, .ok (none, []))
    | some newMax =>
      match SkipMap.get s.index (key oldMax) with
      | some entry =>
        if entry.2 = node then
          match compare (key newMax) (key oldMax) with
          | .eq => some (s, .ok (none, []))
          | .gt =>
            let index := SkipMap.insert (SkipMap.remove s.index (key oldMax)) newMax node
            some ({ s with index }, .ok (none, []))
          | .lt =>
            let index := SkipMap.insert (SkipMap.remove s.index (key oldMax)) newMax node
            some ({ s with index }, .ok (none, []))
        else some (s, .error ())
      | none => some (s, .error ())
  | .makeUnreachable node oldMax =>
    match SkipMap.get s.index (key oldMax) with
    | some entry =>
      if entry.2 = node then
        match compareMax (Node.max (s.nodes node)) oldMax with
        | .lt =>
          some ({ s with index := SkipMap.remove s.index (key oldMax) },
            .ok (none, if s.cdc then [.removeNode oldMax] else []))
        | _ => some (s, .error ())
      else some (s, .error ())
    | none => some (s, .error ())

end BTreeSet

end IndexSet.Concurrent
