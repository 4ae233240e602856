import IndexSet.Concurrent.Operation

/-!
# The Concurrent `BTreeSet`

`concurrent/set.rs`, cut at the points where a thread acquires and releases locks:

- `lookupPut`, `lookupRemove`, `locateNode`: a lookup under the shared index lock;
- `putEdit`, `putReplace`, `removeEdit`: an edit under the mutex of one node;
- `commitDeferred`: a commit under the exclusive index lock;
- `insertFirst`: the first node of an empty set.

`putCdcChecked`, `putCdc`, `removeCdc`, `contains`, `get` compose them the way one thread
runs through them; the interleaved machine runs the same pieces.
A `none` result is a panic, or a loop of `put_cdc_checked` that has not ended within the
given number of rounds.
-/

namespace IndexSet.Concurrent

open KeyedList

variable {M T K : Type} [LinearOrder K] [Keyed T K]

/-- What the edit of `put_cdc_checked` leads to. -/
inductive PutOutcome (T : Type) where
  /-- `return Ok((None, cdc))`. -/
  | done (cdc : List (ChangeEvent T))
  /-- `return Err((node_guard, idx, old_max.unwrap()))`: an equal element is at `idx`. -/
  | conflict (idx : ℕ) (oldMax : T)
  /-- `operation = Some(..)`, to be committed. -/
  | deferred (operation : Operation T) (cdc : List (ChangeEvent T))
  deriving DecidableEq

/-- What the edit of `remove_cdc` leads to. -/
inductive RemoveOutcome (T : Type) where
  /-- `return (None, cdc)`. -/
  | absent
  /-- `return (Some(deleted), cdc)`. -/
  | done (deleted : T) (cdc : List (ChangeEvent T))
  /-- `operation = Some(..)`, to be committed. -/
  | deferred (deleted : T) (operation : Operation T) (cdc : List (ChangeEvent T))
  deriving DecidableEq

namespace BTreeSet

variable [SkipMap M T K]

/-! ## §1 Construction -/

/-- `BTreeSet::with_maximum_node_size`, for elements of `elementSize` bytes, in a build with or
without `cdc`. -/
def withMaximumNodeSize (cdc : Bool) (elementSize nodeCapacity : ℕ) : BTreeSet M T where
  index := SkipMap.new
  elementSize := elementSize
  nodeCapacity := nodeCapacity
  eventId := 0
  cdc := cdc
  poisoned := false
  nodes := fun _ => []
  nextNode := 0

/-! ## §2 Lookups under the shared lock -/

/-- The lookup of `put_cdc_checked`: above every key, the last node takes the value. -/
def lookupPut (s : BTreeSet M T) (value : K) : Option (T × NodeId) :=
  match SkipMap.lowerBound s.index value with
  | some entry => some entry
  | none => SkipMap.back s.index

/-- The lookup of `remove_cdc`. -/
def lookupRemove (s : BTreeSet M T) (value : K) : Option (T × NodeId) :=
  SkipMap.lowerBound s.index value

/-- `BTreeSet::locate_node`. -/
def locateNode (s : BTreeSet M T) (value : K) : Option NodeId :=
  match SkipMap.lowerBound s.index value with
  | some entry => some entry.2
  | none =>
    match SkipMap.back s.index with
    | some last => some last.2
    | none => (SkipMap.front s.index).map Prod.snd

/-! ## §3 Edits under a node mutex -/

/-- The node edit of `put_cdc_checked`; `none` is the panic of `old_max.unwrap()`. -/
def putEdit (s : BTreeSet M T) (entry : T × NodeId) (value : T) :
    Option (BTreeSet M T × PutOutcome T) :=
  let node := s.nodes entry.2
  if Node.needToSplit node s.nodeCapacity then
    some (s, .deferred (.split entry.2 entry.1 value) [])
  else
    let oldMax := Node.max node
    match Node.insert node value with
    | (node, true, idx) =>
      let s := s.setNode entry.2 node
      let (s, cdc) := s.emit [.insertAt (oldMax.getD value) value idx]
      if (Node.max node).map key = oldMax.map key then some (s, .done cdc)
      else
        match oldMax with
        | some oldMax => some (s, .deferred (.updateMax entry.2 oldMax) cdc)
        | none => some (s, .done cdc)
    | (_, false, idx) =>
      match oldMax with
      | some oldMax => some (s, .conflict idx oldMax)
      | none => none

/-- The events of `put_cdc` for an element replaced at `idx`; `none` is the panic of
`new_max.expect`. -/
def replaceEvents (node : List T) (idx : ℕ) (max value : T) :
    Option (List (ChangeEventUnassigned T)) :=
  if node.length = 1 then some [.removeNode max, .createNode value]
  else if idx = node.length - 1 then
    let newMax := if node.length ≤ 1 then none else node[node.length - 2]?
    newMax.map fun newMax => [.removeAt max value idx, .insertAt newMax value idx]
  else some [.removeAt max value idx, .insertAt max value idx]

/-- The `Err` branch of `put_cdc`, still under the node mutex: the element is replaced. -/
def putReplace (s : BTreeSet M T) (n : NodeId) (idx : ℕ) (max value : T) :
    Option (BTreeSet M T × Option T × List (ChangeEvent T)) := do
  let changes ← if s.cdc then replaceEvents (s.nodes n) idx max value else some []
  let (s, cdc) := s.emit changes
  let (node, old) := Node.replace (s.nodes n) idx value
  return (s.setNode n node, old, cdc)

/-- The node edit of `remove_cdc`; `none` is the panic of one of its `expect`s. -/
def removeEdit (s : BTreeSet M T) (entry : T × NodeId) (value : K) :
    Option (BTreeSet M T × RemoveOutcome T) :=
  let oldMax := Node.max (s.nodes entry.2)
  match Node.delete (s.nodes entry.2) value with
  | (_, none) => some (s, .absent)
  | (node, some (deleted, idx)) =>
    match oldMax with
    | none => none
    | some oldMax =>
      let s := s.setNode entry.2 node
      if 0 < node.length then
        let (s, cdc) := s.emit [.removeAt oldMax deleted idx]
        if some (key oldMax) = (Node.max node).map key then some (s, .done deleted cdc)
        else some (s, .deferred deleted (.updateMax entry.2 oldMax) cdc)
      else some (s, .deferred deleted (.makeUnreachable entry.2 oldMax) [])

/-! ## §4 Commits under the exclusive lock -/

/-- Commit an operation and assign identifiers to its events: the replaced element and all
events of the call, or `none` when the commit gave up with `Err(())`. -/
def commitDeferred (s : BTreeSet M T) (operation : Operation T) (cdc : List (ChangeEvent T)) :
    Option (BTreeSet M T × Option (Option T × List (ChangeEvent T))) :=
  match s.commit operation with
  | none => none
  | some (s, .ok (value, valueCdc)) =>
    let (s, events) := s.emit valueCdc
    some (s, some (value, cdc ++ events))
  | some (s, .error ()) => some (s, none)

/-- The node that `put_cdc_checked` makes for an empty index; `none` is the panic of
`with_capacity`. -/
def firstNode (s : BTreeSet M T) (value : T) : Option (List T) :=
  (Node.withCapacity s.elementSize s.nodeCapacity).map fun node => (Node.insert node value).1

/-- The first node: its event, then its entry in the index. -/
def insertFirst (s : BTreeSet M T) (value : T) : BTreeSet M T × List (ChangeEvent T) :=
  let (s, cdc) := s.emit [.createNode value]
  let (s, firstNode) := s.newNode (Node.insert [] value).1
  ({ s with index := SkipMap.insert s.index value firstNode }, cdc)

/-! ## §5 Whole calls by one thread -/

/-- What `put_cdc_checked` returns: `Ok`, or `Err` with the node it still holds. -/
inductive PutResult (T : Type) where
  | ok (value : Option T) (cdc : List (ChangeEvent T))
  | err (node : NodeId) (idx : ℕ) (max : T)

/-- `BTreeSet::put_cdc_checked`, run by one thread alone; one round of the loop a `fuel`. -/
def putCdcChecked : ℕ → BTreeSet M T → T → Option (BTreeSet M T × PutResult T)
  | 0, _, _ => none
  | fuel + 1, s, value =>
    match s.lookupPut (key value) with
    | none =>
      match s.firstNode value with
      | none => none
      | some _ =>
        if s.poisoned then putCdcChecked fuel s value
        else
          let (s, cdc) := s.insertFirst value
          some (s, .ok none cdc)
    | some entry =>
      match s.putEdit entry value with
      | none => none
      | some (s, .done cdc) => some (s, .ok none cdc)
      | some (s, .conflict idx max) => some (s, .err entry.2 idx max)
      | some (s, .deferred operation cdc) =>
        match s.commitDeferred operation cdc with
        | none => none
        | some (s, some (value, cdc)) => some (s, .ok value cdc)
        | some (s, none) =>
          match operation with
          | .split _ _ _ => putCdcChecked fuel s value
          | _ => some (s, .ok none cdc)

/-- `BTreeSet::put_cdc`. -/
def putCdc (fuel : ℕ) (s : BTreeSet M T) (value : T) :
    Option (BTreeSet M T × Option T × List (ChangeEvent T)) := do
  match ← putCdcChecked fuel s value with
  | (s, .ok old cdc) => return (s, old, cdc)
  | (s, .err n idx max) => s.putReplace n idx max value

/-- `BTreeSet::insert`. -/
def insert (fuel : ℕ) (s : BTreeSet M T) (value : T) : Option (BTreeSet M T × Bool) := do
  let (s, old, _) ← s.putCdc fuel value
  return (s, old.isNone)

/-- `BTreeSet::remove_cdc`. -/
def removeCdc (s : BTreeSet M T) (value : K) :
    Option (BTreeSet M T × Option T × List (ChangeEvent T)) :=
  match s.lookupRemove value with
  | none => some (s, none, [])
  | some entry =>
    match s.removeEdit entry value with
    | none => none
    | some (s, .absent) => some (s, none, [])
    | some (s, .done deleted cdc) => some (s, some deleted, cdc)
    | some (s, .deferred deleted operation cdc) =>
      match s.commitDeferred operation cdc with
      | none => none
      | some (s, some (_, cdc)) => some (s, some deleted, cdc)
      | some (s, none) => some (s, some deleted, cdc)

/-- `BTreeSet::remove`. -/
def remove (s : BTreeSet M T) (value : K) : Option (BTreeSet M T × Option T) := do
  let (s, removed, _) ← s.removeCdc value
  return (s, removed)

/-- `BTreeSet::contains`. -/
def contains (s : BTreeSet M T) (value : K) : Bool :=
  match s.locateNode value with
  | some n => Node.contains (s.nodes n) value
  | none => false

/-- `BTreeSet::get`: the element its `Ref` points at. -/
def get (s : BTreeSet M T) (value : K) : Option T :=
  match s.locateNode value with
  | some n => (Node.trySelect (s.nodes n) value).bind fun position => (s.nodes n)[position]?
  | none => none

/-- `BTreeSet::len`. -/
def len (s : BTreeSet M T) : ℕ :=
  ((SkipMap.iter s.index).map fun entry => (s.nodes entry.2).length).sum

end BTreeSet

/-! ## §6 The concurrent `BTreeMap` -/

/-- `struct BTreeMap` of `concurrent/map.rs`: a set of pairs. -/
structure BTreeMap (M Q V : Type) where
  set : BTreeSet M (Pair Q V)

namespace BTreeMap

variable {Q V : Type} [Keyed Q K] [SkipMap M (Pair Q V) K]

/-- `BTreeMap::with_maximum_node_size`. -/
def withMaximumNodeSize (cdc : Bool) (elementSize nodeCapacity : ℕ) : BTreeMap M Q V :=
  ⟨BTreeSet.withMaximumNodeSize cdc elementSize nodeCapacity⟩

/-- `BTreeMap::insert_cdc`. -/
def insertCdc (fuel : ℕ) (m : BTreeMap M Q V) (k : Q) (value : V) :
    Option (BTreeMap M Q V × Option V × List (ChangeEvent (Pair Q V))) := do
  let (set, oldValue, cdc) ← m.set.putCdc fuel ⟨k, value⟩
  return (⟨set⟩, oldValue.map Pair.value, cdc)

/-- `BTreeMap::insert`. -/
def insert (fuel : ℕ) (m : BTreeMap M Q V) (k : Q) (value : V) :
    Option (BTreeMap M Q V × Option V) := do
  let (set, oldValue, _) ← m.set.putCdc fuel ⟨k, value⟩
  return (⟨set⟩, oldValue.map Pair.value)

/-- `BTreeMap::remove_cdc`. -/
def removeCdc (m : BTreeMap M Q V) (k : K) :
    Option (BTreeMap M Q V × Option (Q × V) × List (ChangeEvent (Pair Q V))) := do
  let (set, oldValue, cdc) ← m.set.removeCdc k
  return (⟨set⟩, oldValue.map fun pair => (pair.key, pair.value), cdc)

/-- `BTreeMap::remove`. -/
def remove (m : BTreeMap M Q V) (k : K) : Option (BTreeMap M Q V × Option (Q × V)) := do
  let (set, oldValue) ← m.set.remove k
  return (⟨set⟩, oldValue.map fun pair => (pair.key, pair.value))

/-- `BTreeMap::contains_key`. -/
def containsKey (m : BTreeMap M Q V) (k : K) : Bool := m.set.contains k

/-- `BTreeMap::get`. -/
def get (m : BTreeMap M Q V) (k : K) : Option (Pair Q V) := m.set.get k

/-- `BTreeMap::len`. -/
def len (m : BTreeMap M Q V) : ℕ := m.set.len

end BTreeMap

end IndexSet.Concurrent
