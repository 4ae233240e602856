import IndexSet.Core.Node
import IndexSet.SingleThreaded.Fenwick

/-!
# The Single-Threaded `BTreeSet`

`lib.rs`: a two-level tree.  `inner` holds the nodes, `index` a Fenwick tree of their
lengths, `len` the number of elements.

Every function of the source that can panic returns an `Option`; `none` is the panic
(an index out of bounds, a `usize` subtraction below zero).  Comparison closures
`FnMut(&Q) -> bool` are predicates on elements.
-/

namespace IndexSet

/-- `core/constants.rs`: `DEFAULT_INNER_SIZE`. -/
def defaultInnerSize : ℕ := 1024

/-- `slice::partition_point`: how many leading elements satisfy the predicate. -/
def partitionPoint {α : Type*} (l : List α) (pred : α → Bool) : ℕ := (l.takeWhile pred).length

/-- `usize` subtraction; `none` is the overflow panic. -/
def checkedSub (a b : ℕ) : Option ℕ := if b ≤ a then some (a - b) else none

/-- `struct BTreeSet`. -/
structure BTreeSet (T F : Type) where
  inner : List (List T)
  index : F
  nodeCapacity : ℕ
  len : ℕ

/-- `enum NodeEntry`. -/
inductive NodeEntry where
  | exist (nodeIdx positionWithinNode : ℕ)
  | empty (nodeIdx : ℕ)

namespace BTreeSet

variable {T F K : Type} [FenwickTree F] [LinearOrder K] [Keyed T K]

/-! ## §1 Construction -/

/-- `Default::default`, which `new` returns. -/
def default : BTreeSet T F where
  inner := [[]]
  index := FenwickTree.fromIter [0]
  nodeCapacity := defaultInnerSize
  len := 0

/-- `BTreeSet::new`. -/
def new : BTreeSet T F := default

/-- `BTreeSet::with_maximum_node_size`. -/
def withMaximumNodeSize (maximumNodeSize : ℕ) : BTreeSet T F :=
  { (default : BTreeSet T F) with inner := [[]], nodeCapacity := maximumNodeSize }

/-- `BTreeSet::clear`. -/
def clear (s : BTreeSet T F) : BTreeSet T F :=
  { s with inner := [[]], index := FenwickTree.fromIter [0], len := 0 }

/-- `FenwickTree::from_iter(self.inner.iter().map(|node| node.len()))`. -/
def lengthIndex (inner : List (List T)) : F := FenwickTree.fromIter (inner.map List.length)

/-! ## §2 Locating -/

/-- The closing `if self.inner.get(node_idx).is_none() { node_idx -= 1 }`. -/
def clampNode (s : BTreeSet T F) (nodeIdx : ℕ) : Option ℕ :=
  match s.inner[nodeIdx]? with
  | some _ => some nodeIdx
  | none => checkedSub nodeIdx 1

/-- `BTreeSet::locate_node`. -/
def locateNode (s : BTreeSet T F) (value : K) : Option ℕ :=
  s.clampNode <| partitionPoint s.inner fun node =>
    match node.getLast? with
    | some max => key max < value
    | none => false

/-- `BTreeSet::locate_node_cmp`. -/
def locateNodeCmp (s : BTreeSet T F) (cmp : T → Bool) : Option ℕ :=
  s.clampNode <| partitionPoint s.inner fun node =>
    match node.getLast? with
    | some max => cmp max
    | none => true

/-- `BTreeSet::locate_value`. -/
def locateValue (s : BTreeSet T F) (value : K) : Option (ℕ × ℕ) := do
  let nodeIdx ← s.locateNode value
  let node ← s.inner[nodeIdx]?
  return (nodeIdx, partitionPoint node fun item => key item < value)

/-- `BTreeSet::locate_value_cmp`. -/
def locateValueCmp (s : BTreeSet T F) (cmp : T → Bool) : Option (ℕ × ℕ) := do
  let nodeIdx ← s.locateNodeCmp cmp
  let node ← s.inner[nodeIdx]?
  return (nodeIdx, partitionPoint node cmp)

/-- `BTreeSet::locate_ith`. -/
def locateIth (s : BTreeSet T F) (idx : ℕ) : Option (ℕ × ℕ) := do
  let nodeIndex := FenwickTree.indexOf s.index idx
  let offset := if nodeIndex ≠ 0 then FenwickTree.prefixSum s.index nodeIndex 0 else 0
  let positionWithinNode ← checkedSub idx offset
  match s.inner[nodeIndex]? with
  | some node =>
    if positionWithinNode = node.length then return (nodeIndex + 1, 0)
    else return (nodeIndex, positionWithinNode)
  | none => return (nodeIndex, positionWithinNode)

/-- The element at a located position: `self.inner.get(i)` then `node.get(j)`. -/
def elementAt (s : BTreeSet T F) (nodeIdx positionWithinNode : ℕ) : Option T :=
  s.inner[nodeIdx]?.bind fun node => node[positionWithinNode]?

/-! ## §3 Insertion -/

/-- `BTreeSet::insert_at`. -/
def insertAt (s : BTreeSet T F) (nodeIdx : ℕ) (value : T) : Option (BTreeSet T F × Bool) := do
  let node ← s.inner[nodeIdx]?
  if node.length = s.nodeCapacity then
    let (left, newNode) := Node.halve node
    let front ← newNode[0]?
    let insertNodeIdx := if key front ≤ key value then nodeIdx + 1 else nodeIdx
    let inner := (s.inner.set nodeIdx left).insertIdx (nodeIdx + 1) newNode
    let target ← inner[insertNodeIdx]?
    let (target, inserted, _) := Node.insert target value
    let inner := inner.set insertNodeIdx target
    -- the index is rebuilt whether or not the value was new
    if inserted then
      return ({ s with inner, index := lengthIndex inner, len := s.len + 1 }, true)
    else
      return ({ s with inner, index := lengthIndex inner }, false)
  else
    let (node, inserted, _) := Node.insert node value
    let inner := s.inner.set nodeIdx node
    if inserted then
      return ({ s with inner, index := FenwickTree.addAt s.index nodeIdx 1, len := s.len + 1 },
        true)
    else
      return ({ s with inner }, false)

/-- `BTreeSet::insert`. -/
def insert (s : BTreeSet T F) (value : T) : Option (BTreeSet T F × Bool) := do
  let nodeIdx ← s.locateNode (key value)
  s.insertAt nodeIdx value

/-! ## §4 Membership -/

/-- `BTreeSet::get`. -/
def get (s : BTreeSet T F) (value : K) : Option (Option T) := do
  let (nodeIdx, positionWithinNode) ← s.locateValue value
  return s.elementAt nodeIdx positionWithinNode

/-- `BTreeSet::lower_bound`. -/
def lowerBound (s : BTreeSet T F) (value : K) : Option (Option T) := do
  let (nodeIdx, positionWithinNode) ← s.locateValue value
  return s.elementAt nodeIdx positionWithinNode

/-- `BTreeSet::contains`. -/
def contains (s : BTreeSet T F) (value : K) : Option Bool := do
  let (nodeIdx, positionWithinNode) ← s.locateValue value
  match s.elementAt nodeIdx positionWithinNode with
  | some candidateValue => return value = key candidateValue
  | none => return false

/-- `BTreeSet::contains_cmp`. -/
def containsCmp (s : BTreeSet T F) (cmp cmp2 : T → Bool) : Option Bool := do
  let (nodeIdx, positionWithinNode) ← s.locateValueCmp cmp
  match s.elementAt nodeIdx positionWithinNode with
  | some candidateValue => return cmp2 candidateValue
  | none => return false

/-- `BTreeSet::find_cmp`. -/
def findCmp (s : BTreeSet T F) (cmp cmp2 : T → Bool) : Option NodeEntry := do
  let (nodeIdx, positionWithinNode) ← s.locateValueCmp cmp
  match (s.elementAt nodeIdx positionWithinNode).filter cmp2 with
  | some _ => return .exist nodeIdx positionWithinNode
  | none => return .empty nodeIdx

/-- `BTreeSet::first`. -/
def first (s : BTreeSet T F) : Option T := s.inner.head?.bind List.head?

/-- `BTreeSet::last`. -/
def last (s : BTreeSet T F) : Option T := s.inner.getLast?.bind List.getLast?

/-! ## §5 Deletion -/

/-- `BTreeSet::delete_at`. -/
def deleteAt (s : BTreeSet T F) (nodeIdx positionWithinNode : ℕ) :
    Option (BTreeSet T F × T) := do
  let node ← s.inner[nodeIdx]?
  let removal ← node[positionWithinNode]?
  let node := node.eraseIdx positionWithinNode
  let inner := s.inner.set nodeIdx node
  if node.isEmpty ∧ 1 < inner.length then
    -- an empty node goes away as long as it is not the last remaining one
    let inner := inner.eraseIdx nodeIdx
    let len ← checkedSub s.len 1
    return ({ s with inner, len, index := lengthIndex inner }, removal)
  else
    let len ← checkedSub s.len 1
    return ({ s with inner, index := FenwickTree.subAt s.index nodeIdx 1, len }, removal)

/-- `BTreeSet::delete`. -/
def delete (s : BTreeSet T F) (value : K) : Option (BTreeSet T F × Option T × Bool) := do
  let (nodeIdx, positionWithinNode) ← s.locateValue value
  match s.elementAt nodeIdx positionWithinNode with
  | some candidateValue =>
    if value = key candidateValue then
      let (s, removal) ← s.deleteAt nodeIdx positionWithinNode
      return (s, some removal, true)
    else return (s, none, false)
  | none => return (s, none, false)

/-- `BTreeSet::delete_cmp`. -/
def deleteCmp (s : BTreeSet T F) (cmp cmp2 : T → Bool) :
    Option (BTreeSet T F × Option T × Bool) := do
  match ← s.findCmp cmp cmp2 with
  | .exist nodeIdx positionWithinNode =>
    let (s, removal) ← s.deleteAt nodeIdx positionWithinNode
    return (s, some removal, true)
  | .empty _ => return (s, none, false)

/-- `BTreeSet::remove`. -/
def remove (s : BTreeSet T F) (value : K) : Option (BTreeSet T F × Bool) := do
  let (s, _, removed) ← s.delete value
  return (s, removed)

/-- `BTreeSet::take`. -/
def take (s : BTreeSet T F) (value : K) : Option (BTreeSet T F × Option T) := do
  let (s, removal, _) ← s.delete value
  return (s, removal)

/-- `BTreeSet::replace`. -/
def replace (s : BTreeSet T F) (value : T) : Option (BTreeSet T F × Option T) := do
  let (s, replacedElement) ← s.take (key value)
  let (s, _) ← s.insert value
  return (s, replacedElement)

/-- `BTreeSet::pop_first`. -/
def popFirst (s : BTreeSet T F) : Option (BTreeSet T F × Option T) :=
  match s.elementAt 0 0 with
  | some _ => do
    let (s, removal) ← s.deleteAt 0 0
    return (s, some removal)
  | none => return (s, none)

/-- `BTreeSet::pop_index`. -/
def popIndex (s : BTreeSet T F) (idx : ℕ) : Option (BTreeSet T F × T) := do
  let (nodeIdx, positionWithinNode) ← s.locateIth idx
  s.deleteAt nodeIdx positionWithinNode

/-- `BTreeSet::pop_last`. -/
def popLast (s : BTreeSet T F) : Option (BTreeSet T F × Option T) := do
  let lastNodeIdx ← checkedSub s.inner.length 1
  let node ← s.inner[lastNodeIdx]?
  let lastPositionWithinNode := node.length - 1
  match s.elementAt lastNodeIdx lastPositionWithinNode with
  | some _ =>
    let (s, removal) ← s.deleteAt lastNodeIdx lastPositionWithinNode
    return (s, some removal)
  | none => return (s, none)

/-! ## §6 Bulk operations -/

/-- The scan of `retain` over one node, `f` deciding and possibly changing each item: the
node it leaves and the positions it rejects, in order. -/
def scanNode {σ : Type} (f : σ → T → Bool × T × σ) (nodeIdx : ℕ) :
    ℕ → List T → σ → List T × List (ℕ × ℕ) × σ
  | _, [], st => ([], [], st)
  | positionWithinNode, item :: node, st =>
    let (keep, item, st) := f st item
    let (node, rest, st) := scanNode f nodeIdx (positionWithinNode + 1) node st
    (item :: node, if keep then rest else (nodeIdx, positionWithinNode) :: rest, st)

/-- The scan of `retain` over all nodes. -/
def scanInner {σ : Type} (f : σ → T → Bool × T × σ) :
    ℕ → List (List T) → σ → List (List T) × List (ℕ × ℕ) × σ
  | _, [], st => ([], [], st)
  | nodeIdx, node :: inner, st =>
    let (node, here, st) := scanNode f nodeIdx 0 node st
    let (inner, rest, st) := scanInner f (nodeIdx + 1) inner st
    (node :: inner, here ++ rest, st)

/-- `positions_to_delete.into_iter().for_each(|(i, j)| { self.delete_at(i, j); })`. -/
def deleteEach (s : BTreeSet T F) (positionsToDelete : List (ℕ × ℕ)) : Option (BTreeSet T F) :=
  positionsToDelete.foldlM (fun s p => (s.deleteAt p.1 p.2).map Prod.fst) s

/-- The body both `retain`s share: scan, then delete the rejected positions from the back. -/
def retainWith {σ : Type} (s : BTreeSet T F) (f : σ → T → Bool × T × σ) (st : σ) :
    Option (BTreeSet T F × σ) := do
  let (inner, positionsToDelete, st) := scanInner f 0 s.inner st
  let s ← deleteEach { s with inner } positionsToDelete.reverse
  return (s, st)

/-- `BTreeSet::retain`; the predicate carries its own state and only reads the item. -/
def retain {σ : Type} (s : BTreeSet T F) (f : σ → T → Bool × σ) (st : σ) :
    Option (BTreeSet T F × σ) :=
  s.retainWith (fun st item => ((f st item).1, item, (f st item).2)) st

/-- `while self.inner.len() > keep { remaining_nodes.push(self.inner.pop().unwrap()); }`,
with the nodes that are left and the ones pushed. -/
def popNodes {α : Type*} (keep : ℕ) : ℕ → List α → List α → List α × List α
  | 0, inner, remaining => (inner, remaining)
  | fuel + 1, inner, remaining =>
    if keep < inner.length then
      match inner.getLast? with
      | some node => popNodes keep fuel inner.dropLast (remaining ++ [node])
      | none => (inner, remaining)
    else (inner, remaining)

/-- The shared body of `split_off_cmp` and `split_off` after the position is located. -/
def splitOffAt (s : BTreeSet T F) (nodeIdx positionWithinNode : ℕ) :
    Option (BTreeSet T F × BTreeSet T F) := do
  let node ← s.inner[nodeIdx]?
  let _ ← checkedSub node.length positionWithinNode
  let firstNode := node.drop positionWithinNode
  let inner := s.inner.set nodeIdx (node.take positionWithinNode)
  let (inner, remainingNodes) := popNodes (nodeIdx + 1) inner.length inner []
  let remainingNodes := firstNode :: remainingNodes.reverse
  let latterHalf : BTreeSet T F :=
    { (default : BTreeSet T F) with
      inner := remainingNodes
      len := (remainingNodes.map List.length).sum
      index := lengthIndex remainingNodes }
  let node ← inner[nodeIdx]?
  let inner := if node.isEmpty ∧ 1 < inner.length then inner.eraseIdx nodeIdx else inner
  return ({ s with inner, index := lengthIndex inner, len := (inner.map List.length).sum },
    latterHalf)

/-- `BTreeSet::split_off_cmp`. -/
def splitOffCmp (s : BTreeSet T F) (cmp : T → Bool) : Option (BTreeSet T F × BTreeSet T F) := do
  let (nodeIdx, positionWithinNode) ← s.locateValueCmp cmp
  s.splitOffAt nodeIdx positionWithinNode

/-- `BTreeSet::split_off`. -/
def splitOff (s : BTreeSet T F) (value : K) : Option (BTreeSet T F × BTreeSet T F) := do
  let (nodeIdx, positionWithinNode) ← s.locateValue value
  s.splitOffAt nodeIdx positionWithinNode

/-- The loop of `append`; `none` also when the fuel runs out. -/
def appendLoop : ℕ → BTreeSet T F → BTreeSet T F → Option (BTreeSet T F × BTreeSet T F)
  | 0, _, _ => none
  | fuel + 1, s, other => do
    match ← other.popFirst with
    | (other, some value) =>
      let (s, _) ← s.replace value
      appendLoop fuel s other
    | (other, none) => return (s, other)

/-- `BTreeSet::append`: both sets after `while let Some(value) = other.pop_first()`. -/
def append (s other : BTreeSet T F) : Option (BTreeSet T F × BTreeSet T F) :=
  appendLoop (other.inner.flatten.length + 1) s other

/-! ## §7 Positions -/

/-- `BTreeSet::rank`. -/
def rank (s : BTreeSet T F) (value : K) : Option ℕ := do
  let (nodeIdx, positionWithinNode) ← s.locateValue value
  return FenwickTree.prefixSum s.index nodeIdx 0 + positionWithinNode

/-- `BTreeSet::rank_cmp`. -/
def rankCmp (s : BTreeSet T F) (cmp : T → Bool) : Option ℕ := do
  let (nodeIdx, positionWithinNode) ← s.locateValueCmp cmp
  return FenwickTree.prefixSum s.index nodeIdx 0 + positionWithinNode

/-- `BTreeSet::get_index`. -/
def getIndex (s : BTreeSet T F) (idx : ℕ) : Option (Option T) := do
  let (nodeIdx, positionWithinNode) ← s.locateIth idx
  return s.elementAt nodeIdx positionWithinNode

end BTreeSet

end IndexSet
