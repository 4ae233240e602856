import IndexSet.Cdc.Change
import IndexSet.Lib.KeyedList
import IndexSet.Core.Pair
import Mathlib.Data.List.Sort
import Mathlib.Logic.Function.Basic

/-!
# The Persisted Copy of an Index

`struct PersistedBTreeMap` of `concurrent/map.rs`: the receiver of the change events.  It
keeps a vector of elements under each maximum key and follows the index event by event.
A std `BTreeMap` is the function from its keys to its values.

- `persist`: what the receiver does with one event; `none` is a panic of a vector operation
  or of an `unwrap`;
- `replay`: all events of a run, in the order of their identifiers;
- §2: one lemma for each event that describes a change of the vector under `k`, where the
  rest of the map is `base`.
-/

namespace IndexSet

open KeyedList

/-- `struct PersistedBTreeMap`. -/
structure PersistedBTreeMap (K T : Type) where
  nodes : K → Option (List T)

namespace PersistedBTreeMap

variable {K T : Type} [LinearOrder K] [Keyed T K]

/-! ## §1 Following the events -/

/-- `PersistedBTreeMap::default`. -/
def empty : PersistedBTreeMap K T := ⟨fun _ => none⟩

/-- `BTreeMap::insert` of the std map. -/
def insert (m : PersistedBTreeMap K T) (k : K) (node : List T) : PersistedBTreeMap K T :=
  ⟨Function.update m.nodes k (some node)⟩

/-- `BTreeMap::remove` of the std map. -/
def remove (m : PersistedBTreeMap K T) (k : K) : PersistedBTreeMap K T :=
  ⟨Function.update m.nodes k none⟩

/-- `Vec::insert`, which panics past the end. -/
def vecInsert (node : List T) (index : ℕ) (value : T) : Option (List T) :=
  if index ≤ node.length then some (node.insertIdx index value) else none

/-- `Vec::remove`, which panics when the index is not in the vector. -/
def vecRemove (node : List T) (index : ℕ) : Option (List T) :=
  if index < node.length then some (node.eraseIdx index) else none

/-- `Vec::split_off`: what stays and what comes off. -/
def splitOff (node : List T) (index : ℕ) : Option (List T × List T) :=
  if index ≤ node.length then some (node.take index, node.drop index) else none

/-- `PersistedBTreeMap::persist`, on the event without its identifier. -/
def persistChange (m : PersistedBTreeMap K T) :
    ChangeEventUnassigned T → Option (PersistedBTreeMap K T)
  | .createNode maxValue => some (m.insert (key maxValue) [maxValue])
  | .removeNode maxValue => some (m.remove (key maxValue))
  | .insertAt maxValue value index => do
    let m ← match m.nodes (key maxValue) with
      | some node => (vecInsert node index value).map (m.insert (key maxValue))
      | none => some m
    if key maxValue < key value then
      (m.nodes (key maxValue)).map ((m.remove (key maxValue)).insert (key value))
    else some m
  | .removeAt maxValue value index =>
    match m.nodes (key maxValue) with
    | some node =>
      (vecRemove node index).map fun node =>
        if key maxValue = key value then
          match node.getLast? with
          | some newMax => (m.remove (key maxValue)).insert (key newMax) node
          | none => m.remove (key maxValue)
        else m.insert (key maxValue) node
    | none => some m
  | .splitNode maxValue splitIndex =>
    match m.nodes (key maxValue) with
    | some oldNode => do
      let (oldNode, newNode) ← splitOff oldNode splitIndex
      let newMaxValue ← newNode.getLast?
      let oldMaxValue ← oldNode.getLast?
      return ((m.remove (key maxValue)).insert (key newMaxValue) newNode).insert
        (key oldMaxValue) oldNode
    | none => some m

/-- `PersistedBTreeMap::persist`: the identifier is not looked at. -/
def persist (m : PersistedBTreeMap K T) (event : ChangeEvent T) :
    Option (PersistedBTreeMap K T) :=
  m.persistChange event.change

/-- Several changes, one after another. -/
def persistAll (m : PersistedBTreeMap K T) (changes : List (ChangeEventUnassigned T)) :
    Option (PersistedBTreeMap K T) :=
  changes.foldlM persistChange m

/-- The events of a run in the order of their identifiers, on an empty map. -/
def replay (events : List (ChangeEvent T)) : Option (PersistedBTreeMap K T) :=
  (events.insertionSort fun a b => a.eventId ≤ b.eventId).foldlM persist empty

/-- More events, in the order of their identifiers, on a copy. -/
def resume (m : PersistedBTreeMap K T) (events : List (ChangeEvent T)) :
    Option (PersistedBTreeMap K T) :=
  (events.insertionSort fun a b => a.eventId ≤ b.eventId).foldlM persist m

variable {m base : PersistedBTreeMap K T}

theorem persistAll_nil : m.persistAll [] = some m := rfl

theorem persistAll_singleton (change : ChangeEventUnassigned T) :
    m.persistAll [change] = m.persistChange change := by
  simp [persistAll]

theorem persistAll_cons {m' : PersistedBTreeMap K T} {change : ChangeEventUnassigned T}
    {changes : List (ChangeEventUnassigned T)} (h : m.persistChange change = some m') :
    m.persistAll (change :: changes) = m'.persistAll changes := by
  simp [persistAll, h]

theorem persistAll_append {m' : PersistedBTreeMap K T}
    {changes more : List (ChangeEventUnassigned T)} (h : m.persistAll changes = some m') :
    m.persistAll (changes ++ more) = m'.persistAll more := by
  unfold persistAll at h ⊢
  rw [List.foldlM_append, h]
  rfl

/-- Events with distinct identifiers have one order. -/
theorem insertionSort_of_perm {events ordered : List (ChangeEvent T)} (hperm : events.Perm ordered)
    (h : (ordered.map ChangeEvent.eventId).Pairwise (· < ·)) :
    (events.insertionSort fun a b => a.eventId ≤ b.eventId) = ordered := by
  have : Std.Total fun a b : ChangeEvent T => a.eventId ≤ b.eventId :=
    ⟨fun a b => Nat.le_total a.eventId b.eventId⟩
  have : IsTrans (ChangeEvent T) fun a b => a.eventId ≤ b.eventId := ⟨fun _ _ _ => Nat.le_trans⟩
  have hsorted := (List.pairwise_map.mp h).imp fun hlt => hlt.le
  refine ((List.perm_insertionSort _ events).trans hperm).eq_of_pairwise
    (fun a b ha hb hab hba => ?_) (List.pairwise_insertionSort _ events) hsorted
  -- no identifier occurs twice
  have ha' : a ∈ ordered := hperm.subset ((List.mem_insertionSort _).mp ha)
  exact List.inj_on_of_nodup_map (h.imp fun hlt => hlt.ne) ha' hb (Nat.le_antisymm hab hba)

/-- Events in any order, when the identifiers tell the order of all. -/
theorem resume_of_perm {events ordered : List (ChangeEvent T)} (hperm : events.Perm ordered)
    (h : (ordered.map ChangeEvent.eventId).Pairwise (· < ·)) :
    m.resume events = m.persistAll (ordered.map ChangeEvent.change) := by
  rw [resume, insertionSort_of_perm hperm h, persistAll, List.foldlM_map]
  rfl

theorem replay_of_perm {events ordered : List (ChangeEvent T)} (hperm : events.Perm ordered)
    (h : (ordered.map ChangeEvent.eventId).Pairwise (· < ·)) :
    replay events =
      (empty : PersistedBTreeMap K T).persistAll (ordered.map ChangeEvent.change) :=
  resume_of_perm hperm h

/-! ## §2 One event -/

section Held

omit [Keyed T K]

@[simp] theorem nodes_insert_self (k : K) (node : List T) :
    (base.insert k node).nodes k = some node := by simp [insert]

theorem nodes_insert_of_ne {k q : K} (h : q ≠ k) (node : List T) :
    (base.insert k node).nodes q = base.nodes q := by simp [insert, h]

@[simp] theorem insert_insert (k : K) (node node' : List T) :
    (base.insert k node).insert k node' = base.insert k node' := by simp [insert]

theorem insert_comm {k q : K} (h : k ≠ q) (node node' : List T) :
    (base.insert k node).insert q node' = (base.insert q node').insert k node := by
  simp [insert, Function.update_comm h]

theorem nodes_remove_of_ne {k q : K} (h : q ≠ k) : (base.remove k).nodes q = base.nodes q := by
  simp [remove, h]

/-- A key's vector taken out and put back. -/
theorem insert_remove {k : K} {node : List T} (h : base.nodes k = some node) :
    (base.remove k).insert k node = base := by
  rw [insert, remove, Function.update_idem, ← h, Function.update_eq_self]

/-- Removing what was added to a key that had nothing. -/
theorem remove_insert {k : K} (h : base.nodes k = none) (node : List T) :
    (base.insert k node).remove k = base := by
  rw [insert, remove, Function.update_idem, ← h, Function.update_eq_self]

end Held

section Events

variable {mx v x y : T} {a b l : List T}

/-- An element added that is not above the maximum. -/
theorem persist_insertAt_inside (hle : key v ≤ key mx) :
    (base.insert (key mx) (a ++ b)).persistChange (.insertAt mx v a.length) =
      some (base.insert (key mx) (a ++ v :: b)) := by
  simp [persistChange, vecInsert, insertIdx_split, not_lt.mpr hle]

/-- An element added above the maximum: the vector moves to its key. -/
theorem persist_insertAt_raised (hbase : base.nodes (key mx) = none) (hlt : key mx < key v) :
    (base.insert (key mx) l).persistChange (.insertAt mx v l.length) =
      some (base.insert (key v) (l ++ [v])) := by
  have hins : l.insertIdx l.length v = l ++ [v] := by
    have h := insertIdx_split l [] v
    rwa [List.append_nil] at h
  simp [persistChange, vecInsert, hins, hlt, remove_insert hbase]

/-- An element removed that is not the maximum. -/
theorem persist_removeAt_inside (hne : key mx ≠ key x) :
    (base.insert (key mx) (a ++ y :: b)).persistChange (.removeAt mx x a.length) =
      some (base.insert (key mx) (a ++ b)) := by
  simp [persistChange, vecRemove, eraseIdx_split, hne]

/-- The maximum removed: the vector moves to the key of the last element left. -/
theorem persist_removeAt_max {z : T} (hbase : base.nodes (key mx) = none) (heq : key mx = key x)
    (hl : l.getLast? = some z) :
    (base.insert (key mx) (l ++ [y])).persistChange (.removeAt mx x l.length) =
      some (base.insert (key z) l) := by
  have herase : (l ++ [y]).eraseIdx l.length = l := by
    rw [eraseIdx_split, List.append_nil]
  rw [heq] at hbase ⊢
  simp [persistChange, vecRemove, herase, heq, hl, remove_insert hbase]

/-- The last element of all removed: the vector goes. -/
theorem persist_removeAt_only (hbase : base.nodes (key mx) = none) (heq : key mx = key x) :
    (base.insert (key mx) [y]).persistChange (.removeAt mx x 0) = some base := by
  rw [heq] at hbase ⊢
  simp [persistChange, vecRemove, heq, remove_insert hbase]

/-- An element for a vector that the map does not have is lost. -/
theorem persist_insertAt_unknown {idx : ℕ} (hnone : base.nodes (key mx) = none)
    (hle : key v ≤ key mx) : base.persistChange (.insertAt mx v idx) = some base := by
  simp [persistChange, hnone, not_lt.mpr hle]

/-- A vector taken out. -/
theorem persist_removeNode (hbase : base.nodes (key mx) = none) :
    (base.insert (key mx) l).persistChange (.removeNode mx) = some base := by
  simp [persistChange, remove_insert hbase]

/-- A vector of one element. -/
theorem persist_createNode : base.persistChange (.createNode v) =
    some (base.insert (key v) [v]) := rfl

/-- A vector cut in two, each half under its own maximum. -/
theorem persist_splitNode {lo hi : T} (hbase : base.nodes (key mx) = none)
    (hlo : a.getLast? = some lo) (hhi : b.getLast? = some hi) :
    (base.insert (key mx) (a ++ b)).persistChange (.splitNode mx a.length) =
      some ((base.insert (key hi) b).insert (key lo) a) := by
  simp [persistChange, splitOff, hlo, hhi, remove_insert hbase]

end Events

end PersistedBTreeMap

end IndexSet
