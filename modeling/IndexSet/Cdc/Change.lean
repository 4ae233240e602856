import Mathlib.Algebra.GroupWithZero.Nat
import Mathlib.Data.Nat.Notation

/-!
# Change Events

`cdc/change.rs`: what an operation reports about the nodes it changed.  An event names a
node by the maximum the receiver knows it under.
-/

namespace IndexSet

/-- `enum ChangeEventUnassigned`: an event that has no identifier yet. -/
inductive ChangeEventUnassigned (T : Type) where
  | insertAt (maxValue value : T) (index : ℕ)
  | removeAt (maxValue value : T) (index : ℕ)
  | createNode (maxValue : T)
  | removeNode (maxValue : T)
  | splitNode (maxValue : T) (splitIndex : ℕ)
  deriving DecidableEq, Repr

/-- `enum ChangeEvent`: the same five events, each with its `event_id`. -/
structure ChangeEvent (T : Type) where
  eventId : ℕ
  change : ChangeEventUnassigned T
  deriving DecidableEq, Repr

/-- `ChangeEventUnassigned::assign_id`. -/
def ChangeEventUnassigned.assignId {T : Type} (change : ChangeEventUnassigned T) (eventId : ℕ) :
    ChangeEvent T :=
  ⟨eventId, change⟩

/-- `AtomicU64::fetch_add(1)`: the counter wraps around. -/
def fetchAdd (counter : ℕ) : ℕ := (counter + 1) % 2 ^ 64

end IndexSet
