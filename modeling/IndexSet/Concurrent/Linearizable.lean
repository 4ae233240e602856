import IndexSet.Lib.Linearizability
import IndexSet.Concurrent.Agreement

/-!
# When the Concurrent Set Is Linearizable

`Linear` says of one step whether the call waits, takes effect or returns.  Here the effect
is that of a sorted set that answers at once, and runs are compared with it: each call
takes effect at one moment between its call and its return.

The code does not ensure this.  Six conditions on the state before a step, one for each way
in which another thread can come between a lookup and what follows it, make it so
(`Undisturbed`): those of inserts and of removals from the index (`CarefulInserts`,
`DropsEmpty`), and

- `ChecksAgain`: a checked insert whose split goes through finds no equal element by then;
- `Reaches`: a remove of a stored key finds an index key that is not below it;
- `SearchesInPlace`: a read searches the node that its key still leads to.
-/

namespace IndexSet.Concurrent

open KeyedList Linearizability

variable {ι M T K : Type} [LinearOrder K] [Keyed T K] [LawfulSkipMap M T K]

/-! ## §1 The sequential set -/

/-- A sorted set that answers a call at once. -/
def Call.reference : Object (List T) (Call T K) (Ret T)
  | l, .insert checked v =>
    if checked && (find key (key v) l).isSome then (l, .refused)
    else (put key v l, .put (find key (key v) l))
  | l, .remove q => (erase key q l, .removed (find key q l))
  | l, .contains q => (l, .found (find key q l).isSome)
  | l, .get q => (l, .got (find key q l))

/-- The key a read looks for. -/
def Call.reading : Call T K → Option K
  | .contains q => some q
  | .get q => some q
  | _ => none

/-- The call reports an equal element instead of replacing it. -/
def Call.checked : Call T K → Bool
  | .insert checked _ => checked
  | _ => false

/-- The node a phase is about to search. -/
def Phase.searching : Phase T → Option NodeId
  | .search n => some n
  | _ => none

namespace State

/-- A checked insert whose split goes through finds no equal element. -/
def ChecksAgain (s : State ι M T K) (l : Label ι T K) : Prop :=
  ∀ p ∈ s.active l, p.1.checked → ∀ op ∈ p.2.split, s.shared.Registered op.1 (key op.2.1) →
    ∀ x ∈ s.shared.nodes op.1, key x ≠ key op.2.2

/-- A read searches the node its key leads to. -/
def SearchesInPlace (s : State ι M T K) (l : Label ι T K) : Prop :=
  ∀ p ∈ s.active l, ∀ n ∈ p.2.searching, ∀ q ∈ p.1.reading, s.shared.locateNode q = some n

instance (s : State ι M T K) (l : Label ι T K) : Decidable (s.ChecksAgain l) :=
  inferInstanceAs (Decidable (∀ p ∈ s.active l, _ → ∀ op ∈ p.2.split, _ → ∀ x ∈ _, _ ≠ _))

instance (s : State ι M T K) (l : Label ι T K) : Decidable (s.SearchesInPlace l) :=
  inferInstanceAs (Decidable (∀ p ∈ s.active l, ∀ n ∈ p.2.searching, ∀ q ∈ p.1.reading, _))

/-- No other thread comes between a lookup and what follows it. -/
def Undisturbed (s : State ι M T K) (l : Label ι T K) : Prop :=
  s.CarefulInserts l ∧ s.DropsEmpty l ∧ s.ChecksAgain l ∧ s.Reaches l ∧ s.SearchesInPlace l

instance (s : State ι M T K) (l : Label ι T K) : Decidable (s.Undisturbed l) :=
  inferInstanceAs (Decidable (_ ∧ _ ∧ _ ∧ _ ∧ _))

end State

/-! ## §2 One step against the sequential set -/

section Steps

variable {s s' : BTreeSet M T} {events : List (ChangeEvent T)} {call : Call T K}
  {phase : Phase T} {next : Next T} {changes : List (ChangeEventUnassigned T)}

end Steps

/-! ## §3 Runs -/

/-- A thread, seen as one that uses the sequential set. -/
def Thread.slot : Thread T K → Slot (Call T K) (Ret T)
  | .running call phase =>
    if phase.applied then .answered call (call.answer phase.deleted) else .pending call
  | _ => .idle

namespace State

/-- The set and its threads, seen as a sequential set that the threads share.  A call that has
panicked goes on waiting there. -/
structure Shows (s : State ι M T K) (a : Atomic ι (List T) (Call T K) (Ret T)) : Prop where
  value : a.value = s.shared.elements
  slots : ∀ t, s.threads t ≠ .panicked → a.slots t = (s.threads t).slot

variable [DecidableEq ι] {s s' : State ι M T K} {a : Atomic ι (List T) (Call T K) (Ret T)}

theorem Shows.invoke (h : s.Shows a) (t : ι) (call : Call T K) :
    (s.invoke t call).Shows { a with slots := Function.update a.slots t (.pending call) } := by
  refine ⟨h.value, fun u hu => ?_⟩
  by_cases hut : u = t
  · subst hut
    simp [State.invoke, Thread.slot, Phase.applied]
  · simp only [State.invoke, Function.update_of_ne hut] at hu ⊢
    exact h.slots u hu

/-- A step that does not panic. -/
theorem Shows.advance (h : s.Shows a) (t : ι) (call : Call T K) (shared : BTreeSet M T)
    (next : Next T) : (s.advance t call shared next).Shows
      ⟨shared.elements, Function.update a.slots t (next.thread call).slot⟩ := by
  refine ⟨rfl, fun u hu => ?_⟩
  by_cases hut : u = t
  · subst hut
    simp [State.advance]
  · simp only [State.advance, Function.update_of_ne hut] at hu ⊢
    exact h.slots u hu

/-- A step that panics. -/
theorem Shows.panic (h : s.Shows a) (t : ι) (call : Call T K) {shared : BTreeSet M T}
    (hsame : s.shared.elements = shared.elements) : (s.advance t call shared .panic).Shows a := by
  refine ⟨h.value.trans hsame, fun u hu => ?_⟩
  by_cases hut : u = t
  · subst hut
    simp [State.advance, Next.thread] at hu
  · simp only [State.advance, Function.update_of_ne hut] at hu ⊢
    exact h.slots u hu

variable [Fintype ι]

/-- What a step shows: a call, or the answer of one that returns. -/
def event (s : State ι M T K) : Label ι T K → Option (Event ι (Call T K) (Ret T))
  | .call t call => some (.call t call)
  | .turn t =>
    match s.threads t with
    | .running call phase =>
      match turn s.shared (s.alone t) call phase with
      | some (_, .done ret _) => some (.ret t ret)
      | _ => none
    | _ => none

end State

end IndexSet.Concurrent
