import IndexSet.Concurrent.Sequential

/-!
# Checked Inserts

`checked_insert` and `checked_insert_cdc` of `concurrent/map.rs` hand out what
`put_cdc_checked` says: `Some` for its `Ok`, `None` for its `Err`.  A node with room answers
`Err` when it holds the key.  A full node is split first, and the split stores the value over
the equal element and answers `Ok`.

- §1 the two calls;
- §2 on a map at rest they never overwrite, unless the key is present in a full node.
-/

namespace IndexSet.Concurrent

open KeyedList

variable {M K Q V : Type} [LinearOrder K] [Keyed Q K]

/-! ## §1 The calls -/

/-- `Result::ok` of what `put_cdc_checked` returns. -/
def BTreeSet.PutResult.ok? {T : Type} : PutResult T → Option (Option T × List (ChangeEvent T))
  | .ok value cdc => some (value, cdc)
  | .err _ _ _ => none

namespace BTreeMap

section Calls

variable [SkipMap M (Pair Q V) K]

/-- `BTreeMap::checked_insert`; the guard of an `Err` is dropped. -/
def checkedInsert (fuel : ℕ) (m : BTreeMap M Q V) (k : Q) (value : V) :
    Option (BTreeMap M Q V × Option Unit) := do
  let (set, result) ← m.set.putCdcChecked fuel ⟨k, value⟩
  return (⟨set⟩, result.ok?.map fun _ => ())

/-- `BTreeMap::checked_insert_cdc`. -/
def checkedInsertCdc (fuel : ℕ) (m : BTreeMap M Q V) (k : Q) (value : V) :
    Option (BTreeMap M Q V × Option (List (ChangeEvent (Pair Q V)))) := do
  let (set, result) ← m.set.putCdcChecked fuel ⟨k, value⟩
  return (⟨set⟩, result.ok?.map fun (_, evs) => evs)

/-- Both calls return; they answer `Some` exactly when the key was absent, and then the key
maps to the value; nothing else changes, and nothing at all when the key was present. -/
def NeverOverwrites (fuel : ℕ) (m : BTreeMap M Q V) (k : Q) (value : V) : Prop :=
  ∃ m' done events, m.checkedInsert fuel k value = some (m', done) ∧
    m.checkedInsertCdc fuel k value = some (m', events) ∧
    (done.isSome ↔ m.get (key k) = none) ∧ (events.isSome ↔ m.get (key k) = none) ∧
    ∀ q, m'.get q = if q = key k ∧ m.get (key k) = none then some ⟨k, value⟩ else m.get q

/-- The key is present, in a node that the insert splits. -/
def PresentInFull (m : BTreeMap M Q V) (k : K) : Prop :=
  m.get k ≠ none ∧
    ∃ e, m.set.lookupPut k = some e ∧ Node.needToSplit (m.set.nodes e.2) m.set.nodeCapacity

/-- An empty map that cannot make its first node: the index lock is poisoned, so that
`try_write` fails in every round, or `with_capacity` panics. -/
def Blocked (m : BTreeMap M Q V) : Prop :=
  SkipMap.iter m.set.index = [] ∧ (m.set.poisoned = true ∨ ¬ m.set.Allocates)

end Calls

/-! ## §2 When nothing is overwritten -/

variable [LawfulSkipMap M (Pair Q V) K] {m : BTreeMap M Q V}

/-- A blocked map: no number of rounds is enough. -/
theorem Blocked.putCdcChecked (h : m.Blocked) (fuel : ℕ) (v : Pair Q V) :
    m.set.putCdcChecked fuel v = none := by
  induction fuel with
  | zero => rfl
  | succ fuel ih =>
    have hnil := BTreeSet.lookupPut_eq_none (q := key v).mpr h.1
    rcases h.2 with hpoisoned | hoverflow
    · -- the round is in vain, or panics as well
      simp only [BTreeSet.putCdcChecked, hnil, hpoisoned, ih, if_true]
      cases m.set.firstNode v <;> rfl
    · simp [BTreeSet.putCdcChecked, hnil, BTreeSet.firstNode_eq_none.mpr hoverflow]

/-- **A checked insert never overwrites**, on a map at rest, if and only if the key is not
present in a full node and the map is not blocked. -/
theorem checkedInsert_neverOverwrites_iff (hm : m.set.AtRest) (fuel : ℕ) (k : Q) (value : V) :
    m.NeverOverwrites (fuel + 1) k value ↔ ¬ m.PresentInFull (key k) ∧ ¬ m.Blocked := by
  have hget : ∀ q, m.get q = find key q m.set.elements :=
    BTreeSet.get_eq_find hm.coherent hm.sorted
  by_cases hblocked : m.Blocked
  · -- the call does not return
    have hnone := hblocked.putCdcChecked (fuel + 1) ⟨k, value⟩
    refine iff_of_false ?_ fun h => h.2 hblocked
    rintro ⟨m', done, events, heval, -⟩
    simp [checkedInsert, hnone] at heval
  obtain ⟨s', r, heval, hput⟩ := BTreeSet.putCdcChecked_spec hm fuel ⟨k, value⟩ fun hnil =>
    ⟨Bool.eq_false_iff.mpr fun hpoisoned => hblocked ⟨hnil, Or.inl hpoisoned⟩,
      not_not.mp fun hoverflow => hblocked ⟨hnil, Or.inr hoverflow⟩⟩
  cases hput with
  | @stored _ cdc hrests helems hfull =>
    have hdone : m.checkedInsert (fuel + 1) k value = some (⟨s'⟩, some ()) := by
      simp [checkedInsert, heval, BTreeSet.PutResult.ok?]
    have hevents : m.checkedInsertCdc (fuel + 1) k value = some (⟨s'⟩, some cdc) := by
      simp [checkedInsertCdc, heval, BTreeSet.PutResult.ok?]
    constructor
    · rintro ⟨m', done, events, hdone', -, htold, -⟩
      rw [hdone] at hdone'
      obtain ⟨rfl, rfl⟩ := Prod.mk.inj (Option.some.inj hdone')
      exact ⟨fun hpresent => hpresent.1 (htold.mp rfl), hblocked⟩
    · rintro ⟨hroom, -⟩
      -- what is stored without room was absent
      have habsent : m.get (key k) = none := by
        by_contra hsome
        rw [hget] at hsome
        obtain ⟨e, he, hlen⟩ := hfull hsome
        exact hroom ⟨by rwa [hget], e, he, decide_eq_true hlen⟩
      refine ⟨⟨s'⟩, some (), some cdc, hdone, hevents, by simp [habsent], by simp [habsent],
        fun q => ?_⟩
      have hfind : (⟨s'⟩ : BTreeMap M Q V).get q = find key q s'.elements :=
        BTreeSet.get_eq_find hrests.atRest.coherent hrests.atRest.sorted q
      rw [hfind, helems, find_put, hget q]
      exact if_congr (by simp [habsent, Pair.key_eq, eq_comm]) rfl rfl
  | @refused e a b x max he hroom hl hx ha hb hsome =>
    have hpresent : m.get (key k) ≠ none := by
      rw [hget]
      exact fun hnone => Option.some_ne_none x (hsome.symm.trans hnone)
    refine iff_of_true ⟨m, none, none, ?_, ?_, ?_, ?_, ?_⟩ ⟨?_, hblocked⟩
    · simp [checkedInsert, heval, BTreeSet.PutResult.ok?]
    · simp [checkedInsertCdc, heval, BTreeSet.PutResult.ok?]
    · simp [hpresent]
    · simp [hpresent]
    · exact fun q => (if_neg fun h => hpresent h.2).symm
    · rintro ⟨-, e', he', hfull⟩
      obtain rfl := Option.some.inj (he.symm.trans he')
      exact absurd (of_decide_eq_true hfull) (Nat.not_le_of_lt hroom)

/-- A map with maximum node size 2 and two pairs in one node. -/
def fullNode : BTreeMap (SortedIndex (Pair ℕ ℕ)) ℕ ℕ where
  set :=
    { index := ⟨[(⟨2, 20⟩, 0)], by decide⟩
      elementSize := 16
      nodeCapacity := 2
      eventId := 0
      cdc := false
      poisoned := false
      nodes := fun n => if n = 0 then [⟨1, 10⟩, ⟨2, 20⟩] else []
      nextNode := 1 }

theorem fullNode_atRest : fullNode.set.AtRest := by
  refine ⟨⟨by decide, by decide, ⟨by decide, by decide⟩⟩, fun n => ?_, by decide⟩
  show Ascending key (if n = 0 then [(⟨1, 10⟩ : Pair ℕ ℕ), ⟨2, 20⟩] else [])
  split
  · decide
  · exact ascending_nil

/-- A new key next to the two. -/
theorem checkedInsert_neverOverwrites_iff_newKey : fullNode.NeverOverwrites 1 3 30 :=
  (checkedInsert_neverOverwrites_iff fullNode_atRest 0 3 30).mpr
    ⟨fun h => h.1 (by decide), fun h => List.cons_ne_nil _ _ h.1⟩

/-- Key 1 is present and the node is full: the call answers `Some` and overwrites its value. -/
theorem checkedInsert_overwrites :
    fullNode.set.AtRest ∧ fullNode.get 1 = some ⟨1, 10⟩ ∧
      ((fullNode.checkedInsert 1 1 11).map fun r => (r.2.isSome, r.1.get 1)) =
        some (true, some ⟨1, 11⟩) ∧ ¬ fullNode.NeverOverwrites 1 1 11 := by
  have hrun : ((fullNode.checkedInsert 1 1 11).map fun r => (r.2.isSome, r.1.get 1)) =
      some (true, some ⟨1, 11⟩) := by decide +kernel
  refine ⟨fullNode_atRest, by decide, hrun, ?_⟩
  rintro ⟨m', done, events, heval, -, htold, -⟩
  rw [heval, Option.map_some, Option.some.injEq, Prod.mk.injEq] at hrun
  exact absurd (htold.mp hrun.1) (by decide)

end BTreeMap

end IndexSet.Concurrent
