import Mathlib.Algebra.GroupWithZero.Nat
import Mathlib.Data.Nat.Find
import Mathlib.Data.List.Basic

/-!
# The Fenwick Tree

`BTreeSet` keeps the node lengths in a `ftree::FenwickTree<usize>`.  The crate is not
part of the repository, so the model takes it as a parameter: `FenwickTree` lists the
operations the code calls, `LawfulFenwickTree` what the code relies on — a tree stands
for a list of counts, and every operation is the evident one on that list.
-/

namespace IndexSet

/-- The operations of `ftree::FenwickTree<usize>` that `lib.rs` calls. -/
class FenwickTree (F : Type*) where
  fromIter : List ℕ → F
  addAt : F → ℕ → ℕ → F
  subAt : F → ℕ → ℕ → F
  prefixSum : F → ℕ → ℕ → ℕ
  indexOf : F → ℕ → ℕ

/-- What the crate documents: the tree maintains a list of counts. -/
class LawfulFenwickTree (F : Type*) extends FenwickTree F where
  /-- The list of counts the tree stands for. -/
  counts : F → List ℕ
  counts_fromIter : ∀ l, counts (fromIter l) = l
  counts_addAt : ∀ t i d, i < (counts t).length → counts (addAt t i d) = (counts t).modify i (· + d)
  counts_subAt : ∀ t i d n, (counts t)[i]? = some n → d ≤ n →
    counts (subAt t i d) = (counts t).modify i (· - d)
  /-- `prefix_sum(k, init)` is `init` plus the sum of the first `k` counts. -/
  prefixSum_eq : ∀ t k init, prefixSum t k init = init + ((counts t).take k).sum
  /-- `index_of(p)` is the largest `k` with `prefix_sum(k) < p`, and `0` when there is none. -/
  indexOf_eq : ∀ t p,
    indexOf t p = Nat.findGreatest (fun k => ((counts t).take k).sum < p) (counts t).length

attribute [simp] LawfulFenwickTree.counts_fromIter

/-- A tree whose derived `PartialEq`, `Ord` and `Hash` look at its one field, a vector that the
counts determine. -/
class FieldwiseFenwickTree (F : Type*) extends LawfulFenwickTree F where
  /-- The vector the tree keeps. -/
  inner : F → List ℕ
  inner_congr : ∀ t t', counts t = counts t' → inner t = inner t'

/-- The plain list of counts: the smallest lawful tree, used to run the model. -/
structure CountList where
  counts : List ℕ
  deriving DecidableEq, Repr

instance : FieldwiseFenwickTree CountList where
  fromIter l := ⟨l⟩
  addAt t i d := ⟨t.counts.modify i (· + d)⟩
  subAt t i d := ⟨t.counts.modify i (· - d)⟩
  prefixSum t k init := init + (t.counts.take k).sum
  indexOf t p := Nat.findGreatest (fun k => (t.counts.take k).sum < p) t.counts.length
  counts := CountList.counts
  counts_fromIter _ := rfl
  counts_addAt _ _ _ _ := rfl
  counts_subAt _ _ _ _ _ _ := rfl
  prefixSum_eq _ _ _ := rfl
  indexOf_eq _ _ := rfl
  inner := CountList.counts
  inner_congr _ _ h := h

end IndexSet
