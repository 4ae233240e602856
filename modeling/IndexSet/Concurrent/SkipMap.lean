import IndexSet.Lib.KeyRange
import IndexSet.Core.Pair

/-!
# The Skip List Index

The concurrent `BTreeSet` keeps its nodes in a `crossbeam_skiplist::SkipMap`, from each
node's maximum to an `Arc<Mutex<Node>>`.  The crate is not part of the repository: the
model takes it as a parameter.  `SkipMap` lists the operations the code calls,
`LawfulSkipMap` what the crate documents of them — a map sorted by key, with one entry a
key.  An `Arc` is the identifier of the node it points at, so `Arc::ptr_eq` is equality.
-/

namespace IndexSet.Concurrent

open KeyedList

/-- An `Arc<Mutex<Node>>`: which node it points at. -/
abbrev NodeId := ℕ

/-- The operations of `SkipMap<T, Arc<Mutex<Node>>>` that the code calls. -/
class SkipMap (M : Type) (T K : outParam Type) where
  new : M
  get : M → K → Option (T × NodeId)
  insert : M → T → NodeId → M
  remove : M → K → M
  /-- `lower_bound(Bound::Included(q))`: the first entry whose key is not below `q`. -/
  lowerBound : M → K → Option (T × NodeId)
  /-- `lower_bound`: the first entry behind a start bound of some borrowed form. -/
  lowerBoundOf {Q : Type} [LinearOrder Q] (borrow : T → Q) : M → Bound Q → Option (T × NodeId)
  /-- `upper_bound`: the last entry before an end bound. -/
  upperBoundOf {Q : Type} [LinearOrder Q] (borrow : T → Q) : M → Bound Q → Option (T × NodeId)
  /-- `Entry::next` and `Entry::prev`. -/
  next : M → T × NodeId → Option (T × NodeId)
  prev : M → T × NodeId → Option (T × NodeId)
  front : M → Option (T × NodeId)
  back : M → Option (T × NodeId)
  iter : M → List (T × NodeId)

/-- The key an entry is sorted by. -/
def entryKey {T K : Type} [Keyed T K] (e : T × NodeId) : K := key e.1

/-- The order of the borrowed form is a coarsening of the order of the elements. -/
def Coarsens {T K Q : Type} [LinearOrder K] [Keyed T K] [LinearOrder Q] (borrow : T → Q) : Prop :=
  ∀ x y : T, key x ≤ key y → borrow x ≤ borrow y

/-- What the crate documents: the entries in key order say what every operation does.  A
bound is looked up by the order of the borrowed form, which has to agree with that of the
keys; what is found is an entry in any case. -/
class LawfulSkipMap (M : Type) (T K : outParam Type) [LinearOrder K] [Keyed T K] extends
    SkipMap M T K where
  iter_ascending : ∀ m : M, Ascending entryKey (iter m)
  iter_new : iter new = []
  get_eq : ∀ m q, get m q = find entryKey q (iter m)
  /-- An entry with the same key is replaced. -/
  iter_insert : ∀ m k n, iter (insert m k n) = put entryKey (k, n) (iter m)
  iter_remove : ∀ m q, iter (remove m q) = erase entryKey q (iter m)
  lowerBound_eq : ∀ m q, lowerBound m q = (iter m).find? fun e => q ≤ entryKey e
  lowerBoundOf_eq : ∀ {Q : Type} [LinearOrder Q] {borrow : T → Q}, Coarsens borrow →
    ∀ m bound, lowerBoundOf borrow m bound = (iter m).find? fun e => bound.Starts (borrow e.1)
  lowerBoundOf_mem : ∀ {Q : Type} [LinearOrder Q] {borrow : T → Q} {m bound e},
    lowerBoundOf borrow m bound = some e → e ∈ iter m
  upperBoundOf_eq : ∀ {Q : Type} [LinearOrder Q] {borrow : T → Q}, Coarsens borrow →
    ∀ m bound, upperBoundOf borrow m bound =
      (iter m).reverse.find? fun e => bound.Ends (borrow e.1)
  next_eq : ∀ m e, next m e = (iter m).find? fun p => entryKey e < entryKey p
  prev_eq : ∀ m e, prev m e = (iter m).reverse.find? fun p => entryKey p < entryKey e
  front_eq : ∀ m, front m = (iter m).head?
  back_eq : ∀ m, back m = (iter m).getLast?

/-- The sorted list of entries: the smallest lawful index, used to run the model. -/
structure SortedIndex (T : Type) {K : Type} [LinearOrder K] [Keyed T K] where
  entries : List (T × NodeId)
  ascending : Ascending entryKey entries

instance {T K : Type} [LinearOrder K] [Keyed T K] : LawfulSkipMap (SortedIndex T) T K where
  new := ⟨[], ascending_nil⟩
  get m q := find entryKey q m.entries
  insert m k n := ⟨put entryKey (k, n) m.entries, put_ascending m.ascending⟩
  remove m q := ⟨erase entryKey q m.entries, erase_ascending m.ascending⟩
  lowerBound m q := m.entries.find? fun e => q ≤ entryKey e
  lowerBoundOf borrow m bound := m.entries.find? fun e => bound.Starts (borrow e.1)
  upperBoundOf borrow m bound := m.entries.reverse.find? fun e => bound.Ends (borrow e.1)
  next m e := m.entries.find? fun p => entryKey e < entryKey p
  prev m e := m.entries.reverse.find? fun p => entryKey p < entryKey e
  front m := m.entries.head?
  back m := m.entries.getLast?
  iter m := m.entries
  iter_ascending m := m.ascending
  iter_new := rfl
  get_eq _ _ := rfl
  iter_insert _ _ _ := rfl
  iter_remove _ _ := rfl
  lowerBound_eq _ _ := rfl
  lowerBoundOf_eq _ _ _ := rfl
  lowerBoundOf_mem h := List.mem_of_find?_eq_some h
  upperBoundOf_eq _ _ _ := rfl
  next_eq _ _ := rfl
  prev_eq _ _ := rfl
  front_eq _ := rfl
  back_eq _ := rfl

end IndexSet.Concurrent
