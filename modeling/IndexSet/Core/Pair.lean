import Mathlib.Order.Lattice

/-!
# Ordered Elements and Pairs

Rust's `T: Ord` compares elements through a total order in which `Equal` need not
mean "identical": `core/pair.rs` orders a `Pair` by its key alone.  We give an
element type by the key its order looks at: `compare a b` is `compare (key a) (key b)`,
and `a == b` is `key a = key b`.

A borrowed query `&Q` whose order agrees with the element order, as `Borrow`
requires, is a point of the key order as well, so lookups take a `K`.
-/

namespace IndexSet

/-- The order of an element type: elements compare as their keys do. -/
class Keyed (T : Type*) (K : outParam (Type*)) where
  key : T → K

export Keyed (key)

instance : Keyed Nat Nat := ⟨id⟩

/-- `core/pair.rs`: a key with a value. -/
structure Pair (Q V : Type*) where
  key : Q
  value : V
  deriving DecidableEq, Repr

/-- `impl Ord for Pair`: pairs compare by their keys, whatever the values. -/
instance {Q V K : Type*} [Keyed Q K] : Keyed (Pair Q V) K := ⟨fun p => Keyed.key p.key⟩

theorem Pair.key_eq {Q V K : Type*} [Keyed Q K] (p : Pair Q V) :
    Keyed.key p = Keyed.key p.key := rfl

end IndexSet
