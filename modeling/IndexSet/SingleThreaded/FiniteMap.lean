import IndexSet.SingleThreaded.Refinement

/-!
# The Single-Threaded `BTreeMap` Is a Finite Map

- `BTreeMap.lookup`: the finite map a tree stands for, from the key order to the pair
  stored under a key;
- `BTreeMap.IsFiniteMap`: every operation on a key is the operation on that finite map —
  a read is a point of it, a write changes it at one point;
- `produced_isFiniteMap`: all maps that the public methods produce.

A borrowed key is a point of the key order; an owned key is an object that the map stores,
and two equal objects need not be the same.
-/

namespace IndexSet

open KeyedList

variable {Q V F K : Type} [LinearOrder K] [Keyed Q K]

namespace BTreeMap

/-- The pair a map holds for a key. -/
def lookup (m : BTreeMap Q V F) (k : K) : Option (Pair Q V) := find key k m.set.toList

/-- The stored key objects, in order. -/
def keys (m : BTreeMap Q V F) : List Q := m.set.toList.map Pair.key

/-- The operations on a map are those of the finite map `lookup`. -/
structure IsFiniteMap [LawfulFenwickTree F] (m : BTreeMap Q V F) : Prop where
  /-- `lookup` describes the entries that iteration yields. -/
  lookup_eq : ∀ (k : K) p, m.lookup k = some p ↔ p ∈ m.toList ∧ key p = k
  get : ∀ k : K, m.get k = some ((m.lookup k).map Pair.value)
  getKeyValue : ∀ k : K, m.getKeyValue k = some ((m.lookup k).map fun p => (p.key, p.value))
  containsKey : ∀ k : K, m.containsKey k = some (m.lookup k).isSome
  /-- A write through `get_mut` changes the value of that key. -/
  getMut : ∀ (k : K) (write : V → V), ∃ m', m.getMut k write =
      some (m', (m.lookup k).map Pair.value) ∧
    m'.lookup = Function.update m.lookup k ((m.lookup k).map (Pair.modifyValue write)) ∧
    m'.keys = m.keys
  /-- `insert` keeps the stored key object when there is one. -/
  insert : ∀ (k : Q) (v : V), ∃ m', m.insert k v =
      some (m', (m.lookup (key k)).map Pair.value) ∧
    m'.lookup = Function.update m.lookup (key k)
      (some ⟨((m.lookup (key k)).map Pair.key).getD k, v⟩) ∧
    ((m.lookup (key k)).isSome → m'.keys = m.keys)
  remove : ∀ k : K, ∃ m', m.remove k = some (m', (m.lookup k).map Pair.value) ∧
    m'.lookup = Function.update m.lookup k none
  removeEntry : ∀ k : K, ∃ m', m.removeEntry k =
      some (m', (m.lookup k).map fun p => (p.key, p.value)) ∧
    m'.lookup = Function.update m.lookup k none

/-- Storing a pair, seen through `lookup`. -/
theorem lookup_of_put {m m' : BTreeMap Q V F} {p : Pair Q V} {k : K} (hp : key p = k)
    (h : m'.toList = put key p m.toList) :
    m'.lookup = Function.update m.lookup k (some p) := by
  subst hp
  show (fun q => find key q m'.toList) = _
  rw [h, find_put_update]
  rfl

theorem lookup_of_erase {m m' : BTreeMap Q V F} {k : K} (h : m'.toList = erase key k m.toList) :
    m'.lookup = Function.update m.lookup k none := by
  show (fun q => find key q m'.toList) = _
  rw [h, find_erase_update]
  rfl

variable [LawfulFenwickTree F]

/-- Writing over a stored pair keeps the key objects. -/
theorem keys_of_put {m m' : BTreeMap Q V F} {p x : Pair Q V} (hm : m.Valid)
    (hx : m.lookup (key p) = some x) (hp : p.key = x.key) (h : m'.toList = put key p m.toList) :
    m'.keys = m.keys := by
  show m'.toList.map Pair.key = _
  rw [h]
  exact map_put_of_find hm.layout.ascending hx hp

/-- A usable map is a finite map. -/
theorem Usable.isFiniteMap {m : BTreeMap Q V F} (h : m.set.Usable) : m.IsFiniteMap where
  lookup_eq _ _ := find_eq_some h.1.layout.ascending
  get := get_spec h.1
  getKeyValue := getKeyValue_spec h.1
  containsKey := BTreeSet.containsCmp_spec h.1
  getMut k write := by
    obtain ⟨m', heval, -, -, hlist⟩ := getMut_spec (show m.Valid from h.1) k write
    refine ⟨m', heval, ?_⟩
    cases hx : m.lookup k with
    | none =>
      -- nothing stored, nothing written
      rw [show find key k m.toList = none from hx] at hlist
      rw [Option.elim_none] at hlist
      refine ⟨?_, congrArg (List.map Pair.key) hlist⟩
      rw [Option.map_none, ← hx, Function.update_eq_self]
      exact congrArg (fun l k => find key k l) hlist
    | some x =>
      have hkey : key x = k := ((find_eq_some h.1.layout.ascending).mp hx).2
      rw [show find key k m.toList = some x from hx, Option.elim_some] at hlist
      have hkeys : m'.keys = m.keys :=
        keys_of_put (p := x.modifyValue write) (x := x) h.1 (by rw [← hx, ← hkey]; rfl) rfl hlist
      exact ⟨lookup_of_put hkey hlist, hkeys⟩
  insert k v := by
    obtain ⟨m', heval, -, -, hlist⟩ := insert_spec (show m.Valid from h.1) h.2 k v
    refine ⟨m', heval, ?_⟩
    cases hx : m.lookup (key k) with
    | none =>
      rw [show find key (key k) m.toList = none from hx] at hlist
      exact ⟨lookup_of_put rfl hlist, by simp⟩
    | some x =>
      have hkey : key x = key k := ((find_eq_some h.1.layout.ascending).mp hx).2
      rw [show find key (key k) m.toList = some x from hx] at hlist
      have hkeys : m'.keys = m.keys :=
        keys_of_put (p := ⟨x.key, v⟩) (x := x) h.1 (by rw [← hx, ← hkey]; rfl) rfl hlist
      exact ⟨lookup_of_put hkey hlist, fun _ => hkeys⟩
  remove k := by
    obtain ⟨m', heval, -, -, hlist⟩ := remove_spec (show m.Valid from h.1) k
    exact ⟨m', heval, lookup_of_erase hlist⟩
  removeEntry k := by
    obtain ⟨m', heval, -, -, hlist⟩ := removeEntry_spec (show m.Valid from h.1) k
    exact ⟨m', heval, lookup_of_erase hlist⟩

end BTreeMap

/-- **Finite map**: on every map the public methods produce, reads see exactly the entry of
their key and writes change exactly that entry. -/
theorem produced_isFiniteMap (m : BTreeMap Q V F) [LawfulFenwickTree F] (h : m.Produced) :
    m.IsFiniteMap :=
  BTreeMap.Usable.isFiniteMap h.usable

/-- Three pairs in two nodes: the key `2` sits at the end of the first one. -/
theorem produced_isFiniteMap_split :
    (⟨⟨[[⟨1, 7⟩, ⟨2, 8⟩], [⟨3, 9⟩]], ⟨[2, 1]⟩, 2, 3⟩⟩ : BTreeMap ℕ ℕ CountList).IsFiniteMap :=
  produced_isFiniteMap _ (.insert (k := 2) (v := 8) (.insert (k := 1) (v := 7)
    (.insert (k := 3) (v := 9) (.withMaximumNodeSize 2 (by decide)) rfl) rfl) rfl)

end IndexSet
