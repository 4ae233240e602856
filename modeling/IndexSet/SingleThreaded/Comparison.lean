import IndexSet.Lib.Lexicographic
import IndexSet.SingleThreaded.Consistency
import IndexSet.SingleThreaded.FiniteMap

/-!
# The Derived `PartialEq`, `Ord` and `Hash`

`#[derive(PartialEq, Eq, PartialOrd, Ord, Hash)]` on `BTreeSet` and `BTreeMap` look at the
fields `inner`, `index`, `node_capacity` and `len`, in this order: at the layout of the nodes
and not only at the elements.  Pairs compare and hash by their keys.

- `Consistent.eq_iff`, `Consistent.cmp_eq`: `len` and `index` decide nothing more than
  `inner` does;
- `seesElements_iff`: when equality and order of two sets are those of their elements;
- `seesValues_iff`: when equality of two maps with one layout is equality of their entries.

Both are about all sets and maps whose index and `len` fit their nodes: all that the public
methods reach (`Reached.consistent`), with maximum node sizes below two as well.
-/

namespace IndexSet

open KeyedList Lexicographic

variable {T Q V F K : Type} [LinearOrder K]

/-! ## §1 The derived implementations -/

/-- What a `Hash` implementation feeds to the hasher; equal elements feed the same. -/
inductive HashInput (K : Type) where
  | usize (n : ℕ)
  | element (k : K)
  deriving DecidableEq

/-- `impl Hash for Vec`: the length, then the items. -/
def hashVec {α : Type} (hash : α → List (HashInput K)) (l : List α) : List (HashInput K) :=
  .usize l.length :: l.flatMap hash

namespace BTreeSet

variable [Keyed T K] [FieldwiseFenwickTree F]

/-- `impl PartialEq for BTreeSet`. -/
def eq (a b : BTreeSet T F) : Bool :=
  a.inner.isEqv b.inner (fun x y => x.isEqv y fun u v => key u = key v) &&
    decide (FieldwiseFenwickTree.inner a.index = FieldwiseFenwickTree.inner b.index) &&
    decide (a.nodeCapacity = b.nodeCapacity) && decide (a.len = b.len)

/-- `impl Ord for BTreeSet`. -/
def cmp (a b : BTreeSet T F) : Ordering :=
  ((List.compareLex (List.compareLex fun x y => compare (key x) (key y)) a.inner b.inner).then
      (List.compareLex compare (FieldwiseFenwickTree.inner a.index)
        (FieldwiseFenwickTree.inner b.index))).then
    ((compare a.nodeCapacity b.nodeCapacity).then (compare a.len b.len))

/-- `impl Hash for BTreeSet`. -/
def hash (s : BTreeSet T F) : List (HashInput K) :=
  hashVec (hashVec fun x => [.element (key x)]) s.inner ++
    hashVec (fun n => [.usize n]) (FieldwiseFenwickTree.inner s.index) ++
    [.usize s.nodeCapacity, .usize s.len]

end BTreeSet

namespace BTreeMap

variable [Keyed Q K] [FieldwiseFenwickTree F]

/-- `impl PartialEq for BTreeMap`. -/
def eq (a b : BTreeMap Q V F) : Bool := a.set.eq b.set

end BTreeMap

/-! ## §2 Sets -/

namespace BTreeSet

variable [Keyed T K]

/-- The keys of a set, node by node. -/
def layout (s : BTreeSet T F) : List (List K) := s.inner.map (List.map key)

omit [LinearOrder K] in
theorem flatten_layout (s : BTreeSet T F) : s.layout.flatten = s.toList.map key := by
  rw [layout, toList, List.map_flatten]

omit [LinearOrder K] in
theorem lengths_layout (s : BTreeSet T F) :
    s.inner.map List.length = s.layout.map List.length := by
  simp [layout, Function.comp_def]

variable [FieldwiseFenwickTree F] {a b : BTreeSet T F}

omit [LinearOrder K] in
/-- Sets with one layout agree in the fields that describe it. -/
theorem Consistent.fields_eq (ha : a.Consistent) (hb : b.Consistent) (h : a.layout = b.layout) :
    FieldwiseFenwickTree.inner a.index = FieldwiseFenwickTree.inner b.index ∧ a.len = b.len := by
  refine ⟨FieldwiseFenwickTree.inner_congr _ _ ?_, ?_⟩
  · rw [ha.index_eq, hb.index_eq, lengths_layout, lengths_layout, h]
  · rw [ha.len_eq_sum, hb.len_eq_sum, lengths_layout, lengths_layout, h]

/-- Equality is equality of layout and capacity. -/
theorem Consistent.eq_iff (ha : a.Consistent) (hb : b.Consistent) :
    a.eq b = true ↔ a.layout = b.layout ∧ a.nodeCapacity = b.nodeCapacity := by
  have hinner : a.inner.isEqv b.inner (fun x y => x.isEqv y fun u v => key u = key v) = true ↔
      a.layout = b.layout :=
    isEqv_map (fun x y => isEqv_map (fun u v => by simp) x y) a.inner b.inner
  simp only [eq, Bool.and_eq_true, decide_eq_true_eq, hinner]
  constructor
  · rintro ⟨⟨⟨hlayout, -⟩, hcap⟩, -⟩
    exact ⟨hlayout, hcap⟩
  · rintro ⟨hlayout, hcap⟩
    have ⟨hindex, hlen⟩ := ha.fields_eq hb hlayout
    exact ⟨⟨⟨hlayout, hindex⟩, hcap⟩, hlen⟩

/-- The order compares the nodes first, and the capacities of equal ones. -/
theorem Consistent.cmp_eq (ha : a.Consistent) (hb : b.Consistent) :
    a.cmp b = (List.compareLex (List.compareLex compare) a.layout b.layout).then
      (compare a.nodeCapacity b.nodeCapacity) := by
  rw [cmp, compareLex_map_blocks]
  show ((List.compareLex (List.compareLex compare) a.layout b.layout).then _).then _ = _
  cases hc : List.compareLex (List.compareLex compare) a.layout b.layout with
  | lt => rfl
  | gt => rfl
  | eq =>
    have ⟨hindex, hlen⟩ := ha.fields_eq hb (compareLex_blocks_eq_iff.mp hc)
    rw [hindex, hlen, compareLex_self, compare_eq_iff_eq.mpr rfl]
    cases compare a.nodeCapacity b.nodeCapacity <;> rfl

omit [LinearOrder K] in
/-- What is hashed are the keys, node by node, the index, the capacity and the length. -/
theorem hash_eq (s : BTreeSet T F) :
    s.hash = hashVec (hashVec fun k => [.element k]) s.layout ++
      hashVec (fun n => [.usize n]) (FieldwiseFenwickTree.inner s.index) ++
      [.usize s.nodeCapacity, .usize s.len] := by
  simp only [hash, hashVec, layout, List.flatMap_map, List.length_map]
  rfl

/-- Equality, order and hash of two sets are those of their element sequences. -/
structure SeesElements (a b : BTreeSet T F) : Prop where
  eq : a.eq b = true ↔ a.toList.map key = b.toList.map key
  cmp : a.cmp b = (List.compareLex fun x y => compare (key x) (key y)) a.toList b.toList
  hash : a.eq b = true → a.hash = b.hash

end BTreeSet

/-- **Equality, order and hash of sets** are those of the elements exactly when the nodes are
aligned — at the first node in which the two sets differ, a node that is a prefix of the other
one is followed by something smaller — and equal nodes come with equal capacities. -/
theorem seesElements_iff [Keyed T K] [FieldwiseFenwickTree F] (a b : BTreeSet T F)
    (ha : a.Consistent) (hb : b.Consistent) :
    a.SeesElements b ↔
      Aligned a.layout b.layout ∧ (a.layout = b.layout → a.nodeCapacity = b.nodeCapacity) := by
  have heq := ha.eq_iff hb
  have hcmp := ha.cmp_eq hb
  have href : (List.compareLex fun x y => compare (key x) (key y)) a.toList b.toList =
      List.compareLex compare a.layout.flatten b.layout.flatten := by
    rw [compareLex_map, BTreeSet.flatten_layout, BTreeSet.flatten_layout]
  have hblocks := compareLex_blocks_iff a.layout b.layout
  constructor
  · intro h
    by_cases hlayout : a.layout = b.layout
    · have hflat : a.toList.map key = b.toList.map key := by
        rw [← BTreeSet.flatten_layout, hlayout, BTreeSet.flatten_layout]
      refine ⟨hblocks.mp ?_, fun _ => (heq.mp (h.eq.mpr hflat)).2⟩
      rw [hlayout, compareLex_self, compareLex_blocks_eq_iff]
    · refine ⟨hblocks.mp ?_, fun h => absurd h hlayout⟩
      have hne : List.compareLex (List.compareLex compare) a.layout b.layout ≠ .eq :=
        fun h => hlayout (compareLex_blocks_eq_iff.mp h)
      rw [← href, ← h.cmp, hcmp]
      cases hc : List.compareLex (List.compareLex compare) a.layout b.layout with
      | eq => exact absurd hc hne
      | lt => rfl
      | gt => rfl
  · rintro ⟨haligned, hcap⟩
    refine ⟨heq.trans ⟨fun h => ?_, fun h => ?_⟩, ?_, fun h => ?_⟩
    · rw [← BTreeSet.flatten_layout, h.1, BTreeSet.flatten_layout]
    · rw [← BTreeSet.flatten_layout, ← BTreeSet.flatten_layout] at h
      have hlayout := haligned.eq_of_flatten_eq h
      exact ⟨hlayout, hcap hlayout⟩
    · rw [hcmp, href, ← hblocks.mpr haligned]
      cases hc : List.compareLex (List.compareLex compare) a.layout b.layout with
      | eq =>
        rw [compare_eq_iff_eq.mpr (hcap (compareLex_blocks_eq_iff.mp hc))]
        rfl
      | lt => rfl
      | gt => rfl
    · have ⟨hlayout, hcap⟩ := heq.mp h
      have ⟨hindex, hlen⟩ := ha.fields_eq hb hlayout
      rw [BTreeSet.hash_eq, BTreeSet.hash_eq, hlayout, hindex, hcap, hlen]

/-- Inserted in ascending order, and with the middle element last: the same elements in
different nodes. -/
def ascendingOrder : BTreeSet ℕ CountList := ⟨[[1], [2, 3]], ⟨[1, 2]⟩, 2, 3⟩

def middleLast : BTreeSet ℕ CountList := ⟨[[1, 2], [3]], ⟨[2, 1]⟩, 2, 3⟩

theorem ascendingOrder_reached : ascendingOrder.Reached 0 :=
  .insert (v := 3) (r := true) (.insert (v := 2) (r := true) (.insert (v := 1) (r := true)
    (.withMaximumNodeSize 2 (by decide)) rfl) rfl) rfl

theorem middleLast_reached : middleLast.Reached 0 :=
  .insert (v := 2) (r := true) (.insert (v := 1) (r := true) (.insert (v := 3) (r := true)
    (.withMaximumNodeSize 2 (by decide)) rfl) rfl) rfl

/-- A set that differs from `ascendingOrder` in its last element. -/
def largerLast : BTreeSet ℕ CountList := ⟨[[1], [2, 4]], ⟨[1, 2]⟩, 2, 3⟩

theorem largerLast_reached : largerLast.Reached 0 :=
  .insert (v := 4) (r := true) (.insert (v := 2) (r := true) (.insert (v := 1) (r := true)
    (.withMaximumNodeSize 2 (by decide)) rfl) rfl) rfl

theorem seesElements_iff_largerLast : ascendingOrder.SeesElements largerLast :=
  (seesElements_iff ascendingOrder largerLast ascendingOrder_reached.consistent
    largerLast_reached.consistent).mpr
    ⟨by simp [ascendingOrder, largerLast, BTreeSet.layout, Aligned, key],
      fun h => absurd h (by decide)⟩

/-- Two sets of the same three elements that are not equal. -/
theorem eq_sees_layout :
    ascendingOrder.Reached 0 ∧ middleLast.Reached 0 ∧
      ascendingOrder.toList = middleLast.toList ∧ ¬ ascendingOrder.SeesElements middleLast :=
  ⟨ascendingOrder_reached, middleLast_reached, rfl,
    fun h => absurd (h.eq.mpr rfl) (by decide)⟩

/-! ## §3 Maps -/

namespace BTreeMap

variable [Keyed Q K]

/-- The entries of a map in order, with the keys as the order sees them. -/
def contents (m : BTreeMap Q V F) : List (K × V) :=
  m.set.toList.map fun p => (key p, p.value)

omit [LinearOrder K] in
theorem keys_contents (m : BTreeMap Q V F) : m.contents.map Prod.fst = m.set.layout.flatten := by
  rw [BTreeSet.flatten_layout, contents, List.map_map]
  rfl

omit [LinearOrder K] in
/-- Entry sequences agree when their keys and their values do. -/
theorem contents_eq_iff {m₁ m₂ : BTreeMap Q V F} :
    m₁.contents = m₂.contents ↔
      m₁.contents.map Prod.fst = m₂.contents.map Prod.fst ∧
        m₁.contents.map Prod.snd = m₂.contents.map Prod.snd := by
  constructor
  · rintro h
    rw [h]
    exact ⟨rfl, rfl⟩
  · rintro ⟨hfst, hsnd⟩
    exact (List.zip_of_prod hfst hsnd).trans (List.zip_of_prod rfl rfl).symm

/-- On valid maps that is to say that every key has the same value. -/
theorem contents_eq_iff_lookup [LawfulFenwickTree F] {m₁ m₂ : BTreeMap Q V F} (h₁ : m₁.Valid)
    (h₂ : m₂.Valid) :
    m₁.contents = m₂.contents ↔
      ∀ k : K, (m₁.lookup k).map Pair.value = (m₂.lookup k).map Pair.value := by
  have hmem : ∀ {m : BTreeMap Q V F}, m.Valid → ∀ k v,
      (k, v) ∈ m.contents ↔ (m.lookup k).map Pair.value = some v := by
    intro m hm k v
    have hasc : Ascending key m.set.toList := hm.layout.ascending
    rw [contents, List.mem_map, Option.map_eq_some_iff]
    refine exists_congr fun p => ?_
    rw [lookup, find_eq_some hasc, Prod.mk.injEq, and_assoc]
  have hsorted : ∀ {m : BTreeMap Q V F}, m.Valid →
      m.contents.Pairwise fun x y => x.1 < y.1 := fun hm =>
    List.pairwise_map.mpr hm.layout.ascending
  constructor
  · intro h k
    refine Option.ext fun v => ?_
    rw [← hmem h₁, ← hmem h₂, h]
  · intro h
    have hperm : m₁.contents.Perm m₂.contents := by
      refine (List.perm_ext_iff_of_nodup ?_ ?_).mpr fun x => by rw [hmem h₁, hmem h₂, h]
      · exact (hsorted h₁).imp fun hlt heq => absurd (congrArg Prod.fst heq) hlt.ne
      · exact (hsorted h₂).imp fun hlt heq => absurd (congrArg Prod.fst heq) hlt.ne
    exact hperm.eq_of_pairwise (fun x y _ _ hxy hyx => absurd hxy (lt_asymm hyx)) (hsorted h₁)
      (hsorted h₂)

end BTreeMap

/-- **Equality of maps** with the same node lengths is equality of their entries exactly when,
as soon as they hold the same keys, their capacities agree if and only if their values do. -/
theorem seesValues_iff [Keyed Q K] [FieldwiseFenwickTree F] (m₁ m₂ : BTreeMap Q V F)
    (h₁ : m₁.set.Consistent) (h₂ : m₂.set.Consistent)
    (hlayout : m₁.set.inner.map List.length = m₂.set.inner.map List.length) :
    (m₁.eq m₂ = true ↔ m₁.contents = m₂.contents) ↔
      (m₁.contents.map Prod.fst = m₂.contents.map Prod.fst →
        (m₁.set.nodeCapacity = m₂.set.nodeCapacity ↔
          m₁.contents.map Prod.snd = m₂.contents.map Prod.snd)) := by
  rw [BTreeSet.lengths_layout, BTreeSet.lengths_layout] at hlayout
  have heq : m₁.eq m₂ = true ↔ m₁.contents.map Prod.fst = m₂.contents.map Prod.fst ∧
      m₁.set.nodeCapacity = m₂.set.nodeCapacity := by
    rw [BTreeMap.keys_contents, BTreeMap.keys_contents, BTreeMap.eq,
      h₁.eq_iff h₂,
      List.eq_iff_flatten_eq (L := m₁.set.layout)]
    simp only [hlayout, and_true]
  rw [heq, BTreeMap.contents_eq_iff]
  exact and_congr_right_iff

/-- A map with one entry, and its clone after a write through `get_mut`. -/
def oneEntry (value : ℕ) : BTreeMap ℕ ℕ CountList := ⟨⟨[[⟨1, value⟩]], ⟨[1]⟩, 2, 1⟩⟩

theorem oneEntry_reached (value : ℕ) : (oneEntry value).Reached 0 := by
  have hget : (oneEntry 7).getMut 1 (fun _ => value) = some (oneEntry value, some 7) := rfl
  exact .getMut
    (.insert (k := 1) (v := 7) (r := none) (.withMaximumNodeSize 2 (by decide)) rfl) hget

/-- Two entries in one node, for some maximum node size and some value of the second. -/
def pairOfEntries (nodeCapacity value : ℕ) : BTreeMap ℕ ℕ CountList :=
  ⟨⟨[[⟨1, 7⟩, ⟨2, value⟩]], ⟨[2]⟩, nodeCapacity, 2⟩⟩

theorem pairOfEntries_reached :
    (pairOfEntries 2 8).Reached 0 ∧ (pairOfEntries 3 9).Reached 0 :=
  ⟨.insert (k := 2) (v := 8) (r := none) (.insert (k := 1) (v := 7) (r := none)
      (.withMaximumNodeSize 2 (by decide)) rfl) rfl,
    .insert (k := 2) (v := 9) (r := none) (.insert (k := 1) (v := 7) (r := none)
      (.withMaximumNodeSize 3 (by decide)) rfl) rfl⟩

theorem seesValues_iff_pairOfEntries :
    (pairOfEntries 2 8).eq (pairOfEntries 3 9) = true ↔
      (pairOfEntries 2 8).contents = (pairOfEntries 3 9).contents :=
  (seesValues_iff (pairOfEntries 2 8) (pairOfEntries 3 9)
    pairOfEntries_reached.1.consistent pairOfEntries_reached.2.consistent rfl).mpr
    fun _ => iff_of_false (by decide) (by decide)

/-- The written map is still equal to the one it was cloned from. -/
theorem eq_ignores_values :
    (oneEntry 7).Reached 0 ∧ (oneEntry 8).Reached 0 ∧
      (oneEntry 7).set.inner.map List.length = (oneEntry 8).set.inner.map List.length ∧
      ¬ ((oneEntry 7).eq (oneEntry 8) = true ↔ (oneEntry 7).contents = (oneEntry 8).contents) :=
  ⟨oneEntry_reached 7, oneEntry_reached 8, rfl,
    fun h => absurd (h.mp (by decide)) (by decide)⟩

end IndexSet
