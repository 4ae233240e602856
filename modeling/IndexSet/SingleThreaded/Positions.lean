import IndexSet.Lib.KeyRange
import IndexSet.SingleThreaded.Refinement

/-!
# Positions and Bounds

The read-only lookups of `lib.rs` that answer with a neighbour or a position, for the
single-threaded set and map.

- `lowerBound_spec`, `get_spec`: both return the least element not less than the value;
- `getIndex_spec`, `rank_spec`: the entry at a position, the position of a value;
- `orderStatistics`: positions and values translate into each other without a loss;
- `get_exact_iff`: the values for which `get` answers as its documentation says.

`get` has the body of `lower_bound`: unlike `contains` and `take` it does not compare the
element it has found with the value.
-/

namespace IndexSet

open KeyedList

variable {T Q V F K : Type} [LinearOrder K]

/-! ## §1 Cursors and positions of the map -/

/-- `struct Cursor`. -/
structure Cursor (T F : Type) where
  set : BTreeSet T F
  idx : ℕ

/-- `struct CursorMap`. -/
structure CursorMap (Q V F : Type) where
  cursor : Cursor (Pair Q V) F

section Code

variable [FenwickTree F]

/-- `Cursor::item`. -/
def Cursor.item (c : Cursor T F) : Option (Option T) := c.set.getIndex c.idx

/-- `CursorMap::key_value`. -/
def CursorMap.keyValue (c : CursorMap Q V F) : Option (Option (Q × V)) := do
  match ← c.cursor.item with
  | some entry => return some (entry.key, entry.value)
  | none => return none

namespace BTreeMap

variable [Keyed Q K]

/-- `BTreeMap::get_index`. -/
def getIndex (m : BTreeMap Q V F) (idx : ℕ) : Option (Option (Q × V)) := do
  match ← m.set.getIndex idx with
  | some entry => return some (entry.key, entry.value)
  | none => return none

/-- `BTreeMap::rank`. -/
def rank (m : BTreeMap Q V F) (value : K) : Option ℕ := m.set.rankCmp (Pair.cmp value)

/-- `BTreeMap::lower_bound`. -/
def lowerBound (m : BTreeMap Q V F) (bound : Bound K) : Option (CursorMap Q V F) := do
  let startIdx ← match bound with
    | .included start => m.set.rankCmp (Pair.cmp start)
    | .excluded start => (m.set.rankCmp (Pair.cmp start)).map (· + 1)
    | .unbounded => some 0
  return ⟨⟨m.set, startIdx⟩⟩

end BTreeMap

end Code

/-! ## §2 Bounds -/

namespace BTreeSet

variable [Keyed T K] [LawfulFenwickTree F]

/-- **`lower_bound`** is the first element that is not less than the value. -/
theorem lowerBound_spec {s : BTreeSet T F} (hs : s.Valid) (q : K) :
    s.lowerBound q = some (s.toList.find? fun x => q ≤ key x) := by
  obtain ⟨pre, a, b, post, hinner, hloc, -, hlow, hhigh, hstop⟩ := locateValue_spec hs.layout q
  have hlist : s.toList = (pre.flatten ++ a) ++ (b ++ post.flatten) := by simp [toList, hinner]
  have hhead : (b ++ post.flatten).head? = b.head? := by
    cases b with
    | nil => simp [hstop rfl]
    | cons x b => rfl
  rw [find_cut_head hlist hlow hhigh, hhead, ← elementAt_split hinner]
  simp only [lowerBound, hloc, Option.bind_eq_bind, Option.bind_some]
  rfl

/-- `get` is the same function. -/
theorem get_spec {s : BTreeSet T F} (hs : s.Valid) (q : K) :
    s.get q = some (s.toList.find? fun x => q ≤ key x) :=
  lowerBound_spec hs q

/-! ## §3 Positions -/

/-- **`rank`** counts the elements below the value. -/
theorem rank_spec {s : BTreeSet T F} (hs : s.Valid) (q : K) :
    s.rank q = some (s.toList.filter fun x => key x < q).length := by
  obtain ⟨pre, a, b, post, hinner, hloc, -, hlow, hhigh, -⟩ := locateValue_spec hs.layout q
  have hlist : s.toList = (pre.flatten ++ a) ++ (b ++ post.flatten) := by simp [toList, hinner]
  rw [(filter_cut hlist hlow hhigh).1, List.length_append]
  simp only [rank, hloc, Option.bind_eq_bind, Option.bind_some, prefixSum_eq_length hs, hinner,
    List.take_left']
  rfl

/-- Every position is located: no subtraction of `locate_ith` goes below zero. -/
theorem locateIth_isSome {s : BTreeSet T F} (hs : s.Valid) (i : ℕ) : (s.locateIth i).isSome := by
  rcases Nat.lt_or_ge i s.toList.length with hi | hi
  · obtain ⟨pre, a, x, b, post, -, hloc, -⟩ := locateIth_spec hs hi
    rw [hloc]
    rfl
  · obtain ⟨j, hloc⟩ := locateIth_end hs hi
    rw [hloc]
    rfl

/-- **`get_index`** is the entry at the position. -/
theorem getIndex_spec {s : BTreeSet T F} (hs : s.Valid) (i : ℕ) :
    s.getIndex i = some s.toList[i]? := by
  rcases Nat.lt_or_ge i s.toList.length with hi | hi
  · obtain ⟨pre, a, x, b, post, hinner, hloc, rfl⟩ := locateIth_spec hs hi
    have hlist : s.toList = (pre.flatten ++ a) ++ x :: (b ++ post.flatten) := by
      simp [toList, hinner]
    have helem : s.elementAt pre.length a.length = some x := elementAt_split hinner
    rw [hlist, getElem?_split, ← helem]
    simp only [getIndex, hloc, Option.bind_eq_bind, Option.bind_some]
    rfl
  · obtain ⟨j, hloc⟩ := locateIth_end hs hi
    rw [List.getElem?_eq_none hi]
    simp [getIndex, hloc, elementAt]

end BTreeSet

namespace BTreeMap

variable [Keyed Q K] [LawfulFenwickTree F]

theorem getIndex_spec {m : BTreeMap Q V F} (hm : m.Valid) (i : ℕ) :
    m.getIndex i = some (m.toList[i]?.map fun p => (p.key, p.value)) := by
  rw [getIndex, BTreeSet.getIndex_spec hm, toList]
  cases m.set.toList[i]? <;> rfl

theorem rank_spec {m : BTreeMap Q V F} (hm : m.Valid) (k : K) :
    m.rank k = some (m.toList.filter fun p => key p < k).length :=
  BTreeSet.rankCmp_spec hm k

/-- The cursor at an included key shows the first entry that is not less than it. -/
theorem lowerBound_spec {m : BTreeMap Q V F} (hm : m.Valid) (k : K) :
    (m.lowerBound (.included k)).bind CursorMap.keyValue =
      some ((m.toList.find? fun p => k ≤ key p).map fun p => (p.key, p.value)) := by
  have hasc : Ascending key m.toList := hm.layout.ascending
  have hrank : m.set.rankCmp (Pair.cmp k) = _ := rank_spec hm k
  rw [← getElem?_length_filter hasc]
  simp only [lowerBound, hrank, CursorMap.keyValue, Cursor.item, Option.bind_eq_bind,
    Option.bind_some, Option.pure_def, BTreeSet.getIndex_spec hm, toList]
  cases m.set.toList[(m.set.toList.filter fun p => key p < k).length]? <;> rfl

end BTreeMap

/-! ## §4 Order statistics -/

/-- An answer is the least element that is not less than the value. -/
def IsLeastFrom [Keyed T K] (l : List T) (q : K) : Option T → Prop
  | some x => x ∈ l ∧ q ≤ key x ∧ ∀ y ∈ l, q ≤ key y → key x ≤ key y
  | none => ∀ y ∈ l, key y < q

theorem isLeastFrom_find [Keyed T K] {l : List T} (h : Ascending key l) (q : K) :
    IsLeastFrom l q (l.find? fun x => q ≤ key x) := by
  cases hfind : l.find? fun x => q ≤ key x with
  | some x => exact find_least h hfind
  | none => simpa [IsLeastFrom, List.find?_eq_none] using hfind

/-- Positions and values of a set translate into each other. -/
structure BTreeSet.OrderStatistics [Keyed T K] [LawfulFenwickTree F] (s : BTreeSet T F) :
    Prop where
  /-- No subtraction of `locate_ith` goes below zero. -/
  locateIth : ∀ i, (s.locateIth i).isSome
  getIndex : ∀ i, s.getIndex i = some s.toList[i]?
  rank : ∀ q : K, s.rank q = some (s.toList.filter fun x => key x < q).length
  lowerBound : ∀ q : K, ∃ r, s.lowerBound q = some r ∧ IsLeastFrom s.toList q r
  rank_getIndex : ∀ i x, s.getIndex i = some (some x) → s.rank (key x) = some i
  getIndex_rank : ∀ q : K, (s.rank q).bind s.getIndex = s.lowerBound q

/-- Positions and keys of a map translate into each other. -/
structure BTreeMap.OrderStatistics [Keyed Q K] [LawfulFenwickTree F] (m : BTreeMap Q V F) :
    Prop where
  locateIth : ∀ i, (m.set.locateIth i).isSome
  getIndex : ∀ i, m.getIndex i = some (m.toList[i]?.map fun p => (p.key, p.value))
  rank : ∀ k : K, m.rank k = some (m.toList.filter fun p => key p < k).length
  lowerBound : ∀ k : K, ∃ r, (m.lowerBound (.included k)).bind CursorMap.keyValue =
    some (r.map fun p => (p.key, p.value)) ∧ IsLeastFrom m.toList k r
  rank_getIndex : ∀ i k v, m.getIndex i = some (some (k, v)) → m.rank (key k) = some i
  getIndex_rank : ∀ k : K,
    (m.rank k).bind m.getIndex = (m.lowerBound (.included k)).bind CursorMap.keyValue

theorem BTreeSet.Valid.orderStatistics [Keyed T K] [LawfulFenwickTree F] {s : BTreeSet T F}
    (hs : s.Valid) : s.OrderStatistics where
  locateIth := locateIth_isSome hs
  getIndex := getIndex_spec hs
  rank := rank_spec hs
  lowerBound q := ⟨_, lowerBound_spec hs q, isLeastFrom_find hs.layout.ascending q⟩
  rank_getIndex i x hx := by
    rw [getIndex_spec hs, Option.some.injEq] at hx
    rw [rank_spec hs, length_filter_lt (show Ascending key s.toList from hs.layout.ascending) hx]
  getIndex_rank q := by
    rw [rank_spec hs, Option.bind_some, getIndex_spec hs, lowerBound_spec hs,
      getElem?_length_filter (show Ascending key s.toList from hs.layout.ascending)]

theorem BTreeMap.Valid.orderStatistics [Keyed Q K] [LawfulFenwickTree F] {m : BTreeMap Q V F}
    (hm : m.Valid) : m.OrderStatistics where
  locateIth := BTreeSet.locateIth_isSome hm
  getIndex := getIndex_spec hm
  rank := rank_spec hm
  lowerBound k := ⟨_, lowerBound_spec hm k, isLeastFrom_find hm.layout.ascending k⟩
  rank_getIndex i k v hentry := by
    rw [getIndex_spec hm, Option.some.injEq, Option.map_eq_some_iff] at hentry
    obtain ⟨p, hp, heq⟩ := hentry
    cases heq
    have hasc : Ascending key m.toList := hm.layout.ascending
    rw [rank_spec hm, ← length_filter_lt hasc hp]
    rfl
  getIndex_rank k := by
    have hasc : Ascending key m.toList := hm.layout.ascending
    rw [rank_spec hm, Option.bind_some, getIndex_spec hm, lowerBound_spec hm,
      getElem?_length_filter hasc]

/-- **Order statistics**: in every set and every map that satisfies the invariant, positions
are the positions of the entry list and ranks count what is below a value, each the inverse
of the other. -/
theorem valid_orderStatistics {K' : Type} [LinearOrder K'] [Keyed T K] [Keyed Q K']
    [LawfulFenwickTree F] :
    (∀ s : BTreeSet T F, s.Valid → s.OrderStatistics) ∧
      ∀ m : BTreeMap Q V F, m.Valid → m.OrderStatistics :=
  ⟨fun _ hs => hs.orderStatistics, fun _ hm => hm.orderStatistics⟩

/-- Three elements in two nodes. -/
def threeElements : BTreeSet ℕ CountList := ⟨[[1, 3], [5]], ⟨[2, 1]⟩, 2, 3⟩

theorem threeElements_produced : threeElements.Produced :=
  .insert (v := 3) (.insert (v := 1) (.insert (v := 5)
    (.withMaximumNodeSize 2 (by decide)) rfl) rfl) rfl

theorem valid_orderStatistics_threeElements :
    threeElements.OrderStatistics ∧
      (⟨⟨[[⟨1, 7⟩]], ⟨[1]⟩, 2, 1⟩⟩ : BTreeMap ℕ ℕ CountList).OrderStatistics :=
  ⟨(valid_orderStatistics (T := ℕ) (Q := ℕ) (V := ℕ)).1 _ threeElements_produced.usable.1,
    (valid_orderStatistics (T := ℕ) (Q := ℕ) (V := ℕ)).2 _
      ⟨⟨by decide, by decide, by decide⟩, rfl, rfl⟩⟩

/-! ## §5 `get` -/

namespace BTreeSet

variable [Keyed T K] [LawfulFenwickTree F]

/-- `get` returns the equal element, and nothing when there is none; `contains` agrees. -/
def GetExact (s : BTreeSet T F) (q : K) : Prop :=
  ∃ r, s.get q = some r ∧ (∀ x, r = some x ↔ x ∈ s.toList ∧ key x = q) ∧
    s.contains q = some r.isSome

/-- Below a cut `get` answers with the head of the other side. -/
theorem getExact_cut {s : BTreeSet T F} (hs : s.Valid) {q : K} {a b : List T}
    (hlist : s.toList = a ++ b) (ha : Below key a q) (hb : ∀ x ∈ b, q ≤ key x) :
    s.GetExact q ↔ ∀ x, b.head? = some x → key x = q := by
  have hasc : Ascending key s.toList := hs.layout.ascending
  have hget : s.get q = some b.head? := by
    rw [get_spec hs, find_cut_head hlist ha hb]
  have hfind : find key q s.toList = b.head?.filter fun x => key x = q := by
    rw [hlist] at hasc ⊢
    exact find_cut ha (ascending_append.mp hasc).2.1 hb
  constructor
  · rintro ⟨r, hr, hiff, -⟩ x hx
    obtain rfl : b.head? = r := Option.some.inj (hget.symm.trans hr)
    exact ((hiff x).mp hx).2
  · intro hhead
    have hfilter : b.head?.filter (fun x => key x = q) = b.head? := by
      cases hb' : b.head? with
      | none => rfl
      | some x => simp [Option.filter_some, hhead x hb']
    rw [hfilter] at hfind
    refine ⟨b.head?, hget, fun x => ?_, ?_⟩
    · rw [← hfind]
      exact find_eq_some hasc
    · rw [contains_spec hs, hfind]

end BTreeSet

/-- **`get`** is exact on the values that are stored and on those above every element, and on
no others. -/
theorem get_exact_iff [Keyed T K] [LawfulFenwickTree F] (s : BTreeSet T F) (h : s.Valid) (q : K) :
    s.GetExact q ↔ (∃ x ∈ s.toList, key x = q) ∨ Below key s.toList q := by
  have hasc : Ascending key s.toList := h.layout.ascending
  obtain ⟨a, b, hlist, ha, hb⟩ := hasc.exists_cut_le q
  rw [BTreeSet.getExact_cut h hlist ha hb]
  cases b with
  | nil =>
    rw [List.append_nil] at hlist
    exact ⟨fun _ => Or.inr (hlist ▸ ha), by simp⟩
  | cons x b =>
    simp only [List.head?_cons, Option.some.injEq, forall_eq']
    constructor
    · intro hx
      exact Or.inl ⟨x, by simp [hlist], hx⟩
    · rintro (⟨y, hy, rfl⟩ | hbelow)
      · rw [hlist] at hy hasc
        obtain ⟨-, -, -, habove⟩ := ascending_append_cons.mp hasc
        rcases List.mem_append.mp hy with hya | hyb
        · exact absurd (ha y hya) (lt_irrefl _)
        · rcases List.mem_cons.mp hyb with rfl | hyb
          · rfl
          · exact absurd (hb x (List.mem_cons_self ..)) (not_le.mpr (habove y hyb))
      · exact absurd (hb x (List.mem_cons_self ..)) (not_le.mpr (hbelow x (by simp [hlist])))

theorem get_exact_iff_threeElements : threeElements.GetExact 3 ∧ threeElements.GetExact 6 :=
  ⟨(get_exact_iff threeElements threeElements_produced.usable.1 3).mpr
      (Or.inl ⟨3, by decide, rfl⟩),
    (get_exact_iff threeElements threeElements_produced.usable.1 6).mpr (Or.inr (by decide))⟩

/-- `get(&2)` answers with the `3` behind the gap. -/
theorem get_returns_neighbour :
    threeElements.Produced ∧ threeElements.get 2 = some (some 3) ∧
      threeElements.contains 2 = some false ∧ ¬ threeElements.GetExact 2 := by
  refine ⟨threeElements_produced, by decide +kernel, by decide +kernel, ?_⟩
  rintro ⟨r, hget, hexact, -⟩
  obtain rfl : some 3 = r :=
    Option.some.inj ((show threeElements.get 2 = some (some 3) by decide +kernel).symm.trans hget)
  exact absurd ((hexact 3).mp rfl).2 (by decide)

end IndexSet
