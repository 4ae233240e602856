import IndexSet.SingleThreaded.Positions

/-!
# Partition and Filter

Two bulk operations of `lib.rs` that keep or hand out a part of the entries.

- `split_off` leaves what is below the value and returns the rest (`splitOff_partitions`);
- `retain` leaves the entries its closure accepts (`retain_filters`).

In both, the sets afterwards are intact: their lengths and position lookups are right and no
empty node is left next to another one.
-/

namespace IndexSet

open KeyedList

variable {T Q V F K : Type} [LinearOrder K] [LawfulFenwickTree F]

/-! ## §1 Intact sets -/

/-- A set holds exactly these elements, with a matching length and matching positions. -/
structure BTreeSet.HoldsExactly [Keyed T K] (s : BTreeSet T F) (l : List T) : Prop where
  toList : s.toList = l
  len : s.len = l.length
  alone_of_nil : ∀ node ∈ s.inner, node = [] → s.inner.length = 1
  orderStatistics : s.OrderStatistics

/-- A map holds exactly these entries. -/
structure BTreeMap.HoldsExactly [Keyed Q K] (m : BTreeMap Q V F) (l : List (Pair Q V)) : Prop where
  toList : m.toList = l
  len : m.set.len = l.length
  alone_of_nil : ∀ node ∈ m.set.inner, node = [] → m.set.inner.length = 1
  orderStatistics : m.OrderStatistics

theorem BTreeSet.Valid.holdsExactly [Keyed T K] {s : BTreeSet T F} (hs : s.Valid) {l : List T}
    (hl : s.toList = l) : s.HoldsExactly l where
  toList := hl
  len := by rw [hs.len_eq, hl]
  alone_of_nil := hs.layout.alone_of_nil
  orderStatistics := hs.orderStatistics

theorem BTreeMap.Valid.holdsExactly [Keyed Q K] {m : BTreeMap Q V F} (hm : m.Valid)
    {l : List (Pair Q V)} (hl : m.toList = l) : m.HoldsExactly l where
  toList := hl
  len := by rw [hm.len_eq, ← hl, BTreeMap.toList]
  alone_of_nil := hm.layout.alone_of_nil
  orderStatistics := BTreeMap.Valid.orderStatistics hm

/-! ## §2 `split_off` -/

/-- **Splitting partitions**: what is below the value stays, the rest is returned, both in
order and both intact; for a map the same by key. -/
theorem splitOff_partitions {K' : Type} [LinearOrder K'] [Keyed T K] [Keyed Q K'] :
    (∀ s : BTreeSet T F, s.Valid → ∀ q : K, ∃ s₁ s₂, s.splitOff q = some (s₁, s₂) ∧
        s₁.HoldsExactly (s.toList.filter fun x => key x < q) ∧
        s₂.HoldsExactly (s.toList.filter fun x => q ≤ key x)) ∧
      ∀ m : BTreeMap Q V F, m.Valid → ∀ k : K', ∃ m₁ m₂, m.splitOff k = some (m₁, m₂) ∧
        m₁.HoldsExactly (m.toList.filter fun p => key p < k) ∧
        m₂.HoldsExactly (m.toList.filter fun p => k ≤ key p) := by
  constructor
  · intro s hs q
    obtain ⟨s₁, s₂, heval, hs₁, hs₂, -, -, hlist₁, hlist₂⟩ := BTreeSet.splitOff_spec hs q
    exact ⟨s₁, s₂, heval, hs₁.holdsExactly hlist₁, hs₂.holdsExactly hlist₂⟩
  · intro m hm k
    obtain ⟨m₁, m₂, heval, hm₁, hm₂, -, -, hlist₁, hlist₂⟩ := BTreeMap.splitOff_spec hm k
    exact ⟨m₁, m₂, heval, hm₁.holdsExactly hlist₁, hm₂.holdsExactly hlist₂⟩

theorem splitOff_partitions_threeElements :
    (∃ s₁ s₂, threeElements.splitOff 3 = some (s₁, s₂) ∧
      s₁.HoldsExactly [1] ∧ s₂.HoldsExactly [3, 5]) ∧
      ∃ m₁ m₂, (⟨⟨[[⟨1, 7⟩, ⟨4, 8⟩]], ⟨[2]⟩, 2, 2⟩⟩ : BTreeMap ℕ ℕ CountList).splitOff 2 =
        some (m₁, m₂) ∧ m₁.HoldsExactly [⟨1, 7⟩] ∧ m₂.HoldsExactly [⟨4, 8⟩] :=
  ⟨(splitOff_partitions (Q := ℕ) (V := ℕ)).1 threeElements threeElements_produced.usable.1 3,
    (splitOff_partitions (T := ℕ)).2 _ ⟨⟨by decide, by decide, by decide⟩, rfl, rfl⟩ 2⟩

/-! ## §3 `retain` -/

/-- The deletions at these positions succeed in turn, and each takes the element that its
position held at the beginning. -/
def BTreeSet.DeletesInPlace (s : BTreeSet T F) (ps : List (ℕ × ℕ)) : Prop :=
  ∀ before p after, ps = before ++ p :: after →
    ∃ s₁ s₂ x, s.deleteEach before = some s₁ ∧ s₁.deleteAt p.1 p.2 = some (s₂, x) ∧
      s.elementAt p.1 p.2 = some x

/-- The deletions of `retain` are at the entries answered with `false`, the last one first. -/
structure BTreeSet.DeletesRejected {σ : Type} (s : BTreeSet T F)
    (f : σ → T → Bool × T × σ) (st : σ) : Prop where
  positions : (s.toDelete f st).map (fun p => (s.scanned f st).elementAt p.1 p.2) =
    ((rejected (ask f s.toList st).1).map some).reverse
  inPlace : (s.scanned f st).DeletesInPlace (s.toDelete f st)

theorem BTreeSet.Valid.deletesRejected [Keyed T K] {s : BTreeSet T F} (hs : s.Valid) {σ : Type}
    {f : σ → T → Bool × T × σ} (hf : ∀ st x, key (f st x).2.1 = key x) (st : σ) :
    s.DeletesRejected f st where
  positions := elementAt_toDelete f st
  inPlace _ _ _ hcut := toDelete_fresh f st hs hf hcut

/-- The closure of the set's `retain` with a log of the entries it is called on. -/
def logging {σ : Type} (f : σ → T → Bool × σ) (st : σ × List T) (x : T) :
    Bool × σ × List T :=
  ((f st.1 x).1, (f st.1 x).2, st.2 ++ [x])

/-- The closure of the map's `retain` with a log of the entries it is called on. -/
def loggingMap {σ : Type} (f : σ → Q → V → Bool × V × σ) (st : σ × List (Pair Q V)) (k : Q)
    (v : V) : Bool × V × σ × List (Pair Q V) :=
  ((f st.1 k v).1, (f st.1 k v).2.1, (f st.1 k v).2.2, st.2 ++ [⟨k, v⟩])

/-- A closure that logs answers as before, and the log of asking for a list is the list. -/
theorem ask_logging {σ : Type} {f : σ → T → Bool × T × σ}
    {g : σ × List T → T → Bool × T × σ × List T}
    (hg : ∀ st x, g st x = ((f st.1 x).1, (f st.1 x).2.1, (f st.1 x).2.2, st.2 ++ [x]))
    (l : List T) (st : σ) (log : List T) :
    BTreeSet.ask g l (st, log) =
      ((BTreeSet.ask f l st).1, (BTreeSet.ask f l st).2, log ++ l) := by
  induction l generalizing st log with
  | nil => simp [BTreeSet.ask]
  | cons x l ih => simp [BTreeSet.ask, hg, ih]

/-- `retain` of a set with this closure is the filter by its answers. -/
structure BTreeSet.RetainFilters [Keyed T K] {σ : Type} (s : BTreeSet T F)
    (f : σ → T → Bool × σ) (st : σ) : Prop where
  /-- What an answer leaves is the entry it is about. -/
  entries : (ask (reading f) s.toList st).1.map Answer.left = s.toList
  run : ∃ s', s.retain f st = some (s', (ask (reading f) s.toList st).2) ∧
    s'.HoldsExactly (kept (ask (reading f) s.toList st).1)
  /-- The calls are one for each entry, in order. -/
  calls : ∃ s', s.retain (logging f) (st, []) =
    some (s', (ask (reading f) s.toList st).2, s.toList)
  deletions : s.DeletesRejected (reading f) st

/-- `retain` of a map with this closure is the filter by its answers. -/
structure BTreeMap.RetainFilters [Keyed Q K] {σ : Type} (m : BTreeMap Q V F)
    (f : σ → Q → V → Bool × V × σ) (st : σ) : Prop where
  run : ∃ m', m.retain f st = some (m', (BTreeSet.ask (writing f) m.toList st).2) ∧
    m'.HoldsExactly (BTreeSet.kept (BTreeSet.ask (writing f) m.toList st).1)
  /-- The calls are one for each entry, in order. -/
  calls : ∃ m', m.retain (loggingMap f) (st, []) =
    some (m', (BTreeSet.ask (writing f) m.toList st).2, m.toList)
  deletions : m.set.DeletesRejected (writing f) st

/-- **`retain` is filter**: whatever state its closure carries, it is called once on each entry
in ascending order, the deletions hit the entries answered with `false`, and the others stay, in
a map with the values the closure has written. -/
theorem retain_filters {K' : Type} [LinearOrder K'] [Keyed T K] [Keyed Q K'] {σ : Type} :
    (∀ s : BTreeSet T F, s.Valid → ∀ (f : σ → T → Bool × σ) (st : σ), s.RetainFilters f st) ∧
      ∀ m : BTreeMap Q V F, m.Valid → ∀ (f : σ → Q → V → Bool × V × σ) (st : σ),
        m.RetainFilters f st := by
  constructor
  · intro s hs f st
    obtain ⟨s', heval, hs', -, hlist⟩ := BTreeSet.retain_spec hs f st
    obtain ⟨s'', heval', -⟩ := BTreeSet.retain_spec hs (logging f) (st, [])
    rw [ask_logging (f := BTreeSet.reading f) (g := BTreeSet.reading (logging f))
      fun _ _ => rfl] at heval'
    exact ⟨BTreeSet.ask_reading f _ st, ⟨s', heval, hs'.holdsExactly hlist⟩, ⟨s'', heval'⟩,
      hs.deletesRejected (fun _ _ => rfl) st⟩
  · intro m hm f st
    obtain ⟨m', heval, hm', -, hlist⟩ := BTreeMap.retain_spec hm f st
    obtain ⟨m'', heval', -⟩ := BTreeMap.retain_spec hm (loggingMap f) (st, [])
    rw [ask_logging (f := BTreeMap.writing f) (g := BTreeMap.writing (loggingMap f))
      fun _ _ => rfl] at heval'
    exact ⟨⟨m', heval, hm'.holdsExactly hlist⟩, ⟨m'', heval'⟩,
      BTreeSet.Valid.deletesRejected hm (fun _ _ => rfl) st⟩

/-- Closures that accept every other entry, whatever it is. -/
theorem retain_filters_threeElements :
    threeElements.RetainFilters (fun (b : Bool) _ => (b, !b)) false ∧
      (⟨⟨[[⟨1, 7⟩, ⟨4, 8⟩]], ⟨[2]⟩, 2, 2⟩⟩ : BTreeMap ℕ ℕ CountList).RetainFilters
        (fun b _ v => (b, v + 1, !b)) false :=
  ⟨(retain_filters (Q := ℕ) (V := ℕ)).1 threeElements threeElements_produced.usable.1 _ _,
    (retain_filters (T := ℕ)).2 _ ⟨⟨by decide, by decide, by decide⟩, rfl, rfl⟩ _ _⟩

end IndexSet
