import IndexSet.SingleThreaded.Map

/-!
# The Single-Threaded `BTreeSet` Refines a Sorted List

- `BTreeSet.Produced`, `BTreeMap.Produced`: what any sequence of constructors and
  mutators can produce, from maximum node sizes of at least two;
- `produced_valid`: the representation invariant of all of it;
- `produced_refines`: on all of it every operation is the reference operation on the
  element list, and none panics.
-/

namespace IndexSet

open KeyedList

variable {T Q V F K : Type} [LinearOrder K] [LawfulFenwickTree F]

/-! ## §1 Produced sets and maps -/

/-- The sets that constructors and mutators reach from maximum node sizes of `least` and more. -/
inductive BTreeSet.Reached [Keyed T K] (least : ℕ) : BTreeSet T F → Prop where
  | withMaximumNodeSize (c : ℕ) (hc : least ≤ c) : Reached least (BTreeSet.withMaximumNodeSize c)
  | new : Reached least BTreeSet.new
  | insert {s s' v r} : Reached least s → s.insert v = some (s', r) → Reached least s'
  | replace {s s' v r} : Reached least s → s.replace v = some (s', r) → Reached least s'
  | remove {s s' r} {q : K} : Reached least s → s.remove q = some (s', r) → Reached least s'
  | take {s s' r} {q : K} : Reached least s → s.take q = some (s', r) → Reached least s'
  | popFirst {s s' r} : Reached least s → s.popFirst = some (s', r) → Reached least s'
  | popLast {s s' r} : Reached least s → s.popLast = some (s', r) → Reached least s'
  | popIndex {s s' r i} :
      Reached least s → i < s.len → s.popIndex i = some (s', r) → Reached least s'
  | retain {σ : Type} {f : σ → T → Bool × σ} {s s' st st'} :
      Reached least s → s.retain f st = some (s', st') → Reached least s'
  | appendSelf {s other s' other'} :
      Reached least s → Reached least other → s.append other = some (s', other') → Reached least s'
  | appendOther {s other s' other'} :
      Reached least s → Reached least other → s.append other = some (s', other') →
      Reached least other'
  | splitOffSelf {s s' latter} {q : K} :
      Reached least s → s.splitOff q = some (s', latter) → Reached least s'
  | splitOffLatter {s s' latter} {q : K} :
      Reached least s → s.splitOff q = some (s', latter) → Reached least latter
  | clear {s} : Reached least s → Reached least s.clear

/-- The sets that constructors and mutators produce. -/
abbrev BTreeSet.Produced [Keyed T K] (s : BTreeSet T F) : Prop := s.Reached 2

/-- The maps that constructors and mutators reach, entries included. -/
inductive BTreeMap.Reached [Keyed Q K] (least : ℕ) : BTreeMap Q V F → Prop where
  | withMaximumNodeSize (c : ℕ) (hc : least ≤ c) : Reached least (BTreeMap.withMaximumNodeSize c)
  | new : Reached least BTreeMap.new
  | insert {m m' k v r} : Reached least m → m.insert k v = some (m', r) → Reached least m'
  | remove {m m' r} {k : K} : Reached least m → m.remove k = some (m', r) → Reached least m'
  | removeEntry {m m' r} {k : K} :
      Reached least m → m.removeEntry k = some (m', r) → Reached least m'
  | popFirst {m m' r} : Reached least m → m.popFirst = some (m', r) → Reached least m'
  | popLast {m m' r} : Reached least m → m.popLast = some (m', r) → Reached least m'
  | popIndex {m m' r i} :
      Reached least m → i < m.set.len → m.popIndex i = some (m', r) → Reached least m'
  | retain {σ : Type} {f : σ → Q → V → Bool × V × σ} {m m' st st'} :
      Reached least m → m.retain f st = some (m', st') → Reached least m'
  | appendSelf {m other m' other'} :
      Reached least m → Reached least other → m.append other = some (m', other') → Reached least m'
  | appendOther {m other m' other'} :
      Reached least m → Reached least other → m.append other = some (m', other') →
      Reached least other'
  | splitOffSelf {m m' latter} {k : K} :
      Reached least m → m.splitOff k = some (m', latter) → Reached least m'
  | splitOffLatter {m m' latter} {k : K} :
      Reached least m → m.splitOff k = some (m', latter) → Reached least latter
  | clear {m} : Reached least m → Reached least m.clear
  | getMut {m m' r} {k : K} {write : V → V} :
      Reached least m → m.getMut k write = some (m', r) → Reached least m'
  -- a write through `get_mut_index`, `iter_mut`, `values_mut`, `range_mut` or an entry
  | write {m nodeIdx positionWithinNode} {write : V → V} :
      Reached least m →
      Reached least ⟨m.set.modifyAt nodeIdx positionWithinNode (Pair.modifyValue write)⟩
  | entryOrInsert {m m' k e r} {default : V} {write : V → V} :
      Reached least m → m.entry k = some e → e.orInsert default write = some (m', r) →
      Reached least m'
  | entryGetMut {m m' k e r} {write : V → V} :
      Reached least m → m.entry k = some (.occupied e) → e.getMut write = some (m', r) →
      Reached least m'
  | entryRemove {m m' k e r} :
      Reached least m → m.entry k = some (.occupied e) → e.removeEntry = some (m', r) →
      Reached least m'
  | firstEntryRemove {m m' e r} :
      Reached least m → m.firstEntry = some e → e.removeEntry = some (m', r) → Reached least m'
  | lastEntryRemove {m m' e r} :
      Reached least m → m.lastEntry = some e → e.removeEntry = some (m', r) → Reached least m'

/-- The maps that constructors and mutators produce, entries included. -/
abbrev BTreeMap.Produced [Keyed Q K] (m : BTreeMap Q V F) : Prop := m.Reached 2

/-! ## §2 The representation invariant -/

/-- What every produced set satisfies, with the capacity the next operation needs. -/
def BTreeSet.Usable [Keyed T K] (s : BTreeSet T F) : Prop := s.Valid ∧ 2 ≤ s.nodeCapacity

theorem two_le_defaultInnerSize : 2 ≤ defaultInnerSize := by decide

/-- A run of an operation that is specified as a total one. -/
theorem of_total {α β : Type} {result : Option (α × β)} {P : α → Prop} {a : α} {r r₀ : β}
    (hspec : ∃ a₁, result = some (a₁, r₀) ∧ P a₁) (hres : result = some (a, r)) : P a := by
  obtain ⟨a₁, heval, hP⟩ := hspec
  rw [hres] at heval
  cases heval
  exact hP

theorem BTreeSet.Produced.usable [Keyed T K] {s : BTreeSet T F} (h : s.Produced) : s.Usable := by
  induction h with
  | withMaximumNodeSize c hc => exact ⟨withMaximumNodeSize_valid c, hc⟩
  | new => exact ⟨new_valid, two_le_defaultInnerSize⟩
  | insert _ hres ih =>
    have ⟨hvalid, hcap, _⟩ := of_total (insert_spec ih.1 ih.2 _) hres
    exact ⟨hvalid, hcap ▸ ih.2⟩
  | replace _ hres ih =>
    have ⟨hvalid, hcap, _⟩ := of_total (replace_spec ih.1 ih.2 _) hres
    exact ⟨hvalid, hcap ▸ ih.2⟩
  | remove _ hres ih =>
    have ⟨hvalid, hcap, _⟩ := of_total (remove_spec ih.1 _) hres
    exact ⟨hvalid, hcap ▸ ih.2⟩
  | take _ hres ih =>
    have ⟨hvalid, hcap, _⟩ := of_total (take_spec ih.1 _) hres
    exact ⟨hvalid, hcap ▸ ih.2⟩
  | popFirst _ hres ih =>
    have ⟨hvalid, hcap, _⟩ := of_total (popFirst_spec ih.1) hres
    exact ⟨hvalid, hcap ▸ ih.2⟩
  | popLast _ hres ih =>
    have ⟨hvalid, hcap, _⟩ := of_total (popLast_spec ih.1) hres
    exact ⟨hvalid, hcap ▸ ih.2⟩
  | popIndex _ hi hres ih =>
    have ⟨hvalid, hcap, _⟩ := of_total (popIndex_spec ih.1 (ih.1.len_eq ▸ hi)) hres
    exact ⟨hvalid, hcap ▸ ih.2⟩
  | retain _ hres ih =>
    obtain ⟨s₁, heval, hvalid, hcap, -⟩ := retain_spec ih.1 _ _
    cases hres.symm.trans heval
    exact ⟨hvalid, hcap ▸ ih.2⟩
  | appendSelf _ _ hres ih ih' =>
    obtain ⟨s₁, s₂, heval, hvalid, -, hcap, -⟩ := append_spec ih.1 ih.2 ih'.1
    cases hres.symm.trans heval
    exact ⟨hvalid, hcap ▸ ih.2⟩
  | appendOther _ _ hres ih ih' =>
    obtain ⟨s₁, s₂, heval, -, hvalid, -, hcap, -⟩ := append_spec ih.1 ih.2 ih'.1
    cases hres.symm.trans heval
    exact ⟨hvalid, hcap ▸ ih'.2⟩
  | splitOffSelf _ hres ih =>
    obtain ⟨s₁, s₂, heval, hvalid, -, hcap, -⟩ := splitOff_spec ih.1 _
    cases hres.symm.trans heval
    exact ⟨hvalid, hcap ▸ ih.2⟩
  | splitOffLatter _ hres ih =>
    obtain ⟨s₁, s₂, heval, -, hvalid, -, hcap, -⟩ := splitOff_spec ih.1 _
    cases hres.symm.trans heval
    exact ⟨hvalid, hcap ▸ two_le_defaultInnerSize⟩
  | clear _ ih => exact ⟨clear_valid _, ih.2⟩

theorem BTreeMap.Produced.usable [Keyed Q K] {m : BTreeMap Q V F} (h : m.Produced) :
    m.set.Usable := by
  induction h with
  | withMaximumNodeSize c hc => exact ⟨BTreeSet.withMaximumNodeSize_valid c, hc⟩
  | new => exact ⟨BTreeSet.new_valid, two_le_defaultInnerSize⟩
  | insert _ hres ih =>
    have ⟨hvalid, hcap, _⟩ := of_total (insert_spec ih.1 ih.2 _ _) hres
    exact ⟨hvalid, hcap ▸ ih.2⟩
  | remove _ hres ih =>
    have ⟨hvalid, hcap, _⟩ := of_total (remove_spec ih.1 _) hres
    exact ⟨hvalid, hcap ▸ ih.2⟩
  | removeEntry _ hres ih =>
    have ⟨hvalid, hcap, _⟩ := of_total (removeEntry_spec ih.1 _) hres
    exact ⟨hvalid, hcap ▸ ih.2⟩
  | popFirst _ hres ih =>
    have ⟨hvalid, hcap, _⟩ := of_total (popFirst_spec ih.1) hres
    exact ⟨hvalid, hcap ▸ ih.2⟩
  | popLast _ hres ih =>
    have ⟨hvalid, hcap, _⟩ := of_total (popLast_spec ih.1) hres
    exact ⟨hvalid, hcap ▸ ih.2⟩
  | popIndex _ hi hres ih =>
    have ⟨hvalid, hcap, _⟩ := of_total (popIndex_spec ih.1 (ih.1.len_eq ▸ hi)) hres
    exact ⟨hvalid, hcap ▸ ih.2⟩
  | retain _ hres ih =>
    obtain ⟨m₁, heval, hvalid, hcap, -⟩ := retain_spec ih.1 _ _
    cases hres.symm.trans heval
    exact ⟨hvalid, hcap ▸ ih.2⟩
  | appendSelf _ _ hres ih ih' =>
    obtain ⟨m₁, m₂, heval, hvalid, -, hcap, -⟩ := append_spec ih.1 ih.2 ih'.1
    cases hres.symm.trans heval
    exact ⟨hvalid, hcap ▸ ih.2⟩
  | appendOther _ _ hres ih ih' =>
    obtain ⟨m₁, m₂, heval, -, hvalid, -, hcap, -⟩ := append_spec ih.1 ih.2 ih'.1
    cases hres.symm.trans heval
    exact ⟨hvalid, hcap ▸ ih'.2⟩
  | splitOffSelf _ hres ih =>
    obtain ⟨m₁, m₂, heval, hvalid, -, hcap, -⟩ := splitOff_spec ih.1 _
    cases hres.symm.trans heval
    exact ⟨hvalid, hcap ▸ ih.2⟩
  | splitOffLatter _ hres ih =>
    obtain ⟨m₁, m₂, heval, -, hvalid, -, hcap, -⟩ := splitOff_spec ih.1 _
    cases hres.symm.trans heval
    exact ⟨hvalid, hcap ▸ two_le_defaultInnerSize⟩
  | clear _ ih => exact ⟨BTreeSet.clear_valid _, ih.2⟩
  | getMut _ hres ih =>
    have ⟨hvalid, hcap, _⟩ := of_total (getMut_spec ih.1 _ _) hres
    exact ⟨hvalid, hcap ▸ ih.2⟩
  | write _ ih => exact ⟨BTreeSet.Valid.modifyAt ih.1 _ _ (fun p => rfl), ih.2⟩
  | entryOrInsert _ hentry hres ih =>
    obtain ⟨e, m₁, r, heval, hins, hvalid, hcap⟩ := entry_orInsert_spec ih.1 ih.2 _ _ _
    cases hentry.symm.trans heval
    cases hres.symm.trans hins
    exact ⟨hvalid, hcap ▸ ih.2⟩
  | entryGetMut _ hentry hres ih =>
    rcases entry_valid ih.1 _ with ⟨e, heval, he, rfl⟩ | ⟨heval, -⟩
    · cases hentry.symm.trans heval
      have ⟨hvalid, hcap, _⟩ := of_total (OccupiedEntry.getMut_spec he _) hres
      exact ⟨hvalid, hcap ▸ ih.2⟩
    · cases hentry.symm.trans heval
  | entryRemove _ hentry hres ih =>
    rcases entry_valid ih.1 _ with ⟨e, heval, he, rfl⟩ | ⟨heval, -⟩
    · cases hentry.symm.trans heval
      have ⟨hvalid, hcap, _⟩ := of_total (OccupiedEntry.removeEntry_spec he) hres
      exact ⟨hvalid, hcap ▸ ih.2⟩
    · cases hentry.symm.trans heval
  | firstEntryRemove _ hentry hres ih =>
    obtain ⟨he, rfl⟩ := firstEntry_valid ih.1 hentry
    have ⟨hvalid, hcap, _⟩ := of_total (OccupiedEntry.removeEntry_spec he) hres
    exact ⟨hvalid, hcap ▸ ih.2⟩
  | lastEntryRemove _ hentry hres ih =>
    obtain ⟨he, rfl⟩ := lastEntry_valid ih.1 hentry
    have ⟨hvalid, hcap, _⟩ := of_total (OccupiedEntry.removeEntry_spec he) hres
    exact ⟨hvalid, hcap ▸ ih.2⟩

/-- **Representation invariant**: whatever sequence of constructors and mutators produced a
set, or the set inside a map, it has a node, no empty node next to another, ascending
elements, the right length and the right Fenwick index. -/
theorem produced_valid {K' : Type} [LinearOrder K'] [Keyed T K] [Keyed Q K'] :
    (∀ s : BTreeSet T F, s.Produced → s.Valid) ∧
      ∀ m : BTreeMap Q V F, m.Produced → m.set.Valid :=
  ⟨fun _ h => h.usable.1, fun _ h => h.usable.1⟩

/-- Two insertions fill a node of capacity two and the third one splits it. -/
theorem produced_valid_split :
    (⟨[[1, 2], [3]], ⟨[2, 1]⟩, 2, 3⟩ : BTreeSet ℕ CountList).Valid ∧
      (⟨[[⟨1, 7⟩, ⟨2, 8⟩], [⟨3, 9⟩]], ⟨[2, 1]⟩, 2, 3⟩ :
        BTreeSet (Pair ℕ ℕ) CountList).Valid :=
  ⟨produced_valid (T := ℕ) (Q := ℕ) (V := ℕ).1 _
      (.insert (v := 2) (.insert (v := 1) (.insert (v := 3)
        (.withMaximumNodeSize 2 (by decide)) rfl) rfl) rfl),
    produced_valid (T := ℕ) (Q := ℕ) (V := ℕ).2 ⟨_⟩
      (.insert (k := 2) (v := 8) (.insert (k := 1) (v := 7) (.insert (k := 3) (v := 9)
        (.withMaximumNodeSize 2 (by decide)) rfl) rfl) rfl)⟩

/-! ## §3 Refinement -/

/-- Every operation on the set is total and is the reference operation on its elements. -/
structure BTreeSet.Refines [Keyed T K] (s : BTreeSet T F) : Prop where
  insert : ∀ v, ∃ s' r, s.insert v = some (s', r) ∧
    (r = true ↔ ∀ x ∈ s.toList, key x ≠ key v) ∧ s'.toList = add key v s.toList
  replace : ∀ v, ∃ s' r, s.replace v = some (s', r) ∧
    r = find key (key v) s.toList ∧ s'.toList = put key v s.toList
  remove : ∀ q, ∃ s' r, s.remove q = some (s', r) ∧
    (r = true ↔ ∃ x ∈ s.toList, key x = q) ∧ s'.toList = erase key q s.toList
  take : ∀ q, ∃ s' r, s.take q = some (s', r) ∧
    r = find key q s.toList ∧ s'.toList = erase key q s.toList
  contains : ∀ q, ∃ r, s.contains q = some r ∧ (r = true ↔ ∃ x ∈ s.toList, key x = q)
  first : s.first = s.toList.head?
  last : s.last = s.toList.getLast?
  popFirst : ∃ s', s.popFirst = some (s', s.toList.head?) ∧ s'.toList = s.toList.tail
  popLast : ∃ s', s.popLast = some (s', s.toList.getLast?) ∧ s'.toList = s.toList.dropLast
  popIndex : ∀ i, i < s.len → ∃ s' r, s.popIndex i = some (s', r) ∧
    s.toList[i]? = some r ∧ s'.toList = s.toList.eraseIdx i
  append : ∀ other : BTreeSet T F, other.Produced → ∃ s' other',
    s.append other = some (s', other') ∧
    s'.toList = union key s.toList other.toList ∧ other'.toList = []

theorem BTreeSet.Usable.refines [Keyed T K] {s : BTreeSet T F} (h : s.Usable) : s.Refines where
  insert v := by
    obtain ⟨s', heval, -, -, hlist⟩ := insert_spec h.1 h.2 v
    exact ⟨s', _, heval, by rw [Option.isNone_iff_eq_none, find_eq_none], hlist⟩
  replace v := by
    obtain ⟨s', heval, -, -, hlist⟩ := replace_spec h.1 h.2 v
    exact ⟨s', _, heval, rfl, hlist⟩
  remove q := by
    obtain ⟨s', heval, -, -, hlist⟩ := remove_spec h.1 q
    exact ⟨s', _, heval, find_isSome, hlist⟩
  take q := by
    obtain ⟨s', heval, -, -, hlist⟩ := take_spec h.1 q
    exact ⟨s', _, heval, rfl, hlist⟩
  contains q := ⟨_, contains_spec h.1 q, find_isSome⟩
  first := first_eq h.1
  last := last_eq h.1
  popFirst := by
    obtain ⟨s', heval, -, -, hlist⟩ := popFirst_spec h.1
    exact ⟨s', heval, hlist⟩
  popLast := by
    obtain ⟨s', heval, -, -, hlist⟩ := popLast_spec h.1
    exact ⟨s', heval, hlist⟩
  popIndex i hi := by
    have hlt : i < s.toList.length := h.1.len_eq ▸ hi
    obtain ⟨s', heval, -, -, hlist⟩ := popIndex_spec h.1 hlt
    exact ⟨s', _, heval, List.getElem?_eq_getElem hlt, hlist⟩
  append other hother := by
    obtain ⟨s₁, s₂, heval, -, -, -, -, hlist, hempty⟩ := append_spec h.1 h.2 hother.usable.1
    exact ⟨s₁, s₂, heval, hlist, hempty⟩

/-- **Refinement**: a produced set behaves as the strictly ascending list of its elements,
whatever the layout of its nodes. -/
theorem produced_refines [Keyed T K] (s : BTreeSet T F) (h : s.Produced) :
    Ascending key s.toList ∧ s.Refines :=
  ⟨h.usable.1.layout.ascending, h.usable.refines⟩

theorem produced_refines_split :
    (⟨[[1, 2], [3]], ⟨[2, 1]⟩, 2, 3⟩ : BTreeSet ℕ CountList).Refines :=
  (produced_refines _ (.insert (v := 2) (.insert (v := 1) (.insert (v := 3)
    (.withMaximumNodeSize 2 (by decide)) rfl) rfl) rfl)).2

end IndexSet
