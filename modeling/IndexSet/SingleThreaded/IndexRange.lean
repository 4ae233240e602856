import IndexSet.SingleThreaded.Positions
import IndexSet.SingleThreaded.Range

/-!
# Ranges of Positions

`lib.rs`: `range_idx` of the set and of the map takes bounds on positions instead of bounds on
values.

- `RangeMap`, `BTreeMap.rangeIdx`: the code that is not that of the set;
- `frontPosition`, `endPosition`: the positions `s` and `e` that a way of writing `s..e` means;
- `rangeIdx_spans`: the iterator encloses the elements at these positions;
- `rangeIdx_exact_iff`: the ways of writing a range for which this is so.

An excluded end is turned into an included one by a subtraction, which `..0` makes go below
zero; the missing end next to it is turned into one by a subtraction that saturates.
-/

namespace IndexSet

open KeyedList DoubleEnded

variable {T Q V F K : Type}

/-! ## §1 The code -/

/-- `struct RangeMap`. -/
structure RangeMap (Q V F : Type) where
  inner : Iter (Pair Q V) F

/-- `RangeMap::next` and `RangeMap::next_back`. -/
def RangeMap.pull (it : RangeMap Q V F) (e : End) : Option (RangeMap Q V F × Option (Q × V)) := do
  match ← it.inner.pull e with
  | (inner, some entry) => return (⟨inner⟩, some (entry.key, entry.value))
  | (inner, none) => return (⟨inner⟩, none)

/-- `BTreeMap::range_idx`. -/
def BTreeMap.rangeIdx [FenwickTree F] (m : BTreeMap Q V F) (start stop : Bound ℕ) :
    Option (RangeMap Q V F) :=
  (m.set.rangeIdx start stop).map RangeMap.mk

/-! ## §2 Ways of writing a range -/

/-- The first position of a range. -/
def frontPosition : Bound ℕ → ℕ
  | .included bound => bound
  | .excluded bound => bound + 1
  | .unbounded => 0

/-- The position behind a range over so many elements. -/
def endPosition (len : ℕ) : Bound ℕ → ℕ
  | .included bound => bound + 1
  | .excluded bound => bound
  | .unbounded => len

/-- The elements at the positions of a range. -/
def positioned {α : Type*} (l : List α) (start stop : Bound ℕ) : List α :=
  (l.take (endPosition l.length stop)).drop (frontPosition start)

theorem positioned_map {α β : Type*} (f : α → β) (l : List α) (start stop : Bound ℕ) :
    positioned (l.map f) start stop = (positioned l start stop).map f := by
  rw [positioned, positioned, List.length_map, List.map_drop, List.map_take]

/-! ## §3 What the iterator encloses -/

section Spans

variable [LinearOrder K] [Keyed T K] [LawfulFenwickTree F] {s : BTreeSet T F}
  {start stop : Bound ℕ}

/-- Only an end that excludes position zero makes the subtraction go below zero. -/
theorem rangeIdx_underflow (start : Bound ℕ) : s.rangeIdx start (.excluded 0) = none := rfl

/-- Any other end is an included one. -/
theorem rangeIdx_eq_included (hs : s.Valid) (hstop : stop ≠ .excluded 0) :
    s.rangeIdx start stop =
      s.rangeIdx (.included (frontPosition start))
        (.included (endPosition s.toList.length stop - 1)) := by
  cases stop with
  | included bound => cases start <;> rfl
  | excluded bound =>
    cases bound with
    | zero => exact absurd rfl hstop
    | succ bound => cases start <;> rfl
  | unbounded =>
    have hsum : FenwickTree.prefixSum s.index s.inner.length 0 = s.toList.length := by
      rw [BTreeSet.prefixSum_eq_length hs, List.take_length]
      rfl
    cases start <;>
      (simp only [BTreeSet.rangeIdx, BTreeSet.resolveRange, hsum]
       rfl)

/-- Unless a set without elements is meant, the last position is one before the end. -/
theorem endPosition_pos (hstop : stop ≠ .excluded 0) (len : ℕ) :
    0 < endPosition len stop ∨ len = 0 ∧ endPosition len stop = 0 := by
  cases stop with
  | included bound => exact Or.inl (Nat.succ_pos bound)
  | excluded bound =>
    have hne : bound ≠ 0 := fun hzero => hstop (by rw [hzero])
    exact Or.inl (Nat.pos_of_ne_zero hne)
  | unbounded =>
    rcases Nat.eq_zero_or_pos len with hlen | hlen
    · exact Or.inr ⟨hlen, hlen⟩
    · exact Or.inl hlen

/-- **The ends of a range between positions** enclose the elements at these positions. -/
theorem rangeIdx_spans (hs : s.Valid) (hstop : stop ≠ .excluded 0)
    (hle : frontPosition start ≤ endPosition s.toList.length stop)
    (hlen : endPosition s.toList.length stop ≤ s.toList.length) :
    ∃ it, s.rangeIdx start stop = some it ∧ it.Spans (positioned s.toList start stop) := by
  obtain ⟨it, hit, hahead, hbehind, hfront, hback, hnode⟩ :=
    BTreeSet.rangeIdx_spec hs (frontPosition start) (endPosition s.toList.length stop - 1)
  refine ⟨it, (rangeIdx_eq_included hs hstop).trans hit, ?_⟩
  rcases endPosition_pos hstop s.toList.length with hpos | ⟨hzero, hend⟩
  · rw [Nat.sub_add_cancel hpos] at hbehind hback
    have hcut : s.toList.drop (frontPosition start) =
        positioned s.toList start stop ++ s.toList.drop (endPosition s.toList.length stop) := by
      conv_lhs => rw [← List.take_append_drop (endPosition s.toList.length stop) s.toList]
      apply List.drop_append_of_le_length
      rw [List.length_take]
      omega
    have hcut' : s.toList.take (endPosition s.toList.length stop) =
        (s.toList.take (endPosition s.toList.length stop)).take (frontPosition start) ++
          positioned s.toList start stop := (List.take_append_drop _ _).symm
    refine ⟨⟨_, hahead.trans hcut⟩, ⟨_, hbehind.trans hcut'⟩, Or.inl ?_, hnode⟩
    rw [hfront, hback, positioned, List.length_drop, List.length_take]
    omega
  · -- nothing to enclose
    have hnil : s.toList = [] := List.length_eq_zero_iff.mp hzero
    rw [hnil, List.drop_nil] at hahead
    rw [hnil, List.take_nil] at hbehind
    have hempty : positioned s.toList start stop = [] := by
      rw [positioned, hnil, List.take_nil, List.drop_nil]
    rw [hempty]
    exact ⟨⟨[], hahead⟩, ⟨[], hbehind⟩, Or.inr ⟨hahead, hbehind⟩, hnode⟩

end Spans

/-- An item of the range of a map is made of one of the range inside it. -/
theorem RangeMap.pull_mk (inner : Iter (Pair Q V) F) (e : End) :
    RangeMap.pull ⟨inner⟩ e =
      (inner.pull e).map fun r => (⟨r.1⟩, r.2.map fun p => (p.key, p.value)) := by
  rw [RangeMap.pull]
  rcases inner.pull e with _ | ⟨inner', _ | p⟩ <;> rfl

/-! ## §4 All calls -/

/-- **`range_idx`** of a set or a map with a range inside it: under every sequence of calls it
visits the elements at these positions exactly once, if and only if its end is not written as
the excluded position zero. -/
theorem rangeIdx_exact_iff {K' : Type} [LinearOrder K] [LinearOrder K'] [Keyed T K] [Keyed Q K']
    [LawfulFenwickTree F] (start stop : Bound ℕ) :
    (∀ s : BTreeSet T F, s.Valid → frontPosition start ≤ endPosition s.len stop →
      endPosition s.len stop ≤ s.len →
      ((∃ it, s.rangeIdx start stop = some it ∧
          Yields Iter.pull it (positioned s.toList start stop)) ↔ stop ≠ .excluded 0)) ∧
      ∀ m : BTreeMap Q V F, m.Valid → frontPosition start ≤ endPosition m.set.len stop →
        endPosition m.set.len stop ≤ m.set.len →
        ((∃ it, m.rangeIdx start stop = some it ∧
            Yields RangeMap.pull it
              (positioned (m.toList.map fun p => (p.key, p.value)) start stop)) ↔
          stop ≠ .excluded 0) := by
  constructor
  · intro s hs hle hlen
    rw [hs.len_eq] at hle hlen
    constructor
    · rintro ⟨it, hit, -⟩ rfl
      rw [rangeIdx_underflow] at hit
      cases hit
    · intro hstop
      obtain ⟨it, hit, hspans⟩ := rangeIdx_spans hs hstop hle hlen
      exact ⟨it, hit, yields_of (fun it l e h => h.pull_item e) hspans⟩
  · intro m hm hle hlen
    rw [hm.len_eq] at hle hlen
    constructor
    · rintro ⟨it, hit, -⟩ rfl
      rw [BTreeMap.rangeIdx, rangeIdx_underflow] at hit
      cases hit
    · intro hstop
      obtain ⟨it, hit, hspans⟩ := rangeIdx_spans hm hstop hle hlen
      refine ⟨⟨it⟩, by rw [BTreeMap.rangeIdx, hit]; rfl, ?_⟩
      rw [positioned_map]
      have hyields := yields_of (fun it l e h => h.pull_item e) hspans
      exact hyields.wrapped RangeMap.mk (fun p => (p.key, p.value)) RangeMap.pull_mk

/-- `(Excluded(0), Included(2))` of three elements, and `1..` of two entries. -/
theorem rangeIdx_exact_iff_elements :
    (∃ it, threeElements.rangeIdx (.excluded 0) (.included 2) = some it ∧
        Yields Iter.pull it [3, 5]) ∧
      ∃ it, twoEntries.rangeIdx (.included 1) .unbounded = some it ∧
        Yields RangeMap.pull it [(4, 8)] :=
  ⟨((rangeIdx_exact_iff (T := ℕ) (Q := ℕ) (V := ℕ) (F := CountList)
      (.excluded 0) (.included 2)).1 threeElements threeElements_produced.usable.1
        (by decide) (by decide)).mpr (by decide),
    ((rangeIdx_exact_iff (T := ℕ) (Q := ℕ) (V := ℕ) (F := CountList)
      (.included 1) .unbounded).2 twoEntries (BTreeMap.Produced.usable twoEntries_produced).1
        (by decide) (by decide)).mpr (by decide)⟩

/-- `0..0` panics, with elements and without. -/
theorem rangeIdx_empty_panics :
    threeElements.Produced ∧
      frontPosition (.included 0) ≤ endPosition threeElements.len (.excluded 0) ∧
      endPosition threeElements.len (.excluded 0) ≤ threeElements.len ∧
      (¬ ∃ it, threeElements.rangeIdx (.included 0) (.excluded 0) = some it ∧
        Yields Iter.pull it (positioned threeElements.toList (.included 0) (.excluded 0))) ∧
      (⟨[[]], ⟨[0]⟩, 2, 0⟩ : BTreeSet ℕ CountList).rangeIdx (.included 0) (.excluded 0) = none := by
  refine ⟨threeElements_produced, by decide, by decide, ?_, rfl⟩
  rintro ⟨it, hit, -⟩
  rw [rangeIdx_underflow] at hit
  cases hit

end IndexSet
