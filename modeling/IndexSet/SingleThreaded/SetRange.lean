import IndexSet.SingleThreaded.Positions
import IndexSet.SingleThreaded.Range

/-!
# Ranges of the `BTreeSet`

`lib.rs`: `BTreeSet::range` computes its positions from `rank`, with an arithmetic of its own.

- `startIdx`, `endIdx`, `range`: the code;
- `startIdx_spec`, `endIdx_spec`: the positions, each right or too far by one;
- `setRange_exactlyOnce_iff`: the ranges that are visited exactly once.

An excluded start is taken to be the position behind the first element that is not below it, and
an included end the position of that element, present or not. A position before the first
element is not expressible: such an end is taken to be the first element.
-/

namespace IndexSet

open KeyedList DoubleEnded

variable {T F K : Type} [LinearOrder K] [Keyed T K]

/-! ## §1 The code -/

namespace BTreeSet

section Code

variable [FenwickTree F]

/-- `start_idx` of `BTreeSet::range`. -/
def startIdx (s : BTreeSet T F) : Bound K → Option ℕ
  | .included bound => s.rank bound
  | .excluded bound => (s.rank bound).map (· + 1)
  | .unbounded => some 0

/-- `end_idx` of `BTreeSet::range`; the subtraction saturates. -/
def endIdx (s : BTreeSet T F) : Bound K → Option ℕ
  | .included bound => s.rank bound
  | .excluded bound => (s.rank bound).map (· - 1)
  | .unbounded => some (s.len - 1)

/-- `BTreeSet::range`. -/
def range (s : BTreeSet T F) (start stop : Bound K) : Option (Iter T F) := do
  let startIdx ← s.startIdx start
  let endIdx ← s.endIdx stop
  s.rangeIdx (.included startIdx) (.included endIdx)

end Code

/-! ## §2 Positions -/

/-- The start bound is an excluded value that the set does not hold. -/
def SkipsStart (s : BTreeSet T F) (start : Bound K) : Prop :=
  ∃ bound, start = .excluded bound ∧ find key bound s.toList = none

/-- The end bound is an included value that the set does not hold, or it excludes all elements. -/
def MissesStop (s : BTreeSet T F) : Bound K → Prop
  | .included bound => find key bound s.toList = none
  | .excluded bound => ∀ x ∈ s.toList, bound ≤ key x
  | .unbounded => s.toList = []

/-- The elements in a range. -/
def elementsIn (s : BTreeSet T F) (start stop : Bound K) : List T :=
  s.toList.filter fun x => InRange start stop (key x)

variable [LawfulFenwickTree F] {s : BTreeSet T F}

/-- The start position counts the elements before the start, and one more if it skips one. -/
theorem startIdx_spec (hs : s.Valid) (start : Bound K) {skips : Bool}
    (hskips : skips = true ↔ s.SkipsStart start) :
    s.startIdx start =
      some ((s.toList.filter fun x => ¬ start.Starts (key x)).length + skips.toNat) := by
  have hasc : Ascending key s.toList := hs.layout.ascending
  cases start with
  | included bound =>
    obtain rfl : skips = false := by
      rw [Bool.eq_false_iff, Ne, hskips]
      rintro ⟨_, hbound, -⟩
      cases hbound
    simp [startIdx, rank_spec hs, Bound.Starts]
  | excluded bound =>
    have hlen : (s.toList.filter fun x => ¬ (Bound.excluded bound).Starts (key x)).length =
        (s.toList.filter fun x => key x ≤ bound).length := by simp [Bound.Starts]
    rw [startIdx, rank_spec hs, hlen, Option.map_some]
    cases hfind : find key bound s.toList with
    | some x =>
      -- the excluded element has this rank, and the next one is the first behind it
      obtain rfl : skips = false := by
        rw [Bool.eq_false_iff, Ne, hskips]
        rintro ⟨_, hbound, hnone⟩
        cases hbound
        simp [hfind] at hnone
      rw [length_filter_le hasc hfind]
      rfl
    | none =>
      obtain rfl : skips = true := hskips.mpr ⟨bound, rfl, hfind⟩
      -- the element of this rank already lies behind the start, and the code skips it
      rw [filter_le_eq hfind]
      rfl
  | unbounded =>
    obtain rfl : skips = false := by
      rw [Bool.eq_false_iff, Ne, hskips]
      rintro ⟨_, hbound, -⟩
      cases hbound
    simp [startIdx, Bound.Starts]

/-- The end position is that of the last element before the end, or one more if it misses it. -/
theorem endIdx_spec (hs : s.Valid) (stop : Bound K) {misses : Bool}
    (hmisses : misses = true ↔ s.MissesStop stop) :
    ∃ e, s.endIdx stop = some e ∧
      e + 1 = (s.toList.filter fun x => stop.Ends (key x)).length + misses.toNat := by
  have hasc : Ascending key s.toList := hs.layout.ascending
  cases stop with
  | included bound =>
    refine ⟨_, rank_spec hs bound, ?_⟩
    have hlen : (s.toList.filter fun x => (Bound.included bound).Ends (key x)).length =
        (s.toList.filter fun x => key x ≤ bound).length := rfl
    rw [hlen]
    cases hfind : find key bound s.toList with
    | some x =>
      obtain rfl : misses = false := by
        rw [Bool.eq_false_iff, Ne, hmisses, MissesStop, hfind]
        exact Option.some_ne_none x
      rw [length_filter_le hasc hfind]
      rfl
    | none =>
      obtain rfl : misses = true := hmisses.mpr hfind
      rw [filter_le_eq hfind]
      rfl
  | excluded bound =>
    refine ⟨_, by rw [endIdx, rank_spec hs, Option.map_some], ?_⟩
    have hlen : (s.toList.filter fun x => (Bound.excluded bound).Ends (key x)).length =
        (s.toList.filter fun x => key x < bound).length := rfl
    have hzero : (s.toList.filter fun x => key x < bound).length = 0 ↔
        s.MissesStop (.excluded bound) := by
      simp [MissesStop, List.filter_eq_nil_iff]
    rw [hlen]
    cases misses with
    | true => rw [hzero.mpr (hmisses.mp rfl)]; rfl
    | false =>
      have hpos := mt hzero.mp (mt hmisses.mpr Bool.false_ne_true)
      exact Nat.sub_add_cancel (Nat.pos_of_ne_zero hpos)
  | unbounded =>
    refine ⟨_, rfl, ?_⟩
    have hlen : (s.toList.filter fun x => (Bound.unbounded : Bound K).Ends (key x)).length =
        s.len := by
      have hall : s.toList.filter (fun x => (Bound.unbounded : Bound K).Ends (key x)) = s.toList :=
        List.filter_eq_self.mpr fun _ _ => decide_eq_true trivial
      rw [hall, hs.len_eq]
    have hzero : s.len = 0 ↔ s.MissesStop (.unbounded : Bound K) := by
      rw [hs.len_eq]
      exact List.length_eq_zero_iff
    rw [hlen]
    cases misses with
    | true => rw [hzero.mpr (hmisses.mp rfl)]; rfl
    | false =>
      have hpos := mt hzero.mp (mt hmisses.mpr Bool.false_ne_true)
      exact Nat.sub_add_cancel (Nat.pos_of_ne_zero hpos)

end BTreeSet

/-! ## §3 All calls -/

/-- **`range`** of a set: under every sequence of calls a proper range yields its elements
exactly once if and only if the set is empty, or its start does not skip an element and its end
does not miss one, or both do and there is nothing in the range. -/
theorem setRange_exactlyOnce_iff [LawfulFenwickTree F] (s : BTreeSet T F) (h : s.Valid)
    (start stop : Bound K) (hproper : Proper start stop) :
    (∃ it, s.range start stop = some it ∧ Yields Iter.pull it (s.elementsIn start stop)) ↔
      s.toList = [] ∨ (s.SkipsStart start ↔ s.MissesStop stop) ∧
        (s.SkipsStart start → s.elementsIn start stop = []) := by
  classical
  have hasc : Ascending key s.toList := h.layout.ascending
  obtain ⟨before, inside, after, hlist, hbefore, hinside, hafter⟩ := hasc.cut_range start stop
  obtain ⟨hin, hstart, hend⟩ := filter_cut_range hproper hbefore hinside hafter
  rw [← hlist] at hin hstart hend
  obtain ⟨skips, hskips⟩ : ∃ b : Bool, b = true ↔ s.SkipsStart start :=
    ⟨decide (s.SkipsStart start), decide_eq_true_iff⟩
  obtain ⟨misses, hmisses⟩ : ∃ b : Bool, b = true ↔ s.MissesStop stop :=
    ⟨decide (s.MissesStop stop), decide_eq_true_iff⟩
  have hi := BTreeSet.startIdx_spec h start hskips
  obtain ⟨e, heval, he⟩ := BTreeSet.endIdx_spec h stop hmisses
  rw [hstart] at hi
  rw [hend] at he
  have hrange : s.range start stop =
      s.rangeIdx (.included (before.length + skips.toNat)) (.included e) := by
    rw [BTreeSet.range, hi, heval]
    rfl
  rw [hrange, BTreeSet.elementsIn, hin, BTreeSet.rangeIdx_yields_iff h hlist rfl he,
    Bool.eq_iff_iff, hskips, hmisses]

/-- Between two stored values, and in a gap. -/
theorem setRange_exactlyOnce_iff_threeElements :
    (∃ it, threeElements.range (.excluded 1) (.included 5) = some it ∧
        Yields Iter.pull it (threeElements.elementsIn (.excluded 1) (.included 5))) ∧
      ∃ it, threeElements.range (.excluded 2) (.included 2) = some it ∧
        Yields Iter.pull it (threeElements.elementsIn (.excluded 2) (.included 2)) := by
  have hvalid : threeElements.Valid := threeElements_produced.usable.1
  have hstored : ¬ threeElements.SkipsStart (.excluded 1) := by
    rintro ⟨_, hbound, hnone⟩
    cases hbound
    exact absurd hnone (by decide)
  have hstored' : ¬ threeElements.MissesStop (.included 5) := fun hnone =>
    absurd (show find key 5 threeElements.toList = none from hnone) (by decide)
  have habsent : threeElements.SkipsStart (.excluded 2) := ⟨2, rfl, by decide⟩
  have habsent' : threeElements.MissesStop (.included 2) :=
    show find key 2 threeElements.toList = none by decide
  exact ⟨(setRange_exactlyOnce_iff threeElements hvalid (.excluded 1) (.included 5)
      (show 1 ≤ 5 by decide)).mpr
        (Or.inr ⟨iff_of_false hstored hstored', fun hskip => absurd hskip hstored⟩),
    (setRange_exactlyOnce_iff threeElements hvalid (.excluded 2) (.included 2)
      (show 2 ≤ 2 by decide)).mpr
        (Or.inr ⟨iff_of_true habsent habsent', fun _ => by decide⟩)⟩

/-- `(Excluded(2), Unbounded)` skips `3`, `..=2` reaches `3`, and `..1` reaches `1`. -/
theorem setRange_misplaced :
    threeElements.Produced ∧
      ((threeElements.range (.excluded 2) .unbounded).bind fun it =>
        outputs Iter.pull it [.front, .front]) = some [some 5, none] ∧
      ((threeElements.range .unbounded (.included 2)).bind fun it =>
        outputs Iter.pull it [.front, .front]) = some [some 1, some 3] ∧
      ((threeElements.range .unbounded (.excluded 1)).bind fun it =>
        outputs Iter.pull it [.front]) = some [some 1] ∧
      ¬ ∃ it, threeElements.range (.excluded 2) .unbounded = some it ∧
        Yields Iter.pull it (threeElements.elementsIn (.excluded 2) .unbounded) := by
  have hskip : ((threeElements.range (.excluded 2) .unbounded).bind fun it =>
      outputs Iter.pull it [.front, .front]) = some [some 5, none] := by decide +kernel
  refine ⟨threeElements_produced, hskip, by decide +kernel, by decide +kernel, ?_⟩
  rintro ⟨it, hit, hyields⟩
  rw [hit, Option.bind_some, yields_iff.mp hyields] at hskip
  exact absurd hskip (by decide +kernel)

end IndexSet
