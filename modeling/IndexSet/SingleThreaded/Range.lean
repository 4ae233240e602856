import IndexSet.Lib.KeyRange
import IndexSet.SingleThreaded.FiniteMap
import IndexSet.SingleThreaded.Iter

/-!
# Ranges of the `BTreeMap`

`lib.rs`: `BTreeMap::range` turns key bounds into an inclusive pair of positions and walks
the nodes from both of them.

- `resolveRange`, `rangeIdx`, `rangeToIdx`: the code;
- `rangeToIdx_spec`: the positions, as lengths of what is before the range and in it;
- `rangeIdx_yields_iff`: the pairs of positions from which a range is visited exactly once;
- `range_exactlyOnce_iff`: the ranges that are visited exactly once.

An included end is taken to be the position of the first key that is not below it, present
or not.
-/

namespace IndexSet

open KeyedList DoubleEnded

variable {Q V F K T : Type}

/-! ## §1 The code -/

/-- `&l[i..]`; `none` is the panic of an index past the end. -/
def sliceFrom (l : List T) (i : ℕ) : Option (List T) :=
  if i ≤ l.length then some (l.drop i) else none

/-- `&l[..=i]`. -/
def sliceTo (l : List T) (i : ℕ) : Option (List T) :=
  if i < l.length then some (l.take (i + 1)) else none

section Code

variable [FenwickTree F]

namespace BTreeSet

/-- `BTreeSet::resolve_range`: position, node and position within the node of both ends. -/
def resolveRange (s : BTreeSet T F) (start stop : Bound ℕ) :
    Option ((ℕ × ℕ × ℕ) × (ℕ × ℕ × ℕ)) := do
  let globalFrontIdx := match start with
    | .included bound => bound
    | .excluded bound => bound + 1
    | .unbounded => 0
  let globalBackIdx ← match stop with
    | .included bound => some bound
    | .excluded bound => checkedSub bound 1
    | .unbounded => some (FenwickTree.prefixSum s.index s.inner.length 0 - 1)
  let (frontNodeIdx, frontStartIdx) ← s.locateIth globalFrontIdx
  let (backNodeIdx, backStartIdx) ← s.locateIth globalBackIdx
  return ((globalFrontIdx, frontNodeIdx, frontStartIdx),
    (globalBackIdx, backNodeIdx, backStartIdx))

/-- The slice of a front end: `None` behind the last node. -/
def frontSlice (s : BTreeSet T F) (nodeIdx startIdx : ℕ) : Option (Option (List T)) :=
  match s.inner[nodeIdx]? with
  | some node => (sliceFrom node startIdx).map some
  | none => some none

/-- The slice of a back end. -/
def backSlice (s : BTreeSet T F) (nodeIdx startIdx : ℕ) : Option (Option (List T)) :=
  match s.inner[nodeIdx]? with
  | some node => (sliceTo node startIdx).map some
  | none => some none

/-- `BTreeSet::range_idx`. -/
def rangeIdx (s : BTreeSet T F) (start stop : Bound ℕ) : Option (Iter T F) := do
  let ((globalFrontIdx, frontNodeIdx, frontStartIdx),
    (globalBackIdx, backNodeIdx, backStartIdx)) ← s.resolveRange start stop
  let frontIter ← s.frontSlice frontNodeIdx frontStartIdx
  let backIter ← s.backSlice backNodeIdx backStartIdx
  return {
    btree := s
    currentFrontNodeIdx := frontNodeIdx
    currentFrontIdx := globalFrontIdx
    currentBackNodeIdx := backNodeIdx
    currentBackIdx := globalBackIdx + 1
    currentFrontIterator := frontIter
    currentBackIterator := backIter }

end BTreeSet

variable [LinearOrder K] [Keyed Q K]

namespace BTreeMap

/-- `start_idx` of `BTreeMap::range_to_idx`. -/
def startIdx (m : BTreeMap Q V F) : Bound K → Option ℕ
  | .included bound => m.set.rankCmp fun item => key item.key < bound
  | .excluded bound => m.set.rankCmp fun item => key item.key ≤ bound
  | .unbounded => some 0

/-- `BTreeMap::range_to_idx`. -/
def rangeToIdx (m : BTreeMap Q V F) (start stop : Bound K) : Option (ℕ × ℕ) := do
  let startIdx ← m.startIdx start
  match stop with
  | .included bound => do
    let endIdx ← m.set.rankCmp fun item => key item.key < bound
    return (startIdx, endIdx)
  | .excluded bound => do
    let rank ← m.set.rankCmp fun item => key item.key < bound
    -- no elements before this bound
    if rank = 0 then return (1, 0)
    else return (startIdx, rank - 1)
  | .unbounded =>
    if m.set.len = 0 then return (1, 0)
    else return (startIdx, m.set.len - 1)

/-- `BTreeMap::range`. -/
def range (m : BTreeMap Q V F) (start stop : Bound K) : Option (Iter (Pair Q V) F) := do
  let (startIdx, endIdx) ← m.rangeToIdx start stop
  m.set.rangeIdx (.included startIdx) (.included endIdx)

end BTreeMap

end Code

/-! ## §2 A back position that is one too far -/

namespace Iter

variable {it : Iter T F}

/-- An iterator whose back position is one too far. -/
structure Overshoots (it : Iter T F) (l : List T) : Prop where
  ahead : it.ahead = l
  behind : ∃ pre, it.behind = pre ++ l
  behind_ne_nil : it.behind ≠ []
  position : it.currentFrontIdx + l.length + 1 = it.currentBackIdx
  nodeIdx_le : it.currentBackNodeIdx ≤ it.btree.inner.length

/-- Its front end is right … -/
theorem Overshoots.pull_front {x : T} {l : List T} (h : it.Overshoots (x :: l)) :
    ∃ it', it.pull .front = some (it', some x) ∧ it'.Overshoots l := by
  have hposition := h.position
  obtain ⟨it', hpull, hmoved⟩ := nextLoop_spec it.btree.inner.length
    (show it.currentFrontIdx ≠ it.currentBackIdx by omega) (Nat.le_add_right _ _)
  obtain ⟨pre, hbehind⟩ := h.behind
  have hidx := hmoved.frontIdx
  rw [h.ahead, List.tail_cons, List.length_cons] at hidx
  rw [List.length_cons] at hposition
  refine ⟨it', by rw [pull, hpull, h.ahead]; rfl, by rw [hmoved.ahead, h.ahead]; rfl,
    ⟨pre ++ [x], by rw [hmoved.behind, hbehind]; simp⟩, hmoved.behind ▸ h.behind_ne_nil, ?_,
    by rw [hmoved.backNodeIdx, hmoved.btree]; exact h.nodeIdx_le⟩
  rw [hmoved.backIdx, ← hposition]
  omega

/-- … but when nothing is left its back end goes on. -/
theorem Overshoots.pull_back (h : it.Overshoots []) (it' : Iter T F) :
    it.pull .back ≠ some (it', none) := by
  have hposition := h.position
  obtain ⟨it'', hpull, -⟩ := nextBackLoop_spec
    (show it.currentFrontIdx ≠ it.currentBackIdx by omega) le_rfl h.nodeIdx_le
    (fun _ => show 0 < it.currentBackIdx by omega)
  rw [pull, hpull, Ne, Option.some.injEq, Prod.mk.injEq]
  exact fun heq => h.behind_ne_nil (List.getLast?_eq_none_iff.mp heq.2)

end Iter

/-! ## §3 Positions -/

variable [LinearOrder K]

namespace BTreeSet

variable [Keyed T K] [LawfulFenwickTree F]

/-- The front end of a range has what follows its position ahead. -/
theorem frontSlice_spec {s : BTreeSet T F} (hs : s.Valid) (i : ℕ) :
    ∃ n j iter, s.locateIth i = some (n, j) ∧ s.frontSlice n j = some iter ∧
      iter.getD [] ++ (s.inner.drop (n + 1)).flatten = s.toList.drop i := by
  by_cases hi : i < s.toList.length
  · obtain ⟨pre, a, x, b, post, hinner, hloc, rfl⟩ := locateIth_spec hs hi
    refine ⟨pre.length, a.length, some (x :: b), hloc, ?_, ?_⟩
    · simp [frontSlice, hinner, sliceFrom]
    · have hcut : s.toList = (pre.flatten ++ a) ++ (x :: b ++ post.flatten) := by
        simp [toList, hinner]
      rw [hcut, List.drop_left' rfl, hinner]
      simp
  · obtain ⟨j, hloc⟩ := locateIth_end hs (not_lt.mp hi)
    refine ⟨s.inner.length, j, none, hloc, by simp [frontSlice], ?_⟩
    rw [List.drop_eq_nil_of_le (Nat.le_succ _), List.drop_eq_nil_of_le (not_lt.mp hi)]
    rfl

/-- The back end of a range has everything up to its position behind. -/
theorem backSlice_spec {s : BTreeSet T F} (hs : s.Valid) (i : ℕ) :
    ∃ n j iter, s.locateIth i = some (n, j) ∧ s.backSlice n j = some iter ∧
      (s.inner.take n).flatten ++ iter.getD [] = s.toList.take (i + 1) ∧ n ≤ s.inner.length := by
  by_cases hi : i < s.toList.length
  · obtain ⟨pre, a, x, b, post, hinner, hloc, rfl⟩ := locateIth_spec hs hi
    refine ⟨pre.length, a.length, some (a ++ [x]), hloc, ?_, ?_, by simp [hinner]⟩
    · simp [backSlice, hinner, sliceTo, List.take_append]
    · have hcut : s.toList = (pre.flatten ++ a ++ [x]) ++ (b ++ post.flatten) := by
        simp [toList, hinner]
      rw [hcut, List.take_left' (by simp; omega), hinner]
      simp
  · obtain ⟨j, hloc⟩ := locateIth_end hs (not_lt.mp hi)
    refine ⟨s.inner.length, j, none, hloc, by simp [backSlice], ?_, le_rfl⟩
    rw [List.take_length, List.take_of_length_le (by omega)]
    exact List.append_nil _

/-- **`range_idx`** between two included positions. -/
theorem rangeIdx_spec {s : BTreeSet T F} (hs : s.Valid) (i e : ℕ) :
    ∃ it, s.rangeIdx (.included i) (.included e) = some it ∧ it.ahead = s.toList.drop i ∧
      it.behind = s.toList.take (e + 1) ∧ it.currentFrontIdx = i ∧ it.currentBackIdx = e + 1 ∧
      it.currentBackNodeIdx ≤ it.btree.inner.length := by
  obtain ⟨fn, fs, front, hlocf, hfront, hahead⟩ := frontSlice_spec hs i
  obtain ⟨bn, bs, back, hlocb, hback, hbehind, hle⟩ := backSlice_spec hs e
  refine ⟨{
    btree := s
    currentFrontNodeIdx := fn
    currentFrontIdx := i
    currentBackNodeIdx := bn
    currentBackIdx := e + 1
    currentFrontIterator := front
    currentBackIterator := back }, ?_, hahead, hbehind, rfl, rfl, hle⟩
  simp only [rangeIdx, resolveRange, hlocf, hlocb, Option.bind_eq_bind, Option.bind_some,
    Option.pure_def, hfront, hback]

section Positions

variable {s : BTreeSet T F} {before inside after : List T} {skips misses : Bool} {i e : ℕ}
  (hs : s.Valid) (hlist : s.toList = before ++ inside ++ after)
  (hi : i = before.length + skips.toNat) (he : e + 1 = (before ++ inside).length + misses.toNat)

include hs hlist hi he

/-- Positions that are right, or too far by one at both ends of an empty range. -/
theorem rangeIdx_yields
    (hgood : s.toList = [] ∨ skips = misses ∧ (skips = true → inside = [])) :
    ∃ it, s.rangeIdx (.included i) (.included e) = some it ∧ Yields Iter.pull it inside := by
  obtain ⟨it, hit, hahead, hbehind, hfront, hback, hnode⟩ := rangeIdx_spec hs i e
  refine ⟨it, hit, yields_of (fun it l e h => h.pull_item e) (?_ : it.Spans inside)⟩
  rcases hgood with hnil | ⟨rfl, hempty⟩
  · rw [hnil, List.drop_nil] at hahead
    rw [hnil, List.take_nil] at hbehind
    rw [hnil] at hlist
    obtain ⟨hinside, -⟩ := List.append_eq_nil_iff.mp hlist.symm
    obtain rfl := (List.append_eq_nil_iff.mp hinside).2
    exact ⟨⟨[], hahead⟩, ⟨[], hbehind⟩, Or.inr ⟨hahead, hbehind⟩, hnode⟩
  · cases skips with
    | true =>
      -- the positions meet
      obtain rfl := hempty rfl
      refine ⟨⟨it.ahead, rfl⟩, ⟨it.behind, (List.append_nil _).symm⟩, Or.inl ?_, hnode⟩
      rw [hfront, hback, hi, he, List.append_nil]
      rfl
    | false =>
      simp only [Bool.toNat_false, Nat.add_zero] at hi he
      refine ⟨⟨after, ?_⟩, ⟨before, ?_⟩, Or.inl ?_, hnode⟩
      · rw [hahead, hlist, hi, List.append_assoc, List.drop_left' rfl]
      · rw [hbehind, hlist, he, List.take_left' rfl]
      · rw [hfront, hback, hi, he, List.length_append]

/-- A front position that is too far loses the first element. -/
theorem not_yields_of_skip (hskip : skips = true) (hne : inside ≠ []) {it : Iter T F}
    (hit : s.rangeIdx (.included i) (.included e) = some it) : ¬ Yields Iter.pull it inside := by
  obtain ⟨it', hit', hahead, -, -, -, -⟩ := rangeIdx_spec hs i e
  obtain rfl : it = it' := Option.some.inj (hit.symm.trans hit')
  intro hyields
  obtain ⟨x, rest, rfl⟩ := List.exists_cons_of_ne_nil hne
  obtain ⟨it', hpull, -⟩ := hyields.item .front
  by_cases hmet : it.currentFrontIdx = it.currentBackIdx
  · rw [Iter.pull, Iter.nextLoop, if_pos hmet] at hpull
    cases hpull
  · obtain ⟨it'', hpull', -⟩ := Iter.nextLoop_spec it.btree.inner.length hmet
      (Nat.le_add_right _ _)
    rw [Iter.pull, hpull'] at hpull
    have hhead : it.ahead.head? = some x := (Prod.mk.inj (Option.some.inj hpull)).2
    have hdrop : s.toList.drop i = rest ++ after := by
      rw [hlist, hi, hskip,
        show before ++ x :: rest ++ after = (before ++ [x]) ++ (rest ++ after) by simp,
        List.drop_left' (by simp)]
    rw [hahead, hdrop] at hhead
    have hasc : Ascending key s.toList := hs.layout.ascending
    rw [hlist, List.append_assoc, List.cons_append] at hasc
    obtain ⟨-, -, -, habove⟩ := ascending_append_cons.mp hasc
    exact absurd (habove x (List.mem_of_head? hhead)) (lt_irrefl _)

/-- A front position behind the back position: the back end gives what is before the range. -/
theorem not_yields_of_crossed (hskip : skips = true) (hmiss : misses = false) {it : Iter T F}
    (hempty : inside = []) (hit : s.rangeIdx (.included i) (.included e) = some it) :
    ¬ Yields Iter.pull it inside := by
  obtain ⟨it', hit', -, hbehind, hfront, hback, hnode⟩ := rangeIdx_spec hs i e
  obtain rfl : it = it' := Option.some.inj (hit.symm.trans hit')
  intro hyields
  subst hempty
  rw [hskip, Bool.toNat_true] at hi
  simp only [hmiss, Bool.toNat_false, List.append_nil, Nat.add_zero] at he
  obtain ⟨it', hpull, -⟩ := hyields.item .back
  obtain ⟨it'', hpull', -⟩ := Iter.nextBackLoop_spec
    (show it.currentFrontIdx ≠ it.currentBackIdx by omega) le_rfl hnode (fun _ => by omega)
  rw [Iter.pull, hpull'] at hpull
  have hlast : it.behind.getLast? = none := (Prod.mk.inj (Option.some.inj hpull)).2
  rw [hbehind, he, hlist, List.append_nil, List.take_left' rfl, List.getLast?_eq_none_iff] at hlast
  rw [hlast] at he
  exact absurd he (Nat.succ_ne_zero e)

/-- A back position that is too far reaches past the end. -/
theorem not_yields_of_miss (hskip : skips = false) (hmiss : misses = true) (hne : s.toList ≠ [])
    {it : Iter T F} (hit : s.rangeIdx (.included i) (.included e) = some it) :
    ¬ Yields Iter.pull it inside := by
  obtain ⟨it', hit', hahead, hbehind, hfront, hback, hnode⟩ := rangeIdx_spec hs i e
  obtain rfl : it = it' := Option.some.inj (hit.symm.trans hit')
  intro hyields
  rw [hskip, Bool.toNat_false, Nat.add_zero] at hi
  rw [hmiss, Bool.toNat_true] at he
  rw [hlist, hi, List.append_assoc, List.drop_left' rfl] at hahead
  rw [hlist, he] at hbehind
  cases after with
  | nil =>
    -- the end lies behind the last element
    rw [List.append_nil] at hlist hahead hbehind
    rw [List.take_of_length_le (Nat.le_succ _)] at hbehind
    refine not_yields (R := Iter.Overshoots) (e := .back) (fun it x l h => h.pull_front)
      (fun it h => h.pull_back) ?_ hyields
    refine ⟨hahead, ⟨before, hbehind⟩, by rwa [hbehind, ← hlist], ?_, hnode⟩
    rw [hfront, hback, hi, he, List.length_append]
  | cons x after =>
    -- the end is the first element behind the range
    have hspans : it.Spans (inside ++ [x]) := by
      refine ⟨⟨after, by rw [hahead]; simp⟩, ⟨before, ?_⟩, Or.inl ?_, hnode⟩
      · rw [hbehind, show before ++ inside ++ x :: after =
          (before ++ (inside ++ [x])) ++ after by simp, List.take_left' (by simp; omega)]
      · rw [hfront, hback, hi, he]
        simp only [List.length_append, List.length_singleton]
        omega
    have heq := hyields.eq (yields_of (fun it l e h => h.pull_item e) hspans)
    exact absurd (congrArg List.length heq) (by simp)

/-- **A range between positions**, each right or too far by one: it yields its elements exactly
if the set is empty, both positions are right, or both are wrong about a range that is empty. -/
theorem rangeIdx_yields_iff :
    (∃ it, s.rangeIdx (.included i) (.included e) = some it ∧ Yields Iter.pull it inside) ↔
      s.toList = [] ∨ skips = misses ∧ (skips = true → inside = []) := by
  refine ⟨?_, rangeIdx_yields hs hlist hi he⟩
  rintro ⟨it, hit, hyields⟩
  by_contra hgood
  obtain ⟨hne, hbad⟩ := not_or.mp hgood
  cases hskip : skips with
  | false =>
    cases hmiss : misses with
    | false => simp [hskip, hmiss] at hbad
    | true => exact not_yields_of_miss hs hlist hi he hskip hmiss hne hit hyields
  | true =>
    by_cases hempty : inside = []
    · cases hmiss : misses with
      | false => exact not_yields_of_crossed hs hlist hi he hskip hmiss hempty hit hyields
      | true => simp [hskip, hmiss, hempty] at hbad
    · exact not_yields_of_skip hs hlist hi he hskip hempty hit hyields

end Positions

end BTreeSet

namespace BTreeMap

variable [Keyed Q K] [LawfulFenwickTree F]

/-- The end bound is an included key that the map does not hold. -/
def MissesEnd (m : BTreeMap Q V F) (stop : Bound K) : Prop :=
  ∃ bound, stop = .included bound ∧ m.lookup bound = none

/-- The entries in a range. -/
def entriesIn (m : BTreeMap Q V F) (start stop : Bound K) : List (Pair Q V) :=
  m.toList.filter fun x => InRange start stop (Keyed.key x)

variable {m : BTreeMap Q V F} {start stop : Bound K}

/-- The start position counts the entries before the start. -/
theorem startIdx_spec (hm : m.Valid) (start : Bound K) :
    m.startIdx start = some (m.toList.filter fun x => ¬ start.Starts (Keyed.key x)).length := by
  cases start with
  | included bound =>
    rw [startIdx, toList]
    refine (BTreeSet.rankCmp_lower hm (lower_lt bound)).trans ?_
    exact congrArg (fun l => some (List.length l))
      (List.filter_congr fun x _ => by simp [Bound.Starts])
  | excluded bound =>
    rw [startIdx, toList]
    refine (BTreeSet.rankCmp_lower hm (lower_le bound)).trans ?_
    exact congrArg (fun l => some (List.length l))
      (List.filter_congr fun x _ => by simp [Bound.Starts])
  | unbounded => simp [startIdx, Bound.Starts]

/-- The rank of the end bound. -/
theorem endRank_spec (hm : m.Valid) (q : K) :
    m.set.rankCmp (fun item => decide (Keyed.key item.key < q)) =
      some (m.toList.filter fun x => Keyed.key x < q).length :=
  BTreeSet.rankCmp_spec hm q

section Cut

variable {before inside after : List (Pair Q V)} (hm : m.Valid) (hproper : Proper start stop)
  (hlist : m.toList = before ++ inside ++ after)
  (hbefore : ∀ x ∈ before, ¬ start.Starts (Keyed.key x))
  (hinside : ∀ x ∈ inside, InRange start stop (Keyed.key x))
  (hafter : ∀ x ∈ after, ¬ stop.Ends (Keyed.key x))

include hm hproper hlist hbefore hinside hafter

/-- `range_to_idx` with an included end that is absent: the end position lies behind the range. -/
theorem rangeToIdx_of_missed (hmiss : m.MissesEnd stop) :
    m.rangeToIdx start stop = some (before.length, (before ++ inside).length) := by
  obtain ⟨bound, rfl, hnone⟩ := hmiss
  have ⟨_, hstart, hend⟩ := filter_cut_range hproper hbefore hinside hafter
  rw [← hlist] at hstart hend
  have hlt : m.toList.filter (fun x => Keyed.key x < bound) = before ++ inside :=
    (filter_le_eq hnone).symm.trans hend
  simp only [rangeToIdx, startIdx_spec hm, endRank_spec hm, hstart, hlt, Option.bind_eq_bind,
    Option.bind_some, Option.pure_def]

/-- `range_to_idx` in all other cases: the last position of the range, and `(1, 0)` when that
would lie before the first entry. -/
theorem rangeToIdx_of_met (hmeets : ¬ m.MissesEnd stop) :
    m.rangeToIdx start stop =
      if (before ++ inside).length = 0 then some (1, 0)
      else some (before.length, (before ++ inside).length - 1) := by
  have ⟨_, hstart, hend⟩ := filter_cut_range hproper hbefore hinside hafter
  rw [← hlist] at hstart hend
  cases stop with
  | included bound =>
    have hle : m.toList.filter (fun x => Keyed.key x ≤ bound) = before ++ inside := hend
    cases hfind : find Keyed.key bound m.toList with
    | none => exact absurd ⟨bound, rfl, hfind⟩ hmeets
    | some x =>
      have hasc : Ascending Keyed.key m.toList := hm.layout.ascending
      have hlen := length_filter_le hasc hfind
      rw [hle] at hlen
      simp only [rangeToIdx, startIdx_spec hm, endRank_spec hm, hstart, Option.bind_eq_bind,
        Option.bind_some, Option.pure_def, hlen, Nat.add_one_ne_zero, if_false,
        Nat.add_sub_cancel]
  | excluded bound =>
    have hlt : m.toList.filter (fun x => Keyed.key x < bound) = before ++ inside := hend
    simp only [rangeToIdx, startIdx_spec hm, endRank_spec hm, hstart, hlt, Option.bind_eq_bind,
      Option.bind_some, Option.pure_def]
  | unbounded =>
    have hlen : m.set.len = (before ++ inside).length := by
      have hall : m.toList.filter (fun x => Bound.unbounded.Ends (Keyed.key x)) = m.toList :=
        List.filter_eq_self.mpr fun _ _ => decide_eq_true trivial
      rw [← hend, hall]
      exact hm.len_eq
    simp only [rangeToIdx, startIdx_spec hm, hstart, hlen, Option.bind_eq_bind, Option.bind_some,
      Option.pure_def]

end Cut

/-! ## §4 All calls -/

/-- The positions of a range, each right or too far by one. -/
theorem rangeToIdx_spec (hm : m.Valid) (hproper : Proper start stop)
    {before inside after : List (Pair Q V)} (hlist : m.toList = before ++ inside ++ after)
    (hbefore : ∀ x ∈ before, ¬ start.Starts (Keyed.key x))
    (hinside : ∀ x ∈ inside, InRange start stop (Keyed.key x))
    (hafter : ∀ x ∈ after, ¬ stop.Ends (Keyed.key x)) :
    ∃ i e skips misses, m.rangeToIdx start stop = some (i, e) ∧
      i = before.length + Bool.toNat skips ∧
      e + 1 = (before ++ inside).length + Bool.toNat misses ∧
      (m.toList = [] ∨ skips = misses ∧ (skips = true → inside = []) ↔
        ¬ (m.MissesEnd stop ∧ m.toList ≠ [])) := by
  by_cases hmiss : m.MissesEnd stop
  · refine ⟨_, _, false, true,
      rangeToIdx_of_missed hm hproper hlist hbefore hinside hafter hmiss, rfl, rfl, ?_⟩
    simp [hmiss]
  · have hidx := rangeToIdx_of_met hm hproper hlist hbefore hinside hafter hmiss
    by_cases hzero : (before ++ inside).length = 0
    · rw [if_pos hzero] at hidx
      obtain ⟨rfl, rfl⟩ := List.append_eq_nil_iff.mp (List.length_eq_zero_iff.mp hzero)
      exact ⟨1, 0, true, true, hidx, rfl, rfl, by simp [hmiss]⟩
    · rw [if_neg hzero] at hidx
      exact ⟨_, _, false, false, hidx, rfl, Nat.sub_add_cancel (Nat.pos_of_ne_zero hzero),
        by simp [hmiss]⟩

end BTreeMap

/-- **`range`**: under every sequence of calls a proper range yields its entries exactly once if
and only if its end is not an included key that is absent from a map with entries. -/
theorem range_exactlyOnce_iff [Keyed Q K] [LawfulFenwickTree F] (m : BTreeMap Q V F)
    (hm : m.Valid) (start stop : Bound K) (hproper : Proper start stop) :
    (∃ it, m.range start stop = some it ∧ Yields Iter.pull it (m.entriesIn start stop)) ↔
      ¬ (m.MissesEnd stop ∧ m.toList ≠ []) := by
  have hasc : Ascending Keyed.key m.toList := hm.layout.ascending
  obtain ⟨before, inside, after, hlist, hbefore, hinside, hafter⟩ := hasc.cut_range start stop
  obtain ⟨i, e, skips, misses, hidx, hi, he, hiff⟩ :=
    BTreeMap.rangeToIdx_spec hm hproper hlist hbefore hinside hafter
  have hentries : m.entriesIn start stop = inside := by
    rw [BTreeMap.entriesIn, hlist]
    exact (filter_cut_range hproper hbefore hinside hafter).1
  have hrange : m.range start stop = m.set.rangeIdx (.included i) (.included e) := by
    rw [BTreeMap.range, hidx]
    rfl
  rw [hrange, hentries, ← hiff]
  exact BTreeSet.rangeIdx_yields_iff hm hlist hi he

/-- Two entries in one node. -/
def twoEntries : BTreeMap ℕ ℕ CountList := ⟨⟨[[⟨2, 7⟩, ⟨4, 8⟩]], ⟨[2]⟩, 2, 2⟩⟩

theorem twoEntries_produced : twoEntries.Produced :=
  .insert (k := 4) (v := 8) (r := none) (.insert (k := 2) (v := 7) (r := none)
    (.withMaximumNodeSize 2 (by decide)) rfl) rfl

theorem range_exactlyOnce_iff_twoEntries :
    ∃ it, twoEntries.range (.included 3) (.included 4) = some it ∧
      Yields Iter.pull it (twoEntries.entriesIn (.included 3) (.included 4)) := by
  refine (range_exactlyOnce_iff twoEntries (BTreeMap.Produced.usable twoEntries_produced).1
    (.included 3) (.included 4) (show 3 ≤ 4 by decide)).mpr ?_
  rintro ⟨⟨bound, hbound, hnone⟩, -⟩
  obtain rfl := Bound.included.inj hbound
  exact absurd hnone (by decide)

/-- `..=3` reaches the entry with key `4`. -/
theorem range_reaches_past_end :
    twoEntries.Produced ∧ Proper (.unbounded : Bound ℕ) (.included 3) ∧
      ¬ ∃ it, twoEntries.range .unbounded (.included 3) = some it ∧
        Yields Iter.pull it (twoEntries.entriesIn .unbounded (.included 3)) := by
  refine ⟨twoEntries_produced, trivial, ?_⟩
  have hrun : ((twoEntries.range .unbounded (.included 3)).bind fun it =>
      outputs Iter.pull it [.front, .front]) = some [some ⟨2, 7⟩, some ⟨4, 8⟩] := by
    decide +kernel
  rintro ⟨it, hit, hyields⟩
  rw [hit, Option.bind_some, yields_iff.mp hyields] at hrun
  exact absurd hrun (by decide +kernel)

end IndexSet
