import IndexSet.Lib.DoubleEnded
import IndexSet.SingleThreaded.Map

/-!
# Iterators of the Single-Threaded `BTreeSet`

`lib.rs`: `Iter` walks the nodes from both ends and counts its way: it stops where the two
positions meet.

- `Iter.new`, `Iter.nextLoop`, `Iter.nextBackLoop`: the code;
- `Iter.ahead`, `Iter.behind`: what the two ends of an iterator still have to give;
- `Iter.Spans`: the ends enclose a list; `Spans.pull_item`: one call gives its item;
- `BTreeSet.iter_yields`, `BTreeMap.iter_yields`: the iterators over a whole set or map;
- `iter_meetsInside`: the course of an iteration by any sequence of calls.
-/

namespace IndexSet

open KeyedList DoubleEnded

variable {T Q V F : Type}

/-! ## §1 The code -/

/-- `struct Iter`: slice iterators are the lists of what they have left. -/
structure Iter (T F : Type) where
  btree : BTreeSet T F
  currentFrontNodeIdx : ℕ
  currentFrontIdx : ℕ
  currentBackNodeIdx : ℕ
  currentBackIdx : ℕ
  currentFrontIterator : Option (List T)
  currentBackIterator : Option (List T)

namespace Iter

/-- `Iter::new`; `none` is the panic of an index, or of a subtraction. -/
def new (btree : BTreeSet T F) : Option (Iter T F) := do
  let front ← btree.inner[0]?
  let lastNodeIdx ← checkedSub btree.inner.length 1
  let back ← btree.inner[lastNodeIdx]?
  return {
    btree
    currentFrontNodeIdx := 0
    currentFrontIdx := 0
    currentBackNodeIdx := lastNodeIdx
    currentBackIdx := btree.len
    currentFrontIterator := some front
    currentBackIterator := some back }

/-- `Iter::next`, a round of its recursion a fuel. -/
def nextLoop : ℕ → Iter T F → Option (Iter T F × Option T)
  | 0, _ => none
  | fuel + 1, it =>
    if it.currentFrontIdx = it.currentBackIdx then some (it, none)
    else
      match it.currentFrontIterator with
      | some (value :: front) =>
        some ({ it with
          currentFrontIterator := some front
          currentFrontIdx := it.currentFrontIdx + 1 }, some value)
      | _ =>
        let it := { it with currentFrontNodeIdx := it.currentFrontNodeIdx + 1 }
        match it.btree.inner[it.currentFrontNodeIdx]? with
        | none => some (it, none)
        | some node => nextLoop fuel { it with currentFrontIterator := some node }

/-- `Iter::next_back`; `none` is the panic of an index, or of a subtraction. -/
def nextBackLoop : ℕ → Iter T F → Option (Iter T F × Option T)
  | 0, _ => none
  | fuel + 1, it =>
    if it.currentFrontIdx = it.currentBackIdx then some (it, none)
    else
      match it.currentBackIterator.bind List.getLast? with
      | some value => do
        let currentBackIdx ← checkedSub it.currentBackIdx 1
        return ({ it with
          currentBackIterator := it.currentBackIterator.map List.dropLast
          currentBackIdx }, some value)
      | none =>
        if it.currentBackNodeIdx = 0 then some (it, none)
        else do
          let it := { it with currentBackNodeIdx := it.currentBackNodeIdx - 1 }
          let node ← it.btree.inner[it.currentBackNodeIdx]?
          nextBackLoop fuel { it with currentBackIterator := some node }

/-- Either method, with a round for every node there is to move to. -/
def pull (it : Iter T F) : End → Option (Iter T F × Option T)
  | .front => nextLoop (it.btree.inner.length + 1) it
  | .back => nextBackLoop (it.currentBackNodeIdx + 1) it

end Iter

/-- `struct IterMap`. -/
structure IterMap (Q V F : Type) where
  inner : Iter (Pair Q V) F

/-- `IterMap::next` and `IterMap::next_back`. -/
def IterMap.pull (it : IterMap Q V F) (e : End) : Option (IterMap Q V F × Option (Q × V)) := do
  match ← it.inner.pull e with
  | (inner, some entry) => return (⟨inner⟩, some (entry.key, entry.value))
  | (inner, none) => return (⟨inner⟩, none)

/-- `BTreeSet::iter`. -/
def BTreeSet.iter (s : BTreeSet T F) : Option (Iter T F) := Iter.new s

/-- `BTreeMap::iter`. -/
def BTreeMap.iter (m : BTreeMap Q V F) : Option (IterMap Q V F) := m.set.iter.map IterMap.mk

/-! ## §2 One call -/

namespace Iter

/-- What the front end has before it. -/
def ahead (it : Iter T F) : List T :=
  it.currentFrontIterator.getD [] ++ (it.btree.inner.drop (it.currentFrontNodeIdx + 1)).flatten

/-- What the back end has before it. -/
def behind (it : Iter T F) : List T :=
  (it.btree.inner.take it.currentBackNodeIdx).flatten ++ it.currentBackIterator.getD []

variable {it : Iter T F}

/-- What a call of `next` does to the iterator: one element less ahead, the back as it was. -/
structure FrontMoved (it it' : Iter T F) : Prop where
  ahead : it'.ahead = it.ahead.tail
  frontIdx : it'.currentFrontIdx + it.ahead.tail.length = it.currentFrontIdx + it.ahead.length
  behind : it'.behind = it.behind
  btree : it'.btree = it.btree
  backNodeIdx : it'.currentBackNodeIdx = it.currentBackNodeIdx
  backIdx : it'.currentBackIdx = it.currentBackIdx

/-- What a call of `next_back` does to the iterator. -/
structure BackMoved (it it' : Iter T F) : Prop where
  behind : it'.behind = it.behind.dropLast
  backIdx : it'.currentBackIdx + it.behind.length = it.currentBackIdx + it.behind.dropLast.length
  ahead : it'.ahead = it.ahead
  frontIdx : it'.currentFrontIdx = it.currentFrontIdx
  nodeIdx_le : it'.currentBackNodeIdx ≤ it'.btree.inner.length

/-- A round of `next` with an empty front slice moves to the node behind it. -/
theorem nextLoop_advance {fuel : ℕ} (hmet : it.currentFrontIdx ≠ it.currentBackIdx)
    (hfront : it.currentFrontIterator.getD [] = []) :
    nextLoop (fuel + 1) it =
      match it.btree.inner[it.currentFrontNodeIdx + 1]? with
      | none => some ({ it with currentFrontNodeIdx := it.currentFrontNodeIdx + 1 }, none)
      | some node => nextLoop fuel { it with
          currentFrontNodeIdx := it.currentFrontNodeIdx + 1
          currentFrontIterator := some node } := by
  rw [nextLoop, if_neg hmet]
  cases hiter : it.currentFrontIterator with
  | none => rfl
  | some front =>
    rw [hiter, Option.getD_some] at hfront
    rw [hfront]

/-- A round of `next` that finds an element. -/
theorem nextLoop_take {fuel : ℕ} {value : T} {front : List T}
    (hmet : it.currentFrontIdx ≠ it.currentBackIdx)
    (hfront : it.currentFrontIterator.getD [] = value :: front) :
    ∃ it', nextLoop (fuel + 1) it = some (it', it.ahead.head?) ∧ it.FrontMoved it' := by
  have hiter : it.currentFrontIterator = some (value :: front) := by
    cases hiter : it.currentFrontIterator with
    | none => rw [hiter] at hfront; cases hfront
    | some l => rw [hiter] at hfront; exact congrArg some hfront
  have hahead : it.ahead =
      value :: (front ++ (it.btree.inner.drop (it.currentFrontNodeIdx + 1)).flatten) := by
    rw [ahead, hfront, List.cons_append]
  rw [nextLoop, if_neg hmet, hahead]
  simp only [hiter]
  refine ⟨_, rfl, ?_, ?_, rfl, rfl, rfl, rfl⟩
  · rw [hahead]
    rfl
  · rw [hahead, List.tail_cons, List.length_cons]
    dsimp only
    omega

/-- A round of `next` behind the last node finds nothing. -/
theorem nextLoop_end {fuel : ℕ} (hmet : it.currentFrontIdx ≠ it.currentBackIdx)
    (hfront : it.currentFrontIterator.getD [] = [])
    (hend : it.btree.inner.length ≤ it.currentFrontNodeIdx + 1) :
    ∃ it', nextLoop (fuel + 1) it = some (it', it.ahead.head?) ∧ it.FrontMoved it' := by
  have hahead : it.ahead = [] := by
    rw [ahead, hfront, List.drop_eq_nil_of_le hend]
    rfl
  rw [nextLoop_advance hmet hfront, List.getElem?_eq_none hend, hahead]
  refine ⟨_, rfl, ?_, by rw [hahead]; rfl, rfl, rfl, rfl, rfl⟩
  rw [hahead, ahead, hfront, List.drop_eq_nil_of_le (by dsimp only; omega)]
  rfl

/-- **`next`** yields the first element ahead and leaves the back end alone. -/
theorem nextLoop_spec (fuel : ℕ) (hmet : it.currentFrontIdx ≠ it.currentBackIdx)
    (hfuel : it.btree.inner.length ≤ fuel + it.currentFrontNodeIdx) :
    ∃ it', nextLoop (fuel + 1) it = some (it', it.ahead.head?) ∧ it.FrontMoved it' := by
  induction fuel generalizing it with
  | zero =>
    cases hfront : it.currentFrontIterator.getD [] with
    | cons value front => exact nextLoop_take hmet hfront
    | nil => exact nextLoop_end hmet hfront (by omega)
  | succ fuel ih =>
    cases hfront : it.currentFrontIterator.getD [] with
    | cons value front => exact nextLoop_take hmet hfront
    | nil =>
      by_cases hlt : it.currentFrontNodeIdx + 1 < it.btree.inner.length
      · rw [nextLoop_advance hmet hfront, List.getElem?_eq_getElem hlt]
        set moved : Iter T F := { it with
          currentFrontNodeIdx := it.currentFrontNodeIdx + 1
          currentFrontIterator := some it.btree.inner[it.currentFrontNodeIdx + 1] } with hmoved
        have hahead : moved.ahead = it.ahead := by
          rw [ahead, ahead, hfront, List.drop_eq_getElem_cons hlt, List.flatten_cons]
          rfl
        have hrounds : moved.btree.inner.length ≤ fuel + moved.currentFrontNodeIdx := by
          simp only [hmoved]
          omega
        obtain ⟨it', hloop, h⟩ := @ih moved hmet hrounds
        rw [hahead] at hloop
        exact ⟨it', hloop, hahead ▸ h.ahead, hahead ▸ h.frontIdx, h.behind, h.btree,
          h.backNodeIdx, h.backIdx⟩
      · exact nextLoop_end hmet hfront (not_lt.mp hlt)

/-- A round of `next_back` that finds an element. -/
theorem nextBackLoop_take {fuel : ℕ} {value : T} {back : List T}
    (hmet : it.currentFrontIdx ≠ it.currentBackIdx)
    (hback : it.currentBackIterator.getD [] = back ++ [value])
    (hnode : it.currentBackNodeIdx ≤ it.btree.inner.length)
    (hpos : it.behind ≠ [] → 0 < it.currentBackIdx) :
    ∃ it', nextBackLoop (fuel + 1) it = some (it', it.behind.getLast?) ∧ it.BackMoved it' := by
  have hiter : it.currentBackIterator = some (back ++ [value]) := by
    cases hiter : it.currentBackIterator with
    | none => rw [hiter] at hback; exact absurd hback (by simp)
    | some l => rw [hiter] at hback; exact congrArg some hback
  have hbehind : it.behind =
      (it.btree.inner.take it.currentBackNodeIdx).flatten ++ back ++ [value] := by
    rw [behind, hback, List.append_assoc]
  have hsub : checkedSub it.currentBackIdx 1 = some (it.currentBackIdx - 1) :=
    if_pos (hpos (by simp [hbehind]))
  have hidx := hpos (by simp [hbehind])
  rw [nextBackLoop, if_neg hmet, hbehind, List.getLast?_concat]
  simp only [hiter, Option.bind_some, List.getLast?_concat, hsub, Option.bind_eq_bind]
  refine ⟨_, rfl, ?_, ?_, rfl, rfl, hnode⟩
  · rw [hbehind, List.dropLast_concat]
    simp [behind]
  · rw [hbehind, List.dropLast_concat]
    simp only [List.length_append, List.length_singleton]
    omega

/-- A round of `next_back` before the first node finds nothing. -/
theorem nextBackLoop_end {fuel : ℕ} (hmet : it.currentFrontIdx ≠ it.currentBackIdx)
    (hback : it.currentBackIterator.getD [] = []) (hzero : it.currentBackNodeIdx = 0) :
    ∃ it', nextBackLoop (fuel + 1) it = some (it', it.behind.getLast?) ∧ it.BackMoved it' := by
  have hbehind : it.behind = [] := by
    rw [behind, hback, hzero]
    rfl
  have hlast : it.currentBackIterator.bind List.getLast? = none := by
    cases hiter : it.currentBackIterator with
    | none => rfl
    | some l => simpa [hiter] using hback
  rw [nextBackLoop, if_neg hmet, hlast, hbehind]
  simp only [if_pos hzero]
  refine ⟨_, rfl, ?_, ?_, rfl, rfl, ?_⟩
  · rw [hbehind]
    rfl
  · rw [hbehind]
    rfl
  · rw [hzero]
    exact Nat.zero_le _

/-- **`next_back`** yields the last element behind and leaves the front end alone. -/
theorem nextBackLoop_spec {fuel : ℕ} (hmet : it.currentFrontIdx ≠ it.currentBackIdx)
    (hfuel : it.currentBackNodeIdx ≤ fuel)
    (hnode : it.currentBackNodeIdx ≤ it.btree.inner.length)
    (hpos : it.behind ≠ [] → 0 < it.currentBackIdx) :
    ∃ it', nextBackLoop (fuel + 1) it = some (it', it.behind.getLast?) ∧ it.BackMoved it' := by
  induction fuel generalizing it with
  | zero =>
    rcases List.eq_nil_or_concat' (it.currentBackIterator.getD []) with hback | ⟨back, value, hback⟩
    · exact nextBackLoop_end hmet hback (by omega)
    · exact nextBackLoop_take hmet hback hnode hpos
  | succ fuel ih =>
    rcases List.eq_nil_or_concat' (it.currentBackIterator.getD []) with hback | ⟨back, value, hback⟩
    · by_cases hzero : it.currentBackNodeIdx = 0
      · exact nextBackLoop_end hmet hback hzero
      · -- on to the node before it
        have hlast : it.currentBackIterator.bind List.getLast? = none := by
          cases hiter : it.currentBackIterator with
          | none => rfl
          | some l => simpa [hiter] using hback
        have hlt : it.currentBackNodeIdx - 1 < it.btree.inner.length := by omega
        rw [nextBackLoop, if_neg hmet, hlast]
        simp only [if_neg hzero, List.getElem?_eq_getElem hlt, Option.bind_eq_bind,
          Option.bind_some]
        set moved : Iter T F := { it with
          currentBackNodeIdx := it.currentBackNodeIdx - 1
          currentBackIterator := some it.btree.inner[it.currentBackNodeIdx - 1] } with hmoved
        have hbehind : moved.behind = it.behind := by
          have htake : it.btree.inner.take it.currentBackNodeIdx =
              it.btree.inner.take (it.currentBackNodeIdx - 1) ++
                [it.btree.inner[it.currentBackNodeIdx - 1]] := by
            rw [← List.take_succ_eq_append_getElem hlt, Nat.sub_add_cancel (by omega)]
          rw [behind, behind, hback, htake, List.flatten_append, List.flatten_singleton,
            List.append_nil]
          rfl
        obtain ⟨it', hloop, h⟩ := @ih moved hmet (by simp only [hmoved]; omega) hlt.le
          (hbehind ▸ hpos)
        rw [hbehind] at hloop
        exact ⟨it', hloop, hbehind ▸ h.behind, hbehind ▸ h.backIdx, h.ahead, h.frontIdx,
          h.nodeIdx_le⟩
    · exact nextBackLoop_take hmet hback hnode hpos

/-- An iterator whose ends enclose a list: it is a prefix of what is ahead and a suffix of
what is behind, and the positions agree with its length unless nothing is left anyway. -/
structure Spans (it : Iter T F) (l : List T) : Prop where
  ahead : ∃ post, it.ahead = l ++ post
  behind : ∃ pre, it.behind = pre ++ l
  position : it.currentFrontIdx + l.length = it.currentBackIdx ∨
    it.ahead = [] ∧ it.behind = []
  nodeIdx_le : it.currentBackNodeIdx ≤ it.btree.inner.length

/-- Once the two positions meet, nothing is left and both methods say so. -/
theorem Spans.of_met {l : List T} (h : it.Spans l) (hmet : it.currentFrontIdx = it.currentBackIdx)
    (e : End) : l = [] ∧ it.pull e = some (it, none) := by
  refine ⟨?_, ?_⟩
  · rcases h.position with hpos | hnil
    · exact List.length_eq_zero_iff.mp (by omega)
    · obtain ⟨post, hahead⟩ := h.ahead
      exact (List.append_eq_nil_iff.mp (hahead.symm.trans hnil.1)).1
  · cases e with
    | front => rw [pull, nextLoop, if_pos hmet]
    | back => rw [pull, nextBackLoop, if_pos hmet]

/-- If they do not meet although nothing is left, both ends have run out. -/
theorem Spans.exhausted (h : it.Spans []) (hmet : it.currentFrontIdx ≠ it.currentBackIdx) :
    it.ahead = [] ∧ it.behind = [] :=
  h.position.resolve_left hmet

theorem Spans.pull_front {l : List T} (h : it.Spans l)
    (hmet : it.currentFrontIdx ≠ it.currentBackIdx) :
    ∃ it', it.pull .front = some (it', l.head?) ∧ it'.Spans l.tail := by
  obtain ⟨it', hpull, hmoved⟩ := nextLoop_spec it.btree.inner.length hmet
    (Nat.le_add_right _ _)
  have hnode : it'.currentBackNodeIdx ≤ it'.btree.inner.length := by
    rw [hmoved.backNodeIdx, hmoved.btree]
    exact h.nodeIdx_le
  rw [pull, hpull]
  cases l with
  | nil =>
    have ⟨hahead, hbehind⟩ := h.exhausted hmet
    have hahead' : it'.ahead = [] := by rw [hmoved.ahead, hahead]; rfl
    have hbehind' : it'.behind = [] := hmoved.behind.trans hbehind
    exact ⟨it', by rw [hahead], ⟨[], hahead'⟩, ⟨[], hbehind'⟩, Or.inr ⟨hahead', hbehind'⟩,
      hnode⟩
  | cons x l =>
    obtain ⟨post, hahead⟩ := h.ahead
    obtain ⟨pre, hbehind⟩ := h.behind
    have hposition := h.position.resolve_right fun hnil =>
      absurd (hahead.symm.trans hnil.1) (by simp)
    have hidx := hmoved.frontIdx
    refine ⟨it', by rw [hahead]; rfl, ⟨post, by rw [hmoved.ahead, hahead]; rfl⟩,
      ⟨pre ++ [x], by rw [hmoved.behind, hbehind]; simp⟩, Or.inl ?_, hnode⟩
    rw [hahead, List.cons_append, List.tail_cons, List.length_cons] at hidx
    rw [hmoved.backIdx, List.tail_cons, ← hposition, List.length_cons]
    omega

theorem Spans.pull_back {l : List T} (h : it.Spans l)
    (hmet : it.currentFrontIdx ≠ it.currentBackIdx) :
    ∃ it', it.pull .back = some (it', l.getLast?) ∧ it'.Spans l.dropLast := by
  obtain ⟨post, hahead⟩ := h.ahead
  obtain ⟨pre, hbehind⟩ := h.behind
  have hpos : it.behind ≠ [] → 0 < it.currentBackIdx := fun hne => by
    have hposition := h.position.resolve_right fun hnil => hne hnil.2
    omega
  obtain ⟨it', hpull, hmoved⟩ := nextBackLoop_spec hmet le_rfl h.nodeIdx_le hpos
  rw [pull, hpull]
  rcases List.eq_nil_or_concat' l with rfl | ⟨l, x, rfl⟩
  · have ⟨hahead, hbehind⟩ := h.exhausted hmet
    have hahead' : it'.ahead = [] := hmoved.ahead.trans hahead
    have hbehind' : it'.behind = [] := by rw [hmoved.behind, hbehind]; rfl
    exact ⟨it', by rw [hbehind], ⟨[], hahead'⟩, ⟨[], hbehind'⟩, Or.inr ⟨hahead', hbehind'⟩,
      hmoved.nodeIdx_le⟩
  · have hposition := h.position.resolve_right fun hnil =>
      absurd (hahead.symm.trans hnil.1) (by simp)
    have hidx := hmoved.backIdx
    rw [← List.append_assoc] at hbehind
    rw [hbehind, List.getLast?_concat, List.getLast?_concat, List.dropLast_concat]
    refine ⟨it', rfl, ⟨x :: post, by rw [hmoved.ahead, hahead]; simp⟩,
      ⟨pre, by rw [hmoved.behind, hbehind, List.dropLast_concat]⟩, Or.inl ?_, hmoved.nodeIdx_le⟩
    rw [hbehind, List.dropLast_concat] at hidx
    simp only [List.length_append, List.length_singleton] at hidx hposition
    rw [hmoved.frontIdx]
    omega

/-- **One call** on an iterator that encloses a list gets the answer of the list. -/
theorem Spans.pull_item {l : List T} (h : it.Spans l) (e : End) :
    ∃ it', it.pull e = some (it', item l e) ∧ it'.Spans (rest l e) := by
  by_cases hmet : it.currentFrontIdx = it.currentBackIdx
  · obtain ⟨rfl, hpull⟩ := h.of_met hmet e
    exact ⟨it, by rw [hpull, item_nil], by rwa [rest_nil]⟩
  · cases e with
    | front => exact h.pull_front hmet
    | back => exact h.pull_back hmet

/-! ## §3 All elements -/

/-- A new iterator encloses the whole set. -/
theorem new_spans {btree : BTreeSet T F} (hne : btree.inner ≠ [])
    (hlen : btree.len = btree.toList.length) :
    ∃ it, new btree = some it ∧ it.Spans btree.toList ∧ it.btree = btree := by
  obtain ⟨front, nodes, hfront⟩ := List.exists_cons_of_ne_nil hne
  obtain ⟨pre, back, hback⟩ := (List.eq_nil_or_concat' btree.inner).resolve_left hne
  have hlast : checkedSub btree.inner.length 1 = some pre.length := by
    simp [checkedSub, hback]
  have heval : new btree = some {
      btree
      currentFrontNodeIdx := 0
      currentFrontIdx := 0
      currentBackNodeIdx := pre.length
      currentBackIdx := btree.len
      currentFrontIterator := some front
      currentBackIterator := some back } := by
    have hfront₀ : btree.inner[0]? = some front := by rw [hfront]; rfl
    have hback₀ : btree.inner[pre.length]? = some back := by simp [hback]
    simp only [new, hfront₀, hlast, hback₀, Option.bind_eq_bind, Option.bind_some]
    rfl
  refine ⟨_, heval, ⟨⟨[], ?_⟩, ⟨[], ?_⟩, Or.inl ?_, ?_⟩, rfl⟩
  · rw [List.append_nil, BTreeSet.toList, hfront]
    simp [ahead, hfront]
  · rw [List.nil_append, BTreeSet.toList, hback]
    simp [behind, hback]
  · rw [Nat.zero_add, hlen]
  · rw [hback, List.length_append]
    exact Nat.le_add_right _ _

end Iter

/-- **`iter`** of a set: under every sequence of calls the elements are visited exactly once. -/
theorem BTreeSet.iter_yields {s : BTreeSet T F} (hne : s.inner ≠ [])
    (hlen : s.len = s.toList.length) : ∃ it, s.iter = some it ∧ Yields Iter.pull it s.toList := by
  obtain ⟨it, hnew, hspans, -⟩ := Iter.new_spans hne hlen
  exact ⟨it, hnew, yields_of (fun it l e h => h.pull_item e) hspans⟩

/-- An item of the map iterator is made of one of the set iterator inside it. -/
theorem IterMap.pull_mk (inner : Iter (Pair Q V) F) (e : End) :
    IterMap.pull ⟨inner⟩ e =
      (inner.pull e).map fun r => (⟨r.1⟩, r.2.map fun p => (p.key, p.value)) := by
  rw [IterMap.pull]
  rcases inner.pull e with _ | ⟨inner', _ | p⟩ <;> rfl

/-- `iter` of a map visits its keys with their values. -/
theorem BTreeMap.iter_yields {m : BTreeMap Q V F} (hne : m.set.inner ≠ [])
    (hlen : m.set.len = m.toList.length) :
    ∃ it, m.iter = some it ∧ Yields IterMap.pull it (m.toList.map fun p => (p.key, p.value)) := by
  obtain ⟨inner, hnew, hyields⟩ := BTreeSet.iter_yields hne hlen
  refine ⟨⟨inner⟩, congrArg (Option.map IterMap.mk) hnew, ?_⟩
  exact hyields.wrapped IterMap.mk (fun p => (p.key, p.value)) IterMap.pull_mk

/-! ## §4 Every sequence of calls -/

/-- **`iter`** of a set or a map that satisfies the invariant: under every sequence of calls of
`next` and `next_back` it does not panic, and the two ends meet inside the sorted list. -/
theorem iter_meetsInside {K K' : Type} [LinearOrder K] [LinearOrder K'] [Keyed T K] [Keyed Q K']
    [LawfulFenwickTree F] :
    (∀ s : BTreeSet T F, s.Valid → Ascending key s.toList ∧ s.len = s.toList.length ∧
      ∃ it, s.iter = some it ∧ ∀ es, ∃ answers,
        outputs Iter.pull it es = some answers ∧ MeetsInside s.toList es answers) ∧
      ∀ m : BTreeMap Q V F, m.Valid → Ascending key m.toList ∧ m.set.len = m.toList.length ∧
        ∃ it, m.iter = some it ∧ ∀ es, ∃ answers, outputs IterMap.pull it es = some answers ∧
          MeetsInside (m.toList.map fun p => (p.key, p.value)) es answers := by
  constructor
  · intro s hs
    obtain ⟨it, hit, hyields⟩ := BTreeSet.iter_yields hs.layout.ne_nil hs.len_eq
    refine ⟨hs.layout.ascending, hs.len_eq, it, hit, fun es => ?_⟩
    obtain ⟨answers, hanswers, honce⟩ := hyields es
    exact ⟨answers, hanswers, honce.meetsInside⟩
  · intro m hm
    obtain ⟨it, hit, hyields⟩ := BTreeMap.iter_yields hm.layout.ne_nil hm.len_eq
    refine ⟨hm.layout.ascending, hm.len_eq, it, hit, fun es => ?_⟩
    obtain ⟨answers, hanswers, honce⟩ := hyields es
    exact ⟨answers, hanswers, honce.meetsInside⟩

/-- Both kinds, with two nodes and with one. -/
theorem iter_meetsInside_elements :
    ((∃ it, (⟨[[1, 3], [5]], ⟨[2, 1]⟩, 2, 3⟩ : BTreeSet ℕ CountList).iter = some it ∧
        ∀ es, ∃ answers, outputs Iter.pull it es = some answers ∧
          MeetsInside [1, 3, 5] es answers) ∧
      ∃ it, (⟨⟨[[⟨1, 7⟩]], ⟨[1]⟩, 2, 1⟩⟩ : BTreeMap ℕ ℕ CountList).iter = some it ∧
        ∀ es, ∃ answers, outputs IterMap.pull it es = some answers ∧
          MeetsInside [(1, 7)] es answers) :=
  ⟨((iter_meetsInside (T := ℕ) (Q := ℕ) (V := ℕ) (F := CountList)).1 ⟨[[1, 3], [5]], ⟨[2, 1]⟩, 2, 3⟩
      ⟨⟨by decide, by decide, by decide⟩, rfl, rfl⟩).2.2,
    ((iter_meetsInside (T := ℕ) (Q := ℕ) (V := ℕ) (F := CountList)).2 ⟨⟨[[⟨1, 7⟩]], ⟨[1]⟩, 2, 1⟩⟩
      ⟨⟨by decide, by decide, by decide⟩, rfl, rfl⟩).2.2⟩

end IndexSet
