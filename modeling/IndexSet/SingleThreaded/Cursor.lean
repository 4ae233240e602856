import IndexSet.SingleThreaded.Positions

/-!
# Cursors of the `BTreeMap`

`lib.rs`: a cursor is a position in the map, or the "ghost" position behind the last entry, from
which `move_next` wraps around to the first one.

- `Cursor.moveNext`, …, `CursorMap.peekPrev`: the code;
- `onward`, `backward`: the moves on the cycle of `n + 1` positions;
- `CursorMap.OnCycle`: what a cursor on the cycle can rely on; `onCycle`: it is on the cycle
  wherever it is moved;
- `lowerBound_cursor_iff`: the bounds at which `lower_bound` places a cursor right.

For an excluded key `lower_bound` takes the position behind the rank of the key, whether the key
is there or not.
-/

namespace IndexSet

open KeyedList

variable {T Q V F K : Type}

/-! ## §1 The code -/

section Code

namespace Cursor

/-- `Cursor::move_next`. -/
def moveNext (c : Cursor T F) : Cursor T F :=
  if c.idx = c.set.len then { c with idx := 0 } else { c with idx := c.idx + 1 }

/-- `Cursor::move_prev`. -/
def movePrev (c : Cursor T F) : Cursor T F :=
  if c.idx = 0 then { c with idx := c.set.len } else { c with idx := c.idx - 1 }

variable [FenwickTree F]

/-- `Cursor::peek_next`. -/
def peekNext (c : Cursor T F) : Option (Option T) :=
  if c.idx = c.set.len then some c.set.first else c.set.getIndex (c.idx + 1)

/-- `Cursor::peek_prev`. -/
def peekPrev (c : Cursor T F) : Option (Option T) :=
  if c.idx = 0 then some none else c.set.getIndex (c.idx - 1)

end Cursor

namespace CursorMap

/-- `CursorMap::move_next`. -/
def moveNext (c : CursorMap Q V F) : CursorMap Q V F := ⟨c.cursor.moveNext⟩

/-- `CursorMap::move_prev`. -/
def movePrev (c : CursorMap Q V F) : CursorMap Q V F := ⟨c.cursor.movePrev⟩

variable [FenwickTree F]

/-- `CursorMap::peek_next`. -/
def peekNext (c : CursorMap Q V F) : Option (Option (Q × V)) :=
  c.cursor.peekNext.map fun entry => entry.map fun entry => (entry.key, entry.value)

/-- `CursorMap::peek_prev`. -/
def peekPrev (c : CursorMap Q V F) : Option (Option (Q × V)) :=
  c.cursor.peekPrev.map fun entry => entry.map fun entry => (entry.key, entry.value)

end CursorMap

/-- A call of `move_next` or of `move_prev`. -/
inductive Move where
  | next
  | prev
  deriving DecidableEq, Repr

/-- The cursor after a sequence of such calls. -/
def CursorMap.run (c : CursorMap Q V F) : List Move → CursorMap Q V F
  | [] => c
  | .next :: moves => c.moveNext.run moves
  | .prev :: moves => c.movePrev.run moves

end Code

/-! ## §2 The cycle -/

/-- The positions `0`, …, `n` as a cycle: one step on … -/
def onward (n i : ℕ) : ℕ := if i = n then 0 else i + 1

/-- … and one step back. -/
def backward (n i : ℕ) : ℕ := if i = 0 then n else i - 1

section Cycle

variable {n i : ℕ}

theorem onward_eq_mod (h : i ≤ n) : onward n i = (i + 1) % (n + 1) := by
  rw [onward]
  split
  · subst i
    rw [Nat.mod_self]
  · rw [Nat.mod_eq_of_lt (by omega)]

theorem backward_eq_mod (h : i ≤ n) : backward n i = (i + n) % (n + 1) := by
  rw [backward]
  split
  · subst i
    rw [Nat.zero_add, Nat.mod_eq_of_lt (Nat.lt_succ_self n)]
  · rw [show i + n = i - 1 + (n + 1) by omega, Nat.add_mod_right, Nat.mod_eq_of_lt (by omega)]

theorem onward_le (h : i ≤ n) : onward n i ≤ n := by
  rw [onward]
  split <;> omega

theorem backward_le (h : i ≤ n) : backward n i ≤ n := by
  rw [backward]
  split <;> omega

theorem backward_onward (n i : ℕ) : backward n (onward n i) = i := by
  rw [onward]
  split
  · rw [backward, if_pos rfl]
    omega
  · rw [backward, if_neg (Nat.succ_ne_zero i), Nat.add_sub_cancel]

theorem onward_backward (h : i ≤ n) : onward n (backward n i) = i := by
  rw [backward]
  split
  · rw [onward, if_pos rfl]
    omega
  · rw [onward, if_neg (by omega)]
    omega

/-- A step by `d` positions, taken `k` times. -/
theorem iterate_step {step : ℕ → ℕ} {d : ℕ} (hstep : ∀ j ≤ n, step j = (j + d) % (n + 1))
    (h : i ≤ n) (k : ℕ) : step^[k] i = (i + k * d) % (n + 1) := by
  induction k with
  | zero => simp [Nat.mod_eq_of_lt (Nat.lt_succ_of_le h)]
  | succ k ih =>
    have hle : (i + k * d) % (n + 1) ≤ n := Nat.le_of_lt_succ (Nat.mod_lt _ (Nat.succ_pos n))
    rw [Function.iterate_succ_apply', ih, hstep _ hle, Nat.mod_add_mod, Nat.succ_mul,
      Nat.add_assoc]

/-- `n + 1` of them lead back. -/
theorem iterate_around {step : ℕ → ℕ} {d : ℕ} (hstep : ∀ j ≤ n, step j = (j + d) % (n + 1))
    (h : i ≤ n) : step^[n + 1] i = i := by
  rw [iterate_step hstep h, Nat.add_mul_mod_self_left, Nat.mod_eq_of_lt (Nat.lt_succ_of_le h)]

end Cycle

/-! ## §3 A cursor on the cycle -/

namespace CursorMap

/-- The cursor stands at a position of the map. -/
structure At (m : BTreeMap Q V F) (i : ℕ) (c : CursorMap Q V F) : Prop where
  set : c.cursor.set = m.set
  idx : c.cursor.idx = i

/-- What a cursor on the cycle can rely on: its position is one of the entries or the ghost, the
moves undo each other and lead around, and the peeks show what the moves would reach. -/
structure OnCycle [FenwickTree F] (m : BTreeMap Q V F) (c : CursorMap Q V F) : Prop where
  le_len : c.cursor.idx ≤ m.set.len
  keyValue : c.keyValue = some (m.toList[c.cursor.idx]?.map fun p => (p.key, p.value))
  movePrev_moveNext : c.moveNext.movePrev = c
  moveNext_movePrev : c.movePrev.moveNext = c
  around_next : moveNext^[m.set.len + 1] c = c
  around_prev : movePrev^[m.set.len + 1] c = c
  peekNext : c.peekNext = c.moveNext.keyValue
  peekPrev : c.peekPrev = c.movePrev.keyValue

variable {m : BTreeMap Q V F} {c c' : CursorMap Q V F} {i : ℕ}

theorem At.eq (h : c.At m i) (h' : c'.At m i) : c = c' := by
  obtain ⟨⟨set, idx⟩⟩ := c
  obtain ⟨⟨set', idx'⟩⟩ := c'
  rw [show set = set' from h.set.trans h'.set.symm, show idx = idx' from h.idx.trans h'.idx.symm]

/-- `move_next` is a step on the cycle. -/
theorem At.moveNext (h : c.At m i) : c.moveNext.At m (onward m.set.len i) := by
  have hset := h.set
  rw [onward, ← h.idx, ← hset]
  by_cases hend : c.cursor.idx = c.cursor.set.len
  · rw [if_pos hend, CursorMap.moveNext, Cursor.moveNext, if_pos hend]
    exact ⟨hset, rfl⟩
  · rw [if_neg hend, CursorMap.moveNext, Cursor.moveNext, if_neg hend]
    exact ⟨hset, rfl⟩

/-- `move_prev` is a step back. -/
theorem At.movePrev (h : c.At m i) : c.movePrev.At m (backward m.set.len i) := by
  have hset := h.set
  rw [backward, ← h.idx, ← hset]
  by_cases hzero : c.cursor.idx = 0
  · rw [if_pos hzero, CursorMap.movePrev, Cursor.movePrev, if_pos hzero]
    exact ⟨hset, rfl⟩
  · rw [if_neg hzero, CursorMap.movePrev, Cursor.movePrev, if_neg hzero]
    exact ⟨hset, rfl⟩

/-- Several moves of a kind are several steps. -/
theorem At.iterate {move : CursorMap Q V F → CursorMap Q V F} {step : ℕ → ℕ}
    (hmove : ∀ c i, c.At m i → (move c).At m (step i)) (h : c.At m i) (k : ℕ) :
    (move^[k] c).At m (step^[k] i) := by
  induction k with
  | zero => exact h
  | succ k ih =>
    rw [Function.iterate_succ_apply', Function.iterate_succ_apply']
    exact hmove _ _ ih

/-- Wherever a cursor of the map is moved, it stays on the cycle. -/
theorem At.run (h : c.At m i) (hi : i ≤ m.set.len) (moves : List Move) :
    ∃ j ≤ m.set.len, (c.run moves).At m j := by
  induction moves generalizing c i with
  | nil => exact ⟨i, hi, h⟩
  | cons move moves ih =>
    cases move with
    | next => exact ih h.moveNext (onward_le hi)
    | prev => exact ih h.movePrev (backward_le hi)

variable [LinearOrder K] [Keyed Q K] [LawfulFenwickTree F]

/-- What a cursor shows. -/
theorem At.keyValue (hm : m.Valid) (h : c.At m i) :
    c.keyValue = some (m.toList[i]?.map fun p => (p.key, p.value)) := by
  rw [CursorMap.keyValue, Cursor.item, h.set, h.idx, BTreeSet.getIndex_spec hm, BTreeMap.toList]
  cases m.set.toList[i]? <;> rfl

/-- `peek_next` shows the entry a step on. -/
theorem At.peekNext (hm : m.Valid) (h : c.At m i) :
    c.peekNext = some (m.toList[onward m.set.len i]?.map fun p => (p.key, p.value)) := by
  rw [CursorMap.peekNext, Cursor.peekNext, onward, h.set, h.idx]
  by_cases hend : i = m.set.len
  · rw [if_pos hend, if_pos hend, BTreeSet.first_eq hm, List.head?_eq_getElem?]
    rfl
  · rw [if_neg hend, if_neg hend, BTreeSet.getIndex_spec hm]
    rfl

/-- `peek_prev` shows the entry a step back; before the first one that is the ghost. -/
theorem At.peekPrev (hm : m.Valid) (h : c.At m i) :
    c.peekPrev = some (m.toList[backward m.set.len i]?.map fun p => (p.key, p.value)) := by
  rw [CursorMap.peekPrev, Cursor.peekPrev, backward, h.set, h.idx]
  by_cases hzero : i = 0
  · have hghost : m.toList[m.set.len]? = none := List.getElem?_eq_none hm.len_eq.ge
    rw [if_pos hzero, if_pos hzero, hghost]
    rfl
  · rw [if_neg hzero, if_neg hzero, BTreeSet.getIndex_spec hm]
    rfl

/-- **A cursor on the cycle** has all these properties. -/
theorem At.onCycle (hm : m.Valid) (h : c.At m i) (hi : i ≤ m.set.len) : c.OnCycle m where
  le_len := h.idx.trans_le hi
  keyValue := by rw [h.keyValue hm, h.idx]
  movePrev_moveNext := by
    have hback := h.moveNext.movePrev
    rw [backward_onward] at hback
    exact hback.eq h
  moveNext_movePrev := by
    have hon := h.movePrev.moveNext
    rw [onward_backward hi] at hon
    exact hon.eq h
  around_next := by
    have hall := h.iterate (fun _ _ h => h.moveNext) (m.set.len + 1)
    rw [iterate_around (fun _ hj => onward_eq_mod hj) hi] at hall
    exact hall.eq h
  around_prev := by
    have hall := h.iterate (fun _ _ h => h.movePrev) (m.set.len + 1)
    rw [iterate_around (fun _ hj => backward_eq_mod hj) hi] at hall
    exact hall.eq h
  peekNext := by rw [h.peekNext hm, h.moveNext.keyValue hm]
  peekPrev := by rw [h.peekPrev hm, h.movePrev.keyValue hm]

end CursorMap

/-! ## §4 `lower_bound` -/

section LowerBound

variable [LinearOrder K] [Keyed Q K]

/-- The position of the first entry that satisfies the bound, or the ghost. -/
structure PointsAtFirst (m : BTreeMap Q V F) (bound : Bound K) (i : ℕ) : Prop where
  le_len : i ≤ m.set.len
  before : ∀ p ∈ m.toList.take i, ¬ bound.Starts (key p)
  first : ∀ p, m.toList[i]? = some p → bound.Starts (key p)

/-- The bound excludes a key that the map does not hold. -/
def ExcludesAbsent (m : BTreeMap Q V F) (bound : Bound K) : Prop :=
  ∃ k, bound = .excluded k ∧ ∀ p ∈ m.toList, key p ≠ k

variable [LawfulFenwickTree F] {m : BTreeMap Q V F} {bound : Bound K} {a b : List (Pair Q V)}

/-- The rank that `lower_bound` starts from. -/
theorem rank_start (hm : m.Valid) (q : K) :
    m.set.rankCmp (Pair.cmp q) = some (m.toList.filter fun p => key p < q).length :=
  BTreeMap.rank_spec hm q

section Cut

variable (hm : m.Valid) (hlist : m.toList = a ++ b) (ha : ∀ p ∈ a, ¬ bound.Starts (key p))
  (hb : ∀ p ∈ b, bound.Starts (key p))

include hm hlist ha hb

omit [LawfulFenwickTree F] hm in
/-- What lies before the bound, as a filter. -/
theorem length_before : (m.toList.filter fun p => ¬ bound.Starts (key p)).length = a.length := by
  have ha' : a.filter (fun p => ¬ bound.Starts (key p)) = a := by
    simpa [List.filter_eq_self] using ha
  have hb' : b.filter (fun p => ¬ bound.Starts (key p)) = [] := by
    simpa [List.filter_eq_nil_iff] using hb
  rw [hlist, List.filter_append, ha', hb', List.append_nil]

/-- An excluded key that is not there counts although nothing is left out for it. -/
theorem lowerBound_of_absent (habsent : ExcludesAbsent m bound) :
    m.lowerBound bound = some ⟨⟨m.set, a.length + 1⟩⟩ := by
  obtain ⟨k, rfl, habsent⟩ := habsent
  have hlen := length_before hlist ha hb
  simp only [Bound.Starts, not_lt, filter_le_eq (find_eq_none.mpr habsent)] at hlen
  simp only [BTreeMap.lowerBound, rank_start hm, hlen, Option.map_some, Option.bind_eq_bind,
    Option.bind_some, Option.pure_def]

/-- Otherwise the start position is right. -/
theorem lowerBound_of_not_absent (hnot : ¬ ExcludesAbsent m bound) :
    m.lowerBound bound = some ⟨⟨m.set, a.length⟩⟩ := by
  have hlen := length_before hlist ha hb
  cases bound with
  | included k =>
    simp only [Bound.Starts, not_le] at hlen
    simp only [BTreeMap.lowerBound, rank_start hm, hlen, Option.bind_eq_bind, Option.bind_some,
      Option.pure_def]
  | excluded k =>
    have hasc : Ascending key m.toList := hm.layout.ascending
    obtain ⟨x, hx⟩ : ∃ x, find key k m.toList = some x := by
      rw [← Option.ne_none_iff_exists']
      exact fun hnone => hnot ⟨k, rfl, find_eq_none.mp hnone⟩
    simp only [Bound.Starts, not_lt, length_filter_le hasc hx] at hlen
    simp only [BTreeMap.lowerBound, rank_start hm, hlen, Option.map_some, Option.bind_eq_bind,
      Option.bind_some, Option.pure_def]
  | unbounded =>
    simp only [Bound.Starts, not_true_eq_false, decide_false, List.filter_false,
      List.length_nil] at hlen
    simp only [BTreeMap.lowerBound, ← hlen, Option.bind_eq_bind, Option.bind_some,
      Option.pure_def]

omit ha in
/-- A position behind the first entry of the cut is too far. -/
theorem not_pointsAtFirst : ¬ PointsAtFirst m bound (a.length + 1) := by
  intro h
  have hle := h.le_len
  rw [hm.len_eq, show m.set.toList = a ++ b from hlist] at hle
  cases b with
  | nil =>
    rw [List.append_nil] at hle
    exact absurd hle (Nat.not_succ_le_self _)
  | cons x b =>
    refine h.before x ?_ (hb x (List.mem_cons_self ..))
    rw [hlist, List.take_append]
    simp

/-- The position of the cut is the right one. -/
theorem pointsAtFirst : PointsAtFirst m bound a.length where
  le_len := by
    rw [hm.len_eq, show m.set.toList = a ++ b from hlist, List.length_append]
    exact Nat.le_add_right _ _
  before p hp := by
    rw [hlist, List.take_left' rfl] at hp
    exact ha p hp
  first p hp := by
    rw [hlist, List.getElem?_append_right le_rfl, Nat.sub_self] at hp
    exact hb p (List.mem_of_getElem? hp)

end Cut

end LowerBound

/-- **`lower_bound`** points at the first entry that satisfies the bound, or at the ghost, and
every sequence of moves keeps the cursor on the cycle, if and only if the bound does not exclude
a key that the map does not hold. -/
theorem lowerBound_cursor_iff [LinearOrder K] [Keyed Q K] [LawfulFenwickTree F]
    (m : BTreeMap Q V F) (h : m.Valid) (bound : Bound K) :
    (∃ c, m.lowerBound bound = some c ∧ PointsAtFirst m bound c.cursor.idx ∧
        ∀ moves, (c.run moves).OnCycle m) ↔ ¬ ExcludesAbsent m bound := by
  have hasc : Ascending key m.toList := h.layout.ascending
  obtain ⟨a, b, hlist, ha, hb⟩ := hasc.cut_lower (p := fun k => ¬ bound.Starts k)
    fun _ _ hjk hk hj => hk (hj.mono hjk)
  simp only [not_not] at hb
  constructor
  · rintro ⟨c, hc, hfirst, -⟩ habsent
    obtain rfl := Option.some.inj ((lowerBound_of_absent h hlist ha hb habsent).symm.trans hc)
    exact not_pointsAtFirst h hlist hb hfirst
  · intro hnot
    have hfirst := pointsAtFirst h hlist ha hb
    refine ⟨_, lowerBound_of_not_absent h hlist ha hb hnot, hfirst, fun moves => ?_⟩
    have hat : CursorMap.At m a.length ⟨⟨m.set, a.length⟩⟩ := ⟨rfl, rfl⟩
    obtain ⟨j, hj, hrun⟩ := hat.run hfirst.le_len moves
    exact hrun.onCycle h hj

/-- A map with the keys 1, 3 and 5. -/
def threeEntries : BTreeMap ℕ ℕ CountList := ⟨⟨[[⟨1, 7⟩, ⟨3, 8⟩], [⟨5, 9⟩]], ⟨[2, 1]⟩, 2, 3⟩⟩

theorem threeEntries_produced : threeEntries.Produced :=
  .insert (k := 3) (v := 8) (r := none) (.insert (k := 1) (v := 7) (r := none)
    (.insert (k := 5) (v := 9) (r := none) (.withMaximumNodeSize 2 (by decide)) rfl) rfl) rfl

/-- Behind an excluded key that is there, and from an included one that is not. -/
theorem lowerBound_cursor_iff_threeEntries :
    (∃ c, threeEntries.lowerBound (.excluded 3) = some c ∧
        PointsAtFirst threeEntries (.excluded 3) c.cursor.idx ∧
        ∀ moves, (c.run moves).OnCycle threeEntries) ∧
      ∃ c, threeEntries.lowerBound (.included 6) = some c ∧
        PointsAtFirst threeEntries (.included 6) c.cursor.idx ∧
        ∀ moves, (c.run moves).OnCycle threeEntries := by
  have hvalid : threeEntries.Valid := threeEntries_produced.usable.1
  refine ⟨(lowerBound_cursor_iff threeEntries hvalid (.excluded 3)).mpr ?_,
    (lowerBound_cursor_iff threeEntries hvalid (.included 6)).mpr ?_⟩
  · rintro ⟨_, hbound, habsent⟩
    cases hbound
    exact habsent ⟨3, 8⟩ (by decide) rfl
  · rintro ⟨_, hbound, -⟩
    cases hbound

/-- `lower_bound(Excluded(&2))` skips the entry at `3`, and `lower_bound(Excluded(&6))` leaves
the cycle: `move_next` goes on to the position 5 of a map with three entries. -/
theorem lowerBound_skips :
    threeEntries.Produced ∧
      (threeEntries.lowerBound (.excluded 2)).bind CursorMap.keyValue = some (some (5, 9)) ∧
      (threeEntries.lowerBound (.excluded 6)).map (fun c => c.moveNext.cursor.idx) = some 5 ∧
      ¬ ∃ c, threeEntries.lowerBound (.excluded 2) = some c ∧
        PointsAtFirst threeEntries (.excluded 2) c.cursor.idx ∧
        ∀ moves, (c.run moves).OnCycle threeEntries := by
  have hidx : (threeEntries.lowerBound (.excluded 2)).map (fun c => c.cursor.idx) = some 2 := by
    decide +kernel
  refine ⟨threeEntries_produced, by decide +kernel, by decide +kernel, ?_⟩
  rintro ⟨c, hc, hfirst, -⟩
  rw [hc, Option.map_some, Option.some_inj] at hidx
  exact hfirst.before ⟨3, 8⟩ (by rw [hidx]; decide) (show 2 < 3 by decide)

end IndexSet
