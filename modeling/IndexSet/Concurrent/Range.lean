import IndexSet.Concurrent.Set
import IndexSet.Lib.KeyRange
import Mathlib.Data.Int.Notation

/-!
# Constructing a Range

`Range::new` of `concurrent/set.rs`, and the `rank` of `core/node.rs` it looks into the
nodes with.  The bounds are of a type `Q` that the elements are borrowed as.

The construction takes several mutexes one after the other, so it is cut at these points:
`RangePhase` says which entry it goes for next, and `RangePhase.run` what it does once it
has that node.  `frontOf` and `backOf` are the lookups of the two ends, `meet` the
check at the end for a range that lies outside all elements.
-/

namespace IndexSet.Concurrent

open KeyedList

variable {M T K Q : Type} [LinearOrder K] [Keyed T K] [LinearOrder Q]

/-! ## §1 `NodeLike::rank` -/

/-- The loops of `compute_positions_to_skip`: the forward one passes `Less`, the backward
one `Greater`. -/
def skipLoop (borrow : T → Q) (value : Q) (excluded : Bool) (passed : Ordering) :
    List T → ℤ → ℤ
  | [], positionsToSkip => positionsToSkip
  | item :: items, positionsToSkip =>
    match compare (borrow item) value with
    | .eq =>
      if excluded then skipLoop borrow value excluded passed items (positionsToSkip + 1)
      else positionsToSkip
    | order =>
      if order = passed then skipLoop borrow value excluded passed items (positionsToSkip + 1)
      else positionsToSkip

/-- `fn compute_positions_to_skip`. -/
def computePositionsToSkip (borrow : T → Q) (haystack : List T) (bound : Bound Q)
    (forward : Bool) : Option ℕ :=
  let skip (value : Q) (excluded : Bool) : Option ℕ :=
    let positionsToSkip :=
      if forward then skipLoop borrow value excluded .lt haystack (-1)
      else skipLoop borrow value excluded .gt haystack.reverse (-1)
    if 0 ≤ positionsToSkip then some positionsToSkip.toNat else none
  match bound with
  | .unbounded => none
  | .included value => skip value false
  | .excluded value => skip value true

/-- `Vec::rank`. -/
def Node.rank (borrow : T → Q) (l : List T) (bound : Bound Q) (forward : Bool) : Option ℕ :=
  computePositionsToSkip borrow l bound forward

/-- The loop counts the leading items it passes. -/
theorem skipLoop_eq {borrow : T → Q} {value : Q} {excluded : Bool} {passed : Ordering}
    {passes : T → Bool} (hpasses : ∀ x, passes x = match compare (borrow x) value with
      | .eq => excluded
      | order => decide (order = passed)) (l : List T) (skipped : ℤ) :
    skipLoop borrow value excluded passed l skipped =
      skipped + (l.takeWhile passes).length := by
  induction l generalizing skipped with
  | nil => simp [skipLoop]
  | cons x l ih =>
    have hstep : skipLoop borrow value excluded passed (x :: l) skipped =
        if passes x then skipLoop borrow value excluded passed l (skipped + 1) else skipped := by
      rw [skipLoop, hpasses]
      cases compare (borrow x) value <;> simp
    rw [hstep, List.takeWhile_cons]
    split
    · rw [ih, List.length_cons]
      omega
    · simp

/-- What is made of the number of items passed. -/
theorem toNat_skipped (n : ℕ) :
    (if 0 ≤ (-1 : ℤ) + n then some (-1 + (n : ℤ)).toNat else none) =
      if n = 0 then none else some (n - 1) := by
  by_cases hn : n = 0
  · simp [hn]
  · rw [if_pos (by omega), if_neg hn]
    exact congrArg some (by omega)

/-- Which keys the loops pass: below the value, not above it, above it, not below it. -/
theorem passes_eq (k value : Q) :
    let passes (excluded : Bool) (passed : Ordering) : Bool := match compare k value with
      | .eq => excluded
      | order => decide (order = passed)
    decide (k < value) = passes false .lt ∧ decide (k ≤ value) = passes true .lt ∧
      decide (value < k) = passes false .gt ∧ decide (value ≤ k) = passes true .gt := by
  rcases lt_trichotomy k value with hlt | heq | hgt
  · simp [compare_lt_iff_lt.mpr hlt, hlt, hlt.le]
  · simp [heq]
  · simp [compare_gt_iff_gt.mpr hgt, hgt, hgt.le]

omit [LinearOrder Q] in
theorem takeWhile_false (l : List T) : l.takeWhile (fun _ => false) = [] := by cases l <;> rfl

/-- Forward the rank is that of the last item before the bound. -/
theorem rank_forward (borrow : T → Q) (l : List T) (bound : Bound Q) :
    Node.rank borrow l bound true =
      if (l.takeWhile fun x => ¬ bound.Starts (borrow x)).length = 0 then none
      else some ((l.takeWhile fun x => ¬ bound.Starts (borrow x)).length - 1) := by
  rw [← toNat_skipped]
  cases bound with
  | unbounded => simp [Node.rank, computePositionsToSkip, Bound.Starts, takeWhile_false]
  | included v =>
    simp only [Node.rank, computePositionsToSkip, if_true, Bound.Starts, not_le,
      skipLoop_eq fun x => (passes_eq (borrow x) v).1]
  | excluded v =>
    simp only [Node.rank, computePositionsToSkip, if_true, Bound.Starts, not_lt,
      skipLoop_eq fun x => (passes_eq (borrow x) v).2.1]

/-- Backward it is that of the first item behind the bound, from the back. -/
theorem rank_backward (borrow : T → Q) (l : List T) (bound : Bound Q) :
    Node.rank borrow l bound false =
      if (l.reverse.takeWhile fun x => ¬ bound.Ends (borrow x)).length = 0 then none
      else some ((l.reverse.takeWhile fun x => ¬ bound.Ends (borrow x)).length - 1) := by
  rw [← toNat_skipped]
  cases bound with
  | unbounded => simp [Node.rank, computePositionsToSkip, Bound.Ends, takeWhile_false]
  | included v =>
    simp only [Node.rank, computePositionsToSkip, Bool.false_eq_true, if_false, Bound.Ends, not_le,
      skipLoop_eq fun x => (passes_eq (borrow x) v).2.2.1]
  | excluded v =>
    simp only [Node.rank, computePositionsToSkip, Bool.false_eq_true, if_false, Bound.Ends, not_lt,
      skipLoop_eq fun x => (passes_eq (borrow x) v).2.2.2]

theorem takeWhile_cut {p : T → Bool} {a b : List T} (ha : ∀ x ∈ a, p x) (hb : ∀ x ∈ b, ¬ p x) :
    (a ++ b).takeWhile p = a := by
  rw [List.takeWhile_append_of_pos ha]
  cases b with
  | nil => simp
  | cons x b => simp [hb x (List.mem_cons_self ..)]

/-- In a node that a start bound cuts. -/
theorem rank_forward_cut {borrow : T → Q} {bound : Bound Q} {a b : List T}
    (ha : ∀ x ∈ a, ¬ bound.Starts (borrow x)) (hb : ∀ x ∈ b, bound.Starts (borrow x)) :
    Node.rank borrow (a ++ b) bound true =
      if a.length = 0 then none else some (a.length - 1) := by
  rw [rank_forward, takeWhile_cut (fun x hx => decide_eq_true (ha x hx))
    fun x hx => by simpa using hb x hx]

/-- In a node that an end bound cuts. -/
theorem rank_backward_cut {borrow : T → Q} {bound : Bound Q} {a b : List T}
    (ha : ∀ x ∈ a, bound.Ends (borrow x)) (hb : ∀ x ∈ b, ¬ bound.Ends (borrow x)) :
    Node.rank borrow (a ++ b) bound false =
      if b.length = 0 then none else some (b.length - 1) := by
  rw [rank_backward, List.reverse_append, takeWhile_cut
    (fun x hx => decide_eq_true (hb x (List.mem_reverse.mp hx)))
    fun x hx => by simpa using ha x (List.mem_reverse.mp hx), List.length_reverse]

/-! ## §2 Neighbours in the index -/

section Index

variable [SkipMap M T K]

/-- `current_back_entry`. -/
def backEntry (borrow : T → Q) (index : M) (bound : Bound Q) : Option (T × NodeId) :=
  let found := match SkipMap.upperBoundOf borrow index bound with
    | some e => (SkipMap.next index e).or (SkipMap.back index)
    | none => none
  found.or (SkipMap.front index)

end Index

section Lookups

variable [LawfulSkipMap M T K] {borrow : T → Q} {index : M} {bound : Bound Q}
  {a b : List (T × NodeId)} {e : T × NodeId}

/-- In an index that a start bound cuts. -/
theorem lowerBoundOf_cut (hborrow : Coarsens borrow) (hiter : SkipMap.iter index = a ++ b)
    (ha : ∀ p ∈ a, ¬ bound.Starts (borrow p.1)) (hb : ∀ p ∈ b, bound.Starts (borrow p.1)) :
    SkipMap.lowerBoundOf borrow index bound = b.head? := by
  have hnone : a.find? (fun p => bound.Starts (borrow p.1)) = none := by
    simpa [List.find?_eq_none] using ha
  rw [LawfulSkipMap.lowerBoundOf_eq hborrow, hiter, List.find?_append, hnone, Option.none_or]
  cases b with
  | nil => rfl
  | cons p b => simp [hb p (List.mem_cons_self ..)]

/-- In an index that an end bound cuts. -/
theorem upperBoundOf_cut (hborrow : Coarsens borrow) (hiter : SkipMap.iter index = a ++ b)
    (ha : ∀ p ∈ a, bound.Ends (borrow p.1)) (hb : ∀ p ∈ b, ¬ bound.Ends (borrow p.1)) :
    SkipMap.upperBoundOf borrow index bound = a.getLast? := by
  have hnone : b.reverse.find? (fun p => bound.Ends (borrow p.1)) = none := by
    simpa [List.find?_eq_none] using hb
  rw [LawfulSkipMap.upperBoundOf_eq hborrow, hiter, List.reverse_append, List.find?_append, hnone,
    Option.none_or]
  rcases List.eq_nil_or_concat' a with rfl | ⟨a, p, rfl⟩
  · rfl
  · simp [ha p (by simp)]

theorem next_cut (hiter : SkipMap.iter index = a ++ e :: b) :
    SkipMap.next index e = b.head? := by
  have hasc := LawfulSkipMap.iter_ascending index
  rw [hiter] at hasc
  obtain ⟨-, -, ha, hb⟩ := ascending_append_cons.mp hasc
  have hnone : a.find? (fun p => entryKey e < entryKey p) = none := by
    simpa [List.find?_eq_none] using fun p q hp => (ha (p, q) hp).le
  rw [LawfulSkipMap.next_eq, hiter, List.find?_append, hnone, Option.none_or,
    List.find?_cons_of_neg (by simp)]
  cases b with
  | nil => rfl
  | cons p b => simp [hb p (List.mem_cons_self ..)]

theorem prev_cut (hiter : SkipMap.iter index = a ++ e :: b) :
    SkipMap.prev index e = a.getLast? := by
  have hasc := LawfulSkipMap.iter_ascending index
  rw [hiter] at hasc
  obtain ⟨-, -, ha, hb⟩ := ascending_append_cons.mp hasc
  have hnone : (b.reverse ++ [e]).find? (fun p => entryKey p < entryKey e) = none := by
    simpa [List.find?_eq_none] using fun p q hp => (hb (p, q) hp).le
  rw [LawfulSkipMap.prev_eq, hiter, List.reverse_append, List.reverse_cons, List.find?_append,
    hnone, Option.none_or]
  rcases List.eq_nil_or_concat' a with rfl | ⟨a, p, rfl⟩
  · rfl
  · simp [ha p (by simp)]

end Lookups

/-! ## §3 The construction -/

/-- The `Iter` a `Range` is built with: both guards and slices are absent. -/
structure Range (T : Type) where
  currentFrontNode : Option NodeId
  currentBackNode : Option NodeId
  currentFrontValue : Option T
  currentBackValue : Option T
  met : Bool
  deriving DecidableEq

/-- Where a construction stands. -/
inductive RangePhase (T : Type) where
  /-- It asks for the index lock. -/
  | start
  | front (entry : T × NodeId)
  /-- It has the front node and goes for the one before it. -/
  | preFront (entry prev : T × NodeId)
  | back (frontNode : Option NodeId) (frontValue : Option T) (entry : T × NodeId)
  /-- It has the back node and goes for the one behind it. -/
  | postBack (frontNode : Option NodeId) (frontValue : Option T) (entry next : T × NodeId)
  /-- Neither end has a value: it goes for the last and the first node of the index. -/
  | last (range : Range T) (entry : T × NodeId)
  | first (range : Range T) (entry : T × NodeId)
  deriving DecidableEq

/-- What follows a step of a construction. -/
abbrev RangeNext (T : Type) := RangePhase T ⊕ Range T

namespace BTreeSet

variable [SkipMap M T K] (s : BTreeSet M T) (borrow : T → Q) (lo hi : Bound Q)

/-- The check against the first node, after the one against the last. -/
def toFirst (range : Range T) : RangeNext T :=
  match SkipMap.front s.index with
  | some e => .inl (.first range e)
  | none => .inr range

/-- Both ends are known: the checks at the end, if they are made. -/
def toLast (range : Range T) : RangeNext T :=
  if range.currentFrontValue.isNone ∧ range.currentBackValue.isNone ∧
      (lo ≠ .unbounded ∨ hi ≠ .unbounded) then
    match SkipMap.back s.index with
    | some e => .inl (.last range e)
    | none => s.toFirst range
  else .inr range

/-- The front end is known: the lookup of the back end. -/
def toBack (frontNode : Option NodeId) (frontValue : Option T) : RangeNext T :=
  match backEntry borrow s.index hi with
  | some e => .inl (.back frontNode frontValue e)
  | none => s.toLast lo hi ⟨frontNode, none, frontValue, none, false⟩

/-- A phase of `Range::new`, run with the mutexes it asks for. -/
def rangeTurn : RangePhase T → RangeNext T
  | .start =>
    match SkipMap.lowerBoundOf borrow s.index lo with
    | some e => .inl (.front e)
    | none => s.toBack borrow lo hi none none
  | .front e =>
    match Node.rank borrow (s.nodes e.2) lo true with
    | some rank => s.toBack borrow lo hi (some e.2) (s.nodes e.2)[rank]?
    | none =>
      match SkipMap.prev s.index e with
      | some p => .inl (.preFront e p)
      | none => s.toBack borrow lo hi (some e.2) none
  | .preFront e p => s.toBack borrow lo hi (some e.2) (s.nodes p.2).getLast?
  | .back frontNode frontValue e =>
    match Node.rank borrow (s.nodes e.2) hi false with
    | some rank =>
      s.toLast lo hi ⟨frontNode, some e.2, frontValue, (s.nodes e.2).reverse[rank]?, false⟩
    | none =>
      match SkipMap.next s.index e with
      | some n => .inl (.postBack frontNode frontValue e n)
      | none => s.toLast lo hi ⟨frontNode, some e.2, frontValue, none, false⟩
  | .postBack frontNode frontValue e n =>
    s.toLast lo hi ⟨frontNode, some e.2, frontValue, (s.nodes n.2).head?, false⟩
  | .last range e =>
    let met := match Node.max (s.nodes e.2), lo with
      | some max, .included v => range.met || decide (borrow max < v)
      | some max, .excluded v => range.met || decide (borrow max ≤ v)
      | _, _ => range.met
    s.toFirst { range with met }
  | .first range e =>
    let met := match (s.nodes e.2).head?, hi with
      | some min, .included v => range.met || decide (v < borrow min)
      | some min, .excluded v => range.met || decide (v ≤ borrow min)
      | _, _ => range.met
    .inr { range with met }

end BTreeSet

end IndexSet.Concurrent
