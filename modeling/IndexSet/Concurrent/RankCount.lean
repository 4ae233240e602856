import IndexSet.Concurrent.Range
import Mathlib.Algebra.Ring.Int.Defs

/-!
# What `rank` Counts

`compute_positions_to_skip` of `core/node.rs` counts the items it passes from minus one on, in
a variable that only a literal and a cast give a type to: an `i32`.

- §1 the loops with the additions of `i32`;
- §2 the counter after so many items;
- §3 on a sorted node the items passed are those on one side of the bound;
- §4 the counts are right up to `2³¹` items.
-/

namespace IndexSet.Concurrent

open KeyedList

variable {T Q : Type} [LinearOrder Q]

/-! ## §1 Counting in `i32` -/

/-- `a + b` for `i32`: a sum out of range panics when the crate is built with overflow checks,
and wraps when it is not. -/
def i32Add (overflowChecks : Bool) (a b : ℤ) : Option ℤ :=
  if -2 ^ 31 ≤ a + b ∧ a + b < 2 ^ 31 then some (a + b)
  else if overflowChecks then none
  else some ((a + b).bmod (2 ^ 32))

/-- The loops of `compute_positions_to_skip`; `none` is a panic. -/
def skipLoopI32 (overflowChecks : Bool) (borrow : T → Q) (value : Q) (excluded : Bool)
    (passed : Ordering) : List T → ℤ → Option ℤ
  | [], positionsToSkip => some positionsToSkip
  | item :: items, positionsToSkip =>
    match compare (borrow item) value with
    | .eq =>
      if excluded then
        (i32Add overflowChecks positionsToSkip 1).bind
          (skipLoopI32 overflowChecks borrow value excluded passed items)
      else some positionsToSkip
    | order =>
      if order = passed then
        (i32Add overflowChecks positionsToSkip 1).bind
          (skipLoopI32 overflowChecks borrow value excluded passed items)
      else some positionsToSkip

/-- `Vec::rank`, by `compute_positions_to_skip`; the outer `none` is a panic. -/
def Node.rankI32 (overflowChecks : Bool) (borrow : T → Q) (haystack : List T) (bound : Bound Q)
    (forward : Bool) : Option (Option ℕ) :=
  let skip (value : Q) (excluded : Bool) : Option (Option ℕ) :=
    let positionsToSkip :=
      if forward then skipLoopI32 overflowChecks borrow value excluded .lt haystack (-1)
      else skipLoopI32 overflowChecks borrow value excluded .gt haystack.reverse (-1)
    positionsToSkip.map fun positionsToSkip =>
      if 0 ≤ positionsToSkip then some positionsToSkip.toNat else none
  match bound with
  | .unbounded => some none
  | .included value => skip value false
  | .excluded value => skip value true

/-! ## §2 The counter -/

/-- The counter after `n` items, from `c` on. -/
def counted (overflowChecks : Bool) (c : ℤ) (n : ℕ) : Option ℤ :=
  if c + n < 2 ^ 31 then some (c + n)
  else if overflowChecks then none
  else some ((c + n).bmod (2 ^ 32))

theorem counted_zero (overflowChecks : Bool) {c : ℤ} (hc : c < 2 ^ 31) :
    counted overflowChecks c 0 = some c := by
  rw [counted, if_pos (by omega)]
  exact congrArg some (Int.add_zero c)

/-- One item more. -/
theorem counted_succ (overflowChecks : Bool) {c : ℤ} (hc : -2 ^ 31 ≤ c) (hc' : c < 2 ^ 31)
    (n : ℕ) : (i32Add overflowChecks c 1).bind (counted overflowChecks · n) =
      counted overflowChecks c (n + 1) := by
  have hnext : c + 1 + (n : ℤ) = c + (n + 1 : ℕ) := by omega
  by_cases hroom : c + 1 < 2 ^ 31
  · rw [i32Add, if_pos ⟨by omega, hroom⟩, Option.bind_some, counted, counted, hnext]
  · have hover : ¬ c + (n + 1 : ℕ) < 2 ^ 31 := by omega
    rw [i32Add, if_neg fun h => hroom h.2]
    cases overflowChecks with
    | true => exact (if_neg hover).symm
    | false =>
      have hwrapped : (c + 1).bmod (2 ^ 32) = -2 ^ 31 := by
        rw [show c + 1 = 2 ^ 31 by omega]
        decide
      have hsum : (-2 ^ 31 + n : ℤ).bmod (2 ^ 32) = (c + (n + 1 : ℕ)).bmod (2 ^ 32) := by
        rw [← hwrapped, Int.bmod_add_bmod, hnext]
      simp only [Bool.false_eq_true, if_false, Option.bind_some, hwrapped, counted, if_neg hover]
      split_ifs with hlt
      · rw [← hsum, Int.bmod_eq_of_le_mul_two (by omega) (by omega)]
      · rw [hsum]

/-- The loop counts the leading items it passes. -/
theorem skipLoopI32_eq {overflowChecks : Bool} {borrow : T → Q} {value : Q} {excluded : Bool}
    {passed : Ordering} {passes : T → Bool}
    (hpasses : ∀ x, passes x = match compare (borrow x) value with
      | .eq => excluded
      | order => decide (order = passed)) (l : List T) {c : ℤ} (hc : -2 ^ 31 ≤ c)
    (hc' : c < 2 ^ 31) :
    skipLoopI32 overflowChecks borrow value excluded passed l c =
      counted overflowChecks c (l.takeWhile passes).length := by
  induction l generalizing c with
  | nil => exact (counted_zero overflowChecks hc').symm
  | cons x l ih =>
    have hstep : skipLoopI32 overflowChecks borrow value excluded passed (x :: l) c =
        if passes x then (i32Add overflowChecks c 1).bind
          (skipLoopI32 overflowChecks borrow value excluded passed l) else some c := by
      rw [skipLoopI32, hpasses]
      cases compare (borrow x) value <;> simp
    rw [hstep, List.takeWhile_cons]
    split
    · rw [List.length_cons, ← counted_succ overflowChecks hc hc']
      cases hnext : i32Add overflowChecks c 1 with
      | none => rfl
      | some d =>
        have hd : -2 ^ 31 ≤ d ∧ d < 2 ^ 31 := by
          rw [i32Add] at hnext
          split_ifs at hnext with hrange hchecks
          · cases hnext
            exact hrange
          · cases hnext
            exact ⟨Int.le_bmod (by decide), Int.bmod_lt (by decide)⟩
        exact ih hd.1 hd.2
    · exact (counted_zero overflowChecks hc').symm

/-- In a vector of at most `2³¹` elements the ranks are those of the nodes' model. -/
theorem rankI32_eq_rank (overflowChecks : Bool) (borrow : T → Q) {l : List T}
    (hlen : l.length ≤ 2 ^ 31) (bound : Bound Q) (forward : Bool) :
    Node.rankI32 overflowChecks borrow l bound forward =
      some (Node.rank borrow l bound forward) := by
  -- the loops agree on any part of the vector, in either direction
  have hloop : ∀ (value : Q) (excluded : Bool) (passed : Ordering) (items : List T),
      items.length ≤ 2 ^ 31 →
      skipLoopI32 overflowChecks borrow value excluded passed items (-1) =
        some (skipLoop borrow value excluded passed items (-1)) := by
    intro value excluded passed items hitems
    rw [skipLoopI32_eq (fun _ => rfl) items (by decide) (by decide), skipLoop_eq fun _ => rfl]
    have hle := (List.takeWhile_sublist (l := items) fun x =>
      match compare (borrow x) value with
      | .eq => excluded
      | order => decide (order = passed)).length_le
    exact if_pos (by omega)
  have hskip : ∀ (value : Q) (excluded : Bool),
      (if forward then skipLoopI32 overflowChecks borrow value excluded .lt l (-1)
        else skipLoopI32 overflowChecks borrow value excluded .gt l.reverse (-1)) =
      some (if forward then skipLoop borrow value excluded .lt l (-1)
        else skipLoop borrow value excluded .gt l.reverse (-1)) := by
    intro value excluded
    cases forward with
    | true => exact hloop value excluded .lt l hlen
    | false => exact hloop value excluded .gt l.reverse (by rwa [List.length_reverse])
  cases bound with
  | unbounded => rfl
  | included value =>
    simp only [Node.rankI32, Node.rank, computePositionsToSkip, hskip, Option.map_some]
  | excluded value =>
    simp only [Node.rankI32, Node.rank, computePositionsToSkip, hskip, Option.map_some]

/-- In the nodes of the index a rank is what the model says, in a build with overflow checks and in
one without. -/
def BTreeSet.RanksExact {M K : Type} [LinearOrder K] [Keyed T K] [SkipMap M T K] (borrow : T → Q)
    (s : BTreeSet M T) : Prop :=
  ∀ overflowChecks, ∀ e ∈ SkipMap.iter s.index, ∀ bound forward,
    Node.rankI32 overflowChecks borrow (s.nodes e.2) bound forward =
      some (Node.rank borrow (s.nodes e.2) bound forward)

/-- No node of the index has more than `2³¹` elements. -/
def BTreeSet.NodesFit {M K : Type} [LinearOrder K] [Keyed T K] [SkipMap M T K]
    (s : BTreeSet M T) : Prop :=
  ∀ e ∈ SkipMap.iter s.index, (s.nodes e.2).length ≤ 2 ^ 31

instance BTreeSet.decidableNodesFit {M K : Type} [LinearOrder K] [Keyed T K] [SkipMap M T K]
    (s : BTreeSet M T) : Decidable s.NodesFit :=
  inferInstanceAs (Decidable (∀ e ∈ SkipMap.iter s.index, (s.nodes e.2).length ≤ 2 ^ 31))

/-- So it is when the nodes are that small. -/
theorem BTreeSet.NodesFit.ranksExact {M K : Type} [LinearOrder K] [Keyed T K] [SkipMap M T K]
    {s : BTreeSet M T} (hlen : s.NodesFit) (borrow : T → Q) : s.RanksExact borrow :=
  fun overflowChecks e he => rankI32_eq_rank overflowChecks borrow (hlen e he)

/-- `None` for no items, and otherwise the position of the last one. -/
def lastOf (n : ℕ) : Option ℕ := if n = 0 then none else some (n - 1)

/-- What `compute_positions_to_skip` makes of the counter after `n` items. -/
def rankOf (overflowChecks : Bool) (n : ℕ) : Option (Option ℕ) :=
  (counted overflowChecks (-1) n).map fun p => if 0 ≤ p then some p.toNat else none

/-- It is the count of the items up to `2³¹` of them, and never beyond. -/
theorem rankOf_eq_iff (overflowChecks : Bool) (n : ℕ) :
    rankOf overflowChecks n = some (lastOf n) ↔ n ≤ 2 ^ 31 := by
  by_cases hn : n ≤ 2 ^ 31
  · have hroom : (-1 : ℤ) + n < 2 ^ 31 := by omega
    rw [rankOf, counted, if_pos hroom, Option.map_some, toNat_skipped]
    exact iff_of_true rfl hn
  · have hover : ¬ (-1 : ℤ) + n < 2 ^ 31 := by omega
    have hlast : lastOf n = some (n - 1) := if_neg (by omega)
    refine iff_of_false (fun h => ?_) hn
    rw [rankOf, counted, if_neg hover, hlast] at h
    cases overflowChecks with
    | true => simp at h
    | false =>
      have hlt : (-1 + n : ℤ).bmod (2 ^ 32) < 2 ^ 31 := Int.bmod_lt (by decide)
      simp only [Bool.false_eq_true, if_false, Option.map_some, Option.some.injEq] at h
      split_ifs at h with hle
      rw [Option.some.injEq] at h
      omega

/-! ## §3 Sorted nodes -/

omit [LinearOrder Q] in
/-- A property that holds up to some place of a list holds of as many items as it has at the
front. -/
theorem length_takeWhile_of_pairwise {p : T → Bool} {l : List T}
    (h : l.Pairwise fun x y => p y = true → p x = true) :
    (l.takeWhile p).length = l.countP p := by
  induction l with
  | nil => rfl
  | cons x l ih =>
    obtain ⟨hx, hl⟩ := List.pairwise_cons.mp h
    by_cases hpx : p x = true
    · rw [List.takeWhile_cons_of_pos hpx, List.countP_cons_of_pos hpx, List.length_cons, ih hl]
    · rw [List.takeWhile_cons_of_neg hpx, List.countP_cons_of_neg hpx]
      exact (List.countP_eq_zero.mpr fun y hy hpy => hpx (hx y hy hpy)).symm

section Sorted

variable (overflowChecks : Bool) {borrow : T → Q} {l : List T} (q : Q)

/-- Forward, the items before the bound are passed. -/
theorem rankI32_forward (h : l.Pairwise fun x y => borrow x ≤ borrow y) :
    Node.rankI32 overflowChecks borrow l (.included q) true =
        rankOf overflowChecks (l.countP fun x => borrow x < q) ∧
      Node.rankI32 overflowChecks borrow l (.excluded q) true =
        rankOf overflowChecks (l.countP fun x => borrow x ≤ q) := by
  have hlt : l.Pairwise fun x y => decide (borrow y < q) = true → decide (borrow x < q) = true :=
    h.imp fun hxy hy => decide_eq_true (hxy.trans_lt (of_decide_eq_true hy))
  have hle : l.Pairwise fun x y => decide (borrow y ≤ q) = true → decide (borrow x ≤ q) = true :=
    h.imp fun hxy hy => decide_eq_true (hxy.trans (of_decide_eq_true hy))
  constructor
  · rw [← length_takeWhile_of_pairwise hlt]
    exact congrArg (Option.map _)
      (skipLoopI32_eq (fun x => (passes_eq (borrow x) q).1) l (by decide) (by decide))
  · rw [← length_takeWhile_of_pairwise hle]
    exact congrArg (Option.map _)
      (skipLoopI32_eq (fun x => (passes_eq (borrow x) q).2.1) l (by decide) (by decide))

/-- Backward, those behind it. -/
theorem rankI32_backward (h : l.Pairwise fun x y => borrow x ≤ borrow y) :
    Node.rankI32 overflowChecks borrow l (.included q) false =
        rankOf overflowChecks (l.countP fun x => q < borrow x) ∧
      Node.rankI32 overflowChecks borrow l (.excluded q) false =
        rankOf overflowChecks (l.countP fun x => q ≤ borrow x) := by
  have hreverse : l.reverse.Pairwise fun x y => borrow y ≤ borrow x := List.pairwise_reverse.mpr h
  have hlt : l.reverse.Pairwise fun x y =>
      decide (q < borrow y) = true → decide (q < borrow x) = true :=
    hreverse.imp fun hyx hy => decide_eq_true ((of_decide_eq_true hy).trans_le hyx)
  have hle : l.reverse.Pairwise fun x y =>
      decide (q ≤ borrow y) = true → decide (q ≤ borrow x) = true :=
    hreverse.imp fun hyx hy => decide_eq_true ((of_decide_eq_true hy).trans hyx)
  constructor
  · rw [← List.countP_reverse, ← length_takeWhile_of_pairwise hlt]
    exact congrArg (Option.map _)
      (skipLoopI32_eq (fun x => (passes_eq (borrow x) q).2.2.1) l.reverse (by decide) (by decide))
  · rw [← List.countP_reverse, ← length_takeWhile_of_pairwise hle]
    exact congrArg (Option.map _)
      (skipLoopI32_eq (fun x => (passes_eq (borrow x) q).2.2.2) l.reverse (by decide) (by decide))

end Sorted

/-! ## §4 The counts -/

/-- `None` read as minus one. -/
def orMinusOne : Option ℕ → ℤ
  | some n => n
  | none => -1

theorem orMinusOne_lastOf (n : ℕ) : orMinusOne (lastOf n) = n - 1 := by
  rw [lastOf]
  split
  next h => simp [orMinusOne, h]
  next h =>
    rw [orMinusOne]
    omega

/-- **What `rank` should count** for a query: the elements on the far side of each bound, so
that the results for complementary bounds add up to two less than there are elements. -/
structure RankCounts (overflowChecks : Bool) (borrow : T → Q) (l : List T) (q : Q) : Prop where
  includedForward : Node.rankI32 overflowChecks borrow l (.included q) true =
    some (lastOf (l.countP fun x => borrow x < q))
  excludedForward : Node.rankI32 overflowChecks borrow l (.excluded q) true =
    some (lastOf (l.countP fun x => borrow x ≤ q))
  includedBackward : Node.rankI32 overflowChecks borrow l (.included q) false =
    some (lastOf (l.countP fun x => q < borrow x))
  excludedBackward : Node.rankI32 overflowChecks borrow l (.excluded q) false =
    some (lastOf (l.countP fun x => q ≤ borrow x))
  fromIncluded : ∃ forward backward,
    Node.rankI32 overflowChecks borrow l (.included q) true = some forward ∧
      Node.rankI32 overflowChecks borrow l (.excluded q) false = some backward ∧
      orMinusOne forward + orMinusOne backward = l.length - 2
  fromExcluded : ∃ forward backward,
    Node.rankI32 overflowChecks borrow l (.excluded q) true = some forward ∧
      Node.rankI32 overflowChecks borrow l (.included q) false = some backward ∧
      orMinusOne forward + orMinusOne backward = l.length - 2

section Counts

variable {overflowChecks : Bool} {borrow : T → Q} {l : List T}

/-- The elements on the two sides of a query. -/
theorem countP_sides (borrow : T → Q) (l : List T) (q : Q) :
    (l.countP fun x => borrow x < q) + (l.countP fun x => q ≤ borrow x) = l.length ∧
      (l.countP fun x => borrow x ≤ q) + (l.countP fun x => q < borrow x) = l.length := by
  constructor
  · rw [List.length_eq_countP_add_countP fun x => decide (borrow x < q)]
    simp
  · rw [List.length_eq_countP_add_countP fun x => decide (borrow x ≤ q)]
    simp

/-- **`rank` counts the skipped elements** of a sorted vector if and only if at most `2³¹`
elements are not greater than the query and at most as many are not less. -/
theorem rank_counts_iff (hsorted : l.Pairwise fun x y => borrow x ≤ borrow y) (q : Q) :
    RankCounts overflowChecks borrow l q ↔
      (l.countP fun x => borrow x ≤ q) ≤ 2 ^ 31 ∧ (l.countP fun x => q ≤ borrow x) ≤ 2 ^ 31 := by
  obtain ⟨hincluded, hexcluded⟩ := rankI32_forward overflowChecks q hsorted
  obtain ⟨hincluded', hexcluded'⟩ := rankI32_backward overflowChecks q hsorted
  constructor
  · intro h
    constructor
    · rw [← rankOf_eq_iff overflowChecks, ← hexcluded]
      exact h.excludedForward
    · rw [← rankOf_eq_iff overflowChecks, ← hexcluded']
      exact h.excludedBackward
  · rintro ⟨hbelow, habove⟩
    have hless : (l.countP fun x => borrow x < q) ≤ 2 ^ 31 :=
      (List.countP_mono_left fun x _ hx => by simpa using (of_decide_eq_true hx).le).trans hbelow
    have hgreater : (l.countP fun x => q < borrow x) ≤ 2 ^ 31 :=
      (List.countP_mono_left fun x _ hx => by simpa using (of_decide_eq_true hx).le).trans habove
    have h₁ := hincluded.trans ((rankOf_eq_iff overflowChecks _).mpr hless)
    have h₂ := hexcluded.trans ((rankOf_eq_iff overflowChecks _).mpr hbelow)
    have h₃ := hincluded'.trans ((rankOf_eq_iff overflowChecks _).mpr hgreater)
    have h₄ := hexcluded'.trans ((rankOf_eq_iff overflowChecks _).mpr habove)
    have ⟨hsum, hsum'⟩ := countP_sides borrow l q
    refine ⟨h₁, h₂, h₃, h₄, ⟨_, _, h₁, h₄, ?_⟩, ⟨_, _, h₂, h₃, ?_⟩⟩
    · rw [orMinusOne_lastOf, orMinusOne_lastOf]
      omega
    · rw [orMinusOne_lastOf, orMinusOne_lastOf]
      omega

end Counts

/-- Three keys, one of them twice. -/
theorem rank_counts_iff_keys : RankCounts true id [1, 2, 2, 3] 2 :=
  (rank_counts_iff (by decide) 2).mpr (by decide)

/-- More than `2³¹` zeros before a one: with overflow checks the rank panics, and without them
it is `None`. -/
theorem rank_overflows :
    ((List.replicate (2 ^ 31 + 1) 0).Pairwise fun x y : ℕ => id x ≤ id y) ∧
      Node.rankI32 true id (List.replicate (2 ^ 31 + 1) 0) (.included 1) true = none ∧
      Node.rankI32 false id (List.replicate (2 ^ 31 + 1) 0) (.included 1) true = some none ∧
      ∀ overflowChecks, ¬ RankCounts overflowChecks id (List.replicate (2 ^ 31 + 1) 0) 1 := by
  have hsorted : (List.replicate (2 ^ 31 + 1) 0).Pairwise fun x y : ℕ => id x ≤ id y :=
    List.pairwise_replicate.mpr (Or.inr le_rfl)
  have hcount : (List.replicate (2 ^ 31 + 1) 0).countP (fun x : ℕ => id x < 1) = 2 ^ 31 + 1 := by
    rw [List.countP_replicate]
    rfl
  have hrank : ∀ overflowChecks, Node.rankI32 overflowChecks id
      (List.replicate (2 ^ 31 + 1) 0) (.included 1) true =
        rankOf overflowChecks (2 ^ 31 + 1) := fun overflowChecks => by
    rw [(rankI32_forward overflowChecks 1 hsorted).1, hcount]
  refine ⟨hsorted, (hrank true).trans (by decide +kernel), (hrank false).trans (by decide +kernel),
    fun overflowChecks hcounts => ?_⟩
  have hfirst := hcounts.includedForward
  rw [hrank, hcount, rankOf_eq_iff] at hfirst
  omega

end IndexSet.Concurrent
