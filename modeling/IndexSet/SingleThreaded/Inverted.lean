import IndexSet.SingleThreaded.SetRange

/-!
# Inverted Ranges of the Single-Threaded Set and Map

The documentation of `range` promises a panic when the start lies behind the end, and when both
bounds exclude one value.  The code of `lib.rs` does not compare the bounds: it computes the two
positions as for any other range, and `next` goes on until the positions meet.

- `rangeIdx_silent_iff`: the pairs of positions from which `next` never gives an element;
- `BTreeSet.range_silent_iff`, `BTreeMap.range_silent_iff`: the inverted bounds with such
  positions, in terms of the elements around the two values.
-/

namespace IndexSet

open KeyedList DoubleEnded

variable {T Q V F K : Type} [LinearOrder K]

/-! ## §1 Positions -/

/-- Once the positions have met or nothing lies ahead, `next` stays silent. -/
theorem Iter.next_silent {it it' : Iter T F} {a : Option T}
    (h : it.currentFrontIdx = it.currentBackIdx ∨ it.ahead = [])
    (hnext : it.pull .front = some (it', a)) :
    a = none ∧ (it'.currentFrontIdx = it'.currentBackIdx ∨ it'.ahead = []) := by
  by_cases hmet : it.currentFrontIdx = it.currentBackIdx
  · rw [pull, nextLoop, if_pos hmet] at hnext
    obtain ⟨rfl, rfl⟩ := Prod.mk.inj (Option.some.inj hnext)
    exact ⟨rfl, Or.inl hmet⟩
  · have hnil := h.resolve_left hmet
    obtain ⟨it'', hloop, hmoved⟩ := nextLoop_spec it.btree.inner.length hmet
      (Nat.le_add_right _ _)
    obtain ⟨rfl, rfl⟩ := Prod.mk.inj (Option.some.inj (hloop.symm.trans hnext))
    exact ⟨by rw [hnil]; rfl, Or.inr (by rw [hmoved.ahead, hnil]; rfl)⟩

/-- **Positions and silence**: the first call gives an element unless the positions meet or the
front position lies behind all elements. -/
theorem BTreeSet.rangeIdx_silent_iff [Keyed T K] [LawfulFenwickTree F] {s : BTreeSet T F}
    (hs : s.Valid) (i e : ℕ) :
    Silent (Iter.pull · .front) (s.rangeIdx (.included i) (.included e)) ↔
      i = e + 1 ∨ s.toList.length ≤ i := by
  obtain ⟨it, hit, hahead, -, hfront, hback, -⟩ := rangeIdx_spec hs i e
  have hiff : (it.currentFrontIdx = it.currentBackIdx ∨ it.ahead = []) ↔
      (i = e + 1 ∨ s.toList.length ≤ i) := by
    rw [hfront, hback, hahead, List.drop_eq_nil_iff]
  rw [← hiff]
  constructor
  · intro hsilent
    by_contra hneither
    obtain ⟨hmet, hne⟩ := not_or.mp hneither
    obtain ⟨x, left, hx⟩ := List.exists_cons_of_ne_nil hne
    obtain ⟨it', hloop, -⟩ := Iter.nextLoop_spec it.btree.inner.length hmet
      (Nat.le_add_right _ _)
    have hnext : it.pull .front = some (it', some x) := by
      rw [Iter.pull, hloop, hx, List.head?_cons]
    exact not_silent hit hnext hsilent
  · intro h
    refine silent_of (fun it hR it' a hnext => Iter.next_silent hR hnext) fun it' hit' => ?_
    obtain rfl := Option.some.inj (hit.symm.trans hit')
    exact h

/-- What is counted twice by neither of two exclusive predicates. -/
theorem countP_add {l : List T} {p q r : T → Prop} [DecidablePred p] [DecidablePred q]
    [DecidablePred r] (hor : ∀ x, p x ↔ q x ∨ r x) (hnot : ∀ x, q x → ¬ r x) :
    l.countP p = l.countP q + l.countP r := by
  induction l with
  | nil => rfl
  | cons x l ih =>
    simp only [List.countP_cons, ih, decide_eq_true_eq]
    by_cases hq : q x
    · rw [if_pos ((hor x).mpr (Or.inl hq)), if_pos hq, if_neg (hnot x hq)]
      omega
    · by_cases hr : r x
      · rw [if_pos ((hor x).mpr (Or.inr hr)), if_neg hq, if_pos hr]
        omega
      · rw [if_neg (mt (hor x).mp (not_or.mpr ⟨hq, hr⟩)), if_neg hq, if_neg hr]
        omega

/-! ## §2 The set -/

namespace BTreeSet

variable [Keyed T K]

/-- The elements below a value, from it on, and between two values. -/
def below (s : BTreeSet T F) (q : K) : ℕ := s.toList.countP fun x => key x < q

def upwards (s : BTreeSet T F) (q : K) : ℕ := s.toList.countP fun x => q ≤ key x

def between (s : BTreeSet T F) (q r : K) : ℕ := s.toList.countP fun x => q ≤ key x ∧ key x < r

/-- The inverted bounds that stay silent: there is nothing from the start position on, or the
position behind the end happens to be the start position. -/
def StaysSilent (s : BTreeSet T F) : Bound K → Bound K → Prop
  | .included a, .included b => s.upwards a = 0 ∨ s.between b a = 1
  | .excluded a, .included b => s.upwards a ≤ 1 ∨ s.between b a = 0
  | .included a, .excluded b => s.upwards a = 0 ∨ s.between b a = if s.below b = 0 then 1 else 0
  | .excluded a, .excluded _ => s.upwards a ≤ 1 ∨ s.below a = 0
  | _, _ => True

variable {s : BTreeSet T F}

theorem below_add_upwards (q : K) : s.below q + s.upwards q = s.toList.length := by
  have hall : s.toList.countP (fun _ => decide True) = s.toList.length :=
    List.countP_eq_length.mpr fun _ _ => rfl
  rw [← hall]
  refine (countP_add (fun x => ?_) fun x hx => not_le.mpr hx).symm
  simp [lt_or_ge]

theorem below_add_between {a b : K} (hba : b ≤ a) : s.below b + s.between b a = s.below a := by
  refine (countP_add (fun x => ?_) fun x hx => fun hx' => absurd hx'.1 (not_le.mpr hx)).symm
  constructor
  · intro hx
    exact (lt_or_ge (key x) b).imp id fun hb => ⟨hb, hx⟩
  · rintro (hx | hx)
    · exact hx.trans_le hba
    · exact hx.2

/-- **Inverted ranges of a set**. -/
theorem range_silent_iff [LawfulFenwickTree F] (hs : s.Valid) {lo hi : Bound K}
    (hinverted : ¬ Proper lo hi) :
    Silent (Iter.pull · .front) (s.range lo hi) ↔ s.StaysSilent lo hi := by
  have hrank : ∀ q : K, s.rank q = some (s.below q) := fun q => by
    rw [rank_spec hs, below, List.countP_eq_length_filter]
  have hrange : ∀ {i e : ℕ}, s.startIdx lo = some i → s.endIdx hi = some e →
      (Silent (Iter.pull · .front) (s.range lo hi) ↔ i = e + 1 ∨ s.toList.length ≤ i) := by
    intro i e hi he
    rw [range, hi, he]
    exact rangeIdx_silent_iff hs i e
  cases lo with
  | unbounded => exact absurd trivial hinverted
  | included a =>
    have hlen := s.below_add_upwards a
    cases hi with
    | unbounded => exact absurd trivial hinverted
    | included b =>
      have hba := below_add_between (s := s) (not_le.mp hinverted : b < a).le
      rw [hrange (hrank a) (hrank b), StaysSilent]
      omega
    | excluded b =>
      have hba := below_add_between (s := s) (not_le.mp hinverted : b < a).le
      rw [hrange (hrank a) (by rw [endIdx, hrank, Option.map_some]), StaysSilent]
      split <;> omega
  | excluded a =>
    have hlen := s.below_add_upwards a
    have hstart : s.startIdx (.excluded a) = some (s.below a + 1) := by
      rw [startIdx, hrank, Option.map_some]
    cases hi with
    | unbounded => exact absurd trivial hinverted
    | included b =>
      have hba := below_add_between (s := s) (not_le.mp hinverted : b < a).le
      rw [hrange hstart (hrank b), StaysSilent]
      omega
    | excluded b =>
      have hba := below_add_between (s := s) (not_lt.mp hinverted : b ≤ a)
      rw [hrange hstart (by rw [endIdx, hrank, Option.map_some]), StaysSilent]
      omega

end BTreeSet

/-! ## §3 The map -/

namespace BTreeMap

variable [Keyed Q K]

/-- The entries below the end that the start bound leaves out. -/
def crossed (m : BTreeMap Q V F) (lo : Bound K) (b : K) : ℕ :=
  m.toList.countP fun p => b ≤ key p ∧ ¬ lo.Starts (key p)

/-- The inverted bounds that stay silent: no entry lies behind the start, or the position behind
the end happens to be the start position, or `range_to_idx` has seen that the range is empty. -/
def StaysSilent (m : BTreeMap Q V F) (lo : Bound K) : Bound K → Prop
  | .included b => (∀ p ∈ m.toList, ¬ lo.Starts (key p)) ∨ m.crossed lo b = 1
  | .excluded b => (∀ p ∈ m.toList, ¬ lo.Starts (key p)) ∨ m.crossed lo b = 0 ∨
      ∀ p ∈ m.toList, b ≤ key p
  | .unbounded => True

variable {m : BTreeMap Q V F} {lo : Bound K}

/-- All entries below the end lie before an inverted start. -/
theorem below_add_crossed {b : K} (hlo : ∀ p : Pair Q V, key p < b → ¬ lo.Starts (key p)) :
    (m.toList.countP fun p => key p < b) + m.crossed lo b =
      m.toList.countP fun p => ¬ lo.Starts (key p) := by
  refine (countP_add (fun p => ?_) fun p hp => fun hp' => absurd hp'.1 (not_le.mpr hp)).symm
  constructor
  · intro hp
    exact (lt_or_ge (key p) b).imp id fun hb => ⟨hb, hp⟩
  · rintro (hp | hp)
    · exact hlo p hp
    · exact hp.2

/-- The start position is behind the map exactly if all entries lie before the start. -/
theorem length_le_countP_iff (m : BTreeMap Q V F) (lo : Bound K) :
    (m.toList.length ≤ m.toList.countP fun p => ¬ lo.Starts (key p)) ↔
      ∀ p ∈ m.toList, ¬ lo.Starts (key p) := by
  have hle := List.countP_le_length (p := fun p => decide ¬ lo.Starts (key p)) (l := m.toList)
  have hall := List.countP_eq_length (p := fun p => decide ¬ lo.Starts (key p)) (l := m.toList)
  simp only [decide_eq_true_eq] at hall
  rw [← hall]
  exact ⟨fun h => le_antisymm hle h, fun h => h.ge⟩

/-- **Inverted ranges of a map**. -/
theorem range_silent_iff [LawfulFenwickTree F] (hm : m.Valid) {hi : Bound K}
    (hinverted : ¬ Proper lo hi) :
    Silent (Iter.pull · .front) (m.range lo hi) ↔ m.StaysSilent lo hi := by
  have hstart := startIdx_spec hm lo
  rw [← List.countP_eq_length_filter] at hstart
  have hrank : ∀ b : K, m.set.rankCmp (fun item => decide (key item.key < b)) =
      some (m.toList.countP fun p => key p < b) := fun b => by
    rw [endRank_spec hm, List.countP_eq_length_filter]
  have hrange : ∀ {i e : ℕ}, m.rangeToIdx lo hi = some (i, e) →
      (Silent (Iter.pull · .front) (m.range lo hi) ↔ i = e + 1 ∨ m.toList.length ≤ i) := by
    intro i e hidx
    rw [range, hidx]
    exact BTreeSet.rangeIdx_silent_iff hm i e
  cases hi with
  | unbounded => exact absurd (by cases lo <;> trivial) hinverted
  | included b =>
    have hsum : (m.toList.countP fun p => key p < b) + m.crossed lo b =
        m.toList.countP fun p => ¬ lo.Starts (key p) :=
      below_add_crossed fun p hp => not_starts_of_inverted hinverted hp.le
    rw [hrange (by simp only [rangeToIdx, hstart, hrank]; rfl), length_le_countP_iff,
      StaysSilent, or_comm]
    exact or_congr_right (by omega)
  | excluded b =>
    have hsum : (m.toList.countP fun p => key p < b) + m.crossed lo b =
        m.toList.countP fun p => ¬ lo.Starts (key p) :=
      below_add_crossed fun p hp => not_starts_of_inverted hinverted hp
    have hzero : (m.toList.countP fun p => key p < b) = 0 ↔ ∀ p ∈ m.toList, b ≤ key p := by
      simp
    by_cases hnone : (m.toList.countP fun p => key p < b) = 0
    · -- the positions of the empty range
      have hidx : m.rangeToIdx lo (.excluded b) = some (1, 0) := by
        simp only [rangeToIdx, hstart, hrank, Option.bind_eq_bind, Option.bind_some, if_pos hnone]
        rfl
      rw [hrange hidx, StaysSilent]
      exact iff_of_true (Or.inl rfl) (Or.inr (Or.inr (hzero.mp hnone)))
    · have hidx : m.rangeToIdx lo (.excluded b) =
          some (m.toList.countP fun p => ¬ lo.Starts (key p),
            (m.toList.countP fun p => key p < b) - 1) := by
        simp only [rangeToIdx, hstart, hrank, Option.bind_eq_bind, Option.bind_some, if_neg hnone]
        rfl
      rw [hrange hidx, length_le_countP_iff, StaysSilent, ← hzero, or_comm]
      exact or_congr_right (by omega)

end BTreeMap

end IndexSet
