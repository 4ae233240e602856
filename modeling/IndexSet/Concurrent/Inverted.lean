import IndexSet.Concurrent.RangeIter
import IndexSet.SingleThreaded.Inverted

/-!
# Inverted Ranges

The documentation of `range` promises a panic when the start lies behind the end, and when both
bounds exclude one value.  None of the three implementations compares the bounds.

- §1 the concurrent set at rest: when its start lies behind all elements, the front end of a
  range has no node and starts at the first one;
- §2 the inverted bounds for which nothing is ever given, for all three.
-/

namespace IndexSet.Concurrent

open KeyedList DoubleEnded

variable {M T K Q : Type} [LinearOrder K] [Keyed T K] [LinearOrder Q]

/-! ## §1 The concurrent set -/

namespace BTreeSet

variable [LawfulSkipMap M T K] {s : BTreeSet M T} {borrow : T → Q} {lo hi : Bound Q}

/-- The inverted bounds that stay silent: there is an element behind the start, or the end does
not fall between two elements. -/
def StaysSilent (s : BTreeSet M T) (borrow : T → Q) (lo hi : Bound Q) : Prop :=
  (∃ x ∈ s.elements, lo.Starts (borrow x)) ∨ (∀ x ∈ s.elements, hi.Ends (borrow x)) ∨
    ∀ x ∈ s.elements, ¬ hi.Ends (borrow x)

/-- The first call of a front end that has no node beside a back end that has one: it takes the
first element, unless the back end stands there. -/
theorem next_of_nowhere (hs : s.AtRest) {x y : T} {l : List T} (helements : s.elements = x :: l)
    (n : NodeId) :
    ∃ it', s.pull ⟨⟨none, none, none⟩, ⟨some n, none, some y⟩, false⟩ .front =
        some (it', if key x < key y then some x else none) ∧
      (¬ key x < key y → it'.met = true) := by
  have hend := indexEnd_eq (s := s) (e := .front)
  have hne : s.entries ≠ [] := by
    intro hnil
    rw [← itemsOf_entries, hnil] at helements
    cases helements
  obtain ⟨p, post, hentries⟩ := List.exists_cons_of_ne_nil hne
  rw [facing, hentries, List.head?_cons] at hend
  have hturn : s.turn .front ⟨⟨none, none, none⟩, ⟨some n, none, some y⟩, false⟩ =
      some (.inl ⟨⟨some p.2, none, none⟩, ⟨some n, none, some y⟩, false⟩) := by
    simp [turn, hend, arrive]
  have hstands : s.Stands .front (⟨⟨some p.2, none, none⟩, ⟨some n, none, some y⟩, false⟩ :
      Iter T).front [] p post := ⟨rfl, hentries, by simp [facingItems], by simp⟩
  have hlength : s.entries.length = post.length + 1 := by rw [hentries, List.length_cons]
  obtain ⟨⟨it', answer⟩, hloop, hr⟩ := hstands.answered hs (2 * s.entries.length + 1) rfl
    (by simp) (by simp; omega)
  have hpull : s.pull ⟨⟨none, none, none⟩, ⟨some n, none, some y⟩, false⟩ .front =
      some (it', answer) := (loop_inl hturn).trans hloop
  -- the front end has not passed anything
  have hfilter : ((facing .front s.elements).filter fun z => ¬ Passes .front none z) = x :: l := by
    simp [facing, Passes, helements]
  have hpasses : Passes End.front.opposite (some y) x ↔ ¬ key x < key y := Iff.rfl
  cases hr with
  | exhausted hall => exact absurd (hall x (by simp [helements])) (by simp [Passes])
  | met hfirst hother hmet =>
    obtain ⟨rfl, -⟩ := List.cons.inj (hfilter.symm.trans hfirst)
    exact ⟨it', by rw [hpull, if_neg (hpasses.mp hother)], fun _ => hmet⟩
  | gave hfirst hother =>
    obtain ⟨rfl, -⟩ := List.cons.inj (hfilter.symm.trans hfirst)
    have hlt := not_not.mp (mt hpasses.mpr hother)
    exact ⟨_, by rw [hpull, if_pos hlt], fun hnot => absurd hlt hnot⟩

/-- A range whose ends have met stays silent. -/
theorem pull_of_met {it : Iter T} (hmet : it.met = true) : s.pull it .front = some (it, none) :=
  loop_inr (by rw [turn, if_pos hmet])

/-- In front of an element that does not lie before the end, exactly the elements before the end
are below it. -/
theorem EndCut.lt_iff (hs : s.AtRest) {pre post : List (T × NodeId)} {e : T × NodeId}
    {a b : List T} {x y : T} (h : s.EndCut borrow hi pre e post a (y :: b))
    (hx : x ∈ s.elements) : key x < key y ↔ hi.Ends (borrow x) := by
  have helements : s.elements = (s.itemsOf pre ++ a) ++ y :: (b ++ s.itemsOf post) := by
    rw [elements_cut h.entries, h.node]
    simp
  have hasc := hs.elements_ascending
  rw [helements] at hasc hx
  obtain ⟨-, -, hbelow, habove⟩ := ascending_append_cons.mp hasc
  constructor
  · intro hlt
    rcases List.mem_append.mp hx with hx | hx
    · exact h.before x hx
    · rcases List.mem_cons.mp hx with rfl | hx
      · exact absurd hlt (lt_irrefl _)
      · exact absurd hlt (habove x hx).asymm
  · intro hend
    rcases List.mem_append.mp hx with hx | hx
    · exact hbelow x hx
    · exact absurd hend (h.behind x hx)

/-- **Inverted ranges of a concurrent set**. -/
theorem range_silent_iff (hs : s.AtRest) (hborrow : Coarsens borrow)
    (hinverted : ¬ Proper lo hi) :
    Silent (s.pull · .front) (s.range borrow lo hi) ↔ s.StaysSilent borrow lo hi := by
  by_cases hgives : (∃ x ∈ s.elements, lo.Starts (borrow x)) ∨ ∀ x ∈ s.elements, hi.Ends (borrow x)
  · refine iff_of_true ?_ (hgives.imp id Or.inl)
    obtain ⟨it, hit, hgives⟩ := range_gives hs hborrow hgives
    have hnil : (s.elements.filter fun x => InRange lo hi (borrow x)) = [] := by
      rw [List.filter_eq_nil_iff]
      intro x _
      simpa using fun hin : InRange lo hi (borrow x) =>
        not_starts_of_inverted hinverted hin.2 hin.1
    rw [hnil] at hgives
    rw [hit]
    exact (hgives.yields hs).silent
  · simp only [not_or, not_exists, not_and, not_forall] at hgives
    obtain ⟨hnone, z, hz, hend⟩ := hgives
    rcases hs.endCut hborrow hi with ⟨-, hnil⟩ | ⟨pre, e, post, a, b, hback, hcut⟩
    · rw [← itemsOf_entries, hnil] at hz
      cases hz
    obtain ⟨x, l, helements⟩ := List.exists_cons_of_ne_nil (List.ne_nil_of_mem hz)
    have hx : x ∈ s.elements := helements ▸ List.mem_cons_self ..
    -- no element lies before the end unless the first one does
    have hfirst : s.StaysSilent borrow lo hi ↔ ¬ hi.Ends (borrow x) := by
      constructor
      · rintro (⟨w, hw, hstart⟩ | hall | hall)
        · exact absurd hstart (hnone w hw)
        · exact absurd (hall z hz) hend
        · exact hall x hx
      · refine fun hnot => Or.inr (Or.inr fun w hw hends => hnot (hends.mono (hborrow x w ?_)))
        have hasc := hs.elements_ascending
        rw [helements] at hasc hw
        rcases List.mem_cons.mp hw with rfl | hw
        · exact le_rfl
        · exact ((ascending_cons.mp hasc).1 w hw).le
    obtain ⟨y, b', rfl⟩ : ∃ y b', b = y :: b' := by
      refine List.exists_cons_of_ne_nil fun hnil => hend (hcut.before z ?_)
      have hz' := hz
      rw [elements_cut hcut.entries, hcut.node, hnil, hcut.last_of_nil hnil] at hz'
      simpa using hz'
    have hrange := range_of_behind hs (lowerBoundOf_eq_none hs hborrow hnone) hnone hcut hback
    obtain ⟨it', hpull, hmet⟩ := next_of_nowhere (y := y) hs helements e.2
    rw [hfirst, ← hcut.lt_iff hs hx]
    constructor
    · intro hsilent hlt
      rw [if_pos hlt] at hpull
      exact not_silent hrange hpull hsilent
    · intro hnot
      rw [if_neg hnot] at hpull
      refine silent_of (R := fun it => it.met = true ∨ s.pull it .front = some (it', none)) ?_
        fun it hit => Or.inr ?_
      · intro it hR it'' answer hnext
        rcases hR with hR | hR
        · obtain ⟨rfl, rfl⟩ := Prod.mk.inj (Option.some.inj ((pull_of_met hR).symm.trans hnext))
          exact ⟨rfl, Or.inl hR⟩
        · obtain ⟨rfl, rfl⟩ := Prod.mk.inj (Option.some.inj (hR.symm.trans hnext))
          exact ⟨rfl, Or.inl (hmet hnot)⟩
      · obtain rfl := Option.some.inj (hrange.symm.trans hit)
        exact hpull

end BTreeSet

/-! ## §2 All three -/

/-- **Inverted ranges**: for every pair of bounds whose start lies behind the end, or that both
exclude one value, constructing the range and calling `next` never gives an element if and only
if the bounds fall among the elements in one of the harmless ways.  The concurrent set has nodes
of at most `2³¹` elements, in which the ranks are those of the model. -/
theorem inverted_silent_iff {F S Y V L P : Type} [LawfulFenwickTree F] [LinearOrder L] [Keyed S L]
    [LinearOrder P] [Keyed Y P] [LawfulSkipMap M T K] :
    (∀ (s : IndexSet.BTreeSet S F) (lo hi : Bound L), s.Valid → ¬ Proper lo hi →
      (Silent (IndexSet.Iter.pull · .front) (s.range lo hi) ↔ s.StaysSilent lo hi)) ∧
    (∀ (m : IndexSet.BTreeMap Y V F) (lo hi : Bound P), m.Valid → ¬ Proper lo hi →
      (Silent (IndexSet.Iter.pull · .front) (m.range lo hi) ↔ m.StaysSilent lo hi)) ∧
    ∀ (s : BTreeSet M T) (borrow : T → Q) (lo hi : Bound Q), s.AtRest → s.NodesFit →
      Coarsens borrow → ¬ Proper lo hi →
      s.RanksExact key ∧ s.RanksExact borrow ∧
      (Silent (s.pull · .front) (s.range borrow lo hi) ↔ s.StaysSilent borrow lo hi) :=
  ⟨fun _ _ _ hs hinverted => IndexSet.BTreeSet.range_silent_iff hs hinverted,
    fun _ _ _ hm hinverted => IndexSet.BTreeMap.range_silent_iff hm hinverted,
    fun _ _ _ _ hs hlen hborrow hinverted => ⟨hlen.ranksExact _, hlen.ranksExact _,
      BTreeSet.range_silent_iff hs hborrow hinverted⟩⟩

/-- `9..2` of three elements, `5..3` of two entries and `5..4` of four elements. -/
theorem inverted_silent_iff_elements :
    Silent (IndexSet.Iter.pull · .front) (threeElements.range (.included 9) (.excluded 2)) ∧
      Silent (IndexSet.Iter.pull · .front) (twoEntries.range (.included 5) (.excluded 3)) ∧
      Silent (BTreeSet.twoNodes.pull · .front)
        (BTreeSet.twoNodes.range key (.included 5) (.excluded 4)) := by
  have h := inverted_silent_iff (F := CountList) (S := ℕ) (L := ℕ) (Y := ℕ) (V := ℕ) (P := ℕ)
    (M := SortedIndex ℕ) (T := ℕ) (K := ℕ) (Q := ℕ)
  exact ⟨(h.1 threeElements (.included 9) (.excluded 2) threeElements_produced.usable.1
      (show ¬ 9 ≤ 2 by decide)).mpr (Or.inl (by decide)),
    (h.2.1 twoEntries (.included 5) (.excluded 3)
      (IndexSet.BTreeMap.Produced.usable twoEntries_produced).1 (show ¬ 5 ≤ 3 by decide)).mpr
        (Or.inl (by decide)),
    (h.2.2 BTreeSet.twoNodes key (.included 5) (.excluded 4) BTreeSet.twoNodes_atRest (by decide)
      coarsens_key (show ¬ 5 ≤ 4 by decide)).2.2.mpr (Or.inl ⟨5, by decide, le_refl 5⟩)⟩

/-- `4..2` of the elements 1, 3 and 5 gives `5`, `4..=3` of the keys 2 and 4 gives the entry at
`4`, and `9..3` of the elements 1, 2, 4 and 5 of a concurrent set gives `1`. -/
theorem inverted_gives :
    (threeElements.Produced ∧ twoEntries.Produced ∧ BTreeSet.twoNodes.AtRest) ∧
      ((threeElements.range (.included 4) (.excluded 2)).bind fun it =>
        outputs IndexSet.Iter.pull it [.front]) = some [some 5] ∧
      ((twoEntries.range (.included 4) (.included 3)).bind fun it =>
        outputs IndexSet.Iter.pull it [.front]) = some [some ⟨4, 8⟩] ∧
      ((BTreeSet.twoNodes.range key (.included 9) (.excluded 3)).bind fun it =>
        outputs BTreeSet.twoNodes.pull it [.front]) = some [some 1] ∧
      ¬ Silent (IndexSet.Iter.pull · .front) (threeElements.range (.included 4) (.excluded 2)) := by
  have hrun : ((threeElements.range (.included 4) (.excluded 2)).bind fun it =>
      outputs IndexSet.Iter.pull it [.front]) = some [some 5] := by decide +kernel
  refine ⟨⟨threeElements_produced, twoEntries_produced, BTreeSet.twoNodes_atRest⟩, hrun,
    by decide +kernel, by decide +kernel, fun hsilent => ?_⟩
  obtain ⟨it, hit, hout⟩ := Option.bind_eq_some_iff.mp hrun
  exact absurd (hsilent it hit 1 _ hout (some 5) (List.mem_singleton_self _)) (by decide)

end IndexSet.Concurrent
