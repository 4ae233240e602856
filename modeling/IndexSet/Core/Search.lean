import IndexSet.Core.Node
import Mathlib.Algebra.GroupWithZero.Nat

/-!
# The Binary Search on Any Slice

`fn search` of `core/node.rs` reads through a raw pointer, so it has to stay inside the slice
whatever the comparisons say.  Here a comparison with the needle is any function, which may
even answer differently from round to round, and `i + j` is the addition of `usize`.

- §1 the search;
- §2 slices for which the sum of two positions is a `usize`, or wraps to one past the end of
  the run: the search ends inside, and on a sorted slice it is exact;
- §3 longer slices, which only elements of no size can fill: the sum overflows.
-/

namespace IndexSet

variable {T Q : Type} [LinearOrder Q]

/-! ## §1 The search -/

/-- `a + b` for `usize`: a sum past `usize::MAX` panics when the crate is built with overflow
checks, and wraps when it is not. -/
def usizeAdd (overflowChecks : Bool) (a b : ℕ) : Option ℕ :=
  if a + b < 2 ^ 64 then some (a + b)
  else if overflowChecks then none
  else some ((a + b) % 2 ^ 64)

/-- The loop of `fn search`, with a comparison for each round.  `none` is a read outside the
slice, a panic, or a loop that has not ended within `fuel` rounds. -/
def searchLoopBy (overflowChecks : Bool) (cmp : ℕ → T → Ordering) (haystack : List T) :
    ℕ → ℕ → ℕ → ℕ → ℕ → Option (Except ℕ ℕ)
  | 0, _, _, _, _ => none
  | fuel + 1, round, i, j, m =>
    if i = j then some (.error i)
    else
      match haystack[m]? with
      | none => none
      | some x =>
        match cmp round x with
        | .eq => some (.ok m)
        | .lt =>
          (usizeAdd overflowChecks (m + 1) j).bind fun sum =>
            searchLoopBy overflowChecks cmp haystack fuel (round + 1) (m + 1) j (sum / 2)
        | .gt =>
          (usizeAdd overflowChecks i m).bind fun sum =>
            searchLoopBy overflowChecks cmp haystack fuel (round + 1) i m (sum / 2)

/-- `fn search`, cut off after `fuel` rounds. -/
def searchBy (overflowChecks : Bool) (cmp : ℕ → T → Ordering) (haystack : List T) (fuel : ℕ) :
    Option (Except ℕ ℕ) :=
  searchLoopBy overflowChecks cmp haystack fuel 0 0 haystack.length (haystack.length / 2)

/-- `Ok` names an element that compared equal, `Err` a position within the slice. -/
def AnswersWithin (haystack : List T) (cmp : ℕ → T → Ordering) : Except ℕ ℕ → Prop
  | .ok i => ∃ x, haystack[i]? = some x ∧ ∃ round, cmp round x = .eq
  | .error i => i ≤ haystack.length

/-- `Ok` names an element equal to the needle; `Err` cuts the slice into what is less than the
needle and what is greater. -/
def Locates (haystack : List T) (borrow : T → Q) (needle : Q) : Except ℕ ℕ → Prop
  | .ok i => ∃ x, haystack[i]? = some x ∧ borrow x = needle
  | .error i => (∀ x ∈ haystack.take i, borrow x < needle) ∧
      ∀ x ∈ haystack.drop i, needle < borrow x

/-- **What `search` should do on a slice**: whatever the comparisons say, it ends without
leaving the slice and answers within it; when the slice is sorted in the borrowed order, it
answers `Ok` exactly when some element equals the needle, and finds it, or the gap for it. -/
structure SearchSound (overflowChecks : Bool) (haystack : List T) : Prop where
  answers : ∀ cmp : ℕ → T → Ordering, ∃ fuel r,
    searchBy overflowChecks cmp haystack fuel = some r ∧ AnswersWithin haystack cmp r
  exact : ∀ {Q : Type} [LinearOrder Q] (borrow : T → Q) (needle : Q),
    (haystack.Pairwise fun x y => borrow x ≤ borrow y) → ∃ fuel r,
      searchBy overflowChecks (fun _ x => compare (borrow x) needle) haystack fuel = some r ∧
        (r.isOk = true ↔ ∃ x ∈ haystack, borrow x = needle) ∧ Locates haystack borrow needle r

/-! ## §2 Slices with room -/

/-- Twice the length is a `usize`, or wraps to zero. -/
def Roomy (overflowChecks : Bool) (haystack : List T) : Prop :=
  haystack.length < 2 ^ 63 ∨ haystack.length = 2 ^ 63 ∧ overflowChecks = false

section Room

variable {overflowChecks : Bool} {haystack : List T}

/-- The sum of two positions is exact, except at the end of a run. -/
theorem usizeAdd_of_roomy (hroom : Roomy overflowChecks haystack) {a b : ℕ} (hab : a ≤ b)
    (hb : b ≤ haystack.length) :
    ∃ sum, usizeAdd overflowChecks a b = some sum ∧ (a < b → sum / 2 = (a + b) / 2) := by
  by_cases hsum : a + b < 2 ^ 64
  · exact ⟨a + b, if_pos hsum, fun _ => rfl⟩
  · rcases hroom with hlen | ⟨hlen, hchecks⟩
    · omega
    · refine ⟨(a + b) % 2 ^ 64, ?_, fun hlt => by omega⟩
      rw [usizeAdd, if_neg hsum, hchecks]
      rfl

/-- Whatever the comparisons say: the probe lies between the ends, and the ends approach each
other. -/
theorem searchLoopBy_answers (hroom : Roomy overflowChecks haystack) (cmp : ℕ → T → Ordering)
    (fuel round i j m : ℕ) (hij : i ≤ j) (hj : j ≤ haystack.length)
    (hm : i < j → m = (i + j) / 2) (hfuel : j - i < fuel) :
    ∃ r, searchLoopBy overflowChecks cmp haystack fuel round i j m = some r ∧
      AnswersWithin haystack cmp r := by
  induction fuel generalizing round i j m with
  | zero => omega
  | succ fuel ih =>
    unfold searchLoopBy
    by_cases hend : i = j
    · exact ⟨.error i, if_pos hend, by rw [AnswersWithin]; omega⟩
    · have hprobe : m < haystack.length := by
        have := hm (by omega)
        omega
      have hmid := hm (by omega)
      rw [if_neg hend, List.getElem?_eq_getElem hprobe]
      dsimp only
      cases hcmp : cmp round haystack[m] with
      | eq => exact ⟨.ok m, rfl, haystack[m], List.getElem?_eq_getElem hprobe, round, hcmp⟩
      | lt =>
        obtain ⟨sum, hsum, hhalf⟩ := usizeAdd_of_roomy hroom (a := m + 1) (b := j) (by omega) hj
        simp only [hsum, Option.bind_some]
        exact ih (round + 1) (m + 1) j _ (by omega) hj hhalf (by omega)
      | gt =>
        obtain ⟨sum, hsum, hhalf⟩ := usizeAdd_of_roomy hroom (a := i) (b := m) (by omega) (by omega)
        simp only [hsum, Option.bind_some]
        exact ih (round + 1) i m _ (by omega) (by omega) hhalf (by omega)

/-- On a sorted slice: what is before `i` is less than the needle, and what is from `j` on is
greater. -/
theorem searchLoopBy_locates {borrow : T → Q} {needle : Q}
    (hroom : Roomy overflowChecks haystack)
    (hsorted : haystack.Pairwise fun x y => borrow x ≤ borrow y) (fuel round i j m : ℕ)
    (hij : i ≤ j) (hj : j ≤ haystack.length) (hm : i < j → m = (i + j) / 2)
    (hless : ∀ x ∈ haystack.take i, borrow x < needle)
    (hgreater : ∀ x ∈ haystack.drop j, needle < borrow x) {r : Except ℕ ℕ}
    (hr : searchLoopBy overflowChecks (fun _ x => compare (borrow x) needle) haystack fuel round
      i j m = some r) : Locates haystack borrow needle r := by
  induction fuel generalizing round i j m with
  | zero => cases hr
  | succ fuel ih =>
    unfold searchLoopBy at hr
    by_cases hend : i = j
    · rw [if_pos hend] at hr
      cases hr
      exact ⟨hless, hend ▸ hgreater⟩
    · have hmid := hm (by omega)
      have hprobe : m < haystack.length := by omega
      rw [if_neg hend, List.getElem?_eq_getElem hprobe] at hr
      dsimp only at hr
      -- the probe cuts the slice
      have hcut : haystack.take m ++ haystack[m] :: haystack.drop (m + 1) = haystack := by
        rw [List.getElem_cons_drop, List.take_append_drop]
      obtain ⟨-, hright, hleft⟩ := List.pairwise_append.mp (hcut.symm ▸ hsorted)
      cases hcmp : compare (borrow haystack[m]) needle with
      | eq =>
        rw [hcmp] at hr
        cases hr
        exact ⟨haystack[m], List.getElem?_eq_getElem hprobe, compare_eq_iff_eq.mp hcmp⟩
      | lt =>
        obtain ⟨sum, hsum, hhalf⟩ := usizeAdd_of_roomy hroom (a := m + 1) (b := j) (by omega) hj
        simp only [hcmp, hsum, Option.bind_some] at hr
        have hlt := compare_lt_iff_lt.mp hcmp
        refine ih (round + 1) (m + 1) j _ (by omega) hj hhalf (fun x hx => ?_) hgreater hr
        rw [List.take_succ_eq_append_getElem hprobe, List.mem_append, List.mem_singleton] at hx
        rcases hx with hx | rfl
        · exact (hleft x hx _ (List.mem_cons_self ..)).trans_lt hlt
        · exact hlt
      | gt =>
        obtain ⟨sum, hsum, hhalf⟩ := usizeAdd_of_roomy hroom (a := i) (b := m) (by omega) (by omega)
        simp only [hcmp, hsum, Option.bind_some] at hr
        have hgt := compare_gt_iff_gt.mp hcmp
        refine ih (round + 1) i m _ (by omega) (by omega) hhalf hless (fun x hx => ?_) hr
        rw [← List.getElem_cons_drop hprobe] at hx
        rcases List.mem_cons.mp hx with rfl | hx
        · exact hgt
        · exact hgt.trans_le ((List.pairwise_cons.mp hright).1 x hx)

theorem SearchSound.of_roomy (hroom : Roomy overflowChecks haystack) :
    SearchSound overflowChecks haystack where
  answers cmp := by
    obtain ⟨r, hr, hwithin⟩ := searchLoopBy_answers hroom cmp (haystack.length + 1) 0 0
      haystack.length (haystack.length / 2) (by omega) le_rfl (by omega) (by omega)
    exact ⟨_, r, hr, hwithin⟩
  exact borrow needle hsorted := by
    obtain ⟨r, hr, hwithin⟩ := searchLoopBy_answers hroom
      (fun _ x => compare (borrow x) needle) (haystack.length + 1) 0 0
      haystack.length (haystack.length / 2) (by omega) le_rfl (by omega) (by omega)
    have hlocates := searchLoopBy_locates hroom hsorted _ _ _ _ _ (by omega) le_rfl (by omega)
      (by simp) (by simp) hr
    refine ⟨_, r, hr, ?_, hlocates⟩
    cases r with
    | ok i =>
      obtain ⟨x, hx, hxneedle⟩ := hlocates
      exact iff_of_true rfl ⟨x, List.mem_of_getElem? hx, hxneedle⟩
    | error i =>
      refine iff_of_false Bool.false_ne_true ?_
      rintro ⟨x, hx, hxneedle⟩
      rw [← List.take_append_drop i haystack, List.mem_append] at hx
      rcases hx with hx | hx
      · exact (hlocates.1 x hx).ne hxneedle
      · exact (hlocates.2 x hx).ne' hxneedle

/-- On a slice shorter than that the nodes' search is this one. -/
theorem searchLoopBy_eq_searchLoop {K : Type} [LinearOrder K] [Keyed T K] (needle : K)
    (hlen : haystack.length < 2 ^ 63) (fuel round i j m : ℕ) (hij : i ≤ j)
    (hj : j ≤ haystack.length) (hm : i < j → m = (i + j) / 2) :
    searchLoopBy overflowChecks (fun _ x => compare (key x) needle) haystack fuel round i j m =
      searchLoop haystack needle fuel i j m := by
  induction fuel generalizing round i j m with
  | zero => rfl
  | succ fuel ih =>
    unfold searchLoopBy searchLoop
    by_cases hend : i = j
    · rw [if_pos hend, if_pos hend]
    · have hmid := hm (by omega)
      have hprobe : m < haystack.length := by omega
      have hright : usizeAdd overflowChecks (m + 1) j = some (m + 1 + j) := if_pos (by omega)
      have hleft : usizeAdd overflowChecks i m = some (i + m) := if_pos (by omega)
      rw [if_neg hend, if_neg hend, List.getElem?_eq_getElem hprobe]
      dsimp only
      cases compare (key haystack[m]) needle with
      | eq => rfl
      | lt =>
        simp only [hright, Option.bind_some]
        exact ih _ _ _ _ (by omega) hj fun _ => rfl
      | gt =>
        simp only [hleft, Option.bind_some]
        exact ih _ _ _ _ (by omega) (by omega) fun _ => rfl

theorem searchBy_eq_search {K : Type} [LinearOrder K] [Keyed T K] (needle : K)
    (hlen : haystack.length < 2 ^ 63) :
    searchBy overflowChecks (fun _ x => compare (key x) needle) haystack (haystack.length + 1) =
      some (search haystack needle) := by
  obtain ⟨r, hr⟩ := Option.isSome_iff_exists.mp (searchLoop_isSome haystack needle
    (haystack.length + 1) 0 haystack.length (by omega) le_rfl (by omega))
  rw [Nat.zero_add] at hr
  rw [searchBy, searchLoopBy_eq_searchLoop needle hlen _ _ _ _ _ (by omega) le_rfl (by omega),
    search, hr]
  rfl

/-! ## §3 Slices without room -/

/-- Every element less than the needle: the ends never meet. -/
theorem searchLoopBy_less (hroom : ¬ Roomy overflowChecks haystack) (fuel round i m : ℕ)
    (hi : i ≠ haystack.length) (hm : m + 1 ≠ haystack.length ∨ overflowChecks = true) :
    searchLoopBy overflowChecks (fun _ _ => .lt) haystack fuel round i haystack.length m =
      none := by
  have hlen : 2 ^ 63 ≤ haystack.length := not_lt.mp fun hlt => hroom (Or.inl hlt)
  induction fuel generalizing round i m with
  | zero => rfl
  | succ fuel ih =>
    unfold searchLoopBy
    rw [if_neg hi]
    cases haystack[m]? with
    | none => rfl
    | some x =>
      dsimp only
      rw [usizeAdd]
      split_ifs with hsum hchecks
      · -- the sum is exact, and short of twice the length
        rw [Option.bind_some]
        refine ih _ _ _ (by omega) ?_
        by_cases hchecks : overflowChecks = true
        · exact Or.inr hchecks
        · have hne : haystack.length ≠ 2 ^ 63 := fun heq =>
            hroom (Or.inr ⟨heq, Bool.eq_false_iff.mpr hchecks⟩)
          exact Or.inl (by omega)
      · rfl
      · rw [Option.bind_some]
        have hne : haystack.length ≠ 2 ^ 63 := fun heq =>
          hroom (Or.inr ⟨heq, Bool.eq_false_iff.mpr hchecks⟩)
        exact ih _ _ _ (hm.resolve_right hchecks) (Or.inl (by omega))

theorem SearchSound.roomy (h : SearchSound overflowChecks haystack) :
    Roomy overflowChecks haystack := by
  by_contra hroom
  have hlen : 2 ^ 63 ≤ haystack.length := not_lt.mp fun hlt => hroom (Or.inl hlt)
  obtain ⟨fuel, r, hr, -⟩ := h.answers fun _ _ => .lt
  have hnone := searchLoopBy_less hroom fuel 0 0 (haystack.length / 2) (by omega)
    (Or.inl (by omega))
  rw [searchBy, hnone] at hr
  cases hr

end Room

/-- **The binary search is in bounds, ends and is correct** on a slice, whatever it is searched
for, if and only if the slice has at most `isize::MAX` elements, as every slice has whose
elements take up space; without overflow checks one more element does no harm. -/
theorem search_sound_iff (overflowChecks : Bool) (haystack : List T) :
    SearchSound overflowChecks haystack ↔
      haystack.length < 2 ^ 63 ∨ haystack.length = 2 ^ 63 ∧ overflowChecks = false :=
  ⟨SearchSound.roomy, SearchSound.of_roomy⟩

/-- Elements of no size that are all less than the needle: with overflow checks the search
panics, and without them it does not end. -/
theorem search_overflows :
    (∀ fuel, searchBy true (fun _ _ => .lt) (List.replicate (2 ^ 63) ()) fuel = none) ∧
      (∀ fuel, searchBy false (fun _ _ => .lt) (List.replicate (2 ^ 63 + 1) ()) fuel = none) ∧
      ¬ SearchSound true (List.replicate (2 ^ 63) ()) ∧
      ¬ SearchSound false (List.replicate (2 ^ 63 + 1) ()) := by
  have hchecked : ¬ Roomy true (List.replicate (2 ^ 63) ()) := by
    rw [Roomy, List.length_replicate]
    decide
  have hwrapping : ¬ Roomy false (List.replicate (2 ^ 63 + 1) ()) := by
    rw [Roomy, List.length_replicate]
    decide
  refine ⟨fun fuel => ?_, fun fuel => ?_, fun h => hchecked h.roomy, fun h => hwrapping h.roomy⟩
  · apply searchLoopBy_less hchecked
    · rw [List.length_replicate]
      decide
    · exact Or.inr rfl
  · apply searchLoopBy_less hwrapping
    · rw [List.length_replicate]
      decide
    · refine Or.inl ?_
      rw [List.length_replicate]
      omega

end IndexSet
