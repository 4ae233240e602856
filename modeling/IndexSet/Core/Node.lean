import IndexSet.Lib.KeyedList
import IndexSet.Core.Pair
import Mathlib.Algebra.GroupWithZero.Nat
import Mathlib.Order.Compare

/-!
# Nodes

`core/node.rs` for `Vec<T>` nodes: the unchecked binary search and the `NodeLike`
operations built on it.  A node is the list of its elements.

- `searchLoop`, `search`: `fn search`, with its three loop variables;
- `Node.insert`, `Node.delete`, `Node.replace`, `Node.halve`, …: `impl NodeLike for Vec`.

Each operation gets one specification lemma on ascending nodes, phrased as a cut
`a ++ x :: b` (hit) or `a ++ b` (gap) of the node; callers use these and never
look at the search again.
-/

namespace IndexSet

open KeyedList

variable {T K : Type*} [LinearOrder K] [Keyed T K]

/-! ## §1 The binary search -/

/-- The loop of `fn search`.  `none` is a read outside the slice or a loop that has not
ended within `fuel` rounds; `searchLoop_isSome` rules both out. -/
def searchLoop (haystack : List T) (needle : K) : ℕ → ℕ → ℕ → ℕ → Option (Except ℕ ℕ)
  | 0, _, _, _ => none
  | fuel + 1, i, j, m =>
    if i = j then some (.error i)
    else
      match haystack[m]? with
      | none => none
      | some x =>
        match compare (key x) needle with
        | .eq => some (.ok m)
        | .lt => searchLoop haystack needle fuel (m + 1) j ((m + 1 + j) / 2)
        | .gt => searchLoop haystack needle fuel i m ((i + m) / 2)

/-- `fn search`: `Ok` with a matching position or `Err` with the insertion point. -/
def search (haystack : List T) (needle : K) : Except ℕ ℕ :=
  (searchLoop haystack needle (haystack.length + 1) 0 haystack.length
    (haystack.length / 2)).getD (.error 0)

/-- On every slice, sorted or not, the loop reads inside the slice and ends. -/
theorem searchLoop_isSome (haystack : List T) (needle : K) :
    ∀ fuel i j : ℕ, i ≤ j → j ≤ haystack.length → j - i < fuel →
      (searchLoop haystack needle fuel i j ((i + j) / 2)).isSome := by
  intro fuel
  induction fuel with
  | zero => intro i j _ _ hf; omega
  | succ fuel ih =>
    intro i j hij hj hf
    unfold searchLoop
    by_cases hend : i = j
    · simp [hend]
    · have hm : (i + j) / 2 < haystack.length := by omega
      rw [if_neg hend, List.getElem?_eq_getElem hm]
      dsimp only
      split
      · rfl
      · exact ih _ _ (by omega) hj (by omega)
      · exact ih _ _ (by omega) (by omega) (by omega)

/-- The loop invariant on an ascending slice: what is before `i` is below the needle and
what is from `j` on is above it. -/
theorem searchLoop_spec {haystack : List T} (needle : K) (h : Ascending key haystack) :
    ∀ fuel i j r, i ≤ j → j ≤ haystack.length →
      Below key (haystack.take i) needle → Above key needle (haystack.drop j) →
      searchLoop haystack needle fuel i j ((i + j) / 2) = some r →
      match r with
      | .ok m => ∃ x, haystack[m]? = some x ∧ key x = needle
      | .error m => m ≤ haystack.length ∧ Below key (haystack.take m) needle ∧
          Above key needle (haystack.drop m) := by
  intro fuel
  induction fuel with
  | zero => intro i j r _ _ _ _ hr; simp [searchLoop] at hr
  | succ fuel ih =>
    intro i j r hij hj hbelow habove hr
    unfold searchLoop at hr
    by_cases hend : i = j
    · rw [if_pos hend] at hr
      cases hr
      exact ⟨by omega, hbelow, hend ▸ habove⟩
    · have hm : (i + j) / 2 < haystack.length := by omega
      rw [if_neg hend, List.getElem?_eq_getElem hm] at hr
      dsimp only at hr
      -- the probe cuts the slice
      have hcut : haystack = haystack.take ((i + j) / 2) ++
          haystack[(i + j) / 2] :: haystack.drop ((i + j) / 2 + 1) := by
        rw [List.getElem_cons_drop, List.take_append_drop]
      have hasc := h
      rw [hcut] at hasc
      have ⟨_, _, hlow, hhigh⟩ := ascending_append_cons.mp hasc
      split at hr
      next heq =>
        cases hr
        exact ⟨_, List.getElem?_eq_getElem hm, compare_eq_iff_eq.mp heq⟩
      next hlt =>
        have hlt := compare_lt_iff_lt.mp hlt
        refine ih _ _ r (by omega) hj ?_ habove hr
        rw [List.take_succ_eq_append_getElem hm, below_append]
        exact ⟨hlow.trans_lt hlt.le, by simpa using hlt⟩
      next hgt =>
        have hgt := compare_gt_iff_gt.mp hgt
        refine ih _ _ r (by omega) (by omega) hbelow ?_ hr
        rw [← List.getElem_cons_drop hm, above_cons]
        exact ⟨hgt, hhigh.trans_lt (le_of_lt hgt)⟩

/-- On every slice the insertion point lies within it. -/
theorem searchLoop_le (haystack : List T) (needle : K) :
    ∀ fuel i j m : ℕ, i ≤ j → j ≤ haystack.length →
      searchLoop haystack needle fuel i j ((i + j) / 2) = some (.error m) →
        m ≤ haystack.length := by
  intro fuel
  induction fuel with
  | zero => intro i j m _ _ hm; cases hm
  | succ fuel ih =>
    intro i j m hij hj hm
    unfold searchLoop at hm
    by_cases hend : i = j
    · rw [if_pos hend] at hm
      cases hm
      omega
    · have hprobe : (i + j) / 2 < haystack.length := by omega
      rw [if_neg hend, List.getElem?_eq_getElem hprobe] at hm
      dsimp only at hm
      split at hm
      · cases hm
      · exact ih _ _ m (by omega) hj hm
      · exact ih _ _ m (by omega) (by omega) hm

/-- On an ascending node the search finds the element with the needle's key, or the gap
where it would be. -/
theorem search_spec {l : List T} (needle : K) (h : Ascending key l) :
    (∃ a x b, l = a ++ x :: b ∧ key x = needle ∧ Below key a needle ∧ Above key needle b ∧
        search l needle = .ok a.length) ∨
      (∃ a b, l = a ++ b ∧ Below key a needle ∧ Above key needle b ∧
        search l needle = .error a.length) := by
  obtain ⟨r, hr⟩ := Option.isSome_iff_exists.mp
    (searchLoop_isSome l needle (l.length + 1) 0 l.length (by omega) (by omega) (by omega))
  have hspec := searchLoop_spec needle h _ _ _ r (by omega) (by omega) (by simp) (by simp) hr
  have hsearch : search l needle = r := by
    unfold search
    rw [Nat.zero_add] at hr
    rw [hr]
    rfl
  cases r with
  | ok m =>
    obtain ⟨x, hx, hkey⟩ := hspec
    obtain ⟨hm, rfl⟩ := List.getElem?_eq_some_iff.mp hx
    have hcut : l = l.take m ++ l[m] :: l.drop (m + 1) := by
      rw [List.getElem_cons_drop, List.take_append_drop]
    have hasc := h
    rw [hcut] at hasc
    have ⟨_, _, hlow, hhigh⟩ := ascending_append_cons.mp hasc
    refine Or.inl ⟨l.take m, l[m], l.drop (m + 1), hcut, hkey, hkey ▸ hlow, hkey ▸ hhigh, ?_⟩
    rw [hsearch, List.length_take_of_le (Nat.le_of_lt hm)]
  | error m =>
    obtain ⟨hm, hlow, hhigh⟩ := hspec
    refine Or.inr ⟨l.take m, l.drop m, (List.take_append_drop m l).symm, hlow, hhigh, ?_⟩
    rw [hsearch, List.length_take_of_le hm]

/-! ## §2 `impl NodeLike for Vec` -/

namespace Node

/-- `isize::MAX` bytes, more than which no vector has. -/
def isizeMax : ℕ := 2 ^ 63 - 1

/-- `Vec::with_capacity` for elements of `elementSize` bytes; `none` is its panic,
`capacity overflow`. -/
def withCapacity (elementSize capacity : ℕ) : Option (List T) :=
  if capacity * elementSize ≤ isizeMax then some [] else none

/-- `Vec::halve`: the lower half stays, the upper half is returned. -/
def halve (l : List T) : List T × List T := (l.take (l.length / 2), l.drop (l.length / 2))

/-- `Vec::need_to_split`. -/
def needToSplit (l : List T) (border : ℕ) : Bool := border ≤ l.length

/-- `Vec::insert`: the node, whether the value went in, and the position it has there. -/
def insert (l : List T) (value : T) : List T × Bool × ℕ :=
  match search l (key value) with
  | .ok idx => (l, false, idx)
  | .error idx => (l.insertIdx idx value, true, idx)

/-- `Vec::contains`. -/
def contains (l : List T) (value : K) : Bool :=
  match search l value with
  | .ok _ => true
  | .error _ => false

/-- `Vec::try_select`. -/
def trySelect (l : List T) (value : K) : Option ℕ :=
  match search l value with
  | .ok idx => some idx
  | .error _ => none

/-- `Vec::delete`: the node, and the removed element with the position it had. -/
def delete (l : List T) (value : K) : List T × Option (T × ℕ) :=
  match search l value with
  | .ok idx => (l.eraseIdx idx, l[idx]?.map fun x => (x, idx))
  | .error _ => (l, none)

/-- `Vec::replace`: the node, and the element the value took the place of. -/
def replace (l : List T) (idx : ℕ) (value : T) : List T × Option T :=
  match l[idx]? with
  | some old => (l.set idx value, some old)
  | none => (l, none)

/-- `Vec::max`. -/
def max (l : List T) : Option T := l.getLast?

/-- On every node an insert adds one element or none. -/
theorem length_insert (l : List T) (v : T) :
    (insert l v).1.length = if (insert l v).2.1 then l.length + 1 else l.length := by
  unfold insert search
  cases hloop : searchLoop l (key v) (l.length + 1) 0 l.length (l.length / 2) with
  | none => simp
  | some r =>
    cases r with
    | ok m => simp
    | error m =>
      have hm := searchLoop_le l (key v) _ 0 l.length m (by omega) (by omega)
        (by rw [Nat.zero_add]; exact hloop)
      simp [List.length_insertIdx, hm]

/-! ## §3 Specifications on ascending nodes -/

theorem halve_append (l : List T) : (halve l).1 ++ (halve l).2 = l :=
  List.take_append_drop _ l

theorem length_halve_fst (l : List T) : (halve l).1.length = l.length / 2 := by
  simp [halve]
  omega

theorem length_halve_snd (l : List T) : (halve l).2.length = l.length - l.length / 2 := by
  simp [halve]

theorem insert_spec {l : List T} (v : T) (h : Ascending key l) :
    (∃ a x b, l = a ++ x :: b ∧ key x = key v ∧ Below key a (key v) ∧ Above key (key v) b ∧
        insert l v = (l, false, a.length)) ∨
      (∃ a b, l = a ++ b ∧ Below key a (key v) ∧ Above key (key v) b ∧
        insert l v = (a ++ v :: b, true, a.length)) := by
  rcases search_spec (key v) h with ⟨a, x, b, hl, hx, ha, hb, hs⟩ | ⟨a, b, hl, ha, hb, hs⟩
  · refine Or.inl ⟨a, x, b, hl, hx, ha, hb, ?_⟩
    simp [insert, hs]
  · refine Or.inr ⟨a, b, hl, ha, hb, ?_⟩
    subst hl
    simp [insert, hs, insertIdx_split]

theorem delete_spec {l : List T} (q : K) (h : Ascending key l) :
    (∃ a x b, l = a ++ x :: b ∧ key x = q ∧ Below key a q ∧ Above key q b ∧
        delete l q = (a ++ b, some (x, a.length))) ∨
      (∃ a b, l = a ++ b ∧ Below key a q ∧ Above key q b ∧ delete l q = (l, none)) := by
  rcases search_spec q h with ⟨a, x, b, hl, hx, ha, hb, hs⟩ | ⟨a, b, hl, ha, hb, hs⟩
  · refine Or.inl ⟨a, x, b, hl, hx, ha, hb, ?_⟩
    subst hl
    simp [delete, hs, eraseIdx_split]
  · refine Or.inr ⟨a, b, hl, ha, hb, ?_⟩
    simp [delete, hs]

theorem replace_split (a b : List T) (x v : T) :
    replace (a ++ x :: b) a.length v = (a ++ v :: b, some x) := by
  simp [replace]

theorem contains_eq_true {l : List T} (q : K) (h : Ascending key l) :
    contains l q = true ↔ ∃ x ∈ l, key x = q := by
  rcases search_spec q h with ⟨a, x, b, hl, hx, ha, hb, hs⟩ | ⟨a, b, hl, ha, hb, hs⟩
  · simp only [contains, hs, true_iff]
    exact ⟨x, by simp [hl], hx⟩
  · simp only [contains, hs, Bool.false_eq_true, false_iff]
    rintro ⟨x, hx, hkey⟩
    subst hl
    exact find_eq_none.mp (find_gap ha hb) x hx hkey

theorem trySelect_spec {l : List T} (q : K) (h : Ascending key l) :
    ((trySelect l q).bind fun idx => l[idx]?) = find key q l := by
  rcases search_spec q h with ⟨a, x, b, hl, hx, ha, hb, hs⟩ | ⟨a, b, hl, ha, hb, hs⟩
  · subst hl
    simp [trySelect, hs, find_hit hx ha]
  · subst hl
    simp [trySelect, hs, find_gap ha hb]

/-- Inserting adds the value unless an equal one is there. -/
theorem insert_eq_add {l : List T} (v : T) (h : Ascending key l) :
    (insert l v).1 = add key v l ∧ (insert l v).2.1 = (find key (key v) l).isNone := by
  rcases insert_spec v h with ⟨a, x, b, rfl, hx, ha, hb, hs⟩ | ⟨a, b, rfl, ha, hb, hs⟩
  · simp [hs, add, find_hit hx ha]
  · simp [hs, add, find_gap ha hb, put_gap ha hb]

end Node

end IndexSet
