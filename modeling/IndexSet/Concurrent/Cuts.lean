import IndexSet.Concurrent.Range
import IndexSet.Concurrent.View

/-!
# Where a Bound Cuts a Set at Rest

At rest the elements of a set are those of its nodes one after the other, and every index key is
the last element of its node.  So a bound cuts the index and one node, and the lookups of
`concurrent/set.rs` in both lead to the elements next to the cut.

The bounds are of a type `Q` that the elements are borrowed as; several elements may be borrowed
as one `Q`.
-/

namespace IndexSet.Concurrent

open KeyedList

variable {M T K Q : Type} [LinearOrder K] [Keyed T K] [LinearOrder Q] [LawfulSkipMap M T K]

omit [LawfulSkipMap M T K] [LinearOrder Q] in
theorem coarsens_key : Coarsens (key : T → K) := fun _ _ h => h

namespace BTreeSet

/-! ## §1 Elements in order -/

/-- What the nodes of some entries hold. -/
def itemsOf (s : BTreeSet M T) (l : List (T × NodeId)) : List T := l.flatMap fun e => s.nodes e.2

section Items

variable (s : BTreeSet M T)

omit [LinearOrder K] [Keyed T K] [LinearOrder Q] [LawfulSkipMap M T K] in
@[simp] theorem itemsOf_nil : s.itemsOf [] = [] := rfl

omit [LinearOrder K] [Keyed T K] [LinearOrder Q] [LawfulSkipMap M T K] in
@[simp] theorem itemsOf_cons (e : T × NodeId) (l : List (T × NodeId)) :
    s.itemsOf (e :: l) = s.nodes e.2 ++ s.itemsOf l := by
  simp [itemsOf]

omit [LinearOrder K] [Keyed T K] [LinearOrder Q] [LawfulSkipMap M T K] in
@[simp] theorem itemsOf_append (l l' : List (T × NodeId)) :
    s.itemsOf (l ++ l') = s.itemsOf l ++ s.itemsOf l' := by
  simp [itemsOf]

theorem itemsOf_entries : s.itemsOf s.entries = s.elements := by
  rw [itemsOf, elements, contents, view, List.flatMap_map]
  rfl

end Items

variable {s : BTreeSet M T}

/-- At rest an index key is the last element of its node. -/
theorem AtRest.last_mem (hs : s.AtRest) {e : T × NodeId} (he : e ∈ s.entries) :
    ∃ a x, s.nodes e.2 = a ++ [x] ∧ key x = key e.1 := by
  obtain ⟨a, x, hax⟩ := (List.eq_nil_or_concat' (s.nodes e.2)).resolve_left (hs.ne_nil he)
  have hexact := hs.exact e he
  rw [Exact, maxKey, hax, List.getLast?_concat, Option.map_some] at hexact
  exact ⟨a, x, hax, Option.some.inj hexact⟩

/-- No element of a node is above the index key. -/
theorem AtRest.le_entry (hs : s.AtRest) {e : T × NodeId} (he : e ∈ s.entries) {x : T}
    (hx : x ∈ s.nodes e.2) : key x ≤ key e.1 :=
  ((hs.sorted e.2).le_maxKey (hs.exact e he)).1 x hx

theorem AtRest.elements_ascending (hs : s.AtRest) : Ascending key s.elements :=
  hs.coherent.elements_ascending

/-! ## §2 The cut of a start bound -/

/-- The elements before a start bound are those of `pre` and, in the node of `e`, those of `a`;
there is a first one behind it, in `b`. -/
structure StartCut (s : BTreeSet M T) (borrow : T → Q) (bound : Bound Q)
    (pre : List (T × NodeId)) (e : T × NodeId) (post : List (T × NodeId)) (a b : List T) :
    Prop where
  entries : s.entries = pre ++ e :: post
  node : s.nodes e.2 = a ++ b
  ne_nil : b ≠ []
  before : ∀ x ∈ s.itemsOf pre ++ a, ¬ bound.Starts (borrow x)
  behind : ∀ x ∈ b ++ s.itemsOf post, bound.Starts (borrow x)

/-- The elements of a set at rest, seen from one of its nodes. -/
theorem elements_cut {pre post : List (T × NodeId)} {e : T × NodeId}
    (hcut : s.entries = pre ++ e :: post) :
    s.elements = s.itemsOf pre ++ (s.nodes e.2 ++ s.itemsOf post) := by
  rw [← itemsOf_entries, hcut, itemsOf_append, itemsOf_cons]

/-- What is behind a node is above its index key. -/
theorem AtRest.above_entry (hs : s.AtRest) {pre post : List (T × NodeId)} {e : T × NodeId}
    (hcut : s.entries = pre ++ e :: post) : Above key (key e.1) (s.itemsOf post) := by
  obtain ⟨a, x, hax, hx⟩ := hs.last_mem (e := e) (by simp [hcut])
  have hasc := hs.elements_ascending
  rw [elements_cut hcut, hax, ← List.append_assoc, ← List.append_assoc, List.append_assoc,
    List.singleton_append] at hasc
  rw [← hx]
  exact (ascending_append_cons.mp hasc).2.2.2

/-- **The lookup of a start bound** leads to its cut, if there is an element behind it. -/
theorem AtRest.startCut (hs : s.AtRest) {borrow : T → Q} (hborrow : Coarsens borrow)
    (bound : Bound Q) :
    (SkipMap.lowerBoundOf borrow s.index bound = none ∧
        ∀ x ∈ s.elements, ¬ bound.Starts (borrow x)) ∨
      ∃ pre e post a b, SkipMap.lowerBoundOf borrow s.index bound = some e ∧
        s.StartCut borrow bound pre e post a b := by
  have hmono : ∀ x y : T, key x ≤ key y → ¬ bound.Starts (borrow y) →
      ¬ bound.Starts (borrow x) := fun x y hxy hy hx => hy (hx.mono (hborrow x y hxy))
  obtain ⟨pre, rest, hcut, hpre, hrest⟩ := s.entries_ascending.cut_inherited
    (p := fun e => ¬ bound.Starts (borrow e.1)) fun e e' => hmono e.1 e'.1
  have hlookup := lowerBoundOf_cut hborrow hcut hpre fun p hp => not_not.mp (hrest p hp)
  have hbefore : ∀ x ∈ s.itemsOf pre, ¬ bound.Starts (borrow x) := by
    intro x hx
    obtain ⟨p, hp, hxp⟩ := List.mem_flatMap.mp hx
    exact hmono x p.1 (hs.le_entry (by simp [hcut, hp]) hxp) (hpre p hp)
  cases rest with
  | nil =>
    refine Or.inl ⟨hlookup, fun x hx => hbefore x ?_⟩
    rwa [← itemsOf_entries, hcut, List.append_nil] at hx
  | cons e post =>
    have hstarts : bound.Starts (borrow e.1) := not_not.mp (hrest e (List.mem_cons_self ..))
    obtain ⟨a, b, hnode, ha, hb⟩ := (hs.sorted e.2).cut_inherited
      (p := fun x => ¬ bound.Starts (borrow x)) hmono
    refine Or.inr ⟨pre, e, post, a, b, hlookup, hcut, hnode, ?_, ?_, ?_⟩
    · rintro rfl
      obtain ⟨l, x, hl, hx⟩ := hs.last_mem (e := e) (by simp [hcut])
      rw [List.append_nil] at hnode
      exact ha x (by simp [← hnode, hl]) (hstarts.mono (hborrow _ _ hx.ge))
    · intro x hx
      rcases List.mem_append.mp hx with hx | hx
      · exact hbefore x hx
      · exact ha x hx
    · intro x hx
      rcases List.mem_append.mp hx with hx | hx
      · exact not_not.mp (hb x hx)
      · exact hstarts.mono (hborrow _ _ (hs.above_entry hcut x hx).le)

/-! ## §3 The cut of an end bound -/

/-- The elements before an end bound are those of `pre` and, in the node of `e`, those of `a`;
the node of `e` is the last one, or has the first element behind the bound, in `b`. -/
structure EndCut (s : BTreeSet M T) (borrow : T → Q) (bound : Bound Q)
    (pre : List (T × NodeId)) (e : T × NodeId) (post : List (T × NodeId)) (a b : List T) :
    Prop where
  entries : s.entries = pre ++ e :: post
  node : s.nodes e.2 = a ++ b
  last_of_nil : b = [] → post = []
  before : ∀ x ∈ s.itemsOf pre ++ a, bound.Ends (borrow x)
  behind : ∀ x ∈ b ++ s.itemsOf post, ¬ bound.Ends (borrow x)

/-- **The lookup of an end bound** leads to its cut, in a set that is not empty. -/
theorem AtRest.endCut (hs : s.AtRest) {borrow : T → Q} (hborrow : Coarsens borrow)
    (bound : Bound Q) :
    (backEntry borrow s.index bound = none ∧ s.entries = []) ∨
      ∃ pre e post a b, backEntry borrow s.index bound = some e ∧
        s.EndCut borrow bound pre e post a b := by
  have hmono : ∀ x y : T, key x ≤ key y → bound.Ends (borrow y) → bound.Ends (borrow x) :=
    fun x y hxy hy => hy.mono (hborrow x y hxy)
  obtain ⟨pre, rest, hcut, hpre, hrest⟩ := s.entries_ascending.cut_inherited
    (p := fun e => bound.Ends (borrow e.1)) fun e e' => hmono e.1 e'.1
  have hlookup := upperBoundOf_cut hborrow hcut hpre hrest
  have hfront : SkipMap.front s.index = s.entries.head? := LawfulSkipMap.front_eq _
  have hback : SkipMap.back s.index = s.entries.getLast? := LawfulSkipMap.back_eq _
  have hbefore : ∀ x ∈ s.itemsOf pre, bound.Ends (borrow x) := by
    intro x hx
    obtain ⟨p, hp, hxp⟩ := List.mem_flatMap.mp hx
    exact hmono x p.1 (hs.le_entry (by simp [hcut, hp]) hxp) (hpre p hp)
  cases rest with
  | nil =>
    rw [List.append_nil] at hcut
    rcases List.eq_nil_or_concat' pre with rfl | ⟨init, e, rfl⟩
    · exact Or.inl ⟨by simp [backEntry, hlookup, hfront, hcut], hcut⟩
    -- the bound is behind everything: the last node
    · have hnext := next_cut (b := []) hcut
      refine Or.inr ⟨init, e, [], s.nodes e.2, [], ?_, hcut, (List.append_nil _).symm,
        fun _ => rfl, ?_, by simp⟩
      · simp [backEntry, hlookup, hnext, hback, hcut]
      · simpa using hbefore
  | cons e post =>
    have hends : ¬ bound.Ends (borrow e.1) := hrest e (List.mem_cons_self ..)
    obtain ⟨a, b, hnode, ha, hb⟩ := (hs.sorted e.2).cut_inherited hmono
    refine Or.inr ⟨pre, e, post, a, b, ?_, hcut, hnode, ?_, ?_, ?_⟩
    · rcases List.eq_nil_or_concat' pre with rfl | ⟨init, p, rfl⟩
      · simp [backEntry, hlookup, hfront, hcut]
      · rw [List.append_assoc, List.singleton_append] at hcut
        simp [backEntry, hlookup, next_cut hcut]
    · rintro rfl
      obtain ⟨l, x, hl, hx⟩ := hs.last_mem (e := e) (by simp [hcut])
      rw [List.append_nil] at hnode
      exact absurd ((ha x (by simp [← hnode, hl])).mono (hborrow _ _ hx.ge)) hends
    · intro x hx
      rcases List.mem_append.mp hx with hx | hx
      · exact hbefore x hx
      · exact ha x hx
    · intro x hx
      rcases List.mem_append.mp hx with hx | hx
      · exact hb x hx
      · exact fun hx' => hends (hx'.mono (hborrow _ _ (hs.above_entry hcut x hx).le))

/-! ## §4 A set with two nodes -/

/-- Four elements in two nodes. -/
def twoNodes : BTreeSet (SortedIndex ℕ) ℕ where
  index := ⟨[(2, 0), (5, 1)], by decide⟩
  elementSize := 8
  nodeCapacity := 4
  eventId := 0
  cdc := false
  poisoned := false
  nodes n := if n = 0 then [1, 2] else if n = 1 then [4, 5] else []
  nextNode := 2

theorem twoNodes_atRest : twoNodes.AtRest := by
  refine ⟨⟨by decide, by decide, ⟨by decide, by decide⟩⟩, fun n => ?_, by decide⟩
  show Ascending key (if n = 0 then [1, 2] else if n = 1 then [4, 5] else [])
  split
  · decide
  · split
    · decide
    · exact ascending_nil

end BTreeSet

end IndexSet.Concurrent
