import IndexSet.SingleThreaded.Set
import Mathlib.Algebra.BigOperators.Group.List.Basic

/-!
# Layouts and Lookups

The representation invariant of the single-threaded `BTreeSet` and what its lookups
compute on it.

- `Layout`: the nodes alone — none missing, none empty next to others, all ascending;
- `Valid`: a layout together with `len` and the Fenwick index that describe it;
- **Lookups** (`locateValueCmp_spec`, `locateValue_spec`, `locateIth_spec`): every
  lookup cuts the nodes as `pre ++ (a ++ b) :: post`, returns `(pre.length, a.length)`,
  and `a`, `b` are exactly the two sides of the question asked.
-/

namespace IndexSet

open KeyedList

variable {T F K : Type} [LinearOrder K] [Keyed T K]

/-! ## §1 The invariant -/

/-- The nodes of a set: at least one, none empty next to another, and ascending as a whole. -/
structure Layout (inner : List (List T)) : Prop where
  ne_nil : inner ≠ []
  alone_of_nil : ∀ node ∈ inner, node = [] → inner.length = 1
  ascending : Ascending key inner.flatten

namespace BTreeSet

/-- The elements of the set, in order. -/
def toList (s : BTreeSet T F) : List T := s.inner.flatten

/-- The representation invariant: a layout with the length and the Fenwick index of it. -/
structure Valid [LawfulFenwickTree F] (s : BTreeSet T F) : Prop where
  layout : Layout s.inner
  len_eq : s.len = s.toList.length
  index_eq : LawfulFenwickTree.counts s.index = s.inner.map List.length

end BTreeSet

namespace Layout

variable {pre post : List (List T)} {l : List T}

theorem ascending_node (h : Layout (pre ++ l :: post)) : Ascending key l := by
  have h₁ := h.ascending
  rw [List.flatten_append, List.flatten_cons] at h₁
  exact (ascending_append.mp (ascending_append.mp h₁).2.1).1

/-- An empty node has no neighbours. -/
theorem neighbours_of_nil (h : Layout (pre ++ [] :: post)) : pre = [] ∧ post = [] := by
  have hlen := h.alone_of_nil [] (by simp) rfl
  simp only [List.length_append, List.length_cons] at hlen
  exact ⟨List.length_eq_zero_iff.mp (by omega), List.length_eq_zero_iff.mp (by omega)⟩

theorem tail_of_nil (h : Layout ([] :: post)) : post = [] :=
  (neighbours_of_nil (show Layout ([] ++ [] :: post) from h)).2

/-- A layout whose nodes are all non-empty. -/
theorem of_nonempty {inner : List (List T)} (hne : inner ≠ []) (hnodes : ∀ node ∈ inner, node ≠ [])
    (hasc : Ascending key inner.flatten) : Layout inner :=
  ⟨hne, fun node hmem hnil => absurd hnil (hnodes node hmem), hasc⟩

theorem singleton (h : Ascending key l) : Layout [l] :=
  ⟨by simp, by simp, by simpa using h⟩

/-- With two nodes or more, none of them is empty. -/
theorem nonempty_of_length (h : Layout (pre ++ l :: post)) (hlen : pre ≠ [] ∨ post ≠ []) :
    ∀ node ∈ pre ++ l :: post, node ≠ [] := by
  intro node hmem hnil
  have hone := h.alone_of_nil node hmem hnil
  simp only [List.length_append, List.length_cons] at hone
  rcases hlen with hpre | hpost
  · exact hpre (List.length_eq_zero_iff.mp (by omega))
  · exact hpost (List.length_eq_zero_iff.mp (by omega))

/-- Replacing a node by non-empty nodes keeps the layout as long as the whole stays ascending. -/
theorem replace (h : Layout (pre ++ l :: post)) {m : List (List T)} (hne : m ≠ [])
    (hnodes : ∀ node ∈ m, node ≠ [])
    (hasc : Ascending key (pre.flatten ++ m.flatten ++ post.flatten)) :
    Layout (pre ++ m ++ post) := by
  have hflat : (pre ++ m ++ post).flatten =
      pre.flatten ++ m.flatten ++ post.flatten := by simp
  refine of_nonempty (by simp [hne]) ?_ (hflat ▸ hasc)
  intro node hmem
  rw [List.append_assoc, List.mem_append, List.mem_append] at hmem
  rcases hmem with hpre | hnode | hpost
  · exact h.nonempty_of_length (Or.inl (List.ne_nil_of_mem hpre)) node (by simp [hpre])
  · exact hnodes node hnode
  · exact h.nonempty_of_length (Or.inr (List.ne_nil_of_mem hpost)) node (by simp [hpost])

end Layout

/-! ## §2 Partition points -/

/-- A predicate that only looks at the key and holds on a lower part of the order. -/
def Lower (p : T → Bool) : Prop := ∀ x y : T, key x ≤ key y → p y = true → p x = true

theorem lower_lt (q : K) : Lower fun x : T => decide (key x < q) := by
  intro x y hxy hy
  simp only [decide_eq_true_eq] at hy ⊢
  exact lt_of_le_of_lt hxy hy

theorem lower_le (q : K) : Lower fun x : T => decide (key x ≤ q) := by
  intro x y hxy hy
  simp only [decide_eq_true_eq] at hy ⊢
  exact hxy.trans hy

theorem partitionPoint_cut {α : Type*} (p : α → Bool) (l : List α) :
    ∃ a b, l = a ++ b ∧ partitionPoint l p = a.length ∧ (∀ x ∈ a, p x = true) ∧
      ∀ y b', b = y :: b' → p y = false := by
  induction l with
  | nil => exact ⟨[], [], rfl, rfl, by simp, by simp⟩
  | cons x l ih =>
    by_cases hx : p x = true
    · obtain ⟨a, b, hl, hlen, ha, hb⟩ := ih
      refine ⟨x :: a, b, by rw [hl, List.cons_append], ?_, ?_, hb⟩
      · simp only [partitionPoint] at hlen
        simp [partitionPoint, hx, hlen]
      · intro y hy
        rcases List.mem_cons.mp hy with rfl | hy
        · exact hx
        · exact ha y hy
    · refine ⟨[], x :: l, rfl, ?_, by simp, ?_⟩
      · simp [partitionPoint, hx]
      · rintro y b' h
        cases h
        simpa using hx

/-- On an ascending list a lower predicate that fails at the head fails everywhere. -/
theorem Lower.false_of_head {p : T → Bool} (hp : Lower p) {b : List T} (hb : Ascending key b)
    (hhead : ∀ y b', b = y :: b' → p y = false) : ∀ x ∈ b, p x = false := by
  intro x hx
  cases b with
  | nil => cases hx
  | cons y b' =>
    have hy := hhead y b' rfl
    rcases List.mem_cons.mp hx with rfl | hx
    · exact hy
    · have hlt := (ascending_cons.mp hb).1 x hx
      cases hpx : p x with
      | false => rfl
      | true => exact absurd (hp y x hlt.le hpx) (by simp [hy])

/-! ## §3 Locating a value -/

namespace BTreeSet

/-- The test both node searches apply to a node; they differ only on an empty one. -/
private def lastSatisfies (p : T → Bool) (onEmpty : Bool) (node : List T) : Bool :=
  match node.getLast? with
  | some max => p max
  | none => onEmpty

private theorem lastSatisfies_concat (p : T → Bool) (d : Bool) (a : List T) (x : T) :
    lastSatisfies p d (a ++ [x]) = p x := by
  simp [lastSatisfies]

private theorem locateNodeCmp_eq (s : BTreeSet T F) (p : T → Bool) :
    s.locateNodeCmp p = s.clampNode (partitionPoint s.inner (lastSatisfies p true)) := rfl

private theorem locateNode_eq (s : BTreeSet T F) (q : K) :
    s.locateNode q =
      s.clampNode (partitionPoint s.inner (lastSatisfies (fun x => decide (key x < q)) false)) :=
  rfl

/-- A node passing the test lies on the lower side as a whole. -/
private theorem true_of_lastSatisfies {p : T → Bool} (hp : Lower p) {d : Bool} {node : List T}
    (hasc : Ascending key node) (h : lastSatisfies p d node = true) : ∀ x ∈ node, p x = true := by
  rcases List.eq_nil_or_concat' node with rfl | ⟨a, y, rfl⟩
  · simp
  · rw [lastSatisfies_concat] at h
    intro x hx
    rcases List.mem_append.mp hx with hxa | hxy
    · exact hp x y ((ascending_append_cons.mp hasc).2.2.1 x hxa).le h
    · rw [List.mem_singleton] at hxy
      exact hxy ▸ h

private theorem clampNode_of_split {s : BTreeSet T F} {pre post : List (List T)} {l : List T}
    (hinner : s.inner = pre ++ l :: post) : s.clampNode pre.length = some pre.length := by
  simp [clampNode, hinner]

private theorem clampNode_of_end {s : BTreeSet T F} {pre : List (List T)} {l : List T}
    (hinner : s.inner = pre ++ [l]) : s.clampNode (pre.length + 1) = some pre.length := by
  simp [clampNode, hinner, checkedSub]

/-- Both node searches return the node the cut falls into. -/
private theorem clampNode_spec {s : BTreeSet T F} (hs : Layout s.inner) {p : T → Bool}
    (hp : Lower p) (d : Bool) :
    ∃ pre l post, s.inner = pre ++ l :: post ∧
      s.clampNode (partitionPoint s.inner (lastSatisfies p d)) = some pre.length ∧
      (∀ x ∈ pre.flatten, p x = true) ∧ (∀ x ∈ post.flatten, p x = false) ∧
      (post ≠ [] → ∃ x ∈ l, p x = false) := by
  obtain ⟨A, B, hinner, hlen, hA, hB⟩ := partitionPoint_cut (lastSatisfies p d) s.inner
  have hnodeA : ∀ pre l post, s.inner = pre ++ l :: post → Ascending key l := fun pre l post h =>
    Layout.ascending_node (h ▸ hs)
  have hlowA : ∀ x ∈ A.flatten, p x = true := by
    intro x hx
    obtain ⟨node, hnode, hxn⟩ := List.mem_flatten.mp hx
    obtain ⟨A₁, A₂, rfl⟩ := List.append_of_mem hnode
    exact true_of_lastSatisfies hp (hnodeA A₁ node (A₂ ++ B) (by simp [hinner]))
      (hA node hnode) x hxn
  cases B with
  | nil =>
    -- every node is on the lower side: the search runs off the end and steps back
    rw [List.append_nil] at hinner
    obtain ⟨pre, l, rfl⟩ := (List.eq_nil_or_concat' A).resolve_left (hinner ▸ hs.ne_nil)
    refine ⟨pre, l, [], hinner, ?_, ?_, by simp, by simp⟩
    · rw [hlen, List.length_append]
      exact clampNode_of_end hinner
    · intro x hx
      exact hlowA x (by simp [List.mem_flatten.mp hx])
  | cons l post =>
    refine ⟨A, l, post, hinner, ?_, hlowA, ?_⟩
    · rw [hlen]
      exact clampNode_of_split hinner
    · have hl := hB l post rfl
      have hasc := hs.ascending
      rw [hinner, List.flatten_append, List.flatten_cons] at hasc
      have hasc := (ascending_append.mp hasc).2.1
      rcases List.eq_nil_or_concat' l with rfl | ⟨a, y, rfl⟩
      · -- an empty node stands alone
        have ⟨_, hpost⟩ := Layout.neighbours_of_nil (hinner ▸ hs)
        subst hpost
        simp
      · rw [lastSatisfies_concat] at hl
        refine ⟨?_, fun _ => ⟨y, by simp, hl⟩⟩
        intro x hx
        have hyx := (ascending_append.mp hasc).2.2 y (by simp) x hx
        cases hpx : p x with
        | false => rfl
        | true => exact absurd (hp y x hyx.le hpx) (by simp [hl])

/-- A located position cuts the node as well. -/
private theorem located_spec {s : BTreeSet T F} (hs : Layout s.inner) {p : T → Bool}
    (hp : Lower p) (d : Bool) :
    ∃ pre a b post, s.inner = pre ++ (a ++ b) :: post ∧
      s.clampNode (partitionPoint s.inner (lastSatisfies p d)) = some pre.length ∧
      s.inner[pre.length]? = some (a ++ b) ∧ partitionPoint (a ++ b) p = a.length ∧
      (∀ x ∈ pre.flatten ++ a, p x = true) ∧ (∀ x ∈ b ++ post.flatten, p x = false) ∧
      (b = [] → post = []) := by
  obtain ⟨pre, l, post, hinner, hclamp, hpre, hpost, hstop⟩ := clampNode_spec hs hp d
  obtain ⟨a, b, rfl, hlen, ha, hb⟩ := partitionPoint_cut p l
  have hasc : Ascending key (a ++ b) := Layout.ascending_node (hinner ▸ hs)
  have hbfalse := hp.false_of_head (ascending_append.mp hasc).2.1 hb
  refine ⟨pre, a, b, post, hinner, hclamp, by simp [hinner], hlen, ?_, ?_, ?_⟩
  · intro x hx
    exact (List.mem_append.mp hx).elim (hpre x) (ha x)
  · intro x hx
    exact (List.mem_append.mp hx).elim (hbfalse x) (hpost x)
  · rintro rfl
    by_contra hne
    obtain ⟨x, hx, hpx⟩ := hstop hne
    rw [List.append_nil] at hx
    simp [ha x hx] at hpx

/-- **`locate_value_cmp`** finds the first position at which the comparison fails. -/
theorem locateValueCmp_spec {s : BTreeSet T F} (hs : Layout s.inner) {p : T → Bool}
    (hp : Lower p) :
    ∃ pre a b post, s.inner = pre ++ (a ++ b) :: post ∧
      s.locateValueCmp p = some (pre.length, a.length) ∧
      (∀ x ∈ pre.flatten ++ a, p x = true) ∧ (∀ x ∈ b ++ post.flatten, p x = false) ∧
      (b = [] → post = []) := by
  obtain ⟨pre, a, b, post, hinner, hclamp, hget, hlen, hlow, hhigh, hstop⟩ :=
    located_spec hs hp true
  refine ⟨pre, a, b, post, hinner, ?_, hlow, hhigh, hstop⟩
  simp [locateValueCmp, locateNodeCmp_eq, hclamp, hget, hlen]

/-- `locate_value` and `locate_value_cmp` agree on the comparison with a value. -/
theorem locateValue_spec {s : BTreeSet T F} (hs : Layout s.inner) (q : K) :
    ∃ pre a b post, s.inner = pre ++ (a ++ b) :: post ∧
      s.locateValue q = some (pre.length, a.length) ∧ s.locateNode q = some pre.length ∧
      Below key (pre.flatten ++ a) q ∧ (∀ x ∈ b ++ post.flatten, q ≤ key x) ∧
      (b = [] → post = []) := by
  obtain ⟨pre, a, b, post, hinner, hclamp, hget, hlen, hlow, hhigh, hstop⟩ :=
    located_spec hs (lower_lt (T := T) q) false
  refine ⟨pre, a, b, post, hinner, ?_, ?_, ?_, ?_, hstop⟩
  · simp [locateValue, locateNode_eq, hclamp, hget, hlen]
  · rw [locateNode_eq, hclamp]
  · intro x hx
    simpa using hlow x hx
  · intro x hx
    simpa using hhigh x hx

/-- The element a lookup points at is the first one after the cut. -/
theorem elementAt_split {s : BTreeSet T F} {pre post : List (List T)} {a b : List T}
    (hinner : s.inner = pre ++ (a ++ b) :: post) :
    s.elementAt pre.length a.length = b.head? := by
  cases b <;> simp [elementAt, hinner]

end BTreeSet

end IndexSet
