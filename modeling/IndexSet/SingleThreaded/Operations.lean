import IndexSet.SingleThreaded.Update

/-!
# The Public Operations of the Single-Threaded `BTreeSet`

Each operation is shown total on valid sets, `Valid`-preserving, and equal to its
reference operation on the element list: `add`, `put`, `erase`, `find`, `union`.
The layout of the nodes no longer appears in any statement.
-/

namespace IndexSet

open KeyedList

namespace BTreeSet

variable {T F K : Type} [LinearOrder K] [Keyed T K] [LawfulFenwickTree F]

/-! ## §1 Construction -/

theorem withMaximumNodeSize_valid (c : ℕ) : (withMaximumNodeSize c : BTreeSet T F).Valid where
  layout := Layout.singleton ascending_nil
  len_eq := rfl
  index_eq := LawfulFenwickTree.counts_fromIter [0]

theorem new_valid : (new : BTreeSet T F).Valid := withMaximumNodeSize_valid defaultInnerSize

theorem clear_valid (s : BTreeSet T F) : s.clear.Valid where
  layout := Layout.singleton ascending_nil
  len_eq := rfl
  index_eq := LawfulFenwickTree.counts_fromIter [0]

/-! ## §2 Lookups -/

/-- `locate_value` finds the stored element equal to the value, if there is one. -/
theorem locateValue_find {s : BTreeSet T F} (hs : s.Valid) (q : K) :
    ∃ pre a b post, s.inner = pre ++ (a ++ b) :: post ∧
      s.locateValue q = some (pre.length, a.length) ∧
      find key q s.toList = (s.elementAt pre.length a.length).filter fun x => key x = q := by
  obtain ⟨pre, a, b, post, hinner, hloc, -, hlow, hhigh, hstop⟩ := locateValue_spec hs.layout q
  refine ⟨pre, a, b, post, hinner, hloc, ?_⟩
  have htoList : s.toList = (pre.flatten ++ a) ++ (b ++ post.flatten) := by
    simp [toList, hinner]
  have hasc := hs.layout.ascending
  rw [← toList, htoList] at hasc
  rw [elementAt_split hinner, htoList, find_cut hlow (ascending_append.mp hasc).2.1 hhigh]
  cases b with
  | nil => simp [hstop rfl]
  | cons x b => rfl

/-- `locate_value_cmp` with the comparison of a key finds it just as well. -/
theorem locateValueCmp_find {s : BTreeSet T F} (hs : s.Valid) (q : K) :
    ∃ pre a b post, s.inner = pre ++ (a ++ b) :: post ∧
      s.locateValueCmp (fun x => key x < q) = some (pre.length, a.length) ∧
      Below key (pre.flatten ++ a) q ∧ (∀ x ∈ b ++ post.flatten, q ≤ key x) ∧
      (b = [] → post = []) ∧
      find key q s.toList = (s.elementAt pre.length a.length).filter fun x => key x = q := by
  obtain ⟨pre, a, b, post, hinner, hloc, hlow, hhigh, hstop⟩ :=
    locateValueCmp_spec hs.layout (lower_lt (T := T) q)
  have hlow : Below key (pre.flatten ++ a) q := fun x hx => by simpa using hlow x hx
  have hhigh : ∀ x ∈ b ++ post.flatten, q ≤ key x := fun x hx => by simpa using hhigh x hx
  refine ⟨pre, a, b, post, hinner, hloc, hlow, hhigh, hstop, ?_⟩
  have htoList : s.toList = (pre.flatten ++ a) ++ (b ++ post.flatten) := by
    simp [toList, hinner]
  have hasc := hs.layout.ascending
  rw [← toList, htoList] at hasc
  rw [elementAt_split hinner, htoList, find_cut hlow (ascending_append.mp hasc).2.1 hhigh]
  cases b with
  | nil => simp [hstop rfl]
  | cons x b => rfl

/-- **`contains`** is membership. -/
theorem contains_spec {s : BTreeSet T F} (hs : s.Valid) (q : K) :
    s.contains q = some (find key q s.toList).isSome := by
  obtain ⟨pre, a, b, post, -, hloc, hfind⟩ := locateValue_find hs q
  rw [hfind]
  simp only [contains, hloc, Option.bind_eq_bind, Option.bind_some]
  cases s.elementAt pre.length a.length with
  | none => rfl
  | some x => by_cases hx : key x = q <;> simp [hx, eq_comm]

/-- `find_cmp` on a key: the position of the element, or the node that misses it. -/
theorem findCmp_spec {s : BTreeSet T F} (hs : s.Valid) (q : K) :
    (∃ pre a x b post, s.inner = pre ++ (a ++ x :: b) :: post ∧ key x = q ∧
      find key q s.toList = some x ∧
      s.findCmp (fun x => key x < q) (fun x => key x = q) =
        some (.exist pre.length a.length)) ∨
    (∃ pre l post, s.inner = pre ++ l :: post ∧ Below key pre.flatten q ∧
      Above key q post.flatten ∧ (Below key l q → post = []) ∧ find key q s.toList = none ∧
      s.findCmp (fun x => key x < q) (fun x => key x = q) = some (.empty pre.length)) := by
  obtain ⟨pre, a, b, post, hinner, hloc, hlow, hhigh, hstop, hfind⟩ := locateValueCmp_find hs q
  have helem := elementAt_split hinner
  cases b with
  | nil =>
    rw [helem] at hfind
    refine Or.inr ⟨pre, a, post, by simpa using hinner, ((below_append ..).mp hlow).1,
      by simp [hstop rfl], fun _ => hstop rfl, by simpa using hfind, ?_⟩
    simp [findCmp, hloc, helem]
  | cons x b =>
    rw [helem] at hfind
    by_cases hx : key x = q
    · refine Or.inl ⟨pre, a, x, b, post, hinner, hx, ?_, ?_⟩
      · simpa [hx, Option.filter_some] using hfind
      · simp [findCmp, hloc, helem, hx, Option.filter_some]
    · have hstays : Below key (a ++ x :: b) q → post = [] := fun hbelow =>
        absurd (hhigh x (by simp)) (not_le.mpr (hbelow x (by simp)))
      refine Or.inr ⟨pre, a ++ x :: b, post, hinner, ((below_append ..).mp hlow).1, ?_, hstays,
        by simpa [hx, Option.filter_some] using hfind, ?_⟩
      · -- `x` is above `q`, so the nodes after it are
        have hxq : q ≤ key x := hhigh x (by simp)
        have hasc := hs.layout.ascending
        rw [hinner] at hasc
        have hcut : (pre ++ (a ++ x :: b) :: post).flatten =
            (pre.flatten ++ a) ++ x :: (b ++ post.flatten) := by simp
        rw [hcut] at hasc
        exact (((above_append ..).mp (ascending_append_cons.mp hasc).2.2.2).2).trans_lt hxq
      · simp [findCmp, hloc, helem, hx, Option.filter_some]

/-- `contains_cmp` on a key is membership. -/
theorem containsCmp_spec {s : BTreeSet T F} (hs : s.Valid) (q : K) :
    s.containsCmp (fun x => key x < q) (fun x => key x = q) =
      some (find key q s.toList).isSome := by
  obtain ⟨pre, a, b, post, -, hloc, -, -, -, hfind⟩ := locateValueCmp_find hs q
  rw [hfind]
  simp only [containsCmp, hloc, Option.bind_eq_bind, Option.bind_some]
  cases s.elementAt pre.length a.length with
  | none => rfl
  | some x => by_cases hx : key x = q <;> simp [hx]

/-- `first` is the head of the element list. -/
theorem first_eq {s : BTreeSet T F} (hs : s.Valid) : s.first = s.toList.head? := by
  obtain ⟨node, post, hinner⟩ := List.exists_cons_of_ne_nil hs.layout.ne_nil
  cases node with
  | nil =>
    have hpost := Layout.tail_of_nil (hinner ▸ hs.layout)
    simp [first, toList, hinner, hpost]
  | cons x b => simp [first, toList, hinner]

/-- `last` is the end of the element list. -/
theorem last_eq {s : BTreeSet T F} (hs : s.Valid) : s.last = s.toList.getLast? := by
  obtain ⟨pre, node, hinner⟩ := (List.eq_nil_or_concat' s.inner).resolve_left hs.layout.ne_nil
  rcases List.eq_nil_or_concat' node with rfl | ⟨a, x, rfl⟩
  · have ⟨hpre, _⟩ := Layout.neighbours_of_nil (hinner ▸ hs.layout)
    simp [last, toList, hinner, hpre]
  · simp [last, toList, hinner]

/-! ## §3 Insertion and deletion -/

/-- **`insert`** adds the value unless an equal element is stored, as long as no split leaves an
empty half. -/
theorem insert_spec_of_splitsWell {s : BTreeSet T F} (hs : s.Valid) (v : T)
    (hsplit : ∀ pre l post, s.inner = pre ++ l :: post → (Below key l (key v) → post = []) →
      s.SplitsWell l v) :
    ∃ s', s.insert v = some (s', (find key (key v) s.toList).isNone) ∧ s'.Valid ∧
      s'.nodeCapacity = s.nodeCapacity ∧ s'.toList = add key v s.toList ∧
      (s.Bounded → s'.Bounded) := by
  obtain ⟨pre, a, b, post, hinner, -, hnode, hlow, hhigh, hstop⟩ :=
    locateValue_spec hs.layout (key v)
  have hpost : Above key (key v) post.flatten := by
    cases b with
    | nil => simp [hstop rfl]
    | cons x b =>
      have hasc := hs.layout.ascending
      rw [hinner, List.flatten_append, List.flatten_cons, List.append_assoc, List.cons_append]
        at hasc
      have hxpost := ((above_append ..).mp
        (ascending_append_cons.mp (ascending_append.mp hasc).2.1).2.2.2).2
      exact hxpost.trans_lt (hhigh x (by simp))
  have hlast : Below key (a ++ b) (key v) → post = [] := by
    intro hbelow
    cases b with
    | nil => exact hstop rfl
    | cons x b => exact absurd (hhigh x (by simp)) (not_le.mpr (hbelow x (by simp)))
  obtain ⟨s', heval, hrest⟩ := insertAt_spec_of_splitsWell hs hinner
    (hsplit pre (a ++ b) post hinner hlast) ((below_append ..).mp hlow).1 hpost
  exact ⟨s', by simp [insert, hnode, heval], hrest⟩

/-- With a maximum node size of two or more no split does. -/
theorem insert_spec {s : BTreeSet T F} (hs : s.Valid) (hcap : 2 ≤ s.nodeCapacity) (v : T) :
    ∃ s', s.insert v = some (s', (find key (key v) s.toList).isNone) ∧ s'.Valid ∧
      s'.nodeCapacity = s.nodeCapacity ∧ s'.toList = add key v s.toList := by
  obtain ⟨s', heval, hvalid, hcap', hlist, -⟩ :=
    insert_spec_of_splitsWell hs v fun _ _ _ _ _ => Or.inl hcap
  exact ⟨s', heval, hvalid, hcap', hlist⟩

/-- **`delete`** removes exactly the equal element and returns it. -/
theorem delete_spec {s : BTreeSet T F} (hs : s.Valid) (q : K) :
    ∃ s', s.delete q = some (s', find key q s.toList, (find key q s.toList).isSome) ∧
      s'.Valid ∧ s'.nodeCapacity = s.nodeCapacity ∧ s'.toList = erase key q s.toList := by
  obtain ⟨pre, a, b, post, hinner, hloc, hfind⟩ := locateValue_find hs q
  have helem := elementAt_split hinner
  have hmiss : find key q s.toList = none → erase key q s.toList = s.toList := fun h =>
    erase_eq_self (find_eq_none.mp h)
  cases b with
  | nil =>
    have hnone : find key q s.toList = none := by simp [hfind, helem]
    refine ⟨s, ?_, hs, rfl, (hmiss hnone).symm⟩
    simp [delete, hloc, helem, hnone]
  | cons x b =>
    by_cases hx : key x = q
    · have hsome : find key q s.toList = some x := by simp [hfind, helem, hx]
      obtain ⟨s', heval, hvalid, hcap, -, hlist⟩ := deleteAt_spec hs hinner
      refine ⟨s', ?_, hvalid, hcap, hx ▸ hlist⟩
      simp [delete, hloc, helem, hsome, heval, hx]
    · have hnone : find key q s.toList = none := by simp [hfind, helem, hx]
      refine ⟨s, ?_, hs, rfl, (hmiss hnone).symm⟩
      simp [delete, hloc, helem, hnone, Ne.symm hx]

/-- `delete_cmp` on a key does what `delete` does. -/
theorem deleteCmp_spec {s : BTreeSet T F} (hs : s.Valid) (q : K) :
    ∃ s', s.deleteCmp (fun x => key x < q) (fun x => key x = q) =
        some (s', find key q s.toList, (find key q s.toList).isSome) ∧
      s'.Valid ∧ s'.nodeCapacity = s.nodeCapacity ∧ s'.toList = erase key q s.toList := by
  rcases findCmp_spec hs q with ⟨pre, a, x, b, post, hinner, hx, hfind, heval⟩ |
    ⟨pre, l, post, -, -, -, -, hfind, heval⟩
  · obtain ⟨s', hdel, hvalid, hcap, -, hlist⟩ := deleteAt_spec hs hinner
    refine ⟨s', ?_, hvalid, hcap, hx ▸ hlist⟩
    simp [deleteCmp, heval, hdel, hfind]
  · refine ⟨s, ?_, hs, rfl, (erase_eq_self (find_eq_none.mp hfind)).symm⟩
    simp [deleteCmp, heval, hfind]

theorem remove_spec {s : BTreeSet T F} (hs : s.Valid) (q : K) :
    ∃ s', s.remove q = some (s', (find key q s.toList).isSome) ∧ s'.Valid ∧
      s'.nodeCapacity = s.nodeCapacity ∧ s'.toList = erase key q s.toList := by
  obtain ⟨s', heval, hrest⟩ := delete_spec hs q
  exact ⟨s', by simp [remove, heval], hrest⟩

theorem take_spec {s : BTreeSet T F} (hs : s.Valid) (q : K) :
    ∃ s', s.take q = some (s', find key q s.toList) ∧ s'.Valid ∧
      s'.nodeCapacity = s.nodeCapacity ∧ s'.toList = erase key q s.toList := by
  obtain ⟨s', heval, hrest⟩ := delete_spec hs q
  exact ⟨s', by simp [take, heval], hrest⟩

/-- **`replace`** stores the value and returns what it took the place of. -/
theorem replace_spec {s : BTreeSet T F} (hs : s.Valid) (hcap : 2 ≤ s.nodeCapacity) (v : T) :
    ∃ s', s.replace v = some (s', find key (key v) s.toList) ∧ s'.Valid ∧
      s'.nodeCapacity = s.nodeCapacity ∧ s'.toList = put key v s.toList := by
  obtain ⟨s₁, htake, hs₁, hcap₁, hlist₁⟩ := take_spec hs (key v)
  obtain ⟨s₂, hins, hs₂, hcap₂, hlist₂⟩ := insert_spec hs₁ (hcap₁ ▸ hcap) v
  refine ⟨s₂, by simp [replace, htake, hins], hs₂, hcap₂.trans hcap₁, ?_⟩
  rw [hlist₂, hlist₁, add_erase]

/-! ## §4 Popping -/

/-- **`pop_first`** removes and returns the head. -/
theorem popFirst_spec {s : BTreeSet T F} (hs : s.Valid) :
    ∃ s', s.popFirst = some (s', s.toList.head?) ∧ s'.Valid ∧
      s'.nodeCapacity = s.nodeCapacity ∧ s'.toList = s.toList.tail := by
  obtain ⟨node, post, hinner⟩ := List.exists_cons_of_ne_nil hs.layout.ne_nil
  cases node with
  | nil =>
    have hpost := Layout.tail_of_nil (hinner ▸ hs.layout)
    refine ⟨s, ?_, hs, rfl, by simp [toList, hinner, hpost]⟩
    simp [popFirst, elementAt, toList, hinner, hpost]
  | cons x b =>
    have hcut : s.inner = [] ++ ([] ++ x :: b) :: post := hinner
    obtain ⟨s', hdel, hvalid, hcap, hlist, -⟩ := deleteAt_spec hs hcut
    refine ⟨s', ?_, hvalid, hcap, by simpa [toList, hinner] using hlist⟩
    rw [List.length_nil, List.length_nil] at hdel
    simp [popFirst, elementAt, toList, hinner, hdel]

/-- **`pop_last`** removes and returns the end. -/
theorem popLast_spec {s : BTreeSet T F} (hs : s.Valid) :
    ∃ s', s.popLast = some (s', s.toList.getLast?) ∧ s'.Valid ∧
      s'.nodeCapacity = s.nodeCapacity ∧ s'.toList = s.toList.dropLast := by
  obtain ⟨pre, node, hinner⟩ := (List.eq_nil_or_concat' s.inner).resolve_left hs.layout.ne_nil
  have hidx : checkedSub s.inner.length 1 = some pre.length := by simp [checkedSub, hinner]
  have hget : s.inner[pre.length]? = some node := by simp [hinner]
  rcases List.eq_nil_or_concat' node with rfl | ⟨a, x, rfl⟩
  · obtain ⟨hpre, _⟩ := Layout.neighbours_of_nil (hinner ▸ hs.layout)
    refine ⟨s, ?_, hs, rfl, by simp [toList, hinner, hpre]⟩
    simp only [popLast, hidx, hget, Option.bind_eq_bind, Option.bind_some]
    simp [elementAt, hinner, toList, hpre]
  · obtain ⟨s', hdel, hvalid, hcap, hlist, -⟩ := deleteAt_spec hs hinner
    have htoList : s.toList = (pre.flatten ++ a) ++ [x] := by simp [toList, hinner]
    refine ⟨s', ?_, hvalid, hcap, by simpa [htoList] using hlist⟩
    have hpos : (a ++ [x]).length - 1 = a.length := by simp
    have helem : s.elementAt pre.length a.length = some x := by
      simpa using elementAt_split (b := [x]) hinner
    simp only [popLast, hidx, hget, Option.bind_eq_bind, Option.bind_some, hpos, helem, hdel]
    simp [htoList]

/-- **`pop_index`** below the length removes and returns the entry at that index. -/
theorem popIndex_spec {s : BTreeSet T F} (hs : s.Valid) {i : ℕ} (hi : i < s.toList.length) :
    ∃ s', s.popIndex i = some (s', s.toList[i]) ∧ s'.Valid ∧
      s'.nodeCapacity = s.nodeCapacity ∧ s'.toList = s.toList.eraseIdx i := by
  obtain ⟨pre, a, x, b, post, hinner, hloc, hlen⟩ := locateIth_spec hs hi
  obtain ⟨s', hdel, hvalid, hcap, hlist, -⟩ := deleteAt_spec hs hinner
  have htoList : s.toList = (pre.flatten ++ a) ++ x :: (b ++ post.flatten) := by
    simp [toList, hinner]
  have hget : s.toList[i]? = some x := by rw [htoList, ← hlen, getElem?_split]
  have hx : s.toList[i] = x := by
    rw [List.getElem?_eq_getElem hi] at hget
    exact Option.some.inj hget
  refine ⟨s', by simp [popIndex, hloc, hdel, hx], hvalid, hcap, ?_⟩
  rw [hlist, htoList, ← hlen, eraseIdx_split]

end BTreeSet

end IndexSet
