import IndexSet.SingleThreaded.IterMut
import IndexSet.SingleThreaded.Range

/-!
# Mutable Ranges of the `BTreeMap`

`lib.rs`: `range_mut` resolves its bounds as `range` does, and `range_mut_idx` sets up an
`IterMut` by hand: it advances the node iterator to both ends and trims the slices there.

- `rangeMutIdx`, `rangeMut`: the code;
- `rangeMut_exactlyOnce_iff`: the few ranges that are visited exactly once.

The second `nth` counts from behind the front node, so the back slice is taken from the node
behind the last one of the range; and the slices are trimmed as if the end were exclusive.
The last entry of the range is in neither of them.
-/

namespace IndexSet

open KeyedList DoubleEnded

variable {Q V F K T : Type}

/-! ## §1 The code -/

/-- `for _ in 0..n { iter.next_back(); }` on a slice iterator. -/
def dropBack (n : ℕ) (l : List T) : List T := l.take (l.length - n)

namespace BTreeMap

variable [FenwickTree F]

/-- `BTreeMap::range_mut_idx`; `none` is the panic of an index or of a subtraction. -/
def rangeMutIdx (m : BTreeMap Q V F) (start stop : Bound ℕ) : Option (IterMut Q V) := do
  let ((globalFrontIdx, frontNodeIdx, frontStartIdx),
    (globalBackIdx, backNodeIdx, backStartIdx)) ← m.set.resolveRange start stop
  let backNode ← m.set.inner[backNodeIdx]?
  -- `inner.nth(front_node_idx)`
  let frontIter := m.set.inner[frontNodeIdx]?.getD []
  let inner := m.set.inner.drop (frontNodeIdx + 1)
  -- `inner.nth(back_node_idx - front_node_idx)`
  let offset ← checkedSub backNodeIdx frontNodeIdx
  let backIter := inner[offset]?.getD []
  let inner := inner.drop (offset + 1)
  let frontIter := frontIter.drop frontStartIdx
  let trim := backNode.length - backStartIdx
  return {
    inner
    currentFrontNodeIdx := frontNodeIdx
    currentFrontIdx := globalFrontIdx
    currentBackNodeIdx := backNodeIdx
    currentBackIdx := globalBackIdx
    currentFrontIterator := if 0 < offset then frontIter else dropBack trim frontIter
    currentBackIterator := if 0 < offset then dropBack trim backIter else backIter }

/-- `BTreeMap::range_mut`. -/
def rangeMut [LinearOrder K] [Keyed Q K] (m : BTreeMap Q V F) (start stop : Bound K) :
    Option (IterMut Q V) := do
  let (startIdx, endIdx) ← m.rangeToIdx start stop
  m.rangeMutIdx (.included startIdx) (.included endIdx)

end BTreeMap

/-! ## §2 Iterators that are trimmed too far -/

namespace IterMut

variable {it it' : IterMut Q V} {l : List (Pair Q V)}

/-- A call that takes one entry out of what remains. -/
theorem remaining_of_taken (before after : List (Pair Q V)) {x : Pair Q V}
    (h : it.remaining = before ++ x :: after) (h' : it'.remaining = before ++ after) :
    (∀ y, some x = some y → y ∈ it.remaining) ∧ ∀ y ∈ it'.remaining, y ∈ it.remaining := by
  rw [h, h']
  constructor
  · rintro y ⟨⟩
    exact List.mem_append_right _ (List.mem_cons_self ..)
  · intro y hy
    rcases List.mem_append.mp hy with hy | hy
    · exact List.mem_append_left _ hy
    · exact List.mem_append_right _ (List.mem_cons_of_mem _ hy)

theorem nextLoop_remaining {fuel : ℕ} {a : Option (Pair Q V)}
    (h : nextLoop fuel it = some (it', a)) :
    (∀ x, a = some x → x ∈ it.remaining) ∧ ∀ x ∈ it'.remaining, x ∈ it.remaining := by
  induction fuel generalizing it with
  | zero => cases h
  | succ fuel ih =>
    rw [nextLoop] at h
    split at h
    · cases h
      simp
    · split at h
      · rename_i entry front hfront
        cases h
        refine remaining_of_taken [] (front ++ it.inner.flatten ++ it.currentBackIterator) ?_ rfl
        simp [remaining, hfront]
      · rename_i hfront
        split at h
        · cases h
          simp
        · obtain ⟨previous, -, h⟩ := Option.bind_eq_some_iff.mp h
          split at h
          · split at h
            · -- the back slice is taken from in front
              rename_i entry back hback
              cases h
              apply remaining_of_taken it.inner.flatten back
              · simp [remaining, hfront, hback]
              · simp [remaining, hfront]
            · cases h
              simp
          · -- the next node moves into the front slice
            dsimp only at h
            split at h
            · rename_i node inner hinner
              have hstep := ih h
              rw [remaining, hfront, hinner, List.flatten_cons, List.nil_append]
              exact hstep
            · exact @ih { it with currentFrontNodeIdx := it.currentFrontNodeIdx + 1 } h

theorem nextBackLoop_remaining {fuel : ℕ} {a : Option (Pair Q V)}
    (h : nextBackLoop fuel it = some (it', a)) :
    (∀ x, a = some x → x ∈ it.remaining) ∧ ∀ x ∈ it'.remaining, x ∈ it.remaining := by
  induction fuel generalizing it with
  | zero => cases h
  | succ fuel ih =>
    rw [nextBackLoop] at h
    split at h
    · cases h
      simp
    · split at h
      · rename_i entry hback
        obtain ⟨back, hback⟩ := List.getLast?_eq_some_iff.mp hback
        obtain ⟨idx, -, h⟩ := Option.bind_eq_some_iff.mp h
        cases h
        apply remaining_of_taken (it.currentFrontIterator ++ it.inner.flatten ++ back) []
        · simp [remaining, hback]
        · simp [remaining, hback]
      · rename_i hback
        have hback := List.getLast?_eq_none_iff.mp hback
        split at h
        · cases h
          simp
        · obtain ⟨adjacent, -, h⟩ := Option.bind_eq_some_iff.mp h
          split at h
          · split at h
            · -- the front slice is taken from behind
              rename_i entry hfront
              obtain ⟨front, hfront⟩ := List.getLast?_eq_some_iff.mp hfront
              cases h
              apply remaining_of_taken front (it.inner.flatten ++ it.currentBackIterator)
              · simp [remaining, hfront]
              · simp [remaining, hfront]
            · cases h
              simp
          · obtain ⟨idx, -, h⟩ := Option.bind_eq_some_iff.mp h
            dsimp only at h
            split at h
            · rename_i node hinner
              obtain ⟨inner, hinner⟩ := List.getLast?_eq_some_iff.mp hinner
              have hstep := ih h
              rw [hinner, List.dropLast_concat] at hstep
              rw [remaining, hback, hinner, List.flatten_append, List.flatten_singleton,
                List.append_nil, ← List.append_assoc]
              exact hstep
            · exact @ih { it with currentBackNodeIdx := idx } h

/-- An iterator yields only what it holds. -/
theorem mem_remaining_of_yields (h : Yields pull it l) : ∀ x ∈ l, x ∈ it.remaining :=
  h.mem_of (P := fun it x => x ∈ it.remaining) fun it e it' a hpull => by
    cases e with
    | front => exact nextLoop_remaining hpull
    | back => exact nextBackLoop_remaining hpull

/-- What the back slice ends with is part of what is yielded, unless the positions have met. -/
theorem mem_of_yields_back (h : Yields pull it l)
    (hmet : it.currentFrontIdx ≠ wrappingAddOne it.currentBackIdx) {x : Pair Q V}
    (hx : it.currentBackIterator.getLast? = some x) : x ∈ l := by
  obtain ⟨it', hpull, -⟩ := h.item .back
  rw [pull, nextBackLoop, if_neg hmet, hx] at hpull
  obtain ⟨idx, -, hpull⟩ := Option.bind_eq_some_iff.mp hpull
  have hlast : some x = l.getLast? := (Prod.mk.inj (Option.some.inj hpull)).2
  exact List.mem_of_getLast? hlast.symm

/-- An iterator whose positions have met yields nothing. -/
theorem yields_of_met (hmet : it.currentFrontIdx = wrappingAddOne it.currentBackIdx) :
    Yields pull it [] := by
  refine yields_of (R := fun it l => it.currentFrontIdx = wrappingAddOne it.currentBackIdx ∧
    l = []) ?_ ⟨hmet, rfl⟩
  rintro it l e ⟨hmet, rfl⟩
  refine ⟨it, ?_, by rw [rest_nil]; exact ⟨hmet, rfl⟩⟩
  cases e with
  | front => rw [pull, nextLoop, if_pos hmet, item_nil]
  | back => rw [pull, nextBackLoop, if_pos hmet, item_nil]

/-- An iterator with nothing behind its front slice, whose back position lies one behind it. -/
structure Lags (it : IterMut Q V) (l : List (Pair Q V)) : Prop where
  front : it.currentFrontIterator = l
  back : it.currentBackIterator = []
  span : it.currentFrontIdx + l.length = it.currentBackIdx
  bound : it.currentBackIdx + 1 < 2 ^ 64

theorem Lags.not_met (h : it.Lags l) : it.currentFrontIdx ≠ wrappingAddOne it.currentBackIdx := by
  have hspan := h.span
  rw [wrappingAddOne, Nat.mod_eq_of_lt h.bound]
  omega

theorem Lags.pull_front {x : Pair Q V} (h : it.Lags (x :: l)) :
    ∃ it', it.pull .front = some (it', some x) ∧ it'.Lags l ∧ it'.inner = it.inner ∧
      it'.currentFrontNodeIdx = it.currentFrontNodeIdx ∧
      it'.currentBackNodeIdx = it.currentBackNodeIdx := by
  rw [pull, nextLoop, if_neg h.not_met]
  simp only [h.front]
  have hspan := h.span
  rw [List.length_cons] at hspan
  exact ⟨_, rfl, ⟨rfl, h.back, by dsimp only; omega, h.bound⟩, rfl, rfl, rfl⟩

/-- The node positions at which both methods look at the front slice only. -/
def Settled (it : IterMut Q V) : Prop :=
  (it.currentFrontNodeIdx = 0 ∧ it.currentBackNodeIdx = 0 ∧ it.inner = []) ∨
    it.currentBackNodeIdx = it.currentFrontNodeIdx + 1

theorem Settled.adjacent (h : it.Settled) : it.adjacent = some true := by
  rcases h with ⟨hf, hb, -⟩ | hb
  · exact adjacent_of_eq (hf.trans hb.symm)
  · exact adjacent_of_between (n := 0) hb

theorem Lags.pull_front_nil (h : it.Lags []) (hs : it.Settled) :
    it.pull .front = some (it, none) := by
  rw [pull, nextLoop, if_neg h.not_met]
  simp only [h.front, h.back]
  rcases hs with ⟨hf, -, hinner⟩ | hb
  · rw [if_pos (by rw [hf, hinner]; rfl)]
  · split
    · rfl
    · simp [hb, checkedSub]

theorem Lags.pull_back (h : it.Lags l) (hs : it.Settled) :
    ∃ it', it.pull .back = some (it', l.getLast?) ∧ it'.Lags l.dropLast ∧ it'.Settled := by
  have hfirst : ¬ (it.currentBackNodeIdx = 0 ∧ it.currentFrontNodeIdx ≠ 0) := by
    rcases hs with ⟨hf, -, -⟩ | hb <;> omega
  rw [pull, nextBackLoop, if_neg h.not_met, h.back, List.getLast?_nil]
  simp only [if_neg hfirst, hs.adjacent, h.front, Option.bind_eq_bind, Option.bind_some, if_true]
  have hspan := h.span
  rcases List.eq_nil_or_concat' l with rfl | ⟨l, x, rfl⟩
  · exact ⟨it, rfl, h, hs⟩
  · rw [List.getLast?_concat, List.dropLast_concat]
    rw [List.length_append, List.length_singleton] at hspan
    refine ⟨_, rfl, ⟨rfl, rfl, ?_, ?_⟩, ?_⟩
    · simp only [if_pos (show 0 < it.currentBackIdx by omega)]
      omega
    · have hbound := h.bound
      simp only [if_pos (show 0 < it.currentBackIdx by omega)]
      omega
    · exact hs

/-- Next to a single node or an empty back slice, the front slice is yielded. -/
theorem Lags.yields (h : it.Lags l) (hs : it.Settled) : Yields pull it l := by
  refine yields_of (R := fun it l => it.Lags l ∧ it.Settled) ?_ ⟨h, hs⟩
  rintro it l e ⟨h, hs⟩
  cases e with
  | back => exact h.pull_back hs
  | front =>
    cases l with
    | nil => exact ⟨it, h.pull_front_nil hs, h, hs⟩
    | cons x l =>
      obtain ⟨it', hpull, h', hinner, hf, hb⟩ := h.pull_front
      refine ⟨it', hpull, h', ?_⟩
      rwa [Settled, hinner, hf, hb]

/-- Behind the last node `next` looks for its node index for ever. -/
theorem nextLoop_diverges {fuel : ℕ} (hmet : it.currentFrontIdx ≠ wrappingAddOne it.currentBackIdx)
    (hfront : it.currentFrontIterator = []) (hinner : it.inner = [])
    (hpos : 0 < it.currentBackNodeIdx) (hle : it.currentBackNodeIdx ≤ it.currentFrontNodeIdx) :
    nextLoop fuel it = none := by
  induction fuel generalizing it with
  | zero => rfl
  | succ fuel ih =>
    have hgone : it.currentFrontNodeIdx ≠ ([] : List (List (Pair Q V))).length := by
      rw [List.length_nil]
      omega
    have hprevious : checkedSub it.currentBackNodeIdx 1 = some (it.currentBackNodeIdx - 1) :=
      if_pos hpos
    rw [nextLoop, if_neg hmet]
    simp only [hfront, if_neg hgone, hprevious, Option.bind_eq_bind, Option.bind_some,
      if_neg (show it.currentFrontNodeIdx ≠ it.currentBackNodeIdx - 1 by omega), hinner]
    exact @ih { it with
      inner := []
      currentFrontNodeIdx := it.currentFrontNodeIdx + 1
      currentFrontIterator := [] } hmet rfl rfl hpos (Nat.le_succ_of_le hle)

/-- In the last of several nodes the front slice is not yielded. -/
theorem Lags.not_yields (h : it.Lags l) (hinner : it.inner = []) (hpos : 0 < it.currentBackNodeIdx)
    (heq : it.currentFrontNodeIdx = it.currentBackNodeIdx) : ¬ Yields pull it l := by
  refine DoubleEnded.not_yields (e := .front) (R := fun it l => it.Lags l ∧ it.inner = [] ∧
    0 < it.currentBackNodeIdx ∧ it.currentFrontNodeIdx = it.currentBackNodeIdx) ?_ ?_
    ⟨h, hinner, hpos, heq⟩
  · rintro it x l ⟨h, hinner, hpos, heq⟩
    obtain ⟨it', hpull, h', hinner', hf, hb⟩ := h.pull_front
    exact ⟨it', hpull, h', hinner'.trans hinner, by rwa [hb], by rw [hf, hb, heq]⟩
  · rintro it ⟨h, hinner, hpos, heq⟩ it'
    rw [pull, nextLoop_diverges h.not_met h.front hinner hpos heq.ge]
    simp

end IterMut

/-! ## §3 Positions -/

/-- Two positions of a list of lists, in order: in one list, or in two. -/
theorem positions_cases {pre post pre' post' : List (List T)} {a b a' b' : List T} {x x' : T}
    (h : pre ++ (a ++ x :: b) :: post = pre' ++ (a' ++ x' :: b') :: post')
    (hle : (pre.flatten ++ a).length ≤ (pre'.flatten ++ a').length) :
    (pre = pre' ∧ post = post' ∧ a ++ x :: b = a' ++ x' :: b' ∧ a <+: a') ∨
      ∃ mid, pre' = pre ++ (a ++ x :: b) :: mid ∧ post = mid ++ (a' ++ x' :: b') :: post' := by
  have hprefix : a ++ x :: b = a' ++ x' :: b' → a.length ≤ a'.length → a <+: a' :=
    fun hnode hlen => List.prefix_of_prefix_length_le (List.prefix_append a (x :: b))
      ⟨_, hnode.symm⟩ hlen
  rcases List.append_eq_append_iff.mp h with ⟨mid, hpre, hpost⟩ | ⟨mid, hpre, hpost⟩
  · cases mid with
    | nil =>
      rw [List.append_nil] at hpre
      obtain ⟨hnode, rfl⟩ := List.cons.inj hpost
      subst hpre
      exact Or.inl ⟨rfl, rfl, hnode, hprefix hnode (by simpa using hle)⟩
    | cons node mid =>
      obtain ⟨rfl, hrest⟩ := List.cons.inj hpost
      exact Or.inr ⟨mid, hpre, hrest⟩
  · cases mid with
    | nil =>
      rw [List.append_nil] at hpre
      obtain ⟨hnode, rfl⟩ := List.cons.inj hpost
      subst hpre
      exact Or.inl ⟨rfl, rfl, hnode.symm, hprefix hnode.symm (by simpa using hle)⟩
    | cons node mid =>
      -- the second position would come first
      obtain ⟨rfl, -⟩ := List.cons.inj hpost
      subst hpre
      simp only [List.flatten_append, List.flatten_cons, List.length_append, List.length_cons]
        at hle
      omega

namespace BTreeSet

variable [LinearOrder K] [Keyed T K] [LawfulFenwickTree F] {s : BTreeSet T F}

/-- `locate_ith` at a given cut. -/
theorem locateIth_of_split (hs : s.Valid) {pre post : List (List T)} {a b : List T} {x : T}
    (hinner : s.inner = pre ++ (a ++ x :: b) :: post) :
    s.locateIth (pre.flatten ++ a).length = some (pre.length, a.length) := by
  have hi : (pre.flatten ++ a).length < s.toList.length := by
    simp only [toList, hinner, List.flatten_append, List.flatten_cons, List.length_append,
      List.length_cons]
    omega
  obtain ⟨pre', a', x', b', post', hinner', hloc, hlen⟩ := locateIth_spec hs hi
  rw [hloc]
  rcases positions_cases (hinner.symm.trans hinner') hlen.ge with ⟨rfl, -, -, -⟩ | ⟨mid, rfl, -⟩
  · simp only [List.length_append] at hlen
    rw [show a'.length = a.length by omega]
  · simp only [List.flatten_append, List.flatten_cons, List.length_append, List.length_cons]
      at hlen
    omega

/-- The entries number `i - 1` and `i` exist and are in one node. -/
def SharesNode (s : BTreeSet T F) (i : ℕ) : Prop :=
  ∃ pre a x y b post, s.inner = pre ++ (a ++ x :: y :: b) :: post ∧
    (pre.flatten ++ a).length + 1 = i

/-- Two positions below the length: in one node, or in two. -/
theorem positions_split (hs : s.Valid) {i e : ℕ} (hie : i ≤ e) (he : e < s.toList.length) :
    (∃ pre a c y b post, s.inner = pre ++ (a ++ c ++ y :: b) :: post ∧
        i = (pre.flatten ++ a).length ∧ e = (pre.flatten ++ a ++ c).length) ∨
      ∃ pre a x b mid c y d post,
        s.inner = pre ++ (a ++ x :: b) :: (mid ++ (c ++ y :: d) :: post) ∧
          i = (pre.flatten ++ a).length ∧
          e = (pre.flatten ++ a ++ x :: b ++ mid.flatten ++ c).length := by
  obtain ⟨pre, a, x, b, post, hinner, -, rfl⟩ := locateIth_spec hs (hie.trans_lt he)
  obtain ⟨pre', a', y, b', post', hinner', -, rfl⟩ := locateIth_spec hs he
  rcases positions_cases (hinner.symm.trans hinner') hie with
    ⟨rfl, rfl, hnode, c, rfl⟩ | ⟨mid, rfl, rfl⟩
  · exact Or.inl ⟨pre, a, c, y, b', post, hinner', rfl, by rw [List.append_assoc]⟩
  · refine Or.inr ⟨pre, a, x, b, mid, a', y, b', post', hinner, rfl, ?_⟩
    simp

end BTreeSet

namespace BTreeMap

variable [LinearOrder K] [Keyed Q K] [LawfulFenwickTree F] {m : BTreeMap Q V F}

/-- `range_mut_idx` whose end lies behind the last entry. -/
theorem rangeMutIdx_of_le (hm : m.Valid) {i e : ℕ} (he : m.toList.length ≤ e) :
    m.rangeMutIdx (.included i) (.included e) = none := by
  obtain ⟨n, j, -, hlocf, -⟩ := BTreeSet.frontSlice_spec hm i
  obtain ⟨j', hlocb⟩ := BTreeSet.locateIth_end hm he
  simp [rangeMutIdx, BTreeSet.resolveRange, hlocf, hlocb]

/-- `range_mut_idx` whose end lies in a node before that of its start. -/
theorem rangeMutIdx_of_lt {i e n n' j j' : ℕ} (hlocf : m.set.locateIth i = some (n, j))
    (hlocb : m.set.locateIth e = some (n', j')) (hlt : n' < n) :
    m.rangeMutIdx (.included i) (.included e) = none := by
  simp [rangeMutIdx, BTreeSet.resolveRange, hlocf, hlocb, checkedSub, not_le.mpr hlt]

/-- `range_mut_idx` from the nodes of its ends. -/
theorem rangeMutIdx_eq {i e n n' j j' : ℕ} {node : List (Pair Q V)}
    (hlocf : m.set.locateIth i = some (n, j)) (hlocb : m.set.locateIth e = some (n', j'))
    (hnode : m.set.inner[n']? = some node) :
    m.rangeMutIdx (.included i) (.included e) = (checkedSub n' n).map fun offset => {
      inner := (m.set.inner.drop (n + 1)).drop (offset + 1)
      currentFrontNodeIdx := n
      currentFrontIdx := i
      currentBackNodeIdx := n'
      currentBackIdx := e
      currentFrontIterator :=
        if 0 < offset then (m.set.inner[n]?.getD []).drop j
        else dropBack (node.length - j') ((m.set.inner[n]?.getD []).drop j)
      currentBackIterator :=
        if 0 < offset then dropBack (node.length - j') ((m.set.inner.drop (n + 1))[offset]?.getD [])
        else (m.set.inner.drop (n + 1))[offset]?.getD [] } := by
  simp only [rangeMutIdx, BTreeSet.resolveRange, hlocf, hlocb, hnode, Option.bind_eq_bind,
    Option.bind_some, Option.pure_def]
  cases checkedSub n' n <;> rfl

variable {pre mid post : List (List (Pair Q V))} {a b c d : List (Pair Q V)} {x y : Pair Q V}

/-- `range_mut_idx` within one node: the back slice is the next node. -/
theorem rangeMutIdx_same (hm : m.Valid) (hinner : m.set.inner = pre ++ (a ++ c ++ y :: b) :: post) :
    m.rangeMutIdx (.included (pre.flatten ++ a).length)
        (.included (pre.flatten ++ a ++ c).length) = some {
      inner := post.tail
      currentFrontNodeIdx := pre.length
      currentFrontIdx := (pre.flatten ++ a).length
      currentBackNodeIdx := pre.length
      currentBackIdx := (pre.flatten ++ a ++ c).length
      currentFrontIterator := c
      currentBackIterator := post.head?.getD [] } := by
  obtain ⟨x, b', hcut⟩ : ∃ x b', c ++ y :: b = x :: b' := by cases c <;> simp
  have hinner' : m.set.inner = pre ++ (a ++ x :: b') :: post := by
    rw [hinner, List.append_assoc, hcut]
  have hlocf := BTreeSet.locateIth_of_split (s := m.set) hm hinner'
  have hlocb := BTreeSet.locateIth_of_split (s := m.set) hm hinner
  rw [← List.append_assoc] at hlocb
  have hdrop : m.set.inner.drop (pre.length + 1) = post := by simp [hinner]
  have hfront : dropBack ((a ++ c ++ y :: b).length - (a ++ c).length)
      ((m.set.inner[pre.length]?.getD []).drop a.length) = c := by
    rw [hinner, getElem?_split, Option.getD_some, List.append_assoc a, List.drop_left' rfl,
      dropBack]
    refine List.take_left' ?_
    simp only [List.length_append]
    omega
  have hback : post[0]?.getD [] = post.head?.getD [] := by cases post <;> rfl
  rw [rangeMutIdx_eq hlocf hlocb (by rw [hinner, getElem?_split]), checkedSub,
    if_pos le_rfl, Nat.sub_self, Option.map_some, hdrop]
  simp only [Nat.lt_irrefl, if_false, hfront, hback, Nat.zero_add, List.drop_one]

/-- `range_mut_idx` between two nodes: the back slice is from the node behind them. -/
theorem rangeMutIdx_apart (hm : m.Valid)
    (hinner : m.set.inner = pre ++ (a ++ x :: b) :: (mid ++ (c ++ y :: d) :: post)) :
    m.rangeMutIdx (.included (pre.flatten ++ a).length)
        (.included (pre.flatten ++ a ++ x :: b ++ mid.flatten ++ c).length) = some {
      inner := post.tail
      currentFrontNodeIdx := pre.length
      currentFrontIdx := (pre.flatten ++ a).length
      currentBackNodeIdx := pre.length + 1 + mid.length
      currentBackIdx := (pre.flatten ++ a ++ x :: b ++ mid.flatten ++ c).length
      currentFrontIterator := x :: b
      currentBackIterator := dropBack (y :: d).length (post.head?.getD []) } := by
  have hinner' : m.set.inner = (pre ++ (a ++ x :: b) :: mid) ++ (c ++ y :: d) :: post := by
    rw [hinner]
    simp
  have hlocf := BTreeSet.locateIth_of_split (s := m.set) hm hinner
  have hlocb := BTreeSet.locateIth_of_split (s := m.set) hm hinner'
  rw [show (pre ++ (a ++ x :: b) :: mid).flatten ++ c =
      pre.flatten ++ a ++ x :: b ++ mid.flatten ++ c by simp,
    show (pre ++ (a ++ x :: b) :: mid).length = pre.length + 1 + mid.length by simp; omega]
    at hlocb
  have hnode : m.set.inner[pre.length + 1 + mid.length]? = some (c ++ y :: d) := by
    rw [hinner', show pre.length + 1 + mid.length = (pre ++ (a ++ x :: b) :: mid).length by
      simp; omega, getElem?_split]
  have hdrop : m.set.inner.drop (pre.length + 1) = mid ++ (c ++ y :: d) :: post := by
    simp [hinner]
  have hfront : (m.set.inner[pre.length]?.getD []).drop a.length = x :: b := by simp [hinner]
  have hback : (mid ++ (c ++ y :: d) :: post)[mid.length + 1]?.getD [] = post.head?.getD [] := by
    rw [List.getElem?_append_right (Nat.le_add_right _ _), Nat.add_sub_cancel_left]
    cases post <;> rfl
  have hrest : (mid ++ (c ++ y :: d) :: post).drop (mid.length + 1 + 1) = post.tail := by
    rw [← List.drop_drop,
      show mid ++ (c ++ y :: d) :: post = (mid ++ [c ++ y :: d]) ++ post by simp,
      List.drop_left' (by simp), List.drop_one]
  have htrim : (c ++ y :: d).length - c.length = (y :: d).length := by
    rw [List.length_append, Nat.add_sub_cancel_left]
  rw [rangeMutIdx_eq hlocf hlocb hnode, checkedSub, if_pos (by omega), Option.map_some, hdrop,
    show pre.length + 1 + mid.length - pre.length = mid.length + 1 by omega]
  simp only [Nat.succ_pos, if_true, hfront, hback, hrest, htrim]

end BTreeMap

/-! ## §4 All calls -/

/-- What an iterator holds whose parts are a front slice and the nodes behind the range. -/
theorem IterMut.mem_remaining {it : IterMut Q V} {l : List (List (Pair Q V))}
    (hinner : it.inner = l.tail)
    (hback : ∀ x ∈ it.currentBackIterator, x ∈ l.head?.getD []) :
    ∀ x ∈ it.remaining, x ∈ it.currentFrontIterator ∨ x ∈ l.flatten := by
  intro x hx
  rw [remaining, hinner, List.mem_append, List.mem_append, or_assoc] at hx
  refine hx.imp_right fun hx => ?_
  cases l with
  | nil =>
    rcases hx with hx | hx
    · exact hx
    · exact hback x hx
  | cons node l =>
    rw [List.flatten_cons, List.mem_append]
    exact hx.symm.imp_left (hback x)

namespace BTreeMap

variable [LinearOrder K] [Keyed Q K] [LawfulFenwickTree F] {m : BTreeMap Q V F}

/-- The positions `i` and `e`, taken as the first and the last of a range, yield the list. -/
def MutYields (m : BTreeMap Q V F) (i e : ℕ) (l : List (Pair Q V)) : Prop :=
  ∃ it, m.rangeMutIdx (.included i) (.included e) = some it ∧ Yields IterMut.pull it l

theorem Valid.nodup (hm : m.Valid) : m.toList.Nodup :=
  (show Ascending key m.toList from hm.layout.ascending).nodup

/-- Between two positions in order the last entry is in none of the parts. -/
theorem MutYields.last_notMem (hm : m.Valid) {before : List (Pair Q V)} {last : Pair Q V}
    {after l : List (Pair Q V)} {i : ℕ} (hlist : m.toList = before ++ last :: after)
    (hi : i ≤ before.length) (h : m.MutYields i before.length l) : last ∉ l := by
  intro hmem
  obtain ⟨it, hit, hyields⟩ := h
  have hin := IterMut.mem_remaining_of_yields hyields last hmem
  have hnodup := hm.nodup
  have hlen : before.length < m.toList.length := by
    rw [hlist]
    simp
  rcases BTreeSet.positions_split hm hi hlen with
    ⟨pre, a, c, y, b, post, hinner, rfl, he⟩ | ⟨pre, a, x, b, mid, c, y, d, post, hinner, rfl, he⟩
  · rw [he, rangeMutIdx_same hm hinner] at hit
    obtain rfl := Option.some.inj hit
    have hcut : m.toList = (pre.flatten ++ a ++ c) ++ y :: (b ++ post.flatten) := by
      simp [toList, BTreeSet.toList, hinner]
    obtain ⟨rfl, hrest⟩ := List.append_inj (hlist.symm.trans hcut) he
    obtain ⟨rfl, -⟩ := List.cons.inj hrest
    rw [hcut] at hnodup
    have hparts := IterMut.mem_remaining (l := post) rfl (fun _ hx => hx) _ hin
    dsimp only at hparts
    simp only [List.nodup_append, List.nodup_cons, List.mem_append, List.mem_cons] at hnodup
    grind
  · rw [he, rangeMutIdx_apart hm hinner] at hit
    obtain rfl := Option.some.inj hit
    have hcut : m.toList = (pre.flatten ++ a ++ x :: b ++ mid.flatten ++ c) ++
        y :: (d ++ post.flatten) := by
      simp [toList, BTreeSet.toList, hinner]
    obtain ⟨rfl, hrest⟩ := List.append_inj (hlist.symm.trans hcut) he
    obtain ⟨rfl, -⟩ := List.cons.inj hrest
    rw [hcut] at hnodup
    have hparts := IterMut.mem_remaining (l := post) rfl (fun _ hx => List.mem_of_mem_take hx)
      _ hin
    dsimp only at hparts
    simp only [List.nodup_append, List.nodup_cons, List.mem_append, List.mem_cons] at hnodup
    grind

/-- **An empty range**, given by an end position before its start: both positions must lie in
one node. -/
theorem mutYields_gap_iff (hm : m.Valid) (hlen : m.set.len < 2 ^ 64) {e : ℕ} :
    m.MutYields (e + 1) e [] ↔ m.set.SharesNode (e + 1) := by
  constructor
  · rintro ⟨it, hit, -⟩
    by_cases he : m.toList.length ≤ e
    · rw [rangeMutIdx_of_le hm he] at hit
      cases hit
    · obtain ⟨pre, a, y, b, post, hinner, hloc, hpos⟩ :=
        BTreeSet.locateIth_spec hm (not_le.mp he)
      by_cases hnext : m.toList.length ≤ e + 1
      · obtain ⟨j, hloc'⟩ := BTreeSet.locateIth_end hm hnext
        rw [rangeMutIdx_of_lt hloc' hloc (by rw [hinner]; simp)] at hit
        cases hit
      · obtain ⟨pre', a', x, b', post', hinner', hloc', hpos'⟩ :=
          BTreeSet.locateIth_spec hm (not_le.mp hnext)
        rcases positions_cases (hinner.symm.trans hinner') (by omega) with
          ⟨rfl, rfl, hnode, c, rfl⟩ | ⟨mid, rfl, -⟩
        · -- one further in the same node
          obtain ⟨z, rfl⟩ : ∃ z, c = [z] := by
            refine List.length_eq_one_iff.mp ?_
            simp only [List.length_append] at hpos hpos'
            omega
          refine ⟨pre, a, z, x, b', post, ?_, by omega⟩
          rw [hinner', List.append_assoc, List.singleton_append]
        · rw [rangeMutIdx_of_lt hloc' hloc (by simp)] at hit
          cases hit
  · rintro ⟨pre, a, x, y, b, post, hinner, hpos⟩
    have hlocb := BTreeSet.locateIth_of_split (s := m.set) hm hinner
    have hinner' : m.set.inner = pre ++ (a ++ [x] ++ y :: b) :: post := by
      rw [hinner, List.append_assoc, List.singleton_append]
    have hlocf := BTreeSet.locateIth_of_split (s := m.set) hm hinner'
    rw [show (pre.flatten ++ a).length = e by omega] at hlocb
    rw [← List.append_assoc, show (pre.flatten ++ a ++ [x]).length = e + 1 by
      rw [List.length_append, List.length_singleton, hpos]] at hlocf
    have hbound : e + 1 < 2 ^ 64 := by
      have htotal : m.set.len = (pre.flatten ++ a ++ x :: y :: b ++ post.flatten).length := by
        rw [hm.len_eq, BTreeSet.toList, hinner]
        simp
      simp only [List.length_append, List.length_cons] at htotal hpos
      omega
    refine ⟨_, by rw [rangeMutIdx_eq hlocf hlocb (by rw [hinner, getElem?_split]), checkedSub,
      if_pos le_rfl]; rfl, IterMut.yields_of_met ?_⟩
    rw [wrappingAddOne, Nat.mod_eq_of_lt hbound]

/-- The entries fill a node up to its end, and the node behind the next one is not longer than
the next one. -/
def FillsNode (m : BTreeMap Q V F) (l : List (Pair Q V)) : Prop :=
  ∃ pre a next post, m.set.inner = pre ++ (a ++ l) :: next :: post ∧ l ≠ [] ∧
    (post.head?.getD []).length ≤ next.length

/-- The last entry of a back slice from behind the range would be yielded. -/
theorem false_of_back {it : IterMut Q V} {inside : List (Pair Q V)}
    (hyields : Yields IterMut.pull it inside) (hbound : it.currentBackIdx + 1 < 2 ^ 64)
    (hle : it.currentFrontIdx ≤ it.currentBackIdx) (hne : it.currentBackIterator ≠ [])
    (hback : ∀ x ∈ it.currentBackIterator, x ∉ inside) : False := by
  obtain ⟨l, z, hlast⟩ := List.eq_nil_or_concat' it.currentBackIterator |>.resolve_left hne
  have hmet : it.currentFrontIdx ≠ wrappingAddOne it.currentBackIdx := by
    rw [wrappingAddOne, Nat.mod_eq_of_lt hbound]
    omega
  exact hback z (by simp [hlast])
    (IterMut.mem_of_yields_back hyields hmet (by rw [hlast, List.getLast?_concat]))

section Missed

variable {before inside after : List (Pair Q V)} (hm : m.Valid) (hlen : m.set.len < 2 ^ 64)
  (hlist : m.toList = before ++ inside ++ after) (hafter : after ≠ [])

include hm hlen hlist hafter

theorem end_bound :
    (before ++ inside).length < m.toList.length ∧ (before ++ inside).length + 1 < 2 ^ 64 := by
  have htotal : m.set.len = m.toList.length := hm.len_eq
  have hpos := List.length_pos_iff.mpr hafter
  rw [hlist] at htotal ⊢
  simp only [List.length_append] at htotal ⊢
  omega

/-- In a single node the trimmed front slice is the range. -/
theorem mutYields_single (hone : m.set.inner.length = 1) :
    m.MutYields before.length (before ++ inside).length inside := by
  have ⟨_, hbound⟩ := end_bound hm hlen hlist hafter
  obtain ⟨node, hnode⟩ := List.length_eq_one_iff.mp hone
  obtain ⟨y, b, rfl⟩ := List.exists_cons_of_ne_nil hafter
  have hinner : m.set.inner = [] ++ (before ++ inside ++ y :: b) :: [] := by
    rw [toList, BTreeSet.toList, hnode, List.flatten_singleton] at hlist
    rw [hnode, hlist]
    rfl
  have hcall := rangeMutIdx_same hm hinner
  rw [List.flatten_nil, List.nil_append] at hcall
  refine ⟨_, hcall, IterMut.Lags.yields ⟨rfl, rfl, ?_, hbound⟩ (Or.inl ⟨rfl, rfl, rfl⟩)⟩
  exact List.length_append.symm

/-- A range that fills a node is in the front slice, and the back slice is trimmed away. -/
theorem FillsNode.mutYields (hfills : m.FillsNode inside) :
    m.MutYields before.length (before ++ inside).length inside := by
  have ⟨_, hbound⟩ := end_bound hm hlen hlist hafter
  obtain ⟨pre, a, next, post, hinner, hne, hshort⟩ := hfills
  have hlayout : Layout (pre ++ (a ++ inside) :: (next :: post)) := hinner ▸ hm.layout
  obtain ⟨y, d, rfl⟩ := List.exists_cons_of_ne_nil
    (hlayout.nonempty_of_length (Or.inr (by simp)) next (by simp))
  obtain ⟨x, b, rfl⟩ := List.exists_cons_of_ne_nil hne
  have hcut : m.toList = (pre.flatten ++ a) ++ x :: (b ++ (y :: d) ++ post.flatten) := by
    simp [toList, BTreeSet.toList, hinner]
  have hbefore : before = pre.flatten ++ a := by
    have hnodup := hm.nodup
    rw [hcut, List.nodup_append, List.nodup_cons] at hnodup
    rw [hlist, List.append_assoc, List.cons_append] at hcut
    refine ((List.append_cons_inj_of_notMem ?_ ?_).mp hcut.symm).1.symm
    · exact fun hx => hnodup.2.2 x hx x (by simp) rfl
    · exact hnodup.2.1.1
  have hinner' : m.set.inner = pre ++ (a ++ x :: b) :: ([] ++ ([] ++ y :: d) :: post) := hinner
  have hcall := rangeMutIdx_apart hm hinner'
  simp only [List.flatten_nil, List.append_nil, ← hbefore] at hcall
  refine ⟨_, hcall, IterMut.Lags.yields ⟨rfl, ?_, by simp, hbound⟩ (Or.inr rfl)⟩
  rw [dropBack, List.take_eq_nil_iff]
  exact Or.inl (Nat.sub_eq_zero_of_le hshort)

/-- Otherwise something is missing, or something else comes. -/
theorem MutYields.fillsNode (h : m.MutYields before.length (before ++ inside).length inside) :
    m.set.inner.length = 1 ∨ m.FillsNode inside := by
  obtain ⟨he, hbound⟩ := end_bound hm hlen hlist hafter
  have hnodup := hm.nodup
  obtain ⟨it, hit, hyields⟩ := h
  rcases BTreeSet.positions_split hm (show before.length ≤ _ by simp) he with
    ⟨pre, a, c, y, b, post, hinner, hi, he'⟩ | ⟨pre, a, x, b, mid, c, y, d, post, hinner, hi, he'⟩
  · -- both positions in one node
    have hcut : m.toList = (pre.flatten ++ a) ++ c ++ (y :: (b ++ post.flatten)) := by
      simp [toList, BTreeSet.toList, hinner]
    obtain ⟨hfirst, rfl⟩ := List.append_inj (hlist.symm.trans hcut) he'
    obtain ⟨rfl, rfl⟩ := List.append_inj hfirst hi
    rw [rangeMutIdx_same hm hinner] at hit
    obtain rfl := Option.some.inj hit
    cases post with
    | nil =>
      cases pre with
      | nil => exact Or.inl (by simp [hinner])
      | cons node pre =>
        refine absurd hyields (IterMut.Lags.not_yields ⟨rfl, rfl, ?_, hbound⟩ rfl ?_ rfl)
        · exact (List.length_append).symm
        · exact Nat.succ_pos _
    | cons node post =>
      have hnode : node ≠ [] :=
        (hinner ▸ hm.layout).nonempty_of_length (Or.inr (by simp)) node (by simp)
      refine (false_of_back hyields hbound (by simp) hnode fun z hz hin => ?_).elim
      rw [hcut] at hnodup
      simp only [List.nodup_append, List.mem_append, List.mem_cons, List.flatten_cons] at hnodup
      grind
  · -- two nodes
    have hcut : m.toList = (pre.flatten ++ a) ++ (x :: b ++ mid.flatten ++ c) ++
        (y :: (d ++ post.flatten)) := by
      simp [toList, BTreeSet.toList, hinner]
    have hpart : pre.flatten ++ a ++ x :: b ++ mid.flatten ++ c =
        pre.flatten ++ a ++ (x :: b ++ mid.flatten ++ c) := by simp
    rw [hpart] at he'
    obtain ⟨hfirst, rfl⟩ := List.append_inj (hlist.symm.trans hcut) he'
    obtain ⟨rfl, rfl⟩ := List.append_inj hfirst hi
    have hcall := rangeMutIdx_apart hm hinner
    rw [hpart] at hcall
    rw [hcall] at hit
    obtain rfl := Option.some.inj hit
    rw [hcut] at hnodup
    simp only [List.nodup_append, List.nodup_cons, List.mem_append, List.mem_cons] at hnodup
    have hbehind : ∀ z, z ∈ post.head?.getD [] → z ∈ post.flatten := by
      intro z hz
      cases post with
      | nil => exact absurd hz List.not_mem_nil
      | cons node post => exact List.mem_append_left _ hz
    by_cases hgap : mid.flatten ++ c = []
    · obtain ⟨hmid, hc⟩ := List.append_eq_nil_iff.mp hgap
      subst hc
      obtain rfl : mid = [] := by
        by_contra hne
        obtain ⟨node, nodes, rfl⟩ := List.exists_cons_of_ne_nil hne
        rw [List.flatten_cons, List.append_eq_nil_iff] at hmid
        exact (hinner ▸ hm.layout).nonempty_of_length (Or.inr (by simp)) node (by simp) hmid.1
      refine Or.inr ⟨pre, a, y :: d, post, by simpa using hinner, by simp, ?_⟩
      by_contra hlong
      refine false_of_back hyields hbound (by simp) ?_ fun z hz hin => ?_
      · rw [dropBack, Ne, List.take_eq_nil_iff]
        rintro (hzero | hnil)
        · omega
        · simp [hnil] at hlong
      · have hz := hbehind z (List.mem_of_mem_take hz)
        simp only [List.mem_append, List.mem_cons] at hin
        grind
    · -- an entry of the nodes in between, or in front of the end
      obtain ⟨w, hw⟩ := List.exists_mem_of_ne_nil _ hgap
      have hin := IterMut.mem_remaining_of_yields hyields w (by grind)
      have hparts := IterMut.mem_remaining (l := post) rfl
        (fun z hz => List.mem_of_mem_take hz) w hin
      simp only [List.mem_append, List.mem_cons] at hw hparts
      grind

end Missed

/-- What the trimming leaves of a key range is the range: there is nothing in it and the two
entries around it share a node; or its included end is absent, and it lies in front of an
entry in a single node or fills one of several nodes. -/
def Keeps (m : BTreeMap Q V F) (start stop : Bound K) : Prop :=
  (¬ m.MissesEnd stop ∧ m.entriesIn start stop = [] ∧
      m.set.SharesNode (max 1 (m.toList.filter fun x => ¬ start.Starts (Keyed.key x)).length)) ∨
    (m.MissesEnd stop ∧ (∃ x ∈ m.toList, ¬ stop.Ends (Keyed.key x)) ∧
      (m.set.inner.length = 1 ∨ m.FillsNode (m.entriesIn start stop)))

/-- A range that holds the entry at its end position is never yielded. -/
theorem not_mutYields_of_last (hm : m.Valid) {before inside after : List (Pair Q V)}
    (hlist : m.toList = before ++ inside ++ after) (hne : inside ≠ []) :
    ¬ m.MutYields before.length ((before ++ inside).length - 1) inside := by
  intro h
  obtain ⟨l, last, rfl⟩ := List.eq_nil_or_concat' inside |>.resolve_left hne
  have hend : (before ++ (l ++ [last])).length - 1 = (before ++ l).length := by
    simp only [List.length_append, List.length_singleton]
    omega
  rw [hend] at h
  have hcut : m.toList = (before ++ l) ++ last :: after := by
    rw [hlist]
    simp
  exact h.last_notMem hm hcut (by simp) (by simp)

theorem rangeMut_iff_keeps (hm : m.Valid) (hlen : m.set.len < 2 ^ 64) {start stop : Bound K}
    (hproper : Proper start stop) :
    (∃ it, m.rangeMut start stop = some it ∧
        Yields IterMut.pull it (m.entriesIn start stop)) ↔ m.Keeps start stop := by
  have hasc : Ascending Keyed.key m.toList := hm.layout.ascending
  obtain ⟨before, inside, after, hlist, hbefore, hinside, hafter⟩ := hasc.cut_range start stop
  have ⟨hentries, hstarts, hends⟩ := filter_cut_range hproper hbefore hinside hafter
  rw [← hlist] at hentries hstarts hends
  have hmut : ∀ {i e : ℕ}, m.rangeToIdx start stop = some (i, e) →
      ((∃ it, m.rangeMut start stop = some it ∧ Yields IterMut.pull it inside) ↔
        m.MutYields i e inside) := by
    intro i e hidx
    rw [rangeMut, hidx]
    rfl
  rw [Keeps, show m.entriesIn start stop = inside from hentries, hstarts]
  by_cases hmiss : m.MissesEnd stop
  · rw [hmut (rangeToIdx_of_missed hm hproper hlist hbefore hinside hafter hmiss)]
    simp only [hmiss, not_true_eq_false, false_and, true_and, false_or]
    by_cases hnil : after = []
    · -- no entry behind the range
      subst hnil
      rw [List.append_nil] at hlist
      constructor
      · rintro ⟨it, hit, -⟩
        rw [rangeMutIdx_of_le hm (by rw [hlist])] at hit
        cases hit
      · rintro ⟨⟨x, hx, hout⟩, -⟩
        rw [hlist, ← hends] at hx
        exact absurd (of_decide_eq_true (List.mem_filter.mp hx).2) hout
    · have hsome : ∃ x ∈ m.toList, ¬ stop.Ends (Keyed.key x) := by
        obtain ⟨x, after, rfl⟩ := List.exists_cons_of_ne_nil hnil
        exact ⟨x, by rw [hlist]; simp, hafter x (by simp)⟩
      simp only [hsome, true_and]
      constructor
      · exact fun h => h.fillsNode hm hlen hlist hnil
      · rintro (hone | hfills)
        · exact mutYields_single hm hlen hlist hnil hone
        · exact hfills.mutYields hm hlen hlist hnil
  · have hidx := rangeToIdx_of_met hm hproper hlist hbefore hinside hafter hmiss
    simp only [hmiss, not_false_eq_true, true_and, false_and, or_false]
    by_cases hzero : (before ++ inside).length = 0
    · have ⟨hb, hi⟩ := List.append_eq_nil_iff.mp (List.length_eq_zero_iff.mp hzero)
      rw [if_pos hzero] at hidx
      rw [hmut hidx, hi, hb, mutYields_gap_iff hm hlen]
      simp
    · rw [if_neg hzero] at hidx
      rw [hmut hidx]
      by_cases hnil : inside = []
      · subst hnil
        rw [List.append_nil] at hzero ⊢
        obtain ⟨e, he⟩ : ∃ e, before.length = e + 1 := ⟨before.length - 1, by omega⟩
        rw [he, Nat.add_sub_cancel, mutYields_gap_iff hm hlen, max_eq_right (by omega)]
        simp
      · simp only [hnil, false_and, iff_false]
        exact not_mutYields_of_last hm hlist hnil

/-- `range_mut_idx` with an excluded end. -/
theorem rangeMutIdx_excluded (m : BTreeMap Q V F) (start : Bound ℕ) (e : ℕ) :
    m.rangeMutIdx start (.excluded (e + 1)) = m.rangeMutIdx start (.included e) := by
  simp [rangeMutIdx, BTreeSet.resolveRange, checkedSub]

theorem rangeMutIdx_iff_sharesNode (hm : m.Valid) (hlen : m.set.len < 2 ^ 64) {i e : ℕ}
    (hie : i ≤ e) (he : e ≤ m.toList.length) :
    (∃ it, m.rangeMutIdx (.included i) (.excluded e) = some it ∧
        Yields IterMut.pull it ((m.toList.take e).drop i)) ↔ i = e ∧ m.set.SharesNode i := by
  cases e with
  | zero =>
    have hpanic : m.rangeMutIdx (.included i) (.excluded 0) = none := by
      simp [rangeMutIdx, BTreeSet.resolveRange, checkedSub]
    obtain rfl : i = 0 := Nat.le_zero.mp hie
    rw [hpanic]
    constructor
    · rintro ⟨it, hit, -⟩
      cases hit
    · rintro ⟨-, pre, a, x, y, b, post, -, hpos⟩
      exact absurd hpos (Nat.succ_ne_zero _)
  | succ e =>
    rw [rangeMutIdx_excluded]
    rcases hie.eq_or_lt with rfl | hlt
    · rw [List.drop_eq_nil_of_le (by rw [List.length_take]; exact min_le_left _ _)]
      simp only [true_and]
      exact mutYields_gap_iff hm hlen
    · have hparts : m.toList.take i ++ (m.toList.take (e + 1)).drop i = m.toList.take (e + 1) := by
        have htake : (m.toList.take (e + 1)).take i = m.toList.take i := by
          rw [List.take_take, min_eq_left hlt.le]
        rw [← htake]
        exact List.take_append_drop _ _
      have hcut : m.toList = m.toList.take i ++ (m.toList.take (e + 1)).drop i ++
          m.toList.drop (e + 1) := by
        rw [hparts, List.take_append_drop]
      have hne : (m.toList.take (e + 1)).drop i ≠ [] := by
        rw [Ne, List.drop_eq_nil_iff, List.length_take, not_le, min_eq_left he]
        exact hlt
      have hlast := not_mutYields_of_last hm hcut hne
      rw [hparts, List.length_take, List.length_take, min_eq_left he, Nat.add_sub_cancel,
        min_eq_left (by omega)] at hlast
      exact iff_of_false hlast fun h => absurd h.1 hlt.ne

end BTreeMap

/-- **`range_mut`** and **`range_mut_idx`**: which ranges of keys, and which ranges `i..e` of
positions, are visited exactly once under every sequence of calls, in a build with overflow
checks.  `len` is a machine word. -/
theorem rangeMut_exactlyOnce_iff [LinearOrder K] [Keyed Q K] [LawfulFenwickTree F]
    (m : BTreeMap Q V F) (hm : m.Valid) (hlen : m.set.len < 2 ^ 64) :
    (∀ start stop : Bound K, Proper start stop →
      ((∃ it, m.rangeMut start stop = some it ∧
          Yields IterMut.pull it (m.entriesIn start stop)) ↔ m.Keeps start stop)) ∧
    ∀ i e, i ≤ e → e ≤ m.set.len →
      ((∃ it, m.rangeMutIdx (.included i) (.excluded e) = some it ∧
          Yields IterMut.pull it ((m.toList.take e).drop i)) ↔ i = e ∧ m.set.SharesNode i) := by
  refine ⟨fun start stop hproper => BTreeMap.rangeMut_iff_keeps hm hlen hproper, ?_⟩
  intro i e hie he
  exact BTreeMap.rangeMutIdx_iff_sharesNode hm hlen hie (he.trans hm.len_eq.le)

theorem rangeMut_exactlyOnce_iff_twoEntries :
    (∃ it, twoEntries.rangeMut (.included 1) (.included 3) = some it ∧
        Yields IterMut.pull it (twoEntries.entriesIn (.included 1) (.included 3))) ∧
      ∃ it, twoEntries.rangeMutIdx (.included 1) (.excluded 1) = some it ∧
        Yields IterMut.pull it ((twoEntries.toList.take 1).drop 1) := by
  obtain ⟨hkeys, hpositions⟩ := rangeMut_exactlyOnce_iff twoEntries
    (BTreeMap.Produced.usable twoEntries_produced).1 (by decide)
  constructor
  · refine (hkeys (.included 1) (.included 3) (show 1 ≤ 3 by decide)).mpr (Or.inr ?_)
    exact ⟨⟨3, rfl, by decide⟩, ⟨⟨4, 8⟩, by decide, by decide⟩, Or.inl rfl⟩
  · refine (hpositions 1 1 le_rfl (by decide)).mpr ⟨rfl, ?_⟩
    exact ⟨[], [], ⟨2, 7⟩, ⟨4, 8⟩, [], [], rfl, rfl⟩

/-- `..` ends before the last entry. -/
theorem rangeMut_ends_early :
    twoEntries.Produced ∧ twoEntries.set.len < 2 ^ 64 ∧
      Proper (.unbounded : Bound ℕ) .unbounded ∧
      ¬ ∃ it, twoEntries.rangeMut .unbounded .unbounded = some it ∧
        Yields IterMut.pull it (twoEntries.entriesIn .unbounded .unbounded) := by
  refine ⟨twoEntries_produced, by decide, trivial, ?_⟩
  have hrun : ((twoEntries.rangeMut .unbounded .unbounded).bind fun it =>
      outputs IterMut.pull it [.front, .front]) = some [some ⟨2, 7⟩, none] := by
    decide +kernel
  rintro ⟨it, hit, hyields⟩
  rw [hit, Option.bind_some, yields_iff.mp hyields] at hrun
  exact absurd hrun (by decide +kernel)

end IndexSet
