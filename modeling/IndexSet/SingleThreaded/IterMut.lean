import IndexSet.Lib.DoubleEnded
import IndexSet.SingleThreaded.FiniteMap
import Mathlib.Algebra.Order.BigOperators.Group.List
import Mathlib.Algebra.Order.Group.Nat

/-!
# Mutable Iteration over the `BTreeMap`

`lib.rs`: `IterMut` walks the nodes from both ends with two slice iterators and the nodes
between them.  An item is the pair an entry reference points at.

- `IterMut.next`, `IterMut.nextBack`: the two methods, a round of their recursion a fuel;
- `Walks`: what the fields of an iterator over whole nodes mean;
- `Walks.pull_item`: one call, unless it gives up;
- `GivesUp`: after how many calls at either end `next` gives up, by the sizes of the nodes;
- `iterMut_exactlyOnce_iff`: the sequences of calls that visit every entry exactly once.

`next` gives up when the index of the front node equals the number of nodes between the two
ends, which has nothing to do with whether a node is left.
-/

namespace IndexSet

open KeyedList DoubleEnded

variable {Q V F K : Type}

/-! ## §1 The iterator -/

/-- `usize::wrapping_add(1)`. -/
def wrappingAddOne (n : ℕ) : ℕ := (n + 1) % 2 ^ 64

/-- `usize::wrapping_sub(1)`. -/
def wrappingSubOne (n : ℕ) : ℕ := (n + (2 ^ 64 - 1)) % 2 ^ 64

/-- `struct IterMut`: slice iterators are the lists of what they have left. -/
structure IterMut (Q V : Type) where
  inner : List (List (Pair Q V))
  currentFrontNodeIdx : ℕ
  currentFrontIdx : ℕ
  currentBackNodeIdx : ℕ
  currentBackIdx : ℕ
  currentFrontIterator : List (Pair Q V)
  currentBackIterator : List (Pair Q V)

namespace IterMut

/-- `IterMut::next`; `none` is the panic of a subtraction, or a recursion that has not ended
within `fuel` rounds. -/
def nextLoop : ℕ → IterMut Q V → Option (IterMut Q V × Option (Pair Q V))
  | 0, _ => none
  | fuel + 1, it =>
    if it.currentFrontIdx = wrappingAddOne it.currentBackIdx then some (it, none)
    else
      match it.currentFrontIterator with
      | entry :: front =>
        some ({ it with
          currentFrontIterator := front
          currentFrontIdx := it.currentFrontIdx + 1 }, some entry)
      | [] =>
        -- whether there are any iterators left
        if it.currentFrontNodeIdx = it.inner.length then some (it, none)
        else do
          let previous ← checkedSub it.currentBackNodeIdx 1
          if it.currentFrontNodeIdx = previous then
            -- take from the current back iter
            match it.currentBackIterator with
            | entry :: back =>
              return ({ it with
                currentBackIterator := back
                currentFrontIdx := it.currentFrontIdx + 1 }, some entry)
            | [] => return (it, none)
          else
            -- advance front
            let it := { it with currentFrontNodeIdx := it.currentFrontNodeIdx + 1 }
            match it.inner with
            | node :: inner => nextLoop fuel { it with inner, currentFrontIterator := node }
            | [] => nextLoop fuel it

/-- The test of `next_back` for a single node or adjacent nodes. -/
def adjacent (it : IterMut Q V) : Option Bool :=
  if it.currentFrontNodeIdx = it.currentBackNodeIdx then some true
  else (checkedSub it.currentBackNodeIdx 1).map (it.currentFrontNodeIdx = ·)

/-- `IterMut::next_back`. -/
def nextBackLoop : ℕ → IterMut Q V → Option (IterMut Q V × Option (Pair Q V))
  | 0, _ => none
  | fuel + 1, it =>
    if it.currentFrontIdx = wrappingAddOne it.currentBackIdx then some (it, none)
    else
      match it.currentBackIterator.getLast? with
      | some entry => do
        let currentBackIdx ← checkedSub it.currentBackIdx 1
        return ({ it with
          currentBackIterator := it.currentBackIterator.dropLast
          currentBackIdx }, some entry)
      | none =>
        if it.currentBackNodeIdx = 0 ∧ it.currentFrontNodeIdx ≠ 0 then some (it, none)
        else do
          if ← it.adjacent then
            -- take from the current front iter
            match it.currentFrontIterator.getLast? with
            | some entry =>
              return ({ it with
                currentFrontIterator := it.currentFrontIterator.dropLast
                currentBackIdx :=
                  if 0 < it.currentBackIdx then it.currentBackIdx - 1 else it.currentBackIdx },
                some entry)
            | none => return (it, none)
          else
            -- advance back
            let currentBackNodeIdx ← checkedSub it.currentBackNodeIdx 1
            let it := { it with currentBackNodeIdx }
            match it.inner.getLast? with
            | some node =>
              nextBackLoop fuel { it with inner := it.inner.dropLast, currentBackIterator := node }
            | none => nextBackLoop fuel it

/-- Either method, with rounds enough for every recursion that ends. -/
def pull (it : IterMut Q V) : End → Option (IterMut Q V × Option (Pair Q V))
  | .front => nextLoop (it.inner.length + it.currentBackNodeIdx + 2) it
  | .back => nextBackLoop (it.inner.length + it.currentBackNodeIdx + 2) it

end IterMut

/-- `BTreeMap::iter_mut`; `values_mut` wraps the same iterator. -/
def BTreeMap.iterMut (m : BTreeMap Q V F) : Option (IterMut Q V) := do
  let lastNodeIdx ← checkedSub m.set.inner.length 1
  match m.set.inner with
  | [node] =>
    -- both ends start from the same node
    return {
      inner := []
      currentFrontNodeIdx := 0
      currentFrontIdx := 0
      currentBackNodeIdx := 0
      currentBackIdx := wrappingSubOne m.set.len
      currentFrontIterator := node
      currentBackIterator := [] }
  | inner =>
    return {
      inner := inner.tail.dropLast
      currentFrontNodeIdx := 0
      currentFrontIdx := 0
      currentBackNodeIdx := lastNodeIdx
      currentBackIdx := wrappingSubOne m.set.len
      currentFrontIterator := inner.head?.getD []
      currentBackIterator := inner.tail.getLast?.getD [] }

/-! ## §2 One call -/

namespace IterMut

/-- What is left to yield. -/
def remaining (it : IterMut Q V) : List (Pair Q V) :=
  it.currentFrontIterator ++ it.inner.flatten ++ it.currentBackIterator

/-- The fields of an iterator that has whole nodes between its ends: a single node that both
ends share, or two end nodes and those between them. -/
structure Walks (it : IterMut Q V) (l : List (Pair Q V)) : Prop where
  entries : l = it.remaining
  nodes : ∀ node ∈ it.inner, node ≠ []
  span : l ≠ [] → it.currentFrontIdx + l.length = it.currentBackIdx + 1
  bound : l ≠ [] → it.currentBackIdx + 1 < 2 ^ 64
  shape :
    (it.currentFrontNodeIdx = 0 ∧ it.currentBackNodeIdx = 0 ∧ it.inner = [] ∧
        it.currentBackIterator = []) ∨
      (it.currentBackNodeIdx = it.currentFrontNodeIdx + 1 + it.inner.length ∧
        (1 ≤ it.currentFrontIdx + it.currentFrontIterator.length ∨
          (it.inner = [] ∧ it.currentBackIterator = [])))

/-- A call of `next` that does not give up: if the front node is exhausted and its index is
the number of nodes between the ends, there is nothing left. -/
def Proceeds (it : IterMut Q V) : End → Prop
  | .front => it.currentFrontIterator = [] → it.currentFrontNodeIdx = it.inner.length →
      it.remaining = []
  | .back => True

instance (it : IterMut Q V) : ∀ e, Decidable (it.Proceeds e)
  | .front => inferInstanceAs (Decidable (it.currentFrontIterator = [] →
      it.currentFrontNodeIdx = it.inner.length → it.remaining = []))
  | .back => isTrue trivial

/-- How the two ends move when a call yields an entry: it comes from the slice at its end,
from the slice at the other end, or from the next of the nodes between them. -/
inductive Moves (it it' : IterMut Q V) : End → Prop
  | frontSlice {entry : Pair Q V} :
      it.currentFrontIterator = entry :: it'.currentFrontIterator →
      it'.inner = it.inner → it'.currentBackIterator = it.currentBackIterator →
      it'.currentFrontNodeIdx = it.currentFrontNodeIdx → Moves it it' .front
  | frontBack {entry : Pair Q V} :
      it.currentFrontIterator = [] → it.inner = [] → it.currentFrontNodeIdx ≠ 0 →
      it.currentBackIterator = entry :: it'.currentBackIterator →
      it'.currentFrontIterator = [] → it'.inner = [] →
      it'.currentFrontNodeIdx = it.currentFrontNodeIdx → Moves it it' .front
  | frontInner {entry : Pair Q V} :
      it.currentFrontIterator = [] →
      it.inner = (entry :: it'.currentFrontIterator) :: it'.inner →
      it'.currentBackIterator = it.currentBackIterator →
      it'.currentFrontNodeIdx = it.currentFrontNodeIdx + 1 → Moves it it' .front
  | backSlice {entry : Pair Q V} :
      it.currentBackIterator = it'.currentBackIterator ++ [entry] →
      it'.inner = it.inner → it'.currentFrontIterator = it.currentFrontIterator →
      it'.currentFrontNodeIdx = it.currentFrontNodeIdx → Moves it it' .back
  | backFront {entry : Pair Q V} :
      it.currentBackIterator = [] → it.inner = [] →
      it.currentFrontIterator = it'.currentFrontIterator ++ [entry] →
      it'.currentBackIterator = [] → it'.inner = [] →
      it'.currentFrontNodeIdx = it.currentFrontNodeIdx → Moves it it' .back
  | backInner {entry : Pair Q V} :
      it.currentBackIterator = [] →
      it.inner = it'.inner ++ [it'.currentBackIterator ++ [entry]] →
      it'.currentFrontIterator = it.currentFrontIterator →
      it'.currentFrontNodeIdx = it.currentFrontNodeIdx → Moves it it' .back

variable {it : IterMut Q V} {l : List (Pair Q V)}

theorem adjacent_of_eq (h : it.currentFrontNodeIdx = it.currentBackNodeIdx) :
    it.adjacent = some true :=
  if_pos h

theorem adjacent_of_between {n : ℕ}
    (h : it.currentBackNodeIdx = it.currentFrontNodeIdx + 1 + n) :
    it.adjacent = some (decide (n = 0)) := by
  rw [adjacent, if_neg (by omega), checkedSub, if_pos (by omega), Option.map_some]
  exact congrArg some (decide_eq_decide.mpr (by omega))

/-- The two positions meet only when nothing is left. -/
theorem Walks.not_met (h : it.Walks l) (hl : l ≠ []) :
    it.currentFrontIdx ≠ wrappingAddOne it.currentBackIdx := by
  have hspan := h.span hl
  have hpos := List.length_pos_iff.mpr hl
  rw [wrappingAddOne, Nat.mod_eq_of_lt (h.bound hl)]
  omega

/-- An exhausted iterator answers `None` and stays as it is. -/
theorem Walks.pull_nil (h : it.Walks []) (e : End) : it.pull e = some (it, none) := by
  have hempty : it.currentFrontIterator = [] ∧ it.inner.flatten = [] ∧
      it.currentBackIterator = [] := by
    simpa [remaining, and_assoc] using h.entries.symm
  obtain ⟨hfront, hflat, hback⟩ := hempty
  have hinner : it.inner = [] := by
    cases hi : it.inner with
    | nil => rfl
    | cons node inner =>
      rw [hi, List.flatten_cons, List.append_eq_nil_iff] at hflat
      exact absurd hflat.1 (h.nodes node (by simp [hi]))
  cases e with
  | front =>
    simp only [pull, nextLoop, hfront, hinner, hback, List.length_nil]
    rcases h.shape with ⟨hf, -⟩ | ⟨hb, -⟩
    · simp [hf]
    · rw [hinner, List.length_nil] at hb
      simp [hb, checkedSub]
  | back =>
    rw [pull, nextBackLoop, hback, List.getLast?_nil]
    rcases h.shape with ⟨hf, hb, -⟩ | ⟨hb, -⟩
    · simp [adjacent_of_eq (hf.trans hb.symm), hf, hfront]
    · simp [adjacent_of_between hb, hinner, hfront, hb]

/-- The span after the first entry is taken. -/
theorem Walks.span_tail (h : it.Walks l) {entry : Pair Q V} {tail : List (Pair Q V)}
    (hl : l = entry :: tail) :
    it.currentFrontIdx + 1 + tail.length = it.currentBackIdx + 1 := by
  have hspan := h.span (by simp [hl])
  rw [hl, List.length_cons] at hspan
  omega

/-- `next` takes from the front slice. -/
theorem Walks.pull_front_slice (h : it.Walks l) {entry : Pair Q V} {front : List (Pair Q V)}
    (hfront : it.currentFrontIterator = entry :: front) :
    ∃ it', it.pull .front = some (it', l.head?) ∧ it.Moves it' .front ∧ it'.Walks l.tail := by
  have hcut : l = entry :: (front ++ it.inner.flatten ++ it.currentBackIterator) := by
    rw [h.entries, remaining, hfront]
    rfl
  have hl : l ≠ [] := by simp [hcut]
  have hspan := h.span_tail hcut
  have hbound := h.bound hl
  rw [pull, nextLoop, if_neg (h.not_met hl)]
  simp only [hfront]
  refine ⟨_, by rw [hcut]; rfl, ?_, ?_⟩
  · exact .frontSlice hfront rfl rfl rfl
  rw [hcut]
  refine ⟨rfl, h.nodes, fun _ => hspan, fun _ => hbound, ?_⟩
  exact h.shape.imp_right fun hs => ⟨hs.1, Or.inl (by dsimp only; omega)⟩

/-- With the front slice exhausted and something left, there is another node. -/
theorem Walks.between (h : it.Walks l) (hl : l ≠ []) (hfront : it.currentFrontIterator = []) :
    it.currentBackNodeIdx = it.currentFrontNodeIdx + 1 + it.inner.length ∧
      checkedSub it.currentBackNodeIdx 1 = some (it.currentFrontNodeIdx + it.inner.length) := by
  rcases h.shape with ⟨-, -, hinner, hnil⟩ | ⟨hb, -⟩
  · refine absurd ?_ hl
    rw [h.entries, remaining, hfront, hinner, hnil]
    rfl
  · refine ⟨hb, ?_⟩
    rw [hb, checkedSub, if_pos (by omega)]
    exact congrArg some (by omega)

/-- `next` takes from the back slice when only that is left. -/
theorem Walks.pull_front_back (h : it.Walks l) (hl : l ≠ [])
    (hfront : it.currentFrontIterator = []) (hinner : it.inner = [])
    (hgone : it.currentFrontNodeIdx ≠ it.inner.length) :
    ∃ it', it.pull .front = some (it', l.head?) ∧ it.Moves it' .front ∧ it'.Walks l.tail := by
  obtain ⟨hb, hprevious⟩ := h.between hl hfront
  have hentries := h.entries
  rw [remaining, hfront, hinner, List.flatten_nil, List.nil_append, List.nil_append] at hentries
  obtain ⟨entry, back, hcut⟩ := List.exists_cons_of_ne_nil hl
  have hspan := h.span_tail hcut
  have hbound := h.bound hl
  rw [pull, nextLoop, if_neg (h.not_met hl)]
  simp only [hfront, if_neg hgone, hprevious, Option.bind_eq_bind, Option.bind_some]
  simp only [hinner, List.length_nil, Nat.add_zero, if_true, ← hentries, hcut]
  refine ⟨_, rfl, ?_, ?_⟩
  · exact .frontBack hfront hinner (by simpa [hinner] using hgone) (hentries.symm.trans hcut)
      rfl rfl rfl
  rw [List.tail_cons]
  refine ⟨by simp [remaining], by simp, fun _ => hspan, fun _ => hbound,
    Or.inr ⟨by simpa [hinner] using hb, Or.inl ?_⟩⟩
  dsimp only
  omega

/-- `next` goes to the first of the nodes between the ends. -/
theorem Walks.pull_front_inner (h : it.Walks l) (hfront : it.currentFrontIterator = [])
    {node : List (Pair Q V)} {inner : List (List (Pair Q V))} (hinner : it.inner = node :: inner)
    (hgone : it.currentFrontNodeIdx ≠ it.inner.length) :
    ∃ it', it.pull .front = some (it', l.head?) ∧ it.Moves it' .front ∧ it'.Walks l.tail := by
  obtain ⟨entry, front, rfl⟩ := List.exists_cons_of_ne_nil (h.nodes node (by simp [hinner]))
  have hcut : l = entry :: (front ++ inner.flatten ++ it.currentBackIterator) := by
    rw [h.entries, remaining, hfront, hinner, List.flatten_cons]
    simp
  have hl : l ≠ [] := by simp [hcut]
  obtain ⟨hb, hprevious⟩ := h.between hl hfront
  have hspan := h.span_tail hcut
  have hbound := h.bound hl
  rw [pull, nextLoop, if_neg (h.not_met hl)]
  simp only [hfront, if_neg hgone, hprevious, Option.bind_eq_bind, Option.bind_some]
  simp only [hinner, List.length_cons, Nat.left_eq_add, Nat.add_one_ne_zero, if_false]
  -- the recursive call finds the node in the front slice
  rw [show inner.length + 1 + it.currentBackNodeIdx + 1 =
    (inner.length + it.currentBackNodeIdx + 1) + 1 by omega, nextLoop, if_neg (h.not_met hl)]
  refine ⟨_, by rw [hcut]; rfl, ?_, ?_⟩
  · exact .frontInner hfront hinner rfl rfl
  rw [hcut]
  refine ⟨rfl, fun n hn => h.nodes n (by simp [hinner, hn]), fun _ => hspan,
    fun _ => hbound, Or.inr ⟨?_, Or.inl (by simp; omega)⟩⟩
  dsimp only
  rw [hb, hinner, List.length_cons]
  omega

/-- **`next`** yields the first entry left, unless it gives up. -/
theorem Walks.pull_front (h : it.Walks l) (hl : l ≠ []) (hgo : it.Proceeds .front) :
    ∃ it', it.pull .front = some (it', l.head?) ∧ it.Moves it' .front ∧ it'.Walks l.tail := by
  cases hfront : it.currentFrontIterator with
  | cons entry front => exact h.pull_front_slice hfront
  | nil =>
    have hgone : it.currentFrontNodeIdx ≠ it.inner.length := fun hidx =>
      hl (h.entries.trans (hgo hfront hidx))
    cases hinner : it.inner with
    | nil => exact h.pull_front_back hl hfront hinner hgone
    | cons node inner => exact h.pull_front_inner hfront hinner hgone

/-- The span after the last entry is taken. -/
theorem Walks.span_init (h : it.Walks l) {init : List (Pair Q V)} {entry : Pair Q V} {b : ℕ}
    (hl : l = init ++ [entry]) (hne : init ≠ []) (hb : b = it.currentBackIdx - 1) :
    it.currentFrontIdx + init.length = b + 1 := by
  have hspan := h.span (by simp [hl])
  have hpos := List.length_pos_iff.mpr hne
  have hlen := congrArg List.length hl
  rw [List.length_append, List.length_singleton] at hlen
  omega

/-- The back position can be decremented. -/
theorem Walks.checkedSub_back (h : it.Walks l) {init : List (Pair Q V)} {entry : Pair Q V}
    (hl : l = it.currentFrontIterator ++ init ++ [entry])
    (hpos : 1 ≤ it.currentFrontIdx + it.currentFrontIterator.length) :
    checkedSub it.currentBackIdx 1 = some (it.currentBackIdx - 1) := by
  have hspan := h.span (by simp [hl])
  rw [hl] at hspan
  simp only [List.length_append, List.length_singleton] at hspan
  rw [checkedSub, if_pos (by omega)]

/-- `next_back` takes from the back slice. -/
theorem Walks.pull_back_slice (h : it.Walks l) {back : List (Pair Q V)} {entry : Pair Q V}
    (hback : it.currentBackIterator = back ++ [entry]) :
    ∃ it', it.pull .back = some (it', l.getLast?) ∧ it.Moves it' .back ∧ it'.Walks l.dropLast := by
  have hcut : l = it.currentFrontIterator ++ (it.inner.flatten ++ back) ++ [entry] := by
    rw [h.entries, remaining, hback]
    simp
  have hl : l ≠ [] := by simp [hcut]
  rcases h.shape with ⟨-, -, -, hnil⟩ | ⟨hb, hpos⟩
  · exact absurd (hback.symm.trans hnil) (by simp)
  · have hfront : 1 ≤ it.currentFrontIdx + it.currentFrontIterator.length :=
      hpos.resolve_right fun hnil => absurd (hback.symm.trans hnil.2) (by simp)
    have hbound := h.bound hl
    rw [pull, nextBackLoop, if_neg (h.not_met hl)]
    simp only [hback, List.getLast?_concat, h.checkedSub_back hcut hfront, Option.bind_eq_bind,
      Option.bind_some, List.dropLast_concat]
    refine ⟨_, by rw [hcut, List.getLast?_concat]; rfl, ?_, ?_⟩
    · exact .backSlice hback rfl rfl rfl
    rw [hcut, List.dropLast_concat]
    exact ⟨(List.append_assoc ..).symm, h.nodes, fun hne => h.span_init hcut hne rfl,
      fun _ => by dsimp only; omega, Or.inr ⟨hb, Or.inl hfront⟩⟩

/-- `next_back` takes from the front slice when only that is left. -/
theorem Walks.pull_back_front (h : it.Walks l) (hl : l ≠ []) (hinner : it.inner = [])
    (hnil : it.currentBackIterator = []) :
    ∃ it', it.pull .back = some (it', l.getLast?) ∧ it.Moves it' .back ∧ it'.Walks l.dropLast := by
  have hgo : ¬ (it.currentBackNodeIdx = 0 ∧ it.currentFrontNodeIdx ≠ 0) := by
    rcases h.shape with ⟨hf, -⟩ | ⟨hb, -⟩ <;> omega
  have hadjacent : it.adjacent = some true := by
    rcases h.shape with ⟨hf, hb, -⟩ | ⟨hb, -⟩
    · exact adjacent_of_eq (hf.trans hb.symm)
    · rw [adjacent_of_between hb, hinner]
      rfl
  have hspan := h.span hl
  have hbound := h.bound hl
  have hpos := List.length_pos_iff.mpr hl
  obtain ⟨front, entry, hsplit⟩ := (List.eq_nil_or_concat' l).resolve_left hl
  have hfront : it.currentFrontIterator = front ++ [entry] := by
    have hentries := h.entries
    rw [remaining, hnil, hinner, List.flatten_nil, List.append_nil, List.append_nil] at hentries
    exact hentries.symm.trans hsplit
  rw [pull, nextBackLoop, if_neg (h.not_met hl)]
  simp only [hnil, List.getLast?_nil, if_neg hgo, hadjacent, hfront, List.getLast?_concat,
    List.dropLast_concat, hsplit, if_true, Option.bind_eq_bind, Option.bind_some]
  refine ⟨_, rfl, ?_, ⟨?_, h.nodes, fun hne => h.span_init hsplit hne ?_, fun _ => ?_, ?_⟩⟩
  · exact .backFront hnil hinner hfront rfl hinner rfl
  · simp [remaining, hinner]
  · dsimp only
    split <;> omega
  · dsimp only
    split <;> omega
  · rcases h.shape with ⟨hf, hb, -⟩ | ⟨hb, -⟩
    · exact Or.inl ⟨hf, hb, hinner, rfl⟩
    · exact Or.inr ⟨hb, Or.inr ⟨hinner, rfl⟩⟩

/-- `next_back` goes to the last of the nodes between the ends. -/
theorem Walks.pull_back_inner (h : it.Walks l) {inner : List (List (Pair Q V))}
    {node : List (Pair Q V)} (hinner : it.inner = inner ++ [node])
    (hnil : it.currentBackIterator = []) :
    ∃ it', it.pull .back = some (it', l.getLast?) ∧ it.Moves it' .back ∧ it'.Walks l.dropLast := by
  obtain ⟨back, entry, rfl⟩ := (List.eq_nil_or_concat' node).resolve_left
    (h.nodes node (by simp [hinner]))
  have hcut : l = it.currentFrontIterator ++ (inner.flatten ++ back) ++ [entry] := by
    rw [h.entries, remaining, hnil, hinner]
    simp
  have hl : l ≠ [] := by simp [hcut]
  have hmet := h.not_met hl
  have hbound := h.bound hl
  rcases h.shape with ⟨-, -, hshape, -⟩ | ⟨hb, hpos⟩
  · exact absurd (hinner.symm.trans hshape) (by simp)
  · have hfront : 1 ≤ it.currentFrontIdx + it.currentFrontIterator.length :=
      hpos.resolve_right fun hshape => absurd (hinner.symm.trans hshape.1) (by simp)
    have hprevious : checkedSub it.currentBackNodeIdx 1 =
        some (it.currentFrontNodeIdx + it.inner.length) := by
      rw [hb, checkedSub, if_pos (by omega)]
      exact congrArg some (by omega)
    rw [pull, nextBackLoop, if_neg hmet]
    simp only [hnil, List.getLast?_nil]
    rw [if_neg (by omega), adjacent_of_between hb, hprevious]
    simp only [hinner, List.length_append, List.length_singleton, Option.bind_eq_bind,
      Option.bind_some, List.getLast?_concat, List.dropLast_concat]
    -- the recursive call finds the node in the back slice
    rw [if_neg (by simp),
      show inner.length + 1 + it.currentBackNodeIdx + 1 =
        (inner.length + it.currentBackNodeIdx + 1) + 1 by omega, nextBackLoop, if_neg hmet]
    simp only [List.getLast?_concat, h.checkedSub_back hcut hfront, Option.bind_eq_bind,
      Option.bind_some, List.dropLast_concat]
    refine ⟨_, by rw [hcut, List.getLast?_concat]; rfl, ?_, ?_⟩
    · exact .backInner hnil hinner rfl rfl
    rw [hcut, List.dropLast_concat]
    refine ⟨(List.append_assoc ..).symm, fun n hn => h.nodes n (by simp [hinner, hn]),
      fun hne => h.span_init hcut hne rfl, fun _ => by dsimp only; omega,
      Or.inr ⟨?_, Or.inl hfront⟩⟩
    dsimp only
    rw [hinner, List.length_append, List.length_singleton] at hb
    omega

/-- **`next_back`** yields the last entry left. -/
theorem Walks.pull_back (h : it.Walks l) (hl : l ≠ []) :
    ∃ it', it.pull .back = some (it', l.getLast?) ∧ it.Moves it' .back ∧ it'.Walks l.dropLast := by
  rcases List.eq_nil_or_concat' it.currentBackIterator with hnil | ⟨back, entry, hback⟩
  · rcases List.eq_nil_or_concat' it.inner with hinner | ⟨inner, node, hinner⟩
    · exact h.pull_back_front hl hinner hnil
    · exact h.pull_back_inner hinner hnil
  · exact h.pull_back_slice hback

/-- A call that does not go on yields nothing although something is left. -/
theorem Walks.pull_gaveUp (h : it.Walks l) {e : End} (hstop : ¬ it.Proceeds e) :
    it.pull e = some (it, none) ∧ l ≠ [] := by
  cases e with
  | back => exact absurd trivial hstop
  | front =>
    simp only [Proceeds, Classical.not_imp] at hstop
    obtain ⟨hfront, hidx, hleft⟩ := hstop
    have hl : l ≠ [] := fun hl => hleft (h.entries.symm.trans hl)
    refine ⟨?_, hl⟩
    rw [pull, nextLoop, if_neg (h.not_met hl)]
    simp only [hfront, hidx, if_true]

/-- **One call**: it gets the answer of the list of what is left if and only if it proceeds. -/
theorem Walks.pull_item (h : it.Walks l) (e : End) (hgo : it.Proceeds e) :
    ∃ it', it.pull e = some (it', item l e) ∧ (l = [] ∧ it' = it ∨ it.Moves it' e) ∧
      it'.Walks (rest l e) := by
  by_cases hl : l = []
  · subst hl
    refine ⟨it, ?_, Or.inl ⟨rfl, rfl⟩, ?_⟩
    · rw [h.pull_nil, item_nil]
    · rw [rest_nil]
      exact h
  · cases e with
    | front =>
      obtain ⟨it', hpull, hmoves, hw⟩ := h.pull_front hl hgo
      exact ⟨it', hpull, Or.inr hmoves, hw⟩
    | back =>
      obtain ⟨it', hpull, hmoves, hw⟩ := h.pull_back hl
      exact ⟨it', hpull, Or.inr hmoves, hw⟩

end IterMut

/-! ## §3 Which calls give up -/

/-- `count` items taken from the start of a list cut into parts reach into part `n`. -/
def Within (sizes : List ℕ) (n count : ℕ) : Prop :=
  (n = 0 ∨ (sizes.take n).sum < count) ∧ count ≤ (sizes.take (n + 1)).sum

instance (sizes : List ℕ) (n count : ℕ) : Decidable (Within sizes n count) :=
  inferInstanceAs (Decidable (_ ∧ _))

/-- A call of `next` gives up, after `p` calls of `next` and `q` of `next_back` on nodes of the
given sizes: something is left, `next` has yielded just the first `f + 1` nodes, `next_back` has
come into node `b` from the end, and `f` nodes lie between the two. -/
def GivesUp (sizes : List ℕ) (p q : ℕ) : Prop :=
  p + q < sizes.sum ∧ ∃ f < sizes.length, ∃ b < sizes.length,
    (f + 1) + f + (b + 1) = sizes.length ∧ p = (sizes.take (f + 1)).sum ∧
      Within sizes.reverse b q

instance (sizes : List ℕ) (p q : ℕ) : Decidable (GivesUp sizes p q) :=
  inferInstanceAs (Decidable (_ ∧ _))

/-- No call gives up, after `p` calls of `next` and `q` of `next_back`. -/
def NeverGivesUp (sizes : List ℕ) : ℕ → ℕ → List End → Prop
  | _, _, [] => True
  | p, q, .front :: calls => ¬ GivesUp sizes p q ∧ NeverGivesUp sizes (p + 1) q calls
  | p, q, .back :: calls => NeverGivesUp sizes p (q + 1) calls

instance decidableNeverGivesUp (sizes : List ℕ) :
    ∀ p q calls, Decidable (NeverGivesUp sizes p q calls)
  | _, _, [] => isTrue trivial
  | p, q, .front :: calls =>
    have := decidableNeverGivesUp sizes (p + 1) q calls
    inferInstanceAs (Decidable (_ ∧ _))
  | p, q, .back :: calls => decidableNeverGivesUp sizes p (q + 1) calls

theorem Within.unique {sizes : List ℕ} {m n count : ℕ} (hm : Within sizes m count)
    (hn : Within sizes n count) : m = n := by
  rcases lt_trichotomy m n with hlt | heq | hlt
  · have hle : (sizes.take (m + 1)).sum ≤ (sizes.take n).sum :=
      List.monotone_sum_take sizes (by omega)
    have := hm.2
    have := hn.1
    omega
  · exact heq
  · have hle : (sizes.take (n + 1)).sum ≤ (sizes.take m).sum :=
      List.monotone_sum_take sizes (by omega)
    have := hn.2
    have := hm.1
    omega

theorem sum_take_cut (before after : List ℕ) (size : ℕ) :
    ((before ++ size :: after).take (before.length + 1)).sum = before.sum + size := by
  rw [List.take_append, List.take_of_length_le (by omega), Nat.add_sub_cancel_left,
    List.take_succ_cons, List.take_zero, List.sum_append, List.sum_singleton]

/-- Reaching into the part that comes after some others. -/
theorem within_cut {before after : List ℕ} {size count : ℕ} :
    Within (before ++ size :: after) before.length count ↔
      (before = [] ∨ before.sum < count) ∧ count ≤ before.sum + size := by
  rw [Within, sum_take_cut, List.take_left, List.length_eq_zero_iff]

/-- The same from the other end. -/
theorem within_reverse_cut {before after : List ℕ} {size count : ℕ} :
    Within (before ++ size :: after).reverse after.length count ↔
      (after = [] ∨ after.sum < count) ∧ count ≤ after.sum + size := by
  have hrev : (before ++ size :: after).reverse = after.reverse ++ size :: before.reverse := by
    simp
  rw [hrev, show after.length = after.reverse.length by simp, within_cut, List.sum_reverse,
    List.reverse_eq_nil_iff]

/-- A part that is not empty is the one its last item is in. -/
theorem within_take {sizes : List ℕ} (hpos : ∀ n ∈ sizes, 0 < n) {f : ℕ} (hf : f < sizes.length) :
    Within sizes f (sizes.take (f + 1)).sum := by
  have hpart := hpos _ (List.getElem_mem hf)
  refine ⟨Or.inr ?_, le_rfl⟩
  rw [← List.take_concat_get' sizes f hf, List.sum_append, List.sum_singleton]
  omega

/-- The nodes a call that gives up finds the ends in. -/
theorem GivesUp.nodes {sizes : List ℕ} {p q b : ℕ} (h : GivesUp sizes p q)
    (hb : Within sizes.reverse b q) :
    ∃ f, f + 1 + f + (b + 1) = sizes.length ∧ p = (sizes.take (f + 1)).sum := by
  obtain ⟨-, f, -, b', -, hnodes, hp, hb'⟩ := h
  obtain rfl := hb.unique hb'
  exact ⟨f, hnodes, hp⟩

namespace IterMut

/-- Where the two ends stand in the nodes, after `p` calls of `next` and `q` of `next_back` that
yielded entries. -/
inductive Placed (sizes : List ℕ) (it : IterMut Q V) (p q : ℕ) : Prop
  /-- Both ends share a node. -/
  | single : sizes.length = 1 → it.inner = [] → it.currentBackIterator = [] → Placed sizes it p q
  /-- Each end is in its node. -/
  | apart {f m b : List ℕ} {x y : ℕ} : sizes = f ++ x :: (m ++ y :: b) →
      it.currentFrontNodeIdx = f.length → it.inner.map List.length = m →
      p + it.currentFrontIterator.length = f.sum + x → (f = [] ∨ f.sum < p) →
      q + it.currentBackIterator.length = b.sum + y → (b = [] ∨ b.sum < q) →
      Placed sizes it p q
  /-- `next` has come into the last slice. -/
  | frontDone {f b : List ℕ} {x y : ℕ} : sizes = f ++ x :: y :: b →
      it.currentFrontNodeIdx = f.length → f ≠ [] → it.inner = [] →
      it.currentFrontIterator = [] → f.sum + x ≤ p →
      (b = [] ∨ b.sum < q) → q ≤ b.sum + y → Placed sizes it p q
  /-- `next_back` has come into the first slice. -/
  | backDone {f b : List ℕ} {x y : ℕ} : sizes = f ++ x :: y :: b →
      it.currentFrontNodeIdx = f.length → it.inner = [] → it.currentBackIterator = [] →
      b.sum + y ≤ q → (f = [] ∨ f.sum < p) → p ≤ f.sum + x → Placed sizes it p q

/-- Calls so far, and where the ends stand; once everything is yielded further calls count. -/
def Tracked (sizes : List ℕ) (it : IterMut Q V) (p q : ℕ) : Prop :=
  (it.remaining = [] ∧ sizes.sum ≤ p + q) ∨
    (Placed sizes it p q ∧ p + q + it.remaining.length = sizes.sum)

variable {it it' : IterMut Q V} {l : List (Pair Q V)} {sizes : List ℕ} {p q : ℕ}

/-- **One call** that yields an entry moves its end on. -/
theorem Placed.moves {e : End} (h : Placed sizes it p q)
    (htotal : p + q + it.remaining.length = sizes.sum) (hmoves : it.Moves it' e) :
    match e with
    | .front => Placed sizes it' (p + 1) q
    | .back => Placed sizes it' p (q + 1) := by
  -- by where the call finds its entry, and then by where the ends stand
  cases hmoves with
  | frontSlice hfront hinner hback hidx =>
    have hlen := congrArg List.length hfront
    rw [List.length_cons] at hlen
    cases h with
    | single hone hnone hnil => exact .single hone (hinner.trans hnone) (hback.trans hnil)
    | apart hsizes hf hmid hp hin hq hin' =>
      exact .apart hsizes (hidx.trans hf) (hinner ▸ hmid) (by omega) (hin.imp_right (by omega))
        (hback ▸ hq) hin'
    | frontDone hsizes hf hne hnone hnil => simp [hfront] at hnil
    | backDone hsizes hf hnone hnil hq hin hp =>
      simp [remaining, hnone, hnil, hsizes] at htotal
      exact .backDone hsizes (hidx.trans hf) (hinner.trans hnone) (hback.trans hnil) hq
        (hin.imp_right (by omega)) (by omega)
  | frontBack hfront hinner hzero hback hfront' hinner' hidx =>
    have hlen := congrArg List.length hback
    rw [List.length_cons] at hlen
    cases h with
    | single hone hnone hnil => simp [hback] at hnil
    | apart hsizes hf hmid hp hin hq hin' =>
      rw [hinner] at hmid
      subst hmid
      rw [hfront, List.length_nil] at hp
      -- no node is left between the ends
      exact .frontDone hsizes (hidx.trans hf) (fun hnil => hzero (by simp [hf, hnil])) hinner'
        hfront' (by omega) hin' (by omega)
    | frontDone hsizes hf hne hnone hnil hp hin hq =>
      exact .frontDone hsizes (hidx.trans hf) hne hinner' hfront' (by omega) hin hq
    | backDone hsizes hf hnone hnil => simp [hback] at hnil
  | frontInner hfront hinner hback hidx =>
    cases h with
    | single hone hnone hnil => simp [hinner] at hnone
    | @apart fr mid bk x y hsizes hf hmid hp hin hq hin' =>
      rw [hinner] at hmid
      subst hmid
      rw [hfront, List.length_nil] at hp
      -- the front end has the first of the nodes between
      refine .apart (f := fr ++ [x]) (by simpa using hsizes) (by simp [hidx, hf]) rfl ?_ ?_
        (hback ▸ hq) hin'
      · simp
        omega
      · simp
        omega
    | frontDone hsizes hf hne hnone hnil => simp [hinner] at hnone
    | backDone hsizes hf hnone hnil => simp [hinner] at hnone
  | backSlice hback hinner hfront hidx =>
    have hlen := congrArg List.length hback
    rw [List.length_append, List.length_singleton] at hlen
    cases h with
    | single hone hnone hnil => simp [hback] at hnil
    | apart hsizes hf hmid hp hin hq hin' =>
      exact .apart hsizes (hidx.trans hf) (hinner ▸ hmid) (hfront ▸ hp) hin (by omega)
        (hin'.imp_right (by omega))
    | frontDone hsizes hf hne hnone hnil hp hin hq =>
      simp [remaining, hnone, hnil, hsizes] at htotal
      exact .frontDone hsizes (hidx.trans hf) hne (hinner.trans hnone) (hfront.trans hnil) hp
        (hin.imp_right (by omega)) (by omega)
    | backDone hsizes hf hnone hnil => simp [hback] at hnil
  | backFront hback hinner hfront hback' hinner' hidx =>
    have hlen := congrArg List.length hfront
    rw [List.length_append, List.length_singleton] at hlen
    cases h with
    | single hone hnone hnil => exact .single hone hinner' hback'
    | apart hsizes hf hmid hp hin hq hin' =>
      rw [hinner] at hmid
      subst hmid
      rw [hback, List.length_nil] at hq
      -- no node is left between the ends
      exact .backDone hsizes (hidx.trans hf) hinner' hback' (by omega) hin (by omega)
    | frontDone hsizes hf hne hnone hnil => simp [hfront] at hnil
    | backDone hsizes hf hnone hnil hq hin hp =>
      exact .backDone hsizes (hidx.trans hf) hinner' hback' (by omega) hin hp
  | backInner hback hinner hfront hidx =>
    cases h with
    | single hone hnone hnil => simp [hinner] at hnone
    | @apart fr mid bk x y hsizes hf hmid hp hin hq hin' =>
      rw [hinner] at hmid
      subst hmid
      rw [hback, List.length_nil] at hq
      -- the back end has the last of the nodes between
      refine .apart (b := y :: bk) (by simpa using hsizes) (hidx.trans hf) rfl (hfront ▸ hp) hin
        ?_ ?_
      · simp
        omega
      · simp
        omega
    | frontDone hsizes hf hne hnone hnil => simp [hinner] at hnone
    | backDone hsizes hf hnone hnil => simp [hinner] at hnone

/-- Until everything is yielded, `next` gives up exactly when the numbers of calls say so. -/
theorem Placed.proceeds_iff (h : Placed sizes it p q) (hpos : sizes.length ≠ 1 → ∀ n ∈ sizes, 0 < n)
    (htotal : p + q + it.remaining.length = sizes.sum) (hleft : it.remaining ≠ []) :
    it.Proceeds .front ↔ ¬ GivesUp sizes p q := by
  have hrest := List.length_pos_iff.mpr hleft
  cases h with
  | single hone hnone hnil =>
    refine iff_of_true (fun hfront _ => by simp [remaining, hfront, hnone, hnil]) ?_
    rintro ⟨-, f, -, b, -, hnodes, -⟩
    omega
  | @apart fr mid bk x y hsizes hf hmid hp hin hq hin' =>
    have hlength : sizes.length = fr.length + mid.length + bk.length + 2 := by
      rw [hsizes]
      simp
      omega
    have htake : (sizes.take (fr.length + 1)).sum = fr.sum + x := by
      rw [hsizes, sum_take_cut]
    have hb : Within sizes.reverse bk.length q := by
      rw [hsizes, show fr ++ x :: (mid ++ y :: bk) = (fr ++ x :: mid) ++ y :: bk by simp,
        within_reverse_cut]
      exact ⟨hin', by omega⟩
    have hfr : Within sizes fr.length p := by
      rw [hsizes, within_cut]
      exact ⟨hin, by omega⟩
    have hmid' : it.inner.length = mid.length := by rw [← hmid, List.length_map]
    constructor
    · -- the ends it gives up at are those where the code looks
      intro hgo hgives
      obtain ⟨f, hnodes, hp'⟩ := hgives.nodes hb
      obtain rfl := hfr.unique (hp' ▸ within_take (hpos (by omega)) (by omega))
      rw [htake] at hp'
      exact hleft (hgo (List.length_eq_zero_iff.mp (by omega)) (by omega))
    · -- where the code looks, the front node is exhausted
      intro hnot hfront hidx
      refine absurd ⟨by omega, fr.length, by omega, bk.length, by omega, by omega, ?_, hb⟩ hnot
      rw [hfront, List.length_nil] at hp
      rw [htake]
      omega
  | @frontDone fr bk x y hsizes hf hne hnone hnil hp hin hq =>
    have hfr := List.length_pos_iff.mpr hne
    refine iff_of_true (fun _ hidx => absurd hidx (by rw [hnone, hf, List.length_nil]; omega)) ?_
    intro hgives
    have hb : Within sizes.reverse bk.length q := by
      rw [hsizes, show fr ++ x :: y :: bk = (fr ++ [x]) ++ y :: bk by simp, within_reverse_cut]
      exact ⟨hin, hq⟩
    -- half way to the last slice `next` has not yielded that much
    obtain ⟨f, hnodes, hp'⟩ := hgives.nodes hb
    have hlength : sizes.length = fr.length + bk.length + 2 := by
      rw [hsizes]
      simp
      omega
    have hle : (sizes.take (f + 1)).sum ≤ (sizes.take fr.length).sum :=
      List.monotone_sum_take sizes (by omega)
    have htake : (sizes.take fr.length).sum = fr.sum := by simp [hsizes]
    have hx := hpos (by omega) x (by simp [hsizes])
    omega
  | @backDone fr bk x y hsizes hf hnone hnil hq hin hp =>
    refine iff_of_true (fun hfront _ => by simp [remaining, hfront, hnone, hnil]) ?_
    rintro ⟨hsum, f, hf', b, -, hnodes, hp', -⟩
    have hfr : Within sizes fr.length p := by
      rw [hsizes, within_cut]
      exact ⟨hin, hp⟩
    -- `next` would have yielded its whole node, and nothing were left
    obtain rfl := hfr.unique (hp' ▸ within_take (hpos (by omega)) hf')
    rw [hsizes, sum_take_cut] at hp'
    simp [hsizes] at hsum
    omega

theorem Moves.length_remaining {e : End} (h : it.Moves it' e) :
    it.remaining.length = it'.remaining.length + 1 := by
  cases h <;> simp [remaining, *] <;> omega

/-- **One call** keeps track of the ends, also after everything is yielded. -/
theorem Walks.tracked {e : End} (h : it.Walks l) (ht : Tracked sizes it p q)
    (hmoved : l = [] ∧ it' = it ∨ it.Moves it' e) :
    match e with
    | .front => Tracked sizes it' (p + 1) q
    | .back => Tracked sizes it' p (q + 1) := by
  rcases hmoved with ⟨hl, rfl⟩ | hmoves
  · -- nothing is left: the calls still count, and count for nothing
    have hnil := h.entries.symm.trans hl
    have hsum : sizes.sum ≤ p + q := by
      rcases ht with ⟨-, hsum⟩ | ⟨-, htotal⟩
      · exact hsum
      · rw [hnil, List.length_nil] at htotal
        exact htotal.ge
    cases e with
    | front => exact Or.inl ⟨hnil, by omega⟩
    | back => exact Or.inl ⟨hnil, by omega⟩
  · have hlen := hmoves.length_remaining
    rcases ht with ⟨hnil, -⟩ | ⟨hplaced, htotal⟩
    · rw [hnil, List.length_nil] at hlen
      omega
    · have hmoved := hplaced.moves htotal hmoves
      cases e with
      | front => exact Or.inr ⟨hmoved, by omega⟩
      | back => exact Or.inr ⟨hmoved, by omega⟩

/-- Along the calls, what the code tests is what the numbers of calls say. -/
theorem Walks.along_iff (hpos : sizes.length ≠ 1 → ∀ n ∈ sizes, 0 < n) {calls : List End}
    (hw : it.Walks l) (ht : Tracked sizes it p q) :
    Along pull Proceeds it calls ↔ NeverGivesUp sizes p q calls := by
  induction calls generalizing it l p q with
  | nil => exact Iff.rfl
  | cons e calls ih =>
    -- the call goes on if and only if it does not give up
    have hgo : it.Proceeds e ↔ (e = .front → ¬ GivesUp sizes p q) := by
      cases e with
      | back => simp [Proceeds]
      | front =>
        rcases ht with ⟨hnil, hsum⟩ | ⟨hplaced, htotal⟩
        · exact iff_of_true (fun _ _ => hnil) fun _ hgives => absurd hgives.1 (by omega)
        · by_cases hleft : it.remaining = []
          · rw [hleft, List.length_nil] at htotal
            exact iff_of_true (fun _ _ => hleft) fun _ hgives => absurd hgives.1 (by omega)
          · simpa using hplaced.proceeds_iff hpos htotal hleft
    by_cases hstop : it.Proceeds e
    · obtain ⟨it', hpull, hmoved, hw'⟩ := hw.pull_item e hstop
      have htracked := hw.tracked ht hmoved
      rw [Along, hpull]
      cases e with
      | front =>
        exact and_congr (hgo.trans (by simp)) (ih hw' htracked)
      | back =>
        exact (and_iff_right hstop).trans (ih hw' htracked)
    · refine iff_of_false (fun halong => hstop halong.1) fun hnever => hstop (hgo.mpr ?_)
      rintro rfl
      exact hnever.1

end IterMut

/-! ## §4 All calls -/

variable [LinearOrder K] [Keyed Q K] [LawfulFenwickTree F]

/-- The lengths of the nodes. -/
def BTreeMap.nodeSizes (m : BTreeMap Q V F) : List ℕ := m.set.inner.map List.length

omit [LinearOrder K] [Keyed Q K] [LawfulFenwickTree F] in
theorem BTreeMap.sum_nodeSizes (m : BTreeMap Q V F) : m.nodeSizes.sum = m.toList.length := by
  rw [nodeSizes, toList, BTreeSet.toList, List.length_flatten]

/-- Only a single node may be empty. -/
theorem BTreeMap.Valid.nodeSizes_pos {m : BTreeMap Q V F} (h : m.Valid)
    (hone : m.nodeSizes.length ≠ 1) : ∀ n ∈ m.nodeSizes, 0 < n := by
  rw [nodeSizes, List.length_map] at hone
  intro n hn
  obtain ⟨node, hnode, rfl⟩ := List.mem_map.mp hn
  exact List.length_pos_iff.mpr fun hnil => hone (h.layout.alone_of_nil node hnode hnil)

/-- A new iterator has everything ahead of it. -/
theorem BTreeMap.Valid.walks {m : BTreeMap Q V F} (h : m.Valid) (hlen : m.set.len < 2 ^ 64) :
    ∃ it, m.iterMut = some it ∧ it.Walks m.toList ∧ it.Tracked m.nodeSizes 0 0 := by
  have htotal : ∀ it : IterMut Q V, m.toList = it.remaining →
      0 + 0 + it.remaining.length = m.nodeSizes.sum := fun it heq => by
    rw [← heq, m.sum_nodeSizes]
    omega
  have hback : m.toList ≠ [] → wrappingSubOne m.set.len + 1 = m.toList.length := by
    intro hne
    have hpos := List.length_pos_iff.mpr hne
    have hlist : m.set.len = m.toList.length := h.len_eq
    rw [wrappingSubOne]
    omega
  have hbound : m.toList ≠ [] → wrappingSubOne m.set.len + 1 < 2 ^ 64 := by
    intro hne
    rw [hback hne]
    exact h.len_eq ▸ hlen
  rcases hinner : m.set.inner with - | ⟨node, nodes⟩
  · exact absurd hinner h.layout.ne_nil
  · have hlist : m.toList = node ++ nodes.flatten := by
      rw [toList, BTreeSet.toList, hinner, List.flatten_cons]
    rcases List.eq_nil_or_concat' nodes with rfl | ⟨inner, last, rfl⟩
    · -- a single node
      refine ⟨{
        inner := []
        currentFrontNodeIdx := 0
        currentFrontIdx := 0
        currentBackNodeIdx := 0
        currentBackIdx := wrappingSubOne m.set.len
        currentFrontIterator := node
        currentBackIterator := [] }, by rw [iterMut, hinner]; rfl, ?_, ?_⟩
      · refine ⟨by simp [IterMut.remaining, hlist], by simp, fun hne => ?_, hbound,
          Or.inl ⟨rfl, rfl, rfl, rfl⟩⟩
        dsimp only
        rw [hback hne, Nat.zero_add]
      · refine Or.inr ⟨.single ?_ rfl rfl, htotal _ (by simp [IterMut.remaining, hlist])⟩
        rw [nodeSizes, hinner]
        rfl
    · have hfilled := (hinner ▸ h.layout : Layout ([] ++ node :: (inner ++ [last])))
        |>.nonempty_of_length (Or.inr (by simp))
      refine ⟨{
        inner
        currentFrontNodeIdx := 0
        currentFrontIdx := 0
        currentBackNodeIdx := inner.length + 1
        currentBackIdx := wrappingSubOne m.set.len
        currentFrontIterator := node
        currentBackIterator := last }, ?_, ?_, ?_⟩
      · rw [iterMut, hinner]
        have hends : (inner ++ [last]).dropLast = inner ∧
            (inner ++ [last]).getLast?.getD [] = last := by simp
        cases inner <;> simp_all [checkedSub]
      · refine ⟨by simp [IterMut.remaining, hlist], fun n hn => hfilled n (by simp [hn]),
          fun hne => ?_, hbound, Or.inr ⟨by dsimp only; omega, Or.inl ?_⟩⟩
        · dsimp only
          rw [hback hne, Nat.zero_add]
        · rw [Nat.zero_add]
          exact List.length_pos_iff.mpr (hfilled node (by simp))
      · refine Or.inr ⟨.apart (f := []) (b := []) (x := node.length) (y := last.length) ?_ rfl rfl
          (by simp) (Or.inl rfl) (by simp) (Or.inl rfl),
          htotal _ (by simp [IterMut.remaining, hlist])⟩
        simp [nodeSizes, hinner]

/-- **`iter_mut`**: a sequence of calls visits every entry exactly once if and only if no call
of it gives up.  `len` is a machine word. -/
theorem iterMut_exactlyOnce_iff (m : BTreeMap Q V F) (h : m.Valid) (hlen : m.set.len < 2 ^ 64) :
    ∃ it, m.iterMut = some it ∧ ∀ calls,
      (∃ answers, outputs IterMut.pull it calls = some answers ∧
          ExactlyOnce m.toList calls answers) ↔
        NeverGivesUp m.nodeSizes 0 0 calls := by
  obtain ⟨it, hit, hwalks, htracked⟩ := h.walks hlen
  refine ⟨it, hit, fun calls => ?_⟩
  simp only [exactlyOnce_iff, exists_eq_right]
  rw [← hwalks.along_iff h.nodeSizes_pos htracked]
  refine outputs_eq_iff (fun it l e hw hgo => ?_) ?_ hwalks calls
  · obtain ⟨it', hpull, -, hw'⟩ := hw.pull_item e hgo
    exact ⟨it', hpull, hw'⟩
  · intro it l e hw hstop it' hpull
    obtain ⟨hnone, hl⟩ := hw.pull_gaveUp hstop
    rw [hnone, Option.some.injEq, Prod.mk.injEq] at hpull
    exact hl (item_eq_none.mp hpull.2.symm)

/-- Three pairs in two nodes, walked from both ends. -/
def twoNodes : BTreeMap ℕ ℕ CountList :=
  ⟨⟨[[⟨1, 7⟩, ⟨2, 8⟩], [⟨3, 9⟩]], ⟨[2, 1]⟩, 2, 3⟩⟩

theorem twoNodes_produced : twoNodes.Produced :=
  .insert (k := 2) (v := 8) (r := none) (.insert (k := 1) (v := 7) (r := none)
    (.insert (k := 3) (v := 9) (r := none) (.withMaximumNodeSize 2 (by decide)) rfl) rfl) rfl

theorem iterMut_exactlyOnce_iff_twoNodes :
    ∃ it, twoNodes.iterMut = some it ∧
      ∃ answers, outputs IterMut.pull it [.front, .back, .back, .front] = some answers ∧
        ExactlyOnce twoNodes.toList [.front, .back, .back, .front] answers := by
  obtain ⟨it, hit, hall⟩ := iterMut_exactlyOnce_iff twoNodes
    (BTreeMap.Produced.usable twoNodes_produced).1 (by decide)
  exact ⟨it, hit, (hall _).mpr (by decide)⟩

/-- The walk forward ends after the first node. -/
theorem iterMut_stops_short :
    twoNodes.Produced ∧ ¬ ∃ it, twoNodes.iterMut = some it ∧
      ∃ answers, outputs IterMut.pull it [.front, .front, .front] = some answers ∧
        ExactlyOnce twoNodes.toList [.front, .front, .front] answers := by
  refine ⟨twoNodes_produced, ?_⟩
  have hrun : (twoNodes.iterMut.bind fun it =>
      outputs IterMut.pull it [.front, .front, .front]) =
        some [some ⟨1, 7⟩, some ⟨2, 8⟩, none] := by decide +kernel
  rintro ⟨it, hit, answers, hanswers, honce⟩
  rw [hit, Option.bind_some, hanswers, exactlyOnce_iff.mp honce] at hrun
  exact absurd hrun (by decide)

end IndexSet
