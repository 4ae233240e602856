import IndexSet.Lib.Partition
import Mathlib.Logic.Function.Basic

/-!
# Cells Under Their Maxima

The map that has the items of every cell under the key of their maximum.  What one cell
contributes to it is a `Function.update` of what the others contribute, so a change of one
cell is a change of that update.  Empty cells contribute nothing.

The module is independent of any particular program.
-/

namespace KeyedList

variable {α ι κ : Type*} [LinearOrder κ] (key : α → κ)

/-- The items of the cell whose maximum has the key `k`. -/
def itemsUnder (cells : List (Cell α ι)) (k : κ) : Option (List α) :=
  (cells.find? fun c => maxKey key c.items = some k).map Cell.items

variable {key} {pre post : List (Cell α ι)} {c : Cell α ι} {k : κ}

@[simp] theorem itemsUnder_nil : itemsUnder key ([] : List (Cell α ι)) = fun _ => none := rfl

omit [LinearOrder κ] in
/-- A maximum is an item. -/
theorem mem_of_maxKey {l : List α} (h : maxKey key l = some k) : ∃ x ∈ l, key x = k := by
  obtain ⟨x, hx, hk⟩ := Option.map_eq_some_iff.mp h
  exact ⟨x, List.mem_of_getLast? hx, hk⟩

omit [LinearOrder κ] in
theorem maxKey_of_getLast? {l : List α} {m : α} (h : l.getLast? = some m) :
    maxKey key l = some (key m) := by
  rw [maxKey, h, Option.map_some]

theorem itemsUnder_eq_none {cells : List (Cell α ι)} (h : ∀ x ∈ contents cells, key x ≠ k) :
    itemsUnder key cells k = none := by
  rw [itemsUnder, Option.map_eq_none_iff, List.find?_eq_none]
  intro c hc hmax
  obtain ⟨x, hx, hk⟩ := mem_of_maxKey (of_decide_eq_true hmax)
  exact h x (mem_contents.mpr ⟨c, hc, hx⟩) hk

/-- Keys of one cell are not among the others'. -/
theorem ne_of_contents_cut (h : Ascending key (contents (pre ++ c :: post))) {x : α}
    (hx : x ∈ c.items) : ∀ y ∈ contents (pre ++ post), key y ≠ key x := by
  rw [contents_append, contents_cons] at h
  obtain ⟨_, hrest, hacross⟩ := ascending_append.mp h
  obtain ⟨_, _, habove⟩ := ascending_append.mp hrest
  intro y hy
  rw [contents_append] at hy
  rcases List.mem_append.mp hy with hy | hy
  · exact (hacross y hy x (List.mem_append_left _ hx)).ne
  · exact (habove x hx y hy).ne'

/-- The other cells have nothing under a key of this one. -/
theorem itemsUnder_vacant (h : Ascending key (contents (pre ++ c :: post))) {x : α}
    (hx : x ∈ c.items) : itemsUnder key (pre ++ post) (key x) = none :=
  itemsUnder_eq_none (ne_of_contents_cut h hx)

/-- An empty cell contributes nothing. -/
theorem itemsUnder_of_nil (hnil : c.items = []) :
    itemsUnder key (pre ++ c :: post) = itemsUnder key (pre ++ post) := by
  funext k
  simp [itemsUnder, List.find?_append, hnil]

/-- **What one cell contributes.** -/
theorem itemsUnder_cut (h : Ascending key (contents (pre ++ c :: post)))
    (hk : maxKey key c.items = some k) : itemsUnder key (pre ++ c :: post) =
      Function.update (itemsUnder key (pre ++ post)) k (some c.items) := by
  obtain ⟨x, hx, hxk⟩ := mem_of_maxKey hk
  have hvacant := itemsUnder_vacant h hx
  rw [hxk] at hvacant
  funext q
  by_cases hq : q = k
  · subst hq
    rw [itemsUnder, List.find?_append, Option.map_eq_none_iff, Option.or_eq_none_iff] at hvacant
    simp [itemsUnder, List.find?_append, hvacant.1, hk]
  · rw [Function.update_of_ne hq]
    have hskip : maxKey key c.items ≠ some q := by
      rw [hk]
      exact fun hkq => hq (Option.some.inj hkq).symm
    simp [itemsUnder, List.find?_append, hskip]

end KeyedList
