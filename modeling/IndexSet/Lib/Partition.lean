import IndexSet.Lib.KeyedList

/-!
# Range Partitions

An ascending list kept in several cells.  Each cell carries a bound; the cells are ordered
by their bounds, and a cell holds what is above the bound of the cell before it and not
above its own.  The last cell may overflow its bound.

The module is independent of any particular program:
- `Partitioned`: the order between cells and inside them;
- `Admissible`: a key that may be stored between two groups of cells;
- `Target`: the cell a key belongs to;
- `Partitioned.replace`: the one rule for every local change of a partition;
- `contents_put`, `contents_erase`, `find_contents`: working on the cell of a key is
  working on the whole.
-/

namespace KeyedList

/-- A cell: a bound, a name, and the items it holds. -/
structure Cell (α ι : Type*) where
  bound : α
  name : ι
  items : List α

variable {α ι κ : Type*} [LinearOrder κ] (key : α → κ)

/-! ## §1 Partitions -/

/-- Everything the cells hold, in order. -/
def contents (cells : List (Cell α ι)) : List α := cells.flatMap Cell.items

/-- `a` comes before `b`: its items do not pass its bound, and those of `b` are above it. -/
def Cell.Before (a b : Cell α ι) : Prop :=
  key a.bound < key b.bound ∧ (∀ x ∈ a.items, key x ≤ key a.bound) ∧
    Above key (key a.bound) b.items

instance (a b : Cell α ι) : Decidable (a.Before key b) := inferInstanceAs (Decidable (_ ∧ _))

/-- The cells are in order and each one is ascending. -/
structure Partitioned (cells : List (Cell α ι)) : Prop where
  before : cells.Pairwise (Cell.Before key)
  ascending : ∀ c ∈ cells, Ascending key c.items

/-- A key that may be stored between `pre` and `post`. -/
def Admissible (pre post : List (Cell α ι)) (k : κ) : Prop :=
  (∀ p ∈ pre, key p.bound < k) ∧ ∀ q ∈ post, k < key q.bound ∧ Above key k q.items

/-- `c` is the cell for `k`: the bounds before it are below `k`, its own is not, unless it
is the last cell. -/
def Target (pre : List (Cell α ι)) (c : Cell α ι) (post : List (Cell α ι)) (k : κ) : Prop :=
  (∀ p ∈ pre, key p.bound < k) ∧ (k ≤ key c.bound ∨ post = [])

variable {key} {pre post m : List (Cell α ι)} {c : Cell α ι}

@[simp] theorem contents_nil : contents ([] : List (Cell α ι)) = [] := rfl

@[simp] theorem contents_cons (c : Cell α ι) (cells : List (Cell α ι)) :
    contents (c :: cells) = c.items ++ contents cells := by
  simp [contents]

@[simp] theorem contents_append (a b : List (Cell α ι)) :
    contents (a ++ b) = contents a ++ contents b := by
  simp [contents]

theorem mem_contents {cells : List (Cell α ι)} {x : α} :
    x ∈ contents cells ↔ ∃ c ∈ cells, x ∈ c.items := by
  simp [contents]

theorem partitioned_nil : Partitioned key ([] : List (Cell α ι)) :=
  ⟨List.Pairwise.nil, by simp⟩

theorem partitioned_singleton (h : Ascending key c.items) : Partitioned key [c] :=
  ⟨List.pairwise_singleton _ _, by simpa using h⟩

/-- A partition seen from one of its cells. -/
theorem Partitioned.cut (h : Partitioned key (pre ++ c :: post)) :
    Partitioned key pre ∧ Partitioned key post ∧ Ascending key c.items ∧
      (∀ p ∈ pre, p.Before key c) ∧ (∀ q ∈ post, c.Before key q) ∧
      ∀ p ∈ pre, ∀ q ∈ post, p.Before key q := by
  have ⟨hpre, hrest, hacross⟩ := List.pairwise_append.mp h.before
  have ⟨hc, hpost⟩ := List.pairwise_cons.mp hrest
  refine ⟨⟨hpre, fun p hp => h.ascending p (by simp [hp])⟩,
    ⟨hpost, fun q hq => h.ascending q (by simp [hq])⟩, h.ascending c (by simp),
    fun p hp => hacross p hp c (by simp), hc, fun p hp q hq => hacross p hp q (by simp [hq])⟩

/-! ## §2 Admissible keys -/

theorem Partitioned.admissible_bound (h : Partitioned key (pre ++ c :: post)) :
    Admissible key pre post (key c.bound) := by
  have ⟨_, _, _, hpc, hcq, _⟩ := h.cut
  exact ⟨fun p hp => (hpc p hp).1, fun q hq => ⟨(hcq q hq).1, (hcq q hq).2.2⟩⟩

theorem Partitioned.admissible_item (h : Partitioned key (pre ++ c :: post)) {x : α}
    (hx : x ∈ c.items) : Admissible key pre post (key x) := by
  have ⟨_, _, _, hpc, hcq, _⟩ := h.cut
  refine ⟨fun p hp => (hpc p hp).2.2 x hx, fun q hq => ?_⟩
  have hle := (hcq q hq).2.1 x hx
  exact ⟨lt_of_le_of_lt hle (hcq q hq).1, (hcq q hq).2.2.trans_lt hle⟩

theorem Partitioned.admissible_target (h : Partitioned key (pre ++ c :: post)) {k : κ}
    (ht : Target key pre c post k) : Admissible key pre post k := by
  refine ⟨ht.1, fun q hq => ?_⟩
  have ⟨_, _, _, _, hcq, _⟩ := h.cut
  rcases ht.2 with hle | rfl
  · exact ⟨lt_of_le_of_lt hle (hcq q hq).1, (hcq q hq).2.2.trans_lt hle⟩
  · cases hq

/-- An admissible key separates the contents on its two sides. -/
theorem Admissible.separates {k : κ} (h : Admissible key pre post k)
    (hpre : ∀ p ∈ pre, ∀ x ∈ p.items, key x ≤ key p.bound) :
    Below key (contents pre) k ∧ Above key k (contents post) := by
  constructor
  · intro x hx
    obtain ⟨p, hp, hxp⟩ := mem_contents.mp hx
    exact lt_of_le_of_lt (hpre p hp x hxp) (h.1 p hp)
  · intro x hx
    obtain ⟨q, hq, hxq⟩ := mem_contents.mp hx
    exact (h.2 q hq).2 x hxq

theorem Partitioned.separates (h : Partitioned key (pre ++ c :: post)) {k : κ}
    (hk : Admissible key pre post k) :
    Below key (contents pre) k ∧ Above key k (contents post) :=
  have ⟨_, _, _, hpc, _, _⟩ := h.cut
  hk.separates fun p hp => (hpc p hp).2.1

/-- The contents of a partition are ascending. -/
theorem Partitioned.contents_ascending {cells : List (Cell α ι)} (h : Partitioned key cells) :
    Ascending key (contents cells) := by
  induction cells with
  | nil => exact ascending_nil
  | cons c cells ih =>
    have hcut : Partitioned key ([] ++ c :: cells) := h
    have ⟨_, hcells, hc, _, hcq, _⟩ := hcut.cut
    rw [contents_cons]
    refine ascending_append.mpr ⟨hc, ih hcells, fun x hx => ?_⟩
    exact (hcut.separates (hcut.admissible_item hx)).2

/-- Cells that are bounded by their own maxima are a partition when what they hold, one cell
after another, is ascending. -/
theorem partitioned_of_exact {cells : List (Cell α ι)}
    (hexact : ∀ c ∈ cells, maxKey key c.items = some (key c.bound))
    (hasc : Ascending key (contents cells)) : Partitioned key cells := by
  induction cells with
  | nil => exact partitioned_nil
  | cons c cells ih =>
    rw [contents_cons] at hasc
    obtain ⟨hc, hrest, hacross⟩ := ascending_append.mp hasc
    have hcells := ih (fun d hd => hexact d (by simp [hd])) hrest
    obtain ⟨hle, x, hx, hxc⟩ := hc.le_maxKey (hexact c (by simp))
    refine ⟨List.pairwise_cons.mpr ⟨fun d hd => ?_, hcells.before⟩, ?_⟩
    · have habove : Above key (key c.bound) d.items := fun y hy =>
        hxc ▸ hacross x hx y (mem_contents.mpr ⟨d, hd, hy⟩)
      obtain ⟨_, y, hy, hyd⟩ := (hcells.ascending d hd).le_maxKey (hexact d (by simp [hd]))
      exact ⟨hyd ▸ habove y hy, hle, habove⟩
    · intro d hd
      rcases List.mem_cons.mp hd with rfl | hd
      · exact hc
      · exact hcells.ascending d hd

/-- A key between the contents of such cells is admissible between them. -/
theorem admissible_of_exact {k : κ} (hcells : Partitioned key (pre ++ post))
    (hexact : ∀ c ∈ pre ++ post, maxKey key c.items = some (key c.bound))
    (hpre : Below key (contents pre) k) (hpost : Above key k (contents post)) :
    Admissible key pre post k := by
  have hmax : ∀ c ∈ pre ++ post, ∃ x ∈ c.items, key x = key c.bound := fun c hc =>
    ((hcells.ascending c hc).le_maxKey (hexact c hc)).2
  constructor
  · intro p hp
    obtain ⟨x, hx, hxp⟩ := hmax p (by simp [hp])
    exact hxp ▸ hpre x (mem_contents.mpr ⟨p, hp, hx⟩)
  · intro q hq
    obtain ⟨x, hx, hxq⟩ := hmax q (by simp [hq])
    exact ⟨hxq ▸ hpost x (mem_contents.mpr ⟨q, hq, hx⟩),
      fun y hy => hpost y (mem_contents.mpr ⟨q, hq, hy⟩)⟩

/-! ## §3 Local changes -/

/-- **Replacing a cell** by cells of admissible bounds and items keeps the partition. -/
theorem Partitioned.replace (h : Partitioned key (pre ++ c :: post)) (hmid : Partitioned key m)
    (hbound : post ≠ [] → ∀ p ∈ m, ∀ x ∈ p.items, key x ≤ key p.bound)
    (hadm : ∀ p ∈ m, Admissible key pre post (key p.bound) ∧
      ∀ x ∈ p.items, Admissible key pre post (key x)) :
    Partitioned key (pre ++ m ++ post) := by
  have ⟨hpre, hpost, _, hpc, _, hacross⟩ := h.cut
  refine ⟨List.pairwise_append.mpr ⟨List.pairwise_append.mpr ⟨hpre.before, hmid.before, ?_⟩,
    hpost.before, ?_⟩, ?_⟩
  · intro p hp q hq
    exact ⟨(hadm q hq).1.1 p hp, (hpc p hp).2.1, fun x hx => ((hadm q hq).2 x hx).1 p hp⟩
  · intro a ha q hq
    rcases List.mem_append.mp ha with hp | hm
    · exact hacross a hp q hq
    · exact ⟨((hadm a hm).1.2 q hq).1, hbound (List.ne_nil_of_mem hq) a hm,
        ((hadm a hm).1.2 q hq).2⟩
  · intro a ha
    rcases List.mem_append.mp ha with ha | hq
    · rcases List.mem_append.mp ha with hp | hm
      · exact hpre.ascending a hp
      · exact hmid.ascending a hm
    · exact hpost.ascending a hq

/-- New items for a cell that keeps its bound. -/
theorem Partitioned.set_items (h : Partitioned key (pre ++ c :: post)) {items : List α}
    (hasc : Ascending key items) (hbound : post ≠ [] → ∀ x ∈ items, key x ≤ key c.bound)
    (hadm : ∀ x ∈ items, Admissible key pre post (key x)) :
    Partitioned key (pre ++ { c with items } :: post) := by
  have hnew := h.replace (m := [{ c with items }]) (partitioned_singleton hasc)
    (by simpa using hbound) (by simpa using ⟨h.admissible_bound, hadm⟩)
  simpa using hnew

/-- Storing a value in its cell. -/
theorem Partitioned.put (h : Partitioned key (pre ++ c :: post)) {v : α}
    (ht : Target key pre c post (key v)) :
    Partitioned key (pre ++ { c with items := KeyedList.put key v c.items } :: post) := by
  have ⟨_, _, hc, _, hcq, _⟩ := h.cut
  refine h.set_items (put_ascending hc) (fun hne x hx => ?_) fun x hx => ?_
  · rcases mem_put.mp hx with rfl | ⟨hx, -⟩
    · exact ht.2.resolve_right hne
    · obtain ⟨q, hq⟩ := List.exists_mem_of_ne_nil post hne
      exact (hcq q hq).2.1 x hx
  · rcases mem_put.mp hx with rfl | ⟨hx, -⟩
    · exact h.admissible_target ht
    · exact h.admissible_item hx

/-- Keeping only some items of a cell. -/
theorem Partitioned.sublist (h : Partitioned key (pre ++ c :: post)) {items : List α}
    (hsub : items.Sublist c.items) : Partitioned key (pre ++ { c with items } :: post) := by
  have ⟨_, _, hc, _, hcq, _⟩ := h.cut
  refine h.set_items (hc.sublist hsub) (fun hne x hx => ?_) fun x hx =>
    h.admissible_item (hsub.subset hx)
  obtain ⟨q, hq⟩ := List.exists_mem_of_ne_nil post hne
  exact (hcq q hq).2.1 x (hsub.subset hx)

/-- Moving the bound of a cell to its largest key. -/
theorem Partitioned.rebound (h : Partitioned key (pre ++ c :: post)) {m : α}
    (hm : maxKey key c.items = some (key m)) :
    Partitioned key (pre ++ { c with bound := m } :: post) := by
  have ⟨_, _, hc, _⟩ := h.cut
  have ⟨hle, x, hx, hxm⟩ := hc.le_maxKey hm
  have hnew := h.replace (m := [{ c with bound := m }]) (partitioned_singleton hc)
    (fun _ => by simpa using hle)
    (by simpa using ⟨hxm ▸ h.admissible_item hx, fun y hy => h.admissible_item hy⟩)
  simpa using hnew

/-- Removing a cell. -/
theorem Partitioned.remove (h : Partitioned key (pre ++ c :: post)) :
    Partitioned key (pre ++ post) := by
  simpa using h.replace (m := []) partitioned_nil (by simp) (by simp)

/-- Storing between the cells is storing in the whole. -/
theorem Partitioned.contents_put (h : Partitioned key (pre ++ c :: post)) {v : α}
    (hv : Admissible key pre post (key v)) (hmid : contents m = KeyedList.put key v c.items) :
    contents (pre ++ m ++ post) = KeyedList.put key v (contents (pre ++ c :: post)) := by
  have ⟨hlow, hhigh⟩ := h.separates hv
  rw [contents_append, contents_append, hmid, contents_append, contents_cons, ← List.append_assoc,
    put_context hlow hhigh]

/-- Erasing between the cells is erasing in the whole. -/
theorem Partitioned.contents_erase (h : Partitioned key (pre ++ c :: post)) {q : κ}
    (hq : Admissible key pre post q) :
    contents (pre ++ { c with items := erase key q c.items } :: post) =
      erase key q (contents (pre ++ c :: post)) := by
  have ⟨hlow, hhigh⟩ := h.separates hq
  simp only [contents_append, contents_cons, ← List.append_assoc]
  rw [erase_context hlow.ne hhigh.ne]

/-- Looking into the cell of a key is looking into the whole. -/
theorem Partitioned.find_contents (h : Partitioned key (pre ++ c :: post)) {q : κ}
    (hq : Admissible key pre post q) : find key q (contents (pre ++ c :: post)) =
      find key q c.items := by
  have ⟨hlow, hhigh⟩ := h.separates hq
  rw [contents_append, contents_cons, ← List.append_assoc, find_context hlow.ne hhigh.ne]

end KeyedList
