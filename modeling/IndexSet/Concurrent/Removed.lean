import IndexSet.Concurrent.RangeIter
import IndexSet.Concurrent.RankCount
import IndexSet.Concurrent.RemoveRange

/-!
# What Removing a Range Leaves

`remove_range` cuts with the positions that `rank` returns: forward, that of the last item before
a bound, or nothing if there is none.  For the start this is the position before the cut, as the
code takes it; for the end it is one less than the cut, and no position at all stands for the
whole node.

- `Removes`: the elements in the range go, and nothing else changes;
- `RemovesExactly`: the layouts and bounds for which the positions come out right;
- §2 the cuts of the code in the layout, §3 one lemma for each branch of the code;
- §4 `removes_iff`: the two are the same.
-/

namespace IndexSet.Concurrent

open KeyedList DoubleEnded

variable {M T K : Type} [LinearOrder K] [Keyed T K]

/-! ## §1 The statement -/

/-- The last of some nodes holds elements on both sides of a start. -/
def BeginsInLast (start : Bound K) (nodes : List (List T)) : Prop :=
  ∃ node, nodes.getLast? = some node ∧ (∃ x ∈ node, ¬ start.Starts (key x)) ∧
    ∃ x ∈ node, start.Starts (key x)

/-- For which nodes `remove_range` removes exactly the range.  Nothing lies behind the start; or
- there is no end, and only one node;
- everything lies before the end, and the last node holds both sides of the start;
- the end is included, and is all that some node holds behind the start;
- the end is excluded, and is alone in the last node: nothing before that lies behind the start,
  or the node before that holds both sides of it;
- the end is excluded, and some node holds it, behind the start, and something above it. -/
def RemovesExactly (nodes : List (List T)) (start : Bound K) (stop : Bound K) : Prop :=
  (∀ x ∈ nodes.flatten, ¬ start.Starts (key x)) ∨
    match stop with
    | .unbounded => nodes.length = 1
    | .included e =>
      (∀ x ∈ nodes.flatten, key x < e) ∧ BeginsInLast start nodes ∨
        ∃ node ∈ nodes, ∃ x, node.filter (fun x => start.Starts (key x)) = [x] ∧ key x = e
    | .excluded e =>
      (∀ x ∈ nodes.flatten, key x < e) ∧ BeginsInLast start nodes ∨
        (∃ init x, nodes = init ++ [[x]] ∧ key x = e ∧
          ((∀ y ∈ init.flatten, ¬ start.Starts (key y)) ∨ BeginsInLast start init)) ∨
        ∃ node ∈ nodes, (∃ x ∈ node, key x = e ∧ start.Starts (key x)) ∧ ∃ y ∈ node, e < key y

namespace BTreeSet

section Statement

variable [SkipMap M T K] (s : BTreeSet M T)

/-- The nodes of the set, in order. -/
def layout : List (List T) := (SkipMap.iter s.index).map fun e => s.nodes e.2

end Statement

variable [LawfulSkipMap M T K] {s : BTreeSet M T} {start stop : Bound K}

/-- **The range is removed**: without a panic, and to the effect that exactly its elements are
gone, the others are found by `contains` and `iter`, and the index keys are the maxima. -/
def Removes (s : BTreeSet M T) (start stop : Bound K) : Prop :=
  ∃ s', s.removeRange start stop = some s' ∧ s'.AtRest ∧
    s'.elements = s.elements.filter (fun x => ¬ InRange start stop (key x)) ∧
    (∀ x ∈ s.elements, ¬ InRange start stop (key x) → s'.contains (key x) = true) ∧
    Yields s'.pull s'.iter (s.elements.filter fun x => ¬ InRange start stop (key x))

/-- At rest the elements say everything. -/
theorem removes_iff_elements {s' : BTreeSet M T} (hrange : s.removeRange start stop = some s')
    (hs' : s'.AtRest) :
    s.Removes start stop ↔
      s'.elements = s.elements.filter fun x => ¬ InRange start stop (key x) := by
  constructor
  · rintro ⟨s'', hrange', -, helements, -⟩
    obtain rfl := Option.some.inj (hrange.symm.trans hrange')
    exact helements
  · intro helements
    refine ⟨s', hrange, hs', helements, fun x hx hout => ?_, ?_⟩
    · rw [contains_eq hs'.coherent hs'.sorted, find_isSome]
      refine ⟨x, ?_, rfl⟩
      rw [helements, List.mem_filter]
      exact ⟨hx, decide_eq_true hout⟩
    · rw [← helements]
      exact iter_gives.yields hs'

/-- What is removed is one run of the elements behind the start: it has to lie before the end,
and what is left behind it must not. -/
theorem removes_iff_ends {s' : BTreeSet M T} (hrange : s.removeRange start stop = some s')
    (hs' : s'.AtRest) (hs : s.AtRest) (before removed behind : List T)
    (helements : s.elements = before ++ (removed ++ behind))
    (helements' : s'.elements = before ++ behind)
    (hbefore : ∀ x ∈ before, ¬ start.Starts (key x))
    (hstarts : ∀ x ∈ removed ++ behind, start.Starts (key x)) :
    s.Removes start stop ↔
      (∀ x ∈ removed, stop.Ends (key x)) ∧ ∀ x ∈ behind, ¬ stop.Ends (key x) := by
  have hnodup := hs.elements_ascending.nodup
  rw [helements] at hnodup
  obtain ⟨-, hnodup, hdisjoint⟩ := List.nodup_append.mp hnodup
  rw [removes_iff_elements hrange hs', helements', helements]
  have hkept : ∀ l : List T, (∀ x ∈ l, ¬ InRange start stop (key x)) →
      l.filter (fun x => ¬ InRange start stop (key x)) = l := fun l hl =>
    List.filter_eq_self.mpr fun x hx => decide_eq_true (hl x hx)
  rw [List.filter_append, List.filter_append, hkept before fun x hx hin => hbefore x hx hin.1,
    List.append_cancel_left_eq]
  constructor
  · intro heq
    have hin : ∀ x ∈ removed, InRange start stop (key x) := by
      intro x hx
      by_contra hout
      have hmem : x ∈ behind := by
        rw [heq, List.mem_append, List.mem_filter]
        exact Or.inl ⟨hx, decide_eq_true hout⟩
      exact (List.nodup_append.mp hnodup).2.2 x hx x hmem rfl
    refine ⟨fun x hx => (hin x hx).2, fun x hx hend => ?_⟩
    rw [heq, ← List.filter_append, List.mem_filter] at hx
    exact of_decide_eq_true hx.2 ⟨hstarts x hx.1, hend⟩
  · rintro ⟨hin, hout⟩
    have hremoved : removed.filter (fun x => ¬ InRange start stop (key x)) = [] := by
      rw [List.filter_eq_nil_iff]
      intro x hx hout
      exact of_decide_eq_true hout ⟨hstarts x (List.mem_append_left _ hx), hin x hx⟩
    rw [hremoved, hkept behind fun x hx hin => hout x hx hin.2, List.nil_append]

end BTreeSet

/-! ## §2 The two cuts in the layout -/

/-- A start cuts the last node only if nothing comes behind the cut node. -/
theorem beginsInLast_cut {start : Bound K} {pre post : List (List T)} {a b : List T}
    (ha : ∀ x ∈ a, ¬ start.Starts (key x)) (hb : ∀ x ∈ b, start.Starts (key x)) (hne : b ≠ [])
    (hpost : ∀ x ∈ post.flatten, start.Starts (key x)) :
    BeginsInLast start (pre ++ (a ++ b) :: post) ↔ a ≠ [] ∧ post = [] := by
  constructor
  · rintro ⟨node, hlast, ⟨x, hx, hout⟩, -⟩
    rcases List.eq_nil_or_concat' post with rfl | ⟨post, last, rfl⟩
    · rw [List.getLast?_concat, Option.some_inj] at hlast
      refine ⟨?_, rfl⟩
      rintro rfl
      rw [← hlast, List.nil_append] at hx
      exact hout (hb x hx)
    · rw [← List.cons_append, ← List.append_assoc, List.getLast?_concat, Option.some_inj] at hlast
      exact absurd (hpost x (List.mem_flatten.mpr ⟨node, by simp [hlast], hx⟩)) hout
  · rintro ⟨hane, rfl⟩
    obtain ⟨x, a, rfl⟩ := List.exists_cons_of_ne_nil hane
    obtain ⟨y, b, rfl⟩ := List.exists_cons_of_ne_nil hne
    exact ⟨_, List.getLast?_concat .., ⟨x, by simp, ha x (List.mem_cons_self ..)⟩,
      y, by simp, hb y (List.mem_cons_self ..)⟩

namespace BTreeSet

section Layout

variable [LawfulSkipMap M T K] {s : BTreeSet M T} {start : Bound K}
  {pre post : List (T × NodeId)} {g : T × NodeId} {c d : List T} {e : K}

theorem flatten_layout : s.layout.flatten = s.elements := by
  rw [← itemsOf_entries]
  exact List.flatMap_def.symm

theorem layout_cut (hcut : s.entries = pre ++ g :: post) :
    s.layout = (pre.map fun p => s.nodes p.2) ++ s.nodes g.2 :: post.map fun p => s.nodes p.2 := by
  show s.entries.map _ = _
  rw [hcut, List.map_append, List.map_cons]

/-- A node with an element that does not lie before the node of `g`, and one not behind. -/
theorem node_eq_of_mem (hcut : s.entries = pre ++ g :: post) {node : List T} {x y : T}
    (hnode : node ∈ s.layout) (hx : x ∈ node) (hpre : x ∉ s.itemsOf pre) (hy : y ∈ node)
    (hpost : y ∉ s.itemsOf post) : node = s.nodes g.2 := by
  obtain ⟨p, hp, rfl⟩ := List.mem_map.mp hnode
  have hp : p ∈ s.entries := hp
  rw [hcut] at hp
  rcases List.mem_append.mp hp with hp | hp
  · exact absurd (List.mem_flatMap.mpr ⟨p, hp, hx⟩) hpre
  · rcases List.mem_cons.mp hp with rfl | hp
    · rfl
    · exact absurd (List.mem_flatMap.mpr ⟨p, hp, hy⟩) hpost

theorem mem_layout (hcut : s.entries = pre ++ g :: post) : s.nodes g.2 ∈ s.layout := by
  rw [layout_cut hcut]
  simp

/-- The elements of a set, at the cut of a bound. -/
theorem StartCut.elements_eq {bound : Bound K} (h : s.StartCut key bound pre g post c d) :
    s.elements = (s.itemsOf pre ++ c) ++ (d ++ s.itemsOf post) := by
  rw [elements_cut h.entries, h.node]
  simp only [List.append_assoc]

/-- What is behind the node of a cut is above what is behind the cut in the node. -/
theorem StartCut.above (hs : s.AtRest) {bound : Bound K} (h : s.StartCut key bound pre g post c d)
    {x y : T} (hx : x ∈ s.nodes g.2) (hy : y ∈ s.itemsOf post) : key x < key y := by
  have hasc := hs.elements_ascending
  rw [elements_cut h.entries] at hasc
  exact (ascending_append.mp (ascending_append.mp hasc).2.1).2.2 x hx y hy

/-- **An included end** that is not behind all elements. -/
theorem StartCut.included_iff (hs : s.AtRest) (h : s.StartCut key (.included e) pre g post c d)
    (hsome : ∃ x ∈ s.elements, start.Starts (key x)) :
    RemovesExactly s.layout start (.included e) ↔
      ∃ x, (s.nodes g.2).filter (fun x => start.Starts (key x)) = [x] ∧ key x = e := by
  obtain ⟨y, d, rfl⟩ := List.exists_cons_of_ne_nil h.ne_nil
  have hy : y ∈ s.nodes g.2 := by rw [h.node]; simp
  have hge : e ≤ key y := h.behind y (by simp)
  rw [RemovesExactly, flatten_layout]
  constructor
  · rintro (hnone | ⟨hall, -⟩ | ⟨node, hnode, x, hfilter, hx⟩)
    · obtain ⟨x, hx, hstart⟩ := hsome
      exact absurd hstart (hnone x hx)
    · refine absurd (hall y ?_) (not_lt.mpr hge)
      rw [h.elements_eq]
      simp
    · have hmem : x ∈ node := List.mem_of_mem_filter (hfilter ▸ List.mem_singleton_self x)
      have heq := node_eq_of_mem h.entries hnode hmem
        (fun hpre => h.before x (List.mem_append_left _ hpre) hx.ge) hmem
        fun hpost => absurd (h.above hs hy hpost) (not_lt.mpr (hx.le.trans hge))
      exact ⟨x, heq ▸ hfilter, hx⟩
  · rintro ⟨x, hfilter, hx⟩
    exact Or.inr (Or.inr ⟨_, mem_layout h.entries, x, hfilter, hx⟩)

/-- **An excluded end** that is not behind all elements. -/
theorem StartCut.excluded_iff (hs : s.AtRest) (h : s.StartCut key (.excluded e) pre g post c d)
    (hsome : ∃ x ∈ s.elements, start.Starts (key x)) :
    RemovesExactly s.layout start (.excluded e) ↔
      ∃ x ∈ s.nodes g.2, key x = e ∧ start.Starts (key x) := by
  obtain ⟨y, d, rfl⟩ := List.exists_cons_of_ne_nil h.ne_nil
  have hy : y ∈ s.nodes g.2 := by rw [h.node]; simp
  have hlt : e < key y := h.behind y (by simp)
  have hmem : y ∈ s.elements := by rw [h.elements_eq]; simp
  rw [RemovesExactly, flatten_layout]
  constructor
  · rintro (hnone | ⟨hall, -⟩ | ⟨init, x, hlayout, hx, -⟩ |
      ⟨node, hnode, ⟨x, hmemx, hx⟩, z, hz, hez⟩)
    · obtain ⟨x, hx, hstart⟩ := hsome
      exact absurd hstart (hnone x hx)
    · exact absurd (hall y hmem) (not_lt.mpr hlt.le)
    · -- the end would be the last element
      have hasc := hs.elements_ascending
      rw [← flatten_layout, hlayout, List.flatten_append, List.flatten_singleton] at hasc hmem
      rcases List.mem_append.mp hmem with hmem | hmem
      · have hyx := (ascending_append.mp hasc).2.2 y hmem x (List.mem_singleton_self x)
        exact absurd hyx (not_lt.mpr (hx.le.trans hlt.le))
      · rw [List.mem_singleton.mp hmem, hx] at hlt
        exact absurd hlt (lt_irrefl e)
    · have heq := node_eq_of_mem h.entries hnode hz
        (fun hpre => h.before z (List.mem_append_left _ hpre) hez) hmemx
        fun hpost => absurd (h.above hs hy hpost) (not_lt.mpr (hx.1.le.trans hlt.le))
      exact ⟨x, heq ▸ hmemx, hx⟩
  · rintro ⟨x, hmemx, hx⟩
    exact Or.inr (Or.inr (Or.inr ⟨_, mem_layout h.entries, ⟨x, hmemx, hx⟩, y, hy, hlt⟩))

/-- The position `remove_range` takes for the end: one less than the cut, or the whole node. -/
theorem backPosition_cut {bound : Bound K} (hc : ∀ x ∈ c, ¬ bound.Starts (key x))
    (hd : ∀ x ∈ d, bound.Starts (key x)) :
    backPosition (c ++ d) bound = if c.length = 0 then (c ++ d).length else c.length - 1 := by
  rw [backPosition, rank_forward_cut hc hd]
  cases c with
  | nil => rfl
  | cons x c => simp

/-- The position it takes for the start is the cut. -/
theorem frontPosition_cut {bound : Bound K} (hc : ∀ x ∈ c, ¬ bound.Starts (key x))
    (hd : ∀ x ∈ d, bound.Starts (key x)) : frontPosition (c ++ d) bound = c.length := by
  rw [frontPosition, rank_forward_cut hc hd]
  cases c with
  | nil => rfl
  | cons x c => simp

end Layout

/-! ## §3 The branches -/

section Branches

variable [LawfulSkipMap M T K] {s : BTreeSet M T} {start stop : Bound K}
  {pre post : List (T × NodeId)} {f : T × NodeId} {a b : List T}

/-- Nothing lies behind the start: nothing is done, and nothing is to be done. -/
theorem removes_iff_of_none (hs : s.AtRest) (hfront : SkipMap.lowerBoundOf key s.index start = none)
    (hnone : ∀ x ∈ s.elements, ¬ start.Starts (key x)) :
    s.Removes start stop ↔ RemovesExactly s.layout start stop := by
  have hrange : s.removeRange start stop = some s := by simp only [removeRange, hfront]
  rw [removes_iff_elements hrange hs]
  refine iff_of_true (List.filter_eq_self.mpr fun x hx => ?_).symm (Or.inl ?_)
  · exact decide_eq_true fun hin => hnone x hx hin.1
  · rwa [flatten_layout]

theorem itemsOf_eq_nil (hs : s.AtRest) (hcut : s.entries = pre ++ f :: post) :
    s.itemsOf post = [] ↔ post = [] := by
  refine ⟨fun h => ?_, fun h => by rw [h, itemsOf_nil]⟩
  cases post with
  | nil => rfl
  | cons p post =>
    rw [itemsOf_cons, List.append_eq_nil_iff] at h
    exact absurd h.1 (hs.ne_nil (by simp [hcut]))

/-- The front position is the cut of the start. -/
theorem StartCut.frontPosition_eq (h : s.StartCut key start pre f post a b) :
    frontPosition (s.nodes f.2) start = a.length := by
  rw [h.node]
  exact frontPosition_cut (fun x hx => h.before x (List.mem_append_right _ hx))
    fun x hx => h.behind x (List.mem_append_left _ hx)

/-- A layout that a start cuts begins in its last node only there. -/
theorem StartCut.beginsInLast_iff (h : s.StartCut key start pre f post a b) :
    BeginsInLast start s.layout ↔ a ≠ [] ∧ post = [] := by
  have hpost : ∀ x ∈ (post.map fun p => s.nodes p.2).flatten, start.Starts (key x) := by
    intro x hx
    rw [← List.flatMap_def] at hx
    exact h.behind x (List.mem_append_right _ hx)
  rw [layout_cut h.entries, h.node,
    beginsInLast_cut (fun x hx => h.before x (List.mem_append_right _ hx))
      (fun x hx => h.behind x (List.mem_append_left _ hx)) h.ne_nil hpost, List.map_eq_nil_iff]

/-- **Nothing lies behind the end**: the front node loses what is behind the start, unless it is
cut at position zero. -/
theorem removes_iff_of_no_back (hs : s.AtRest) (h : s.StartCut key start pre f post a b)
    (hfront : SkipMap.lowerBoundOf key s.index start = some f)
    (hback : SkipMap.lowerBoundOf key s.index stop = none) :
    s.Removes start stop ↔
      (a ≠ [] → ∀ x ∈ b, stop.Ends (key x)) ∧ (∀ x ∈ s.itemsOf post, ¬ stop.Ends (key x)) ∧
        (a = [] → ∀ x ∈ b, ¬ stop.Ends (key x)) := by
  have hrange : s.removeRange start stop = s.removeWithin f a.length 0 := by
    simp only [removeRange, hfront, hback, h.frontPosition_eq]
  by_cases hnil : a = []
  · subst hnil
    -- both positions are zero: nothing is drained
    obtain ⟨s', hs', hrest, helements⟩ := removeWithin_spec hs h.entries [] [] b h.node
      (if_neg (Nat.lt_irrefl 0))
    rw [removes_iff_ends (hrange.trans hs') hrest hs (s.itemsOf pre ++ []) []
      (b ++ s.itemsOf post) h.elements_eq helements h.before h.behind]
    simp [or_imp, forall_and, and_comm]
  · obtain ⟨s', hs', hrest, helements⟩ := removeWithin_spec hs h.entries a b []
      (by rw [h.node, List.append_nil]) (by rw [if_pos (List.length_pos_iff.mpr hnil), h.node])
    rw [removes_iff_ends (hrange.trans hs') hrest hs _ _ _ h.elements_eq helements h.before
      h.behind]
    simp [hnil]

/-- How two entries of the index lie to each other. -/
theorem cut_trichotomy {l pre post pre' post' : List (T × NodeId)} {f g : T × NodeId}
    (hf : l = pre ++ f :: post) (hg : l = pre' ++ g :: post') :
    (f = g ∧ pre = pre' ∧ post = post') ∨
      (∃ mid, pre' = pre ++ f :: mid ∧ post = mid ++ g :: post') ∨
      ∃ mid, pre = pre' ++ g :: mid ∧ post' = mid ++ f :: post := by
  rcases List.append_eq_append_iff.mp (hf.symm.trans hg) with ⟨m, hm, hrest⟩ | ⟨m, hm, hrest⟩
  · cases m with
    | nil =>
      obtain ⟨rfl, rfl⟩ := List.cons.inj hrest
      exact Or.inl ⟨rfl, by simpa using hm.symm, rfl⟩
    | cons p mid =>
      obtain ⟨rfl, rfl⟩ := List.cons.inj hrest
      exact Or.inr (Or.inl ⟨mid, hm, rfl⟩)
  · cases m with
    | nil =>
      obtain ⟨rfl, rfl⟩ := List.cons.inj hrest
      exact Or.inl ⟨rfl, by simpa using hm, rfl⟩
    | cons p mid =>
      obtain ⟨rfl, rfl⟩ := List.cons.inj hrest
      exact Or.inr (Or.inr ⟨mid, hm, rfl⟩)

/-- The same with what is in front of the cut taken together. -/
theorem removes_iff_front {s' : BTreeSet M T} (hrange : s.removeRange start stop = some s')
    (hs' : s'.AtRest) (hs : s.AtRest) {front behind : List T} (before removed : List T)
    (helements : s.elements = front ++ behind) (hfront : front = before ++ removed)
    (helements' : s'.elements = before ++ behind)
    (hbefore : ∀ x ∈ before, ¬ start.Starts (key x))
    (hstarts : ∀ x ∈ removed ++ behind, start.Starts (key x)) :
    s.Removes start stop ↔
      (∀ x ∈ front, start.Starts (key x) → stop.Ends (key x)) ∧
        ∀ x ∈ behind, ¬ stop.Ends (key x) := by
  rw [removes_iff_ends hrange hs' hs before removed behind
    (by rw [helements, hfront, List.append_assoc]) helements' hbefore hstarts, hfront]
  refine and_congr_left fun _ => ⟨fun h x hx hstart => ?_, fun h x hx => ?_⟩
  · exact h x ((List.mem_append.mp hx).resolve_left fun hx => hbefore x hx hstart)
  · exact h x (List.mem_append_right _ hx) (hstarts x (List.mem_append_left _ hx))

section Back

variable {pre' post' : List (T × NodeId)} {g : T × NodeId} {c d : List T}

/-- The code compares the nodes by identity. -/
theorem removeRange_eq (h : s.StartCut key start pre f post a b)
    (hfront : SkipMap.lowerBoundOf key s.index start = some f)
    (hback : SkipMap.lowerBoundOf key s.index stop = some g) :
    s.removeRange start stop =
      if g.2 = f.2 then s.removeWithin f a.length (backPosition (s.nodes g.2) stop)
      else s.removeAcross f g a.length (backPosition (s.nodes g.2) stop) := by
  simp only [removeRange, hfront, hback, h.frontPosition_eq]

/-- **The end is cut in the node of the start or behind it**, and what is before the cut in its
node does not lie behind the start: everything goes, up to the end of that node. -/
theorem removes_iff_of_none_before (hs : s.AtRest) (h : s.StartCut key start pre f post a b)
    (hfront : SkipMap.lowerBoundOf key s.index start = some f)
    (h' : s.StartCut key stop pre' g post' c d)
    (hback : SkipMap.lowerBoundOf key s.index stop = some g)
    (hle : f = g ∧ pre = pre' ∧ post = post' ∨
      ∃ mid, pre' = pre ++ f :: mid ∧ post = mid ++ g :: post')
    (hc : ∀ x ∈ c, ¬ start.Starts (key x)) :
    s.Removes start stop ↔
      (∀ x ∈ s.itemsOf pre' ++ (c ++ d), start.Starts (key x) → stop.Ends (key x)) ∧
        ∀ x ∈ s.itemsOf post', ¬ stop.Ends (key x) := by
  have hrange := removeRange_eq h hfront hback
  have hposition := backPosition_cut (c := c) (d := d)
    (fun x hx => h'.before x (List.mem_append_right _ hx))
    fun x hx => h'.behind x (List.mem_append_left _ hx)
  rw [← h'.node] at hposition
  have helements : s.elements = (s.itemsOf pre' ++ (c ++ d)) ++ s.itemsOf post' := by
    rw [h'.elements_eq]
    simp only [List.append_assoc]
  rcases hle with ⟨rfl, rfl, rfl⟩ | ⟨mid, rfl, rfl⟩
  · rw [if_pos rfl] at hrange
    have hcut : a ++ b = c ++ d := h.node.symm.trans h'.node
    -- one node: the end is cut before the start, so the whole rest of the node goes
    have hlength : c.length ≤ a.length := by
      rcases List.append_eq_append_iff.mp hcut with ⟨l, rfl, rfl⟩ | ⟨l, rfl, -⟩
      · cases l with
        | nil => simp
        | cons x l => exact absurd (h.behind x (by simp)) (hc x (by simp))
      · simp
    have hnode : (s.nodes f.2).length = (a ++ b).length := congrArg List.length h.node
    obtain ⟨s', hs', hrest, helements'⟩ := removeWithin_spec hs h.entries a b []
      (by rw [h.node, List.append_nil])
      (show (if backPosition (s.nodes f.2) stop < a.length then _ else _) = _ by
        rw [hposition, hnode]
        split_ifs <;> omega)
    exact removes_iff_front (hrange.trans hs') hrest hs (s.itemsOf pre ++ a) b helements
      (by rw [← hcut, List.append_assoc]) helements' h.before h.behind
  · have hne : g.2 ≠ f.2 := hs.coherent.ne_of_cut h.entries g (by simp)
    rw [if_neg hne] at hrange
    have hnil : c = [] := by
      cases c with
      | nil => rfl
      | cons x c =>
        exact absurd (h.behind x (by simp [h'.node])) (hc x (List.mem_cons_self ..))
    subst hnil
    rw [List.length_nil, if_pos rfl, h'.node] at hposition
    -- two nodes: position zero stands for the whole of the second one
    obtain ⟨s', hs', hrest, helements'⟩ := removeAcross_forward hs h.entries h.node
      (h'.node.trans (List.append_nil _).symm)
    rw [h'.node, hposition] at hrange
    refine removes_iff_front (hrange.trans hs') hrest hs (s.itemsOf pre ++ a)
      (b ++ (s.itemsOf mid ++ d)) helements ?_ helements' h.before fun x hx => h.behind x ?_
    · rw [itemsOf_append, itemsOf_cons, h.node]
      simp only [List.append_assoc, List.nil_append]
    · simpa [h'.node, or_assoc] using hx

/-- **The last element before the cut of the end lies behind the start**: everything goes up to
that element, and it is left. -/
theorem removes_iff_of_last_before (hs : s.AtRest) {l : List T} {z : T}
    (h : s.StartCut key start pre f post a b)
    (hfront : SkipMap.lowerBoundOf key s.index start = some f)
    (h' : s.StartCut key stop pre' g post' (l ++ [z]) d)
    (hback : SkipMap.lowerBoundOf key s.index stop = some g)
    (hle : f = g ∧ pre = pre' ∧ post = post' ∨
      ∃ mid, pre' = pre ++ f :: mid ∧ post = mid ++ g :: post')
    (hz : start.Starts (key z)) :
    s.Removes start stop ↔
      (∀ x ∈ s.itemsOf pre' ++ l, start.Starts (key x) → stop.Ends (key x)) ∧
        ∀ x ∈ z :: d ++ s.itemsOf post', ¬ stop.Ends (key x) := by
  have hrange := removeRange_eq h hfront hback
  have hposition : backPosition (s.nodes g.2) stop = l.length := by
    rw [h'.node, backPosition_cut (fun x hx => h'.before x (List.mem_append_right _ hx))
      fun x hx => h'.behind x (List.mem_append_left _ hx)]
    simp
  have hnode : s.nodes g.2 = l ++ (z :: d) := by
    rw [h'.node, List.append_assoc, List.singleton_append]
  have helements : s.elements = (s.itemsOf pre' ++ l) ++ (z :: d ++ s.itemsOf post') := by
    rw [h'.elements_eq]
    simp only [List.append_assoc, List.cons_append, List.nil_append]
  rw [hposition] at hrange
  rcases hle with ⟨rfl, rfl, rfl⟩ | ⟨mid, rfl, rfl⟩
  · rw [if_pos rfl] at hrange
    obtain ⟨m, rfl, rfl⟩ : ∃ m, l = a ++ m ∧ b = m ++ z :: d := by
      rcases List.append_eq_append_iff.mp (h.node.symm.trans hnode) with
        ⟨m, hm, hb⟩ | ⟨m, hm, hzd⟩
      · exact ⟨m, hm, hb⟩
      · cases m with
        | nil => exact ⟨[], by simpa using hm.symm, by simpa using hzd.symm⟩
        | cons x m =>
          obtain ⟨rfl, -⟩ := List.cons.inj hzd
          exact absurd hz (h.before z (by simp [hm]))
    obtain ⟨s', hs', hrest, helements'⟩ := removeWithin_spec hs h.entries a m (z :: d) h.node
      (if_neg (not_lt.mpr (by simp)) : (if (a ++ m).length < a.length then _ else _) = _)
    refine removes_iff_front (hrange.trans hs') hrest hs (s.itemsOf pre ++ a) m helements
      (List.append_assoc ..).symm helements' h.before fun x hx => h.behind x ?_
    simpa [or_assoc] using hx
  · have hne : g.2 ≠ f.2 := hs.coherent.ne_of_cut h.entries g (by simp)
    rw [if_neg hne] at hrange
    obtain ⟨s', hs', hrest, helements'⟩ := removeAcross_forward hs h.entries h.node hnode
    refine removes_iff_front (hrange.trans hs') hrest hs (s.itemsOf pre ++ a)
      (b ++ (s.itemsOf mid ++ l)) helements ?_ helements' h.before fun x hx => h.behind x ?_
    · rw [itemsOf_append, itemsOf_cons, h.node]
      simp only [List.append_assoc]
    · simpa [hnode, or_assoc] using hx

/-- Of two parts that are taken out of a list without duplicates nothing is left. -/
theorem notMem_of_taken {p taken k taken' q : List T}
    (h : (p ++ (taken ++ (k ++ (taken' ++ q)))).Nodup) {x : T} (hx : x ∈ taken ++ taken') :
    x ∉ p ++ k := by
  obtain ⟨-, htaken, hp⟩ := List.nodup_append.mp h
  obtain ⟨-, hk, htaken⟩ := List.nodup_append.mp htaken
  obtain ⟨-, -, hk⟩ := List.nodup_append.mp hk
  intro hleft
  rcases List.mem_append.mp hleft with hleft | hleft
  · refine hp x hleft x ?_ rfl
    rcases List.mem_append.mp hx with hx | hx <;> simp [hx]
  · rcases List.mem_append.mp hx with hx | hx
    · exact htaken x hx x (List.mem_append_left _ hleft) rfl
    · exact hk x hleft x (List.mem_append_left _ hx) rfl

/-- **The end is cut in a node before that of the start**: the elements behind the start in its
node go, and the whole of the other node if it is not cut. -/
theorem not_removes_of_before (hs : s.AtRest) {mid : List (T × NodeId)}
    (h : s.StartCut key start (pre' ++ g :: mid) f post a b)
    (hfront : SkipMap.lowerBoundOf key s.index start = some f)
    (h' : s.StartCut key stop pre' g (mid ++ f :: post) c d)
    (hback : SkipMap.lowerBoundOf key s.index stop = some g)
    (hbad : c = [] ∨ ∃ x ∈ b, ¬ stop.Ends (key x)) : ¬ s.Removes start stop := by
  have hne : g.2 ≠ f.2 := hs.coherent.ne_of_cut h.entries g (by simp)
  have hrange := removeRange_eq h hfront hback
  rw [if_neg hne] at hrange
  have hposition := backPosition_cut (c := c) (d := d)
    (fun x hx => h'.before x (List.mem_append_right _ hx))
    fun x hx => h'.behind x (List.mem_append_left _ hx)
  rw [← h'.node] at hposition
  obtain ⟨gone, kept, hsplit, hlength, hgone⟩ : ∃ gone kept, s.nodes g.2 = gone ++ kept ∧
      backPosition (s.nodes g.2) stop = gone.length ∧ (c = [] → gone = s.nodes g.2) := by
    rcases List.eq_nil_or_concat' c with rfl | ⟨l, z, rfl⟩
    · exact ⟨s.nodes g.2, [], (List.append_nil _).symm, hposition, fun _ => rfl⟩
    · exact ⟨l, z :: d, by simp [h'.node], by simpa using hposition, by simp⟩
  have hcut : s.entries = pre' ++ g :: (mid ++ f :: post) := h'.entries
  rw [hlength] at hrange
  obtain ⟨s', hs', hrest, helements'⟩ := removeAcross_backward hs hcut h.node hsplit
  have helements : s.elements = s.itemsOf pre' ++ (gone ++ ((kept ++ (s.itemsOf mid ++ a)) ++
      (b ++ s.itemsOf post))) := by
    rw [h.elements_eq, itemsOf_append, itemsOf_cons, hsplit]
    simp only [List.append_assoc]
  have hnodup := hs.elements_ascending.nodup
  rw [helements] at hnodup
  rw [removes_iff_elements (hrange.trans hs') hrest, helements']
  intro heq
  -- what the code takes out has to be in the range, all of it
  have hleft : ∀ x ∈ gone ++ b, ¬ InRange start stop (key x) → False := by
    intro x hx hout
    have hmem : x ∈ s.elements := by
      rw [helements]
      rcases List.mem_append.mp hx with hx | hx <;> simp [hx]
    have hmem' : x ∈ s.itemsOf pre' ++ (kept ++ (s.itemsOf mid ++ a)) := by
      rw [heq, List.mem_filter]
      exact ⟨hmem, decide_eq_true hout⟩
    exact notMem_of_taken hnodup hx hmem'
  rcases hbad with hnil | ⟨x, hx, hend⟩
  · obtain ⟨x, l, hx⟩ := List.exists_cons_of_ne_nil (hs.ne_nil (e := g) (by simp [hcut]))
    have hmem : x ∈ s.nodes g.2 := hx ▸ List.mem_cons_self ..
    refine hleft x (List.mem_append_left _ (hgone hnil ▸ hmem)) fun hin => h.before x ?_ hin.1
    simp [hmem]
  · exact hleft x (List.mem_append_right _ hx) fun hin => hend hin.2

end Back

end Branches

/-! ## §4 When the run is the range -/

section Runs

variable [LawfulSkipMap M T K] {s : BTreeSet M T} {start : Bound K}
  {pre post : List (T × NodeId)} {g : T × NodeId} {c d : List T} {e : K}

/-- Elements with one key are one element. -/
theorem eq_singleton_of_keys {l : List T} (hasc : Ascending key l) (hne : l ≠ [])
    (hl : ∀ x ∈ l, key x = e) : ∃ x, l = [x] ∧ key x = e := by
  obtain ⟨x, l, rfl⟩ := List.exists_cons_of_ne_nil hne
  have hx := hl x (List.mem_cons_self ..)
  cases l with
  | nil => exact ⟨x, rfl, hx⟩
  | cons y l =>
    have hlt : key x < key y := (ascending_cons.mp hasc).1 y (List.mem_cons_self ..)
    rw [hx, hl y (by simp)] at hlt
    exact absurd hlt (lt_irrefl e)

/-- An included end, with nothing behind the start before its cut. -/
theorem StartCut.included_of_none_before (hs : s.AtRest)
    (h : s.StartCut key (.included e) pre g post c d)
    (hsome : ∃ x ∈ s.nodes g.2, start.Starts (key x)) (hc : ∀ x ∈ c, ¬ start.Starts (key x)) :
    ((∀ x ∈ s.itemsOf pre ++ (c ++ d), start.Starts (key x) → key x ≤ e) ∧
        ∀ x ∈ s.itemsOf post, ¬ key x ≤ e) ↔
      ∃ x, (s.nodes g.2).filter (fun x => start.Starts (key x)) = [x] ∧ key x = e := by
  constructor
  · rintro ⟨hle, -⟩
    refine eq_singleton_of_keys ((hs.sorted g.2).sublist List.filter_sublist) ?_ fun x hx => ?_
    · obtain ⟨x, hx, hstart⟩ := hsome
      exact List.ne_nil_of_mem (List.mem_filter.mpr ⟨hx, decide_eq_true hstart⟩)
    · obtain ⟨hx, hstart⟩ := List.mem_filter.mp hx
      have hstart := of_decide_eq_true hstart
      rw [h.node] at hx
      have hd := (List.mem_append.mp hx).resolve_left fun hx => hc x hx hstart
      exact le_antisymm (hle x (List.mem_append_right _ hx) hstart)
        (h.behind x (List.mem_append_left _ hd))
  · rintro ⟨x, hfilter, hx⟩
    obtain ⟨y, hy⟩ := List.exists_mem_of_ne_nil _ h.ne_nil
    refine ⟨fun z hz hstart => ?_, fun z hz hle => ?_⟩
    · rw [← List.append_assoc] at hz
      rcases List.mem_append.mp hz with hz | hz
      · exact (not_le.mp (h.before z hz)).le
      · have hmem : z ∈ (s.nodes g.2).filter fun x => start.Starts (key x) := by
          rw [List.mem_filter, h.node]
          exact ⟨List.mem_append_right _ hz, decide_eq_true hstart⟩
        rw [hfilter, List.mem_singleton] at hmem
        rw [hmem, hx]
    · have hlt := h.above hs (h.node ▸ List.mem_append_right _ hy) hz
      exact absurd (hlt.trans_le hle) (not_lt.mpr (h.behind y (List.mem_append_left _ hy)))

/-- An excluded end: what lies behind the start in the node lies above it as well. -/
theorem StartCut.excluded_of_none_before (h : s.StartCut key (.excluded e) pre g post c d)
    (hsome : ∃ x ∈ s.nodes g.2, start.Starts (key x)) (hc : ∀ x ∈ c, ¬ start.Starts (key x)) :
    ((∀ x ∈ s.itemsOf pre ++ (c ++ d), start.Starts (key x) → key x < e) ∧
        ∀ x ∈ s.itemsOf post, ¬ key x < e) ↔
      ∃ x ∈ s.nodes g.2, key x = e ∧ start.Starts (key x) := by
  have hd : ∀ x ∈ s.nodes g.2, start.Starts (key x) → e < key x := by
    intro x hx hstart
    rw [h.node] at hx
    have hd := (List.mem_append.mp hx).resolve_left fun hx => hc x hx hstart
    exact h.behind x (List.mem_append_left _ hd)
  refine iff_of_false ?_ ?_
  · rintro ⟨hlt, -⟩
    obtain ⟨x, hx, hstart⟩ := hsome
    exact lt_asymm (hd x hx hstart) (hlt x (List.mem_append_right _ (h.node ▸ hx)) hstart)
  · rintro ⟨x, hx, rfl, hstart⟩
    exact lt_irrefl _ (hd x hx hstart)

/-- Without an end, the first node is the one that is cut. -/
theorem StartCut.unbounded_nil (hs : s.AtRest) (h : s.StartCut key .unbounded pre g post c d) :
    pre = [] ∧ c = [] := by
  have hnil : s.itemsOf pre ++ c = [] :=
    List.eq_nil_iff_forall_not_mem.mpr fun x hx => h.before x hx trivial
  obtain ⟨hpre, hc⟩ := List.append_eq_nil_iff.mp hnil
  refine ⟨?_, hc⟩
  cases pre with
  | nil => rfl
  | cons p pre =>
    rw [itemsOf_cons, List.append_eq_nil_iff] at hpre
    exact absurd hpre.1 (hs.ne_nil (by simp [h.entries]))

/-- No end: all nodes but the first one are left. -/
theorem StartCut.unbounded_of_none_before (hs : s.AtRest)
    (h : s.StartCut key .unbounded pre g post c d)
    (hsome : ∃ x ∈ s.elements, start.Starts (key x)) :
    ((∀ x ∈ s.itemsOf pre ++ (c ++ d), start.Starts (key x) → True) ∧
        ∀ x ∈ s.itemsOf post, ¬ True) ↔ RemovesExactly s.layout start .unbounded := by
  obtain ⟨rfl, -⟩ := h.unbounded_nil hs
  have hnone : ¬ ∀ x ∈ s.layout.flatten, ¬ start.Starts (key x) := by
    rw [flatten_layout]
    obtain ⟨x, hx, hstart⟩ := hsome
    exact fun hnone => hnone x hx hstart
  have hlength : s.layout.length = post.length + 1 := by
    rw [layout_cut h.entries]
    simp
  rw [RemovesExactly, or_iff_right hnone, hlength, Nat.add_eq_right, List.length_eq_zero_iff,
    ← itemsOf_eq_nil hs h.entries, List.eq_nil_iff_forall_not_mem]
  simp

/-- An included end that is above the last element before its cut. -/
theorem StartCut.included_of_last_before {l : List T} {z : T}
    (h : s.StartCut key (.included e) pre g post (l ++ [z]) d) (hz : start.Starts (key z)) :
    ((∀ x ∈ s.itemsOf pre ++ l, start.Starts (key x) → key x ≤ e) ∧
        ∀ x ∈ z :: d ++ s.itemsOf post, ¬ key x ≤ e) ↔
      ∃ x, (s.nodes g.2).filter (fun x => start.Starts (key x)) = [x] ∧ key x = e := by
  have hlt : key z < e := not_le.mp (h.before z (by simp))
  refine iff_of_false (fun hends => hends.2 z (by simp) hlt.le) ?_
  rintro ⟨x, hfilter, hx⟩
  have hmem : z ∈ (s.nodes g.2).filter fun x => start.Starts (key x) := by
    rw [List.mem_filter, h.node]
    exact ⟨by simp, decide_eq_true hz⟩
  rw [hfilter, List.mem_singleton] at hmem
  exact absurd (hmem ▸ hx) hlt.ne

/-- An excluded end: the last element before its cut has to be the end itself. -/
theorem StartCut.excluded_of_last_before (hs : s.AtRest) {l : List T} {z : T}
    (h : s.StartCut key (.excluded e) pre g post (l ++ [z]) d) (hz : start.Starts (key z)) :
    ((∀ x ∈ s.itemsOf pre ++ l, start.Starts (key x) → key x < e) ∧
        ∀ x ∈ z :: d ++ s.itemsOf post, ¬ key x < e) ↔
      ∃ x ∈ s.nodes g.2, key x = e ∧ start.Starts (key x) := by
  have hle : key z ≤ e := not_lt.mp (h.before z (by simp))
  have hbelow : ∀ x ∈ s.itemsOf pre ++ l, key x < key z := by
    have hasc := hs.elements_ascending
    rw [h.elements_eq] at hasc
    have hfront := (ascending_append.mp hasc).1
    rw [← List.append_assoc] at hfront
    exact fun x hx => (ascending_append.mp hfront).2.2 x hx z (List.mem_singleton_self z)
  constructor
  · rintro ⟨-, hbehind⟩
    refine ⟨z, by simp [h.node], le_antisymm hle (not_lt.mp (hbehind z (by simp))), hz⟩
  · rintro ⟨x, hx, rfl, -⟩
    have hxz : key x = key z := by
      rw [h.node, List.mem_append, List.mem_append, List.mem_singleton] at hx
      rcases hx with (hx | rfl) | hx
      · exact absurd (hbelow x (List.mem_append_right _ hx)) (not_lt.mpr hle)
      · rfl
      · exact absurd (h.behind x (List.mem_append_left _ hx)) (lt_irrefl _)
    refine ⟨fun y hy _ => hxz ▸ hbelow y hy, fun y hy => ?_⟩
    rcases List.mem_cons.mp hy with rfl | hy
    · exact hxz ▸ lt_irrefl _
    · exact not_lt.mpr (le_of_lt (h.behind y hy))

/-- An included end behind everything. -/
theorem StartCut.included_of_no_back (h : s.StartCut key start pre g post c d)
    (hall : ∀ x ∈ s.elements, key x < e) :
    ((c ≠ [] → ∀ x ∈ d, key x ≤ e) ∧ (∀ x ∈ s.itemsOf post, ¬ key x ≤ e) ∧
        (c = [] → ∀ x ∈ d, ¬ key x ≤ e)) ↔ c ≠ [] ∧ s.itemsOf post = [] := by
  have hd : ∀ x ∈ d, key x < e := fun x hx => hall x (by rw [h.elements_eq]; simp [hx])
  constructor
  · rintro ⟨-, hpost, hcut⟩
    refine ⟨fun hnil => ?_, List.eq_nil_iff_forall_not_mem.mpr fun x hx => ?_⟩
    · obtain ⟨y, hy⟩ := List.exists_mem_of_ne_nil _ h.ne_nil
      exact hcut hnil y hy (hd y hy).le
    · exact hpost x hx (hall x (by rw [h.elements_eq]; simp [hx])).le
  · rintro ⟨hne, hnil⟩
    exact ⟨fun _ x hx => (hd x hx).le, by simp [hnil], fun hnil => absurd hnil hne⟩

/-- Its layouts. -/
theorem StartCut.removesExactly_included (hs : s.AtRest) (h : s.StartCut key start pre g post c d)
    (hall : ∀ x ∈ s.elements, key x < e) :
    RemovesExactly s.layout start (.included e) ↔ c ≠ [] ∧ s.itemsOf post = [] := by
  rw [itemsOf_eq_nil hs h.entries, ← h.beginsInLast_iff, RemovesExactly, flatten_layout]
  constructor
  · rintro (hnone | ⟨-, hbegins⟩ | ⟨node, hnode, x, hfilter, hx⟩)
    · obtain ⟨y, hy⟩ := List.exists_mem_of_ne_nil _ h.ne_nil
      exact absurd (h.behind y (by simp [hy])) (hnone y (by rw [h.elements_eq]; simp [hy]))
    · exact hbegins
    · have hmem : x ∈ s.elements := by
        rw [← flatten_layout]
        exact List.mem_flatten.mpr
          ⟨node, hnode, List.mem_of_mem_filter (hfilter ▸ List.mem_singleton_self x)⟩
      exact absurd hx (hall x hmem).ne
  · exact fun hbegins => Or.inr (Or.inl ⟨hall, hbegins⟩)

/-- An excluded end behind or at the last element, when the run is the range: the end is the
last element and alone in its node, or it is behind the last node, which the start cuts. -/
theorem StartCut.exactly_of_excluded (hs : s.AtRest) (h : s.StartCut key start pre g post c d)
    (hall : ∀ x ∈ s.elements, key x ≤ e) (hd : c ≠ [] → ∀ x ∈ d, key x < e)
    (hpost : ∀ x ∈ s.itemsOf post, ¬ key x < e) (hcut : c = [] → ∀ x ∈ d, ¬ key x < e) :
    (∀ x ∈ s.elements, key x < e) ∧ BeginsInLast start s.layout ∨
      ∃ init x, s.layout = init ++ [[x]] ∧ key x = e ∧
        ((∀ y ∈ init.flatten, ¬ start.Starts (key y)) ∨ BeginsInLast start init) := by
  have hlayout := layout_cut h.entries
  have hasc := hs.elements_ascending
  rw [h.elements_eq] at hasc
  obtain ⟨-, hasc, hbelow⟩ := ascending_append.mp hasc
  have hmax : ∀ x ∈ d ++ s.itemsOf post, ¬ key x < e → key x = e := fun x hx hlt =>
    le_antisymm (hall x (by rw [h.elements_eq]; exact List.mem_append_right _ hx))
      (not_lt.mp hlt)
  have hpost' : ∀ x ∈ s.itemsOf post, key x = e := fun x hx =>
    hmax x (List.mem_append_right _ hx) (hpost x hx)
  by_cases hnil : c = []
  · -- the end is alone behind the start, in a node of its own
    obtain ⟨x, hx, hkey⟩ : ∃ x, d ++ s.itemsOf post = [x] ∧ key x = e := by
      refine eq_singleton_of_keys hasc (by simp [h.ne_nil]) fun x hx => ?_
      rcases List.mem_append.mp hx with hx' | hx'
      · exact hmax x hx (hcut hnil x hx')
      · exact hpost' x hx'
    obtain ⟨z, d, rfl⟩ := List.exists_cons_of_ne_nil h.ne_nil
    rw [List.cons_append, List.cons.injEq, List.append_eq_nil_iff] at hx
    obtain ⟨rfl, rfl, hpostnil⟩ := hx
    rw [itemsOf_eq_nil hs h.entries] at hpostnil
    subst hnil hpostnil
    refine Or.inr ⟨pre.map fun p => s.nodes p.2, z, ?_, hkey, Or.inl ?_⟩
    · rw [hlayout, h.node]
      rfl
    · intro x hx
      rw [← List.flatMap_def] at hx
      exact h.before x (List.mem_append_left _ hx)
  · cases post with
    | nil =>
      refine Or.inl ⟨fun x hx => ?_, h.beginsInLast_iff.mpr ⟨hnil, rfl⟩⟩
      rw [h.elements_eq, itemsOf_nil, List.append_nil] at hx
      rcases List.mem_append.mp hx with hx | hx
      · obtain ⟨y, hy⟩ := List.exists_mem_of_ne_nil _ h.ne_nil
        exact (hbelow x hx y (List.mem_append_left _ hy)).trans (hd hnil y hy)
      · exact hd hnil x hx
    | cons p post =>
      -- the end is alone in the node behind the cut
      have hne : s.nodes p.2 ≠ [] := hs.ne_nil (by simp [h.entries])
      obtain ⟨x, hx, hkey⟩ : ∃ x, s.itemsOf (p :: post) = [x] ∧ key x = e :=
        eq_singleton_of_keys (ascending_append.mp hasc).2.1 (by simp [hne]) hpost'
      have hcut' : s.entries = (pre ++ [g]) ++ p :: post := by simp [h.entries]
      obtain ⟨z, l, hz⟩ := List.exists_cons_of_ne_nil hne
      rw [itemsOf_cons, hz, List.cons_append, List.cons.injEq, List.append_eq_nil_iff,
        itemsOf_eq_nil hs hcut'] at hx
      obtain ⟨rfl, rfl, rfl⟩ := hx
      refine Or.inr ⟨(pre.map fun p => s.nodes p.2) ++ [s.nodes g.2], z, ?_, hkey, Or.inr ?_⟩
      · rw [hlayout, List.map_cons, hz]
        simp
      · rw [h.node]
        exact (beginsInLast_cut (fun x hx => h.before x (List.mem_append_right _ hx))
          (fun x hx => h.behind x (List.mem_append_left _ hx)) h.ne_nil (by simp)).mpr
          ⟨hnil, rfl⟩

/-- A last node that holds only the end: the run is the range. -/
theorem StartCut.excluded_of_alone (hs : s.AtRest) (h : s.StartCut key start pre g post c d)
    {init : List (List T)} {x : T} (hinit : s.layout = init ++ [[x]]) (hkey : key x = e)
    (hbegins : (∀ y ∈ init.flatten, ¬ start.Starts (key y)) ∨ BeginsInLast start init) :
    (c ≠ [] → ∀ x ∈ d, key x < e) ∧ (∀ x ∈ s.itemsOf post, ¬ key x < e) ∧
      (c = [] → ∀ x ∈ d, ¬ key x < e) := by
  have hasc := hs.elements_ascending
  rw [h.elements_eq] at hasc
  have hasc := (ascending_append.mp hasc).2.1
  rw [layout_cut h.entries] at hinit
  rcases List.eq_nil_or_concat' post with rfl | ⟨post, p, rfl⟩
  · -- the cut node is the last one
    obtain ⟨-, hnode⟩ := List.append_inj' hinit rfl
    rw [List.map_nil, List.singleton_inj, h.node, List.append_eq_singleton_iff] at hnode
    obtain ⟨rfl, rfl⟩ := hnode.resolve_right fun hnil => h.ne_nil hnil.2
    exact ⟨fun hne => absurd rfl hne, by simp, fun _ => by simp [hkey]⟩
  · rw [List.map_append, ← List.cons_append, ← List.append_assoc] at hinit
    obtain ⟨rfl, hnode⟩ := List.append_inj' hinit rfl
    rw [List.map_singleton, List.singleton_inj] at hnode
    have hstarts : ∀ z ∈ s.itemsOf post, start.Starts (key z) := fun z hz =>
      h.behind z (by simp [hz])
    rcases hbegins with hnone | hbegins
    · obtain ⟨y, hy⟩ := List.exists_mem_of_ne_nil _ h.ne_nil
      exact absurd (h.behind y (by simp [hy])) (hnone y (by simp [h.node, hy]))
    · rw [h.node, beginsInLast_cut (fun x hx => h.before x (List.mem_append_right _ hx))
        (fun x hx => h.behind x (List.mem_append_left _ hx)) h.ne_nil
        (by rwa [← List.flatMap_def]), List.map_eq_nil_iff] at hbegins
      obtain ⟨hne, rfl⟩ := hbegins
      have hitems : s.itemsOf ([] ++ [p]) = [x] := by simp [hnode]
      rw [hitems] at hasc ⊢
      refine ⟨fun _ z hz => ?_, by simp [hkey], fun hnil => absurd hnil hne⟩
      exact hkey ▸ (ascending_append.mp hasc).2.2 z hz x (List.mem_singleton_self x)

/-- An excluded end behind or at the last element. -/
theorem StartCut.excluded_of_no_back (hs : s.AtRest) (h : s.StartCut key start pre g post c d)
    (hall : ∀ x ∈ s.elements, key x ≤ e) :
    ((c ≠ [] → ∀ x ∈ d, key x < e) ∧ (∀ x ∈ s.itemsOf post, ¬ key x < e) ∧
        (c = [] → ∀ x ∈ d, ¬ key x < e)) ↔ RemovesExactly s.layout start (.excluded e) := by
  have hmem : ∀ x ∈ d ++ s.itemsOf post, x ∈ s.elements := fun x hx => by
    rw [h.elements_eq]
    exact List.mem_append_right _ hx
  rw [RemovesExactly, flatten_layout]
  constructor
  · rintro ⟨hd, hpost, hcut⟩
    rcases h.exactly_of_excluded hs hall hd hpost hcut with hbehind | halone
    · exact Or.inr (Or.inl hbehind)
    · exact Or.inr (Or.inr (Or.inl halone))
  · rintro (hnone | ⟨hlt, hbegins⟩ | ⟨init, x, hinit, hkey, hbegins⟩ |
      ⟨node, hnode, -, z, hz, hlt⟩)
    · obtain ⟨y, hy⟩ := List.exists_mem_of_ne_nil _ h.ne_nil
      exact absurd (h.behind y (by simp [hy])) (hnone y (hmem y (by simp [hy])))
    · obtain ⟨hne, rfl⟩ := h.beginsInLast_iff.mp hbegins
      exact ⟨fun _ x hx => hlt x (hmem x (by simp [hx])), by simp, fun hnil => absurd hnil hne⟩
    · exact h.excluded_of_alone hs hinit hkey hbegins
    · refine absurd (hall z ?_) (not_le.mpr hlt)
      rw [← flatten_layout]
      exact List.mem_flatten.mpr ⟨node, hnode, hz⟩

/-- The cut of an end in a node before that of the start: the layout is none of those. -/
theorem StartCut.not_exactly_of_before (hs : s.AtRest) {mid : List (T × NodeId)}
    {f : T × NodeId} {a b : List T} {stop : Bound K}
    (h : s.StartCut key start (pre ++ g :: mid) f post a b)
    (h' : s.StartCut key stop pre g (mid ++ f :: post) c d)
    (hsome : ∃ x ∈ s.elements, start.Starts (key x)) :
    ¬ RemovesExactly s.layout start stop := by
  have hout : ∀ x ∈ s.nodes g.2, ¬ start.Starts (key x) := fun x hx =>
    h.before x (by simp [hx])
  cases stop with
  | unbounded =>
    rw [RemovesExactly, flatten_layout, layout_cut h'.entries]
    rintro (hnone | hlength)
    · obtain ⟨z, hz, hstart⟩ := hsome
      exact hnone z hz hstart
    · simp only [List.length_append, List.length_cons, List.length_map] at hlength
      omega
  | included e =>
    rw [h'.included_iff hs hsome]
    rintro ⟨z, hfilter, -⟩
    have hmem := List.mem_filter.mp (hfilter ▸ List.mem_singleton_self z)
    exact hout z hmem.1 (of_decide_eq_true hmem.2)
  | excluded e =>
    rw [h'.excluded_iff hs hsome]
    rintro ⟨z, hz, -, hstart⟩
    exact hout z hz hstart

/-- If something before a cut in a node lies behind a start, the last of it does. -/
theorem StartCut.last_starts (hs : s.AtRest) {stop : Bound K} {l : List T} {z : T}
    (h : s.StartCut key stop pre g post (l ++ [z]) d)
    (hc : ¬ ∀ x ∈ l ++ [z], ¬ start.Starts (key x)) : start.Starts (key z) := by
  by_contra hz
  refine hc fun x hx hx' => hz (hx'.mono ?_)
  have hasc := hs.sorted g.2
  rw [h.node] at hasc
  rcases List.mem_append.mp hx with hx | hx
  · have hlast := (ascending_append.mp (ascending_append.mp hasc).1).2.2 x hx
    exact (hlast z (List.mem_singleton_self z)).le
  · rw [List.mem_singleton.mp hx]

end Runs

variable [LawfulSkipMap M T K]

/-- Exactly for the layouts and bounds of `RemovesExactly` the elements in the range are removed,
and nothing else. -/
theorem removes_iff_layout {s : BTreeSet M T} (hs : s.AtRest) (start stop : Bound K) :
    s.Removes start stop ↔ RemovesExactly s.layout start stop := by
  rcases hs.startCut coarsens_key start with ⟨hfront, hnone⟩ | ⟨pre, f, post, a, b, hfront, h⟩
  · exact removes_iff_of_none hs hfront hnone
  obtain ⟨y, hy⟩ := List.exists_mem_of_ne_nil _ h.ne_nil
  have hstart : start.Starts (key y) := h.behind y (List.mem_append_left _ hy)
  have hsome : ∃ x ∈ s.elements, start.Starts (key x) :=
    ⟨y, by rw [h.elements_eq]; simp [hy], hstart⟩
  rcases hs.startCut coarsens_key stop with ⟨hback, hnone⟩ | ⟨pre', g, post', c, d, hback, h'⟩
  · rw [removes_iff_of_no_back hs h hfront hback]
    obtain ⟨x, hx, -⟩ := hsome
    cases stop with
    | unbounded => exact absurd trivial (hnone x hx)
    | included e =>
      have hall : ∀ x ∈ s.elements, key x < e := fun x hx => not_le.mp (hnone x hx)
      exact (h.included_of_no_back hall).trans (h.removesExactly_included hs hall).symm
    | excluded e => exact h.excluded_of_no_back hs fun x hx => not_lt.mp (hnone x hx)
  have hcases := cut_trichotomy h.entries h'.entries
  rw [← or_assoc] at hcases
  rcases hcases with hle | ⟨mid, rfl, rfl⟩
  · have hsome' : ∃ x ∈ s.nodes g.2, start.Starts (key x) := by
      rcases hle with ⟨rfl, -⟩ | ⟨mid, -, rfl⟩
      · exact ⟨y, by rw [h.node]; simp [hy], hstart⟩
      · obtain ⟨x, hx⟩ := List.exists_mem_of_ne_nil _ (hs.ne_nil (e := g) (by simp [h.entries]))
        exact ⟨x, hx, h.behind x (by simp [hx])⟩
    by_cases hc : ∀ x ∈ c, ¬ start.Starts (key x)
    · rw [removes_iff_of_none_before hs h hfront h' hback hle hc]
      cases stop with
      | unbounded => exact h'.unbounded_of_none_before hs hsome
      | included e =>
        exact (h'.included_of_none_before hs hsome' hc).trans (h'.included_iff hs hsome).symm
      | excluded e =>
        exact (h'.excluded_of_none_before hsome' hc).trans (h'.excluded_iff hs hsome).symm
    · rcases List.eq_nil_or_concat' c with rfl | ⟨l, z, rfl⟩
      · exact absurd (by simp) hc
      have hz : start.Starts (key z) := h'.last_starts hs hc
      rw [removes_iff_of_last_before hs h hfront h' hback hle hz]
      cases stop with
      | unbounded => exact absurd (h'.unbounded_nil hs).2 (by simp)
      | included e => exact (h'.included_of_last_before hz).trans (h'.included_iff hs hsome).symm
      | excluded e =>
        exact (h'.excluded_of_last_before hs hz).trans (h'.excluded_iff hs hsome).symm
  · -- the node of the end comes before that of the start
    refine iff_of_false (not_removes_of_before hs h hfront h' hback ?_)
      (h.not_exactly_of_before hs h' hsome)
    obtain ⟨x, hx⟩ := List.exists_mem_of_ne_nil _ h'.ne_nil
    have hlt : key x < key y :=
      h'.above hs (by rw [h'.node]; simp [hx]) (by simp [h.node, hy])
    cases stop with
    | unbounded => exact Or.inl (h'.unbounded_nil hs).2
    | included e =>
      exact Or.inr ⟨y, hy, not_le.mpr ((h'.behind x (by simp [hx])).trans_lt hlt)⟩
    | excluded e =>
      exact Or.inr ⟨y, hy, not_lt.mpr ((h'.behind x (by simp [hx])).trans hlt).le⟩

/-- **Removing a range from a set at rest** whose nodes have at most `2³¹` elements: the ranks are
those of the model, and the range is removed exactly for the layouts and bounds of
`RemovesExactly`. -/
theorem removes_iff (s : BTreeSet M T) (hs : s.AtRest) (hlen : s.NodesFit) (start stop : Bound K) :
    s.RanksExact key ∧ (s.Removes start stop ↔ RemovesExactly s.layout start stop) :=
  ⟨hlen.ranksExact key, removes_iff_layout hs start stop⟩

/-- From 2 up to but not including 4 lies only 2, and the end is in a node with something above
it. -/
theorem removes_up_to_four : twoNodes.Removes (.included 2) (.excluded 4) :=
  (removes_iff twoNodes twoNodes_atRest (by decide) (.included 2) (.excluded 4)).2.mpr
    (Or.inr (Or.inr (Or.inr (by decide))))

/-- From 1 to 4, both included, 5 goes as well; and from 2 on without an end only 2 goes. -/
theorem removes_above_end :
    twoNodes.AtRest ∧ NotAfter (.included 1 : Bound ℕ) (.included 4) ∧
      (twoNodes.removeRange (.included 1) (.included 4)).map elements = some [] ∧
      ¬ twoNodes.Removes (.included 1) (.included 4) ∧
      NotAfter (.included 2 : Bound ℕ) .unbounded ∧
      (twoNodes.removeRange (.included 2) .unbounded).map elements = some [1, 4, 5] ∧
      ¬ twoNodes.Removes (.included 2) .unbounded := by
  have hincluded : (twoNodes.removeRange (.included 1) (.included 4)).map elements = some [] := by
    decide
  have hunbounded : (twoNodes.removeRange (.included 2) .unbounded).map elements =
      some [1, 4, 5] := by decide
  refine ⟨twoNodes_atRest, show 1 ≤ 4 by decide, hincluded, ?_, trivial, hunbounded, ?_⟩
  · rintro ⟨s', hrange, -, helements, -⟩
    rw [hrange, Option.map_some, helements] at hincluded
    exact absurd hincluded (by decide)
  · rintro ⟨s', hrange, -, helements, -⟩
    rw [hrange, Option.map_some, helements] at hunbounded
    exact absurd hunbounded (by decide)

end BTreeSet

end IndexSet.Concurrent
