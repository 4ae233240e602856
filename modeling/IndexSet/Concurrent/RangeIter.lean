import IndexSet.Concurrent.Iter
import IndexSet.Concurrent.RankCount
import Mathlib.Data.Prod.Lex

/-!
# Ranges from Both Ends

`range` and `iter` of the concurrent set, map and multimap, by one thread while nobody changes
the set.

- §1 the code: `Range::new` from beginning to end, and what the map and the multimap make of
  the elements;
- §2 where the two lookups place the ends;
- §3 what `Range::new` builds;
- §4 the answers of a range, and of an iterator over everything.
-/

namespace IndexSet.Concurrent

open KeyedList DoubleEnded

variable {M T K Q : Type} [LinearOrder K] [Keyed T K] [LinearOrder Q]

/-! ## §1 The code -/

/-- The `Iter` in a `Range`. -/
def Range.iter (range : Range T) : Iter T where
  front := ⟨range.currentFrontNode, none, range.currentFrontValue⟩
  back := ⟨range.currentBackNode, none, range.currentBackValue⟩
  met := range.met

namespace BTreeSet

variable [SkipMap M T K] (s : BTreeSet M T) (borrow : T → Q) (lo hi : Bound Q)

/-- The phases of a construction one after the other, at most so many. -/
def construct : ℕ → RangeNext T → Option (Range T)
  | _, .inr range => some range
  | 0, .inl _ => none
  | fuel + 1, .inl phase => construct fuel (s.rangeTurn borrow lo hi phase)

/-- `BTreeSet::range`. -/
def range : Option (Iter T) := (s.construct borrow lo hi 7 (.inl .start)).map Range.iter

end BTreeSet

namespace BTreeMap

variable {V R : Type} [Keyed Q K] [SkipMap M (Pair Q V) K] [LinearOrder R] (m : BTreeMap M Q V)

/-- `BTreeMap::range`. -/
def range (borrow : Pair Q V → R) (lo hi : Bound R) : Option (Iter (Pair Q V)) :=
  m.set.range borrow lo hi

/-- `BTreeMap::iter`. -/
def iter : Iter (Pair Q V) := m.set.iter

/-- `Range::next`, `Iter::next` and their `next_back` in `concurrent/map.rs`. -/
def pull : Iter (Pair Q V) → End → Option (Iter (Pair Q V) × Option (Q × V)) :=
  mapped (fun entry => (entry.key, entry.value)) m.set.pull

end BTreeMap

/-- `trait MultiPairLike`: an entry of a multimap, ordered by its key first. -/
class MultiPairLike (T : Type) (Q V : outParam Type) where
  key : T → Q
  value : T → V

/-- `core/multipair/ord.rs`: ordered by the key, and then by the value. -/
structure OrdMultiPair (Q V : Type) where
  key : Q
  value : V
  deriving DecidableEq

instance {Q V : Type} : Keyed (OrdMultiPair Q V) (Q ×ₗ V) := ⟨fun p => toLex (p.key, p.value)⟩

instance {Q V : Type} : MultiPairLike (OrdMultiPair Q V) Q V :=
  ⟨OrdMultiPair.key, OrdMultiPair.value⟩

/-- The keys are a coarser order. -/
theorem OrdMultiPair.coarsens {Q V : Type} [LinearOrder Q] [LinearOrder V] :
    Coarsens (MultiPairLike.key : OrdMultiPair Q V → Q) :=
  fun _ _ h => Prod.Lex.monotone_fst _ _ h

/-- `struct BTreeMultiMap`: a set of such entries. -/
structure BTreeMultiMap (M T : Type) where
  set : BTreeSet M T

namespace BTreeMultiMap

variable {V : Type} [SkipMap M T K] [MultiPairLike T Q V] (m : BTreeMultiMap M T)

/-- `BTreeMultiMap::range`: an entry is borrowed as its key. -/
def range (lo hi : Bound Q) : Option (Iter T) := m.set.range MultiPairLike.key lo hi

/-- `BTreeMultiMap::get`. -/
def get (key : Q) : Option (Iter T) := m.range (.included key) (.included key)

/-- `BTreeMultiMap::iter`. -/
def iter : Iter T := m.set.iter

/-- `Range::next`, `Iter::next` and their `next_back` in `concurrent/multimap.rs`. -/
def pull : Iter T → End → Option (Iter T × Option (Q × V)) :=
  mapped (fun entry => (MultiPairLike.key entry, MultiPairLike.value entry)) m.set.pull

end BTreeMultiMap

/-! ## §2 Where the lookups place the ends -/

/-- An end that stands at the last of the elements before it has passed these. -/
theorem passes_getLast_iff {e : End} {l r : List T}
    (hpair : (l ++ r).Pairwise fun x y => Ahead e (key x) (key y)) {x : T} (hx : x ∈ l ++ r) :
    Passes e l.getLast? x ↔ x ∈ l := by
  obtain ⟨hl, -, hlr⟩ := List.pairwise_append.mp hpair
  rcases List.eq_nil_or_concat' l with rfl | ⟨l, v, rfl⟩
  · simp [Passes]
  rw [List.getLast?_concat, Passes]
  constructor
  · intro h
    refine (List.mem_append.mp hx).resolve_right fun hr => h ?_
    exact hlr v (by simp) x hr
  · intro hmem
    rcases List.mem_append.mp hmem with hmem | hmem
    · exact fun h => Ahead.irrefl (h.trans ((List.pairwise_append.mp hl).2.2 x hmem v (by simp)))
    · rw [List.mem_singleton.mp hmem]
      exact Ahead.irrefl

namespace BTreeSet

variable [LawfulSkipMap M T K] {s : BTreeSet M T} {borrow : T → Q} {bound lo hi : Bound Q}
  {pre post : List (T × NodeId)} {e : T × NodeId} {a b : List T}

/-- The end a cut places: its elements before `e` in the direction of the end are `l`. -/
theorem placed_of_cut (hs : s.AtRest) {dir : End} {l r : List T}
    (hentries : facing dir s.entries = pre ++ e :: post)
    (helements : facing dir s.elements = l ++ r)
    (hpre : ∀ x ∈ s.facingItems dir pre, x ∈ l) (hpost : ∀ x ∈ s.facingItems dir post, x ∈ r) :
    s.Placed dir ⟨some e.2, none, l.getLast?⟩ := by
  have hpair := hs.pairwise_ahead (e := dir)
  rw [helements] at hpair
  have hiff : ∀ x ∈ l ++ r, Passes dir l.getLast? x ↔ x ∈ l := fun x =>
    passes_getLast_iff hpair
  refine Or.inl ⟨pre, e, post, ⟨rfl, hentries, fun x hx => ?_, by simp⟩, fun x hx hpass => ?_⟩
  · have hx := hpre x hx
    exact (hiff x (List.mem_append_left _ hx)).mpr hx
  · have hx := hpost x hx
    have hl := (hiff x (List.mem_append_right _ hx)).mp hpass
    exact Ahead.irrefl ((List.pairwise_append.mp hpair).2.2 x hl x hx)

/-- The front end of a range. -/
theorem StartCut.placed (hs : s.AtRest) (h : s.StartCut borrow bound pre e post a b) :
    s.Placed .front ⟨some e.2, none, (s.itemsOf pre ++ a).getLast?⟩ ∧
      ∀ x ∈ s.elements, Passes .front (s.itemsOf pre ++ a).getLast? x ↔
        ¬ bound.Starts (borrow x) := by
  have helements : s.elements = (s.itemsOf pre ++ a) ++ (b ++ s.itemsOf post) := by
    rw [elements_cut h.entries, h.node]
    simp only [List.append_assoc]
  refine ⟨placed_of_cut hs h.entries helements (fun x hx => List.mem_append_left _ hx)
    fun x hx => List.mem_append_right _ hx, fun x hx => ?_⟩
  have hpair := hs.pairwise_ahead (e := .front)
  rw [facing, helements] at hpair
  rw [helements] at hx
  rw [passes_getLast_iff hpair hx]
  refine ⟨fun hmem => h.before x hmem, fun hstart => ?_⟩
  exact (List.mem_append.mp hx).resolve_right fun hmem => hstart (h.behind x hmem)

/-- The back end of a range. -/
theorem EndCut.placed (hs : s.AtRest) (h : s.EndCut borrow bound pre e post a b) :
    s.Placed .back ⟨some e.2, none, b.head?⟩ ∧
      ∀ x ∈ s.elements, Passes .back b.head? x ↔ ¬ bound.Ends (borrow x) := by
  have helements : facing .back s.elements =
      (b ++ s.itemsOf post).reverse ++ (s.itemsOf pre ++ a).reverse := by
    rw [facing, elements_cut h.entries, h.node]
    simp only [List.reverse_append, List.append_assoc]
  have hlast : (b ++ s.itemsOf post).reverse.getLast? = b.head? := by
    rw [List.getLast?_reverse]
    cases b with
    | nil => rw [h.last_of_nil rfl]; rfl
    | cons x b => rfl
  have hitems : ∀ l, s.facingItems .back l.reverse = (s.itemsOf l).reverse := fun l =>
    List.reverse_flatMap.symm
  rw [← hlast]
  constructor
  · have hentries : facing .back s.entries = post.reverse ++ e :: pre.reverse := by
      simp [facing, h.entries]
    refine placed_of_cut hs hentries helements (fun x hx => ?_) fun x hx => ?_
    · rw [hitems, List.mem_reverse] at hx
      simp [hx]
    · rw [hitems, List.mem_reverse] at hx
      simp [hx]
  · intro x hx
    have hpair := hs.pairwise_ahead (e := .back)
    rw [helements] at hpair
    have hx : x ∈ (b ++ s.itemsOf post).reverse ++ (s.itemsOf pre ++ a).reverse :=
      helements ▸ mem_facing.mpr hx
    rw [passes_getLast_iff hpair hx, List.mem_reverse]
    refine ⟨fun hmem => h.behind x hmem, fun hend => ?_⟩
    rcases List.mem_append.mp hx with hmem | hmem
    · exact List.mem_reverse.mp hmem
    · exact absurd (h.before x (List.mem_reverse.mp hmem)) hend

/-! ## §3 What `Range::new` builds -/

/-- The range lies outside: it begins behind the last element or ends before the first. -/
def outside (s : BTreeSet M T) (borrow : T → Q) (lo hi : Bound Q) : Bool :=
  (s.elements.getLast?.any fun x => ¬ lo.Starts (borrow x)) ||
    s.elements.head?.any fun x => ¬ hi.Ends (borrow x)

/-- The first element is the first one of the first node. -/
theorem AtRest.head?_elements (hs : s.AtRest) :
    s.elements.head? = (SkipMap.front s.index).bind fun e => (s.nodes e.2).head? := by
  rw [LawfulSkipMap.front_eq, ← itemsOf_entries]
  show _ = s.entries.head?.bind _
  cases hentries : s.entries with
  | nil => rfl
  | cons e l =>
    have hne : s.nodes e.2 ≠ [] := hs.ne_nil (hentries ▸ List.mem_cons_self ..)
    rw [itemsOf_cons, List.head?_append_of_ne_nil _ hne]
    rfl

/-- The last element is the last one of the last node. -/
theorem AtRest.getLast?_elements (hs : s.AtRest) :
    s.elements.getLast? = (SkipMap.back s.index).bind fun e => (s.nodes e.2).getLast? := by
  rw [LawfulSkipMap.back_eq, ← itemsOf_entries]
  show _ = s.entries.getLast?.bind _
  rcases List.eq_nil_or_concat' s.entries with hentries | ⟨l, e, hentries⟩
  · rw [hentries]
    rfl
  · have hne : s.nodes e.2 ≠ [] := hs.ne_nil (by simp [hentries])
    rw [hentries, itemsOf_append, itemsOf_cons, itemsOf_nil, List.append_nil,
      List.getLast?_append_of_ne_nil _ hne, List.getLast?_concat]
    rfl

/-- More phases do no harm. -/
theorem construct_succ {fuel : ℕ} {next : RangeNext T} {range : Range T}
    (h : s.construct borrow lo hi fuel next = some range) :
    s.construct borrow lo hi (fuel + 1) next = some range := by
  induction fuel generalizing next with
  | zero =>
    cases next with
    | inl phase => exact absurd h (by simp [construct])
    | inr range => exact h
  | succ fuel ih =>
    cases next with
    | inl phase => exact ih h
    | inr range => exact h

/-- The check against the first node. -/
theorem construct_toFirst (hs : s.AtRest) (range : Range T) (fuel : ℕ) :
    s.construct borrow lo hi (fuel + 1) (s.toFirst range) =
      some { range with
        met := range.met || s.elements.head?.any fun x => ¬ hi.Ends (borrow x) } := by
  rw [toFirst, hs.head?_elements]
  cases SkipMap.front s.index with
  | none => simp [construct]
  | some e =>
    simp only [construct, rangeTurn, Option.bind_some]
    cases (s.nodes e.2).head? with
    | none => simp
    | some x => cases hi <;> simp [Bound.Ends]

/-- The checks at the end of the construction. -/
theorem construct_toLast (hs : s.AtRest) (borrow : T → Q) (lo hi : Bound Q) (range : Range T)
    (fuel : ℕ) :
    s.construct borrow lo hi (fuel + 2) (s.toLast lo hi range) =
      some { range with met := range.met || (range.currentFrontValue.isNone &&
        range.currentBackValue.isNone && s.outside borrow lo hi) } := by
  rw [toLast]
  split
  · rename_i hneither
    rw [hneither.1, hneither.2.1]
    simp only [outside, hs.getLast?_elements]
    cases SkipMap.back s.index with
    | none =>
      rw [construct_toFirst hs]
      simp
    | some e =>
      simp only [construct, rangeTurn, Option.bind_some, Node.max]
      rw [construct_toFirst hs]
      cases (s.nodes e.2).getLast? with
      | none => simp
      | some x => cases lo <;> simp [Bound.Starts, Bool.or_assoc]
  · rename_i hnot
    -- without bounds nothing is outside
    have hfalse : (range.currentFrontValue.isNone && range.currentBackValue.isNone &&
        s.outside borrow lo hi) = false := by
      by_contra h
      rw [Bool.not_eq_false, Bool.and_eq_true, Bool.and_eq_true, outside, Bool.or_eq_true,
        Option.any_eq_true, Option.any_eq_true] at h
      obtain ⟨⟨hfront, hback⟩, houtside⟩ := h
      refine hnot ⟨hfront, hback, ?_⟩
      rcases houtside with ⟨x, -, hx⟩ | ⟨x, -, hx⟩
      · exact Or.inl fun hlo => of_decide_eq_true hx (hlo ▸ trivial)
      · exact Or.inr fun hhi => of_decide_eq_true hx (hhi ▸ trivial)
    rw [hfalse, Bool.or_false]
    rfl

/-- The back end. -/
theorem construct_toBack (h : s.EndCut borrow hi pre e post a b)
    (hlookup : backEntry borrow s.index hi = some e) {frontNode : Option NodeId}
    {frontValue : Option T} {fuel : ℕ} {range : Range T}
    (hrange : s.construct borrow lo hi fuel
      (s.toLast lo hi ⟨frontNode, some e.2, frontValue, b.head?, false⟩) = some range) :
    s.construct borrow lo hi (fuel + 2) (s.toBack borrow lo hi frontNode frontValue) =
      some range := by
  have hrank : Node.rank borrow (a ++ b) hi false = _ :=
    rank_backward_cut (fun x hx => h.before x (List.mem_append_right _ hx))
      fun x hx => h.behind x (List.mem_append_left _ hx)
  simp only [toBack, hlookup, construct, rangeTurn, h.node, hrank]
  cases b with
  | nil =>
    -- nothing in the node is behind the end, and it is the last one
    rw [List.length_nil, if_pos rfl]
    obtain rfl := h.last_of_nil rfl
    simp only [next_cut h.entries, List.head?_nil]
    exact construct_succ hrange
  | cons x b =>
    rw [List.length_cons, if_neg (Nat.succ_ne_zero _)]
    have hvalue : (a ++ x :: b).reverse[b.length + 1 - 1]? = some x := by
      simp
    simp only [hvalue]
    exact construct_succ hrange

/-- The front end. -/
theorem construct_start (hs : s.AtRest) (h : s.StartCut borrow lo pre e post a b)
    (hlookup : SkipMap.lowerBoundOf borrow s.index lo = some e) {fuel : ℕ} {range : Range T}
    (hrange : s.construct borrow lo hi fuel
      (s.toBack borrow lo hi (some e.2) (s.itemsOf pre ++ a).getLast?) = some range) :
    s.construct borrow lo hi (fuel + 3) (.inl .start) = some range := by
  have hrank : Node.rank borrow (a ++ b) lo true = _ :=
    rank_forward_cut (fun x hx => h.before x (List.mem_append_right _ hx))
      fun x hx => h.behind x (List.mem_append_left _ hx)
  simp only [construct, rangeTurn, hlookup, h.node, hrank]
  rcases List.eq_nil_or_concat' a with rfl | ⟨a, x, rfl⟩
  · -- the node begins behind the start: the value is the maximum of the one before it
    rw [List.length_nil, if_pos rfl, prev_cut h.entries]
    rw [List.append_nil] at hrange
    rcases List.eq_nil_or_concat' pre with rfl | ⟨pre, p, rfl⟩
    · exact construct_succ hrange
    · have hne : s.nodes p.2 ≠ [] := hs.ne_nil (by simp [h.entries])
      rw [itemsOf_append, itemsOf_cons, itemsOf_nil, List.append_nil,
        List.getLast?_append_of_ne_nil _ hne] at hrange
      rw [List.getLast?_concat]
      exact hrange
  · have hvalue : (a ++ [x] ++ b)[(a ++ [x]).length - 1]? = some x := by simp
    rw [if_neg (by simp)]
    rw [← List.append_assoc, List.getLast?_concat] at hrange
    simp only [hvalue]
    exact construct_succ hrange

/-! ## §4 The answers -/

/-- `Iter::new` begins before and behind everything. -/
theorem iter_gives : s.Gives s.iter s.elements := by
  have hplaced : ∀ dir, s.Placed dir ⟨(indexEnd s.index dir).map Prod.snd, none, none⟩ := by
    intro dir
    rw [indexEnd_eq]
    cases hentries : facing dir s.entries with
    | nil =>
      refine Or.inr ⟨rfl, rfl, fun x hx => ?_⟩
      rw [← itemsOf_entries, facing_eq_nil.mp hentries] at hx
      cases hx
    | cons e post =>
      refine Or.inl ⟨[], e, post, ⟨rfl, hentries, by simp [facingItems], by simp⟩, ?_⟩
      simp [Passes]
  refine Or.inr ⟨⟨rfl, hplaced .front, hplaced .back, fun _ => rfl, fun _ => rfl⟩, ?_⟩
  simp [ahead, facing, iter, Passes]

/-- The range of an empty set. -/
theorem range_of_empty (hs : s.AtRest) (hnil : s.entries = [])
    (hfront : SkipMap.lowerBoundOf borrow s.index lo = none)
    (hback : backEntry borrow s.index hi = none) :
    ∃ it, s.range borrow lo hi = some it ∧ s.Gives it [] := by
  have helements : s.elements = [] := by rw [← itemsOf_entries, hnil, itemsOf_nil]
  have hrange := construct_toLast hs borrow lo hi ⟨none, none, none, none, false⟩ 4
  refine ⟨⟨⟨none, none, none⟩, ⟨none, none, none⟩, false⟩, ?_, Or.inr ⟨⟨rfl, ?_, ?_, fun _ => rfl,
    fun _ => rfl⟩, by simp [ahead, facing, helements]⟩⟩
  · simp only [range, construct, rangeTurn, hfront, toBack, hback, hrange]
    simp [outside, helements, Range.iter]
  · exact Or.inr ⟨rfl, rfl, by simp [helements]⟩
  · exact Or.inr ⟨rfl, rfl, by simp [helements]⟩

/-- When no element lies behind the start, the front end is nowhere; the range counts as outside
if no element lies behind the end either. -/
theorem range_of_behind (hs : s.AtRest) (hfront : SkipMap.lowerBoundOf borrow s.index lo = none)
    (hnone : ∀ x ∈ s.elements, ¬ lo.Starts (borrow x)) (h : s.EndCut borrow hi pre e post a b)
    (hback : backEntry borrow s.index hi = some e) :
    s.range borrow lo hi =
      some ⟨⟨none, none, none⟩, ⟨some e.2, none, b.head?⟩, b.head?.isNone⟩ := by
  have hrange := construct_toBack h hback (construct_toLast hs borrow lo hi
    ⟨none, some e.2, none, b.head?, false⟩ 2)
  have houtside : s.outside borrow lo hi = true := by
    have hne : s.elements ≠ [] := by
      rw [elements_cut h.entries]
      simp [hs.ne_nil (e := e) (by simp [h.entries])]
    rw [outside, List.getLast?_eq_some_getLast hne, Option.any_some,
      decide_eq_true (hnone _ (List.getLast_mem hne)), Bool.true_or]
  simp only [range, construct, rangeTurn, hfront, hrange]
  simp [Range.iter, houtside]

/-- Otherwise both ends are placed, and the range does not count as outside. -/
theorem range_of_cut (hs : s.AtRest) {pre' post' : List (T × NodeId)} {e' : T × NodeId}
    {a' b' : List T} (hstart : s.StartCut borrow lo pre e post a b)
    (hfront : SkipMap.lowerBoundOf borrow s.index lo = some e)
    (hend : s.EndCut borrow hi pre' e' post' a' b')
    (hback : backEntry borrow s.index hi = some e') :
    ∃ it, s.range borrow lo hi = some it ∧
      s.Gives it (s.elements.filter fun x => InRange lo hi (borrow x)) := by
  obtain ⟨hplaced, hiff⟩ := hstart.placed hs
  obtain ⟨hplaced', hiff'⟩ := hend.placed hs
  have hrange := construct_start hs hstart hfront (construct_toBack hend hback
    (construct_toLast hs borrow lo hi
      ⟨some e.2, some e'.2, (s.itemsOf pre ++ a).getLast?, b'.head?, false⟩ 0))
  have hmet : ((s.itemsOf pre ++ a).getLast?.isNone && b'.head?.isNone &&
      s.outside borrow lo hi) = false := by
    by_contra h
    rw [Bool.not_eq_false, Bool.and_eq_true, Bool.and_eq_true, outside, Bool.or_eq_true,
      Option.any_eq_true, Option.any_eq_true] at h
    obtain ⟨⟨hvalue, hvalue'⟩, ⟨x, hx, hout⟩ | ⟨x, hx, hout⟩⟩ := h
    · have hpass := (hiff x (List.mem_of_getLast? hx)).mpr (of_decide_eq_true hout)
      rw [Option.isNone_iff_eq_none.mp hvalue] at hpass
      exact hpass
    · have hpass := (hiff' x (List.mem_of_head? hx)).mpr (of_decide_eq_true hout)
      rw [Option.isNone_iff_eq_none.mp hvalue'] at hpass
      exact hpass
  refine ⟨⟨⟨some e.2, none, (s.itemsOf pre ++ a).getLast?⟩, ⟨some e'.2, none, b'.head?⟩, false⟩,
    ?_, Or.inr ⟨⟨rfl, hplaced, hplaced', fun _ => rfl, fun _ => rfl⟩, ?_⟩⟩
  · rw [range, hrange]
    simp only [Bool.false_or, hmet]
    rfl
  · -- what neither end has passed lies in the range
    rw [ahead, facing]
    refine List.filter_congr fun x hx => decide_eq_decide.mpr ?_
    rw [hiff x hx, End.opposite, hiff' x hx, not_not, not_not]
    rfl

/-- **`range`** gives the elements in the range, if some element lies behind the start or all of
them before the end. -/
theorem range_gives (hs : s.AtRest) (hborrow : Coarsens borrow)
    (h : (∃ x ∈ s.elements, lo.Starts (borrow x)) ∨ ∀ x ∈ s.elements, hi.Ends (borrow x)) :
    ∃ it, s.range borrow lo hi = some it ∧
      s.Gives it (s.elements.filter fun x => InRange lo hi (borrow x)) := by
  rcases hs.endCut hborrow hi with ⟨hback, hnil⟩ | ⟨pre', e', post', a', b', hback, hend⟩
  · have helements : s.elements = [] := by rw [← itemsOf_entries, hnil, itemsOf_nil]
    rcases hs.startCut hborrow lo with ⟨hfront, -⟩ | ⟨pre, e, post, a, b, -, hcut⟩
    · rw [helements, List.filter_nil]
      exact range_of_empty hs hnil hfront hback
    · exact absurd (hnil.symm.trans hcut.entries) (by simp)
  rcases hs.startCut hborrow lo with ⟨hfront, hnone⟩ | ⟨pre, e, post, a, b, hfront, hcut⟩
  · refine ⟨_, range_of_behind hs hfront hnone hend hback, Or.inl ⟨?_, ?_⟩⟩
    · have hall : ∀ x ∈ s.elements, hi.Ends (borrow x) := by
        refine h.resolve_left ?_
        rintro ⟨x, hx, hstart⟩
        exact hnone x hx hstart
      cases b' with
      | nil => rfl
      | cons x b' =>
        refine absurd (hall x ?_) (hend.behind x (List.mem_append_left _ (List.mem_cons_self ..)))
        rw [elements_cut hend.entries, hend.node]
        simp
    · rw [List.filter_eq_nil_iff]
      intro x hx
      simpa using fun hin : InRange lo hi (borrow x) => hnone x hx hin.1
  · exact range_of_cut hs hcut hfront hend hback

/-- A call of an end without a node, when the other end never had one: it begins anew. -/
theorem loop_anew (hs : s.AtRest) (hne : s.entries ≠ []) (dir : End) (value : Option T)
    (fuel : ℕ) :
    ∃ it x, s.loop dir (fuel + 1) ⟨⟨none, none, value⟩, ⟨none, none, none⟩, false⟩ =
      some (it, some x) := by
  have hend := indexEnd_eq (s := s) (e := dir)
  obtain ⟨p, post, hp⟩ := List.exists_cons_of_ne_nil (mt facing_eq_nil.mp hne : facing dir _ ≠ [])
  rw [hp, List.head?_cons] at hend
  have hmem : p ∈ s.entries := mem_facing.mp (hp ▸ List.mem_cons_self ..)
  obtain ⟨x, left, hx⟩ := List.exists_cons_of_ne_nil
    (mt facing_eq_nil.mp (hs.ne_nil hmem) : facing dir _ ≠ [])
  refine ⟨⟨⟨some p.2, some (facing dir left), some x⟩, ⟨none, none, none⟩, false⟩, x,
    loop_inr ?_⟩
  simp [turn, hend, arrive, lockNode, serve, hx, Iter.give, Iter.meets]

/-- Beside a front end that never had a node, a back end with nothing left before it does not
stay at its end: its first call leaves it without a node, and its second one begins anew. -/
theorem Stands.not_yields_nil (hs : s.AtRest) {c : Cursor T} (h : s.Stands .back c pre e post)
    (hpost : ∀ x ∈ s.facingItems .back post, ¬ Passes .back c.value x) :
    ¬ Yields s.pull ⟨⟨none, none, none⟩, c, false⟩ [] := by
  intro hyields
  have hlength : 2 * post.length + (if c.slice.isSome then 1 else 2) ≤
      2 * s.entries.length + 2 := by
    have hlen := congrArg List.length h.entries
    simp only [facing, List.length_reverse, List.length_append, List.length_cons] at hlen
    split <;> omega
  have hstands : s.Stands .back (⟨c, ⟨none, none, none⟩, false⟩ : Iter T).front pre e post := h
  obtain ⟨⟨it', answer⟩, hloop, hanswer⟩ := hstands.answered hs _ rfl (fun _ => hpost) hlength
  obtain ⟨it, hpull, hyields⟩ := hyields.item .back
  rw [pull, Option.map_eq_some_iff] at hpull
  obtain ⟨r, hr, heq⟩ := hpull
  obtain rfl := Option.some.inj (hloop.symm.trans hr)
  obtain ⟨rfl, rfl⟩ := Prod.mk.inj heq
  cases hanswer with
  | met hfirst hother => exact hother
  | exhausted =>
    have hne : s.entries ≠ [] := List.ne_nil_of_mem h.mem
    obtain ⟨it, hpull, -⟩ := hyields.item .back
    obtain ⟨it', y, hanew⟩ := loop_anew hs hne .back c.value (2 * s.entries.length + 1)
    rw [pull, Option.map_eq_some_iff] at hpull
    obtain ⟨r, hr, heq⟩ := hpull
    obtain rfl := Option.some.inj (hanew.symm.trans hr)
    exact absurd (congrArg Prod.snd heq) (by simp)

/-- When no element lies behind the start, no node is found for it. -/
theorem lowerBoundOf_eq_none (hs : s.AtRest) (hborrow : Coarsens borrow)
    (hnone : ∀ x ∈ s.elements, ¬ lo.Starts (borrow x)) :
    SkipMap.lowerBoundOf borrow s.index lo = none := by
  rcases hs.startCut hborrow lo with ⟨hfront, -⟩ | ⟨_, _, _, _, b, -, hstart⟩
  · exact hfront
  · obtain ⟨y, b, rfl⟩ := List.exists_cons_of_ne_nil hstart.ne_nil
    refine absurd (hstart.behind y (by simp)) (hnone y ?_)
    rw [elements_cut hstart.entries, hstart.node]
    simp

/-- **When no element lies behind the start**, and one does not lie before the end: the back end
goes on below, and its second call at the latest gives an element. -/
theorem range_gives_below (hs : s.AtRest) (hborrow : Coarsens borrow)
    (hnone : ∀ x ∈ s.elements, ¬ lo.Starts (borrow x))
    (hbehind : ∃ x ∈ s.elements, ¬ hi.Ends (borrow x)) :
    ∃ it, s.range borrow lo hi = some it ∧ ¬ Yields s.pull it [] := by
  obtain ⟨x, hx, hend⟩ := hbehind
  rcases hs.endCut hborrow hi with ⟨-, hnil⟩ | ⟨pre, e, post, a, b, hback, hcut⟩
  · rw [← itemsOf_entries, hnil] at hx
    cases hx
  have hfront := lowerBoundOf_eq_none hs hborrow hnone
  obtain ⟨hplaced, hiff⟩ := hcut.placed hs
  -- the back end has passed `x`, so it has a value and the ends have not met
  have hvalue : b.head?.isNone = false := by
    cases hb : b.head? with
    | none => exact absurd ((hiff x hx).mpr hend) (by simp [hb, Passes])
    | some y => rfl
  have hrange := range_of_behind hs hfront hnone hcut hback
  rw [hvalue] at hrange
  refine ⟨_, hrange, ?_⟩
  rcases hplaced with ⟨pre, p, post, hstands, hpost⟩ | ⟨hnode, -⟩
  · exact hstands.not_yields_nil hs hpost
  · cases hnode

/-- Both ends of the range are excluded at the last element, as it is borrowed. -/
def ExcludesLast (s : BTreeSet M T) (borrow : T → Q) (lo hi : Bound Q) : Prop :=
  ∃ x, s.elements.getLast? = some x ∧ lo = .excluded (borrow x) ∧ hi = .excluded (borrow x)

/-- Among the ranges that do not begin behind their end, only these miss the elements on both
sides. -/
theorem excludesLast_iff (hs : s.AtRest) (hborrow : Coarsens borrow) (hbounds : NotAfter lo hi) :
    s.ExcludesLast borrow lo hi ↔
      (∀ x ∈ s.elements, ¬ lo.Starts (borrow x)) ∧ ∃ x ∈ s.elements, ¬ hi.Ends (borrow x) := by
  have hle : ∀ {x y : T}, x ∈ s.elements → s.elements.getLast? = some y →
      borrow x ≤ borrow y := by
    intro x y hx hy
    obtain ⟨l, hl⟩ := List.getLast?_eq_some_iff.mp hy
    have hasc := hs.elements_ascending
    rw [hl] at hx hasc
    rcases List.mem_append.mp hx with hx | hx
    · exact hborrow _ _ ((ascending_append.mp hasc).2.2 x hx y (by simp)).le
    · rw [List.mem_singleton.mp hx]
  constructor
  · rintro ⟨y, hy, rfl, rfl⟩
    exact ⟨fun x hx => not_lt.mpr (hle hx hy), y, List.mem_of_getLast? hy, lt_irrefl _⟩
  · rintro ⟨hnone, x, hx, hend⟩
    rcases hbounds.proper with hproper | ⟨q, rfl, rfl⟩
    · exact absurd (hproper.ends (hnone x hx)) hend
    · have hy := List.getLast?_eq_some_getLast (List.ne_nil_of_mem hx)
      have hq : q = borrow (s.elements.getLast (List.ne_nil_of_mem hx)) :=
        le_antisymm ((not_lt.mp hend).trans (hle hx hy))
          (not_lt.mp (hnone _ (List.mem_of_getLast? hy)))
      exact ⟨_, hy, congrArg Bound.excluded hq, congrArg Bound.excluded hq⟩

end BTreeSet

/-- A range and an iterator over everything are made, and yield each its elements. -/
def Iterates {σ α : Type} (pull : σ → End → Option (σ × Option α)) (range : Option σ) (iter : σ)
    (inRange all : List α) : Prop :=
  (∃ it, range = some it ∧ Yields pull it inRange) ∧ Yields pull iter all

/-- What is made of the elements does not matter. -/
theorem BTreeSet.iterates_mapped_iff [LawfulSkipMap M T K] {s : BTreeSet M T} {borrow : T → Q}
    {lo hi : Bound Q} {β : Type} (f : T → β) (hs : s.AtRest) (hborrow : Coarsens borrow)
    (hbounds : NotAfter lo hi) :
    Iterates (mapped f s.pull) (s.range borrow lo hi) s.iter
        ((s.elements.filter fun x => InRange lo hi (borrow x)).map f) (s.elements.map f) ↔
      ¬ s.ExcludesLast borrow lo hi := by
  rw [excludesLast_iff hs hborrow hbounds]
  constructor
  · rintro ⟨⟨it, hrange, hyields⟩, -⟩ ⟨hnone, hbehind⟩
    have hnil : (s.elements.filter fun x => InRange lo hi (borrow x)) = [] := by
      rw [List.filter_eq_nil_iff]
      intro x hx
      simpa using fun hin : InRange lo hi (borrow x) => hnone x hx hin.1
    rw [hnil, List.map_nil] at hyields
    obtain ⟨it', hrange', hnot⟩ := range_gives_below hs hborrow hnone hbehind
    obtain rfl := Option.some.inj (hrange.symm.trans hrange')
    exact hnot hyields.of_mapped_nil
  · intro h
    have hsome : (∃ x ∈ s.elements, lo.Starts (borrow x)) ∨
        ∀ x ∈ s.elements, hi.Ends (borrow x) := by
      by_contra hneither
      simp only [not_or, not_exists, not_and, not_forall] at hneither
      obtain ⟨hnone, x, hx, hend⟩ := hneither
      exact h ⟨hnone, x, hx, hend⟩
    obtain ⟨it, hrange, hgives⟩ := range_gives hs hborrow hsome
    exact ⟨⟨it, hrange, (hgives.yields hs).mapped f⟩, (iter_gives.yields hs).mapped f⟩

omit [LinearOrder Q] in
/-- **Iteration from both ends**, of a set, a map and a multimap at rest whose nodes have at most
`2³¹` elements, for any borrowed form whose order is coarser and any bounds that are not inverted:
the ranks are those of the model, and `range` yields what lies in the range and `iter` everything,
exactly once, unless both bounds exclude the last element. -/
theorem iterates_iff {A B V P L N W : Type} [Keyed Q K] [LinearOrder L] [Keyed P L]
    [LinearOrder N] [LawfulSkipMap M T K] [LawfulSkipMap A (Pair Q V) K] [LawfulSkipMap B P L]
    [MultiPairLike P N W] {R : Type} [LinearOrder R] :
    (∀ (s : BTreeSet M T) (borrow : T → R) (lo hi : Bound R), s.AtRest → s.NodesFit →
      Coarsens borrow → NotAfter lo hi →
      s.RanksExact key ∧ s.RanksExact borrow ∧
      (Iterates s.pull (s.range borrow lo hi) s.iter
          (s.elements.filter fun x => InRange lo hi (borrow x)) s.elements ↔
        ¬ s.ExcludesLast borrow lo hi)) ∧
    (∀ (m : BTreeMap A Q V) (borrow : Pair Q V → R) (lo hi : Bound R), m.set.AtRest →
      m.set.NodesFit → Coarsens borrow → NotAfter lo hi →
      m.set.RanksExact key ∧ m.set.RanksExact borrow ∧
      (Iterates m.pull (m.range borrow lo hi) m.iter
          ((m.set.elements.filter fun x => InRange lo hi (borrow x)).map fun x => (x.key, x.value))
          (m.set.elements.map fun x => (x.key, x.value)) ↔
        ¬ m.set.ExcludesLast borrow lo hi)) ∧
    ∀ (m : BTreeMultiMap B P) (lo hi : Bound N), m.set.AtRest → m.set.NodesFit →
      Coarsens (MultiPairLike.key : P → N) → NotAfter lo hi →
      m.set.RanksExact key ∧ m.set.RanksExact (MultiPairLike.key : P → N) ∧
      (Iterates m.pull (m.range lo hi) m.iter
          ((m.set.elements.filter fun x => InRange lo hi (MultiPairLike.key x)).map fun x =>
            (MultiPairLike.key x, MultiPairLike.value x))
          (m.set.elements.map fun x => (MultiPairLike.key x, MultiPairLike.value x)) ↔
        ¬ m.set.ExcludesLast MultiPairLike.key lo hi) := by
  refine ⟨fun s borrow lo hi hs hlen hborrow hbounds => ?_,
    fun m borrow lo hi hs hlen hborrow hbounds => ?_, fun m lo hi hs hlen hborrow hbounds => ?_⟩
  · have h := BTreeSet.iterates_mapped_iff id hs hborrow hbounds
    rw [mapped_id, List.map_id, List.map_id] at h
    exact ⟨hlen.ranksExact _, hlen.ranksExact _, h⟩
  · exact ⟨hlen.ranksExact _, hlen.ranksExact _,
      BTreeSet.iterates_mapped_iff _ hs hborrow hbounds⟩
  · exact ⟨hlen.ranksExact _, hlen.ranksExact _,
      BTreeSet.iterates_mapped_iff _ hs hborrow hbounds⟩

/-- The elements 2 and 4 of a set with two nodes. -/
theorem iterates_twoNodes :
    Iterates BTreeSet.twoNodes.pull (BTreeSet.twoNodes.range key (.included 2) (.excluded 5))
      BTreeSet.twoNodes.iter [2, 4] [1, 2, 4, 5] :=
  ((iterates_iff (Q := ℕ) (A := SortedIndex (Pair ℕ ℕ)) (V := ℕ)
    (B := SortedIndex (OrdMultiPair ℕ ℕ))).1 BTreeSet.twoNodes key (.included 2) (.excluded 5)
    BTreeSet.twoNodes_atRest (by decide) coarsens_key (show 2 ≤ 5 by decide)).2.2.mpr (by
      rintro ⟨x, -, hlo, -⟩
      cases hlo)

/-- **Both bounds exclude the last element**: the first call of `next` gives the first one. -/
theorem excluded_last_yields_first :
    BTreeSet.twoNodes.AtRest ∧ Coarsens (key : ℕ → ℕ) ∧
      NotAfter (.excluded 5 : Bound ℕ) (.excluded 5) ∧
      (∃ it it', BTreeSet.twoNodes.range key (.excluded 5) (.excluded 5) = some it ∧
        BTreeSet.twoNodes.pull it .front = some (it', some 1)) ∧
      ¬ Iterates BTreeSet.twoNodes.pull (BTreeSet.twoNodes.range key (.excluded 5) (.excluded 5))
        BTreeSet.twoNodes.iter
        (BTreeSet.twoNodes.elements.filter fun x => InRange (.excluded 5) (.excluded 5) (key x))
        BTreeSet.twoNodes.elements := by
  have hrange : BTreeSet.twoNodes.range key (.excluded 5) (.excluded 5) =
      some ⟨⟨none, none, none⟩, ⟨some 1, none, some 5⟩, false⟩ := by decide
  have hpull : BTreeSet.twoNodes.pull ⟨⟨none, none, none⟩, ⟨some 1, none, some 5⟩, false⟩ .front =
      some (⟨⟨some 0, some [2], some 1⟩, ⟨some 1, none, some 5⟩, false⟩, some 1) := by decide
  refine ⟨BTreeSet.twoNodes_atRest, coarsens_key, le_refl 5, ⟨_, _, hrange, hpull⟩, ?_⟩
  rintro ⟨⟨it, hit, hyields⟩, -⟩
  obtain rfl := Option.some.inj (hrange.symm.trans hit)
  obtain ⟨it', hpull', -⟩ := hyields.item .front
  have hnone : BTreeSet.twoNodes.elements.filter
      (fun x => InRange (.excluded 5) (.excluded 5) (key x)) = [] := by decide
  rw [hnone, item_nil] at hpull'
  exact absurd (congrArg (Option.map Prod.snd) (hpull.symm.trans hpull')) (by simp)

end IndexSet.Concurrent
