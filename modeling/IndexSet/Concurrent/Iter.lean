import IndexSet.Concurrent.Cuts
import IndexSet.Lib.DoubleEnded

/-!
# Iterating from Both Ends

`Iter::next` and `Iter::next_back` of `concurrent/set.rs`, run by one thread while nobody
changes the set.

The two are mirror images: `next_back` is `next` with the fields of the front and of the back
exchanged, the other end of the index and of a slice, and the comparisons the other way round.
So `BTreeSet.turn` is the body of the loop for an iterator whose front is the end that is asked,
and `Iter.swap` exchanges the fields before and after `next_back`.

- §1 the code;
- §2 what an end has passed;
- §3 one call: what an end that stands at a node gives;
- §4 all calls: `Iter.Good` is kept, and the answers are those of the elements that neither end
  has passed.
-/

namespace IndexSet.Concurrent

open KeyedList DoubleEnded

variable {M T K Q : Type} [LinearOrder K] [Keyed T K] [LinearOrder Q]

/-! ## §1 The code -/

/-- One end of an `Iter`: `current_front_node`, `current_front_node_iter` and
`current_front_value`, or those of the back.  The guard comes and goes with the slice. -/
structure Cursor (T : Type) where
  node : Option NodeId
  slice : Option (List T)
  value : Option T
  deriving DecidableEq

/-- `struct Iter`, without the set it belongs to. -/
structure Iter (T : Type) where
  front : Cursor T
  back : Cursor T
  met : Bool
  deriving DecidableEq

/-- What an iteration of the loop ends in: it goes round again, or the call returns. -/
abbrev IterNext (T : Type) := Iter T ⊕ Iter T × Option T

namespace Iter

def swap (it : Iter T) : Iter T := ⟨it.back, it.front, it.met⟩

/-- `value.ge(current_back_value)`, or `value.le(current_front_value)`. -/
def meets (e : End) (value : T) : Option T → Bool
  | some other =>
    match e with
    | .front => decide (key other ≤ key value)
    | .back => decide (key value ≤ key other)
  | none => false

/-- A value has come out of the slice: it is given unless the other end has been met. -/
def give (e : End) (value : T) (it : Iter T) : Iter T × Option T :=
  if meets e value it.back.value then ({ it with met := true }, none)
  else ({ it with front := { it.front with value := some value } }, some value)

end Iter

section Code

variable [SkipMap M T K]

/-- `index.front()`, or `index.back()`. -/
def indexEnd (index : M) : End → Option (T × NodeId)
  | .front => SkipMap.front index
  | .back => SkipMap.back index

/-- `entry.next()`, or `entry.prev()`. -/
def neighbour (index : M) : End → T × NodeId → Option (T × NodeId)
  | .front, entry => SkipMap.next index entry
  | .back, entry => SkipMap.prev index entry

namespace BTreeSet

variable (s : BTreeSet M T)

/-- The mutex of a node; a thread that holds it already waits for ever. -/
def lockNode (other : Cursor T) (n : NodeId) : Option (List T) :=
  if other.slice.isSome ∧ other.node = some n then none else some (s.nodes n)

/-- The current node is set: its guard is taken over from the other end if it stands there, and
the node locked at once if there is no other end. -/
def arrive (it : Iter T) (n : NodeId) : Option (Iter T) :=
  match it.back.node with
  | some m =>
    if n = m then
      some { it with
        front := { it.front with node := some n, slice := it.back.slice }
        back := { it.back with slice := none } }
    else some { it with front := { it.front with node := some n } }
  | none => do
    let slice ← s.lockNode it.back n
    return { it with front := { it.front with node := some n, slice := some slice } }

/-- The loop from the point on where there is a current node. -/
def serve (e : End) (it : Iter T) (n : NodeId) : Option (IterNext T) :=
  -- the guard of the other end is dropped
  let it := { it with back := { it.back with slice := none } }
  match it.front.slice with
  | some slice =>
    match facing e slice with
    | value :: left =>
      let it := { it with front := { it.front with slice := some (facing e left) } }
      some (.inr (it.give e value))
    | [] =>
      let it := { it with front := { it.front with slice := none } }
      match ((SkipMap.iter s.index).find? fun p => p.2 = n).bind (neighbour s.index e) with
      | some entry => (s.arrive it entry.2).map .inl
      | none => some (.inr ({ it with front := { it.front with node := none } }, none))
  | none => do
    let slice ← s.lockNode it.back n
    let it := { it with front := { it.front with slice := some slice } }
    match it.front.value with
    | some value =>
      match Node.rank key slice (.excluded (key value)) (e = .front) with
      | some rank =>
        -- `nth(rank + 1)` leaves what is behind the item it gives
        let left := facing e ((facing e slice).drop (rank + 2))
        let it := { it with front := { it.front with slice := some left } }
        match (facing e slice)[rank + 1]? with
        | some value => some (.inr (it.give e value))
        | none => some (.inl it)
      | none => some (.inl it)
    | none => some (.inl it)

/-- The body of the loop; `none`: it waits for ever. -/
def turn (e : End) (it : Iter T) : Option (IterNext T) :=
  if it.met then some (.inr (it, none))
  else match it.front.node with
    | some n => s.serve e it n
    | none =>
      match indexEnd s.index e with
      | none => some (.inr (it, none))
      | some entry => do
        let it' ← s.arrive it entry.2
        if it.back.node.isSome then some (.inl it') else s.serve e it' entry.2

/-- The loop, for at most so many times. -/
def loop (e : End) : ℕ → Iter T → Option (Iter T × Option T)
  | 0, _ => none
  | fuel + 1, it =>
    (s.turn e it).bind fun
      | .inl it => loop e fuel it
      | .inr answer => some answer

/-- `Iter::next` and `Iter::next_back`.  A node takes two times round, and the first may begin
with finding the end of the index. -/
def pull (it : Iter T) : End → Option (Iter T × Option T)
  | .front => s.loop .front (2 * (SkipMap.iter s.index).length + 2) it
  | .back =>
    (s.loop .back (2 * (SkipMap.iter s.index).length + 2) it.swap).map fun r => (r.1.swap, r.2)

/-- `Iter::new`. -/
def iter : Iter T where
  front := ⟨(SkipMap.front s.index).map Prod.snd, none, none⟩
  back := ⟨(SkipMap.back s.index).map Prod.snd, none, none⟩
  met := false

end BTreeSet

end Code

/-! ## §2 What an end has passed -/

/-- The value an end stands at is not behind `x`. -/
def Passes (e : End) : Option T → T → Prop
  | some v, x => ¬ Ahead e (key v) (key x)
  | none, _ => False

instance decidablePasses (e : End) : ∀ (value : Option T) (x : T), Decidable (Passes e value x)
  | some v, x => inferInstanceAs (Decidable (¬ Ahead e (key v) (key x)))
  | none, _ => inferInstanceAs (Decidable False)

section Passes

variable {e : End} {value other : Option T} {x y : T}

theorem meets_iff : Iter.meets e x other = true ↔ Passes e.opposite other x := by
  cases other with
  | none => simp [Iter.meets, Passes]
  | some v => cases e <;> simp [Iter.meets, Passes, Ahead, End.opposite]

theorem Passes.before (h : Passes e value y) (hxy : Ahead e (key x) (key y)) :
    Passes e value x := by
  cases value with
  | none => exact h
  | some v => exact fun hx => h (hx.trans hxy)

theorem Passes.behind (h : Passes e.opposite other x) (hxy : Ahead e (key x) (key y)) :
    Passes e.opposite other y :=
  h.before (ahead_opposite.mpr hxy)

/-- Once an end stands at the first element it has not passed, the others are left. -/
theorem filter_passes {l left : List T} (hl : l.Pairwise fun x y => Ahead e (key x) (key y))
    (hfirst : (l.filter fun x => ¬ Passes e value x) = x :: left) :
    (l.filter fun y => ¬ Passes e (some x) y) = left := by
  have hx : x ∈ l ∧ ¬ Passes e value x := by
    have hmem : x ∈ l.filter fun x => ¬ Passes e value x := hfirst ▸ List.mem_cons_self ..
    simpa using hmem
  have hsub : (l.filter fun y => ¬ Passes e (some x) y) =
      (l.filter fun x => ¬ Passes e value x).filter fun y => ¬ Passes e (some x) y := by
    rw [List.filter_filter]
    refine List.filter_congr fun y _ => ?_
    by_cases hy : Passes e (some x) y
    · simp [hy]
    · have hahead : ¬ Passes e value y := fun hpass => hx.2 (hpass.before (not_not.mp hy))
      simp [hy, hahead]
  have hpair : (x :: left).Pairwise fun x y => Ahead e (key x) (key y) :=
    hfirst ▸ hl.sublist List.filter_sublist
  rw [hsub, hfirst, List.filter_cons_of_neg (by simp [Passes, Ahead.irrefl]),
    List.filter_eq_self]
  intro y hy
  simpa [Passes] using (List.pairwise_cons.mp hpair).1 y hy

/-- What an end has passed comes first. -/
theorem filter_not_passes {l : List T} (hl : l.Pairwise fun x y => Ahead e (key x) (key y)) :
    (l.filter fun x => ¬ Passes e value x) =
      l.drop (l.takeWhile fun x => Passes e value x).length := by
  induction l with
  | nil => rfl
  | cons x l ih =>
    obtain ⟨hx, hl⟩ := List.pairwise_cons.mp hl
    by_cases hpass : Passes e value x
    · rw [List.filter_cons_of_neg (by simpa using hpass), ih hl,
        List.takeWhile_cons_of_pos (by simpa using hpass), List.length_cons, List.drop_succ_cons]
    · rw [List.takeWhile_cons_of_neg (by simpa using hpass), List.length_nil, List.drop_zero,
        List.filter_eq_self]
      intro y hy
      rcases List.mem_cons.mp hy with rfl | hy
      · simpa using hpass
      · simpa using fun h => hpass (Passes.before h (hx y hy))

/-- The rank of the value an end stands at. -/
theorem rank_excluded (e : End) (l : List T) (v : T) :
    Node.rank key l (.excluded (key v)) (e = .front) =
      if ((facing e l).takeWhile fun x => Passes e (some v) x).length = 0 then none
      else some (((facing e l).takeWhile fun x => Passes e (some v) x).length - 1) := by
  cases e with
  | front => exact rank_forward key l (.excluded (key v))
  | back => exact rank_backward key l (.excluded (key v))

end Passes

namespace BTreeSet

variable [LawfulSkipMap M T K] {s : BTreeSet M T} {e : End}

/-- What the nodes of some entries hold, seen from an end. -/
def facingItems (s : BTreeSet M T) (e : End) (l : List (T × NodeId)) : List T :=
  l.flatMap fun p => facing e (s.nodes p.2)

theorem facing_elements : facing e s.elements = s.facingItems e (facing e s.entries) := by
  rw [← itemsOf_entries]
  cases e with
  | front => rfl
  | back => exact List.reverse_flatMap

theorem AtRest.pairwise_ahead (hs : s.AtRest) :
    (facing e s.elements).Pairwise fun x y => Ahead e (key x) (key y) := by
  cases e with
  | front => exact hs.elements_ascending
  | back => exact List.pairwise_reverse.mpr hs.elements_ascending

theorem indexEnd_eq : indexEnd s.index e = (facing e s.entries).head? := by
  cases e with
  | front => exact LawfulSkipMap.front_eq _
  | back => rw [facing, List.head?_reverse]; exact LawfulSkipMap.back_eq _

theorem neighbour_cut {pre post : List (T × NodeId)} {p : T × NodeId}
    (hcut : facing e s.entries = pre ++ p :: post) : neighbour s.index e p = post.head? := by
  cases e with
  | front => exact next_cut hcut
  | back =>
    have hentries : s.entries = post.reverse ++ p :: pre.reverse := by
      simpa [facing] using congrArg List.reverse hcut
    rw [neighbour, prev_cut hentries, List.getLast?_reverse]

/-- A node is found in the index by its identity. -/
theorem AtRest.find_node (hs : s.AtRest) {p : T × NodeId} (hp : p ∈ s.entries) :
    (SkipMap.iter s.index).find? (fun q => q.2 = p.2) = some p := by
  obtain ⟨a, b, hcut⟩ := List.append_of_mem hp
  have hne := hs.coherent.ne_of_cut hcut
  have hnone : a.find? (fun q => decide (q.2 = p.2)) = none := by
    simpa [List.find?_eq_none] using fun q n hq => hne (q, n) (by simp [hq])
  have hiter : SkipMap.iter s.index = a ++ p :: b := hcut
  rw [hiter, List.find?_append, hnone, Option.none_or, List.find?_cons_of_pos (by simp)]

/-! ## §3 One call -/

/-- An end that stands at the node of `p` and has passed everything before it; its slice holds
what it has not passed of the node. -/
structure Stands (s : BTreeSet M T) (e : End) (c : Cursor T) (pre : List (T × NodeId))
    (p : T × NodeId) (post : List (T × NodeId)) : Prop where
  node : c.node = some p.2
  entries : facing e s.entries = pre ++ p :: post
  passed : ∀ x ∈ s.facingItems e pre, Passes e c.value x
  slice : ∀ l ∈ c.slice, facing e l = (facing e (s.nodes p.2)).filter fun x => ¬ Passes e c.value x

/-- What a call returns: nothing when the end has passed everything, nothing when the first
element it has not passed has been passed by the other end, and otherwise that element. -/
inductive Answered (s : BTreeSet M T) (e : End) (it : Iter T) : Iter T × Option T → Prop
  | exhausted (h : ∀ x ∈ s.elements, Passes e it.front.value x) :
      Answered s e it
        (⟨⟨none, none, it.front.value⟩, { it.back with slice := none }, false⟩, none)
  | met {it' : Iter T} {x : T} {l : List T}
      (hfirst : ((facing e s.elements).filter fun x => ¬ Passes e it.front.value x) = x :: l)
      (hother : Passes e.opposite it.back.value x) (hmet : it'.met = true) :
      Answered s e it (it', none)
  | gave {c : Cursor T} {x : T} {l : List T} {pre post : List (T × NodeId)} {p : T × NodeId}
      (hfirst : ((facing e s.elements).filter fun x => ¬ Passes e it.front.value x) = x :: l)
      (hother : ¬ Passes e.opposite it.back.value x) (hvalue : c.value = some x)
      (hstands : s.Stands e c pre p post)
      (hpost : ∀ y ∈ s.facingItems e post, ¬ Passes e (some x) y) :
      Answered s e it (⟨c, { it.back with slice := none }, false⟩, some x)

section OneCall

variable {it : Iter T} {pre post : List (T × NodeId)} {p : T × NodeId}

/-- The elements, seen from an end that stands at a node. -/
theorem Stands.elements {c : Cursor T} (h : s.Stands e c pre p post) :
    facing e s.elements =
      s.facingItems e pre ++ (facing e (s.nodes p.2) ++ s.facingItems e post) := by
  rw [facing_elements, h.entries, facingItems, List.flatMap_append, List.flatMap_cons]
  rfl

theorem Stands.mem {c : Cursor T} (h : s.Stands e c pre p post) : p ∈ s.entries := by
  have hmem : p ∈ facing e s.entries := by simp [h.entries]
  simpa using hmem

/-- What it has not passed. -/
theorem Stands.filter {c : Cursor T} (h : s.Stands e c pre p post) :
    ((facing e s.elements).filter fun x => ¬ Passes e c.value x) =
      ((facing e (s.nodes p.2)).filter fun x => ¬ Passes e c.value x) ++
        (s.facingItems e post).filter fun x => ¬ Passes e c.value x := by
  have hpre : ((s.facingItems e pre).filter fun x => ¬ Passes e c.value x) = [] := by
    simpa [List.filter_eq_nil_iff] using h.passed
  rw [h.elements, List.filter_append, List.filter_append, hpre, List.nil_append]

/-- Its node is passed as well: the end stands at the next one. -/
theorem Stands.next {c c' : Cursor T} {q : T × NodeId} (h : s.Stands e c pre p (q :: post))
    (hnode : ((facing e (s.nodes p.2)).filter fun x => ¬ Passes e c.value x) = [])
    (hnode' : c'.node = some q.2) (hvalue : c'.value = c.value)
    (hslice : ∀ l ∈ c'.slice,
      facing e l = (facing e (s.nodes q.2)).filter fun x => ¬ Passes e c.value x) :
    s.Stands e c' (pre ++ [p]) q post := by
  refine ⟨hnode', by simp [h.entries], ?_, hvalue ▸ hslice⟩
  intro x hx
  rw [hvalue]
  rw [facingItems, List.flatMap_append, List.flatMap_singleton] at hx
  rcases List.mem_append.mp hx with hx | hx
  · exact h.passed x hx
  · simpa using List.filter_eq_nil_iff.mp hnode x hx

/-- The first element not passed comes out of the slice. -/
theorem Stands.give (hs : s.AtRest) {x : T} {left : List T}
    (h : s.Stands e it.front pre p post) (hmet : it.met = false)
    (hnode : ((facing e (s.nodes p.2)).filter fun x => ¬ Passes e it.front.value x) = x :: left) :
    Answered s e it
      ((⟨{ it.front with slice := some (facing e left) }, { it.back with slice := none },
        it.met⟩ : Iter T).give e x) := by
  have hfirst := h.filter
  rw [hnode, List.cons_append] at hfirst
  by_cases hother : Passes e.opposite it.back.value x
  · rw [Iter.give, if_pos (meets_iff.mpr hother)]
    exact .met hfirst hother rfl
  · rw [Iter.give, if_neg (mt meets_iff.mp hother), hmet]
    have hpair := hs.pairwise_ahead (e := e)
    rw [h.elements] at hpair
    obtain ⟨-, hpair, hpre⟩ := List.pairwise_append.mp hpair
    obtain ⟨hpair, -, hpost⟩ := List.pairwise_append.mp hpair
    have hx : x ∈ facing e (s.nodes p.2) :=
      List.mem_of_mem_filter (hnode ▸ List.mem_cons_self ..)
    have hstands : s.Stands e ⟨it.front.node, some (facing e left), some x⟩ pre p post := ?_
    · refine .gave hfirst hother rfl hstands fun y hy => ?_
      exact not_not.mpr (hpost x hx y hy)
    refine ⟨h.node, h.entries, fun y hy => ?_, ?_⟩
    · exact fun hxy => Ahead.irrefl ((hpre y hy x (List.mem_append_left _ hx)).trans hxy)
    · rintro l ⟨⟩
      rw [facing_facing, filter_passes hpair hnode]

/-- A slice with something left. -/
theorem Stands.serve_value (hs : s.AtRest) {l left : List T} {x : T}
    (h : s.Stands e it.front pre p post) (hmet : it.met = false) (hslice : it.front.slice = some l)
    (hl : facing e l = x :: left) :
    ∃ r, s.serve e it p.2 = some (.inr r) ∧ Answered s e it r := by
  refine ⟨_, ?_, h.give hs hmet (by rw [← h.slice l hslice, hl])⟩
  simp only [serve, hslice, hl]

/-- An empty slice at the last node. -/
theorem Stands.serve_last (hs : s.AtRest) (h : s.Stands e it.front pre p [])
    (hmet : it.met = false) (hslice : it.front.slice = some []) :
    ∃ r, s.serve e it p.2 = some (.inr r) ∧ Answered s e it r := by
  have hnode := h.slice [] hslice
  have hall : ∀ x ∈ s.elements, Passes e it.front.value x := by
    intro x hx
    have hfilter := h.filter
    rw [← hnode, facing_nil, facingItems, List.flatMap_nil, List.filter_nil, List.nil_append,
      List.filter_eq_nil_iff] at hfilter
    simpa using hfilter x (mem_facing.mpr hx)
  refine ⟨_, ?_, .exhausted hall⟩
  simp only [serve, hslice, facing_nil, hs.find_node h.mem, Option.bind_some,
    neighbour_cut h.entries, List.head?_nil, hmet]

/-- An empty slice: the end goes on to the next node. -/
theorem Stands.serve_next (hs : s.AtRest) {q : T × NodeId}
    (h : s.Stands e it.front pre p (q :: post)) (hslice : it.front.slice = some [])
    (hpost : it.back.node = none → ∀ x ∈ s.facingItems e (q :: post),
      ¬ Passes e it.front.value x) :
    ∃ c, s.serve e it p.2 = some (.inl ⟨c, { it.back with slice := none }, it.met⟩) ∧
      c.value = it.front.value ∧ s.Stands e c (pre ++ [p]) q post := by
  have hnode := (h.slice [] hslice).symm.trans (facing_nil e)
  have hserve : s.serve e it p.2 = (s.arrive
      ⟨{ it.front with slice := none }, { it.back with slice := none }, it.met⟩ q.2).map .inl := by
    simp only [serve, hslice, facing_nil, hs.find_node h.mem, Option.bind_some,
      neighbour_cut h.entries, List.head?_cons]
  rw [hserve]
  cases hback : it.back.node with
  | some m =>
    refine ⟨⟨some q.2, none, it.front.value⟩, ?_, rfl, h.next hnode rfl rfl (by simp)⟩
    simp only [arrive, hback]
    split <;> rfl
  | none =>
    refine ⟨⟨some q.2, some (s.nodes q.2), it.front.value⟩, ?_, rfl, h.next hnode rfl rfl ?_⟩
    · simp [arrive, hback, lockNode]
    · -- nothing has been passed of a node that is locked without looking
      rintro l ⟨⟩
      refine (List.filter_eq_self.mpr fun x hx => ?_).symm
      have hx' : x ∈ s.facingItems e (q :: post) := by
        rw [facingItems, List.flatMap_cons]
        exact List.mem_append_left _ hx
      simpa using hpost hback x hx'

/-- Without a guard the node is locked, and what has been passed of it is skipped. -/
theorem Stands.serve_lock (hs : s.AtRest) (h : s.Stands e it.front pre p post)
    (hmet : it.met = false) (hslice : it.front.slice = none) :
    (∃ r, s.serve e it p.2 = some (.inr r) ∧ Answered s e it r) ∨
      ∃ l, s.serve e it p.2 = some (.inl ⟨{ it.front with slice := some l },
          { it.back with slice := none }, it.met⟩) ∧
        facing e l = (facing e (s.nodes p.2)).filter fun x => ¬ Passes e it.front.value x := by
  have hpair : (facing e (s.nodes p.2)).Pairwise fun x y => Ahead e (key x) (key y) := by
    have hpair := hs.pairwise_ahead (e := e)
    rw [h.elements] at hpair
    exact (List.pairwise_append.mp (List.pairwise_append.mp hpair).2.1).1
  have hfilter : ((facing e (s.nodes p.2)).filter fun x => ¬ Passes e it.front.value x) = _ :=
    filter_not_passes hpair
  have hlock : s.lockNode { it.back with slice := none } p.2 = some (s.nodes p.2) := by
    simp [lockNode]
  cases hvalue : it.front.value with
  | none =>
    refine Or.inr ⟨s.nodes p.2, ?_, ?_⟩
    · simp only [serve, hslice, hlock, hvalue, Option.bind_eq_bind, Option.bind_some]
    · exact (List.filter_eq_self.mpr fun x _ => by simp [Passes]).symm
  | some v =>
    rw [hvalue] at hfilter
    have hrank := rank_excluded e (s.nodes p.2) v
    cases hcount : ((facing e (s.nodes p.2)).takeWhile fun x => Passes e (some v) x).length with
    | zero =>
      rw [hcount, if_pos rfl] at hrank
      rw [hcount, List.drop_zero] at hfilter
      refine Or.inr ⟨s.nodes p.2, ?_, hfilter.symm⟩
      simp only [serve, hslice, hlock, hvalue, hrank, Option.bind_eq_bind, Option.bind_some]
    | succ n =>
      rw [hcount, if_neg (Nat.succ_ne_zero n), Nat.add_sub_cancel] at hrank
      rw [hcount] at hfilter
      cases hnth : (facing e (s.nodes p.2))[n + 1]? with
      | some x =>
        have hnode : ((facing e (s.nodes p.2)).filter fun x => ¬ Passes e it.front.value x) =
            x :: (facing e (s.nodes p.2)).drop (n + 2) := by
          rw [hvalue, hfilter]
          obtain ⟨hlt, rfl⟩ := List.getElem?_eq_some_iff.mp hnth
          exact List.drop_eq_getElem_cons hlt
        refine Or.inl ⟨_, ?_, h.give hs hmet hnode⟩
        simp only [serve, hslice, hlock, hvalue, hrank, hnth, Option.bind_eq_bind,
          Option.bind_some]
      | none =>
        have hle := List.getElem?_eq_none_iff.mp hnth
        refine Or.inr ⟨facing e ((facing e (s.nodes p.2)).drop (n + 2)), ?_, ?_⟩
        · simp only [serve, hslice, hlock, hvalue, hrank, hnth, Option.bind_eq_bind,
            Option.bind_some]
        · rw [facing_facing, hfilter, List.drop_eq_nil_of_le hle,
            List.drop_eq_nil_of_le (Nat.le_succ_of_le hle)]

/-- The call goes on for an end with the same value. -/
theorem Answered.congr {it' : Iter T} {r : Iter T × Option T} (h : Answered s e it' r)
    (hvalue : it'.front.value = it.front.value) (hnode : it'.back.node = it.back.node)
    (hother : it'.back.value = it.back.value) : Answered s e it r := by
  have hback : (⟨it'.back.node, none, it'.back.value⟩ : Cursor T) =
      ⟨it.back.node, none, it.back.value⟩ := by
    rw [hnode, hother]
  cases h with
  | exhausted hall =>
    rw [hvalue, hback]
    exact .exhausted (hvalue ▸ hall)
  | met hfirst hpass hmet => exact .met (hvalue ▸ hfirst) (hother ▸ hpass) hmet
  | gave hfirst hpass hgiven hstands hpost =>
    rw [hback]
    exact .gave (hvalue ▸ hfirst) (hother ▸ hpass) hgiven hstands hpost

theorem loop_inr {fuel : ℕ} {r : Iter T × Option T} (h : s.turn e it = some (.inr r)) :
    s.loop e (fuel + 1) it = some r := by
  rw [loop, h, Option.bind_some]

theorem loop_inl {fuel : ℕ} {it' : Iter T} (h : s.turn e it = some (.inl it')) :
    s.loop e (fuel + 1) it = s.loop e fuel it' := by
  rw [loop, h, Option.bind_some]

theorem Stands.turn_eq (h : s.Stands e it.front pre p post) (hmet : it.met = false) :
    s.turn e it = s.serve e it p.2 := by
  rw [turn, hmet, if_neg Bool.false_ne_true, h.node]

/-- **One call** of an end that stands at a node: it goes from node to node until it finds an
element that it has not passed. -/
theorem Stands.answered (hs : s.AtRest) (fuel : ℕ) (h : s.Stands e it.front pre p post)
    (hmet : it.met = false)
    (hpost : it.back.node = none → ∀ x ∈ s.facingItems e post, ¬ Passes e it.front.value x)
    (hfuel : 2 * post.length + (if it.front.slice.isSome then 1 else 2) ≤ fuel) :
    ∃ r, s.loop e fuel it = some r ∧ Answered s e it r := by
  induction fuel generalizing pre p post it with
  | zero => split at hfuel <;> omega
  | succ fuel ih =>
    have hturn := h.turn_eq hmet
    cases hslice : it.front.slice with
    | none =>
      rw [hslice] at hfuel
      -- locking the node may already give the answer
      rcases h.serve_lock hs hmet hslice with ⟨r, hserve, hr⟩ | ⟨l, hserve, hl⟩
      · exact ⟨r, loop_inr (hturn.trans hserve), hr⟩
      · have hstands : s.Stands e (⟨{ it.front with slice := some l },
            { it.back with slice := none }, it.met⟩ : Iter T).front pre p post :=
          ⟨h.node, h.entries, h.passed, by rintro _ ⟨⟩; exact hl⟩
        obtain ⟨r, hloop, hr⟩ := ih hstands hmet hpost (by simp at hfuel ⊢; omega)
        exact ⟨r, (loop_inl (hturn.trans hserve)).trans hloop, hr.congr rfl rfl rfl⟩
    | some l =>
      rw [hslice] at hfuel
      cases hl : facing e l with
      | cons x left =>
        obtain ⟨r, hserve, hr⟩ := h.serve_value hs hmet hslice hl
        exact ⟨r, loop_inr (hturn.trans hserve), hr⟩
      | nil =>
        obtain rfl := facing_eq_nil.mp hl
        -- the induction goes on at the next node, one turn shorter
        cases post with
        | nil =>
          obtain ⟨r, hserve, hr⟩ := h.serve_last hs hmet hslice
          exact ⟨r, loop_inr (hturn.trans hserve), hr⟩
        | cons q post =>
          obtain ⟨c, hserve, hvalue, hnext⟩ := h.serve_next hs hslice hpost
          have hstands : s.Stands e (⟨c, { it.back with slice := none }, it.met⟩ : Iter T).front
            (pre ++ [p]) q post := hnext
          have hahead : it.back.node = none →
              ∀ x ∈ s.facingItems e post, ¬ Passes e c.value x := by
            intro hback x hx
            rw [hvalue]
            refine hpost hback x ?_
            rw [facingItems, List.flatMap_cons]
            exact List.mem_append_right _ hx
          have hlength : 2 * post.length + (if c.slice.isSome then 1 else 2) ≤ fuel := by
            rw [Option.isSome_some, if_pos rfl, List.length_cons] at hfuel
            split <;> omega
          obtain ⟨r, hloop, hr⟩ := ih hstands hmet hahead hlength
          exact ⟨r, (loop_inl (hturn.trans hserve)).trans hloop, hr.congr hvalue rfl rfl⟩

/-- A call of an end that has passed everything and has no node.  It looks for the end of the
index again; without a node of the other end it takes the first slice unseen. -/
theorem loop_ended (hs : s.AtRest) (hmet : it.met = false) (hnode : it.front.node = none)
    (hslice : it.front.slice = none) (hall : ∀ x ∈ s.elements, Passes e it.front.value x)
    (hslice' : it.back.slice = none)
    (hback : it.back.node = none → ∀ x ∈ s.elements, Passes e.opposite it.back.value x) :
    ∃ it', s.loop e (2 * s.entries.length + 2) it = some (it', none) ∧
      (it'.met = true ∨ it' = it) := by
  obtain ⟨⟨node, slice, value⟩, ⟨other, slice', value'⟩, met⟩ := it
  simp only at hmet hnode hslice hall hslice' hback
  subst hmet hnode hslice hslice'
  have hend := indexEnd_eq (s := s) (e := e)
  cases hentries : facing e s.entries with
  | nil =>
    rw [hentries, List.head?_nil] at hend
    exact ⟨_, loop_inr (by simp [turn, hend]), Or.inr rfl⟩
  | cons p post =>
    rw [hentries, List.head?_cons] at hend
    have hp : p ∈ s.entries := mem_facing.mp (hentries ▸ List.mem_cons_self ..)
    cases other with
    | some n =>
      have hturn : s.turn e ⟨⟨none, none, value⟩, ⟨some n, none, value'⟩, false⟩ =
          some (.inl ⟨⟨some p.2, none, value⟩, ⟨some n, none, value'⟩, false⟩) := by
        simp [turn, hend, arrive]
      have hstands : s.Stands e (⟨⟨some p.2, none, value⟩, ⟨some n, none, value'⟩, false⟩ :
          Iter T).front [] p post := ⟨rfl, hentries, by simp [facingItems], by simp⟩
      have hlength : s.entries.length = post.length + 1 := by
        have h := congrArg List.length hentries
        cases e <;> simpa [facing] using h
      obtain ⟨r, hloop, hr⟩ := hstands.answered hs (2 * s.entries.length + 1) rfl
        (by simp) (by simp; omega)
      -- from the first node on everything has been passed
      have hnil : ((facing e s.elements).filter fun x => ¬ Passes e value x) = [] := by
        simpa [List.filter_eq_nil_iff] using hall
      cases hr with
      | exhausted => exact ⟨_, (loop_inl hturn).trans hloop, Or.inr rfl⟩
      | met hfirst hother hmet => exact ⟨_, (loop_inl hturn).trans hloop, Or.inl hmet⟩
      | gave hfirst => exact absurd (hnil.symm.trans hfirst) (by simp)
    | none =>
      have hne : facing e (s.nodes p.2) ≠ [] := mt facing_eq_nil.mp (hs.ne_nil hp)
      obtain ⟨x, left, hx⟩ := List.exists_cons_of_ne_nil hne
      have hmem : x ∈ s.elements := by
        rw [← itemsOf_entries]
        exact List.mem_flatMap.mpr ⟨p, hp, mem_facing.mp (hx ▸ List.mem_cons_self ..)⟩
      have hmeets : Iter.meets e x value' = true := meets_iff.mpr (hback rfl x hmem)
      refine ⟨⟨⟨some p.2, some (facing e left), value⟩, ⟨none, none, value'⟩, true⟩,
        loop_inr ?_, Or.inl rfl⟩
      simp [turn, hend, arrive, lockNode, serve, hx, Iter.give, hmeets]

end OneCall

/-! ## §4 All calls -/

/-- An end stands at a node, with everything behind that still before it, or has passed
everything and has no node. -/
def Placed (s : BTreeSet M T) (e : End) (c : Cursor T) : Prop :=
  (∃ pre p post, s.Stands e c pre p post ∧ ∀ x ∈ s.facingItems e post, ¬ Passes e c.value x) ∨
    c.node = none ∧ c.slice = none ∧ ∀ x ∈ s.elements, Passes e c.value x

/-- Both ends are placed, and an end without a node leaves the other one without a guard. -/
structure Good (s : BTreeSet M T) (e : End) (it : Iter T) : Prop where
  met : it.met = false
  front : s.Placed e it.front
  back : s.Placed e.opposite it.back
  front_alone : it.front.node = none → it.back.slice = none
  back_alone : it.back.node = none → it.front.slice = none

/-- What neither end has passed, seen from the end that is asked. -/
def ahead (s : BTreeSet M T) (e : End) (it : Iter T) : List T :=
  (facing e s.elements).filter fun x =>
    ¬ Passes e it.front.value x ∧ ¬ Passes e.opposite it.back.value x

theorem Good.swap {it : Iter T} (h : s.Good e it) : s.Good e.opposite it.swap :=
  ⟨h.met, h.back, (End.opposite_opposite e).symm ▸ h.front, h.back_alone, h.front_alone⟩

theorem ahead_swap (s : BTreeSet M T) (e : End) (it : Iter T) :
    s.ahead e.opposite it.swap = (s.ahead e it).reverse := by
  rw [ahead, ahead, facing_opposite, ← List.filter_reverse]
  refine List.filter_congr fun x _ => ?_
  simp only [Iter.swap, End.opposite_opposite]
  exact decide_eq_decide.mpr and_comm

/-- A cursor that gives up its guard keeps its place. -/
theorem Placed.release {c : Cursor T} (h : s.Placed e c) :
    s.Placed e { c with slice := none } := by
  rcases h with ⟨pre, p, post, hstands, hpost⟩ | ⟨hnode, -, hall⟩
  · exact Or.inl ⟨pre, p, post, ⟨hstands.node, hstands.entries, hstands.passed, by simp⟩, hpost⟩
  · exact Or.inr ⟨hnode, rfl, hall⟩

/-- What an answered call leaves. -/
theorem Answered.good {it : Iter T} {r : Iter T × Option T} (h : Answered s e it r)
    (hs : s.AtRest) (hback : s.Placed e.opposite it.back) :
    r.2 = (s.ahead e it).head? ∧
      (r.1.met = true ∧ s.ahead e it = [] ∨
        s.Good e r.1 ∧ s.ahead e r.1 = (s.ahead e it).tail) := by
  have hahead : s.ahead e it = ((facing e s.elements).filter fun x =>
      ¬ Passes e it.front.value x).filter fun x => ¬ Passes e.opposite it.back.value x := by
    rw [ahead, List.filter_filter]
    refine List.filter_congr fun x _ => ?_
    by_cases hx : Passes e it.front.value x <;> simp [hx]
  have hpair := hs.pairwise_ahead (e := e)
  cases h with
  | exhausted hall =>
    have hnil : ((facing e s.elements).filter fun x => ¬ Passes e it.front.value x) = [] := by
      simpa [List.filter_eq_nil_iff] using hall
    rw [hahead, hnil]
    refine ⟨rfl, Or.inr ⟨⟨rfl, Or.inr ⟨rfl, rfl, hall⟩, hback.release, fun _ => rfl,
      fun _ => rfl⟩, ?_⟩⟩
    rw [ahead, List.filter_nil, List.tail_nil, List.filter_eq_nil_iff]
    intro x hx
    simpa using fun h => absurd (hall x (mem_facing.mp hx)) h
  | met hfirst hother hmet =>
    rename_i x l
    -- the other end has passed `x`, and so everything behind it
    have hpair' := hfirst ▸ hpair.sublist List.filter_sublist
    have hnil : s.ahead e it = [] := by
      rw [hahead, hfirst, List.filter_eq_nil_iff]
      intro y hy
      rcases List.mem_cons.mp hy with rfl | hy
      · simpa using hother
      · simpa using hother.behind ((List.pairwise_cons.mp hpair').1 y hy)
    exact ⟨by rw [hnil, List.head?_nil], Or.inl ⟨hmet, hnil⟩⟩
  | gave hfirst hother hvalue hstands hpost =>
    rename_i c x l pre post p
    have hrest := filter_passes hpair hfirst
    rw [hahead, hfirst, List.filter_cons_of_pos (by simpa using hother)]
    refine ⟨rfl, Or.inr ⟨⟨rfl, Or.inl ⟨pre, p, post, hstands, hvalue ▸ hpost⟩, hback.release,
      fun _ => rfl, fun hnone => ?_⟩, ?_⟩⟩
    · -- an end without a node has passed everything
      have hx : x ∈ s.elements := by
        have hmem : x ∈ (facing e s.elements).filter fun x => ¬ Passes e it.front.value x :=
          hfirst ▸ List.mem_cons_self ..
        exact mem_facing.mp (List.mem_of_mem_filter hmem)
      rcases hback with ⟨_, _, _, hstands', -⟩ | ⟨-, -, hall⟩
      · exact absurd (hstands'.node.symm.trans hnone) (by simp)
      · exact absurd (hall x hx) hother
    · rw [List.tail_cons, ← hrest, List.filter_filter, ahead]
      refine List.filter_congr fun y _ => ?_
      simp only [hvalue]
      by_cases hy : Passes e (some x) y <;> simp [hy]

/-- **A call** of an end of an iterator in order. -/
theorem Good.answer {it : Iter T} (h : s.Good e it) (hs : s.AtRest) :
    ∃ it', s.loop e (2 * s.entries.length + 2) it = some (it', (s.ahead e it).head?) ∧
      (it'.met = true ∧ s.ahead e it = [] ∨
        s.Good e it' ∧ s.ahead e it' = (s.ahead e it).tail) := by
  rcases h.front with ⟨pre, p, post, hstands, hpost⟩ | ⟨hnode, hslice, hall⟩
  · have hlength : s.entries.length = pre.length + (post.length + 1) := by
      have hlen := congrArg List.length hstands.entries
      rw [List.length_append, List.length_cons] at hlen
      rw [← hlen]
      cases e <;> simp [facing]
    obtain ⟨⟨it', answer⟩, hloop, hr⟩ := hstands.answered hs (2 * s.entries.length + 2)
      h.met (fun _ => hpost) (by split <;> omega)
    obtain ⟨hanswer, hgood⟩ := hr.good hs h.back
    exact ⟨it', by rw [hloop]; exact congrArg (fun a => some (it', a)) hanswer, hgood⟩
  · have hnil : s.ahead e it = [] := by
      rw [ahead, List.filter_eq_nil_iff]
      intro x hx
      simpa using fun h => absurd (hall x (mem_facing.mp hx)) h
    obtain ⟨it', hloop, hit'⟩ := loop_ended hs h.met hnode hslice hall (h.front_alone hnode)
      fun hback => by
        rcases h.back with ⟨_, _, _, hstands, -⟩ | ⟨-, -, hall'⟩
        · exact absurd (hstands.node.symm.trans hback) (by simp)
        · exact hall'
    refine ⟨it', by rw [hloop, hnil, List.head?_nil], ?_⟩
    rcases hit' with hmet | rfl
    · exact Or.inl ⟨hmet, hnil⟩
    · exact Or.inr ⟨h, by rw [hnil, List.tail_nil]⟩

/-- What an iterator still has to give. -/
def Gives (s : BTreeSet M T) (it : Iter T) (l : List T) : Prop :=
  it.met = true ∧ l = [] ∨ s.Good .front it ∧ l = s.ahead .front it

/-- **`next` and `next_back`** give what the list of what is left has at their end. -/
theorem Gives.pull {it : Iter T} {l : List T} (h : s.Gives it l) (hs : s.AtRest) (e : End) :
    ∃ it', s.pull it e = some (it', item l e) ∧ s.Gives it' (rest l e) := by
  rcases h with ⟨hmet, rfl⟩ | ⟨hgood, rfl⟩
  · refine ⟨it, ?_, Or.inl ⟨hmet, rest_nil e⟩⟩
    have hloop : ∀ {e : End} {it : Iter T} {fuel : ℕ}, it.met = true →
        s.loop e (fuel + 1) it = some (it, none) := fun hmet => loop_inr (by rw [turn, if_pos hmet])
    cases e with
    | front => exact hloop hmet
    | back =>
      have hswap : it.swap.met = true := hmet
      exact congrArg (Option.map fun r => (r.1.swap, r.2)) (hloop hswap)
  · cases e with
    | front =>
      obtain ⟨it', hloop, hit'⟩ := hgood.answer hs
      refine ⟨it', hloop, ?_⟩
      rcases hit' with ⟨hmet, hnil⟩ | ⟨hgood', htail⟩
      · exact Or.inl ⟨hmet, by rw [rest, hnil, List.tail_nil]⟩
      · exact Or.inr ⟨hgood', htail.symm⟩
    | back =>
      obtain ⟨it', hloop, hit'⟩ := hgood.swap.answer hs
      -- a call at the back is one at the front of the swapped iterator
      have hswap := ahead_swap s .front it
      rw [hswap, List.head?_reverse] at hloop
      refine ⟨it'.swap, ?_, ?_⟩
      · exact congrArg (Option.map fun r => (r.1.swap, r.2)) hloop
      · rw [hswap, List.tail_reverse] at hit'
        rcases hit' with ⟨hmet, hnil⟩ | ⟨hgood', htail⟩
        · exact Or.inl ⟨hmet, by rw [rest, List.reverse_eq_nil_iff.mp hnil]; rfl⟩
        · refine Or.inr ⟨hgood'.swap, ?_⟩
          have hahead := ahead_swap s .back it'
          rw [End.opposite] at hahead
          rw [hahead]
          exact (List.reverse_eq_iff.mpr htail).symm

/-- **An iterator in order** yields what neither end has passed. -/
theorem Gives.yields {it : Iter T} {l : List T} (h : s.Gives it l) (hs : s.AtRest) :
    Yields s.pull it l :=
  yields_of (fun _ _ e h => h.pull hs e) h

end BTreeSet

end IndexSet.Concurrent
