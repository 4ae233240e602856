import IndexSet.Concurrent.Commits
import IndexSet.Concurrent.Cuts

/-!
# Removing a Range

`remove_range` of `concurrent/set.rs`, run by one thread alone: it holds the index lock
exclusively from the beginning to the end.

- §1 the code;
- §2 what one node's trimming and the loop over the nodes in between do to a set at rest, and
  the elements that the two branches leave.
-/

namespace IndexSet.Concurrent

open KeyedList

variable {M T K : Type} [LinearOrder K] [Keyed T K]

/-! ## §1 The code -/

/-- `Vec::drain` of a range of positions: what it leaves; `none` is its panic. -/
def Node.drain (l : List T) (start stop : ℕ) : Option (List T) :=
  if start ≤ stop ∧ stop ≤ l.length then some (l.take start ++ l.drop stop) else none

/-- `potential_front_position`. -/
def frontPosition (node : List T) (start : Bound K) : ℕ :=
  match Node.rank key node start true with
  | some position => position + 1
  | none => 0

/-- `potential_back_position`, in a node that is there. -/
def backPosition (node : List T) (stop : Bound K) : ℕ :=
  match Node.rank key node stop true with
  | some position => position
  | none => node.length

namespace BTreeSet

section Code

variable [SkipMap M T K]

/-- A trimmed node: its entry is removed, and unless the node is empty inserted again under the
new maximum. -/
def reindex (s : BTreeSet M T) (entry : T × NodeId) (node : List T) : BTreeSet M T :=
  let index := SkipMap.remove s.index (key entry.1)
  let s := s.setNode entry.2 node
  match node.getLast? with
  | some newMax => { s with index := SkipMap.insert index newMax entry.2 }
  | none => { s with index }

/-- `while let Some(next_entry) = front_entry.next()`: every node up to the back entry goes. -/
def removeBetween (front back : T × NodeId) : ℕ → M → Option M
  | 0, _ => none
  | fuel + 1, index =>
    match SkipMap.next index front with
    | some next =>
      if key next.1 = key back.1 then some index
      else removeBetween front back fuel (SkipMap.remove index (key next.1))
    | none => some index

/-- The branch without a back guard: both ends lie in the front node, or nothing is behind the
end bound. -/
def removeWithin (s : BTreeSet M T) (front : T × NodeId) (frontPosition backPosition : ℕ) :
    Option (BTreeSet M T) := do
  let node := s.nodes front.2
  let adjustedBackPosition :=
    if backPosition < frontPosition then node.length else backPosition
  let node ← Node.drain node frontPosition adjustedBackPosition
  return s.reindex front node

/-- The branch with a back guard. -/
def removeAcross (s : BTreeSet M T) (front back : T × NodeId)
    (frontPosition backPosition : ℕ) : Option (BTreeSet M T) := do
  let index ← removeBetween front back ((SkipMap.iter s.index).length + 1) s.index
  let frontNode ← Node.drain (s.nodes front.2) frontPosition (s.nodes front.2).length
  let s := { s with index }.reindex front frontNode
  let backNode ← Node.drain (s.nodes back.2) 0 backPosition
  return s.reindex back backNode

/-- `BTreeSet::remove_range`; `none` is a panic. -/
def removeRange (s : BTreeSet M T) (start stop : Bound K) : Option (BTreeSet M T) :=
  match SkipMap.lowerBoundOf key s.index start with
  | none => some s
  | some front =>
    let potentialFrontPosition := frontPosition (s.nodes front.2) start
    match SkipMap.lowerBoundOf key s.index stop with
    | some back =>
      let potentialBackPosition := backPosition (s.nodes back.2) stop
      if back.2 = front.2 then s.removeWithin front potentialFrontPosition potentialBackPosition
      else s.removeAcross front back potentialFrontPosition potentialBackPosition
    | none => s.removeWithin front potentialFrontPosition 0

end Code

/-! ## §2 Trimming one node, and removing nodes -/

section Effects

variable [LawfulSkipMap M T K] {s : BTreeSet M T} {a b : List (T × NodeId)} {e : T × NodeId}

/-- A set at rest stays so when entries are taken out. -/
theorem AtRest.restrict (hs : s.AtRest) {index : M}
    (hsub : (SkipMap.iter index).Sublist s.entries) : ({ s with index } : BTreeSet M T).AtRest := by
  refine ⟨⟨hs.coherent.distinct.sublist (hsub.map Prod.snd),
    fun e he => hs.coherent.allocated e (hsub.subset he), ⟨?_, fun c hc => ?_⟩⟩, hs.sorted,
    fun e he => hs.exact e (hsub.subset he)⟩
  · exact hs.coherent.partitioned.before.sublist (hsub.map s.cell)
  · exact hs.coherent.partitioned.ascending c ((hsub.map s.cell).subset hc)

/-- **Trimming** a node of a set at rest. -/
theorem reindex_spec (hs : s.AtRest) (hcut : s.entries = a ++ e :: b) {node : List T}
    (hsub : node.Sublist (s.nodes e.2)) :
    (s.reindex e node).AtRest ∧
      (s.reindex e node).entries = a ++ (node.getLast?.map fun m => (m, e.2)).toList ++ b ∧
      (s.reindex e node).nodes = Function.update s.nodes e.2 node := by
  have hwrote : s.Wrote e.2 node (s.setNode e.2 node) := ⟨rfl, rfl, rfl, rfl, rfl, rfl, rfl⟩
  have hasc : Ascending key node := (hs.sorted e.2).sublist hsub
  have hcoh := hwrote.coherent hs.coherent hcut ((hs.coherent.cut hcut).sublist hsub)
  have hsorted := hwrote.sorted hs.sorted hasc
  have hnode : (s.setNode e.2 node).nodes e.2 = node := Function.update_self ..
  have hexact : ∀ p ∈ a ++ b, (s.setNode e.2 node).Exact p := fun p hp => by
    have hother : (s.setNode e.2 node).nodes p.2 = s.nodes p.2 :=
      Function.update_of_ne (hs.coherent.ne_of_cut hcut p hp) _ _
    rw [Exact, hother]
    exact hs.exact p (mem_of_cut hcut hp)
  cases hlast : node.getLast? with
  | none =>
    obtain ⟨hrest, hentries, -⟩ := AtRest.of_drop hcoh hsorted hcut rfl hexact
    have heq : s.reindex e node = (s.setNode e.2 node).dropState e.1 := by
      simp only [reindex, hlast]
      rfl
    rw [heq]
    exact ⟨hrest, by simpa using hentries, rfl⟩
  | some m =>
    have hm : maxKey key ((s.setNode e.2 node).nodes e.2) = some (key m) := by
      rw [hnode, maxKey, hlast, Option.map_some]
    obtain ⟨hrest, hentries, -⟩ := AtRest.of_rekey hcoh hsorted hcut rfl hm hexact
    have heq : s.reindex e node = (s.setNode e.2 node).rekeyState e.2 e.1 m := by
      simp only [reindex, hlast]
      rfl
    rw [heq]
    exact ⟨hrest, by simpa using hentries, rfl⟩

/-- What the trimmed node and the others hold. -/
theorem reindex_itemsOf (hs : s.AtRest) (hcut : s.entries = a ++ e :: b) {node : List T}
    (hsub : node.Sublist (s.nodes e.2)) :
    (∀ l, (∀ p ∈ l, p ∈ a ++ b) → (s.reindex e node).itemsOf l = s.itemsOf l) ∧
      (s.reindex e node).itemsOf (node.getLast?.map fun m => (m, e.2)).toList = node := by
  obtain ⟨-, -, hnodes⟩ := reindex_spec hs hcut hsub
  constructor
  · intro l hl
    rw [itemsOf, hnodes]
    exact List.flatMap_congr fun p hp =>
      Function.update_of_ne (hs.coherent.ne_of_cut hcut p (hl p hp)) _ _
  · rw [itemsOf, hnodes]
    cases hlast : node.getLast? with
    | none => simpa using (List.getLast?_eq_none_iff.mp hlast).symm
    | some m => simp

/-- What is left when a node is trimmed. -/
theorem reindex_elements (hs : s.AtRest) (hcut : s.entries = a ++ e :: b) {node : List T}
    (hsub : node.Sublist (s.nodes e.2)) :
    (s.reindex e node).elements = s.itemsOf a ++ (node ++ s.itemsOf b) := by
  obtain ⟨-, hentries, -⟩ := reindex_spec hs hcut hsub
  obtain ⟨hother, hself⟩ := reindex_itemsOf hs hcut hsub
  rw [← itemsOf_entries, hentries, itemsOf_append, itemsOf_append, hself,
    hother a fun p hp => by simp [hp], hother b fun p hp => by simp [hp], List.append_assoc]

/-- **The loop between the two ends** takes out the entries up to the back entry, or up to the
end if that does not come. -/
theorem removeBetween_spec {front back : T × NodeId} {pre mid rest : List (T × NodeId)}
    {index : M} (fuel : ℕ) (hiter : SkipMap.iter index = pre ++ front :: (mid ++ rest))
    (hmid : ∀ p ∈ mid, key p.1 ≠ key back.1) (hrest : ∀ p ∈ rest.head?, key p.1 = key back.1)
    (hfuel : mid.length < fuel) :
    ∃ index', removeBetween front back fuel index = some index' ∧
      SkipMap.iter index' = pre ++ front :: rest := by
  induction fuel generalizing mid index with
  | zero => exact absurd hfuel (Nat.not_lt_zero _)
  | succ fuel ih =>
    have hnext := next_cut hiter
    cases mid with
    | nil =>
      refine ⟨index, ?_, hiter⟩
      rw [removeBetween, hnext]
      cases hhead : ([] ++ rest).head? with
      | none => rfl
      | some p => simp [hrest p hhead]
    | cons p mid =>
      have hne := hmid p (List.mem_cons_self ..)
      have hiter' : SkipMap.iter (SkipMap.remove index (key p.1)) =
          pre ++ front :: (mid ++ rest) := by
        have hcut : SkipMap.iter index = (pre ++ [front]) ++ p :: (mid ++ rest) := by
          simp [hiter]
        have hasc := LawfulSkipMap.iter_ascending index
        rw [hcut] at hasc
        obtain ⟨-, -, ha, hb⟩ := ascending_append_cons.mp hasc
        rw [LawfulSkipMap.iter_remove, hcut]
        exact (erase_hit rfl ha hb).trans (by simp)
      obtain ⟨index', hloop, hindex'⟩ := ih hiter'
        (fun q hq => hmid q (List.mem_cons_of_mem _ hq)) (Nat.lt_of_succ_lt_succ hfuel)
      refine ⟨index', ?_, hindex'⟩
      rw [removeBetween, hnext]
      simpa [hne] using hloop

/-- Draining a part of a list. -/
theorem drain_eq (a b c : List T) :
    Node.drain (a ++ (b ++ c)) a.length (a ++ b).length = some (a ++ c) := by
  have hle : a.length ≤ (a ++ b).length ∧ (a ++ b).length ≤ (a ++ (b ++ c)).length := by
    simp
  rw [Node.drain, if_pos hle, List.take_left, ← List.append_assoc, List.drop_left]

/-- **Without a back guard** the front node loses what is drained. -/
theorem removeWithin_spec (hs : s.AtRest) (hcut : s.entries = a ++ e :: b)
    (before drained behind : List T) (hnode : s.nodes e.2 = before ++ (drained ++ behind))
    {backPosition : ℕ} (hback : (if backPosition < before.length then (s.nodes e.2).length
      else backPosition) = (before ++ drained).length) :
    ∃ s', s.removeWithin e before.length backPosition = some s' ∧ s'.AtRest ∧
      s'.elements = (s.itemsOf a ++ before) ++ (behind ++ s.itemsOf b) := by
  have hsub : (before ++ behind).Sublist (s.nodes e.2) := by
    rw [hnode]
    exact (List.Sublist.refl before).append (List.sublist_append_right ..)
  refine ⟨s.reindex e (before ++ behind), ?_, (reindex_spec hs hcut hsub).1, ?_⟩
  · rw [hnode] at hback
    simp only [removeWithin, hnode, hback, drain_eq]
    rfl
  · rw [reindex_elements hs hcut hsub]
    simp only [List.append_assoc]

/-- Trimming the front node of a set at rest, and then another one. -/
theorem reindex_back (hs : s.AtRest) (hcut : s.entries = a ++ e :: b) {g : T × NodeId}
    (hg : g ∈ a ++ b) {front back : List T} (hfront : front.Sublist (s.nodes e.2))
    (hback : back.Sublist (s.nodes g.2)) {l r : List (T × NodeId)}
    (hcut' : (s.reindex e front).entries = l ++ g :: r) :
    (s.reindex e front).nodes g.2 = s.nodes g.2 ∧
      ((s.reindex e front).reindex g back).AtRest ∧
      ((s.reindex e front).reindex g back).elements =
        (s.reindex e front).itemsOf l ++ (back ++ (s.reindex e front).itemsOf r) := by
  obtain ⟨hrest, -, hnodes⟩ := reindex_spec hs hcut hfront
  have hnode : (s.reindex e front).nodes g.2 = s.nodes g.2 := by
    rw [hnodes]
    exact Function.update_of_ne (hs.coherent.ne_of_cut hcut g hg) _ _
  rw [← hnode] at hback
  exact ⟨hnode, (reindex_spec hrest hcut' hback).1, reindex_elements hrest hcut' hback⟩

/-- The branch with a back guard, after the loop: both ends are trimmed. -/
theorem removeAcross_eq {f g : T × NodeId} {a b c d : List T} (hf : s.nodes f.2 = a ++ b)
    (hg : s.nodes g.2 = c ++ d) {index : M}
    (hloop : removeBetween f g ((SkipMap.iter s.index).length + 1) s.index = some index)
    (hnode : (({ s with index } : BTreeSet M T).reindex f a).nodes g.2 = s.nodes g.2) :
    s.removeAcross f g a.length c.length =
      some ((({ s with index } : BTreeSet M T).reindex f a).reindex g d) := by
  have hfront : Node.drain (a ++ b) a.length (a ++ b).length = some a := by
    simpa using drain_eq a b []
  have hback : Node.drain (c ++ d) 0 c.length = some d := drain_eq [] c d
  simp only [removeAcross, hloop, hf, hfront, Option.bind_eq_bind, Option.bind_some, hnode, hg,
    hback]
  rfl

/-- **With a back guard behind the front**: everything from the front position to the back one
goes. -/
theorem removeAcross_forward (hs : s.AtRest) {pre mid post : List (T × NodeId)}
    {f g : T × NodeId} (hcut : s.entries = pre ++ f :: (mid ++ g :: post))
    {a b c d : List T} (hf : s.nodes f.2 = a ++ b) (hg : s.nodes g.2 = c ++ d) :
    ∃ s', s.removeAcross f g a.length c.length = some s' ∧ s'.AtRest ∧
      s'.elements = (s.itemsOf pre ++ a) ++ (d ++ s.itemsOf post) := by
  have hne : ∀ p ∈ mid, key p.1 ≠ key g.1 := by
    intro p hp
    have hasc := s.entries_ascending
    rw [hcut] at hasc
    have hmid := (ascending_append_cons.mp hasc).2.1
    exact ((ascending_append.mp hmid).2.2 p hp g (List.mem_cons_self ..)).ne
  have hfuel : mid.length < s.entries.length + 1 := by
    simp only [hcut, List.length_append, List.length_cons]
    omega
  obtain ⟨index, hloop, hiter⟩ := removeBetween_spec _ hcut hne (by simp) hfuel
  have hrest : ({ s with index } : BTreeSet M T).AtRest := by
    refine hs.restrict ?_
    rw [hiter, hcut]
    exact (List.Sublist.refl pre).append ((List.sublist_append_right mid _).cons_cons f)
  have hsub : a.Sublist (s.nodes f.2) := hf ▸ List.sublist_append_left a b
  have hcut₁ : ({ s with index } : BTreeSet M T).entries = pre ++ f :: (g :: post) := hiter
  obtain ⟨-, hentries, -⟩ := reindex_spec hrest hcut₁ hsub
  obtain ⟨hother, hself⟩ := reindex_itemsOf hrest hcut₁ hsub
  obtain ⟨hnode, hrest', helements⟩ := reindex_back hrest hcut₁ (g := g) (by simp) hsub
    (hg ▸ List.sublist_append_right c d) hentries
  refine ⟨_, removeAcross_eq hf hg hloop hnode, hrest', ?_⟩
  rw [helements, itemsOf_append, hself, hother pre fun p hp => by simp [hp],
    hother post fun p hp => by simp [hp]]
  rfl

/-- **With a back guard before the front**: the back of the back node stays, what is between the
two, and the front of the front node. -/
theorem removeAcross_backward (hs : s.AtRest) {pre mid post : List (T × NodeId)}
    {f g : T × NodeId} (hcut : s.entries = pre ++ g :: (mid ++ f :: post))
    {a b c d : List T} (hf : s.nodes f.2 = a ++ b) (hg : s.nodes g.2 = c ++ d) :
    ∃ s', s.removeAcross f g a.length c.length = some s' ∧ s'.AtRest ∧
      s'.elements = s.itemsOf pre ++ (d ++ (s.itemsOf mid ++ a)) := by
  have hcut₀ : s.entries = (pre ++ g :: mid) ++ f :: (post ++ []) := by
    simp [hcut]
  have hne : ∀ p ∈ post, key p.1 ≠ key g.1 := by
    intro p hp
    have hasc := s.entries_ascending
    rw [hcut] at hasc
    exact ((ascending_append_cons.mp hasc).2.2.2 p (by simp [hp])).ne'
  have hfuel : post.length < s.entries.length + 1 := by
    simp only [hcut, List.length_append, List.length_cons]
    omega
  obtain ⟨index, hloop, hiter⟩ := removeBetween_spec _ hcut₀ hne (by simp) hfuel
  have hrest : ({ s with index } : BTreeSet M T).AtRest := by
    refine hs.restrict ?_
    rw [hiter, hcut₀]
    exact (List.Sublist.refl _).append ((List.nil_sublist _).cons_cons f)
  have hsub : a.Sublist (s.nodes f.2) := hf ▸ List.sublist_append_left a b
  have hcut₁ : ({ s with index } : BTreeSet M T).entries = (pre ++ g :: mid) ++ f :: [] := hiter
  obtain ⟨-, hentries, -⟩ := reindex_spec hrest hcut₁ hsub
  obtain ⟨hother, hself⟩ := reindex_itemsOf hrest hcut₁ hsub
  rw [List.append_nil, List.append_assoc, List.cons_append] at hentries
  obtain ⟨hnode, hrest', helements⟩ := reindex_back hrest hcut₁ (g := g) (by simp) hsub
    (hg ▸ List.sublist_append_right c d) hentries
  refine ⟨_, removeAcross_eq hf hg hloop hnode, hrest', ?_⟩
  rw [helements, itemsOf_append, hself, hother pre fun p hp => by simp [hp],
    hother mid fun p hp => by simp [hp]]
  rfl

end Effects

end BTreeSet

end IndexSet.Concurrent
