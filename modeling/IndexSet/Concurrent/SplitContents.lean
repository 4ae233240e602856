import IndexSet.Concurrent.Commits
import IndexSet.Concurrent.Cuts

/-!
# What a Split Keeps

Between the decision to split a node and the commit other threads may have changed the node:
it may be shorter, or empty, and its maximum may have passed the key it is registered under.

- §1 the index when such a split is committed;
- §2 a node that still holds something: the halves take its place, and together with the
  value they hold what it held;
- §3 an empty node: without `cdc` the entry goes, and nothing takes its place.
-/

namespace IndexSet.Concurrent

open KeyedList

variable {M T K : Type} [LinearOrder K] [Keyed T K] [LawfulSkipMap M T K]

namespace BTreeSet

/-! ## §1 Before the commit -/

/-- The index names distinct nodes of the heap, and these are ascending, one after another. -/
structure Indexed (s : BTreeSet M T) : Prop where
  distinct : (s.entries.map Prod.snd).Nodup
  allocated : ∀ e ∈ s.entries, e.2 < s.nextNode
  ascending : Ascending key s.elements

/-- The index when a split of the node of `e` is committed: the other nodes are registered
under their maxima, and the value lies strictly between what they hold on either side. -/
structure SplitPending (s : BTreeSet M T) (a : List (T × NodeId)) (e : T × NodeId)
    (b : List (T × NodeId)) (v : T) : Prop where
  indexed : s.Indexed
  cut : s.entries = a ++ e :: b
  exact : ∀ p ∈ a ++ b, s.Exact p
  below : Below key (contents (a.map s.cell)) (key v)
  above : Above key (key v) (contents (b.map s.cell))

/-- What a split should do when its commit answers `Ok`: every entry is that of a non-empty
node under its maximum, and the value is stored over the equal element, which it returns. -/
def SplitPreserves (s : BTreeSet M T) (n : NodeId) (oldMax v : T) : Prop :=
  ∀ s' old cdc, s.commit (.split n oldMax v) = some (s', .ok (old, cdc)) →
    s'.Indexed ∧ (∀ p ∈ s'.entries, s'.Exact p) ∧
      s'.elements = put key v s.elements ∧ old = find key (key v) s.elements

section Pending

variable {s : BTreeSet M T} {a b : List (T × NodeId)} {e : T × NodeId} {oldMax v m : T}

/-- Coherence and contents are about the entries and the heap only. -/
theorem Coherent.of_same {s s' : BTreeSet M T} (hs : s.Coherent) (hentries : s'.entries = s.entries)
    (hnodes : s'.nodes = s.nodes) (hnext : s'.nextNode = s.nextNode) :
    s'.Coherent ∧ s'.elements = s.elements := by
  have hview : s'.view = s.view := by
    rw [view, hentries]
    exact map_cell_congr fun p _ => by rw [hnodes]
  refine ⟨⟨?_, ?_, ?_⟩, by rw [elements, hview, elements]⟩
  · rw [hentries]
    exact hs.distinct
  · rw [hentries, hnext]
    exact hs.allocated
  · rw [hview]
    exact hs.partitioned

theorem SplitPending.erase_entry (h : s.SplitPending a e b v) (hkey : key e.1 = key oldMax) :
    erase entryKey (key oldMax) s.entries = a ++ b := by
  have hasc := s.entries_ascending
  rw [h.cut] at hasc ⊢
  obtain ⟨_, _, ha, hb⟩ := ascending_append_cons.mp hasc
  exact erase_hit hkey (hkey ▸ ha) (hkey ▸ hb)

/-- What the neighbours hold and what the node holds, in order. -/
theorem SplitPending.contents_cut (h : s.SplitPending a e b v) :
    s.elements = contents (a.map s.cell) ++ s.nodes e.2 ++ contents (b.map s.cell) := by
  rw [elements, view_cut h.cut, contents_append, contents_cons, ← List.append_assoc]
  rfl

/-- The value is looked for in the node alone. -/
theorem SplitPending.find_elements (h : s.SplitPending a e b v) :
    find key (key v) s.elements = find key (key v) (s.nodes e.2) := by
  rw [h.contents_cut, find_context h.below.ne h.above.ne]

/-! ## §2 A node that holds something -/

/-- The index with the node under its true maximum is coherent. -/
theorem SplitPending.rekey (h : s.SplitPending a e b v) (hkey : key e.1 = key oldMax)
    (hm : maxKey key (s.nodes e.2) = some (key m)) :
    (s.rekeyState e.2 oldMax m).Coherent ∧
      (s.rekeyState e.2 oldMax m).entries = a ++ (m, e.2) :: b ∧
      (s.rekeyState e.2 oldMax m).elements = s.elements ∧
      Admissible key (a.map s.cell) (b.map s.cell) (key v) := by
  have hasc := h.indexed.ascending
  rw [h.contents_cut] at hasc
  obtain ⟨hleft, hascb, hacross⟩ := ascending_append.mp hasc
  obtain ⟨hasca, hnode, hbefore⟩ := ascending_append.mp hleft
  obtain ⟨-, x, hx, hxm⟩ := hnode.le_maxKey hm
  have hexact : ∀ c ∈ a.map s.cell ++ b.map s.cell, maxKey key c.items = some (key c.bound) := by
    intro c hc
    rw [← List.map_append] at hc
    obtain ⟨p, hp, rfl⟩ := List.mem_map.mp hc
    exact h.exact p hp
  have hother : Partitioned key (a.map s.cell ++ b.map s.cell) := by
    apply partitioned_of_exact hexact
    rw [contents_append]
    refine ascending_append.mpr ⟨hasca, hascb, fun y hy => ?_⟩
    exact hacross y (by simp [hy])
  -- the maximum lies between the neighbours
  have hadm : Admissible key (a.map s.cell) (b.map s.cell) (key m) := by
    apply admissible_of_exact hother hexact
    · exact fun y hy => hxm ▸ hbefore y hy x hx
    · exact hxm ▸ hacross x (by simp [hx])
  obtain ⟨ha, hb⟩ := Admissible.entries hadm
  have hentries : (s.rekeyState e.2 oldMax m).entries = a ++ (m, e.2) :: b := by
    rw [entries, rekeyState, LawfulSkipMap.iter_insert, LawfulSkipMap.iter_remove, ← entries,
      h.erase_entry hkey]
    exact put_gap ha hb
  have hview : (s.rekeyState e.2 oldMax m).view =
      a.map s.cell ++ { s.cell e with bound := m } :: b.map s.cell := by
    rw [view_cut hentries]
    rfl
  have helems : (s.rekeyState e.2 oldMax m).elements = s.elements := by
    rw [elements, hview, elements, view_cut h.cut]
    simp
  refine ⟨⟨?_, ?_, ?_⟩, hentries, helems, admissible_of_exact hother hexact h.below h.above⟩
  · have hdistinct := h.indexed.distinct
    rw [h.cut] at hdistinct
    simpa [hentries] using hdistinct
  · intro p hp
    rw [hentries] at hp
    have hallocated : ∀ p ∈ a ++ e :: b, p.2 < s.nextNode := fun p hp =>
      h.indexed.allocated p (h.cut ▸ hp)
    rcases List.mem_append.mp hp with hp | hp
    · exact hallocated p (by simp [hp])
    · rcases List.mem_cons.mp hp with rfl | hp
      · exact hallocated e (by simp)
      · exact hallocated p (by simp [hp])
  · apply partitioned_of_exact
    · intro c hc
      rw [hview] at hc
      rcases List.mem_append.mp hc with hc | hc
      · exact hexact c (by simp [hc])
      · rcases List.mem_cons.mp hc with rfl | hc
        · exact hm
        · exact hexact c (by simp [hc])
    · rw [← elements, helems]
      exact h.indexed.ascending

/-- **A split of a node that holds something** stores the value and leaves every node under
its maximum. -/
theorem SplitPending.commitSplit (h : s.SplitPending a e b v) (hkey : key e.1 = key oldMax)
    (hne : s.nodes e.2 ≠ []) :
    (s.commitSplit e.2 oldMax v).1.Indexed ∧
      (∀ p ∈ (s.commitSplit e.2 oldMax v).1.entries, (s.commitSplit e.2 oldMax v).1.Exact p) ∧
      (s.commitSplit e.2 oldMax v).1.elements = put key v s.elements ∧
      (s.commitSplit e.2 oldMax v).2.1 = find key (key v) s.elements := by
  have hasc : Ascending key (s.nodes e.2) := by
    have hasc := h.indexed.ascending
    rw [h.contents_cut] at hasc
    exact (ascending_append.mp (ascending_append.mp hasc).1).2.1
  obtain ⟨m, hm⟩ : ∃ m, maxKey key (s.nodes e.2) = some (key m) := by
    obtain ⟨l, m, hl⟩ := (List.eq_nil_or_concat' (s.nodes e.2)).resolve_left hne
    exact ⟨m, by rw [hl, maxKey_concat]⟩
  obtain ⟨hcoh, hcut, helems, hadm⟩ := h.rekey hkey hm
  obtain ⟨lowerMax, lower, upperMax, upper, hstate, hold, hput, hlower, hupper, -⟩ :=
    commitSplit_spec s e.2 oldMax v hasc hne
  -- the same halves, from the index with the true maximum
  obtain ⟨hcoh', helems', hentries'⟩ :=
    hcoh.split (v := v) hcut rfl rfl hasc hadm hput hlower hupper
  have hentries : (s.splitState e.2 oldMax lowerMax lower upperMax upper).entries =
      ((s.rekeyState e.2 oldMax m).splitState e.2 m lowerMax lower upperMax upper).entries := by
    have herase : erase entryKey (key m) (s.rekeyState e.2 oldMax m).entries = a ++ b := by
      have hascending := (s.rekeyState e.2 oldMax m).entries_ascending
      rw [hcut] at hascending ⊢
      obtain ⟨_, _, ha, hb⟩ := ascending_append_cons.mp hascending
      exact erase_hit rfl ha hb
    have herase' := h.erase_entry hkey
    rw [entries] at herase herase'
    cases lowerMax with
    | none =>
      simp only [entries, splitState, LawfulSkipMap.iter_insert, LawfulSkipMap.iter_remove]
      rw [herase', herase]
      rfl
    | some lo =>
      simp only [entries, splitState, LawfulSkipMap.iter_insert, LawfulSkipMap.iter_remove]
      rw [herase', herase]
      rfl
  have hnodes : (s.splitState e.2 oldMax lowerMax lower upperMax upper).nodes =
      ((s.rekeyState e.2 oldMax m).splitState e.2 m lowerMax lower upperMax upper).nodes := rfl
  obtain ⟨hcoh₂, helems₂⟩ := hcoh'.of_same hentries hnodes rfl
  rw [hstate, hold, h.find_elements]
  refine ⟨⟨hcoh₂.distinct, hcoh₂.allocated, hcoh₂.elements_ascending⟩, fun p hp => ?_,
    helems₂.trans (helems'.trans (by rw [helems])), rfl⟩
  rw [hentries] at hp
  rw [Exact, hnodes]
  rcases hcoh.split_entries hcut hentries' hlower hupper p hp with hexact | ⟨hmem, hnode⟩
  · exact hexact
  · rw [hnode]
    exact h.exact p hmem

/-! ## §3 An empty node -/

/-- The split of an empty node: only the entry goes. -/
theorem commitSplit_of_nil (hnil : s.nodes e.2 = []) :
    s.commitSplit e.2 oldMax v = (s.dropState oldMax, none, []) := by
  have hnodes : Function.update s.nodes e.2 [] = s.nodes := by
    rw [← hnil, Function.update_eq_self]
  simp [BTreeSet.commitSplit, hnil, Node.halve, Node.max, setNode, dropState, hnodes]

/-- The value of such a split is stored nowhere. -/
theorem SplitPending.not_stored (h : s.SplitPending a e b v) (hkey : key e.1 = key oldMax) :
    v ∉ (s.dropState oldMax).elements := by
  have helems : (s.dropState oldMax).elements =
      contents (a.map s.cell) ++ contents (b.map s.cell) := by
    rw [elements, view, dropState_entries h.cut hkey, List.map_append, contents_append]
    rfl
  rw [helems, List.mem_append]
  rintro (hv | hv)
  · exact (h.below v hv).ne rfl
  · exact (h.above v hv).ne rfl

/-- **A split preserves contents**: when its commit succeeds, the nodes hold what they held
with the value stored, each under its maximum, if and only if the node was not empty or the
crate is built with `cdc`, where the commit of an empty node panics. -/
theorem SplitPending.preserves_iff (h : s.SplitPending a e b v) (hkey : key e.1 = key oldMax) :
    s.SplitPreserves e.2 oldMax v ↔ s.nodes e.2 ≠ [] ∨ s.cdc = true := by
  rcases s.commit_split_cases e.2 oldMax v with ⟨hnot, -⟩ | ⟨_, _, _, -, -, -, hcase⟩
  · exact absurd ⟨e, by simp [h.cut], rfl, hkey⟩ hnot
  rcases hcase with ⟨hcdc, -, hpanic⟩ | ⟨hcond, hcommit⟩
  · -- the commit panics
    refine iff_of_true (fun s' old cdc heval => ?_) (Or.inr hcdc)
    rw [hpanic] at heval
    cases heval
  by_cases hnil : s.nodes e.2 = []
  · have hcdc : ¬ s.cdc = true := fun hcdc => hcond ⟨hcdc, hnil⟩
    rw [commitSplit_of_nil hnil] at hcommit
    refine iff_of_false (fun hpreserves => ?_) (not_or.mpr ⟨not_not.mpr hnil, hcdc⟩)
    obtain ⟨-, -, helems, -⟩ := hpreserves _ _ _ hcommit
    exact h.not_stored hkey (helems ▸ mem_put.mpr (Or.inl rfl))
  · refine iff_of_true (fun s' old cdc heval => ?_) (Or.inl hnil)
    obtain ⟨rfl, hok⟩ := Prod.mk.inj (Option.some.inj (hcommit.symm.trans heval))
    obtain rfl : _ = old := congrArg Prod.fst (Except.ok.inj hok)
    exact h.commitSplit hkey hnil

end Pending

/-- The node under 5, which holds 4 and 5, and a 3 to be stored. -/
theorem SplitPending.preserves_iff_twoNodes : twoNodes.SplitPreserves 1 5 3 :=
  (SplitPending.preserves_iff (a := [(2, 0)]) (e := (5, 1)) (b := [])
    ⟨⟨by decide, by decide, by decide⟩, by decide, by decide, by decide, by decide⟩ rfl).mpr
      (Or.inl (by decide))

/-- A set with maximum node size 1 whose only node, registered under 5, has been emptied. -/
def emptiedNode : BTreeSet (SortedIndex ℕ) ℕ where
  index := ⟨[(5, 0)], by decide⟩
  elementSize := 8
  nodeCapacity := 1
  eventId := 0
  cdc := false
  poisoned := false
  nodes _ := []
  nextNode := 1

/-- The split of the emptied node for a 3 answers `Ok`, and the 3 is nowhere. -/
theorem commit_split_drops :
    emptiedNode.SplitPending [] (5, 0) [] 3 ∧
      ((emptiedNode.commit (.split 0 5 3)).map fun r => (r.1.elements, r.2.isOk)) =
        some ([], true) ∧ ¬ emptiedNode.SplitPreserves 0 5 3 := by
  have hrun : ((emptiedNode.commit (.split 0 5 3)).map fun r => (r.1.elements, r.2.isOk)) =
      some ([], true) := by decide +kernel
  refine ⟨⟨⟨by decide, by decide, by decide⟩, by decide, by decide, by decide, by decide⟩, hrun,
    fun hpreserves => ?_⟩
  have hcommit : ∃ s' old cdc, emptiedNode.commit (.split 0 5 3) = some (s', .ok (old, cdc)) :=
    ⟨_, _, _, rfl⟩
  obtain ⟨s', old, cdc, heval⟩ := hcommit
  obtain ⟨-, -, helems, -⟩ := hpreserves s' old cdc heval
  rw [heval, Option.map_some, Option.some.injEq, Prod.mk.injEq, helems] at hrun
  exact absurd hrun.1 (by decide)

end BTreeSet

end IndexSet.Concurrent
