import IndexSet.Concurrent.View

/-!
# What Each Critical Section Does to the Tree

One specification for each piece that runs between taking and releasing locks:

- §1, §2: the changes themselves, on coherent sets — writing one node, and moving,
  removing, adding or dividing one entry;
- §3: the edits `putEdit`, `putReplace`, `removeEdit`, as writes to one sorted node;
- §4, §5: the commits, as changes of one entry, or none at all when the entry they name
  is gone.
-/

namespace IndexSet.Concurrent

open KeyedList

variable {M T K : Type} [LinearOrder K] [Keyed T K] [LawfulSkipMap M T K]

namespace BTreeSet

/-! ## §1 Writing a node -/

/-- `s'` is `s` with new contents in one node; the event counter may have moved. -/
structure Wrote (s : BTreeSet M T) (n : NodeId) (items : List T) (s' : BTreeSet M T) : Prop where
  index : s'.index = s.index
  nodes : s'.nodes = Function.update s.nodes n items
  nextNode : s'.nextNode = s.nextNode
  elementSize : s'.elementSize = s.elementSize
  nodeCapacity : s'.nodeCapacity = s.nodeCapacity
  cdc : s'.cdc = s.cdc
  poisoned : s'.poisoned = s.poisoned

theorem Wrote.entries {s s' : BTreeSet M T} {n : NodeId} {items : List T}
    (h : s.Wrote n items s') : s'.entries = s.entries := by
  rw [BTreeSet.entries, BTreeSet.entries, h.index]

theorem Wrote.view {s s' : BTreeSet M T} {n : NodeId} {items : List T}
    (h : s.Wrote n items s') : s'.view = (s.setNode n items).view := by
  have hcell : s'.cell = (s.setNode n items).cell := by
    funext e
    simp [cell, h.nodes, setNode]
  rw [BTreeSet.view, BTreeSet.view, h.entries, hcell]
  rfl

omit [LawfulSkipMap M T K] in
theorem Wrote.sorted {s s' : BTreeSet M T} {n : NodeId} {items : List T}
    (h : s.Wrote n items s') (hs : s.Sorted) (hitems : Ascending key items) : s'.Sorted := by
  intro m
  rw [h.nodes]
  by_cases hm : m = n
  · subst hm
    simpa using hitems
  · simpa [hm] using hs m

/-- Writing an indexed node keeps a set coherent when the view stays partitioned. -/
theorem Wrote.coherent {s s' : BTreeSet M T} {e : T × NodeId} {items : List T}
    (h : s.Wrote e.2 items s') (hs : s.Coherent) {a b : List (T × NodeId)}
    (hcut : s.entries = a ++ e :: b)
    (hpart : Partitioned key (a.map s.cell ++ { s.cell e with items } :: b.map s.cell)) :
    s'.Coherent where
  distinct := by
    rw [h.entries]
    exact hs.distinct
  allocated := by
    rw [h.entries, h.nextNode]
    exact hs.allocated
  partitioned := by
    rw [h.view, hs.view_setNode hcut]
    exact hpart

/-- **Storing** a value in the node its lookup leads to stores it in the set. -/
theorem Wrote.coherent_put {s s' : BTreeSet M T} {e : T × NodeId} {v : T}
    (h : s.Wrote e.2 (put key v (s.nodes e.2)) s') (hs : s.Coherent)
    (he : s.lookupPut (key v) = some e) :
    s'.Coherent ∧ s'.elements = put key v s.elements := by
  obtain ⟨a, b, hcut, ha, hle⟩ := lookupPut_eq_some he
  have hpart := hs.cut hcut
  have ht := Coherent.target (s := s) ha hle
  refine ⟨h.coherent hs hcut (hpart.put ht), ?_⟩
  have hput := hpart.contents_put (m := [{ s.cell e with items := put key v (s.nodes e.2) }])
    (hpart.admissible_target ht) (by simp [cell])
  rw [elements, elements, h.view, hs.view_setNode hcut, view_cut hcut, ← hput]
  simp

/-- **Erasing** a key from the node its lookup leads to erases it from the set. -/
theorem Wrote.coherent_erase {s s' : BTreeSet M T} {e : T × NodeId} {q : K}
    (h : s.Wrote e.2 (erase key q (s.nodes e.2)) s') (hs : s.Coherent)
    (he : s.lookupPut q = some e) :
    s'.Coherent ∧ s'.elements = erase key q s.elements := by
  obtain ⟨a, b, hcut, ha, hle⟩ := lookupPut_eq_some he
  have hpart := hs.cut hcut
  have ht := Coherent.target (s := s) ha hle
  refine ⟨h.coherent hs hcut (hpart.sublist List.filter_sublist), ?_⟩
  rw [elements, elements, h.view, hs.view_setNode hcut, view_cut hcut,
    ← hpart.contents_erase (hpart.admissible_target ht)]
  rfl

/-! ## §2 Changing the entries -/

/-- A node is registered in the index under a key. -/
def Registered (s : BTreeSet M T) (n : NodeId) (k : K) : Prop :=
  ∃ e ∈ s.entries, e.2 = n ∧ key e.1 = k

instance (s : BTreeSet M T) (n : NodeId) (k : K) : Decidable (s.Registered n k) :=
  inferInstanceAs (Decidable (∃ e ∈ s.entries, e.2 = n ∧ key e.1 = k))

/-- `index.get` finds the entry with the key, and the index is cut at it. -/
theorem get_cut {s : BTreeSet M T} {q : K} {e : T × NodeId} (h : SkipMap.get s.index q = some e) :
    ∃ a b, s.entries = a ++ e :: b ∧ key e.1 = q ∧ Below entryKey a q ∧ Above entryKey q b := by
  rw [LawfulSkipMap.get_eq] at h
  obtain ⟨hmem, hkey⟩ := (find_eq_some s.entries_ascending).mp h
  obtain ⟨a, b, hcut⟩ := List.append_of_mem hmem
  have hasc := s.entries_ascending
  rw [hcut] at hasc
  have ⟨_, _, ha, hb⟩ := ascending_append_cons.mp hasc
  exact ⟨a, b, hcut, hkey, hkey ▸ ha, hkey ▸ hb⟩

theorem registered_iff {s : BTreeSet M T} {n : NodeId} {q : K} :
    s.Registered n q ↔ ∃ e, SkipMap.get s.index q = some e ∧ e.2 = n := by
  constructor
  · rintro ⟨e, hmem, hn, hkey⟩
    exact ⟨e, by rw [LawfulSkipMap.get_eq]; exact find_eq_some_of_mem s.entries_ascending hmem hkey,
      hn⟩
  · rintro ⟨e, h, hn⟩
    obtain ⟨a, b, hcut, hkey, -, -⟩ := get_cut h
    exact ⟨e, by simp [hcut], hn, hkey⟩

section Entries

variable {s s' : BTreeSet M T} {a b : List (T × NodeId)} {e : T × NodeId}

/-- **Rekeying** an entry to its node's maximum. -/
theorem Coherent.rekey (hs : s.Coherent) (hcut : s.entries = a ++ e :: b) {m : T}
    (hm : maxKey key (s.nodes e.2) = some (key m)) (hentries : s'.entries = a ++ (m, e.2) :: b)
    (hnodes : s'.nodes = s.nodes) (hnext : s'.nextNode = s.nextNode) :
    s'.Coherent ∧ s'.elements = s.elements := by
  have hcell : s'.cell = s.cell := by
    funext p
    simp [cell, hnodes]
  have hview : s'.view = a.map s.cell ++ { s.cell e with bound := m } :: b.map s.cell := by
    rw [view_cut hentries, hcell]
    rfl
  refine ⟨⟨?_, ?_, ?_⟩, ?_⟩
  · have h := hs.distinct
    rw [hcut] at h
    simpa [hentries] using h
  · intro p hp
    rw [hnext]
    rw [hentries] at hp
    rcases List.mem_append.mp hp with hp | hp
    · exact hs.allocated p (by simp [hcut, hp])
    · rcases List.mem_cons.mp hp with rfl | hp
      · exact hs.allocated e (by simp [hcut])
      · exact hs.allocated p (by simp [hcut, hp])
  · rw [hview]
    exact (hs.cut hcut).rebound hm
  · rw [elements, elements, hview, view_cut hcut]
    simp

/-- **Removing** an entry takes its node's contents out of the set. -/
theorem Coherent.drop (hs : s.Coherent) (hcut : s.entries = a ++ e :: b)
    (hentries : s'.entries = a ++ b) (hnodes : s'.nodes = s.nodes)
    (hnext : s'.nextNode = s.nextNode) :
    s'.Coherent ∧ (s.nodes e.2 = [] → s'.elements = s.elements) := by
  have hcell : s'.cell = s.cell := by
    funext p
    simp [cell, hnodes]
  have hview : s'.view = a.map s.cell ++ b.map s.cell := by
    rw [view, hentries, hcell, List.map_append]
  have hsub : (a ++ b).Sublist s.entries := by
    rw [hcut]
    exact List.Sublist.append_left (List.sublist_cons_self e b) a
  refine ⟨⟨?_, ?_, ?_⟩, fun hnil => ?_⟩
  · rw [hentries]
    exact hs.distinct.sublist (hsub.map Prod.snd)
  · intro p hp
    rw [hnext]
    rw [hentries] at hp
    exact hs.allocated p (hsub.subset hp)
  · rw [hview]
    exact (hs.cut hcut).remove
  · rw [elements, elements, hview, view_cut hcut]
    simp [cell, hnil]

end Entries

/-- `s'` is `s` with a new node for `v`, registered under `v`. -/
structure Created (s : BTreeSet M T) (v : T) (s' : BTreeSet M T) : Prop where
  index : s'.index = SkipMap.insert s.index v s.nextNode
  nodes : s'.nodes = Function.update s.nodes s.nextNode [v]
  nextNode : s'.nextNode = s.nextNode + 1
  elementSize : s'.elementSize = s.elementSize
  nodeCapacity : s'.nodeCapacity = s.nodeCapacity
  cdc : s'.cdc = s.cdc
  poisoned : s'.poisoned = s.poisoned

/-- **The first node** of an empty index. -/
theorem Created.coherent {s s' : BTreeSet M T} {v : T} (h : s.Created v s')
    (hnil : s.entries = []) :
    s'.entries = [(v, s.nextNode)] ∧ s'.Coherent ∧ s.elements = [] ∧ s'.elements = [v] := by
  have hentries : s'.entries = [(v, s.nextNode)] := by
    rw [entries] at hnil
    rw [entries, h.index, LawfulSkipMap.iter_insert, hnil, put_nil]
  have hview : s'.view = [⟨v, s.nextNode, [v]⟩] := by
    simp [view, hentries, cell, h.nodes]
  refine ⟨hentries, ⟨by simp [hentries], by simp [hentries, h.nextNode], ?_⟩, ?_, ?_⟩
  · rw [hview]
    exact partitioned_singleton (ascending_singleton v)
  · simp [elements, view, hnil]
  · simp [elements, hview]

theorem Created.sorted {s s' : BTreeSet M T} {v : T} (h : s.Created v s')
    (hs : s.Sorted) : s'.Sorted := by
  intro n
  rw [h.nodes]
  by_cases hn : n = s.nextNode
  · subst hn
    simp
  · simpa [hn] using hs n

/-- A node of the node capacity can be allocated. -/
def Allocates (s : BTreeSet M T) : Prop := s.nodeCapacity * s.elementSize ≤ Node.isizeMax

instance (s : BTreeSet M T) : Decidable s.Allocates := inferInstanceAs (Decidable (_ ≤ _))

omit [LawfulSkipMap M T K] in
/-- **The node for an empty index** holds the value, if it can be allocated. -/
theorem firstNode_of_allocates {s : BTreeSet M T} (h : s.Allocates) (v : T) :
    s.firstNode v = some [v] := by
  have hfits : s.nodeCapacity * s.elementSize ≤ Node.isizeMax := h
  rw [firstNode, Node.withCapacity, if_pos hfits]
  rfl

omit [LawfulSkipMap M T K] in
theorem firstNode_eq_none {s : BTreeSet M T} {v : T} : s.firstNode v = none ↔ ¬ s.Allocates := by
  simp [firstNode, Node.withCapacity, Allocates]

/-- A new set with its first element, of eight bytes. -/
def single (cdc : Bool) (nodeCapacity : ℕ) (v : T) : BTreeSet M T :=
  ((withMaximumNodeSize cdc 8 nodeCapacity).insertFirst v).1

/-- `insertFirst` creates the node and reports it. -/
theorem insertFirst_spec (s : BTreeSet M T) (v : T) :
    ∃ s', s.insertFirst v = (s', (s.emit [.createNode v]).2) ∧ s.Created v s' ∧
      s'.eventId = (s.emit [.createNode v]).1.eventId := by
  obtain ⟨eventId, heq⟩ := emit_eq s [.createNode v]
  refine ⟨{ (s.emit [.createNode v]).1 with
    index := SkipMap.insert s.index v s.nextNode
    nodes := Function.update s.nodes s.nextNode [v]
    nextNode := s.nextNode + 1 }, ?_, ?_, rfl⟩
  · simp only [insertFirst, newNode, setNode, heq]
    rfl
  · simp only [heq]
    exact ⟨rfl, rfl, rfl, rfl, rfl, rfl, rfl⟩

theorem withMaximumNodeSize_entries (cdc : Bool) (elementSize nodeCapacity : ℕ) :
    (withMaximumNodeSize cdc elementSize nodeCapacity : BTreeSet M T).entries = [] :=
  LawfulSkipMap.iter_new

/-- A new set is empty and at rest. -/
theorem withMaximumNodeSize_atRest (cdc : Bool) (elementSize nodeCapacity : ℕ) :
    (withMaximumNodeSize cdc elementSize nodeCapacity : BTreeSet M T).AtRest ∧
      (withMaximumNodeSize cdc elementSize nodeCapacity : BTreeSet M T).elements = [] := by
  have hentries := withMaximumNodeSize_entries (M := M) (T := T) cdc elementSize nodeCapacity
  have hview : (withMaximumNodeSize cdc elementSize nodeCapacity : BTreeSet M T).view = [] := by
    simp [view, hentries]
  refine ⟨⟨⟨by simp [hentries], by simp [hentries], hview ▸ partitioned_nil⟩,
    fun _ => ascending_nil, by simp [hentries]⟩, ?_⟩
  rw [elements, hview, contents_nil]

/-- A set with one element is at rest. -/
theorem single_atRest (cdc : Bool) (nodeCapacity : ℕ) (v : T) :
    (single cdc nodeCapacity v : BTreeSet M T).AtRest := by
  obtain ⟨s', heval, hcreated, -⟩ :=
    insertFirst_spec (withMaximumNodeSize cdc 8 nodeCapacity : BTreeSet M T) v
  have hnil := withMaximumNodeSize_entries (M := M) (T := T) cdc 8 nodeCapacity
  have ⟨hentries, hcoh, _⟩ := hcreated.coherent hnil
  rw [single, heval]
  refine ⟨hcoh, hcreated.sorted fun _ => ascending_nil, fun e he => ?_⟩
  rw [hentries, List.mem_singleton] at he
  subst he
  simp [Exact, hcreated.nodes, maxKey]

/-! ## §3 The edits -/

omit [LinearOrder K] [Keyed T K] [LawfulSkipMap M T K] in
/-- Writing a node and emitting events, in either order. -/
theorem wrote_emit {s s' : BTreeSet M T} {n : NodeId} {items : List T}
    {changes : List (ChangeEventUnassigned T)} {cdc : List (ChangeEvent T)}
    (h : (s.setNode n items).emit changes = (s', cdc)) : s.Wrote n items s' := by
  obtain ⟨eventId, heq⟩ := emit_eq (s.setNode n items) changes
  rw [h] at heq
  cases heq
  exact ⟨rfl, rfl, rfl, rfl, rfl, rfl, rfl⟩

/-- What `putEdit` does to the node of `e`, depending on where the value stands in it. -/
inductive PutEdited (s : BTreeSet M T) (e : T × NodeId) (v : T) :
    BTreeSet M T → PutOutcome T → Prop where
  /-- The node is full: the split is left to the commit. -/
  | full : s.nodeCapacity ≤ (s.nodes e.2).length →
      PutEdited s e v s (.deferred (.split e.2 e.1 v) [])
  /-- The value goes in below the maximum, or into an empty node. -/
  | added {a b : List T} {s' : BTreeSet M T} {cdc : List (ChangeEvent T)} :
      (s.nodes e.2).length < s.nodeCapacity → s.nodes e.2 = a ++ b →
      Below key a (key v) → Above key (key v) b → (s.nodes e.2 = [] ∨ b ≠ []) →
      (s.setNode e.2 (a ++ v :: b)).emit
        [.insertAt ((s.nodes e.2).getLast?.getD v) v a.length] = (s', cdc) →
      PutEdited s e v s' (.done cdc)
  /-- The value becomes the maximum: the index key is left to the commit. -/
  | raised {m : T} {s' : BTreeSet M T} {cdc : List (ChangeEvent T)} :
      (s.nodes e.2).length < s.nodeCapacity → (s.nodes e.2).getLast? = some m →
      Below key (s.nodes e.2) (key v) →
      (s.setNode e.2 (s.nodes e.2 ++ [v])).emit [.insertAt m v (s.nodes e.2).length] =
        (s', cdc) →
      PutEdited s e v s' (.deferred (.updateMax e.2 m) cdc)
  /-- An equal element is there. -/
  | present {a b : List T} {x m : T} :
      (s.nodes e.2).length < s.nodeCapacity → s.nodes e.2 = a ++ x :: b → key x = key v →
      Below key a (key v) → Above key (key v) b → (s.nodes e.2).getLast? = some m →
      PutEdited s e v s (.conflict a.length m)

omit [LawfulSkipMap M T K] in
theorem putEdit_spec [SkipMap M T K] (s : BTreeSet M T) (e : T × NodeId) (v : T)
    (h : Ascending key (s.nodes e.2)) :
    ∃ s' outcome, s.putEdit e v = some (s', outcome) ∧ s.PutEdited e v s' outcome := by
  by_cases hfull : s.nodeCapacity ≤ (s.nodes e.2).length
  · refine ⟨s, _, ?_, .full hfull⟩
    simp [putEdit, Node.needToSplit, hfull]
  · have hroom : (s.nodes e.2).length < s.nodeCapacity := Nat.lt_of_not_le hfull
    rcases Node.insert_spec v h with ⟨a, x, b, hl, hx, ha, hb, heval⟩ | ⟨a, b, hl, ha, hb, heval⟩
    · obtain ⟨m, hm⟩ : ∃ m, (s.nodes e.2).getLast? = some m := by
        rw [hl]
        exact ⟨_, List.getLast?_eq_some_getLast (by simp)⟩
      refine ⟨s, _, ?_, .present hroom hl hx ha hb hm⟩
      simp [putEdit, Node.needToSplit, hfull, heval, Node.max, hm]
    · generalize hemit : (s.setNode e.2 (a ++ v :: b)).emit
        [.insertAt ((s.nodes e.2).getLast?.getD v) v a.length] = r
      obtain ⟨s', cdc⟩ := r
      by_cases hin : s.nodes e.2 = [] ∨ b ≠ []
      · -- the maximum stays, or there was none: the edit is complete
        refine ⟨s', .done cdc, ?_, .added hroom hl ha hb hin hemit⟩
        simp only [putEdit, Node.needToSplit, hfull, decide_false, Bool.false_eq_true, if_false,
          heval, Node.max, hemit]
        rcases hin with hnil | hne
        · rw [hnil] at hl
          obtain ⟨ha', hb'⟩ := List.append_eq_nil_iff.mp hl.symm
          simp [ha', hb', hnil]
        · have hsame : maxKey key (a ++ v :: b) = maxKey key (s.nodes e.2) := by
            rw [hl, maxKey_append_of_ne_nil a (b := v :: b) (by simp),
              maxKey_append_of_ne_nil a hne,
              show v :: b = [v] ++ b from rfl, maxKey_append_of_ne_nil [v] hne]
          rw [maxKey, maxKey] at hsame
          rw [if_pos hsame]
      · obtain ⟨hne, hb'⟩ := not_or.mp hin
        rw [not_not] at hb'
        subst hb'
        rw [List.append_nil] at hl
        -- the value is the new maximum: the index key is left to the commit
        obtain ⟨m, hm⟩ : ∃ m, (s.nodes e.2).getLast? = some m :=
          ⟨_, List.getLast?_eq_some_getLast hne⟩
        have hmem : m ∈ s.nodes e.2 := List.mem_of_getLast? hm
        rw [← hl] at ha heval hemit
        refine ⟨s', _, ?_, .raised hroom hm ha (by simpa [hm] using hemit)⟩
        rw [hm, Option.getD_some] at hemit
        simp only [putEdit, Node.needToSplit, hfull, decide_false, Bool.false_eq_true, if_false,
          heval, Node.max, hm, Option.getD_some, hemit]
        simp [(ha m hmem).ne']

/-- What `removeEdit` does to the node of `e`. -/
inductive RemoveEdited (s : BTreeSet M T) (e : T × NodeId) (q : K) :
    BTreeSet M T → RemoveOutcome T → Prop where
  | absent : (∀ x ∈ s.nodes e.2, key x ≠ q) → RemoveEdited s e q s .absent
  /-- The element is not the maximum. -/
  | inside {a b : List T} {x m : T} {s' : BTreeSet M T} {cdc : List (ChangeEvent T)} :
      s.nodes e.2 = a ++ x :: b → key x = q → b ≠ [] → (s.nodes e.2).getLast? = some m →
      (s.setNode e.2 (a ++ b)).emit [.removeAt m x a.length] = (s', cdc) →
      RemoveEdited s e q s' (.done x cdc)
  /-- The element is the maximum: the index key is left to the commit. -/
  | lowered {a : List T} {x : T} {s' : BTreeSet M T} {cdc : List (ChangeEvent T)} :
      s.nodes e.2 = a ++ [x] → key x = q → a ≠ [] →
      (s.setNode e.2 a).emit [.removeAt x x a.length] = (s', cdc) →
      RemoveEdited s e q s' (.deferred x (.updateMax e.2 x) cdc)
  /-- The element was the only one: the entry is left to the commit. -/
  | emptied {x : T} : s.nodes e.2 = [x] → key x = q →
      RemoveEdited s e q (s.setNode e.2 []) (.deferred x (.makeUnreachable e.2 x) [])

omit [LawfulSkipMap M T K] in
theorem removeEdit_spec [SkipMap M T K] (s : BTreeSet M T) (e : T × NodeId) (q : K)
    (h : Ascending key (s.nodes e.2)) :
    ∃ s' outcome, s.removeEdit e q = some (s', outcome) ∧ s.RemoveEdited e q s' outcome := by
  rcases Node.delete_spec q h with ⟨a, x, b, hl, hx, ha, hb, heval⟩ | ⟨a, b, hl, ha, hb, heval⟩
  · rcases List.eq_nil_or_concat' b with rfl | ⟨b, m, rfl⟩
    · -- the maximum goes
      have hmax : (s.nodes e.2).getLast? = some x := by simp [hl]
      by_cases hnil : a = []
      · subst hnil
        refine ⟨_, _, ?_, .emptied hl hx⟩
        simp [removeEdit, heval, Node.max, hmax]
      · generalize hemit : (s.setNode e.2 a).emit [.removeAt x x a.length] = r
        obtain ⟨s', cdc⟩ := r
        refine ⟨s', _, ?_, .lowered hl hx hnil hemit⟩
        have hpos : 0 < a.length := List.length_pos_iff.mpr hnil
        have hmem : ∀ y, a.getLast? = some y → key x ≠ key y := fun y hy =>
          (hx ▸ ha y (List.mem_of_getLast? hy)).ne'
        simp only [removeEdit, heval, Node.max, hmax, if_pos hpos, List.append_nil, hemit]
        rw [if_neg]
        rintro hsame
        obtain ⟨y, hy, hyx⟩ := Option.map_eq_some_iff.mp hsame.symm
        exact hmem y hy hyx.symm
    · have hmax : (s.nodes e.2).getLast? = some m := by
        rw [hl, ← List.cons_append, ← List.append_assoc, List.getLast?_concat]
      generalize hemit : (s.setNode e.2 (a ++ (b ++ [m]))).emit [.removeAt m x a.length] = r
      obtain ⟨s', cdc⟩ := r
      refine ⟨s', _, ?_, .inside hl hx (by simp) hmax hemit⟩
      have hpos : 0 < (a ++ (b ++ [m])).length := List.length_pos_iff.mpr (by simp)
      simp only [removeEdit, heval, Node.max, hmax, if_pos hpos, hemit]
      simp [← List.append_assoc]
  · refine ⟨s, _, ?_, .absent (hl ▸ ?_)⟩
    · simp [removeEdit, heval]
    · exact find_eq_none.mp (find_gap ha hb)

omit [LawfulSkipMap M T K] [LinearOrder K] [Keyed T K] in
/-- The events of a replacement never meet the panic of `expect`. -/
theorem replaceEvents_isSome (a b : List T) (x m v : T) :
    (replaceEvents (a ++ x :: b) a.length m v).isSome := by
  unfold replaceEvents
  split
  · rfl
  next hlen =>
    split
    next hidx =>
      have htwo : ¬ (a ++ x :: b).length ≤ 1 := by
        simp only [List.length_append, List.length_cons] at hlen ⊢
        omega
      rw [if_neg htwo, Option.isSome_map, List.getElem?_eq_getElem (by omega)]
      rfl
    · rfl

omit [LinearOrder K] [Keyed T K] [LawfulSkipMap M T K] in
/-- `putReplace` stores the value over the equal element and returns that one. -/
theorem putReplace_spec [SkipMap M T K] (s : BTreeSet M T) (n : NodeId) {a b : List T} {x : T}
    (m v : T) (hl : s.nodes n = a ++ x :: b) :
    ∃ s' cdc changes, s.putReplace n a.length m v = some (s', some x, cdc) ∧
      s.Wrote n (a ++ v :: b) s' ∧ (s.cdc → replaceEvents (s.nodes n) a.length m v = some changes) ∧
      s'.eventId = (s.emit changes).1.eventId ∧ cdc = (s.emit changes).2 := by
  obtain ⟨changes, hchanges⟩ := Option.isSome_iff_exists.mp (replaceEvents_isSome a b x m v)
  rw [← hl] at hchanges
  obtain ⟨eventId, hemit⟩ := emit_eq s changes
  cases hcdc : s.cdc with
  | true =>
    refine ⟨(s.emit changes).1.setNode n (a ++ v :: b), (s.emit changes).2, changes, ?_, ?_,
      fun _ => hchanges, rfl, rfl⟩
    · simp only [putReplace, hcdc, if_true, hchanges, Option.bind_eq_bind, Option.bind_some]
      rw [hemit]
      simp only [hl, Node.replace_split]
      rfl
    · rw [hemit]
      exact ⟨rfl, rfl, rfl, rfl, rfl, rfl, rfl⟩
  | false =>
    refine ⟨s.setNode n (a ++ v :: b), [], [], ?_, ⟨rfl, rfl, rfl, rfl, rfl, rfl, rfl⟩, by simp,
      rfl, rfl⟩
    simp only [putReplace, hcdc, Bool.false_eq_true, if_false, Option.bind_eq_bind,
      Option.bind_some, emit, hl, Node.replace_split]
    rfl

end BTreeSet

end IndexSet.Concurrent
