import IndexSet.Concurrent.Commits

/-!
# Calls Run One After Another

A call that runs alone starts at rest and ends at rest, and does what a sorted map with
replacement does.  Node sizes stay within `max(capacity, 2)`: a split may find a node of
one element when the capacity is `0` or `1`.

- `putCdc_spec`, `removeCdc_spec`: one call;
- `Op`, `exec`, `Op.reference`: sequences of calls against the reference list;
- `sequential_refines`: the theorem about all of them.
-/

namespace IndexSet.Concurrent

open KeyedList

variable {M T K : Type} [LinearOrder K] [Keyed T K] [LawfulSkipMap M T K]

namespace BTreeSet

/-! ## §1 Sets between calls -/

/-- No indexed node has more than `max(capacity, 2)` elements. -/
def Bounded (s : BTreeSet M T) : Prop :=
  ∀ e ∈ s.entries, (s.nodes e.2).length ≤ max s.nodeCapacity 2

/-- What holds between two calls of a single thread. -/
structure Settled (s : BTreeSet M T) : Prop where
  atRest : s.AtRest
  bounded : s.Bounded
  unpoisoned : s.poisoned = false

/-- What a call leaves alone. -/
structure SameBuild (s s' : BTreeSet M T) : Prop where
  nodeCapacity : s'.nodeCapacity = s.nodeCapacity
  cdc : s'.cdc = s.cdc
  elementSize : s'.elementSize = s.elementSize

theorem SameBuild.refl (s : BTreeSet M T) : s.SameBuild s := ⟨rfl, rfl, rfl⟩

theorem SameBuild.trans {s s' s'' : BTreeSet M T} (h : s.SameBuild s') (h' : s'.SameBuild s'') :
    s.SameBuild s'' :=
  ⟨h'.nodeCapacity.trans h.nodeCapacity, h'.cdc.trans h.cdc, h'.elementSize.trans h.elementSize⟩

theorem SameBuild.allocates {s s' : BTreeSet M T} (h : s.SameBuild s') (hs : s.Allocates) :
    s'.Allocates := by
  rw [Allocates, h.nodeCapacity, h.elementSize]
  exact hs

/-- How a call leaves a set that it found at rest: at rest again, of the same build, and
within the size bound when it was before. -/
structure RestsAs (s s' : BTreeSet M T) : Prop where
  atRest : s'.AtRest
  sameBuild : s.SameBuild s'
  poisoned : s'.poisoned = s.poisoned
  bounded : s.Bounded → s'.Bounded

theorem RestsAs.settled {s s' : BTreeSet M T} (h : s.RestsAs s') (hs : s.Settled) : s'.Settled :=
  ⟨h.atRest, h.bounded hs.bounded, h.poisoned.trans hs.unpoisoned⟩

/-- Emitting events changes nothing that matters here. -/
theorem RestsAs.emit {s s' : BTreeSet M T} (h : s.RestsAs s')
    (changes : List (ChangeEventUnassigned T)) :
    s.RestsAs (s'.emit changes).1 ∧ (s'.emit changes).1.elements = s'.elements := by
  obtain ⟨eventId, heq⟩ := emit_eq s' changes
  rw [heq]
  have hcoh := h.atRest.coherent
  exact ⟨⟨⟨⟨hcoh.1, hcoh.2, hcoh.3⟩, h.atRest.sorted, h.atRest.exact⟩,
    ⟨h.sameBuild.nodeCapacity, h.sameBuild.cdc, h.sameBuild.elementSize⟩, h.poisoned, h.bounded⟩,
    rfl⟩

/-- Storing a value lengthens a list by one at most. -/
theorem length_put_bounds {l : List T} (v : T) (h : Ascending key l) :
    l.length ≤ (put key v l).length ∧ (put key v l).length ≤ l.length + 1 := by
  rcases h.exists_cut (key v) with ⟨a, x, b, rfl, hx, ha, hb⟩ | ⟨a, b, rfl, ha, hb⟩
  · rw [put_hit hx ha hb]
    simp
  · rw [put_gap ha hb]
    simp
    omega

section Wrote

variable {s s' : BTreeSet M T} {e : T × NodeId} {items : List T} {a b : List (T × NodeId)}

/-- A write that keeps the maximum key keeps every entry exact. -/
theorem Wrote.exact (h : s.Wrote e.2 items s') (hexact : ∀ p ∈ s.entries, s.Exact p)
    (hmax : maxKey key items = maxKey key (s.nodes e.2)) : ∀ p ∈ s'.entries, s'.Exact p := by
  intro p hp
  rw [h.entries] at hp
  have hold := hexact p hp
  unfold Exact at hold ⊢
  rw [h.nodes]
  by_cases hpe : p.2 = e.2
  · rw [hpe, Function.update_self, hmax, ← hpe, hold]
  · rw [Function.update_of_ne hpe, hold]

theorem Wrote.bounded (h : s.Wrote e.2 items s') (hb : s.Bounded)
    (hlen : items.length ≤ max s.nodeCapacity 2) : s'.Bounded := by
  intro p hp
  rw [h.entries] at hp
  rw [h.nodes, h.nodeCapacity]
  by_cases hpe : p.2 = e.2
  · rw [hpe, Function.update_self]
    exact hlen
  · rw [Function.update_of_ne hpe]
    exact hb p hp

theorem Wrote.sameBuild (h : s.Wrote e.2 items s') : s.SameBuild s' :=
  ⟨h.nodeCapacity, h.cdc, h.elementSize⟩

end Wrote

/-! ## §2 One put -/

section Put

variable {s : BTreeSet M T}

/-- The first value of an empty set. -/
theorem Created.restsAs {s' : BTreeSet M T} {v : T} (h : s.Created v s') (hs : s.AtRest)
    (hnil : s.entries = []) : s.RestsAs s' ∧ s'.elements = put key v s.elements := by
  have ⟨hentries, hcoh, hempty, helems⟩ := h.coherent hnil
  refine ⟨⟨⟨hcoh, h.sorted hs.sorted, ?_⟩, ⟨h.nodeCapacity, h.cdc, h.elementSize⟩, h.poisoned,
    fun _ => ?_⟩, by rw [helems, hempty, put_nil]⟩
  · rw [hentries]
    simp [Exact, h.nodes, maxKey]
  · intro p hp
    rw [hentries, List.mem_singleton] at hp
    subst hp
    rw [h.nodes, Function.update_self, List.length_singleton]
    omega

/-- A value stored without a commit. -/
theorem Wrote.restsAs_put {s' : BTreeSet M T} {e : T × NodeId} {v : T}
    (h : s.Wrote e.2 (put key v (s.nodes e.2)) s') (hs : s.AtRest)
    (he : s.lookupPut (key v) = some e)
    (hmax : maxKey key (put key v (s.nodes e.2)) = maxKey key (s.nodes e.2))
    (hlen : (put key v (s.nodes e.2)).length ≤ max s.nodeCapacity 2) :
    s.RestsAs s' ∧ s'.elements = put key v s.elements := by
  have ⟨hcoh, helems⟩ := h.coherent_put hs.coherent he
  exact ⟨⟨⟨hcoh, h.sorted hs.sorted (put_ascending (hs.sorted e.2)), h.exact hs.exact hmax⟩,
    h.sameBuild, h.poisoned, fun hb => h.bounded hb hlen⟩, helems⟩

/-- Committing and emitting. -/
theorem commitDeferred_ok {s₁ : BTreeSet M T} {op : Operation T} {old : Option T}
    {changes : List (ChangeEventUnassigned T)} (cdc : List (ChangeEvent T))
    (h : s.commit op = some (s₁, .ok (old, changes))) :
    s.commitDeferred op cdc =
      some ((s₁.emit changes).1, some (old, cdc ++ (s₁.emit changes).2)) := by
  simp [commitDeferred, h]

/-- A write that moves the maximum of its node, and the commit that rekeys it. -/
theorem rekeyed_spec (hs : s.AtRest) {oldMax m : T} {l : List T} {a b : List (T × NodeId)}
    {e : T × NodeId} {s₁ : BTreeSet M T} (cdc : List (ChangeEvent T))
    (hcut : s.entries = a ++ e :: b) (hold : maxKey key (s.nodes e.2) = some (key oldMax))
    (h : s.Wrote e.2 (l ++ [m]) s₁) (hcoh : s₁.Coherent) (hasc : Ascending key (l ++ [m]))
    (hlen : s.Bounded → (l ++ [m]).length ≤ max s.nodeCapacity 2)
    (hmoved : key m ≠ key oldMax) :
    s₁.commitDeferred (.updateMax e.2 oldMax) cdc =
        some (s₁.rekeyState e.2 oldMax m, some (none, cdc)) ∧
      s.RestsAs (s₁.rekeyState e.2 oldMax m) ∧
      (s₁.rekeyState e.2 oldMax m).elements = s₁.elements := by
  have hexact := hs.exact e (by simp [hcut])
  have hkey : key e.1 = key oldMax := by
    rw [Exact, hold] at hexact
    exact (Option.some.inj hexact).symm
  have hcut₁ : s₁.entries = a ++ e :: b := h.entries.trans hcut
  have hsorted := h.sorted hs.sorted hasc
  have hnode : s₁.nodes e.2 = l ++ [m] := by simp [h.nodes]
  have hcommit : s₁.commit (.updateMax e.2 oldMax) =
      some (s₁.rekeyState e.2 oldMax m, .ok (none, [])) := by
    rcases s₁.commit_updateMax_cases e.2 oldMax with ⟨hnil, -⟩ | ⟨-, hnot, -⟩ |
      ⟨_, _, _, m', -, -, -, hm', hcase⟩
    · simp [hnode] at hnil
    · exact absurd ⟨e, by simp [hcut₁], rfl, hkey⟩ hnot
    · rw [hnode, List.getLast?_concat] at hm'
      cases hm'
      exact (hcase.resolve_left fun hc => hmoved hc.1).2
  have hexactOther : ∀ p ∈ a ++ b, s₁.Exact p := by
    intro p hp
    have hold := hs.exact p (mem_of_cut hcut hp)
    unfold Exact at hold ⊢
    rw [h.nodes, Function.update_of_ne (hs.coherent.ne_of_cut hcut p hp), hold]
  obtain ⟨hrest, hentries, helems⟩ := AtRest.of_rekey (m := m) hcoh hsorted hcut₁ hkey
    (by rw [hnode, maxKey_concat]) hexactOther
  have hrests : s.RestsAs (s₁.rekeyState e.2 oldMax m) := by
    refine ⟨hrest, ⟨h.nodeCapacity, h.cdc, h.elementSize⟩, h.poisoned, fun hb p hp => ?_⟩
    -- every node of the new index is a node of the old one
    have hbounded := h.bounded hb (hlen hb)
    rw [hentries] at hp
    rcases List.mem_append.mp hp with hp | hp
    · exact hbounded p (by simp [hcut₁, hp])
    · rcases List.mem_cons.mp hp with rfl | hp
      · exact hbounded e (by simp [hcut₁])
      · exact hbounded p (by simp [hcut₁, hp])
  refine ⟨?_, hrests, helems⟩
  have hdeferred := commitDeferred_ok cdc hcommit
  rwa [emit, List.append_nil] at hdeferred

/-- A value above the maximum of its node. -/
theorem raised_spec (hs : s.AtRest) {v m : T} {e : T × NodeId} {s₁ : BTreeSet M T}
    (cdc : List (ChangeEvent T)) (he : s.lookupPut (key v) = some e)
    (hm : (s.nodes e.2).getLast? = some m) (hbelow : Below key (s.nodes e.2) (key v))
    (hroom : (s.nodes e.2).length < s.nodeCapacity)
    (h : s.Wrote e.2 (s.nodes e.2 ++ [v]) s₁) :
    s₁.commitDeferred (.updateMax e.2 m) cdc =
        some (s₁.rekeyState e.2 m v, some (none, cdc)) ∧
      s.RestsAs (s₁.rekeyState e.2 m v) ∧
      (s₁.rekeyState e.2 m v).elements = put key v s.elements := by
  have hput : s.nodes e.2 ++ [v] = put key v (s.nodes e.2) := by
    have hgap := put_gap (v := v) hbelow (above_nil _)
    rw [List.append_nil] at hgap
    exact hgap.symm
  obtain ⟨a, b, hcut, -, -⟩ := lookupPut_eq_some he
  obtain ⟨hcoh, helems⟩ := (hput ▸ h).coherent_put hs.coherent he
  rw [← helems]
  apply rekeyed_spec hs cdc hcut (by rw [maxKey, hm]; rfl) h hcoh
  · rw [hput]
    exact put_ascending (hs.sorted e.2)
  · intro _
    rw [List.length_append, List.length_singleton]
    omega
  · exact (hbelow m (List.mem_of_getLast? hm)).ne'

/-- The halves of a node, with one value stored, are no longer than the bound allows. -/
theorem length_halves {l lower upper : List T} {v : T} (hasc : Ascending key l) (hne : l ≠ [])
    (hput : lower ++ upper = put key v l)
    (hhalf : lower = (Node.halve l).1 ∨ lower = put key v (Node.halve l).1) {c : ℕ}
    (hlen : l.length ≤ max c 2) : lower.length ≤ max c 2 ∧ upper.length ≤ max c 2 := by
  have hpos := List.length_pos_iff.mpr hne
  have hlo := Node.length_halve_fst l
  have hsum : lower.length + upper.length ≤ l.length + 1 := by
    rw [← List.length_append, hput]
    exact (length_put_bounds v hasc).2
  have hlower : l.length / 2 ≤ lower.length ∧ lower.length ≤ l.length / 2 + 1 := by
    rcases hhalf with h | h
    · rw [h, hlo]
      omega
    · rw [h, ← hlo]
      exact length_put_bounds v (hasc.sublist (List.take_sublist ..))
  constructor <;> omega

/-- The commit of a split brings a set at rest to rest. -/
theorem commitSplit_restsAs (hs : s.AtRest) {v : T} {e : T × NodeId}
    (he : s.lookupPut (key v) = some e) :
    s.RestsAs (s.commitSplit e.2 e.1 v).1 ∧
      (s.commitSplit e.2 e.1 v).1.elements = put key v s.elements ∧
      (s.commitSplit e.2 e.1 v).2.1 = find key (key v) s.elements := by
  obtain ⟨a, b, hcut, ha, hle⟩ := lookupPut_eq_some he
  have hmem : e ∈ s.entries := by simp [hcut]
  have hne := hs.ne_nil hmem
  have hasc := hs.sorted e.2
  have hadm := (hs.coherent.cut hcut).admissible_target (Coherent.target (s := s) ha hle)
  obtain ⟨lowerMax, lower, upperMax, upper, hstate, hold, hput, hlower, hupper, hhalf⟩ :=
    commitSplit_spec s e.2 e.1 v hasc hne
  obtain ⟨hcoh, helems, hentries⟩ :=
    hs.coherent.split hcut rfl rfl hasc hadm hput hlower hupper
  rw [← hstate] at hcoh helems hentries
  have hsame : (s.commitSplit e.2 e.1 v).1.nodeCapacity = s.nodeCapacity ∧
      (s.commitSplit e.2 e.1 v).1.cdc = s.cdc ∧
      (s.commitSplit e.2 e.1 v).1.elementSize = s.elementSize ∧
      (s.commitSplit e.2 e.1 v).1.poisoned = s.poisoned := by
    rw [hstate]
    exact ⟨rfl, rfl, rfl, rfl⟩
  obtain ⟨hcap, hcdc, hsize, hpoisoned⟩ := hsame
  refine ⟨⟨⟨hcoh, ?_, ?_⟩, ⟨hcap, hcdc, hsize⟩, hpoisoned, ?_⟩, helems,
    hold.trans (hs.coherent.find_elements he).symm⟩
  · rw [hstate]
    exact splitState_sorted hs.sorted hput
  · rw [hstate] at hentries ⊢
    intro p hp
    rcases hs.coherent.split_entries hcut hentries hlower hupper p hp with hexact | ⟨hmem, hnode⟩
    · exact hexact
    · rw [Exact, hnode]
      exact hs.exact p (mem_of_cut hcut hmem)
  · intro hbounded
    obtain ⟨hlowerLen, hupperLen⟩ := length_halves hasc hne hput hhalf (hbounded e hmem)
    rw [hstate] at hentries ⊢
    intro p hp
    rcases hs.coherent.split_entry_cases hcut hentries p hp with
      ⟨hmem, hnode⟩ | ⟨-, hnode⟩ | ⟨-, hnode⟩
    · rw [hnode]
      exact hbounded p (mem_of_cut hcut hmem)
    · rw [hnode]
      exact hlowerLen
    · rw [hnode]
      exact hupperLen

/-- A split of a full node. -/
theorem split_spec (hs : s.AtRest) {v : T} {e : T × NodeId} (cdc : List (ChangeEvent T))
    (he : s.lookupPut (key v) = some e) :
    ∃ s₂, s.commitDeferred (.split e.2 e.1 v) cdc =
        some (s₂, some (find key (key v) s.elements,
          cdc ++ ((s.commitSplit e.2 e.1 v).1.emit (s.commitSplit e.2 e.1 v).2.2).2)) ∧
      s₂ = ((s.commitSplit e.2 e.1 v).1.emit (s.commitSplit e.2 e.1 v).2.2).1 ∧
      s.RestsAs s₂ ∧ s₂.elements = put key v s.elements := by
  obtain ⟨a, b, hcut, -, -⟩ := lookupPut_eq_some he
  have hmem : e ∈ s.entries := by simp [hcut]
  have hne := hs.ne_nil hmem
  have hcommit : s.commit (.split e.2 e.1 v) =
      some ((s.commitSplit e.2 e.1 v).1, .ok (s.commitSplit e.2 e.1 v).2) := by
    rcases s.commit_split_cases e.2 e.1 v with ⟨hnot, -⟩ | ⟨_, _, _, -, -, -, hcase⟩
    · exact absurd ⟨e, hmem, rfl, rfl⟩ hnot
    · exact (hcase.resolve_left fun hc => hne hc.2.1).2
  obtain ⟨hrests, helems, hold⟩ := commitSplit_restsAs hs he
  obtain ⟨hemit, helemsEmit⟩ := hrests.emit (s.commitSplit e.2 e.1 v).2.2
  rw [show (s.commitSplit e.2 e.1 v).2 = (find key (key v) s.elements,
    (s.commitSplit e.2 e.1 v).2.2) from Prod.ext hold rfl] at hcommit
  exact ⟨_, commitDeferred_ok cdc hcommit, rfl, hemit, helemsEmit.trans helems⟩

/-- What a call of `put_cdc_checked` by one thread does to a set at rest: it stores the
value, or finds an equal element in a node that has room and leaves the set alone. -/
inductive PutChecked (s : BTreeSet M T) (v : T) : BTreeSet M T → PutResult T → Prop where
  /-- The value is stored; the element that it took the place of is returned. -/
  | stored {s' : BTreeSet M T} {cdc : List (ChangeEvent T)} :
      s.RestsAs s' → s'.elements = put key v s.elements →
      (find key (key v) s.elements ≠ none →
        ∃ e, s.lookupPut (key v) = some e ∧ s.nodeCapacity ≤ (s.nodes e.2).length) →
      PutChecked s v s' (.ok (find key (key v) s.elements) cdc)
  /-- The call comes back with the node of the equal element locked. -/
  | refused {e : T × NodeId} {a b : List T} {x m : T} :
      s.lookupPut (key v) = some e → (s.nodes e.2).length < s.nodeCapacity →
      s.nodes e.2 = a ++ x :: b → key x = key v → Below key a (key v) →
      Above key (key v) b → find key (key v) s.elements = some x →
      PutChecked s v s (.err e.2 a.length m)

/-- **`put_cdc_checked` alone** returns in its first round, except that an empty set whose index
lock is poisoned, or whose capacity cannot be allocated, has no way to its first node. -/
theorem putCdcChecked_spec (hs : s.AtRest) (fuel : ℕ) (v : T)
    (h : s.entries = [] → s.poisoned = false ∧ s.Allocates) :
    ∃ s' r, s.putCdcChecked (fuel + 1) v = some (s', r) ∧ s.PutChecked v s' r := by
  cases he : s.lookupPut (key v) with
  | none =>
    have hnil := lookupPut_eq_none.mp he
    obtain ⟨s', hins, hcreated, -⟩ := s.insertFirst_spec v
    have hnone : find key (key v) s.elements = none := by
      rw [(hcreated.coherent hnil).2.2.1]
      rfl
    obtain ⟨hrests, helems⟩ := hcreated.restsAs hs hnil
    refine ⟨s', .ok none (s.emit [.createNode v]).2, ?_, ?_⟩
    · obtain ⟨hunpoisoned, hfits⟩ := h hnil
      simp [putCdcChecked, he, firstNode_of_allocates hfits, hunpoisoned, hins]
    · rw [← hnone]
      exact .stored hrests helems fun hsome => absurd hnone hsome
  | some e =>
    have hfind := hs.coherent.find_elements he
    obtain ⟨s₁, outcome, heval, hedit⟩ := s.putEdit_spec e v (hs.sorted e.2)
    obtain ⟨_, _, hcut, -, -⟩ := lookupPut_eq_some he
    have hne := hs.ne_nil (e := e) (by simp [hcut])
    cases hedit with
    | full hfull =>
      obtain ⟨s₂, hcommit, -, hrests, helems⟩ := split_spec hs [] he
      have hput : s.putCdcChecked (fuel + 1) v = some (s₂, .ok (find key (key v) s.elements)
          ([] ++ ((s.commitSplit e.2 e.1 v).1.emit (s.commitSplit e.2 e.1 v).2.2).2)) := by
        simp only [putCdcChecked, he, heval, hcommit]
      exact ⟨s₂, _, hput, .stored hrests helems fun _ => ⟨e, he, hfull⟩⟩
    | @added a b _ cdc hroom hl ha hb hin hemit =>
      have hput : put key v (s.nodes e.2) = a ++ v :: b := by rw [hl, put_gap ha hb]
      have hnone : find key (key v) s.elements = none := by rw [hfind, hl, find_gap ha hb]
      have hlen := (length_put_bounds v (hs.sorted e.2)).2
      have hmax : maxKey key (put key v (s.nodes e.2)) = maxKey key (s.nodes e.2) := by
        rw [hput]
        exact maxKey_put_inside hl (hin.resolve_left hne)
      obtain ⟨hrests, helems⟩ :=
        (hput ▸ wrote_emit hemit).restsAs_put hs he hmax (by omega)
      refine ⟨s₁, .ok none cdc, by simp [putCdcChecked, he, heval], ?_⟩
      rw [← hnone]
      exact .stored hrests helems fun hsome => absurd hnone hsome
    | @raised m _ cdc hroom hm hbelow hemit =>
      obtain ⟨hcommit, hrests, helems⟩ :=
        raised_spec hs cdc he hm hbelow hroom (wrote_emit hemit)
      have hnone : find key (key v) s.elements = none := by
        rw [hfind]
        exact find_eq_none.mpr hbelow.ne
      refine ⟨s₁.rekeyState e.2 m v, .ok none cdc,
        by simp [putCdcChecked, he, heval, hcommit], ?_⟩
      rw [← hnone]
      exact .stored hrests helems fun hsome => absurd hnone hsome
    | @present a b x m hroom hl hx ha hb hm =>
      refine ⟨s, _, by simp [putCdcChecked, he, heval],
        .refused (m := m) he hroom hl hx ha hb ?_⟩
      rw [hfind, hl, find_hit hx ha]

/-- **A put alone** stores the value, returns what it took the place of, and leaves the set
at rest, whatever the capacity that can be allocated; one round of the loop is enough. -/
theorem putCdc_spec (hs : s.Settled) (hfits : s.Allocates) (fuel : ℕ) (v : T) :
    ∃ s' cdc, s.putCdc (fuel + 1) v = some (s', find key (key v) s.elements, cdc) ∧
      s'.Settled ∧ s.SameBuild s' ∧ s'.elements = put key v s.elements := by
  obtain ⟨s₁, r, heval, hput⟩ := putCdcChecked_spec hs.atRest fuel v fun _ =>
    ⟨hs.unpoisoned, hfits⟩
  cases hput with
  | @stored _ cdc hrests helems _ =>
    exact ⟨s₁, cdc, by simp [putCdc, heval], hrests.settled hs, hrests.sameBuild, helems⟩
  | @refused e a b x m he hroom hl hx ha hb hsome =>
    obtain ⟨s', cdc, _, hrepl, hwrote, -⟩ := s.putReplace_spec e.2 m v hl
    have hput : put key v (s.nodes e.2) = a ++ v :: b := by rw [hl, put_hit hx ha hb]
    have hlen := (length_put_bounds v (hs.atRest.sorted e.2)).2
    have hmax : maxKey key (put key v (s.nodes e.2)) = maxKey key (s.nodes e.2) := by
      rw [hput]
      exact maxKey_replace hl hx
    rw [← hput] at hwrote
    obtain ⟨hrests, helems⟩ := hwrote.restsAs_put hs.atRest he hmax (by omega)
    exact ⟨s', cdc, by simp [putCdc, heval, hrepl, hsome], hrests.settled hs,
      hrests.sameBuild, helems⟩

end Put

/-! ## §3 One remove -/

section Remove

variable {s : BTreeSet M T}

/-- At rest nothing is stored above every index key. -/
theorem AtRest.find_eq_none_of_lookupRemove (hs : s.AtRest) {q : K}
    (h : s.lookupRemove q = none) : find key q s.elements = none := by
  cases he : s.lookupPut q with
  | none =>
    rw [elements, view, lookupPut_eq_none.mp he]
    rfl
  | some e =>
    rw [hs.coherent.find_elements he]
    obtain ⟨_, _, hcut, -, -⟩ := lookupPut_eq_some he
    have hmem : e ∈ s.entries := by simp [hcut]
    have hlt := lookupRemove_eq_none.mp h e hmem
    obtain ⟨hle, _⟩ := (hs.sorted e.2).le_maxKey (hs.exact e hmem)
    exact find_eq_none.mpr fun x hx => (lt_of_le_of_lt (hle x hx) hlt).ne

/-- An element removed without a commit. -/
theorem Wrote.restsAs_erase {s' : BTreeSet M T} {e : T × NodeId} {q : K}
    (h : s.Wrote e.2 (erase key q (s.nodes e.2)) s') (hs : s.AtRest)
    (he : s.lookupPut q = some e)
    (hmax : maxKey key (erase key q (s.nodes e.2)) = maxKey key (s.nodes e.2)) :
    s.RestsAs s' ∧ s'.elements = erase key q s.elements := by
  have ⟨hcoh, helems⟩ := h.coherent_erase hs.coherent he
  obtain ⟨_, _, hcut, -, -⟩ := lookupPut_eq_some he
  refine ⟨⟨⟨hcoh, h.sorted hs.sorted (erase_ascending (hs.sorted e.2)), h.exact hs.exact hmax⟩,
    h.sameBuild, h.poisoned, fun hb => h.bounded hb ?_⟩, helems⟩
  exact Nat.le_trans (List.length_filter_le ..) (hb e (by simp [hcut]))

/-- The maximum of a node removed. -/
theorem lowered_spec (hs : s.AtRest) {x : T} {l : List T} {e : T × NodeId} {s₁ : BTreeSet M T}
    (cdc : List (ChangeEvent T)) (he : s.lookupPut (key x) = some e)
    (hl : s.nodes e.2 = l ++ [x]) (hne : l ≠ []) (h : s.Wrote e.2 l s₁) :
    ∃ m, l.getLast? = some m ∧ s₁.commitDeferred (.updateMax e.2 x) cdc =
        some (s₁.rekeyState e.2 x m, some (none, cdc)) ∧
      s.RestsAs (s₁.rekeyState e.2 x m) ∧
      (s₁.rekeyState e.2 x m).elements = erase key (key x) s.elements := by
  have hasc := hs.sorted e.2
  rw [hl] at hasc
  obtain ⟨hascl, _, hbelow, _⟩ := ascending_append_cons.mp hasc
  have herase : erase key (key x) (s.nodes e.2) = l := by
    rw [hl, erase_hit rfl hbelow (above_nil _), List.append_nil]
  obtain ⟨a, b, hcut, -, -⟩ := lookupPut_eq_some he
  obtain ⟨hcoh, helems⟩ := (herase.symm ▸ h).coherent_erase hs.coherent he
  obtain ⟨l', m, rfl⟩ := (List.eq_nil_or_concat' l).resolve_left hne
  rw [← helems]
  refine ⟨m, List.getLast?_concat .., ?_⟩
  apply rekeyed_spec hs cdc hcut (by rw [hl, maxKey_concat]) h hcoh hascl
  · intro hb
    have hlen := hb e (by simp [hcut])
    rw [hl, List.length_append] at hlen
    omega
  · exact (hbelow m (by simp)).ne

/-- The only element of a node removed: the commit takes the node out of the index. -/
theorem emptied_spec (hs : s.AtRest) {x : T} {e : T × NodeId} (cdc : List (ChangeEvent T))
    (he : s.lookupPut (key x) = some e) (hl : s.nodes e.2 = [x]) :
    ∃ s₂, (s.setNode e.2 []).commitDeferred (.makeUnreachable e.2 x) cdc =
        some (s₂, some (none, cdc ++ (((s.setNode e.2 []).dropState x).emit
          (if s.cdc then [.removeNode x] else [])).2)) ∧
      s₂ = (((s.setNode e.2 []).dropState x).emit (if s.cdc then [.removeNode x] else [])).1 ∧
      s.RestsAs s₂ ∧ s₂.elements = erase key (key x) s.elements := by
  have hwrote : s.Wrote e.2 [] (s.setNode e.2 []) :=
    ⟨rfl, rfl, rfl, rfl, rfl, rfl, rfl⟩
  have herase : erase key (key x) (s.nodes e.2) = [] := by simp [hl, erase]
  obtain ⟨a, b, hcut, -, -⟩ := lookupPut_eq_some he
  have hexact := hs.exact e (by simp [hcut])
  have hkey : key e.1 = key x := by
    rw [Exact, hl] at hexact
    exact (Option.some.inj hexact).symm
  have hcut₁ : (s.setNode e.2 []).entries = a ++ e :: b := hcut
  have hwrote' : s.Wrote e.2 (erase key (key x) (s.nodes e.2)) (s.setNode e.2 []) := by
    rw [herase]
    exact hwrote
  obtain ⟨hcoh, helems⟩ := hwrote'.coherent_erase hs.coherent he
  have hsorted := hwrote.sorted hs.sorted ascending_nil
  have hnode : (s.setNode e.2 []).nodes e.2 = [] := by simp [setNode]
  have hcommit : (s.setNode e.2 []).commit (.makeUnreachable e.2 x) =
      some ((s.setNode e.2 []).dropState x, .ok (none,
        if (s.setNode e.2 []).cdc then [.removeNode x] else [])) := by
    rcases (s.setNode e.2 []).commit_makeUnreachable_cases e.2 x with ⟨hnot, -⟩ |
      ⟨_, _, _, -, -, -, ⟨k, hk, -⟩ | ⟨-, hcase⟩⟩
    · exact absurd ⟨e, by simp [hcut₁], rfl, hkey⟩ hnot
    · rw [hnode] at hk
      cases hk
    · exact hcase
  have hother : ∀ p ∈ a ++ b, (s.setNode e.2 []).nodes p.2 = s.nodes p.2 := fun p hp =>
    Function.update_of_ne (hs.coherent.ne_of_cut hcut p hp) _ _
  obtain ⟨hrest, hentries, helems'⟩ := AtRest.of_drop hcoh hsorted hcut₁ hkey fun p hp => by
    rw [Exact, hother p hp]
    exact hs.exact p (mem_of_cut hcut hp)
  have hrests : s.RestsAs ((s.setNode e.2 []).dropState x) := by
    refine ⟨hrest, ⟨rfl, rfl, rfl⟩, rfl, fun hb p hp => ?_⟩
    rw [hentries] at hp
    have hbound := hb p (mem_of_cut hcut hp)
    rw [← hother p hp] at hbound
    exact hbound
  obtain ⟨hemit, helemsEmit⟩ := hrests.emit
    (if (s.setNode e.2 []).cdc then [.removeNode x] else [])
  exact ⟨_, commitDeferred_ok cdc hcommit, rfl, hemit,
    helemsEmit.trans ((helems' hnode).trans helems)⟩

/-- **A remove alone** takes exactly the equal element and leaves the set at rest. -/
theorem removeCdc_spec (hs : s.Settled) (q : K) :
    ∃ s' cdc, s.removeCdc q = some (s', find key q s.elements, cdc) ∧
      s'.Settled ∧ s.SameBuild s' ∧ s'.elements = erase key q s.elements := by
  have hmiss : find key q s.elements = none → ∀ s' : BTreeSet M T, s' = s →
      s'.Settled ∧ s.SameBuild s' ∧ s'.elements = erase key q s.elements := by
    rintro hnone s' rfl
    exact ⟨hs, .refl _, (erase_eq_self (find_eq_none.mp hnone)).symm⟩
  have hdone : ∀ s' : BTreeSet M T, s.RestsAs s' ∧ s'.elements = erase key q s.elements →
      s'.Settled ∧ s.SameBuild s' ∧ s'.elements = erase key q s.elements := fun _ h =>
    ⟨h.1.settled hs, h.1.sameBuild, h.2⟩
  cases hrem : s.lookupRemove q with
  | none =>
    have hnone := hs.atRest.find_eq_none_of_lookupRemove hrem
    exact ⟨s, [], by simp [removeCdc, hrem, hnone], hmiss hnone s rfl⟩
  | some e =>
    have he := lookupPut_of_lookupRemove hrem
    have hfind := hs.atRest.coherent.find_elements he
    obtain ⟨s₁, outcome, heval, hedit⟩ := s.removeEdit_spec e q (hs.atRest.sorted e.2)
    have hasc := hs.atRest.sorted e.2
    cases hedit with
    | absent habsent =>
      have hnone : find key q s.elements = none := hfind.trans (find_eq_none.mpr habsent)
      exact ⟨s, [], by simp [removeCdc, hrem, heval, hnone], hmiss hnone s rfl⟩
    | @inside a b x m _ cdc hl hx hb hm hemit =>
      rw [hl] at hasc
      have ⟨_, _, hlow, hhigh⟩ := ascending_append_cons.mp hasc
      have herase : erase key q (s.nodes e.2) = a ++ b := by
        rw [hl, ← hx, erase_hit rfl hlow hhigh]
      have hsome : find key q s.elements = some x := by
        rw [hfind, hl, ← hx, find_hit rfl hlow]
      have hwrote := herase ▸ wrote_emit hemit
      refine ⟨s₁, cdc, by simp [removeCdc, hrem, heval, hsome],
        hdone s₁ (hwrote.restsAs_erase hs.atRest he ?_)⟩
      rw [herase, hl, maxKey_append_of_ne_nil a hb,
        maxKey_append_of_ne_nil a (b := x :: b) (by simp),
        show x :: b = [x] ++ b from rfl, maxKey_append_of_ne_nil [x] hb]
    | @lowered a x _ cdc hl hx ha hemit =>
      subst hx
      rw [hl] at hasc
      have hsome : find key (key x) s.elements = some x := by
        rw [hfind, hl, find_hit rfl (ascending_append_cons.mp hasc).2.2.1]
      obtain ⟨m, -, hcommit, hrest⟩ := lowered_spec hs.atRest cdc he hl ha (wrote_emit hemit)
      exact ⟨s₁.rekeyState e.2 x m, cdc, by simp [removeCdc, hrem, heval, hcommit, hsome],
        hdone _ hrest⟩
    | @emptied x hl hx =>
      subst hx
      have hsome : find key (key x) s.elements = some x := by
        rw [hfind, hl]
        exact find_hit (a := []) rfl (below_nil _)
      obtain ⟨s₂, hcommit, -, hrest⟩ := emptied_spec hs.atRest [] he hl
      have hremove : s.removeCdc (key x) = some (s₂, find key (key x) s.elements,
          [] ++ (((s.setNode e.2 []).dropState x).emit
            (if s.cdc then [.removeNode x] else [])).2) := by
        simp only [removeCdc, hrem, heval, hcommit, hsome]
      exact ⟨s₂, _, hremove, hdone s₂ hrest⟩

end Remove

end BTreeSet

/-! ## §4 Sequences of calls -/

/-- A call on the set; `put` is the `put_cdc` behind `insert` and behind the map's `insert`. -/
inductive Op (T K : Type) where
  | insert (value : T)
  | put (value : T)
  | remove (value : K)
  | contains (value : K)
  | get (value : K)
  | len

/-- A call on the map. -/
inductive MapOp (Q V K : Type) where
  | insert (k : Q) (value : V)
  | remove (k : K)
  | containsKey (k : K)
  | get (k : K)
  | len

/-- What a call answers. -/
inductive Answer (T : Type) where
  | flag (b : Bool)
  | element (x : Option T)
  | size (n : ℕ)

/-- What a call on the map answers. -/
inductive MapAnswer (Q V : Type) where
  | flag (b : Bool)
  | value (v : Option V)
  | removed (entry : Option (Q × V))
  | pair (p : Option (Pair Q V))
  | size (n : ℕ)

/-- The call on the concurrent set. -/
def Op.exec (fuel : ℕ) (s : BTreeSet M T) : Op T K → Option (BTreeSet M T × Answer T)
  | .insert v => (s.insert fuel v).map fun r => (r.1, .flag r.2)
  | .put v => (s.putCdc fuel v).map fun r => (r.1, .element r.2.1)
  | .remove q => (s.remove q).map fun r => (r.1, .element r.2)
  | .contains q => some (s, .flag (s.contains q))
  | .get q => some (s, .element (s.get q))
  | .len => some (s, .size s.len)

/-- The call stores a value. -/
def Op.Inserts : Op T K → Prop
  | .insert _ => True
  | .put _ => True
  | _ => False

instance : ∀ op : Op T K, Decidable op.Inserts
  | .insert _ => isTrue trivial
  | .put _ => isTrue trivial
  | .remove _ => isFalse id
  | .contains _ => isFalse id
  | .get _ => isFalse id
  | .len => isFalse id

/-- The same call on a sorted list. -/
def Op.reference (l : List T) : Op T K → List T × Answer T
  | .insert v => (KeyedList.put key v l, .flag (find key (key v) l).isNone)
  | .put v => (KeyedList.put key v l, .element (find key (key v) l))
  | .remove q => (erase key q l, .element (find key q l))
  | .contains q => (l, .flag (find key q l).isSome)
  | .get q => (l, .element (find key q l))
  | .len => (l, .size l.length)

section Map

variable {Q V : Type} [Keyed Q K] [LawfulSkipMap M (Pair Q V) K]

/-- The call on the concurrent map. -/
def MapOp.exec (fuel : ℕ) (m : BTreeMap M Q V) :
    MapOp Q V K → Option (BTreeMap M Q V × MapAnswer Q V)
  | .insert k v => (m.insert fuel k v).map fun r => (r.1, .value r.2)
  | .remove k => (m.remove k).map fun r => (r.1, .removed r.2)
  | .containsKey k => some (m, .flag (m.containsKey k))
  | .get k => some (m, .pair (m.get k))
  | .len => some (m, .size m.len)

/-- The call stores a pair. -/
def MapOp.Inserts : MapOp Q V K → Prop
  | .insert _ _ => True
  | _ => False

instance : ∀ op : MapOp Q V K, Decidable op.Inserts
  | .insert _ _ => isTrue trivial
  | .remove _ => isFalse id
  | .containsKey _ => isFalse id
  | .get _ => isFalse id
  | .len => isFalse id

/-- The same call on a list of pairs sorted by key. -/
def MapOp.reference (l : List (Pair Q V)) : MapOp Q V K → List (Pair Q V) × MapAnswer Q V
  | .insert k v => (put key ⟨k, v⟩ l, .value ((find key (key k) l).map Pair.value))
  | .remove k => (erase key k l, .removed ((find key k l).map fun p => (p.key, p.value)))
  | .containsKey k => (l, .flag (find key k l).isSome)
  | .get k => (l, .pair (find key k l))
  | .len => (l, .size l.length)

end Map

/-- Calls one after another, with their answers. -/
def execAll {σ α β : Type} (exec : σ → α → Option (σ × β)) : σ → List α → Option (σ × List β)
  | s, [] => some (s, [])
  | s, op :: ops => do
    let (s, answer) ← exec s op
    let (s, answers) ← execAll exec s ops
    return (s, answer :: answers)

/-- The reference run. -/
def referenceAll {σ α β : Type} (reference : σ → α → σ × β) : σ → List α → σ × List β
  | l, [] => (l, [])
  | l, op :: ops =>
    let (l, answer) := reference l op
    let (l, answers) := referenceAll reference l ops
    (l, answer :: answers)

/-- A step-by-step simulation lifts to whole runs. -/
theorem execAll_refines {σ τ α β : Type} {exec : σ → α → Option (σ × β)}
    {reference : τ → α → τ × β} {R : σ → τ → Prop} (ops : List α)
    (hstep : ∀ s l, ∀ op ∈ ops, R s l → ∃ s', exec s op = some (s', (reference l op).2) ∧
      R s' (reference l op).1) (s : σ) (l : τ) (h : R s l) :
    ∃ s', execAll exec s ops = some (s', (referenceAll reference l ops).2) ∧
      R s' (referenceAll reference l ops).1 := by
  induction ops generalizing s l with
  | nil => exact ⟨s, rfl, h⟩
  | cons op ops ih =>
    obtain ⟨s₁, heval, h₁⟩ := hstep s l op (List.mem_cons_self ..) h
    obtain ⟨s', hrest, h'⟩ :=
      ih (fun s l op hop => hstep s l op (List.mem_cons_of_mem _ hop)) s₁ _ h₁
    exact ⟨s', by simp [execAll, referenceAll, heval, hrest], h'⟩

/-- A state that every call leaves as it is, or panics on, does not outlast a call that panics. -/
theorem execAll_eq_none {σ α β : Type} {exec : σ → α → Option (σ × β)} {s : σ} {P : α → Prop}
    (hpanic : ∀ op, P op → exec s op = none)
    (hstay : ∀ op, ¬ P op → ∃ answer, exec s op = some (s, answer)) {ops : List α}
    (h : ∃ op ∈ ops, P op) : execAll exec s ops = none := by
  induction ops with
  | nil => simp at h
  | cons op ops ih =>
    by_cases hop : P op
    · simp [execAll, hpanic op hop]
    · obtain ⟨answer, heval⟩ := hstay op hop
      have hrest : ∃ op ∈ ops, P op := by
        obtain ⟨x, hx, hP⟩ := h
        rcases List.mem_cons.mp hx with rfl | hx
        · exact absurd hP hop
        · exact ⟨x, hx, hP⟩
      simp [execAll, heval, ih hrest]

/-- A state that every call panics on, or leaves as it is with the same answer, is the one that is
reached. -/
theorem execAll_of_stays {σ α β : Type} {exec : σ → α → Option (σ × β)} {s : σ} {answer : β}
    (hstay : ∀ op, exec s op = none ∨ exec s op = some (s, answer)) {ops : List α} {r : σ × List β}
    (h : execAll exec s ops = some r) : r = (s, ops.map fun _ => answer) := by
  induction ops generalizing r with
  | nil => exact (Option.some.inj h).symm
  | cons op ops ih =>
    rcases hstay op with hnone | hsome
    · simp [execAll, hnone] at h
    · cases hrest : execAll exec s ops with
      | none => simp [execAll, hsome, hrest] at h
      | some r₁ =>
        obtain rfl := ih hrest
        simpa [execAll, hsome, hrest] using h.symm

namespace BTreeSet

theorem withMaximumNodeSize_settled (cdc : Bool) (elementSize capacity : ℕ) :
    (withMaximumNodeSize cdc elementSize capacity : BTreeSet M T).Settled ∧
      (withMaximumNodeSize cdc elementSize capacity : BTreeSet M T).elements = [] := by
  have ⟨hrest, hempty⟩ := withMaximumNodeSize_atRest (M := M) (T := T) cdc elementSize capacity
  have hentries := withMaximumNodeSize_entries (M := M) (T := T) cdc elementSize capacity
  exact ⟨⟨hrest, by simp [Bounded, hentries], rfl⟩, hempty⟩

/-- One call on a settled set. -/
theorem Settled.exec {s : BTreeSet M T} (hs : s.Settled) (fuel : ℕ) (op : Op T K)
    (hfits : op.Inserts → s.Allocates) :
    ∃ s', op.exec (fuel + 1) s = some (s', (op.reference s.elements).2) ∧ s'.Settled ∧
      s.SameBuild s' ∧ s'.elements = (op.reference s.elements).1 := by
  cases op with
  | insert v =>
    obtain ⟨s', cdc, heval, hrest⟩ := putCdc_spec hs (hfits trivial) fuel v
    exact ⟨s', by simp [Op.exec, insert, heval, Op.reference], hrest⟩
  | put v =>
    obtain ⟨s', cdc, heval, hrest⟩ := putCdc_spec hs (hfits trivial) fuel v
    exact ⟨s', by simp [Op.exec, heval, Op.reference], hrest⟩
  | remove q =>
    obtain ⟨s', cdc, heval, hrest⟩ := removeCdc_spec hs q
    exact ⟨s', by simp [Op.exec, remove, heval, Op.reference], hrest⟩
  | contains q =>
    exact ⟨s, by simp [Op.exec, Op.reference, contains_eq hs.atRest.coherent hs.atRest.sorted],
      hs, .refl s, rfl⟩
  | get q =>
    exact ⟨s, by simp [Op.exec, Op.reference, get_eq_find hs.atRest.coherent hs.atRest.sorted],
      hs, .refl s, rfl⟩
  | len => exact ⟨s, by simp [Op.exec, Op.reference, len_eq], hs, .refl s, rfl⟩

end BTreeSet

/-- One call on a settled map. -/
theorem BTreeMap.exec_settled {Q V : Type} [Keyed Q K] [LawfulSkipMap M (Pair Q V) K]
    {m : BTreeMap M Q V} (hm : m.set.Settled) (fuel : ℕ) (op : MapOp Q V K)
    (hfits : op.Inserts → m.set.Allocates) :
    ∃ m', op.exec (fuel + 1) m = some (m', (op.reference m.set.elements).2) ∧ m'.set.Settled ∧
      m.set.SameBuild m'.set ∧ m'.set.elements = (op.reference m.set.elements).1 := by
  cases op with
  | insert k v =>
    obtain ⟨s', cdc, heval, hrest⟩ := BTreeSet.putCdc_spec hm (hfits trivial) fuel ⟨k, v⟩
    exact ⟨⟨s'⟩, by simp [MapOp.exec, insert, heval, MapOp.reference, Pair.key_eq], hrest⟩
  | remove k =>
    obtain ⟨s', cdc, heval, hrest⟩ := BTreeSet.removeCdc_spec hm k
    exact ⟨⟨s'⟩, by simp [MapOp.exec, remove, BTreeSet.remove, heval, MapOp.reference], hrest⟩
  | containsKey k =>
    exact ⟨m, by simp [MapOp.exec, containsKey, MapOp.reference,
      BTreeSet.contains_eq hm.atRest.coherent hm.atRest.sorted], hm, .refl _, rfl⟩
  | get k =>
    exact ⟨m, by simp [MapOp.exec, get, MapOp.reference,
      BTreeSet.get_eq_find hm.atRest.coherent hm.atRest.sorted], hm, .refl _, rfl⟩
  | len =>
    exact ⟨m, by simp [MapOp.exec, len, MapOp.reference, BTreeSet.len_eq], hm, .refl _, rfl⟩

/-! ## §5 A capacity that cannot be allocated -/

section Overflow

namespace BTreeSet

variable {s : BTreeSet M T}

/-- The first insertion panics. -/
theorem putCdc_overflow (hnil : s.entries = []) (hfits : ¬ s.Allocates) (fuel : ℕ) (v : T) :
    s.putCdc fuel v = none := by
  have hchecked : s.putCdcChecked fuel v = none := by
    cases fuel with
    | zero => rfl
    | succ fuel =>
      simp [putCdcChecked, lookupPut_eq_none.mpr hnil, firstNode_eq_none.mpr hfits]
  simp [putCdc, hchecked]

theorem removeCdc_of_empty (hnil : s.entries = []) (q : K) :
    s.removeCdc q = some (s, none, []) := by
  have hlookup : s.lookupRemove q = none :=
    lookupRemove_eq_none.mpr (by simp [hnil])
  simp [removeCdc, hlookup]

end BTreeSet

theorem Op.exec_overflow {s : BTreeSet M T} (hnil : s.entries = []) (hfits : ¬ s.Allocates)
    (fuel : ℕ) (op : Op T K) (hop : op.Inserts) : op.exec fuel s = none := by
  have hput := BTreeSet.putCdc_overflow hnil hfits fuel
  cases op with
  | insert v => simp [Op.exec, BTreeSet.insert, hput]
  | put v => simp [Op.exec, hput]
  | _ => exact hop.elim

theorem Op.exec_of_empty {s : BTreeSet M T} (hnil : s.entries = []) (fuel : ℕ) (op : Op T K)
    (hop : ¬ op.Inserts) : ∃ answer, op.exec fuel s = some (s, answer) := by
  cases op with
  | insert v => exact absurd trivial hop
  | put v => exact absurd trivial hop
  | remove q =>
    exact ⟨_, by simp [Op.exec, BTreeSet.remove, BTreeSet.removeCdc_of_empty hnil]; rfl⟩
  | contains q => exact ⟨_, rfl⟩
  | get q => exact ⟨_, rfl⟩
  | len => exact ⟨_, rfl⟩

variable {Q V : Type} [Keyed Q K] [LawfulSkipMap M (Pair Q V) K]

theorem MapOp.exec_overflow {m : BTreeMap M Q V} (hnil : m.set.entries = [])
    (hfits : ¬ m.set.Allocates) (fuel : ℕ) (op : MapOp Q V K) (hop : op.Inserts) :
    op.exec fuel m = none := by
  cases op with
  | insert k v =>
    simp [MapOp.exec, BTreeMap.insert, BTreeSet.putCdc_overflow hnil hfits fuel ⟨k, v⟩]
  | _ => exact hop.elim

theorem MapOp.exec_of_empty {m : BTreeMap M Q V} (hnil : m.set.entries = []) (fuel : ℕ)
    (op : MapOp Q V K) (hop : ¬ op.Inserts) : ∃ answer, op.exec fuel m = some (m, answer) := by
  cases op with
  | insert k v => exact absurd trivial hop
  | remove k =>
    have hremove : m.remove k = some (m, none) := by
      simp [BTreeMap.remove, BTreeSet.remove, BTreeSet.removeCdc_of_empty hnil]
    exact ⟨_, by rw [MapOp.exec, hremove]; rfl⟩
  | containsKey k => exact ⟨_, rfl⟩
  | get k => exact ⟨_, rfl⟩
  | len => exact ⟨_, rfl⟩

end Overflow

/-- **Sequential correctness**: any calls one after another on an empty set or map are answered
as by the sorted list, leave the same elements, and end at rest with node sizes within bounds,
exactly when a node of the capacity can be allocated or nothing is inserted. -/
theorem sequential_refines_iff {M' Q V : Type} [Keyed Q K] [LawfulSkipMap M' (Pair Q V) K]
    (cdc : Bool) (elementSize capacity fuel : ℕ) :
    (∀ ops : List (Op T K),
      (∃ s' : BTreeSet M T,
        execAll (Op.exec (fuel + 1)) (BTreeSet.withMaximumNodeSize cdc elementSize capacity) ops =
            some (s', (referenceAll Op.reference [] ops).2) ∧
          s'.elements = (referenceAll Op.reference [] ops).1 ∧ s'.AtRest ∧
          ∀ e ∈ s'.entries, (s'.nodes e.2).length ≤ max capacity 2) ↔
        capacity * elementSize ≤ Node.isizeMax ∨ ∀ op ∈ ops, ¬ op.Inserts) ∧
    ∀ ops : List (MapOp Q V K),
      (∃ m' : BTreeMap M' Q V,
        execAll (MapOp.exec (fuel + 1)) (BTreeMap.withMaximumNodeSize cdc elementSize capacity)
            ops = some (m', (referenceAll MapOp.reference [] ops).2) ∧
          m'.set.elements = (referenceAll MapOp.reference [] ops).1 ∧ m'.set.AtRest ∧
          ∀ e ∈ m'.set.entries, (m'.set.nodes e.2).length ≤ max capacity 2) ↔
        capacity * elementSize ≤ Node.isizeMax ∨ ∀ op ∈ ops, ¬ op.Inserts := by
  constructor
  · intro ops
    have hnil := BTreeSet.withMaximumNodeSize_entries (M := M) (T := T) cdc elementSize capacity
    constructor
    · rintro ⟨s', heval, -⟩
      by_contra hnot
      push Not at hnot
      obtain ⟨hoverflow, hinserts⟩ := hnot
      have hfits : ¬ (BTreeSet.withMaximumNodeSize cdc elementSize capacity :
          BTreeSet M T).Allocates := Nat.not_le_of_lt hoverflow
      rw [execAll_eq_none (Op.exec_overflow hnil hfits (fuel + 1))
        (Op.exec_of_empty hnil (fuel + 1)) hinserts] at heval
      cases heval
    · intro hcond
      have hset := BTreeSet.withMaximumNodeSize_settled (M := M) (T := T) cdc elementSize capacity
      obtain ⟨s', heval, hs', hbuild, helems⟩ := execAll_refines
        (R := fun (s : BTreeSet M T) l => s.Settled ∧
          (BTreeSet.withMaximumNodeSize cdc elementSize capacity).SameBuild s ∧ s.elements = l) ops
        (fun s l op hop h => by
          obtain ⟨hs, hbuild, rfl⟩ := h
          obtain ⟨s', heval, hs', hbuild', helems⟩ := hs.exec fuel op fun hinserts =>
            hbuild.allocates (hcond.resolve_right fun hnone => hnone op hop hinserts)
          exact ⟨s', heval, hs', hbuild.trans hbuild', helems⟩)
        _ _ ⟨hset.1, .refl _, hset.2⟩
      have hcap : s'.nodeCapacity = capacity := hbuild.nodeCapacity
      exact ⟨s', heval, helems, hs'.atRest, hcap ▸ hs'.bounded⟩
  · intro ops
    have hnil := BTreeSet.withMaximumNodeSize_entries (M := M') (T := Pair Q V) cdc elementSize
      capacity
    constructor
    · rintro ⟨m', heval, -⟩
      by_contra hnot
      push Not at hnot
      obtain ⟨hoverflow, hinserts⟩ := hnot
      have hfits : ¬ (BTreeMap.withMaximumNodeSize cdc elementSize capacity :
          BTreeMap M' Q V).set.Allocates := Nat.not_le_of_lt hoverflow
      have hpanic : execAll (MapOp.exec (fuel + 1))
          (BTreeMap.withMaximumNodeSize cdc elementSize capacity : BTreeMap M' Q V) ops = none :=
        execAll_eq_none (MapOp.exec_overflow hnil hfits (fuel + 1))
          (MapOp.exec_of_empty hnil (fuel + 1)) hinserts
      rw [hpanic] at heval
      cases heval
    · intro hcond
      have hset := BTreeSet.withMaximumNodeSize_settled (M := M') (T := Pair Q V) cdc elementSize
        capacity
      obtain ⟨m', heval, hm', hbuild, helems⟩ := execAll_refines
        (R := fun (m : BTreeMap M' Q V) l => m.set.Settled ∧
          (BTreeSet.withMaximumNodeSize cdc elementSize capacity).SameBuild m.set ∧
          m.set.elements = l) ops
        (fun m l op hop h => by
          obtain ⟨hm, hbuild, rfl⟩ := h
          obtain ⟨m', heval, hm', hbuild', helems⟩ := BTreeMap.exec_settled hm fuel op
            fun hinserts =>
              hbuild.allocates (hcond.resolve_right fun hnone => hnone op hop hinserts)
          exact ⟨m', heval, hm', hbuild.trans hbuild', helems⟩)
        (BTreeMap.withMaximumNodeSize cdc elementSize capacity) _ ⟨hset.1, .refl _, hset.2⟩
      have hcap : m'.set.nodeCapacity = capacity := hbuild.nodeCapacity
      exact ⟨m', heval, helems, hm'.atRest, hcap ▸ hm'.bounded⟩

/-- The first insertion into a set of 64-bit numbers made with `usize::MAX` panics. -/
theorem first_insert_panics :
    (BTreeSet.withMaximumNodeSize false 8 (2 ^ 64 - 1) : BTreeSet (SortedIndex ℕ) ℕ).AtRest ∧
      ∀ fuel, execAll (Op.exec fuel)
        (BTreeSet.withMaximumNodeSize false 8 (2 ^ 64 - 1) : BTreeSet (SortedIndex ℕ) ℕ)
        [(.insert 5 : Op ℕ ℕ)] = none := by
  refine ⟨(BTreeSet.withMaximumNodeSize_atRest false 8 (2 ^ 64 - 1)).1, fun fuel => ?_⟩
  refine execAll_eq_none (P := Op.Inserts) (Op.exec_overflow ?_ (by decide) fuel)
    (Op.exec_of_empty ?_ fuel) ⟨_, List.mem_singleton_self _, trivial⟩ <;> rfl

end IndexSet.Concurrent
