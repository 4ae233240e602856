import IndexSet.Concurrent.EventIds
import IndexSet.Concurrent.Footprints
import IndexSet.Concurrent.NoLoss
import IndexSet.Concurrent.Quiescence
import IndexSet.Concurrent.Replay
import Mathlib.Algebra.Order.BigOperators.Group.List
import Mathlib.Algebra.Order.Group.Nat

/-!
# Replay of the Events of All Threads

The events of all threads, in the order of their identifiers, on an empty receiver, when no
key is inserted twice.  The receiver has every node of the index as it is, or as it was
before it was emptied (`Known`): the removal of the last element is told by the commit that
takes the node out of the index.

- `Informs`: a step and its events keep the receiver up to date;
- `Turn.informs`: every step does, under conditions on the state before it;
- `Told`: the invariant of a run, with who waits to insert a key and who waits to take an
  emptied node out of the index.

The conditions: no value goes into an emptied node, no node of one element is split, and no
commit leaves an inexact entry that nobody else answers for.  The code does not ensure them.
-/

namespace IndexSet.Concurrent

open KeyedList PersistedBTreeMap

variable {ι M T K : Type} [LinearOrder K] [Keyed T K] [LawfulSkipMap M T K]

namespace BTreeSet

variable {s s' s'' : BTreeSet M T} {held held' : NodeId → List T} {n : NodeId}
  {m m' base : PersistedBTreeMap K T} {added : Option K} {e : T × NodeId}
  {changes : List (ChangeEventUnassigned T)} {v x mx : T}

/-! ## §1 What the receiver knows -/

/-- **What the receiver knows**: `held` is what it has of each node, the contents of every
node that is not empty. -/
structure Known (s : BTreeSet M T) (held : NodeId → List T) (m : PersistedBTreeMap K T) :
    Prop where
  allocated : ∀ e ∈ s.entries, e.2 < s.nextNode
  filled : ∀ n, s.nodes n ≠ [] → held n = s.nodes n
  nonempty : ∀ e ∈ s.entries, held e.2 ≠ []
  apart : s.Apart held
  copies : s.Copies held m

/-- **A step keeps the receiver up to date**: its events take the copy to the new one, it
claims at most the key `added` in addition, and it does not touch the nodes that are empty. -/
structure Informs (s s' : BTreeSet M T) (held held' : NodeId → List T)
    (m m' : PersistedBTreeMap K T) (added : Option K) (changes : List (ChangeEventUnassigned T)) :
    Prop where
  report : m.persistAll changes = some m'
  known : s'.Known held' m'
  nextNode : s.nextNode ≤ s'.nextNode
  claimed : ∀ q, s'.Claimed held' q → s.Claimed held q ∨ added = some q
  emptied : ∀ n < s.nextNode, s.nodes n = [] → s'.nodes n = [] ∧ held' n = held n

/-- Of a new set there is nothing to know. -/
theorem known_empty (hentries : s.entries = []) (hnodes : ∀ n, s.nodes n = []) :
    s.Known (fun _ => []) empty := by
  have hnot : ∀ e, e ∉ s.entries := fun e he => by
    rw [hentries] at he
    cases he
  refine ⟨fun e he => absurd he (hnot e), fun n hn => absurd (hnodes n) hn,
    fun e he => absurd he (hnot e), fun e he => absurd he (hnot e), fun k l => ?_⟩
  refine iff_of_false (by simp [PersistedBTreeMap.empty]) ?_
  rintro ⟨e, he, -⟩
  exact hnot e he

/-- A step that changes nothing has nothing to tell. -/
theorem Known.informs (hk : s.Known held m) : s.Informs s held held m m none [] :=
  ⟨persistAll_nil, hk, le_rfl, fun _ => Or.inl, fun _ _ hnil => ⟨hnil, rfl⟩⟩

/-- The counter and the poison flag do not matter. -/
theorem Known.congr (hk : s.Known held m) (hindex : s'.index = s.index)
    (hnodes : s'.nodes = s.nodes) (hnext : s'.nextNode = s.nextNode) : s'.Known held m := by
  have hentries : s'.entries = s.entries := by rw [entries, entries, hindex]
  obtain ⟨halloc, hfilled, hnonempty, hapart, hcopies⟩ := hk
  refine ⟨?_, ?_, ?_, ?_, ?_⟩
  · rwa [hentries, hnext]
  · rwa [hnodes]
  · rwa [hentries]
  · rwa [Apart, hentries]
  · rwa [Copies, hentries]

theorem Informs.congr (h : s.Informs s' held held' m m' added changes)
    (hindex : s''.index = s'.index) (hnodes : s''.nodes = s'.nodes)
    (hnext : s''.nextNode = s'.nextNode) : s.Informs s'' held held' m m' added changes := by
  refine ⟨h.report, h.known.congr hindex hnodes hnext, hnext ▸ h.nextNode, fun q hq => ?_, ?_⟩
  · have hentries : s''.entries = s'.entries := by rw [entries, entries, hindex]
    refine h.claimed q ?_
    rwa [Claimed, ← hentries]
  · rw [hnodes]
    exact h.emptied

omit [LinearOrder K] [Keyed T K] [LawfulSkipMap M T K] in
/-- What a write puts into a node, the receiver has of it. -/
theorem filled_update {nodes : NodeId → List T} (h : ∀ k, nodes k ≠ [] → held k = nodes k)
    (items : List T) (k : NodeId) (hne : Function.update nodes n items k ≠ []) :
    Function.update held n items k = Function.update nodes n items k := by
  by_cases hkn : k = n
  · subst hkn
    simp
  · simp only [Function.update_of_ne hkn] at hne ⊢
    exact h k hne

/-- **One entry gives way to fresh ones**, and the events say what the fresh nodes hold. -/
theorem Known.swap {fresh : List (T × NodeId)} (hk : s.Known held m) (top : T × NodeId → K)
    (h : s.Swaps s' held held' n added fresh) (hbase : s.CopiesOthers held n base)
    (htop : ∀ e ∈ fresh, maxKey key (held' e.2) = some (top e))
    (hreport : m.persistAll changes = some (addNodes held' top fresh base))
    (hnext : s.nextNode ≤ s'.nextNode) (halloc : ∀ e ∈ fresh, e.2 < s'.nextNode)
    (hfilled : ∀ k, s'.nodes k ≠ [] → held' k = s'.nodes k)
    (hemptied : ∀ k < s.nextNode, s.nodes k = [] → s'.nodes k = [] ∧ held' k = held k) :
    s.Informs s' held held' m (addNodes held' top fresh base) added changes := by
  refine ⟨hreport, ⟨fun e he => ?_, hfilled, fun e he => ?_, h.keeps_apart hk.apart,
    h.copies hk.apart hbase htop⟩, hnext, fun q hq => h.claimed hq, hemptied⟩
  · rcases (h.mem e).mp he with hf | ⟨ho, -⟩
    · exact halloc e hf
    · exact lt_of_lt_of_le (hk.allocated e ho) hnext
  · rcases (h.mem e).mp he with hf | ⟨ho, hne⟩
    · intro hnil
      have hmax := htop e hf
      rw [hnil] at hmax
      cases hmax
    · rw [h.kept e ho hne]
      exact hk.nonempty e ho

/-- The entries of other nodes. -/
theorem Known.entry_ne (hk : s.Known held m) (he : e ∈ s.entries) {o : T × NodeId}
    (ho : o ∈ s.entries) : o ≠ e ↔ o.2 ≠ e.2 :=
  ⟨fun hne hnode => hne (hk.apart.entry_eq (hk.nonempty o ho) ho he hnode),
    fun hne hoe => hne (congrArg Prod.snd hoe)⟩

/-- The copy from one of its nodes, as it is now. -/
theorem Known.cut (hk : s.Known held m) (he : e ∈ s.entries)
    (hmx : (s.nodes e.2).getLast? = some mx) :
    ∃ base, s.CopiesOthers held e.2 base ∧ m = base.insert (key mx) (s.nodes e.2) ∧
      ∀ x ∈ s.nodes e.2, base.nodes (key x) = none := by
  have hheld : held e.2 = s.nodes e.2 :=
    hk.filled e.2 (List.ne_nil_of_mem (List.mem_of_getLast? hmx))
  obtain ⟨base, hbase, hm⟩ := hk.copies.cut hk.apart he (k := key mx)
    (by rw [hheld, maxKey_of_getLast? hmx])
  refine ⟨base, hbase, hheld ▸ hm, fun x hx => hbase.vacant (hk.apart.not_elsewhere he ?_)⟩
  exact Or.inr ⟨x, hheld ▸ hx, rfl⟩

/-! ## §2 Writes -/

/-- **A write to one node** that keeps some of its elements and adds at most one key: it is
enough that the events take the node from what it was to what it is, wherever it is. -/
theorem Known.wrote {items : List T} {k : K} (hk : s.Known held m) (he : e ∈ s.entries)
    (h : s.Wrote e.2 items s') (hmx : (s.nodes e.2).getLast? = some mx)
    (hmax : maxKey key items = some k)
    (hkeys : ∀ x ∈ items, x ∈ s.nodes e.2 ∨ added = some (key x))
    (hnew : ∀ q ∈ added, ¬ s.Claimed held q)
    (hreport : ∀ base : PersistedBTreeMap K T, (∀ x ∈ s.nodes e.2, base.nodes (key x) = none) →
      (base.insert (key mx) (s.nodes e.2)).persistAll changes = some (base.insert k items)) :
    ∃ held' m', s.Informs s' held held' m m' added changes := by
  have hne : s.nodes e.2 ≠ [] := List.ne_nil_of_mem (List.mem_of_getLast? hmx)
  have hheld : held e.2 = s.nodes e.2 := hk.filled e.2 hne
  obtain ⟨base, hbase, rfl, hvacant⟩ := hk.cut he hmx
  have hswaps : s.Swaps s' held (Function.update held e.2 items) e.2 added [e] := by
    refine ⟨fun o => ?_, fun o _ hoe => Function.update_of_ne hoe .., hnew, ?_, ?_⟩
    · rw [h.entries, List.mem_singleton]
      refine ⟨fun ho => ?_, fun ho => ho.elim (fun hoe => hoe ▸ he) And.left⟩
      exact or_iff_not_imp_left.mpr fun hoe => ⟨ho, (hk.entry_ne he ho).mp hoe⟩
    · intro o ho q hq
      obtain rfl := List.mem_singleton.mp ho
      rcases hq with hq | ⟨x, hx, rfl⟩
      · exact Or.inl ⟨o, he, rfl, Or.inl hq⟩
      · rw [Function.update_self] at hx
        refine (hkeys x hx).imp_left fun hx => ⟨o, he, rfl, Or.inr ⟨x, ?_, rfl⟩⟩
        rwa [hheld]
    · intro o ho o' ho' q _ _
      rw [List.mem_singleton.mp ho, List.mem_singleton.mp ho']
  have hreported := hreport base hvacant
  refine ⟨_, _, hk.swap (fun _ => k) hswaps hbase ?_ (hreported.trans ?_) h.nextNode.ge ?_
    ?_ ?_⟩
  · intro o ho
    rw [List.mem_singleton.mp ho, Function.update_self, hmax]
  · simp [addNodes]
  · intro o ho
    rw [List.mem_singleton.mp ho, h.nextNode]
    exact hk.allocated e he
  · intro j hj
    rw [h.nodes] at hj ⊢
    exact filled_update hk.filled items j hj
  · intro j _ hj
    have hje : j ≠ e.2 := fun hje => hne (hje ▸ hj)
    rw [h.nodes, Function.update_of_ne hje, Function.update_of_ne hje]
    exact ⟨hj, rfl⟩

/-- A value that goes in below the maximum. -/
theorem Known.added_below {a b : List T} (hk : s.Known held m) (he : e ∈ s.entries)
    (h : s.Wrote e.2 (a ++ v :: b) s') (hl : s.nodes e.2 = a ++ b) (hb : b ≠ [])
    (hv : Above key (key v) b) (hmx : (s.nodes e.2).getLast? = some mx)
    (hnew : ¬ s.Claimed held (key v)) :
    ∃ held' m', s.Informs s' held held' m m' (some (key v)) [.insertAt mx v a.length] := by
  have hle : key v ≤ key mx := by
    rw [hl, List.getLast?_append_of_ne_nil _ hb] at hmx
    exact (hv mx (List.mem_of_getLast? hmx)).le
  refine hk.wrote (k := key mx) he h hmx ?_ (fun x hx => ?_) (by simpa using hnew)
    fun base _ => ?_
  · rw [maxKey_put_inside hl hb, maxKey_of_getLast? hmx]
  · rw [hl]
    simp only [List.mem_append, List.mem_cons] at hx ⊢
    tauto
  · rw [persistAll_singleton, hl, persist_insertAt_inside hle]

/-- A value that becomes the maximum. -/
theorem Known.raised (hk : s.Known held m) (he : e ∈ s.entries)
    (h : s.Wrote e.2 (s.nodes e.2 ++ [v]) s') (hv : Below key (s.nodes e.2) (key v))
    (hmx : (s.nodes e.2).getLast? = some mx) (hnew : ¬ s.Claimed held (key v)) :
    ∃ held' m', s.Informs s' held held' m m' (some (key v))
      [.insertAt mx v (s.nodes e.2).length] := by
  have hmem := List.mem_of_getLast? hmx
  refine hk.wrote he h hmx (maxKey_concat ..) (fun x hx => ?_) (by simpa using hnew)
    fun base hbase => ?_
  · simp only [List.mem_append, List.mem_singleton] at hx
    exact hx.imp_right fun hxv => by rw [hxv]
  · rw [persistAll_singleton, persist_insertAt_raised (hbase mx hmem) (hv mx hmem)]

/-- An element removed that is not the maximum. -/
theorem Known.inside {a b : List T} (hk : s.Known held m) (he : e ∈ s.entries)
    (h : s.Wrote e.2 (a ++ b) s') (hl : s.nodes e.2 = a ++ x :: b) (hb : b ≠ [])
    (hx : Above key (key x) b) (hmx : (s.nodes e.2).getLast? = some mx) :
    ∃ held' m', s.Informs s' held held' m m' none [.removeAt mx x a.length] := by
  have hne : key mx ≠ key x := by
    rw [hl, show x :: b = [x] ++ b from rfl, ← List.append_assoc,
      List.getLast?_append_of_ne_nil _ hb] at hmx
    exact (hx mx (List.mem_of_getLast? hmx)).ne'
  refine hk.wrote (k := key mx) he h hmx ?_ (fun y hy => Or.inl ?_) (by simp) fun base _ => ?_
  · rw [← maxKey_put_inside rfl hb, ← hl, maxKey_of_getLast? hmx]
  · rw [hl]
    simp only [List.mem_append, List.mem_cons] at hy ⊢
    tauto
  · rw [persistAll_singleton, hl, persist_removeAt_inside hne]

/-- The maximum removed, with another element left. -/
theorem Known.lowered {a : List T} (hk : s.Known held m) (he : e ∈ s.entries)
    (h : s.Wrote e.2 a s') (hl : s.nodes e.2 = a ++ [x]) (ha : a ≠ []) :
    ∃ held' m', s.Informs s' held held' m m' none [.removeAt x x a.length] := by
  obtain ⟨l, y, rfl⟩ := (List.eq_nil_or_concat' a).resolve_left ha
  refine hk.wrote he h (by rw [hl, List.getLast?_concat]) (maxKey_concat ..)
    (fun z hz => Or.inl ?_) (by simp) fun base hbase => ?_
  · rw [hl]
    exact List.mem_append_left _ hz
  · rw [persistAll_singleton, hl,
      persist_removeAt_max (hbase x (by simp [hl])) rfl (List.getLast?_concat ..)]

/-- The only element removed: the receiver still has it. -/
theorem Known.emptied (hk : s.Known held m) (h : s.Wrote n [] s') :
    s.Informs s' held held m m none [] := by
  have hnode : ∀ j, s'.nodes j ≠ [] → s'.nodes j = s.nodes j := by
    intro j hj
    rw [h.nodes] at hj ⊢
    refine Function.update_of_ne (fun hjn => hj ?_) ..
    rw [hjn, Function.update_self]
  have hknown : s'.Known held m := by
    refine ⟨?_, fun j hj => ?_, ?_, ?_, ?_⟩
    · rw [h.entries, h.nextNode]
      exact hk.allocated
    · have hsame := hnode j hj
      rw [hsame] at hj ⊢
      exact hk.filled j hj
    · rw [h.entries]
      exact hk.nonempty
    · rw [Apart, h.entries]
      exact hk.apart
    · rw [Copies, h.entries]
      exact hk.copies
  refine ⟨persistAll_nil, hknown, h.nextNode.ge, fun q hq => Or.inl ?_, fun j _ hj => ⟨?_, rfl⟩⟩
  · rwa [Claimed, ← h.entries]
  · by_contra hne
    exact hne ((hnode j hne).trans hj)

/-! ## §3 Changes of the index -/

/-- **A first node**, also when the index is not empty any more. -/
theorem Known.first (hk : s.Known held m) (h : s.Created v s') (hnew : ¬ s.Claimed held (key v)) :
    (∃ held' m', s.Informs s' held held' m m' (some (key v)) [.createNode v]) ∧
      Settles s s' s.nextNode ∧ ∀ e ∈ s.entries, e ∈ s'.entries := by
  have hother : ∀ e ∈ s.entries, e.2 ≠ s.nextNode := fun e he => (hk.allocated e he).ne
  have hmem : ∀ e, e ∈ s'.entries ↔ e = (v, s.nextNode) ∨ e ∈ s.entries := by
    intro e
    rw [entries, h.index, LawfulSkipMap.iter_insert, mem_put]
    refine or_congr_right (and_iff_left_of_imp fun he heq => hnew ⟨e, he, Or.inl heq⟩)
  have hself : Function.update held s.nextNode [v] s.nextNode = [v] := Function.update_self ..
  have hswaps : s.Swaps s' held (Function.update held s.nextNode [v]) s.nextNode (some (key v))
      [(v, s.nextNode)] := by
    refine ⟨fun e => ?_, fun e _ hne => Function.update_of_ne hne .., by simpa using hnew, ?_, ?_⟩
    · rw [hmem, List.mem_singleton]
      exact or_congr_right (and_iff_left_of_imp (hother e)).symm
    · intro e he q hq
      obtain rfl := List.mem_singleton.mp he
      rcases hq with hq | ⟨x, hx, hxq⟩
      · exact Or.inr (congrArg some hq)
      · rw [hself, List.mem_singleton] at hx
        exact Or.inr (congrArg some (hx ▸ hxq))
    · intro e he e' he' q _ _
      rw [List.mem_singleton.mp he, List.mem_singleton.mp he']
  refine ⟨⟨_, _, hk.swap (fun _ => key v) hswaps
    (hk.copies.others hother) ?_ ?_
    ?_ ?_ ?_ ?_⟩, ?_, fun e he => (hmem e).mpr (Or.inr he)⟩
  · intro e he
    rw [List.mem_singleton.mp he, hself]
    rfl
  · rw [persistAll_singleton, persist_createNode, addNodes, List.foldr_cons, List.foldr_nil, hself]
  · rw [h.nextNode]
    exact Nat.le_succ _
  · intro e he
    rw [List.mem_singleton.mp he, h.nextNode]
    exact Nat.lt_succ_self _
  · intro j hj
    rw [h.nodes] at hj ⊢
    exact filled_update hk.filled [v] j hj
  · intro j hjn hj
    rw [h.nodes, Function.update_of_ne hjn.ne, Function.update_of_ne hjn.ne]
    exact ⟨hj, rfl⟩
  · intro p hp
    rcases (hmem p).mp hp with rfl | hp
    · exact Or.inl (by rw [Exact, h.nodes, Function.update_self]; rfl)
    · refine Or.inr ⟨hp, hother p hp, ?_⟩
      rw [h.nodes, Function.update_of_ne (hother p hp)]

/-- The entry that is registered under a key, among the others. -/
theorem Known.key_ne (hk : s.Known held m) (he : e ∈ s.entries) {p : T × NodeId}
    (hp : p ∈ s.entries) : key p.1 ≠ key e.1 ↔ p.2 ≠ e.2 :=
  ⟨fun hne hnode => hne (congrArg (fun o : T × NodeId => key o.1)
      (hk.apart.entry_eq (hk.nonempty p hp) hp he hnode)),
    fun hne hkey => hk.apart.not_elsewhere he (Or.inl rfl) ⟨p, hp, hne, Or.inl hkey⟩⟩

theorem mem_splitState {oldMax lo hi : T} {lower upper : List T} {p : T × NodeId} :
    p ∈ (s.splitState n oldMax (some lo) lower hi upper).entries ↔
      p = (hi, s.nextNode) ∨ (p = (lo, n) ∨ (p ∈ s.entries ∧ key p.1 ≠ key oldMax) ∧
        key p.1 ≠ key lo) ∧ key p.1 ≠ key hi := by
  simp only [entries, splitState, LawfulSkipMap.iter_insert, LawfulSkipMap.iter_remove, mem_put,
    mem_erase]
  rfl

/-- **The entry of a node gives way to those of its halves**, which hold what the node held,
and one more element. -/
theorem Known.swaps_split {oldMax lo hi : T} {lower upper : List T} (hk : s.Known held m)
    (he : e ∈ s.entries) (hne : s.nodes e.2 ≠ []) (hkey : key e.1 = key oldMax)
    (hmem : ∀ x ∈ lower ++ upper, x ∈ s.nodes e.2 ∨ x = v)
    (hacross : ∀ x ∈ lower, ∀ y ∈ upper, key x ≠ key y) (hlo : maxKey key lower = some (key lo))
    (hhi : maxKey key upper = some (key hi)) (hnew : ¬ s.Claimed held (key v)) :
    s.Swaps (s.splitState e.2 oldMax (some lo) lower hi upper) held
      (Function.update (Function.update held e.2 lower) s.nextNode upper) e.2 (some (key v))
      [(lo, e.2), (hi, s.nextNode)] := by
  have hheld : held e.2 = s.nodes e.2 := hk.filled e.2 hne
  have hnext : e.2 ≠ s.nextNode := (hk.allocated e he).ne
  -- each fresh entry claims the keys of its half, and no others
  have hclaimlo : ∀ q, Claims (Function.update (Function.update held e.2 lower) s.nextNode upper)
      (lo, e.2) q → ∃ x ∈ lower, key x = q := by
    rintro q (rfl | ⟨x, hx, hxq⟩)
    · exact mem_of_maxKey hlo
    · rw [Function.update_of_ne hnext, Function.update_self] at hx
      exact ⟨x, hx, hxq⟩
  have hclaimhi : ∀ q, Claims (Function.update (Function.update held e.2 lower) s.nextNode upper)
      (hi, s.nextNode) q → ∃ x ∈ upper, key x = q := by
    rintro q (rfl | ⟨x, hx, hxq⟩)
    · exact mem_of_maxKey hhi
    · rw [Function.update_self] at hx
      exact ⟨x, hx, hxq⟩
  have hdisjoint : ∀ q, (∃ x ∈ lower, key x = q) → ¬ ∃ y ∈ upper, key y = q := by
    rintro q ⟨x, hx, rfl⟩ ⟨y, hy, hxy⟩
    exact hacross x hx y hy hxy.symm
  have hown : ∀ q, (∃ x ∈ lower ++ upper, key x = q) →
      (∃ o ∈ s.entries, o.2 = e.2 ∧ Claims held o q) ∨ some (key v) = some q := by
    rintro q ⟨x, hx, rfl⟩
    refine (hmem x hx).imp (fun hx => ⟨e, he, rfl, Or.inr ⟨x, hheld.symm ▸ hx, rfl⟩⟩) ?_
    rintro rfl
    rfl
  have hnotelse : ∀ q, (∃ x ∈ lower ++ upper, key x = q) → ∀ p ∈ s.entries, p.2 ≠ e.2 →
      key p.1 ≠ q := by
    intro q hq p hp hpe hpq
    have helse : s.ClaimedElsewhere held e.2 q := ⟨p, hp, hpe, Or.inl hpq⟩
    rcases hown q hq with ⟨o, ho, hoe, hoq⟩ | hvq
    · exact hk.apart.not_elsewhere ho hoq (hoe ▸ helse)
    · exact hnew (Option.some.inj hvq ▸ helse.claimed)
  obtain ⟨xlo, hxlo, hlokey⟩ := mem_of_maxKey hlo
  obtain ⟨xhi, hxhi, hhikey⟩ := mem_of_maxKey hhi
  refine ⟨fun p => ?_, fun p hp hpe => ?_, by simpa using hnew, fun p hp q hq => ?_, ?_⟩
  · rw [mem_splitState, ← hkey]
    constructor
    · rintro (rfl | ⟨rfl | ⟨⟨hp, hpk⟩, -⟩, -⟩)
      · simp
      · simp
      · exact Or.inr ⟨hp, (hk.key_ne he hp).mp hpk⟩
    · rintro (hp | ⟨hp, hpe⟩)
      · rcases List.mem_pair.mp hp with rfl | rfl
        · exact Or.inr ⟨Or.inl rfl, hlokey ▸ hhikey ▸ hacross xlo hxlo xhi hxhi⟩
        · exact Or.inl rfl
      · refine Or.inr ⟨Or.inr ⟨⟨hp, (hk.key_ne he hp).mpr hpe⟩, ?_⟩, ?_⟩
        · exact hnotelse _ ⟨xlo, List.mem_append_left _ hxlo, hlokey⟩ p hp hpe
        · exact hnotelse _ ⟨xhi, List.mem_append_right _ hxhi, hhikey⟩ p hp hpe
  · rw [Function.update_of_ne (hk.allocated p hp).ne, Function.update_of_ne hpe]
  · refine hown q ?_
    rcases List.mem_pair.mp hp with rfl | rfl
    · exact (hclaimlo q hq).imp fun x hx => ⟨List.mem_append_left _ hx.1, hx.2⟩
    · exact (hclaimhi q hq).imp fun x hx => ⟨List.mem_append_right _ hx.1, hx.2⟩
  · intro p hp p' hp' q hq hq'
    rcases List.mem_pair.mp hp with rfl | rfl <;> rcases List.mem_pair.mp hp' with rfl | rfl
    · rfl
    · exact absurd (hclaimhi q hq') (hdisjoint q (hclaimlo q hq))
    · exact absurd (hclaimhi q hq) (hdisjoint q (hclaimlo q hq'))
    · rfl

/-- **A split** of a node with two elements or more, whatever its neighbours are. -/
theorem Known.split (hk : s.Known held m) (hsorted : s.Sorted) (hcdc : s.cdc = true) {oldMax : T}
    (hreg : s.Registered n (key oldMax)) (htwo : 2 ≤ (s.nodes n).length)
    (hnew : ¬ s.Claimed held (key v)) :
    (∃ held' m', s.Informs (s.commitSplit n oldMax v).1 held held' m m' (some (key v))
        (s.commitSplit n oldMax v).2.2) ∧ Settles s (s.commitSplit n oldMax v).1 n := by
  obtain ⟨e, he, rfl, hkey⟩ := hreg
  have hne : s.nodes e.2 ≠ [] := List.ne_nil_of_length_pos (by omega)
  have hheld : held e.2 = s.nodes e.2 := hk.filled e.2 hne
  have hnext : e.2 ≠ s.nextNode := (hk.allocated e he).ne
  obtain ⟨mx, hmx⟩ : ∃ mx, (s.nodes e.2).getLast? = some mx :=
    ⟨_, List.getLast?_eq_some_getLast hne⟩
  obtain ⟨base, hbase, hm, hvacant⟩ := hk.cut he hmx
  have hover : ¬ s.OverwritesMax e.2 v := by
    have hnot : ∀ x ∈ s.nodes e.2, key x ≠ key v := fun x hx hxv =>
      hnew ⟨e, he, Or.inr ⟨x, hheld.symm ▸ hx, hxv⟩⟩
    rintro (hmax | hmax) <;> obtain ⟨x, hx, hxv⟩ := mem_of_maxKey hmax
    · exact hnot x (List.mem_of_mem_take hx) hxv
    · exact hnot x hx hxv
  obtain ⟨lo, lower, hi, upper, after, hstate, hput, hlo, hhi, hevents, hafter⟩ :=
    commitSplit_reported oldMax v hcdc (hsorted e.2) htwo hmx hvacant
  rw [hstate]
  -- the halves hold what the node held, and the value
  have hasc := put_ascending (v := v) (hsorted e.2)
  rw [← hput] at hasc
  obtain ⟨-, -, hacross⟩ := ascending_append.mp hasc
  have hswaps := hk.swaps_split he hne hkey (v := v) (fun x hx => by
      rw [hput] at hx
      exact (mem_put.mp hx).symm.imp_left And.left)
    (fun x hx y hy => (hacross x hx y hy).ne) hlo hhi hnew
  have hexact : ∀ p ∈ [(lo, e.2), (hi, s.nextNode)], maxKey key
      (Function.update (Function.update held e.2 lower) s.nextNode upper p.2) =
        some (key p.1) := by
    intro p hp
    rcases List.mem_pair.mp hp with rfl | rfl
    · rw [Function.update_of_ne hnext, Function.update_self, hlo]
    · rw [Function.update_self, hhi]
  constructor
  · refine ⟨_, _, hk.swap (fun p => key p.1) hswaps hbase hexact ?_ (Nat.le_succ _) ?_ ?_ ?_⟩
    · rw [hm, hevents, hafter.mpr hover]
      simp [addNodes, hnext]
    · intro p hp
      rcases List.mem_pair.mp hp with rfl | rfl
      · exact Nat.lt_succ_of_lt (hk.allocated e he)
      · exact Nat.lt_succ_self _
    · exact filled_update (filled_update hk.filled lower) upper
    · intro j hjn hj
      have hje : j ≠ e.2 := fun hje => hne (hje ▸ hj)
      simp only [splitState, Function.update_of_ne hjn.ne, Function.update_of_ne hje]
      exact ⟨hj, trivial⟩
  · intro p hp
    rcases (hswaps.mem p).mp hp with hf | ⟨ho, hpe⟩
    · refine Or.inl ?_
      rcases List.mem_pair.mp hf with rfl | rfl
      · simp only [Exact, splitState, Function.update_of_ne hnext, Function.update_self, hlo]
      · simp only [Exact, splitState, Function.update_self, hhi]
    · refine Or.inr ⟨ho, hpe, ?_⟩
      simp only [splitState, Function.update_of_ne (hk.allocated p ho).ne,
        Function.update_of_ne hpe]

/-- **Rekeying an entry** to the maximum of its node: nothing to tell. -/
theorem Known.rekey (hk : s.Known held m) {oldMax : T} (hreg : s.Registered n (key oldMax))
    (hmx : (s.nodes n).getLast? = some mx) :
    s.Informs (s.rekeyState n oldMax mx) held held m m none [] ∧
      Settles s (s.rekeyState n oldMax mx) n := by
  obtain ⟨e, he, rfl, hkey⟩ := hreg
  have hmem := List.mem_of_getLast? hmx
  have hheld : held e.2 = s.nodes e.2 := hk.filled e.2 (List.ne_nil_of_mem hmem)
  have hown : ∀ q, Claims held (mx, e.2) q → Claims held e q := by
    rintro q (rfl | hq)
    · exact Or.inr ⟨mx, hheld.symm ▸ hmem, rfl⟩
    · exact Or.inr hq
  have hentries : ∀ p, p ∈ (s.rekeyState e.2 oldMax mx).entries ↔
      p ∈ [(mx, e.2)] ∨ p ∈ s.entries ∧ p.2 ≠ e.2 := by
    intro p
    rw [entries, rekeyState, LawfulSkipMap.iter_insert, LawfulSkipMap.iter_remove, mem_put,
      mem_erase, List.mem_singleton, ← hkey]
    refine or_congr_right ⟨?_, ?_⟩
    · rintro ⟨⟨hp, hpk⟩, -⟩
      exact ⟨hp, (hk.key_ne he hp).mp hpk⟩
    · rintro ⟨hp, hpe⟩
      refine ⟨⟨hp, (hk.key_ne he hp).mpr hpe⟩, fun hpk => ?_⟩
      exact hk.apart.not_elsewhere he (hown _ (Or.inl rfl)) ⟨p, hp, hpe, Or.inl hpk⟩
  have hswaps : s.Swaps (s.rekeyState e.2 oldMax mx) held held e.2 none [(mx, e.2)] := by
    refine ⟨hentries, fun _ _ _ => rfl, by simp, fun p hp q hq => ?_, fun p hp p' hp' q _ _ => ?_⟩
    · rw [List.mem_singleton.mp hp] at hq
      exact Or.inl ⟨e, he, rfl, hown q hq⟩
    · rw [List.mem_singleton.mp hp, List.mem_singleton.mp hp']
  obtain ⟨base, hbase, hm, -⟩ := hk.cut he hmx
  have hadd : addNodes held (fun p => key p.1) [(mx, e.2)] base = m := by
    rw [hm, ← hheld]
    rfl
  constructor
  · have h : s.Informs (s.rekeyState e.2 oldMax mx) held held m
        (addNodes held (fun p => key p.1) [(mx, e.2)] base) none [] := by
      refine hk.swap _ hswaps hbase (fun p hp => ?_) (by rw [hadd, persistAll_nil]) le_rfl
        (fun p hp => ?_) hk.filled fun _ _ hnil => ⟨hnil, rfl⟩
      · rw [List.mem_singleton.mp hp, hheld, maxKey_of_getLast? hmx]
      · rw [List.mem_singleton.mp hp]
        exact hk.allocated e he
    rwa [hadd] at h
  · intro p hp
    rcases (hentries p).mp hp with hf | ⟨ho, hpe⟩
    · rw [List.mem_singleton.mp hf]
      exact Or.inl (maxKey_of_getLast? hmx)
    · exact Or.inr ⟨ho, hpe, rfl⟩

/-- **Taking an emptied node out of the index**: the event tells what the receiver still had
of it. -/
theorem Known.drop (hk : s.Known held m) {oldMax y : T} (hreg : s.Registered n (key oldMax))
    (hheld : held n = [y]) (hy : key y = key oldMax) :
    (∃ m', s.Informs (s.dropState oldMax) held held m m' none [.removeNode oldMax]) ∧
      Settles s (s.dropState oldMax) n := by
  obtain ⟨e, he, rfl, hkey⟩ := hreg
  have hentries : ∀ p, p ∈ (s.dropState oldMax).entries ↔
      p ∈ ([] : List (T × NodeId)) ∨ p ∈ s.entries ∧ p.2 ≠ e.2 := by
    intro p
    rw [entries, dropState, LawfulSkipMap.iter_remove, mem_erase, ← hkey]
    simp only [List.not_mem_nil, false_or]
    exact and_congr_right fun hp => hk.key_ne he hp
  have hswaps : s.Swaps (s.dropState oldMax) held held e.2 none [] :=
    ⟨hentries, fun _ _ _ => rfl, by simp, by simp, by simp⟩
  obtain ⟨base, hbase, hm⟩ := hk.copies.cut hk.apart he (k := key y) (by rw [hheld]; rfl)
  rw [hheld] at hm
  constructor
  · refine ⟨_, hk.swap (fun p => key p.1) hswaps hbase (by simp) ?_ le_rfl (by simp) hk.filled
      fun _ _ hnil => ⟨hnil, rfl⟩⟩
    have hvacant : base.nodes (key oldMax) = none :=
      hbase.vacant (hk.apart.not_elsewhere he (Or.inl hkey))
    rw [hm, hy, persistAll_singleton, persist_removeNode hvacant]
    rfl
  · intro p hp
    obtain ⟨ho, hpe⟩ := ((hentries p).mp hp).resolve_left (by simp)
    exact Or.inr ⟨ho, hpe, rfl⟩

end BTreeSet

/-! ## §4 One step -/

/-- The entry whose node a call is about to edit. -/
def Phase.editing : Phase T → Option (T × NodeId)
  | .edit e => some e
  | _ => none

/-- The key a thread is about to insert. -/
def Thread.awaits : Thread T K → Option K
  | .running call phase => if phase.applied then none else call.insertedKey
  | _ => none

/-- The node a thread has emptied and waits to take out of the index, with its former
maximum. -/
def Thread.dropping : Thread T K → Option (NodeId × T)
  | .running _ phase => phase.drop
  | _ => none

section Steps

variable {s s' : BTreeSet M T} {held held' : NodeId → List T} {m m' : PersistedBTreeMap K T}
  {added : Option K} {events : List (ChangeEvent T)} {call : Call T K} {phase : Phase T}
  {next : Next T} {changes : List (ChangeEventUnassigned T)}

/-- The node is empty, and all the receiver still has of it is its former maximum. -/
def Emptied (s : BTreeSet M T) (held : NodeId → List T) (op : NodeId × T) : Prop :=
  op.1 < s.nextNode ∧ s.nodes op.1 = [] ∧ ∃ y, held op.1 = [y] ∧ key y = key op.2

/-- What a step of a call does for the receiver: it adds the key the call waited to insert or
none, and whoever waits to take a node out of the index has just emptied it. -/
def Conveys (s s' : BTreeSet M T) (held : NodeId → List T) (m : PersistedBTreeMap K T)
    (thread thread' : Thread T K) (changes : List (ChangeEventUnassigned T)) : Prop :=
  ∃ held' m' added, s.Informs s' held held' m m' added changes ∧
    (∀ q ∈ added, thread.awaits = some q ∧ thread'.awaits = none) ∧
    ∀ op ∈ thread'.dropping, Emptied s' held' op

/-- A step that adds no key and empties no node. -/
theorem conveys_plain (h : ∃ held' m', s.Informs s' held held' m m' none changes)
    {thread thread' : Thread T K} (hdrop : thread'.dropping = none) :
    Conveys s s' held m thread thread' changes := by
  obtain ⟨held', m', hinforms⟩ := h
  exact ⟨held', m', none, hinforms, by simp, by simp [hdrop]⟩

/-- A step that inserts a value. -/
theorem conveys_insert {v : T}
    (h : ∃ held' m', s.Informs s' held held' m m' (some (key v)) changes)
    {thread thread' : Thread T K} (hawaits : thread.awaits = some (key v))
    (hnext : thread'.awaits = none) (hdrop : thread'.dropping = none) :
    Conveys s s' held m thread thread' changes := by
  obtain ⟨held', m', hinforms⟩ := h
  refine ⟨held', m', some (key v), hinforms, fun q hq => ?_, by simp [hdrop]⟩
  obtain rfl := Option.some.inj hq
  exact ⟨hawaits, hnext⟩

/-- **One step** keeps the receiver up to date when it finds the node of an edit in the index,
nothing in the node it takes out, and a key to insert unclaimed; when no value goes into an
emptied node and a node that is split has two elements at least. -/
theorem Turn.informs (h : Turn s events call phase s' next changes) (hcdc : s.cdc = true)
    (hsorted : s.Sorted) (hk : s.Known held m) (hedit : ∀ e ∈ phase.editing, e ∈ s.entries)
    (hnew : ∀ q ∈ (Thread.running call phase).awaits, ¬ s.Claimed held q)
    (hdrop : ∀ op ∈ phase.drop, Emptied s held op)
    (hfills : ∀ q ∈ call.insertedKey, ∀ e ∈ phase.editing, s.nodes e.2 ≠ [])
    (hsplits : ∀ op ∈ phase.split, s.Registered op.1 (key op.2.1) →
      2 ≤ (s.nodes op.1).length) :
    Conveys s s' held m (.running call phase) (next.thread call) changes := by
  cases h with
  | lookupPut | lookupFirst | release | overflow | locked | retry | full | refused | lookupRemove
  | missed | absent | splitGone | maxEmpty | maxGone | maxSame | dropGone | kept | located
  | unlocated | searched => exact conveys_plain ⟨held, m, hk.informs⟩ rfl
  | splitPanic =>
    refine conveys_plain ⟨held, m, ?_⟩ rfl
    exact hk.informs.congr rfl rfl rfl
  | first hcreated =>
    exact conveys_insert (hk.first hcreated (hnew _ rfl)).1 rfl rfl rfl
  | @added _ v e a b _ _ hl _ hb hin hwrote =>
    obtain ⟨mx, hmx⟩ : ∃ mx, (s.nodes e.2).getLast? = some mx :=
      ⟨_, List.getLast?_eq_some_getLast (hfills _ rfl e rfl)⟩
    rw [hmx, Option.getD_some]
    exact conveys_insert (hk.added_below (hedit e rfl) hwrote hl
      (hin.resolve_left (hfills _ rfl e rfl)) hb hmx (hnew _ rfl)) rfl rfl rfl
  | @raised _ v _ e _ _ hm hbelow hwrote =>
    exact conveys_insert
      (hk.raised (hedit e rfl) hwrote hbelow hm (hnew _ rfl)) rfl rfl rfl
  | @replaced v x _ e a b _ _ hl hx =>
    -- the key would be claimed already
    have hmem : x ∈ s.nodes e.2 := by simp [hl]
    have hheld := hk.filled e.2 (List.ne_nil_of_mem hmem)
    exact absurd ⟨e, hedit e rfl, Or.inr ⟨x, hheld.symm ▸ hmem, hx⟩⟩ (hnew _ rfl)
  | @inside q e a b x _ _ hl _ hb hm hwrote =>
    have hasc := hsorted e.2
    rw [hl] at hasc
    obtain ⟨-, -, -, habove⟩ := ascending_append_cons.mp hasc
    exact conveys_plain (hk.inside (hedit e rfl) hwrote hl hb habove hm) rfl
  | @lowered q e a x _ hl _ ha hwrote =>
    exact conveys_plain (hk.lowered (hedit e rfl) hwrote hl ha) rfl
  | @emptied q e x _ hl _ hwrote =>
    refine ⟨held, m, none, hk.emptied hwrote, by simp, fun op hop => ?_⟩
    obtain rfl := Option.some.inj hop
    refine ⟨?_, ?_, x, ?_, rfl⟩
    · rw [hwrote.nextNode]
      exact hk.allocated e (hedit e rfl)
    · rw [hwrote.nodes, Function.update_self]
    · rw [hk.filled e.2 (by simp [hl]), hl]
  | @split _ v m n _ _ hreg =>
    obtain ⟨⟨held', m', hinforms⟩, -⟩ :=
      hk.split hsorted hcdc hreg (hsplits (n, m, v) rfl hreg) (hnew _ rfl)
    refine conveys_insert ⟨held', m', ?_⟩ rfl rfl rfl
    exact hinforms.congr rfl rfl rfl
  | rekeyed hreg hmax =>
    refine conveys_plain ⟨held, m, ?_⟩ rfl
    exact (hk.rekey hreg hmax).1.congr rfl rfl rfl
  | @dropped _ m n _ _ _ hreg =>
    obtain ⟨-, -, y, hheld, hy⟩ := hdrop (n, m) rfl
    obtain ⟨⟨m', hinforms⟩, -⟩ := hk.drop hreg hheld hy
    rw [if_pos hcdc]
    refine conveys_plain ⟨held, m', ?_⟩ rfl
    exact hinforms.congr rfl rfl rfl

/-- **One step** leaves every entry exact or answered for, under the same conditions. -/
theorem Turn.covers_known (h : Turn s events call phase s' next changes) (hcdc : s.cdc = true)
    (hsorted : s.Sorted) (hk : s.Known held m)
    (hnew : ∀ q ∈ (Thread.running call phase).awaits, ¬ s.Claimed held q)
    (hdrop : ∀ op ∈ phase.drop, Emptied s held op)
    (hsplits : ∀ op ∈ phase.split, s.Registered op.1 (key op.2.1) →
      2 ≤ (s.nodes op.1).length) (others : NodeId × K → Prop)
    (hcover : ∀ e ∈ s.entries,
      s.Exact e ∨ phase.repairing = some (e.2, key e.1) ∨ others (e.2, key e.1))
    (hgive : ∀ name ∈ phase.givesUp s, others name) :
    ∀ e ∈ s'.entries,
      s'.Exact e ∨ (next.thread call).repairing = some (e.2, key e.1) ∨ others (e.2, key e.1) := by
  refine h.covers_of ?_ ?_ ?_ ?_ (fun op hop hreg => List.ne_nil_of_length_pos ?_) others hcover
    hgive
  · rintro c v rfl hphase hcreated
    refine (hk.first hcreated (hnew _ ?_)).2.1
    cases phase with
    | insertFirst => rfl
    | _ => cases hphase
  · rintro c n x v eventId rfl hphase hreg rfl
    refine (hk.split hsorted hcdc hreg (hsplits _ hphase hreg) (hnew _ ?_)).2
    cases phase with
    | commit op d cdc =>
      cases op with
      | split => rfl
      | _ => cases hphase
    | _ => cases hphase
  · rintro n x mx eventId - hreg hmx rfl
    exact (hk.rekey hreg hmx).2
  · rintro n x eventId hphase hreg rfl
    obtain ⟨-, -, y, hheld, hy⟩ := hdrop (n, x) hphase
    exact (hk.drop hreg hheld hy).2
  · have := hsplits op hop hreg
    omega

/-- Entries stay in the index outside commits. -/
theorem Turn.keeps_entries (h : Turn s events call phase s' next changes) (hk : s.Known held m)
    (hnew : ∀ q ∈ (Thread.running call phase).awaits, ¬ s.Claimed held q)
    (hcommit : ∀ op d cdc, phase ≠ .commit op d cdc) : ∀ e ∈ s.entries, e ∈ s'.entries := by
  intro e he
  cases phase with
  | commit op d cdc => exact absurd rfl (hcommit op d cdc)
  | insertFirst =>
    cases h with
    | first hcreated => exact (hk.first hcreated (hnew _ rfl)).2.2 e he
  | _ => rwa [BTreeSet.entries, h.index rfl]

/-- A call collects three events at most, and waits for its commit with one at most. -/
theorem Turn.length_collected (h : Turn s events call phase s' next changes) (hcdc : s.cdc = true)
    (hsorted : s.Sorted) (hrestart : phase.Restartable)
    (hsplits : ∀ op ∈ phase.split, s.Registered op.1 (key op.2.1) →
      2 ≤ (s.nodes op.1).length)
    (hlen : events.length = changes.length) (hpending : phase.pending.length ≤ 1) :
    next.collected.length ≤ 3 ∧ (next.thread call).pending.length ≤ 1 := by
  have hnil : changes = [] → events = [] := fun hnil => by
    rw [← List.length_eq_zero_iff, hlen, hnil, List.length_nil]
  have hcollected : next.collected.length = phase.pending.length + changes.length := by
    rw [h.reported hrestart hnil, List.length_append, hlen]
  rw [hcollected]
  cases h with
  | first | added | inside => exact ⟨by simp [Phase.pending], Nat.zero_le _⟩
  | raised | lowered => exact ⟨by simp [Phase.pending], hlen.le⟩
  | replaced _ _ _ _ _ _ hchanges =>
    refine ⟨?_, Nat.zero_le _⟩
    have := BTreeSet.length_replaceEvents (hchanges hcdc)
    simpa [Phase.pending] using this
  | @split _ v m n _ _ hreg =>
    have htwo : 2 ≤ (s.nodes n).length := hsplits (n, m, v) rfl hreg
    have hlast : (s.nodes n).getLast? = some _ :=
      List.getLast?_eq_some_getLast (List.ne_nil_of_length_pos (by omega))
    have hthree := BTreeSet.length_commitSplit_events m v (hsorted n) hlast
    refine ⟨?_, Nat.zero_le _⟩
    have hnone : (Phase.commit (.split n m v) (none : Option T) _).pending = [] := hrestart
    rw [hnone]
    simpa using hthree
  | dropped =>
    refine ⟨?_, Nat.zero_le _⟩
    rw [if_pos hcdc, List.length_singleton]
    omega
  | _ => exact ⟨hpending.trans (by decide), Nat.zero_le _⟩

/-- Whoever waits to insert a key after a step did before it. -/
theorem Turn.awaits_before (h : Turn s events call phase s' next changes) {q : K}
    (hq : (next.thread call).awaits = some q) : (Thread.running call phase).awaits = some q := by
  cases h with
  | lookupPut | lookupFirst | release | locked | retry | full | splitGone | located => exact hq
  | _ => cases hq

end Steps

/-! ## §5 Runs -/

namespace State

/-- The keys of all inserts so far. -/
def inserted (s : State ι M T K) : List K := s.invoked.filterMap fun p => p.2.insertedKey

/-- No value goes into a node that a remove has emptied. -/
def FillsNodes (s : State ι M T K) (l : Label ι T K) : Prop :=
  ∀ p ∈ s.active l, ∀ _ ∈ p.1.insertedKey, ∀ e ∈ p.2.editing, s.shared.nodes e.2 ≠ []

/-- A split that goes through finds two elements at least. -/
def SplitsTwo (s : State ι M T K) (l : Label ι T K) : Prop :=
  ∀ p ∈ s.active l, ∀ op ∈ p.2.split, s.shared.Registered op.1 (key op.2.1) →
    2 ≤ (s.shared.nodes op.1).length

instance (s : State ι M T K) (l : Label ι T K) : Decidable (s.FillsNodes l) :=
  inferInstanceAs (Decidable (∀ p ∈ s.active l, ∀ _ ∈ p.1.insertedKey, ∀ e ∈ p.2.editing, _))

instance (s : State ι M T K) (l : Label ι T K) : Decidable (s.SplitsTwo l) :=
  inferInstanceAs (Decidable (∀ p ∈ s.active l, ∀ op ∈ p.2.split, _ → _))

/-- **The invariant**: the receiver is up to date with the log; who waits to insert a key has
it alone, and who waits to take a node out of the index has emptied it. -/
structure Told (s : State ι M T K) (log : List (ChangeEventUnassigned T))
    (held : NodeId → List T) (m : PersistedBTreeMap K T) [Fintype ι] : Prop where
  ledger : s.Ledger log
  copy : (empty : PersistedBTreeMap K T).persistAll log = some m
  known : s.shared.Known held m
  guarded : s.Guarded
  edits : ∀ t call e, s.threads t = .running call (.edit e) → e ∈ s.shared.entries
  drops : ∀ t, ∀ op ∈ (s.threads t).dropping, Emptied s.shared held op
  awaited : ∀ t, ∀ q ∈ (s.threads t).awaits, q ∈ s.inserted ∧ ¬ s.shared.Claimed held q
  alone : ∀ t u q, (s.threads t).awaits = some q → (s.threads u).awaits = some q → t = u
  claimed : ∀ q, s.shared.Claimed held q → q ∈ s.inserted
  brief : (∀ r ∈ s.returned, r.cdc.length ≤ 3) ∧ ∀ t, (s.threads t).pending.length ≤ 1

variable [DecidableEq ι] [Fintype ι] {s s' : State ι M T K} {t : ι}
  {log : List (ChangeEventUnassigned T)} {held : NodeId → List T} {m : PersistedBTreeMap K T}

omit [DecidableEq ι] in
theorem told_start (elementSize nodeCapacity : ℕ) :
    (start (BTreeSet.withMaximumNodeSize true elementSize nodeCapacity) : State ι M T K).Told []
      (fun _ => []) empty := by
  have hentries :=
    BTreeSet.withMaximumNodeSize_entries (M := M) (T := T) true elementSize nodeCapacity
  obtain ⟨⟨-, hsorted, -⟩, -⟩ :=
    BTreeSet.withMaximumNodeSize_atRest (M := M) (T := T) true elementSize nodeCapacity
  have hnot : ∀ e, e ∉ (start (BTreeSet.withMaximumNodeSize true elementSize nodeCapacity) :
      State ι M T K).shared.entries := fun e he => by
    rw [start, hentries] at he
    cases he
  refine ⟨ledger_start rfl hsorted rfl, rfl, BTreeSet.known_empty hentries fun _ => rfl,
    fun e he => absurd he (hnot e), ?_, ?_, ?_, ?_, ?_, ?_⟩
  · simp [start]
  · simp [start, Thread.dropping]
  · simp [start, Thread.awaits]
  · simp [start, Thread.awaits]
  · rintro q ⟨e, he, -⟩
    exact absurd he (hnot e)
  · simp [start, Thread.pending]

/-- **A call begins.** -/
theorem Told.invoke (hs : s.Told log held m) (hidle : s.threads t = .idle) {call : Call T K}
    (hnew : ∀ q ∈ call.insertedKey, q ∉ s.inserted) : (s.invoke t call).Told log held m := by
  have hother : ∀ u, u ≠ t → (s.invoke t call).threads u = s.threads u := fun u hu => by
    simp [State.invoke, hu]
  have hself : (s.invoke t call).threads t = .running call .lookup := by simp [State.invoke]
  have hinserted : ∀ q, q ∈ (s.invoke t call).inserted ↔
      q ∈ s.inserted ∨ call.insertedKey = some q := by
    simp [State.inserted, State.invoke]
  have hawaits : ∀ u q, ((s.invoke t call).threads u).awaits = some q →
      u = t ∧ call.insertedKey = some q ∨ (s.threads u).awaits = some q := by
    intro u q hq
    by_cases hu : u = t
    · rw [hu, hself] at hq
      exact Or.inl ⟨hu, hq⟩
    · exact Or.inr (hother u hu ▸ hq)
  refine ⟨hs.ledger.invoke hidle, hs.copy, hs.known, ?_, ?_, ?_, ?_, ?_, ?_, ?_⟩
  · intro e he
    refine (hs.guarded e he).imp_right ?_
    rintro ⟨u, hu⟩
    refine ⟨u, ?_⟩
    rw [hother u, hu]
    rintro rfl
    rw [hidle] at hu
    cases hu
  · intro u c e hu
    by_cases hut : u = t
    · rw [hut, hself] at hu
      cases hu
    · exact hs.edits u c e (hother u hut ▸ hu)
  · intro u op hop
    by_cases hut : u = t
    · rw [hut, hself] at hop
      cases hop
    · exact hs.drops u op (hother u hut ▸ hop)
  · intro u q hq
    rcases hawaits u q hq with ⟨-, hcall⟩ | hold
    · exact ⟨(hinserted q).mpr (Or.inr hcall), fun hclaimed => hnew q hcall (hs.claimed q hclaimed)⟩
    · exact ⟨(hinserted q).mpr (Or.inl (hs.awaited u q hold).1), (hs.awaited u q hold).2⟩
  · intro u w q hu hw
    rcases hawaits u q hu with ⟨rfl, hcall⟩ | hold <;>
      rcases hawaits w q hw with ⟨rfl, hcall'⟩ | hold'
    · rfl
    · exact absurd (hs.awaited w q hold').1 (hnew q hcall)
    · exact absurd (hs.awaited u q hold).1 (hnew q hcall')
    · exact hs.alone u w q hold hold'
  · intro q hq
    exact (hinserted q).mpr (Or.inl (hs.claimed q hq))
  · refine ⟨hs.brief.1, fun u => ?_⟩
    by_cases hut : u = t
    · rw [hut, hself]
      exact Nat.zero_le _
    · rw [hother u hut]
      exact hs.brief.2 u

/-- **A step of a call.** -/
theorem Told.turn (hs : s.Told log held m) {call : Call T K} {phase : Phase T}
    {shared : BTreeSet M T} {next : Next T} {changes : List (ChangeEventUnassigned T)}
    (ht : s.threads t = .running call phase)
    (hturn : Turn s.shared (s.shared.emit changes).2 call phase shared next changes)
    (hid : shared.eventId = (s.shared.emit changes).1.eventId)
    (halone : ∀ op d cdc, phase = .commit op d cdc → s.alone t = true)
    (hfills : ∀ q ∈ call.insertedKey, ∀ e ∈ phase.editing, s.shared.nodes e.2 ≠ [])
    (hsplits : ∀ op ∈ phase.split, s.shared.Registered op.1 (key op.2.1) →
      2 ≤ (s.shared.nodes op.1).length)
    (hgive : ∀ name ∈ phase.givesUp s.shared, ∃ u, u ≠ t ∧ (s.threads u).repairing = some name) :
    ∃ held' m', (s.advance t call shared next).Told (log ++ changes) held' m' := by
  have hcdc := hs.ledger.cdc
  have hsorted := hs.ledger.sorted
  have hedit : ∀ e ∈ phase.editing, e ∈ s.shared.entries := by
    intro e he
    cases phase with
    | edit e' =>
      obtain rfl := Option.some.inj he
      exact hs.edits t call _ ht
    | _ => cases he
  have hnew : ∀ q ∈ (Thread.running call phase).awaits, ¬ s.shared.Claimed held q :=
    fun q hq => (hs.awaited t q (ht ▸ hq)).2
  have hdrop : ∀ op ∈ phase.drop, Emptied s.shared held op :=
    fun op hop => hs.drops t op (by rw [ht]; exact hop)
  obtain ⟨held', m', added, hinforms, hadded, hdropping⟩ :=
    hturn.informs hcdc hsorted hs.known hedit hnew hdrop hfills hsplits
  have hawaits : ∀ u q, ((s.advance t call shared next).threads u).awaits = some q →
      (s.threads u).awaits = some q := by
    intro u q
    refine forall_threads_advance (P := fun u th => th.awaits = some q →
      (s.threads u).awaits = some q) (fun hq => ?_) (fun u _ hq => hq) u
    rw [ht]
    exact hturn.awaits_before hq
  refine ⟨held', m', hs.ledger.turn ht hturn hid, ?_, hinforms.known, ?_, ?_, ?_, ?_, ?_, ?_, ?_⟩
  · rw [persistAll_append hs.copy]
    exact hinforms.report
  · intro e he
    have hcover := hturn.covers_known hcdc hsorted hs.known hnew hdrop hsplits
      (fun name => ∃ u, u ≠ t ∧ (s.threads u).repairing = some name)
      (fun e he => (hs.guarded e he).imp_right fun hrep => by
        obtain ⟨u, hu⟩ := hrep
        by_cases hut : u = t
        · rw [hut, ht] at hu
          exact Or.inl hu
        · exact Or.inr ⟨u, hut, hu⟩) hgive e he
    refine hcover.imp_right ?_
    rintro (hself | ⟨u, hut, hu⟩)
    · exact ⟨t, by rw [threads_advance_self, hself]⟩
    · exact ⟨u, by rw [threads_advance_of_ne hut, hu]⟩
  · refine forall_threads_advance (P := fun _ th => ∀ c e, th = .running c (.edit e) →
      e ∈ shared.entries) (fun c e he => ?_) fun u hu c e he => ?_
    · cases next with
      | goto ph =>
        cases he
        exact Call.route_mem hturn.routed
      | done ret cdc => cases he
      | panic => cases he
    · -- a commit finds nobody about to edit
      have hcommit : ∀ op d cdc, phase ≠ .commit op d cdc := fun op d cdc hphase =>
        not_edit_of_alone (halone op d cdc hphase) hu he
      exact hturn.keeps_entries hs.known hnew hcommit e (hs.edits u c e he)
  · refine forall_threads_advance (P := fun _ th => ∀ op ∈ th.dropping,
      Emptied shared held' op) hdropping fun u _ op hop => ?_
    obtain ⟨hlt, hnil, y, hy, hkey⟩ := hs.drops u op hop
    obtain ⟨hnil', hheld⟩ := hinforms.emptied op.1 hlt hnil
    exact ⟨lt_of_lt_of_le hlt hinforms.nextNode, hnil', y, hheld.trans hy, hkey⟩
  · intro u q hq
    have hold := hawaits u q hq
    refine ⟨(hs.awaited u q hold).1, fun hclaimed => ?_⟩
    rcases hinforms.claimed q hclaimed with hclaimed | hq'
    · exact (hs.awaited u q hold).2 hclaimed
    · -- the key was added by the step, so it was this thread that waited for it
      obtain ⟨hself, hnone⟩ := hadded q hq'
      obtain rfl := hs.alone u t q hold (ht ▸ hself)
      rw [threads_advance_self, hnone] at hq
      cases hq
  · intro u w q hu hw
    exact hs.alone u w q (hawaits u q hu) (hawaits w q hw)
  · intro q hq
    rcases hinforms.claimed q hq with hclaimed | hq'
    · exact hs.claimed q hclaimed
    · exact (hs.awaited t q (ht ▸ (hadded q hq').1)).1
  · have hpending := hs.brief.2 t
    rw [ht] at hpending
    have hlen : (s.shared.emit changes).2.length = changes.length := by
      rw [BTreeSet.emit_of_cdc hcdc]
      exact BTreeSet.length_number ..
    obtain ⟨hcollected, hnext⟩ := hturn.length_collected hcdc hsorted
      (hs.ledger.restartable t call phase ht) hsplits hlen hpending
    refine ⟨fun r hr => ?_, forall_threads_advance (P := fun _ th => th.pending.length ≤ 1) hnext
      fun u _ => hs.brief.2 u⟩
    rcases List.mem_append.mp hr with hr | hr
    · exact hs.brief.1 r hr
    · cases next with
      | done ret cdc =>
        rw [Next.record, List.mem_singleton] at hr
        exact hr ▸ hcollected
      | goto ph => cases hr
      | panic => cases hr

/-- The conditions under which the receiver follows. -/
def Tells (s : State ι M T K) (l : Label ι T K) : Prop :=
  s.FillsNodes l ∧ s.SplitsTwo l ∧ s.GivesWay l

instance (s : State ι M T K) (l : Label ι T K) : Decidable (s.Tells l) :=
  inferInstanceAs (Decidable (_ ∧ _ ∧ _))

/-- **A step of the machine**, as long as no key is inserted twice. -/
theorem Told.step {l : Label ι T K} (hs : s.Told log held m) (hcond : s.Tells l)
    (h : s.step l = some s') (honce : s'.inserted.Nodup) :
    ∃ log' held' m', log <+: log' ∧ s'.Told log' held' m' := by
  obtain ⟨hfills, hsplits, hgive⟩ := hcond
  cases l with
  | call t call =>
    obtain ⟨hidle, rfl⟩ := step_call h
    refine ⟨log, held, m, List.prefix_refl _, hs.invoke hidle fun q hq hmem => ?_⟩
    have hinserted : (s.invoke t call).inserted = s.inserted ++ [q] := by
      simp [State.inserted, State.invoke, Option.mem_def.mp hq]
    rw [hinserted, List.nodup_append] at honce
    exact honce.2.2 q hmem q (by simp) rfl
  | turn t =>
    obtain ⟨call, phase, shared, next, ht, ⟨changes, hturn, hid, halone⟩, rfl⟩ :=
      step_turn_of hs.ledger.sorted hs.ledger.defers h
    have hactive := active_turn ht
    obtain ⟨held', m', hs'⟩ := hs.turn ht hturn hid halone (hfills _ hactive) (hsplits _ hactive)
      (hgive _ hactive)
    exact ⟨log ++ changes, held', m', List.prefix_append .., hs'⟩

/-- Inserts are never forgotten. -/
theorem inserted_grows {l : Label ι T K} (h : s.step l = some s') :
    s.inserted <+: s'.inserted := by
  cases l with
  | call t call =>
    obtain ⟨-, rfl⟩ := step_call h
    simp [inserted, State.invoke]
  | turn t =>
    obtain ⟨call, phase, shared, next, -, -, rfl⟩ := step_turn_eq h
    exact List.prefix_refl _

/-- The receiver follows a whole run, and its log grows. -/
theorem Told.run (hs : s.Told log held m) {schedule : List (Label ι T K)} {final : State ι M T K}
    (hrun : Transition.run State.step s schedule = some final)
    (hcond : Transition.Along State.step Tells s schedule) (honce : final.inserted.Nodup) :
    ∃ log' held' m', log <+: log' ∧ final.Told log' held' m' := by
  have htold : final.inserted.Nodup → ∃ log' held' m', log <+: log' ∧ final.Told log' held' m' :=
    Transition.run_invariant
      (I := fun s : State ι M T K => s.inserted.Nodup → ∃ log' held' m', log <+: log' ∧
        s.Told log' held' m')
      (fun s l s' hs hc h honce => by
        obtain ⟨log₁, held₁, m₁, hlog₁, htold⟩ :=
          hs (honce.sublist (inserted_grows h).sublist)
        obtain ⟨log₂, held₂, m₂, hlog₂, htold⟩ := htold.step hc h honce
        exact ⟨log₂, held₂, m₂, hlog₁.trans hlog₂, htold⟩)
      (fun _ => ⟨_, _, _, List.prefix_refl _, hs⟩) hcond hrun
  exact htold honce

omit [DecidableEq ι] in
/-- When no call is in flight, the identifiers of the log do not wrap. -/
theorem Told.ordered (hs : s.Told log held m) (hquiet : s.Quiescent)
    (hlen : 3 * s.returned.length ≤ 2 ^ 64) :
    ((BTreeSet.number 0 log).map ChangeEvent.eventId).Pairwise (· < ·) := by
  have hsum : (s.returned.flatMap Returned.cdc).length ≤ 3 * s.returned.length := by
    rw [List.length_flatMap]
    refine (List.sum_le_card_nsmul _ 3 fun k hk => ?_).trans_eq ?_
    · obtain ⟨r, hr, rfl⟩ := List.mem_map.mp hk
      exact hs.brief.1 r hr
    · rw [List.length_map]
      exact Nat.mul_comm ..
  have hsame := (hs.ledger.perm hquiet).length_eq
  rw [BTreeSet.length_number] at hsame
  rw [BTreeSet.eventId_number (by omega)]
  exact List.pairwise_lt_range'

omit [DecidableEq ι] in
/-- When no call is in flight, the receiver has the index. -/
theorem Told.copy_eq (hs : s.Told log held m) (hquiet : s.Quiescent) :
    m = s.shared.expectedState := by
  -- nobody has an entry to repair, so every index key is the maximum of its node
  have hexact : ∀ e ∈ s.shared.entries, s.shared.Exact e := fun e he =>
    (hs.guarded e he).resolve_right fun hrep => by
      obtain ⟨t, ht⟩ := hrep
      rw [hquiet t] at ht
      cases ht
  have hheld : ∀ e ∈ s.shared.entries, held e.2 = s.shared.nodes e.2 := fun e he =>
    hs.known.filled e.2 fun hnil => by
      have hmax := hexact e he
      rw [BTreeSet.Exact, hnil] at hmax
      cases hmax
  have hfind : ∀ k e, find entryKey k (SkipMap.iter s.shared.index) = some e ↔
      e ∈ s.shared.entries ∧ key e.1 = k := fun k e => find_eq_some s.shared.entries_ascending
  refine congrArg PersistedBTreeMap.mk (funext fun k => Option.ext fun l => ?_)
  rw [hs.known.copies k l, Option.map_eq_some_iff]
  constructor
  · rintro ⟨e, he, rfl, hk⟩
    have hmax := hexact e he
    rw [BTreeSet.Exact, ← hheld e he, hk] at hmax
    exact ⟨e, (hfind k e).mpr ⟨he, (Option.some.inj hmax).symm⟩, (hheld e he).symm⟩
  · rintro ⟨e, hf, rfl⟩
    obtain ⟨he, rfl⟩ := (hfind k e).mp hf
    exact ⟨e, he, hheld e he, hexact e he⟩

omit [DecidableEq ι] in
/-- The log makes the index of an empty receiver. -/
theorem Told.replay_eq (hs : s.Told log held m) (hquiet : s.Quiescent)
    (hlen : 3 * s.returned.length ≤ 2 ^ 64) :
    replay (s.returned.flatMap Returned.cdc) = some s.shared.expectedState := by
  rw [replay_of_perm (hs.ledger.perm hquiet) (hs.ordered hquiet hlen), map_change_number, hs.copy,
    hs.copy_eq hquiet]

end State

/-- **Replay of the events of all threads**: any number of threads call a new set that reports
its changes, and no key is inserted twice.  In every run in which no value goes into an
emptied node, every split that goes through finds two elements at least, and commits give up
on an entry only while another thread answers for it, the events of all calls, in the order of
their identifiers, take an empty receiver to the index as soon as no call is in flight. -/
theorem replay_of_quiescent [DecidableEq ι] [Fintype ι] {elementSize nodeCapacity : ℕ}
    {schedule : List (Label ι T K)} {final : State ι M T K}
    (hrun : Transition.run State.step
      (State.start (BTreeSet.withMaximumNodeSize true elementSize nodeCapacity)) schedule =
        some final)
    (hcond : Transition.Along State.step State.Tells
      (State.start (BTreeSet.withMaximumNodeSize true elementSize nodeCapacity) : State ι M T K)
      schedule)
    (honce : final.inserted.Nodup) (hquiet : final.Quiescent)
    (hlen : 3 * final.returned.length ≤ 2 ^ 64) :
    replay (final.returned.flatMap Returned.cdc) = some final.shared.expectedState := by
  obtain ⟨log, held, m, -, htold⟩ :=
    (State.told_start elementSize nodeCapacity).run hrun hcond honce
  exact htold.replay_eq hquiet hlen

/-- Two threads fill a node; the split of one is refused, because the other has rekeyed the
entry, and starts over; removes lower a maximum, and empty a node and take it out. -/
def pairRun : List (Label (Fin 2) (Pair ℕ ℕ) ℕ) :=
  [.call 0 (.insert false ⟨5, 50⟩), .turn 0, .turn 0, .turn 0, .turn 0,
    .call 1 (.insert false ⟨7, 70⟩), .turn 1, .turn 1,
    .call 0 (.insert false ⟨6, 60⟩), .turn 0, .turn 0, .turn 1, .turn 0, .turn 0, .turn 0, .turn 0,
    .call 1 (.remove 5), .turn 1, .turn 1, .call 0 (.remove 7), .turn 0, .turn 0, .turn 1, .turn 0]

theorem replay_of_pairRun :
    ∃ final : State (Fin 2) (SortedIndex (Pair ℕ ℕ)) (Pair ℕ ℕ) ℕ,
      Transition.run State.step (State.start (BTreeSet.withMaximumNodeSize true 16 2)) pairRun =
          some final ∧
        replay (final.returned.flatMap Returned.cdc) = some final.shared.expectedState := by
  obtain ⟨final, hrun, hfinal⟩ := Transition.exists_run
    (fun s : State (Fin 2) (SortedIndex (Pair ℕ ℕ)) (Pair ℕ ℕ) ℕ =>
      decide (s.Quiescent ∧ s.inserted.Nodup ∧ 3 * s.returned.length ≤ 2 ^ 64))
    State.step (State.start (BTreeSet.withMaximumNodeSize true 16 2)) pairRun (by decide)
  obtain ⟨hquiet, honce, hlen⟩ := of_decide_eq_true hfinal
  exact ⟨final, hrun, replay_of_quiescent hrun (by decide) honce hquiet hlen⟩

/-- A pair goes into a node that a remove has emptied.  Its event names a maximum that the
receiver does not have, and the remove never tells that the node was emptied. -/
def refilledRun : List (Label (Fin 2) (Pair ℕ ℕ) ℕ) :=
  [.call 0 (.insert false ⟨5, 50⟩), .turn 0, .turn 0, .turn 0, .turn 0,
    .call 0 (.remove 5), .turn 0, .turn 0, .call 1 (.insert false ⟨7, 70⟩), .turn 1, .turn 1,
    .turn 0]

theorem replay_misses_refill :
    ∃ final : State (Fin 2) (SortedIndex (Pair ℕ ℕ)) (Pair ℕ ℕ) ℕ,
      Transition.run State.step (State.start (BTreeSet.withMaximumNodeSize true 16 2)) refilledRun =
          some final ∧
        final.Quiescent ∧ final.inserted.Nodup ∧
        final.shared.expectedState.nodes 5 = some [⟨7, 70⟩] ∧
        (replay (final.returned.flatMap Returned.cdc)).map (fun copy => copy.nodes 5) =
          some (some [⟨5, 50⟩]) ∧
        replay (final.returned.flatMap Returned.cdc) ≠ some final.shared.expectedState := by
  obtain ⟨final, hrun, hfinal⟩ := Transition.exists_run
    (fun s : State (Fin 2) (SortedIndex (Pair ℕ ℕ)) (Pair ℕ ℕ) ℕ =>
      decide (s.Quiescent ∧ s.inserted.Nodup ∧ s.shared.expectedState.nodes 5 = some [⟨7, 70⟩] ∧
        (replay (s.returned.flatMap Returned.cdc)).map (fun copy => copy.nodes 5) =
          some (some [⟨5, 50⟩])))
    State.step (State.start (BTreeSet.withMaximumNodeSize true 16 2)) refilledRun (by decide)
  obtain ⟨hquiet, honce, hexpected, hreplayed⟩ := of_decide_eq_true hfinal
  refine ⟨final, hrun, hquiet, honce, hexpected, hreplayed, fun hreplay => ?_⟩
  rw [hreplay, Option.map_some, hexpected] at hreplayed
  exact absurd hreplayed (by decide)

end IndexSet.Concurrent
