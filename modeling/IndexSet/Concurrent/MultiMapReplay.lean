import IndexSet.Cdc.Converted
import IndexSet.Concurrent.MultiMap
import IndexSet.Concurrent.Replay

/-!
# Replaying the Converted Events of a Multimap

`insert_cdc`, `remove_cdc` and `remove_some_cdc` of `concurrent/multimap.rs`, called one after
another, and their events converted to those of `Pair`s and replayed by the receiver of
`Cdc.Persisted`.

A node is named by the key of its maximum then, and two nodes may have the same.

- §1 one call on the set: what its events say about the vectors of the nodes;
- §2 one call on the multimap: the receiver follows it exactly when the maxima stay apart;
- §3 runs.
-/

namespace IndexSet.Concurrent

open KeyedList PersistedBTreeMap

variable {M T K : Type} [LinearOrder K] [Keyed T K] [LawfulSkipMap M T K]

/-! ## §1 The vectors of the nodes -/

namespace BTreeSet

/-- The vectors of the indexed nodes. -/
def vectors (s : BTreeSet M T) : List (List T) := s.entries.map fun e => s.nodes e.2

variable {s s' : BTreeSet M T} {a b : List (T × NodeId)} {e : T × NodeId} {items : List T} {v : T}

theorem flatten_vectors (s : BTreeSet M T) : s.vectors.flatten = s.elements := by
  rw [vectors, ← itemsOf_entries]
  rfl

theorem vectors_cut (hcut : s.entries = a ++ e :: b) :
    s.vectors = a.map (fun p => s.nodes p.2) ++ s.nodes e.2 :: b.map fun p => s.nodes p.2 := by
  rw [vectors, hcut, List.map_append, List.map_cons]

/-- A write to one node. -/
theorem Wrote.vectors (h : s.Wrote e.2 items s') (hs : s.Coherent)
    (hcut : s.entries = a ++ e :: b) :
    s'.vectors = a.map (fun p => s.nodes p.2) ++ items :: b.map fun p => s.nodes p.2 := by
  have hother := hs.ne_of_cut hcut
  rw [vectors_cut (h.entries.trans hcut), h.nodes, Function.update_self]
  congr 1
  · refine List.map_congr_left fun p hp => ?_
    rw [Function.update_of_ne (hother p (List.mem_append_left _ hp))]
  · congr 1
    refine List.map_congr_left fun p hp => ?_
    rw [Function.update_of_ne (hother p (List.mem_append_right _ hp))]

/-- The value goes to a full node. -/
def Splits (s : BTreeSet M T) (v : T) : Prop :=
  ∃ e ∈ s.lookupPut (key v), Node.needToSplit (s.nodes e.2) s.nodeCapacity

instance (s : BTreeSet M T) (v : T) : Decidable (s.Splits v) :=
  inferInstanceAs (Decidable (∃ e ∈ s.lookupPut (key v), _))

/-- **What the events of a value that is not there yet say.** -/
inductive PutChanges (s : BTreeSet M T) (v : T) :
    List (ChangeEventUnassigned T) → List (List T) → Prop where
  | edited {change : ChangeEventUnassigned T} {nodes : List (List T)} : ¬ s.Splits v →
      Edited s.vectors change nodes → PutChanges s v [change] nodes
  /-- The node is cut and the value goes into the lower half. -/
  | lower {e : T × NodeId} {a b : List (List T)} {l r : List T} {n m : T} :
      s.lookupPut (key v) = some e → Node.needToSplit (s.nodes e.2) s.nodeCapacity = true →
      s.vectors = a ++ s.nodes e.2 :: b → (Node.halve (s.nodes e.2)).1 = l ++ r → r ≠ [] →
      (l ++ r).getLast? = some n → (Node.halve (s.nodes e.2)).2.getLast? = some m →
      key v ≤ key n →
      PutChanges s v [.splitNode m (l ++ r).length, .insertAt n v l.length]
        (a ++ (l ++ v :: r) :: (Node.halve (s.nodes e.2)).2 :: b)
  /-- The value goes into the upper half. -/
  | upper {e : T × NodeId} {a b : List (List T)} {l r : List T} {n m : T} :
      s.lookupPut (key v) = some e → Node.needToSplit (s.nodes e.2) s.nodeCapacity = true →
      s.vectors = a ++ s.nodes e.2 :: b → (Node.halve (s.nodes e.2)).2 = l ++ r →
      (Node.halve (s.nodes e.2)).1.getLast? = some n → (l ++ r).getLast? = some m →
      (r ≠ [] → key v ≤ key m) → (r = [] → key m ≤ key v) →
      PutChanges s v [.splitNode m (Node.halve (s.nodes e.2)).1.length, .insertAt m v l.length]
        (a ++ (Node.halve (s.nodes e.2)).1 :: (l ++ v :: r) :: b)

theorem map_change_emit (hcdc : s.cdc = true) (changes : List (ChangeEventUnassigned T)) :
    (s.emit changes).2.map ChangeEvent.change = changes := by
  rw [emit_of_cdc hcdc, map_change_number]

/-- The vectors after a split. -/
theorem Coherent.splitState_vectors (hs : s.Coherent) (hcut : s.entries = a ++ e :: b)
    {oldMax lo hi : T} {lower upper : List T} (hasc : Ascending key (s.nodes e.2))
    (hkey : key e.1 = key oldMax) (hv : Admissible key (a.map s.cell) (b.map s.cell) (key v))
    (hput : lower ++ upper = put key v (s.nodes e.2))
    (hlower : maxKey key lower = some (key lo)) (hupper : maxKey key upper = some (key hi)) :
    (s.splitState e.2 oldMax (some lo) lower hi upper).vectors =
      a.map (fun p => s.nodes p.2) ++ lower :: upper :: b.map fun p => s.nodes p.2 := by
  have hlowerMax : (some lo).map key = maxKey key lower := hlower.symm
  obtain ⟨-, -, hentries⟩ := hs.split hcut rfl hkey hasc hv hput hlowerMax hupper
  have hview := congrArg (List.map Cell.items) (hs.splitState_view hcut hentries)
  have hitems : ∀ t : BTreeSet M T, t.view.map Cell.items = t.vectors := fun t => List.map_map
  rw [hitems] at hview
  rw [hview]
  simp [cell, Function.comp_def]

/-- **A split** of a full node, for a value that is not there yet. -/
theorem Coherent.split_changes (hs : s.Coherent) (hcdc : s.cdc = true)
    (hcap : 2 ≤ s.nodeCapacity) (he : s.lookupPut (key v) = some e) {m : T}
    (hcut : s.entries = a ++ e :: b) (hasc : Ascending key (s.nodes e.2))
    (hfull : Node.needToSplit (s.nodes e.2) s.nodeCapacity = true)
    (hm : (s.nodes e.2).getLast? = some m) (hfresh : ∀ x ∈ s.nodes e.2, key x ≠ key v)
    (hadm : Admissible key (a.map s.cell) (b.map s.cell) (key v)) :
    s.PutChanges v (s.commitSplit e.2 e.1 v).2.2 (s.commitSplit e.2 e.1 v).1.vectors := by
  have hl := halve_eq (s.nodes e.2)
  have hhalves := hasc
  rw [← hl] at hhalves
  obtain ⟨hasclo, haschi, hacross⟩ := ascending_append.mp hhalves
  have hlen : 2 ≤ (s.nodes e.2).length := hcap.trans (of_decide_eq_true hfull)
  have hne : s.nodes e.2 ≠ [] := List.ne_nil_of_length_pos (by omega)
  have hhi : (Node.halve (s.nodes e.2)).2.getLast? = some m := (getLast?_halve_snd hne).trans hm
  obtain ⟨lo, hlo⟩ : ∃ lo, (Node.halve (s.nodes e.2)).1.getLast? = some lo := by
    refine ⟨_, List.getLast?_eq_some_getLast (List.ne_nil_of_length_pos ?_)⟩
    rw [Node.length_halve_fst]
    omega
  have hlowmem : ∀ x ∈ (Node.halve (s.nodes e.2)).1, key x ≠ key v := fun x hx =>
    hfresh x (hl ▸ List.mem_append_left _ hx)
  have hhighmem : ∀ x ∈ (Node.halve (s.nodes e.2)).2, key x ≠ key v := fun x hx =>
    hfresh x (hl ▸ List.mem_append_right _ hx)
  have hmaxlo : maxKey key (Node.halve (s.nodes e.2)).1 = some (key lo) := maxKey_of_getLast? hlo
  have hmaxhi : maxKey key (Node.halve (s.nodes e.2)).2 = some (key m) := maxKey_of_getLast? hhi
  rcases commitSplit_cases e.1 v hasc hm with ⟨lo', hlo', hle, hput, heval⟩ |
    ⟨hlt, hput, hi, hupper, heval⟩
  · -- the lower half takes the value
    cases hlo.symm.trans hlo'
    have hlower : maxKey key (put key v (Node.halve (s.nodes e.2)).1) = some (key lo) := by
      rw [maxKey_put hasclo, hmaxlo]
      simp [max_eq_left hle]
    have hvectors := hs.splitState_vectors hcut hasc rfl hadm hput.symm hlower hmaxhi
    rw [heval]
    dsimp only
    rw [hvectors, if_pos hcdc]
    rcases insertOrReplace_cases v hasclo with
      ⟨_, x, _, hx, hkey, -⟩ | ⟨l, r, hlr, hlow, hhigh, hinsert⟩
    · exact absurd hkey (hlowmem x (by simp [hx]))
    · have hr : r ≠ [] := by
        rintro rfl
        rw [List.append_nil] at hlr
        exact absurd (hlow lo (hlr ▸ List.mem_of_getLast? hlo)) (not_lt.mpr hle)
      rw [hinsert, hlr, put_gap hlow hhigh]
      exact .lower he hfull (vectors_cut hcut) hlr hr (hlr ▸ hlo) hhi hle
  · -- the upper half does
    have hvectors := hs.splitState_vectors hcut hasc rfl hadm hput.symm hmaxlo hupper
    rw [heval, hlo]
    dsimp only
    rw [hvectors, if_pos hcdc]
    rcases insertOrReplace_cases v haschi with
      ⟨_, x, _, hx, hkey, -⟩ | ⟨l, r, hlr, hlow, hhigh, hinsert⟩
    · exact absurd hkey (hhighmem x (by simp [hx]))
    · have hlast := hlr ▸ hhi
      rw [hinsert, hlr, put_gap hlow hhigh]
      refine .upper he hfull (vectors_cut hcut) hlr hlo hlast (fun hr => ?_) (fun hr => ?_)
      · rw [List.getLast?_append_of_ne_nil _ hr] at hlast
        exact (hhigh m (List.mem_of_getLast? hlast)).le
      · rw [hr, List.append_nil] at hlast
        exact (hlow m (List.mem_of_getLast? hlast)).le

/-- The vectors of a set with other index keys, or another event counter. -/
theorem vectors_congr (hentries : s'.entries.map Prod.snd = s.entries.map Prod.snd)
    (hnodes : s'.nodes = s.nodes) : s'.vectors = s.vectors := by
  have h : ∀ t : BTreeSet M T, t.vectors = (t.entries.map Prod.snd).map t.nodes :=
    fun t => List.map_map.symm
  rw [h, h, hentries, hnodes]

theorem vectors_emit (changes : List (ChangeEventUnassigned T)) :
    (s.emit changes).1.vectors = s.vectors := by
  obtain ⟨eventId, heq⟩ := emit_eq s changes
  rw [heq]
  rfl

/-- **One put** of a value that is not there yet. -/
theorem putCdc_changes (hs : s.Settled) (hcdc : s.cdc = true) (hcap : 2 ≤ s.nodeCapacity)
    (hfits : s.Allocates) (fuel : ℕ) (hfresh : ∀ x ∈ s.elements, key x ≠ key v) :
    ∃ s' cdc, s.putCdc (fuel + 1) v = some (s', none, cdc) ∧
      s.PutChanges v (cdc.map ChangeEvent.change) s'.vectors := by
  cases he : s.lookupPut (key v) with
  | none =>
    have hnil := lookupPut_eq_none.mp he
    obtain ⟨s', hins, hcreated, -⟩ := s.insertFirst_spec v
    refine ⟨s', (s.emit [.createNode v]).2,
      by simp [putCdc, putCdcChecked, he, firstNode_of_allocates hfits, hs.unpoisoned, hins], ?_⟩
    have hbefore : s.vectors = [] := by rw [vectors, hnil, List.map_nil]
    have hafter : s'.vectors = [[v]] := by
      simp [vectors, (hcreated.coherent hnil).1, hcreated.nodes]
    rw [map_change_emit hcdc, hafter]
    refine .edited (by simp [Splits, he]) ?_
    rw [hbefore]
    exact .created v
  | some e =>
    obtain ⟨a, b, hcut, ha, hle⟩ := lookupPut_eq_some he
    have hmem : e ∈ s.entries := by simp [hcut]
    have hne := hs.atRest.ne_nil hmem
    have hasc := hs.atRest.sorted e.2
    have hcoh := hs.atRest.coherent
    have hinside : ∀ x ∈ s.nodes e.2, key x ≠ key v := fun x hx => by
      refine hfresh x ?_
      rw [← itemsOf_entries]
      exact List.mem_flatMap.mpr ⟨e, hmem, hx⟩
    obtain ⟨m, hm⟩ : ∃ m, (s.nodes e.2).getLast? = some m := ⟨_, List.getLast?_eq_some_getLast hne⟩
    obtain ⟨s₁, outcome, heval, hedit⟩ := s.putEdit_spec e v hasc
    -- a node with room is not split
    have hnot : (s.nodes e.2).length < s.nodeCapacity → ¬ s.Splits v := by
      rintro hroom ⟨e', he', hfull⟩
      rw [he, Option.mem_some] at he'
      subst he'
      simp only [Node.needToSplit, decide_eq_true_eq] at hfull
      omega
    cases hedit with
    | full hfull =>
      obtain ⟨s₂, hcommit, hs₂, -⟩ := split_spec hs.atRest [] he
      have hsplits : Node.needToSplit (s.nodes e.2) s.nodeCapacity = true :=
        decide_eq_true hfull
      have hsame := s.commitSplit_same e.2 e.1 v
      obtain ⟨-, hevents⟩ := emit_after hsame.1 hsame.2 (s.commitSplit e.2 e.1 v).2.2
      rw [find_eq_none.mpr hfresh] at hcommit
      refine ⟨s₂, _, by simp only [putCdc, putCdcChecked, he, heval, hcommit]; rfl, ?_⟩
      rw [List.nil_append, hevents, map_change_emit hcdc, hs₂, vectors_emit]
      exact hcoh.split_changes hcdc hcap he hcut hasc hsplits hm hinside
        ((hcoh.cut hcut).admissible_target (Coherent.target (s := s) ha hle))
    | @added l r _ cdc hroom hl hlow hhigh hin hemit =>
      obtain ⟨-, hevents⟩ := setNode_emit hemit
      have hwrote := wrote_emit hemit
      rw [hm, Option.getD_some] at hevents
      refine ⟨s₁, cdc, by simp [putCdc, putCdcChecked, he, heval], ?_⟩
      rw [hevents, map_change_emit hcdc, hwrote.vectors hcoh hcut]
      refine .edited (hnot hroom) ?_
      rw [vectors_cut hcut, hl]
      have hlast := hm
      rw [hl] at hlast
      refine .inserted hlast (fun hr => ?_) (fun hr => absurd hr (hin.resolve_left hne))
      rw [List.getLast?_append_of_ne_nil _ hr] at hlast
      exact (hhigh m (List.mem_of_getLast? hlast)).le
    | @raised m' _ cdc hroom hm' hbelow hemit =>
      cases hm.symm.trans hm'
      obtain ⟨-, hevents⟩ := setNode_emit hemit
      have hwrote := wrote_emit hemit
      obtain ⟨hcommit, -⟩ := raised_spec hs.atRest cdc he hm hbelow hroom hwrote
      refine ⟨s₁.rekeyState e.2 m v, cdc,
        by simp [putCdc, putCdcChecked, he, heval, hcommit], ?_⟩
      -- the commit moves an index key and no contents
      have hput : s.nodes e.2 ++ [v] = put key v (s.nodes e.2) := by
        have hgap := put_gap (v := v) hbelow (above_nil _)
        rw [List.append_nil] at hgap
        exact hgap.symm
      have hcoh' := ((hput ▸ hwrote).coherent_put hcoh he).1
      have hcut₁ : s₁.entries = a ++ e :: b := hwrote.entries.trans hcut
      have hnode : s₁.nodes e.2 = s.nodes e.2 ++ [v] := by rw [hwrote.nodes, Function.update_self]
      have hexact := hs.atRest.exact e hmem
      have hkey : key e.1 = key m := by
        rw [Exact, maxKey_of_getLast? hm] at hexact
        exact (Option.some.inj hexact).symm
      have hentries := hcoh'.rekeyState_entries hcut₁ hkey
        (hnode ▸ hput ▸ put_ascending hasc) (by rw [hnode, maxKey_concat])
      have hsame : (s₁.rekeyState e.2 m v).vectors = s₁.vectors :=
        vectors_congr (by simp [hentries, hcut₁]) rfl
      rw [hevents, map_change_emit hcdc, hsame, hwrote.vectors hcoh hcut]
      refine .edited (hnot hroom) ?_
      have hinserted := Edited.inserted (a := a.map fun p => s.nodes p.2)
        (b := b.map fun p => s.nodes p.2) (l := s.nodes e.2) (r := []) (v := v)
        (by rwa [List.append_nil]) (fun hr => absurd rfl hr)
        fun _ => (hbelow m (List.mem_of_getLast? hm)).le
      rwa [List.append_nil, ← vectors_cut hcut] at hinserted
    | present _ hl hx => exact absurd hx (hinside _ (by simp [hl]))

/-- **One remove** has one event at most. -/
theorem removeCdc_changes (hs : s.Settled) (hcdc : s.cdc = true) (q : K) :
    ∃ s' old cdc, s.removeCdc q = some (s', old, cdc) ∧
      (cdc = [] ∧ s'.vectors = s.vectors ∨
        ∃ change, cdc.map ChangeEvent.change = [change] ∧ Edited s.vectors change s'.vectors) := by
  cases hrem : s.lookupRemove q with
  | none => exact ⟨s, none, [], by simp [removeCdc, hrem], Or.inl ⟨rfl, rfl⟩⟩
  | some e =>
    have he := lookupPut_of_lookupRemove hrem
    obtain ⟨a, b, hcut, -, -⟩ := lookupPut_eq_some he
    have hmem : e ∈ s.entries := by simp [hcut]
    have hasc := hs.atRest.sorted e.2
    have hcoh := hs.atRest.coherent
    obtain ⟨s₁, outcome, heval, hedit⟩ := s.removeEdit_spec e q hasc
    cases hedit with
    | absent _ => exact ⟨s, none, [], by simp [removeCdc, hrem, heval], Or.inl ⟨rfl, rfl⟩⟩
    | @inside l r x m _ cdc hl hx hr hm hemit =>
      obtain ⟨-, hevents⟩ := setNode_emit hemit
      have hwrote := wrote_emit hemit
      refine ⟨s₁, some x, cdc, by simp [removeCdc, hrem, heval],
        Or.inr ⟨.removeAt m x l.length, ?_, ?_⟩⟩
      · rw [hevents, map_change_emit hcdc]
      · rw [hwrote.vectors hcoh hcut, vectors_cut hcut, hl]
        exact .removed (hl ▸ hm) (by simp [hr])
    | @lowered l x _ cdc hl hx hne hemit =>
      subst hx
      obtain ⟨-, hevents⟩ := setNode_emit hemit
      have hwrote := wrote_emit hemit
      rw [hl] at hasc
      obtain ⟨hascl, _, hlow, _⟩ := ascending_append_cons.mp hasc
      have herase : erase key (key x) (s.nodes e.2) = l := by
        rw [hl, erase_hit rfl hlow (above_nil _), List.append_nil]
      have hcoh' := ((herase.symm ▸ hwrote).coherent_erase hcoh he).1
      obtain ⟨m, hm, hcommit, -⟩ := lowered_spec hs.atRest cdc he hl hne hwrote
      refine ⟨s₁.rekeyState e.2 x m, some x, cdc, by simp [removeCdc, hrem, heval, hcommit],
        Or.inr ⟨.removeAt x x l.length, by rw [hevents, map_change_emit hcdc], ?_⟩⟩
      -- the commit moves an index key and no contents
      have hcut₁ : s₁.entries = a ++ e :: b := hwrote.entries.trans hcut
      have hnode : s₁.nodes e.2 = l := by rw [hwrote.nodes, Function.update_self]
      have hexact := hs.atRest.exact e hmem
      have hkey : key e.1 = key x := by
        rw [Exact, hl, maxKey_concat] at hexact
        exact (Option.some.inj hexact).symm
      have hentries := hcoh'.rekeyState_entries hcut₁ hkey (hnode.symm ▸ hascl)
        (by rw [hnode, maxKey_of_getLast? hm])
      have hsame : (s₁.rekeyState e.2 x m).vectors = s₁.vectors :=
        vectors_congr (by simp [hentries, hcut₁]) rfl
      rw [hsame, hwrote.vectors hcoh hcut, vectors_cut hcut, hl]
      have hremoved := Edited.removed (a := a.map fun p => s.nodes p.2)
        (b := b.map fun p => s.nodes p.2) (x := x) (l := l) (r := [])
        (List.getLast?_concat ..) (by simpa using hne)
      rwa [List.append_nil] at hremoved
    | @emptied x hl hx =>
      subst hx
      obtain ⟨s₂, hcommit, hs₂, -⟩ := emptied_spec hs.atRest [] he hl
      have hexact := hs.atRest.exact e hmem
      have hkey : key e.1 = key x := by
        rw [Exact, hl] at hexact
        exact (Option.some.inj hexact).symm
      have hdropped : ((s.setNode e.2 []).dropState x).entries = a ++ b :=
        dropState_entries (s := s.setNode e.2 []) hcut hkey
      have hwrote : s.Wrote e.2 [] (s.setNode e.2 []) :=
        ⟨rfl, rfl, rfl, rfl, rfl, rfl, rfl⟩
      have hwritten := hwrote.vectors hcoh hcut
      have hafter : ((s.setNode e.2 []).dropState x).vectors =
          a.map (fun p => s.nodes p.2) ++ b.map fun p => s.nodes p.2 := by
        rw [vectors_cut (s := s.setNode e.2 []) hcut] at hwritten
        obtain ⟨hleft, hright⟩ := List.append_inj hwritten (by simp)
        rw [vectors, hdropped, List.map_append]
        exact congrArg₂ (· ++ ·) hleft (List.cons.inj hright).2
      have hsame : ((s.setNode e.2 []).dropState x).eventId = s.eventId := rfl
      obtain ⟨-, hevents⟩ := emit_after hsame rfl [.removeNode x]
      rw [hcdc, if_pos rfl] at hcommit hs₂
      refine ⟨s₂, _, _, by simp only [removeCdc, hrem, heval, hcommit]; rfl,
        Or.inr ⟨.removeNode x, ?_, ?_⟩⟩
      · rw [List.nil_append, hevents, map_change_emit hcdc]
      · rw [hs₂, vectors_emit, hafter, vectors_cut hcut, hl]
        exact .dropped rfl

end BTreeSet

/-! ## §2 Calls on the multimap -/

/-- `impl From<OrdMultiPair> for Pair`, the same for both kinds of entries. -/
def MultiPairLike.intoPair {T Q V : Type} [MultiPairLike T Q V] (pair : T) : Pair Q V :=
  ⟨MultiPairLike.key pair, MultiPairLike.value pair⟩

section Calls

variable {Q V : Type} [LinearOrder Q] [DecidableEq V] [MultiPairLike T Q V]
  [MultiPairRemoveHelper M T Q V]

-- the keys of a multimap are ordered themselves
local instance : Keyed Q Q := ⟨id⟩

/-- What a kind of entries has to satisfy: they are ordered by their keys first, and a pair is
removed by its place in the order. -/
class LawfulMultiPair (M T : Type) {K Q V : Type} [LinearOrder K] [Keyed T K]
    [LawfulSkipMap M T K] [LinearOrder Q] [MultiPairLike T Q V]
    [MultiPairRemoveHelper M T Q V] : Prop where
  coarsens : Coarsens (MultiPairLike.key : T → Q)
  removesPairs : ∀ m : BTreeMultiMap M T, m.Good → m.RemovesPairs

instance {M Q V : Type} [LinearOrder Q] [LinearOrder V]
    [LawfulSkipMap M (OrdMultiPair Q V) (Q ×ₗ V)] : LawfulMultiPair M (OrdMultiPair Q V) :=
  ⟨OrdMultiPair.coarsens, fun _ hm => OrdMultiPair.removesPairs hm⟩

instance {M Q V : Type} [LinearOrder Q] [DecidableEq V]
    [LawfulSkipMap M (RandomMultiPair Q V) (Q ×ₗ ℕ)] : LawfulMultiPair M (RandomMultiPair Q V) :=
  ⟨RandomMultiPair.coarsens, fun _ hm => RandomMultiPair.removesPairs hm⟩

/-- A call that returns its change events; an insertion comes with the entry that `M::new` makes of
its key and value. -/
inductive MultiCdcCall (T Q V : Type) where
  | insertCdc (newEntry : T)
  | removeCdc (k : Q) (value : V)
  | removeSomeCdc (k : Q)

namespace MultiCdcCall

/-- The call on the multimap, and its events. -/
def exec (fuel : ℕ) (m : BTreeMultiMap M T) :
    MultiCdcCall T Q V → Option (BTreeMultiMap M T × List (ChangeEvent T))
  | .insertCdc newEntry =>
    (m.insertCdc (fun _ _ => newEntry) fuel (MultiPairLike.key newEntry)
      (MultiPairLike.value newEntry)).map fun r => (r.1, r.2.2)
  | .removeCdc k value => (m.removeCdc k value).map fun r => (r.1, r.2.2)
  | .removeSomeCdc k => (m.removeSomeCdc k).map fun r => (r.1, r.2.2)

/-- An entry that is inserted is not there yet, neither as a pair nor in the order. -/
def Fresh (m : BTreeMultiMap M T) : MultiCdcCall T Q V → Prop
  | .insertCdc newEntry => ∀ x ∈ m.set.elements,
      MultiPairLike.into x ≠ MultiPairLike.into newEntry ∧ key x ≠ key newEntry
  | _ => True

instance (m : BTreeMultiMap M T) : ∀ call : MultiCdcCall T Q V, Decidable (call.Fresh m)
  | .insertCdc newEntry => inferInstanceAs (Decidable (∀ x ∈ m.set.elements,
      MultiPairLike.into x ≠ MultiPairLike.into newEntry ∧ key x ≠ key newEntry))
  | .removeCdc _ _ => isTrue trivial
  | .removeSomeCdc _ => isTrue trivial

end MultiCdcCall

/-- The nodes of a multimap as the receiver should have them: vectors of pairs. -/
def BTreeMultiMap.pairs (m : BTreeMultiMap M T) : List (List (Pair Q V)) :=
  m.set.vectors.map (List.map MultiPairLike.intoPair)

/-- A full node that the value goes to is cut where the maxima of the halves have different
keys. -/
def BTreeMultiMap.SplitsApart (m : BTreeMultiMap M T) (v : T) : Prop :=
  ∀ e ∈ m.set.lookupPut (key v), Node.needToSplit (m.set.nodes e.2) m.set.nodeCapacity →
    (Node.max (Node.halve (m.set.nodes e.2)).1).map MultiPairLike.key ≠
      (Node.max (m.set.nodes e.2)).map MultiPairLike.key

/-- Different nodes have maxima with different keys, after the call and in between. -/
def MultiCdcCall.KeepsApart (fuel : ℕ) (m : BTreeMultiMap M T) (call : MultiCdcCall T Q V) :
    Prop :=
  (match call with
    | .insertCdc newEntry => m.SplitsApart newEntry
    | _ => True) ∧
  ∀ r ∈ call.exec fuel m, Apart r.1.pairs

instance (m : BTreeMultiMap M T) (v : T) : Decidable (m.SplitsApart v) :=
  inferInstanceAs (Decidable (∀ e ∈ m.set.lookupPut (key v), _ → _))

instance (fuel : ℕ) (m : BTreeMultiMap M T) :
    ∀ call : MultiCdcCall T Q V, Decidable (call.KeepsApart fuel m)
  | .insertCdc newEntry => inferInstanceAs (Decidable (m.SplitsApart newEntry ∧ _))
  | .removeCdc _ _ => inferInstanceAs (Decidable (True ∧ _))
  | .removeSomeCdc _ => inferInstanceAs (Decidable (True ∧ _))

variable {m : BTreeMultiMap M T}

omit [LinearOrder K] [LawfulSkipMap M T K] [Keyed T K] [DecidableEq V]
  [MultiPairRemoveHelper M T Q V] [LinearOrder Q] in
theorem key_intoPair (x : T) :
    key (MultiPairLike.intoPair x : Pair Q V) = MultiPairLike.key x := rfl

omit [LawfulSkipMap M T K] [DecidableEq V] [MultiPairRemoveHelper M T Q V] in
/-- The pairs are in the order of the entries. -/
theorem key_intoPair_le (hborrow : Coarsens (MultiPairLike.key : T → Q)) (x y : T)
    (h : key x ≤ key y) :
    key (MultiPairLike.intoPair x : Pair Q V) ≤ key (MultiPairLike.intoPair y : Pair Q V) :=
  hborrow x y h

omit [LinearOrder Q] [DecidableEq V] [MultiPairRemoveHelper M T Q V] in
/-- The cut of a full node is apart when the two maxima are. -/
theorem BTreeMultiMap.splitsApart_iff {v : T} {e : T × NodeId} {n mx : T}
    (he : m.set.lookupPut (key v) = some e)
    (hfull : Node.needToSplit (m.set.nodes e.2) m.set.nodeCapacity = true)
    (hlo : (Node.halve (m.set.nodes e.2)).1.getLast? = some n)
    (hhi : (Node.halve (m.set.nodes e.2)).2.getLast? = some mx) :
    m.SplitsApart v ↔ MultiPairLike.key n ≠ MultiPairLike.key mx := by
  have hwhole : (m.set.nodes e.2).getLast? = some mx := by
    rw [← halve_eq (m.set.nodes e.2), List.getLast?_append_of_ne_nil _
      (List.ne_nil_of_mem (List.mem_of_getLast? hhi)), hhi]
  simp [BTreeMultiMap.SplitsApart, he, hfull, Node.max, hlo, hwhole]

omit [DecidableEq V] [MultiPairRemoveHelper M T Q V] in
/-- **The events of an insertion**, converted. -/
theorem BTreeSet.PutChanges.followed_iff {v : T} {changes : List (ChangeEventUnassigned T)}
    {nodes : List (List T)} (h : m.set.PutChanges v changes nodes)
    (hborrow : Coarsens (MultiPairLike.key : T → Q)) {copy : PersistedBTreeMap Q (Pair Q V)}
    (hcopy : copy.Holds m.pairs) (hapart : PersistedBTreeMap.Apart m.pairs)
    (hne : ∀ node ∈ nodes.map (List.map MultiPairLike.intoPair), node ≠ [])
    (hnodup : (nodes.map (List.map MultiPairLike.intoPair)).flatten.Nodup) :
    (∃ copy', copy.persistAll (changes.map (ChangeEventUnassigned.map MultiPairLike.intoPair)) =
        some copy' ∧ copy'.Holds (nodes.map (List.map MultiPairLike.intoPair))) ↔
      m.SplitsApart v ∧ PersistedBTreeMap.Apart (nodes.map (List.map MultiPairLike.intoPair)) := by
  have hpairs := key_intoPair_le (V := V) hborrow
  have hlast : ∀ {l : List T} {x : T}, l.getLast? = some x →
      (l.map (MultiPairLike.intoPair : T → Pair Q V)).getLast? =
        some (MultiPairLike.intoPair x) := fun hx => by
    rw [List.getLast?_map, hx, Option.map_some]
  cases h with
  | edited hsplits hedit =>
    -- no node is cut
    have hnot : m.SplitsApart v := fun e he hfull => absurd ⟨e, he, hfull⟩ hsplits
    rw [List.map_singleton,
      (hedit.map hpairs).followed_iff hcopy hapart hne hnodup, and_iff_right hnot]
  | @lower e a b l r n mx he hfull hcut hlr hr hlo hhi hle =>
    -- the lower half takes the pair and keeps its maximum
    have hsplits := BTreeMultiMap.splitsApart_iff he hfull (hlr ▸ hlo) hhi
    rw [BTreeMultiMap.pairs, hcut, ← halve_eq (m.set.nodes e.2), hlr] at hcopy hapart
    simp only [List.map_append, List.map_cons] at hcopy hapart hne hnodup ⊢
    have hiff := hcopy.split_lower_iff (v := MultiPairLike.intoPair v) hapart
      (by rw [← List.map_append]; exact hlast hlo) (hlast hhi) (by simpa using hr)
      (hpairs _ _ hle) hne hnodup
    rw [hsplits]
    simpa only [List.map_nil, ChangeEventUnassigned.map, List.length_append, List.length_map,
      key_intoPair] using hiff
  | @upper e a b l r n mx he hfull hcut hlr hlo hhi hle hge =>
    -- the upper half does, and its maximum may be the new pair
    have hsplits := BTreeMultiMap.splitsApart_iff he hfull hlo (hlr ▸ hhi)
    rw [BTreeMultiMap.pairs, hcut, ← halve_eq (m.set.nodes e.2), hlr] at hcopy hapart
    simp only [List.map_append, List.map_cons] at hcopy hapart hne hnodup ⊢
    have hiff := hcopy.split_upper_iff (v := MultiPairLike.intoPair v) hapart (hlast hlo)
      (by rw [← List.map_append]; exact hlast hhi)
      (fun hr => hpairs _ _ (hle (by simpa using hr)))
      (fun hr => hpairs _ _ (hge (by simpa using hr))) hne hnodup
    rw [hsplits]
    simpa only [List.map_nil, ChangeEventUnassigned.map, List.length_map, key_intoPair] using hiff

/-- What holds between two calls: each pair is there once, the first node can be allocated, splits
have two halves and events are reported. -/
structure BTreeMultiMap.Reporting (m : BTreeMultiMap M T) : Prop where
  good : m.Good
  cdc : m.set.cdc = true
  capacity : 2 ≤ m.set.nodeCapacity
  allocates : m.set.Allocates

omit [DecidableEq V] [MultiPairRemoveHelper M T Q V] [LinearOrder Q] in
/-- No vector is empty, and no pair is in two places. -/
theorem BTreeMultiMap.Good.tidy (hm : m.Good) :
    (∀ node ∈ m.pairs, node ≠ []) ∧ m.pairs.flatten.Nodup := by
  constructor
  · intro node hnode
    obtain ⟨l, hl, rfl⟩ := List.mem_map.mp hnode
    obtain ⟨e, he, rfl⟩ := List.mem_map.mp hl
    simpa using hm.settled.atRest.ne_nil he
  · rw [pairs, ← List.map_flatten, BTreeSet.flatten_vectors]
    refine List.Nodup.of_map (fun pair : Pair Q V => (pair.key, pair.value)) ?_
    rw [List.map_map]
    exact hm.nodup

/-- The events of a call are numbered from the counter on, and a receiver that has the nodes of `m`
has those of `m'` after them if and only if `ok`. -/
def BTreeMultiMap.Reported (m : BTreeMultiMap M T) (cdc : List (ChangeEvent T))
    (m' : BTreeMultiMap M T) (ok : Prop) : Prop :=
  ∃ changes, cdc = BTreeSet.number m.set.eventId changes ∧
    m'.set.eventId = fetchAdd^[changes.length] m.set.eventId ∧ changes.length ≤ 3 ∧
    ∀ copy : PersistedBTreeMap Q (Pair Q V), copy.Holds m.pairs →
      ((∃ copy', copy.persistAll
          (changes.map (ChangeEventUnassigned.map MultiPairLike.intoPair)) = some copy' ∧
        copy'.Holds m'.pairs) ↔ ok)

omit [DecidableEq V] [MultiPairRemoveHelper M T Q V] in
/-- A call that changes nothing. -/
theorem BTreeMultiMap.Good.reported_nil (hm : m.Good) : m.Reported [] m (Apart m.pairs) := by
  refine ⟨[], rfl, rfl, by simp, fun copy hcopy => ?_⟩
  exact iff_of_true ⟨copy, rfl, hcopy⟩ (hcopy.apart hm.tidy.1 hm.tidy.2)

omit [MultiPairRemoveHelper M T Q V] in
/-- **The removal of a stored pair.** -/
theorem BTreeMultiMap.Reporting.removed (hm : m.Reporting)
    (hborrow : Coarsens (MultiPairLike.key : T → Q)) {x : T} (hx : x ∈ m.set.elements) :
    ∃ s' cdc, m.set.removeCdc (key x) = some (s', some x, cdc) ∧
      (⟨s'⟩ : BTreeMultiMap M T).Reporting ∧
      m.Reported cdc ⟨s'⟩ (Apart (⟨s'⟩ : BTreeMultiMap M T).pairs) := by
  obtain ⟨s', cdc, heval, hs', hbuild, helements⟩ := hm.good.removeCdc hx
  have hm' : (⟨s'⟩ : BTreeMultiMap M T).Reporting := ⟨hm.good.of_filter hs' helements,
    hbuild.cdc.trans hm.cdc, hbuild.nodeCapacity ▸ hm.capacity, hbuild.allocates hm.allocates⟩
  obtain ⟨_, _, _, heval', changes, hnumber, hid, hlen, -⟩ :=
    BTreeSet.removeCdc_reported hm.good.settled hm.cdc (key x)
  cases heval.symm.trans heval'
  obtain ⟨_, _, _, heval'', hchanges⟩ :=
    BTreeSet.removeCdc_changes hm.good.settled hm.cdc (key x)
  cases heval.symm.trans heval''
  have hmap : cdc.map ChangeEvent.change = changes := by rw [hnumber, map_change_number]
  refine ⟨s', cdc, heval, hm', changes, hnumber, hid, hlen, fun copy hcopy => ?_⟩
  have hapart := hcopy.apart hm.good.tidy.1 hm.good.tidy.2
  rcases hchanges with ⟨hnil, hsame⟩ | ⟨change, hone, hedit⟩
  · have hpairs : (⟨s'⟩ : BTreeMultiMap M T).pairs = m.pairs := congrArg (List.map _) hsame
    rw [hpairs, ← hmap, hnil]
    exact iff_of_true ⟨copy, rfl, hcopy⟩ hapart
  · rw [← hmap, hone]
    exact (hedit.map (key_intoPair_le hborrow)).followed_iff hcopy hapart hm'.good.tidy.1
      hm'.good.tidy.2

omit [MultiPairRemoveHelper M T Q V] in
/-- **The insertion of a new pair.** -/
theorem BTreeMultiMap.Reporting.inserted (hm : m.Reporting)
    (hborrow : Coarsens (MultiPairLike.key : T → Q)) (fuel : ℕ) {v : T}
    (hfresh : ∀ x ∈ m.set.elements,
      MultiPairLike.into x ≠ MultiPairLike.into v ∧ key x ≠ key v) :
    ∃ s' old cdc, m.set.putCdc (fuel + 1) v = some (s', old, cdc) ∧
      (⟨s'⟩ : BTreeMultiMap M T).Reporting ∧
      m.Reported cdc ⟨s'⟩ (m.SplitsApart v ∧ Apart (⟨s'⟩ : BTreeMultiMap M T).pairs) := by
  have hsettled := hm.good.settled
  obtain ⟨s', cdc, heval, hs', hbuild, helements⟩ :=
    BTreeSet.putCdc_spec hsettled hm.allocates fuel v
  have habsent : find key (key v) m.set.elements = none :=
    find_eq_none.mpr fun x hx => (hfresh x hx).2
  have hplace : find key (key v) m.set.elements =
      m.set.elements.find? fun pair => MultiPairLike.into pair = MultiPairLike.into v := by
    rw [habsent, eq_comm]
    exact List.find?_eq_none.mpr fun x hx => by simpa using (hfresh x hx).1
  have hm' : (⟨s'⟩ : BTreeMultiMap M T).Reporting := by
    refine ⟨⟨hs', ?_⟩, hbuild.cdc.trans hm.cdc, hbuild.nodeCapacity ▸ hm.capacity,
      hbuild.allocates hm.allocates⟩
    rw [helements]
    exact nodup_put hsettled.atRest.elements_ascending hm.good.nodup hplace
  -- the same call seen from its identifiers and from its changes
  obtain ⟨_, _, _, heval', changes, hnumber, hid, hlen, -⟩ :=
    BTreeSet.putCdc_reported hsettled hm.cdc hm.capacity hm.allocates fuel v
  cases heval.symm.trans heval'
  rw [habsent] at heval
  obtain ⟨_, _, heval'', hchanges⟩ := BTreeSet.putCdc_changes hsettled hm.cdc hm.capacity
    hm.allocates fuel fun x hx => (hfresh x hx).2
  cases heval.symm.trans heval''
  have hmap : cdc.map ChangeEvent.change = changes := by rw [hnumber, map_change_number]
  refine ⟨s', _, cdc, heval, hm', changes, hnumber, hid, hlen, fun copy hcopy => ?_⟩
  rw [← hmap]
  exact hchanges.followed_iff hborrow hcopy (hcopy.apart hm.good.tidy.1 hm.good.tidy.2)
    hm'.good.tidy.1 hm'.good.tidy.2

/-- **One call.** -/
theorem BTreeMultiMap.Reporting.exec [LawfulMultiPair M T] (hm : m.Reporting) (fuel : ℕ)
    (call : MultiCdcCall T Q V) (hfresh : call.Fresh m) :
    ∃ m' cdc, call.exec (fuel + 1) m = some (m', cdc) ∧ m'.Reporting ∧
      m.Reported cdc m' (call.KeepsApart (fuel + 1) m) := by
  have hborrow : Coarsens (MultiPairLike.key : T → Q) := LawfulMultiPair.coarsens M
  -- a removal keeps the maxima apart when they are apart after it
  have hkeeps : ∀ {call : MultiCdcCall T Q V} {m' cdc}, call.exec (fuel + 1) m = some (m', cdc) →
      ((match call with
        | .insertCdc newEntry => m.SplitsApart newEntry
        | _ => True) ∧ Apart m'.pairs ↔ call.KeepsApart (fuel + 1) m) := by
    intro call m' cdc heval
    simp [MultiCdcCall.KeepsApart, heval]
  cases call with
  | insertCdc newEntry =>
    obtain ⟨s', old, cdc, heval, hm', hreported⟩ := hm.inserted hborrow fuel hfresh
    have hexec : (MultiCdcCall.insertCdc newEntry : MultiCdcCall T Q V).exec (fuel + 1) m =
        some (⟨s'⟩, cdc) := by
      simp [MultiCdcCall.exec, insertCdc, heval]
    refine ⟨_, _, hexec, hm', ?_⟩
    rwa [← hkeeps hexec]
  | removeCdc k v =>
    rcases LawfulMultiPair.removesPairs m hm.good k v with ⟨x, hx, -, hremove⟩ | ⟨-, hremove⟩
    · obtain ⟨s', cdc, heval, hm', hreported⟩ := hm.removed hborrow hx
      have hexec : (MultiCdcCall.removeCdc k v : MultiCdcCall T Q V).exec (fuel + 1) m =
          some (⟨s'⟩, cdc) := by
        simp [MultiCdcCall.exec, removeCdc, hremove, heval]
      refine ⟨_, _, hexec, hm', ?_⟩
      rw [← hkeeps hexec]
      simpa using hreported
    · have hexec : (MultiCdcCall.removeCdc k v : MultiCdcCall T Q V).exec (fuel + 1) m =
          some (m, []) := by
        simp [MultiCdcCall.exec, removeCdc, hremove]
      refine ⟨_, _, hexec, hm, ?_⟩
      rw [← hkeeps hexec]
      simpa using hm.good.reported_nil
  | removeSomeCdc k =>
    rcases BTreeSet.removeCdcOf_spec hm.good.settled.atRest hborrow k with
      ⟨x, hx, -, hremove⟩ | ⟨-, hremove⟩
    · obtain ⟨s', cdc, heval, hm', hreported⟩ := hm.removed hborrow hx
      have hexec : (MultiCdcCall.removeSomeCdc k : MultiCdcCall T Q V).exec (fuel + 1) m =
          some (⟨s'⟩, cdc) := by
        simp [MultiCdcCall.exec, removeSomeCdc, hremove, heval]
      refine ⟨_, _, hexec, hm', ?_⟩
      rw [← hkeeps hexec]
      simpa using hreported
    · have hexec : (MultiCdcCall.removeSomeCdc k : MultiCdcCall T Q V).exec (fuel + 1) m =
          some (m, []) := by
        simp [MultiCdcCall.exec, removeSomeCdc, hremove]
      refine ⟨_, _, hexec, hm, ?_⟩
      rw [← hkeeps hexec]
      simpa using hm.good.reported_nil

/-! ## §3 Runs -/

omit [LinearOrder K] [Keyed T K] [LawfulSkipMap M T K] [LinearOrder Q] [DecidableEq V]
  [MultiPairLike T Q V] [MultiPairRemoveHelper M T Q V] in
theorem ExecAlong.of_append {σ α β : Type} {exec : σ → α → Option (σ × β)} {P : σ → α → Prop}
    {s : σ} {ops more : List α} (h : ExecAlong exec P s (ops ++ more)) :
    ExecAlong exec P s ops := by
  induction ops generalizing s with
  | nil => trivial
  | cons op ops ih => exact ⟨h.1, fun r hr => ih (h.2 r hr)⟩

/-- The change of a converted event. -/
def pairChanges (events : List (List (ChangeEvent T))) :
    List (ChangeEventUnassigned (Pair Q V)) :=
  events.flatten.map fun ev => ev.change.map MultiPairLike.intoPair

/-- The calls return, and a receiver that has the nodes before them has the nodes after them. -/
def FollowsPairs (fuel : ℕ) (m : BTreeMultiMap M T) (copy : PersistedBTreeMap Q (Pair Q V))
    (calls : List (MultiCdcCall T Q V)) : Prop :=
  ∃ m' events copy', execAll (MultiCdcCall.exec fuel) m calls = some (m', events) ∧
    copy.persistAll (pairChanges events) = some copy' ∧ copy'.Holds m'.pairs

/-- **The calls of a run** return, and number their events from the counter on. -/
theorem BTreeMultiMap.Reporting.execAll [LawfulMultiPair M T] (hm : m.Reporting) (fuel : ℕ)
    (calls : List (MultiCdcCall T Q V))
    (hfresh : ExecAlong (MultiCdcCall.exec (fuel + 1)) (fun m call => call.Fresh m) m calls) :
    ∃ m' events changes, execAll (MultiCdcCall.exec (fuel + 1)) m calls = some (m', events) ∧
      events.flatten = BTreeSet.number m.set.eventId changes ∧
      changes.length ≤ 3 * calls.length := by
  induction calls generalizing m with
  | nil => exact ⟨m, [], [], rfl, rfl, by simp⟩
  | cons call calls ih =>
    obtain ⟨hfirst, hrest⟩ := hfresh
    obtain ⟨m₁, cdc, heval, hm₁, changes, hcdc, hid, hlen, -⟩ := hm.exec fuel call hfirst
    obtain ⟨m', events, more, hcalls, hevents, hmore⟩ := ih hm₁ (hrest _ heval)
    refine ⟨m', cdc :: events, changes ++ more, by simp [Concurrent.execAll, heval, hcalls], ?_, ?_⟩
    · rw [List.flatten_cons, hevents, hcdc, hid, BTreeSet.number_append]
    · rw [List.length_append, List.length_cons]
      omega

/-- **A run follows the nodes step by step**: all its beginnings do if and only if every call keeps
the maxima apart. -/
theorem BTreeMultiMap.Reporting.follows_iff [LawfulMultiPair M T] (hm : m.Reporting) (fuel : ℕ)
    (calls : List (MultiCdcCall T Q V))
    (hfresh : ExecAlong (MultiCdcCall.exec (fuel + 1)) (fun m call => call.Fresh m) m calls)
    {copy : PersistedBTreeMap Q (Pair Q V)} (hcopy : copy.Holds m.pairs) :
    (∀ pre, pre <+: calls → FollowsPairs (fuel + 1) m copy pre) ↔
      ExecAlong (MultiCdcCall.exec (fuel + 1)) (fun m call => call.KeepsApart (fuel + 1) m) m
        calls := by
  induction calls generalizing m copy with
  | nil =>
    refine iff_of_true (fun pre hpre => ?_) trivial
    rw [List.prefix_nil.mp hpre]
    exact ⟨m, [], copy, rfl, persistAll_nil, hcopy⟩
  | cons call calls ih =>
    obtain ⟨hfirst, hrest⟩ := hfresh
    obtain ⟨m₁, cdc, heval, hm₁, changes, hcdc, -, -, hreported⟩ := hm.exec fuel call hfirst
    have hchange : cdc.map (fun ev => ev.change.map MultiPairLike.intoPair) =
        changes.map (ChangeEventUnassigned.map (MultiPairLike.intoPair : T → Pair Q V)) := by
      rw [← map_change_number m.set.eventId changes, ← hcdc, List.map_map]
      rfl
    have hone := hreported copy hcopy
    rw [← hchange] at hone
    constructor
    · intro hall
      -- the first call on its own
      obtain ⟨_, _, copy₁, hrun, hpersist, hholds⟩ := hall [call] (by simp)
      simp only [Concurrent.execAll, heval, Option.bind_eq_bind, Option.bind_some, Option.pure_def,
        Option.some.injEq, Prod.mk.injEq] at hrun
      obtain ⟨rfl, rfl⟩ := hrun
      simp only [pairChanges, List.flatten_cons, List.flatten_nil, List.append_nil] at hpersist
      refine ⟨hone.mp ⟨copy₁, hpersist, hholds⟩, fun r hr => ?_⟩
      cases hr.symm.trans heval
      refine (ih hm₁ (hrest _ heval) hholds).mp fun pre hpre => ?_
      obtain ⟨m', events, copy', hrun, hpersist', hholds'⟩ :=
        hall (call :: pre) ((List.prefix_cons_inj call).mpr hpre)
      obtain ⟨more, rfl⟩ := hpre
      obtain ⟨_, _, _, hpre, -⟩ := hm₁.execAll fuel pre (hrest _ heval).of_append
      simp only [Concurrent.execAll, heval, hpre, Option.bind_eq_bind, Option.bind_some,
        Option.pure_def, Option.some.injEq, Prod.mk.injEq] at hrun
      obtain ⟨rfl, rfl⟩ := hrun
      rw [pairChanges, List.flatten_cons, List.map_append, persistAll_append hpersist] at hpersist'
      exact ⟨_, _, copy', hpre, hpersist', hholds'⟩
    · rintro ⟨hkeep, hkeeps⟩ pre hpre
      obtain ⟨copy₁, hpersist, hholds⟩ := hone.mpr hkeep
      rcases List.prefix_cons_iff.mp hpre with rfl | ⟨pre, rfl, hpre'⟩
      · exact ⟨m, [], copy, rfl, persistAll_nil, hcopy⟩
      · obtain ⟨m', events, copy', hrun, hpersist', hholds'⟩ :=
          (ih hm₁ (hrest _ heval) hholds).mpr (hkeeps _ heval) pre hpre'
        refine ⟨m', cdc :: events, copy', by simp [Concurrent.execAll, heval, hrun], ?_, hholds'⟩
        rw [pairChanges, List.flatten_cons, List.map_append, persistAll_append hpersist]
        exact hpersist'

omit [DecidableEq V] in
/-- Where the first node cannot be allocated, a call on the empty multimap panics or does
nothing. -/
theorem MultiCdcCall.exec_overflow [LawfulMultiPair M T] (hm : m.Good) (hnil : m.set.entries = [])
    (hoverflow : ¬ m.set.Allocates) (fuel : ℕ) (call : MultiCdcCall T Q V) :
    call.exec fuel m = none ∨ call.exec fuel m = some (m, []) := by
  have hempty : m.set.elements = [] := by
    rw [BTreeSet.elements, BTreeSet.view, hnil]
    rfl
  cases call with
  | insertCdc newEntry =>
    exact Or.inl (by
      simp [exec, BTreeMultiMap.insertCdc, BTreeSet.putCdc_overflow hnil hoverflow])
  | removeCdc k v =>
    rcases LawfulMultiPair.removesPairs m hm k v with ⟨x, hx, -⟩ | ⟨-, hremove⟩
    · simp [hempty] at hx
    · exact Or.inr (by simp [exec, BTreeMultiMap.removeCdc, hremove])
  | removeSomeCdc k =>
    have hborrow : Coarsens (MultiPairLike.key : T → Q) := LawfulMultiPair.coarsens M
    rcases BTreeSet.removeCdcOf_spec hm.settled.atRest hborrow k with ⟨x, hx, -⟩ | ⟨-, hremove⟩
    · simp [hempty] at hx
    · exact Or.inr (by simp [exec, BTreeMultiMap.removeSomeCdc, hremove])

/-- The calls, one after another on an empty multimap, return if its first node can be allocated;
when they do, their events, converted to those of pairs and replayed in the order of their
identifiers, give the pairs of every node under the key of its maximum, and nothing else. -/
def ReproducesPairs (M : Type) {T K Q V : Type} [LinearOrder K] [Keyed T K] [LawfulSkipMap M T K]
    [LinearOrder Q] [MultiPairLike T Q V] [MultiPairRemoveHelper M T Q V]
    (elementSize fuel capacity : ℕ) (calls : List (MultiCdcCall T Q V)) : Prop :=
  let run := execAll (MultiCdcCall.exec fuel)
    (BTreeMultiMap.withMaximumNodeSize true elementSize capacity : BTreeMultiMap M T) calls
  (capacity * elementSize ≤ Node.isizeMax → run.isSome) ∧
    ∀ r ∈ run, ∃ copy : PersistedBTreeMap Q (Pair Q V),
      replay (r.2.flatten.map (multipairChangeEventIntoPair MultiPairLike.intoPair)) = some copy ∧
        copy.Holds r.1.pairs

omit [DecidableEq V] [MultiPairRemoveHelper M T Q V] [LinearOrder Q] in
theorem BTreeMultiMap.withMaximumNodeSize_pairs (elementSize capacity : ℕ) :
    (withMaximumNodeSize true elementSize capacity : BTreeMultiMap M T).pairs =
      ([] : List (List (Pair Q V))) := by
  rw [pairs, BTreeSet.vectors, withMaximumNodeSize, BTreeSet.withMaximumNodeSize_entries]
  rfl

/-- **Replay of converted events**: for every node capacity from `2` on and every sequence of
`insert_cdc` of new pairs, `remove_cdc` and `remove_some_cdc` short enough for the identifiers, the
replay of the events as those of pairs gives the nodes after every call of the run if and only if
the maxima of different nodes have different keys, after each call and in each split. -/
theorem converted_replay_iff [LawfulMultiPair M T] {elementSize capacity : ℕ} (hcap : 2 ≤ capacity)
    (fuel : ℕ) (calls : List (MultiCdcCall T Q V)) (hlen : 3 * calls.length ≤ 2 ^ 64)
    (hfresh : ExecAlong (MultiCdcCall.exec (fuel + 1)) (fun m call => call.Fresh m)
      (BTreeMultiMap.withMaximumNodeSize true elementSize capacity : BTreeMultiMap M T) calls) :
    (∀ pre, pre <+: calls → ReproducesPairs M elementSize (fuel + 1) capacity pre) ↔
      ExecAlong (MultiCdcCall.exec (fuel + 1)) (fun m call => call.KeepsApart (fuel + 1) m)
        (BTreeMultiMap.withMaximumNodeSize true elementSize capacity : BTreeMultiMap M T)
        calls := by
  obtain ⟨hgood, hnone⟩ :=
    BTreeMultiMap.withMaximumNodeSize_good (M := M) (T := T) true elementSize capacity
  have hempty := BTreeMultiMap.withMaximumNodeSize_pairs (M := M) (T := T) (Q := Q) (V := V)
    elementSize capacity
  by_cases hfits : capacity * elementSize ≤ Node.isizeMax
  swap
  · -- the multimap stays empty, and so does the copy
    have hnil := BTreeSet.withMaximumNodeSize_entries (M := M) (T := T) true elementSize capacity
    have hstays := MultiCdcCall.exec_overflow hgood hnil hfits (fuel + 1)
    refine iff_of_true (fun pre _ => ⟨fun h => absurd h hfits, fun r hr => ?_⟩)
      (execAlong_of_stays hstays (fun call => ⟨?_, fun r hr => ?_⟩) calls)
    · obtain rfl := execAll_of_stays hstays hr
      have hevents : (pre.map fun _ => ([] : List (ChangeEvent T))).flatten = [] :=
        List.flatten_eq_nil_iff.mpr fun l hl => (List.mem_map.mp hl).elim fun _ h => h.2.symm
      refine ⟨PersistedBTreeMap.empty, ?_, hempty ▸ holds_nil⟩
      rw [hevents]
      rfl
    · cases call with
      | insertCdc newEntry =>
        intro e he
        have hlookup := BTreeSet.lookupPut_eq_none (q := key newEntry).mpr hnil
        cases hlookup.symm.trans he
      | _ => trivial
    · rcases hstays call with h | h
      · cases h.symm.trans hr
      · cases h.symm.trans hr
        rw [hempty]
        exact holds_nil.apart (by simp) (by simp)
  have hm : (BTreeMultiMap.withMaximumNodeSize true elementSize capacity :
      BTreeMultiMap M T).Reporting := ⟨hgood, rfl, hcap, hfits⟩
  rw [← hm.follows_iff fuel calls hfresh (hempty ▸ holds_nil)]
  refine forall₂_congr fun pre hpre => ?_
  obtain ⟨more, rfl⟩ := hpre
  obtain ⟨m', events, changes, hrun, hevents, hchanges⟩ :=
    hm.execAll fuel pre hfresh.of_append
  -- the identifiers do not wrap around, and the conversion keeps them
  have hids : (events.flatten.map
      (multipairChangeEventIntoPair (MultiPairLike.intoPair : T → Pair Q V))).map
        ChangeEvent.eventId = List.range' 0 changes.length := by
    rw [List.map_map, hevents]
    rw [List.length_append] at hlen
    have hbound : 0 + changes.length ≤ 2 ^ 64 := by omega
    exact BTreeSet.eventId_number hbound
  have hreplay : replay (events.flatten.map
      (multipairChangeEventIntoPair (MultiPairLike.intoPair : T → Pair Q V))) =
        (PersistedBTreeMap.empty : PersistedBTreeMap Q (Pair Q V)).persistAll
          (pairChanges events) := by
    rw [replay_of_perm (List.Perm.refl _) (hids ▸ List.pairwise_lt_range'), List.map_map]
    rfl
  simp only [ReproducesPairs, FollowsPairs, hrun, Option.isSome_some, implies_true, true_and,
    Option.mem_some, forall_eq', Option.some.injEq, Prod.mk.injEq, hreplay]
  constructor
  · rintro ⟨copy, hcopy, hholds⟩
    exact ⟨m', events, copy, ⟨rfl, rfl⟩, hcopy, hholds⟩
  · rintro ⟨_, _, copy, ⟨rfl, rfl⟩, hcopy, hholds⟩
    exact ⟨copy, hcopy, hholds⟩

/-- Pairs of one key in two nodes, next to a pair of a larger key. -/
def sharedKeyCalls : List (MultiCdcCall (RandomMultiPair ℕ ℕ) ℕ ℕ) :=
  [.insertCdc ⟨1, 5, 30⟩, .insertCdc ⟨1, 6, 10⟩, .insertCdc ⟨2, 7, 20⟩, .insertCdc ⟨3, 5, 40⟩,
    .insertCdc ⟨1, 8, 5⟩, .removeCdc 1 5, .removeSomeCdc 3, .removeCdc 4 4]

theorem converted_replay_iff_sharedKeyCalls :
    ReproducesPairs (SortedIndex (RandomMultiPair ℕ ℕ)) 24 1 3 sharedKeyCalls :=
  (converted_replay_iff (by decide) 0 sharedKeyCalls (by decide) (by decide)).mpr (by decide)
    sharedKeyCalls (List.prefix_refl _)

end Calls

end IndexSet.Concurrent
