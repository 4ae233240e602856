import IndexSet.Concurrent.EventIds
import IndexSet.Concurrent.Mirror
import IndexSet.Concurrent.Sequential

/-!
# Replaying the Events of One Thread

`insert_cdc` and `remove_cdc` of `concurrent/map.rs`, called one after another on an empty
map, and their events replayed by the receiver of `Cdc.Persisted`.

- §1 one call: its events take the copy of the index to the copy after it, unless the call
  overwrites, in a full node, the maximum of the node or of its lower half;
- §2 runs: the copy follows the index as long as no call does.
-/

namespace IndexSet.Concurrent

open KeyedList PersistedBTreeMap

variable {M T K : Type} [LinearOrder K] [Keyed T K] [LawfulSkipMap M T K]

/-! ## §1 One call -/

namespace BTreeSet

/-- The value goes to a full node, over the maximum of the node or of its lower half. -/
def OverwritesOnSplit (s : BTreeSet M T) (v : T) : Prop :=
  ∃ e ∈ s.lookupPut (key v), Node.needToSplit (s.nodes e.2) s.nodeCapacity ∧
    s.OverwritesMax e.2 v

instance (s : BTreeSet M T) (v : T) : Decidable (s.OverwritesOnSplit v) :=
  inferInstanceAs (Decidable (∃ e ∈ s.lookupPut (key v), _ ∧ _))

/-- The call numbers its events from the counter on, and they report it if and only if `ok`. -/
def Reported (s : BTreeSet M T) (cdc : List (ChangeEvent T)) (s' : BTreeSet M T) (ok : Prop) :
    Prop :=
  ∃ changes, cdc = number s.eventId changes ∧ s'.eventId = fetchAdd^[changes.length] s.eventId ∧
    changes.length ≤ 3 ∧ (s.Reports changes s' ↔ ok)

variable {s : BTreeSet M T}

theorem Reported.of_emit {s' : BTreeSet M T} {cdc : List (ChangeEvent T)} {ok : Prop}
    (hcdc : s.cdc = true) {changes : List (ChangeEventUnassigned T)}
    (hid : s'.eventId = (s.emit changes).1.eventId) (hevents : cdc = (s.emit changes).2)
    (hlen : changes.length ≤ 3) (hreports : s.Reports changes s' ↔ ok) : s.Reported cdc s' ok := by
  rw [emit_of_cdc hcdc] at hid hevents
  exact ⟨changes, hevents, hid, hlen, hreports⟩

/-- A call that changes nothing and reports nothing. -/
theorem Reported.unchanged {ok : Prop} (hok : ok) : s.Reported [] s ok :=
  ⟨[], rfl, rfl, by simp, by simp [Reports, persistAll_nil, hok]⟩

theorem length_halfEvents (maxValue value : T) (idx : ℕ) (old : Option T) :
    (halfEvents maxValue value idx old).length ≤ 2 := by
  cases old <;> simp [halfEvents]

/-- A split has three events at most. -/
theorem length_commitSplit_events {n : NodeId} {m : T} (oldMax v : T)
    (hasc : Ascending key (s.nodes n)) (hm : (s.nodes n).getLast? = some m) :
    (s.commitSplit n oldMax v).2.2.length ≤ 3 := by
  rcases commitSplit_cases oldMax v hasc hm with ⟨lo, -, -, -, heval⟩ | ⟨-, -, _, -, heval⟩
  all_goals
    rw [heval]
    cases s.cdc with
    | true => exact Nat.succ_le_succ (length_halfEvents ..)
    | false => exact Nat.zero_le _

theorem length_replaceEvents {node : List T} {idx : ℕ} {m v : T}
    {changes : List (ChangeEventUnassigned T)} (h : replaceEvents node idx m v = some changes) :
    changes.length ≤ 3 := by
  unfold replaceEvents at h
  split at h
  · cases h
    simp
  · split at h
    · obtain ⟨_, -, rfl⟩ := Option.map_eq_some_iff.mp h
      simp
    · cases h
      simp

/-- **One put.** -/
theorem putCdc_reported (hs : s.Settled) (hcdc : s.cdc = true) (hcap : 2 ≤ s.nodeCapacity)
    (hfits : s.Allocates) (fuel : ℕ) (v : T) :
    ∃ s' old cdc, s.putCdc (fuel + 1) v = some (s', old, cdc) ∧
      s.Reported cdc s' (¬ s.OverwritesOnSplit v) := by
  cases he : s.lookupPut (key v) with
  | none =>
    have hnil := lookupPut_eq_none.mp he
    have hnot : ¬ s.OverwritesOnSplit v := by simp [OverwritesOnSplit, he]
    obtain ⟨s', hins, hcreated, hid⟩ := s.insertFirst_spec v
    refine ⟨s', none, (s.emit [.createNode v]).2,
      by simp [putCdc, putCdcChecked, he, firstNode_of_allocates hfits, hs.unpoisoned, hins], ?_⟩
    exact .of_emit hcdc hid rfl (by simp) (iff_of_true (hcreated.reports hnil) hnot)
  | some e =>
    obtain ⟨a, b, hcut, ha, hle⟩ := lookupPut_eq_some he
    have hmem : e ∈ s.entries := by simp [hcut]
    have hne := hs.atRest.ne_nil hmem
    have hasc := hs.atRest.sorted e.2
    have hcoh := hs.atRest.coherent
    obtain ⟨s₁, outcome, heval, hedit⟩ := s.putEdit_spec e v hasc
    -- a node with room is not split
    have hnot : (s.nodes e.2).length < s.nodeCapacity → ¬ s.OverwritesOnSplit v := by
      rintro hroom ⟨e', he', hfull, -⟩
      rw [he, Option.mem_some] at he'
      subst he'
      simp only [Node.needToSplit, decide_eq_true_eq] at hfull
      omega
    cases hedit with
    | full hfull =>
      obtain ⟨s₂, hcommit, hs₂, -⟩ := split_spec hs.atRest [] he
      have hadm := (hcoh.cut hcut).admissible_target (Coherent.target (s := s) ha hle)
      have hreports := hcoh.reports_split hcdc hcut rfl hasc (by omega) hadm
      have hsame := s.commitSplit_same e.2 e.1 v
      obtain ⟨hstate, hevents⟩ := emit_after hsame.1 hsame.2 (s.commitSplit e.2 e.1 v).2.2
      refine ⟨s₂, _, _, by simp only [putCdc, putCdcChecked, he, heval, hcommit]; rfl, ?_⟩
      have hid : s₂.eventId = (s.emit (s.commitSplit e.2 e.1 v).2.2).1.eventId := by
        rw [hs₂, hstate]
      refine .of_emit hcdc hid ?_
        (length_commitSplit_events _ _ hasc (List.getLast?_eq_some_getLast hne)) ?_
      · rw [List.nil_append, hevents]
      · rw [Reports, hs₂, mirror_emit]
        refine hreports.trans (not_congr ?_)
        simp [OverwritesOnSplit, he, Node.needToSplit, hfull]
    | @added l r _ cdc hroom hl hlow hhigh hin hemit =>
      obtain ⟨hid, hevents⟩ := setNode_emit hemit
      obtain ⟨m, hm⟩ : ∃ m, (s.nodes e.2).getLast? = some m :=
        ⟨_, List.getLast?_eq_some_getLast hne⟩
      have hwrote := wrote_emit hemit
      have hput : put key v (s.nodes e.2) = l ++ v :: r := by rw [hl, put_gap hlow hhigh]
      have hcoh' := ((hput ▸ hwrote).coherent_put hcoh he).1
      rw [hm, Option.getD_some] at hid hevents
      refine ⟨s₁, none, cdc, by simp [putCdc, putCdcChecked, he, heval], ?_⟩
      exact .of_emit hcdc hid hevents (by simp) (iff_of_true (hwrote.reports_added hcoh hcoh' hmem
        hl (hin.resolve_left hne) hhigh hm) (hnot hroom))
    | @raised m _ cdc hroom hm hbelow hemit =>
      obtain ⟨hid, hevents⟩ := setNode_emit hemit
      have hwrote := wrote_emit hemit
      obtain ⟨hcommit, hrests, -⟩ := raised_spec hs.atRest cdc he hm hbelow hroom hwrote
      have hput : s.nodes e.2 ++ [v] = put key v (s.nodes e.2) := by
        have hgap := put_gap (v := v) hbelow (above_nil _)
        rw [List.append_nil] at hgap
        exact hgap.symm
      have hcoh' := ((hput ▸ hwrote).coherent_put hcoh he).1
      refine ⟨s₁.rekeyState e.2 m v, none, cdc,
        by simp [putCdc, putCdcChecked, he, heval, hcommit], ?_⟩
      refine .of_emit hcdc hid hevents (by simp) (iff_of_true ?_ (hnot hroom))
      -- the commit moves an index key and no contents
      have hcut₁ : s₁.entries = a ++ e :: b := hwrote.entries.trans hcut
      have hnode : s₁.nodes e.2 = s.nodes e.2 ++ [v] := by rw [hwrote.nodes, Function.update_self]
      have hexact := hs.atRest.exact e hmem
      have hkey : key e.1 = key m := by
        rw [Exact, maxKey_of_getLast? hm] at hexact
        exact (Option.some.inj hexact).symm
      have hentries := hcoh'.rekeyState_entries hcut₁ hkey
        (hnode ▸ hput ▸ put_ascending hasc) (by rw [hnode, maxKey_concat])
      rw [Reports, mirror_rekey hcut₁ hentries rfl]
      exact hwrote.reports_raised hcoh hcoh' hmem hbelow hm
    | @present l r x m hroom hl hx hlow hhigh hm =>
      obtain ⟨s', cdc, changes, hrepl, hwrote, hchanges, hid, hevents⟩ :=
        s.putReplace_spec e.2 m v hl
      have hput : put key v (s.nodes e.2) = l ++ v :: r := by rw [hl, put_hit hx hlow hhigh]
      have hcoh' := ((hput ▸ hwrote).coherent_put hcoh he).1
      refine ⟨s', some x, cdc, by simp [putCdc, putCdcChecked, he, heval, hrepl], ?_⟩
      exact .of_emit hcdc hid hevents (length_replaceEvents (hchanges hcdc)) (iff_of_true
        (hwrote.reports_replaced hcoh hcoh' hmem hl hx hlow hhigh hm (hchanges hcdc)) (hnot hroom))

/-- **One remove.** -/
theorem removeCdc_reported (hs : s.Settled) (hcdc : s.cdc = true) (q : K) :
    ∃ s' old cdc, s.removeCdc q = some (s', old, cdc) ∧ s.Reported cdc s' True := by
  cases hrem : s.lookupRemove q with
  | none => exact ⟨s, none, [], by simp [removeCdc, hrem], .unchanged trivial⟩
  | some e =>
    have he := lookupPut_of_lookupRemove hrem
    obtain ⟨a, b, hcut, -, -⟩ := lookupPut_eq_some he
    have hmem : e ∈ s.entries := by simp [hcut]
    have hasc := hs.atRest.sorted e.2
    have hcoh := hs.atRest.coherent
    obtain ⟨s₁, outcome, heval, hedit⟩ := s.removeEdit_spec e q hasc
    cases hedit with
    | absent _ => exact ⟨s, none, [], by simp [removeCdc, hrem, heval], .unchanged trivial⟩
    | @inside l r x m _ cdc hl hx hr hm hemit =>
      obtain ⟨hid, hevents⟩ := setNode_emit hemit
      have hwrote := wrote_emit hemit
      rw [hl] at hasc
      obtain ⟨_, _, hlow, hhigh⟩ := ascending_append_cons.mp hasc
      have herase : erase key q (s.nodes e.2) = l ++ r := by rw [hl, ← hx, erase_hit rfl hlow hhigh]
      have hcoh' := ((herase ▸ hwrote).coherent_erase hcoh he).1
      refine ⟨s₁, some x, cdc, by simp [removeCdc, hrem, heval], ?_⟩
      exact .of_emit hcdc hid hevents (by simp)
        (iff_of_true (hwrote.reports_inside hcoh hcoh' hmem hl hr hhigh hm) trivial)
    | @lowered l x _ cdc hl hx hne hemit =>
      subst hx
      obtain ⟨hid, hevents⟩ := setNode_emit hemit
      have hwrote := wrote_emit hemit
      rw [hl] at hasc
      obtain ⟨hascl, _, hlow, _⟩ := ascending_append_cons.mp hasc
      have herase : erase key (key x) (s.nodes e.2) = l := by
        rw [hl, erase_hit rfl hlow (above_nil _), List.append_nil]
      have hcoh' := ((herase.symm ▸ hwrote).coherent_erase hcoh he).1
      obtain ⟨m, hm, hcommit, -⟩ := lowered_spec hs.atRest cdc he hl hne hwrote
      refine ⟨s₁.rekeyState e.2 x m, some x, cdc, by simp [removeCdc, hrem, heval, hcommit], ?_⟩
      refine .of_emit hcdc hid hevents (by simp) (iff_of_true ?_ trivial)
      -- the commit moves an index key and no contents
      have hcut₁ : s₁.entries = a ++ e :: b := hwrote.entries.trans hcut
      have hnode : s₁.nodes e.2 = l := by rw [hwrote.nodes, Function.update_self]
      have hexact := hs.atRest.exact e hmem
      have hkey : key e.1 = key x := by
        rw [Exact, hl, maxKey_concat] at hexact
        exact (Option.some.inj hexact).symm
      have hentries := hcoh'.rekeyState_entries hcut₁ hkey (hnode.symm ▸ hascl)
        (by rw [hnode, maxKey_of_getLast? hm])
      rw [Reports, mirror_rekey hcut₁ hentries rfl]
      exact hwrote.reports_lowered hcoh hcoh' hmem hl hne
    | @emptied x hl hx =>
      subst hx
      obtain ⟨s₂, hcommit, hs₂, -⟩ := emptied_spec hs.atRest [] he hl
      have hexact := hs.atRest.exact e hmem
      have hkey : key e.1 = key x := by
        rw [Exact, hl] at hexact
        exact (Option.some.inj hexact).symm
      have hdropped : ((s.setNode e.2 []).dropState x).entries = a ++ b :=
        dropState_entries (s := s.setNode e.2 []) hcut hkey
      have hwrote : s.Wrote e.2 [] (s.setNode e.2 []) :=
        ⟨rfl, rfl, rfl, rfl, rfl, rfl, rfl⟩
      have hothers := hwrote.others hcoh hcut
      have hsame : ((s.setNode e.2 []).dropState x).eventId = s.eventId := rfl
      obtain ⟨hstate, hevents⟩ := emit_after hsame rfl [.removeNode x]
      rw [hcdc, if_pos rfl] at hcommit hs₂
      refine ⟨s₂, _, _, by simp only [removeCdc, hrem, heval, hcommit]; rfl, ?_⟩
      have hid : s₂.eventId = (s.emit [.removeNode x]).1.eventId := by rw [hs₂, hstate]
      refine .of_emit hcdc hid ?_ (by simp) (iff_of_true ?_ trivial)
      · rw [List.nil_append, hevents]
      · refine hcoh.reports_dropped hcut hl rfl ?_
        rw [hs₂, mirror_emit, mirror_drop (s := s.setNode e.2 []) hdropped rfl, hothers]

end BTreeSet

/-! ## §2 Runs -/

/-- A call that returns its change events. -/
inductive CdcCall (Q V K : Type) where
  | insertCdc (k : Q) (value : V)
  | removeCdc (k : K)

section Runs

variable {Q V : Type} [Keyed Q K] [LawfulSkipMap M (Pair Q V) K]

namespace CdcCall

/-- The call on the map, and its events. -/
def exec (fuel : ℕ) (m : BTreeMap M Q V) :
    CdcCall Q V K → Option (BTreeMap M Q V × List (ChangeEvent (Pair Q V)))
  | .insertCdc k value => (m.insertCdc fuel k value).map fun r => (r.1, r.2.2)
  | .removeCdc k => (m.removeCdc k).map fun r => (r.1, r.2.2)

/-- The call does not overwrite, in a full node, the maximum of the node or of its lower
half. -/
def KeepsHalfMax (m : BTreeMap M Q V) : CdcCall Q V K → Prop
  | .insertCdc k value => ¬ m.set.OverwritesOnSplit ⟨k, value⟩
  | .removeCdc _ => True

instance (m : BTreeMap M Q V) : ∀ call : CdcCall Q V K, Decidable (call.KeepsHalfMax m)
  | .insertCdc k value => inferInstanceAs (Decidable (¬ m.set.OverwritesOnSplit ⟨k, value⟩))
  | .removeCdc _ => isTrue trivial

/-- The map after a call. -/
def step (fuel : ℕ) (m : BTreeMap M Q V) (call : CdcCall Q V K) : Option (BTreeMap M Q V) :=
  (call.exec fuel m).map Prod.fst

end CdcCall

/-- The calls, one after another on an empty map, return if its first node can be allocated; when
they do, their events replayed in the order of their identifiers give the index of the map: the
same maximum keys, and under each the same vector of pairs. -/
def Reproduces (M : Type) {K Q V : Type} [LinearOrder K] [Keyed Q K] [LawfulSkipMap M (Pair Q V) K]
    (elementSize fuel capacity : ℕ) (calls : List (CdcCall Q V K)) : Prop :=
  let run := execAll (CdcCall.exec fuel)
    (BTreeMap.withMaximumNodeSize true elementSize capacity : BTreeMap M Q V) calls
  (capacity * elementSize ≤ Node.isizeMax → run.isSome) ∧
    ∀ r ∈ run, replay r.2.flatten = some r.1.set.expectedState

/-- What holds between two calls: the map is settled, its first node can be allocated, splits have
two halves and events are reported. -/
structure BTreeMap.Reporting (m : BTreeMap M Q V) : Prop where
  settled : m.set.Settled
  cdc : m.set.cdc = true
  capacity : 2 ≤ m.set.nodeCapacity
  allocates : m.set.Allocates

/-- **One call.** -/
theorem BTreeMap.Reporting.exec {m : BTreeMap M Q V} (hm : m.Reporting) (fuel : ℕ)
    (call : CdcCall Q V K) :
    ∃ m' cdc, call.exec (fuel + 1) m = some (m', cdc) ∧ m'.Reporting ∧
      m.set.Reported cdc m'.set (call.KeepsHalfMax m) := by
  cases call with
  | insertCdc k value =>
    obtain ⟨s', cdc, heval, hsettled, hbuild, -⟩ :=
      BTreeSet.putCdc_spec hm.settled hm.allocates fuel ⟨k, value⟩
    obtain ⟨s'', old, cdc', heval', hreported⟩ :=
      BTreeSet.putCdc_reported hm.settled hm.cdc hm.capacity hm.allocates fuel ⟨k, value⟩
    cases heval.symm.trans heval'
    exact ⟨⟨s'⟩, cdc, by simp [CdcCall.exec, BTreeMap.insertCdc, heval],
      ⟨hsettled, hbuild.cdc.trans hm.cdc, hbuild.nodeCapacity ▸ hm.capacity,
        hbuild.allocates hm.allocates⟩, hreported⟩
  | removeCdc k =>
    obtain ⟨s', cdc, heval, hsettled, hbuild, -⟩ := BTreeSet.removeCdc_spec hm.settled k
    obtain ⟨s'', old, cdc', heval', hreported⟩ :=
      BTreeSet.removeCdc_reported hm.settled hm.cdc k
    cases heval.symm.trans heval'
    exact ⟨⟨s'⟩, cdc, by simp [CdcCall.exec, BTreeMap.removeCdc, heval],
      ⟨hsettled, hbuild.cdc.trans hm.cdc, hbuild.nodeCapacity ▸ hm.capacity,
        hbuild.allocates hm.allocates⟩, hreported⟩

theorem map_change_number (eventId : ℕ) (changes : List (ChangeEventUnassigned T)) :
    (BTreeSet.number eventId changes).map ChangeEvent.change = changes := by
  induction changes generalizing eventId with
  | nil => rfl
  | cons change changes ih =>
    rw [BTreeSet.number, List.map_cons, ih]
    rfl

/-- The calls return, and their events, in the order in which they came, take the copy of the
index to the copy after them. -/
def Follows (fuel : ℕ) (m : BTreeMap M Q V) (calls : List (CdcCall Q V K)) : Prop :=
  ∃ m' events, execAll (CdcCall.exec fuel) m calls = some (m', events) ∧
    m.set.Reports (events.flatten.map ChangeEvent.change) m'.set

/-- **The calls of a run** return, and number their events from the counter on. -/
theorem BTreeMap.Reporting.execAll {m : BTreeMap M Q V} (hm : m.Reporting) (fuel : ℕ)
    (calls : List (CdcCall Q V K)) :
    ∃ m' events changes, execAll (CdcCall.exec (fuel + 1)) m calls = some (m', events) ∧
      m'.Reporting ∧ events.flatten = BTreeSet.number m.set.eventId changes ∧
      changes.length ≤ 3 * calls.length := by
  induction calls generalizing m with
  | nil => exact ⟨m, [], [], rfl, hm, rfl, by simp⟩
  | cons call calls ih =>
    obtain ⟨m₁, cdc, heval, hm₁, changes, hcdc, hid, hlen, -⟩ := hm.exec fuel call
    obtain ⟨m', events, more, hrest, hm', hevents, hmore⟩ := ih hm₁
    refine ⟨m', cdc :: events, changes ++ more, by simp [Concurrent.execAll, heval, hrest], hm', ?_,
      ?_⟩
    · rw [List.flatten_cons, hevents, hcdc, hid, BTreeSet.number_append]
    · rw [List.length_append, List.length_cons]
      omega

/-- **A run follows the index step by step**: all its beginnings do if and only if none of
its calls overwrites the maximum of a half. -/
theorem BTreeMap.Reporting.follows_iff {m : BTreeMap M Q V} (hm : m.Reporting) (fuel : ℕ)
    (calls : List (CdcCall Q V K)) :
    (∀ pre, pre <+: calls → Follows (fuel + 1) m pre) ↔
      Transition.Along (CdcCall.step (fuel + 1)) (fun m call => call.KeepsHalfMax m) m calls := by
  induction calls generalizing m with
  | nil =>
    refine iff_of_true (fun pre hpre => ?_) trivial
    rw [List.prefix_nil.mp hpre]
    exact ⟨m, [], rfl, persistAll_nil⟩
  | cons call calls ih =>
    obtain ⟨m₁, cdc, heval, hm₁, changes, hcdc, hid, -, hreports⟩ := hm.exec fuel call
    have hstep : CdcCall.step (fuel + 1) m call = some m₁ := by simp [CdcCall.step, heval]
    have hchange : cdc.map ChangeEvent.change = changes := by rw [hcdc, map_change_number]
    -- the first call on its own, and a longer beginning
    have hone : Follows (fuel + 1) m [call] ↔ call.KeepsHalfMax m := by
      rw [← hreports]
      constructor
      · rintro ⟨m', events, hrun, hfollows⟩
        simp only [Concurrent.execAll, heval, Option.bind_eq_bind, Option.bind_some,
          Option.pure_def, Option.some.injEq, Prod.mk.injEq] at hrun
        obtain ⟨rfl, rfl⟩ := hrun
        simpa [hchange] using hfollows
      · intro hfollows
        exact ⟨m₁, [cdc], by simp [Concurrent.execAll, heval], by simpa [hchange] using hfollows⟩
    have hcons : call.KeepsHalfMax m → ∀ pre, Follows (fuel + 1) m (call :: pre) ↔
        Follows (fuel + 1) m₁ pre := by
      intro hkeep pre
      have hfirst := hreports.mpr hkeep
      constructor
      · rintro ⟨m', events, hrun, hfollows⟩
        obtain ⟨m'', more, _, hrest, -⟩ := hm₁.execAll fuel pre
        simp only [Concurrent.execAll, heval, hrest, Option.bind_eq_bind, Option.bind_some,
          Option.pure_def, Option.some.injEq, Prod.mk.injEq] at hrun
        obtain ⟨rfl, rfl⟩ := hrun
        refine ⟨m'', more, hrest, ?_⟩
        rw [List.flatten_cons, List.map_append, hchange, BTreeSet.Reports,
          persistAll_append hfirst] at hfollows
        exact hfollows
      · rintro ⟨m', events, hrest, hfollows⟩
        refine ⟨m', cdc :: events, by simp [Concurrent.execAll, heval, hrest], ?_⟩
        rw [List.flatten_cons, List.map_append, hchange, BTreeSet.Reports,
          persistAll_append hfirst]
        exact hfollows
    rw [Transition.Along, hstep]
    constructor
    · intro hall
      have hkeep := hone.mp (hall [call] (by simp))
      refine ⟨hkeep, (ih hm₁).mp fun pre hpre => (hcons hkeep pre).mp (hall _ ?_)⟩
      exact (List.prefix_cons_inj call).mpr hpre
    · rintro ⟨hkeep, hrest⟩ pre hpre
      rcases List.prefix_cons_iff.mp hpre with rfl | ⟨pre, rfl, hpre'⟩
      · exact ⟨m, [], rfl, persistAll_nil⟩
      · exact (hcons hkeep pre).mpr ((ih hm₁).mpr hrest pre hpre')

theorem BTreeMap.withMaximumNodeSize_mirror (elementSize capacity : ℕ) :
    (withMaximumNodeSize true elementSize capacity : BTreeMap M Q V).set.mirror =
      PersistedBTreeMap.empty := by
  rw [BTreeSet.mirror, BTreeSet.view, withMaximumNodeSize, BTreeSet.withMaximumNodeSize_entries]
  rfl

/-- While the identifiers do not wrap around, their order is the order of the events. -/
theorem reproduces_iff_follows {elementSize capacity : ℕ} (hcap : 2 ≤ capacity)
    (hfits : capacity * elementSize ≤ Node.isizeMax) (fuel : ℕ) {calls : List (CdcCall Q V K)}
    (hlen : 3 * calls.length ≤ 2 ^ 64) :
    Reproduces M elementSize (fuel + 1) capacity calls ↔ Follows (fuel + 1)
      (BTreeMap.withMaximumNodeSize true elementSize capacity : BTreeMap M Q V) calls := by
  obtain ⟨hset, -⟩ :=
    BTreeSet.withMaximumNodeSize_settled (M := M) (T := Pair Q V) true elementSize capacity
  have hm : (BTreeMap.withMaximumNodeSize true elementSize capacity : BTreeMap M Q V).Reporting :=
    ⟨hset, rfl, hcap, hfits⟩
  obtain ⟨m', events, changes, hrun, hm', hevents, hchanges⟩ := hm.execAll fuel calls
  have hsorted : (events.flatten.map ChangeEvent.eventId).Pairwise (· < ·) := by
    rw [hevents, BTreeSet.eventId_number (by
      show 0 + changes.length ≤ 2 ^ 64
      omega)]
    exact List.pairwise_lt_range'
  have hstart := BTreeMap.withMaximumNodeSize_mirror (M := M) (Q := Q) (V := V) elementSize capacity
  simp only [Reproduces, Follows, hrun, Option.isSome_some, implies_true, true_and,
    Option.mem_some, forall_eq', Option.some.injEq, Prod.mk.injEq]
  rw [replay_of_perm (List.Perm.refl _) hsorted, hm'.settled.atRest.expectedState_eq]
  constructor
  · intro hreplay
    exact ⟨m', events, ⟨rfl, rfl⟩, by rw [BTreeSet.Reports, hstart, hreplay]⟩
  · rintro ⟨_, _, ⟨rfl, rfl⟩, hreports⟩
    rwa [BTreeSet.Reports, hstart] at hreports

/-- Where the first node cannot be allocated, a call on the empty map panics or does nothing. -/
theorem CdcCall.exec_overflow {m : BTreeMap M Q V} (hnil : m.set.entries = [])
    (hoverflow : ¬ m.set.Allocates) (fuel : ℕ) (call : CdcCall Q V K) :
    call.exec fuel m = none ∨ call.exec fuel m = some (m, []) := by
  cases call with
  | insertCdc k value =>
    exact Or.inl (by simp [exec, BTreeMap.insertCdc, BTreeSet.putCdc_overflow hnil hoverflow])
  | removeCdc k =>
    exact Or.inr (by simp [exec, BTreeMap.removeCdc, BTreeSet.removeCdc_of_empty hnil])

/-- **Replay of one thread's events**: for every node capacity from `2` on and every sequence
of `insert_cdc` and `remove_cdc` short enough for the identifiers, the replay gives the index
after every call of the run if and only if no call overwrites, in a full node, the maximum of
the node or of its lower half. -/
theorem replay_reproduces_iff {elementSize capacity : ℕ} (hcap : 2 ≤ capacity) (fuel : ℕ)
    (calls : List (CdcCall Q V K)) (hlen : 3 * calls.length ≤ 2 ^ 64) :
    (∀ pre, pre <+: calls → Reproduces M elementSize (fuel + 1) capacity pre) ↔
      Transition.Along (CdcCall.step (fuel + 1)) (fun m call => call.KeepsHalfMax m)
        (BTreeMap.withMaximumNodeSize true elementSize capacity : BTreeMap M Q V) calls := by
  by_cases hfits : capacity * elementSize ≤ Node.isizeMax
  · obtain ⟨hset, -⟩ :=
      BTreeSet.withMaximumNodeSize_settled (M := M) (T := Pair Q V) true elementSize capacity
    have hm : (BTreeMap.withMaximumNodeSize true elementSize capacity :
        BTreeMap M Q V).Reporting := ⟨hset, rfl, hcap, hfits⟩
    rw [← hm.follows_iff fuel calls]
    refine forall₂_congr fun pre hpre => reproduces_iff_follows hcap hfits fuel ?_
    have := hpre.length_le
    omega
  · -- the map stays empty, and so does the copy
    have hnil := BTreeSet.withMaximumNodeSize_entries (M := M) (T := Pair Q V) true elementSize
      capacity
    have hstays := CdcCall.exec_overflow hnil
      (m := (BTreeMap.withMaximumNodeSize true elementSize capacity : BTreeMap M Q V)) hfits
      (fuel + 1)
    refine iff_of_true (fun pre _ => ⟨fun h => absurd h hfits, fun r hr => ?_⟩)
      (Transition.along_of_stays (fun call => ?_) (fun call => ?_) calls)
    · obtain rfl := execAll_of_stays hstays hr
      obtain ⟨hset, -⟩ :=
        BTreeSet.withMaximumNodeSize_settled (M := M) (T := Pair Q V) true elementSize capacity
      have hevents : (pre.map fun _ => ([] : List (ChangeEvent (Pair Q V)))).flatten = [] :=
        List.flatten_eq_nil_iff.mpr fun l hl => (List.mem_map.mp hl).elim fun _ h => h.2.symm
      have hmirror :=
        BTreeMap.withMaximumNodeSize_mirror (M := M) (Q := Q) (V := V) elementSize capacity
      have hexpected := hset.atRest.expectedState_eq.trans hmirror
      show replay (pre.map fun _ => []).flatten = some (BTreeSet.expectedState _)
      rw [hevents]
      exact congrArg some hexpected.symm
    · exact (hstays call).imp (fun h => by simp [CdcCall.step, h]) fun h => by
        simp [CdcCall.step, h]
    · cases call with
      | insertCdc k value =>
        rintro ⟨e, he, -⟩
        have hnone := BTreeSet.lookupPut_eq_none (q := key k).mpr hnil
        cases hnone.symm.trans he
      | removeCdc k => trivial

/-- Inserts that raise a maximum, a split that replaces an element of the upper half, updates
of a maximum and of an only element, and removes of a maximum, of an only element and of an
absent key. -/
def mixedCalls : List (CdcCall ℕ ℕ ℕ) :=
  [.insertCdc 1 10, .insertCdc 2 20, .insertCdc 3 30, .insertCdc 2 21, .insertCdc 3 31,
    .insertCdc 1 11, .insertCdc 5 50, .removeCdc 5, .removeCdc 1, .removeCdc 4]

theorem replay_reproduces_iff_mixedCalls :
    Reproduces (SortedIndex (Pair ℕ ℕ)) 16 1 3 mixedCalls :=
  (replay_reproduces_iff (by decide) 0 mixedCalls (by decide)).mpr (by decide) mixedCalls
    (List.prefix_refl _)

/-- The key `1` is updated in a full node, where it is the maximum of the lower half.  The
receiver has already cut its vector when the events remove the pair and insert it again: the
removal leaves nothing under the key `1`, and the pair is lost. -/
theorem replay_loses_overwrite :
    ∃ (m : BTreeMap (SortedIndex (Pair ℕ ℕ)) ℕ ℕ)
      (events : List (List (ChangeEvent (Pair ℕ ℕ)))),
      execAll (CdcCall.exec 1) (BTreeMap.withMaximumNodeSize true 16 2)
          [.insertCdc 1 10, .insertCdc 2 20, .insertCdc 1 11] = some (m, events) ∧
        m.set.expectedState.nodes 1 = some [⟨1, 11⟩] ∧
        (replay events.flatten).map (fun copy => copy.nodes 1) = some none ∧
        ¬ Reproduces (SortedIndex (Pair ℕ ℕ)) 16 1 2
          [.insertCdc 1 10, .insertCdc 2 20, .insertCdc 1 11] := by
  have hany : (execAll (CdcCall.exec 1)
      (BTreeMap.withMaximumNodeSize true 16 2 : BTreeMap (SortedIndex (Pair ℕ ℕ)) ℕ ℕ)
      [.insertCdc 1 10, .insertCdc 2 20, .insertCdc 1 11]).any (fun r =>
        decide (r.1.set.expectedState.nodes 1 = some [⟨1, 11⟩] ∧
          (replay r.2.flatten).map (fun copy => copy.nodes 1) = some none)) = true := by
    decide
  obtain ⟨⟨m, events⟩, hrun, hr⟩ := (Option.any_eq_true ..).mp hany
  obtain ⟨hexpected, hreplayed⟩ := of_decide_eq_true hr
  refine ⟨m, events, hrun, hexpected, hreplayed, ?_⟩
  rintro ⟨-, hreplay⟩
  rw [hreplay _ hrun, Option.map_some, hexpected] at hreplayed
  cases hreplayed

end Runs

end IndexSet.Concurrent
