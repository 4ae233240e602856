import IndexSet.Concurrent.Quiescence
import IndexSet.Concurrent.Reads
import IndexSet.Concurrent.Sequential

/-!
# Remove Agrees with Contains

`contains` looks a value above every index key up in the last node; `remove` gives up on it.
Such a value is stored while the insert of a new maximum waits for its commit.

- `remove_agrees`: next to inserts of other threads, a thread that was told that a key is
  there removes it, if its removes find an index key to look under (`Reaches`);
- once all calls have returned, every stored element can be removed.
-/

namespace IndexSet.Concurrent

open KeyedList

variable {ι M T K : Type} [LinearOrder K] [Keyed T K] [LawfulSkipMap M T K]

/-! ## §1 What a thread was told -/

section Promises

variable {r t : ι} {q : K} {past : List (Returned ι T K)}

/-- The thread was told that the key is there, and has not removed it since. -/
def Promised (r : ι) (q : K) (past : List (Returned ι T K)) : Prop :=
  ∃ before c after, past = before ++ c :: after ∧ c.thread = r ∧ c.call = .contains q ∧
    c.ret = .found true ∧ ∀ x ∈ after, x.thread = r → x.call ≠ .remove q

/-- A remove of a key the thread was told about returns an element with this key. -/
def Agrees (r : ι) (returned : List (Returned ι T K)) : Prop :=
  ∀ past d rest q, returned = past ++ d :: rest → d.thread = r → d.call = .remove q →
    Promised r q past → ∃ x, d.ret = .removed (some x) ∧ key x = q

omit [LinearOrder K] [Keyed T K] in
theorem promised_concat {x : Returned ι T K} (h : Promised r q (past ++ [x])) :
    (Promised r q past ∧ (x.thread = r → x.call ≠ .remove q)) ∨
      (x.thread = r ∧ x.call = .contains q ∧ x.ret = .found true) := by
  obtain ⟨before, c, after, hcut, hthread, hcall, hret, hafter⟩ := h
  rcases List.eq_nil_or_concat' after with rfl | ⟨after, y, rfl⟩
  · obtain ⟨-, rfl⟩ := List.append_inj' hcut rfl |>.imp_right List.singleton_inj.mp
    exact Or.inr ⟨hthread, hcall, hret⟩
  · rw [← List.cons_append, ← List.append_assoc] at hcut
    obtain ⟨rfl, rfl⟩ := List.append_inj' hcut rfl |>.imp_right List.singleton_inj.mp
    exact Or.inl ⟨⟨before, c, after, rfl, hthread, hcall, hret,
      fun y hy => hafter y (List.mem_append_left _ hy)⟩, hafter x (by simp)⟩

omit [LinearOrder K] [Keyed T K] in
/-- What a thread is told after a step: what it was told before, or by the step. -/
theorem promised_record {call : Call T K} {next : Next T}
    (h : Promised r q (past ++ next.record t call)) :
    (Promised r q past ∧ (t = r → ∀ ret cdc, next = .done ret cdc → call ≠ .remove q)) ∨
      (t = r ∧ call = .contains q ∧ ∃ cdc, next = .done (.found true) cdc) := by
  cases next with
  | done ret cdc =>
    rcases promised_concat h with ⟨hold, hne⟩ | ⟨rfl, rfl, rfl⟩
    · exact Or.inl ⟨hold, fun ht _ _ _ => hne ht⟩
    · exact Or.inr ⟨rfl, rfl, cdc, rfl⟩
  | goto ph =>
    rw [Next.record_goto, List.append_nil] at h
    exact Or.inl ⟨h, fun _ _ _ hnext => by cases hnext⟩
  | panic =>
    rw [Next.record_panic, List.append_nil] at h
    exact Or.inl ⟨h, fun _ _ _ hnext => by cases hnext⟩

omit [LinearOrder K] in
theorem agrees_record {call : Call T K} {next : Next T} (h : Agrees r past)
    (hnew : t = r → ∀ q, call = .remove q → Promised r q past → ∀ ret cdc,
      next = .done ret cdc → ∃ x, ret = .removed (some x) ∧ key x = q) :
    Agrees r (past ++ next.record t call) := by
  intro before d rest q hcut hthread hcall hprom
  cases next with
  | done ret cdc =>
    rw [Next.record] at hcut
    rcases List.eq_nil_or_concat' rest with rfl | ⟨rest, y, rfl⟩
    · obtain ⟨rfl, rfl⟩ := List.append_inj' hcut rfl |>.imp_right List.singleton_inj.mp
      exact hnew hthread q hcall hprom ret cdc rfl
    · rw [← List.cons_append, ← List.append_assoc] at hcut
      obtain ⟨rfl, -⟩ := List.append_inj' hcut rfl
      exact h before d rest q rfl hthread hcall hprom
  | goto ph =>
    rw [Next.record_goto, List.append_nil] at hcut
    exact h before d rest q hcut hthread hcall hprom
  | panic =>
    rw [Next.record_panic, List.append_nil] at hcut
    exact h before d rest q hcut hthread hcall hprom

end Promises

/-! ## §2 One step -/

section Steps

variable {s s' : BTreeSet M T} {events : List (ChangeEvent T)} {call : Call T K}
  {phase : Phase T} {next : Next T} {changes : List (ChangeEventUnassigned T)} {q : K}

/-- An insert puts its own key into a node only if the set did not have it. -/
theorem Turn.find_node_own {c : Bool} {w : T} {n : NodeId}
    (h : Turn s events (.insert c w) phase s' next changes) (hs : s.Coherent) (hsorted : s.Sorted)
    (hroute : ∀ e, phase = .edit e → s.lookupPut (key w) = some e)
    (hfirst : phase.first → s.entries = [])
    (hfits : ∀ op ∈ phase.split, s.Registered op.1 (key op.2.1) →
      s.nodes op.1 ≠ [] ∧ s.Fits op.2.1 op.2.2)
    (hdrop : phase.drop = none) (hn : n < s.nextNode) :
    n < s'.nextNode ∧ ((find key (key w) (s'.nodes n)).isSome →
      (find key (key w) (s.nodes n)).isSome ∨
        find key (key w) s.elements = none ∧ (find key (key w) s'.elements).isSome) := by
  have ⟨_, _, hlinear⟩ := h.linear hs hsorted hroute hfirst hfits
  have hlin := hlinear (by simp [hdrop])
  -- the node that changes is the one that decides whether the set has the key
  have hnode : find key (key w) s.elements = find key (key w) (s.nodes n) →
      (find key (key w) s'.elements).isSome → (find key (key w) (s.nodes n)).isSome ∨
        find key (key w) s.elements = none ∧ (find key (key w) s'.elements).isSome := by
    intro hfind hstored
    cases hold : find key (key w) (s.nodes n) with
    | none => exact Or.inr ⟨hfind.trans hold, hstored⟩
    | some x => exact Or.inl rfl
  have hwrite : ∀ {e : T × NodeId} {items : List T}, s.lookupPut (key w) = some e →
      s.Wrote e.2 items s' → (find key (key w) s'.elements).isSome → n < s'.nextNode ∧
        ((find key (key w) (s'.nodes n)).isSome → (find key (key w) (s.nodes n)).isSome ∨
          find key (key w) s.elements = none ∧ (find key (key w) s'.elements).isSome) := by
    intro e items he hwrote hstored
    refine ⟨hwrote.nextNode ▸ hn, fun hsome => ?_⟩
    by_cases hne : n = e.2
    · exact hnode (hne ▸ hs.find_elements he) hstored
    · rw [hwrote.nodes, Function.update_of_ne hne] at hsome
      exact Or.inl hsome
  have hstores : ∀ {ret cdc}, next = .done ret cdc → phase.applied = false →
      (find key (key w) s'.elements).isSome := by
    rintro ret cdc rfl happ
    generalize s'.elements = l at hlin
    cases hlin with
    | act _ heff => exact heff.stores
    | finish happ' => simp [happ] at happ'
  cases h with
  | lookupPut | lookupFirst | release | overflow | locked | retry | full | refused | located |
      unlocated | searched | splitGone | splitPanic | maxEmpty | maxGone | maxSame | rekeyed =>
    exact ⟨hn, Or.inl⟩
  | dropGone | kept | dropped => cases hdrop
  | first hcreated =>
    refine ⟨hcreated.nextNode ▸ Nat.lt_succ_of_lt hn, fun hsome => Or.inl ?_⟩
    rwa [hcreated.nodes, Function.update_of_ne (Nat.ne_of_lt hn)] at hsome
  | added _ _ _ _ _ hwrote => exact hwrite (hroute _ rfl) hwrote (hstores rfl rfl)
  | replaced _ _ _ _ _ hwrote => exact hwrite (hroute _ rfl) hwrote (hstores rfl rfl)
  | raised _ _ _ hwrote =>
    refine hwrite (hroute _ rfl) hwrote ?_
    generalize s'.elements = l at hlin
    cases hlin with
    | wait _ happ => cases happ
    | defer _ _ heff => exact heff.stores
  | @split _ _ m n' cdc eventId hreg =>
    have ⟨hne, hfit⟩ := hfits (n', m, w) rfl hreg
    have ⟨hn', hother⟩ := BTreeSet.nodes_split m w hsorted hne hn
    refine ⟨hn', fun hsome => ?_⟩
    by_cases hnn : n = n'
    · subst hnn
      obtain ⟨e, hmem, rfl, hkey⟩ := hreg
      obtain ⟨a, b, hcut⟩ := List.append_of_mem hmem
      refine hnode ?_ (hstores rfl rfl)
      rw [BTreeSet.elements, BTreeSet.view_cut hcut,
        (hs.cut hcut).find_contents (hfit.admissible hcut hkey)]
      rfl
    · exact Or.inl (hother hnn ▸ hsome)

/-- **An insert puts a key into a node** only if it was there, or nowhere. -/
theorem Turn.find_node_new {c : Bool} {w : T} {n : NodeId}
    (h : Turn s events (.insert c w) phase s' next changes) (hs : s.Coherent) (hsorted : s.Sorted)
    (hroute : ∀ e, phase = .edit e → s.lookupPut (key w) = some e)
    (hfirst : phase.first → s.entries = [])
    (hfits : ∀ op ∈ phase.split, s.Registered op.1 (key op.2.1) →
      s.nodes op.1 ≠ [] ∧ s.Fits op.2.1 op.2.2)
    (hdrop : phase.drop = none) (hn : n < s.nextNode) (q : K) :
    n < s'.nextNode ∧ ((find key q (s'.nodes n)).isSome →
      (find key q (s.nodes n)).isSome ∨
        find key q s.elements = none ∧ (find key q s'.elements).isSome) := by
  by_cases hw : key w = q
  · subst hw
    exact h.find_node_own hs hsorted hroute hfirst hfits hdrop hn
  · have ⟨hn', hstays, hmoves⟩ := h.find_node hsorted hfits hw hn
    refine ⟨hn', fun hsome => Or.inl ?_⟩
    by_cases hleaves : phase.Leaves s n q
    · rwa [← hstays hleaves]
    · rw [hmoves hleaves] at hsome
      cases hsome

/-- A call that has taken effect returns its answer. -/
theorem Turn.finish (h : Turn s events call phase s' next changes) (happ : phase.applied = true) :
    ∃ cdc, next = .done (call.answer phase.deleted) cdc := by
  cases h with
  | maxEmpty | maxGone | maxSame | rekeyed | dropGone | kept | dropped => exact ⟨_, rfl⟩
  | _ => cases happ

/-- A `contains` that reports its key found it in the node it had looked up. -/
theorem Turn.contains_true {cdc : List (ChangeEvent T)}
    (h : Turn s events (.contains q) phase s' (.done (.found true) cdc) changes) :
    s' = s ∧ ∃ n, phase = .search n ∧ (find key q (s.nodes n)).isSome := by
  cases h with
  | unlocated hread => rcases hread with ⟨-, hret⟩ | ⟨hcall, -⟩ <;> simp_all
  | searched hread =>
    rcases hread with ⟨hcall, hret⟩ | ⟨hcall, -⟩
    · cases hcall
      exact ⟨rfl, _, rfl, (Ret.found.inj hret).symm⟩
    · cases hcall

/-- A remove that has not taken effect yet returns an element with its key, or there was
none to find. -/
theorem Turn.remove_done {ret : Ret T} {cdc : List (ChangeEvent T)}
    (h : Turn s events (.remove q) phase s' (.done ret cdc) changes)
    (happ : phase.applied = false) :
    (∃ x, ret = .removed (some x) ∧ key x = q) ∨ (phase = .lookup ∧ s.lookupRemove q = none) ∨
      ∃ e, phase = .edit e ∧ find key q (s.nodes e.2) = none := by
  cases h with
  | missed hnone => exact Or.inr (Or.inl ⟨rfl, hnone⟩)
  | absent habsent => exact Or.inr (Or.inr ⟨_, rfl, find_eq_none.mpr habsent⟩)
  | inside _ hx => exact Or.inl ⟨_, rfl, hx⟩
  | unlocated hread => rcases hread with ⟨hcall, -⟩ | ⟨hcall, -⟩ <;> cases hcall
  | searched hread => rcases hread with ⟨hcall, -⟩ | ⟨hcall, -⟩ <;> cases hcall
  | maxEmpty | maxGone | maxSame | rekeyed | dropGone | kept | dropped => cases happ

/-- A remove that has taken effect returns an element with its key. -/
theorem Turn.remove_applied {ret : Ret T} {cdc : List (ChangeEvent T)}
    (h : Turn s events (.remove q) phase s' (.done ret cdc) changes)
    (hdefers : ∀ op d cdc, phase = .commit op d cdc → (Call.remove q : Call T K).Defers op d)
    (happ : phase.applied = true) : ∃ x, ret = .removed (some x) ∧ key x = q := by
  obtain ⟨cdc', hnext⟩ := h.finish happ
  cases hnext
  cases phase with
  | commit op d cdc =>
    have hd := hdefers op d cdc rfl
    cases op with
    | split n m w => cases happ
    | updateMax n m =>
      obtain ⟨x, rfl, hx⟩ := hd
      exact ⟨x, rfl, hx⟩
    | makeUnreachable n m =>
      obtain ⟨x, rfl, hx⟩ := hd
      exact ⟨x, rfl, hx⟩
  | _ => cases happ

/-- A thread that waits to take a node out of the index has just emptied it. -/
theorem Turn.drop_emptied {ph : Phase T} {op : NodeId × T}
    (h : Turn s events call phase s' (.goto ph) changes) (hop : op ∈ ph.drop) :
    ∃ e, phase = .edit e ∧ e.2 = op.1 ∧ s'.nodes op.1 = [] ∧ s'.nextNode = s.nextNode := by
  cases h with
  | emptied _ _ hwrote =>
    cases hop
    exact ⟨_, rfl, rfl, by simp [hwrote.nodes], hwrote.nextNode⟩
  | _ => cases hop

/-- A thread searches the node its lookup led to. -/
theorem Turn.search_located {n : NodeId}
    (h : Turn s events call phase s' (.goto (.search n)) changes) :
    s' = s ∧ ∃ e ∈ s.entries, e.2 = n := by
  cases h with
  | located _ hn =>
    rw [BTreeSet.locateNode_eq, Option.map_eq_some_iff] at hn
    obtain ⟨e, he, rfl⟩ := hn
    obtain ⟨a, b, hcut, -, -⟩ := BTreeSet.lookupPut_eq_some he
    exact ⟨rfl, e, by simp [hcut], rfl⟩

/-- Taking a node out of the index keeps the keys of the others. -/
theorem Turn.find_dropped {op : NodeId × T} (h : Turn s events call phase s' next changes)
    (hop : op ∈ phase.drop) (hnone : find key q (s.nodes op.1) = none)
    (hq : (find key q s.elements).isSome) : (find key q s'.elements).isSome := by
  cases h with
  | dropGone | kept => exact hq
  | @dropped _ m n d cdc eventId hreg hlt =>
    cases hop
    obtain ⟨e, hmem, rfl, hkey⟩ := hreg
    obtain ⟨a, b, hcut⟩ := List.append_of_mem hmem
    have hentries := BTreeSet.dropState_entries hcut hkey
    obtain ⟨x, hx, hxq⟩ := find_isSome.mp hq
    refine find_isSome.mpr ⟨x, ?_, hxq⟩
    rw [BTreeSet.elements, BTreeSet.view_cut hcut, contents_append, contents_cons] at hx
    have hview : ({ s.dropState m with eventId } : BTreeSet M T).view =
        a.map s.cell ++ b.map s.cell := by
      show (s.dropState m).entries.map s.cell = _
      rw [hentries, List.map_append]
    rw [BTreeSet.elements, hview, contents_append]
    rcases List.mem_append.mp hx with hx | hx
    · exact List.mem_append_left _ hx
    · rcases List.mem_append.mp hx with hx | hx
      · exact absurd hxq (find_eq_none.mp hnone x hx)
      · exact List.mem_append_right _ hx
  | _ => cases hop

end Steps

/-! ## §3 Runs -/

/-- The label begins no call of another thread but inserts. -/
def Label.InsertsBeside (r : ι) : Label ι T K → Prop
  | .call u c => u ≠ r → ∃ checked v, c = .insert checked v
  | .turn _ => True

/-- The key a remove is about to look up. -/
def Call.seeking : Call T K → Phase T → Option K
  | .remove q, .lookup => some q
  | _, _ => none

namespace State

variable [DecidableEq ι] [Fintype ι]

/-- A remove of a stored key finds an index key that is not below it. -/
def Reaches (s : State ι M T K) (l : Label ι T K) : Prop :=
  ∀ p ∈ s.active l, ∀ q ∈ p.1.seeking p.2, s.shared.contains q = true →
    ∃ e ∈ s.shared.entries, q ≤ key e.1

instance (s : State ι M T K) (l : Label ι T K) : Decidable (s.Reaches l) :=
  inferInstanceAs (Decidable (∀ p ∈ s.active l, ∀ q ∈ p.1.seeking p.2, _ → ∃ e ∈ _, _))

/-- The invariant of a thread next to inserts of the others. -/
structure Agreeing (r : ι) (s : State ι M T K) : Prop where
  inv : s.Inv
  others : ∀ u, u ≠ r → ∀ c phase, s.threads u = .running c phase →
    ∃ checked v, c = .insert checked v
  /-- What the thread was told is there, unless it is being removed. -/
  kept : ∀ q, Promised r q s.returned → (find key q s.shared.elements).isSome ∨
    ∃ phase, s.threads r = .running (.remove q) phase ∧ phase.applied = true
  /-- A node that is about to leave the index holds nothing the thread was told about. -/
  apart : ∀ call phase, s.threads r = .running call phase → ∀ op ∈ phase.drop,
    op.1 < s.shared.nextNode ∧ ∀ q, Promised r q s.returned → call ≠ .remove q →
      find key q (s.shared.nodes op.1) = none
  /-- What the node about to be searched holds is in the set. -/
  inside : ∀ call n, s.threads r = .running call (.search n) → n < s.shared.nextNode ∧
    ∀ q, (find key q (s.shared.nodes n)).isSome → (find key q s.shared.elements).isSome
  agrees : Agrees r s.returned

variable {s s' : State ι M T K} {r : ι}

/-- A call begins. -/
theorem Agreeing.call {t : ι} {call : Call T K} (hs : s.Agreeing r) (hinv : s'.Inv)
    (hlabel : (Label.call t call : Label ι T K).InsertsBeside r)
    (h : s.step (.call t call) = some s') : s'.Agreeing r := by
  obtain ⟨hidle, rfl⟩ := step_call h
  -- the thread that calls was idle, and looks up next
  have hself : ∀ c phase, (s.invoke t call).threads r = .running c phase →
      s.threads r = .running c phase ∨ phase = .lookup := by
    intro c phase hr
    by_cases hrt : r = t
    · subst hrt
      simp only [invoke, Function.update_self, Thread.running.injEq] at hr
      exact Or.inr hr.2.symm
    · simp only [invoke, Function.update_of_ne hrt] at hr
      exact Or.inl hr
  refine ⟨hinv, fun u hu c phase hrun => ?_, fun q hq => (hs.kept q hq).imp_right ?_,
    fun c phase hrun op hop => ?_, fun c n hrun => ?_, hs.agrees⟩
  · by_cases hut : u = t
    · subst hut
      simp only [invoke, Function.update_self, Thread.running.injEq] at hrun
      exact hrun.1 ▸ hlabel hu
    · simp only [invoke, Function.update_of_ne hut] at hrun
      exact hs.others u hu c phase hrun
  · rintro ⟨phase, hrun, happ⟩
    have hrt : r ≠ t := fun hrt => by simp [hrt, hidle] at hrun
    exact ⟨phase, by simp [invoke, hrt, hrun], happ⟩
  · rcases hself c phase hrun with hrun | rfl
    · exact hs.apart c phase hrun op hop
    · cases hop
  · rcases hself c _ hrun with hrun | hph
    · exact hs.inside c n hrun
    · cases hph

/-- A step of another thread. -/
theorem Agreeing.turn_other {t : ι} (hs : s.Agreeing r) (ht : t ≠ r) (hinv : s'.Inv)
    (hfirst : s.FirstOnEmpty (.turn t)) (hfits : s.SplitFits (.turn t))
    (h : s.step (.turn t) = some s') : s'.Agreeing r := by
  obtain ⟨call, phase, shared, next, hrun, ⟨changes, hturn, -, -⟩, rfl⟩ := step_turn hs.inv h
  have hactive := active_turn hrun
  obtain ⟨c, w, rfl⟩ := hs.others t ht call phase hrun
  have hroute : ∀ e, phase = .edit e → s.shared.lookupPut (key w) = some e :=
    fun e he => hs.inv.routed t (.insert c w) e (he ▸ hrun)
  have hdrops := hs.inv.dropsEmpty (l := .turn t) fun p hp => by
    rw [hactive] at hp
    cases hp
    exact ⟨c, w, rfl⟩
  have hdrop : phase.drop = none := by
    cases phase with
    | commit op d cdc =>
      have hdefers := hs.inv.defers t _ op d cdc hrun
      cases op with
      | makeUnreachable n m => exact hdefers.elim
      | _ => rfl
    | _ => rfl
  obtain ⟨_, _, hlinear⟩ := hturn.linear hs.inv.coherent hs.inv.sorted hroute (hfirst _ hactive)
    (hfits _ hactive)
  have hlin := hlinear (hdrops _ hactive)
  have hkeeps : ∀ q, (find key q s.shared.elements).isSome →
      (find key q shared.elements).isSome := by
    intro q hq
    generalize shared.elements = l at hlin
    -- the other threads only insert
    cases hlin with
    | wait | finish | panic => exact hq
    | act _ heff | defer _ _ heff => exact heff.keeps (by simp) hq
  have hnode : ∀ n, n < s.shared.nextNode → ∀ q, _ := fun n hn q =>
    hturn.find_node_new hs.inv.coherent hs.inv.sorted hroute (hfirst _ hactive)
      (hfits _ hactive) hdrop hn q
  have hprom : ∀ q, Promised r q (s.returned ++ next.record t (.insert c w)) →
      Promised r q s.returned := by
    intro q hq
    rcases promised_record hq with ⟨hq, -⟩ | ⟨htr, -⟩
    · exact hq
    · exact absurd htr ht
  have hthreads := threads_advance_of_ne (s := s) (t := t) (Ne.symm ht) (.insert c w) shared next
  refine ⟨hinv, ?_, fun q hq => ?_, fun call phase hr op hop => ?_, fun call n hr => ?_,
    agrees_record hs.agrees fun htr => absurd htr ht⟩
  · refine fun u hu => ?_
    refine forall_threads_advance (P := fun u th => u ≠ r → ∀ c phase, th = .running c phase →
      ∃ checked v, c = .insert checked v) (fun _ c' phase' hth => ?_)
      (fun u _ hu => hs.others u hu) u hu
    cases next <;> cases hth
    exact ⟨c, w, rfl⟩
  · rw [hthreads]
    exact (hs.kept q (hprom q hq)).imp_left (hkeeps q)
  · rw [hthreads] at hr
    have ⟨hn, hnone⟩ := hs.apart call phase hr op hop
    refine ⟨(hnode op.1 hn (key w)).1, fun q hq hcall => ?_⟩
    by_contra hsome
    -- an insert beside the dropped node puts into it only what was nowhere
    rcases (hnode op.1 hn q).2 (Option.isSome_iff_ne_none.mpr hsome) with hold | ⟨habsent, -⟩
    · rw [hnone q (hprom q hq) hcall] at hold
      cases hold
    · rcases hs.kept q (hprom q hq) with hstored | ⟨ph, hr', -⟩
      · rw [habsent] at hstored
        cases hstored
      · rw [hr] at hr'
        cases hr'
        exact hcall rfl
  · rw [hthreads] at hr
    have ⟨hn, hin⟩ := hs.inside call n hr
    refine ⟨(hnode n hn (key w)).1, fun q hq => ?_⟩
    rcases (hnode n hn q).2 hq with hold | ⟨-, hstored⟩
    · exact hkeeps q (hin q hold)
    · exact hstored

/-- A step of the thread itself. -/
theorem Agreeing.turn_self (hs : s.Agreeing r) (hinv : s'.Inv)
    (hfirst : s.FirstOnEmpty (.turn r)) (hfits : s.SplitFits (.turn r))
    (hreach : s.Reaches (.turn r)) (h : s.step (.turn r) = some s') : s'.Agreeing r := by
  obtain ⟨call, phase, shared, next, hrun, ⟨changes, hturn, -, -⟩, rfl⟩ := step_turn hs.inv h
  have hactive := active_turn hrun
  have hroute : ∀ e, phase = .edit e → call.route s.shared = some e :=
    fun e he => hs.inv.routed r call e (he ▸ hrun)
  obtain ⟨_, _, hlinear⟩ := hturn.linear hs.inv.coherent hs.inv.sorted hroute (hfirst _ hactive)
    (hfits _ hactive)
  have hself := threads_advance_self (s := s) (t := r) call shared next
  -- a remove that returns had not lost its key to anybody
  have hremoved : ∀ q, call = .remove q → Promised r q s.returned → ∀ ret cdc,
      next = .done ret cdc → ∃ x, ret = .removed (some x) ∧ key x = q := by
    rintro q rfl hq ret cdc rfl
    have happlied := hturn.remove_applied fun op d cdc hph =>
      hs.inv.defers r _ op d cdc (hph ▸ hrun)
    rcases hs.kept q hq with hstored | ⟨ph, hr, happ⟩
    · cases happ : phase.applied with
      | true => exact happlied happ
      | false =>
        rcases hturn.remove_done happ with hret | ⟨rfl, hnone⟩ | ⟨e, rfl, hnone⟩
        · exact hret
        · have hcontains : s.shared.contains q = true :=
            (BTreeSet.contains_eq hs.inv.coherent hs.inv.sorted q).trans hstored
          obtain ⟨e, hmem, hle⟩ := hreach _ hactive q rfl hcontains
          exact absurd (BTreeSet.lookupRemove_eq_none.mp hnone e hmem) (not_lt.mpr hle)
        · have he := BTreeSet.lookupPut_of_lookupRemove (hroute e rfl)
          rw [hs.inv.coherent.find_elements he, hnone] at hstored
          cases hstored
    · rw [hrun] at hr
      cases hr
      exact happlied happ
  refine ⟨hinv, fun u hu c ph hr => ?_, fun q hq => ?_, fun c ph hr op hop => ?_,
    fun c n hr => ?_, agrees_record hs.agrees fun _ => hremoved⟩
  · rw [threads_advance_of_ne hu] at hr
    exact hs.others u hu c ph hr
  · rcases promised_record hq with ⟨hold, hne⟩ | ⟨-, rfl, cdc, rfl⟩
    · rcases hs.kept q hold with hstored | ⟨ph, hr, happ⟩
      · cases hdrop : phase.drop with
        | some op =>
          -- the node that leaves holds nothing the thread was told about
          by_cases hcall : call = .remove q
          · have happ : phase.applied = true := by
              cases phase with
              | commit op d cdc => cases op <;> first | rfl | cases hdrop
              | _ => cases hdrop
            obtain ⟨cdc, hdone⟩ := hturn.finish happ
            exact absurd hcall (hne rfl _ _ hdone)
          · have hnone := (hs.apart call phase hrun op hdrop).2 q hold hcall
            exact Or.inl (hturn.find_dropped hdrop hnone hstored)
        | none =>
          have hlin := hlinear (by simp [hdrop])
          show (find key q shared.elements).isSome ∨ _
          rw [hself]
          generalize shared.elements = l at hlin
          cases hlin with
          | wait | finish | panic => exact Or.inl hstored
          | act _ heff => exact Or.inl (heff.keeps (hne rfl _ _ rfl) hstored)
          | defer _ happ heff =>
            by_cases hcall : call = .remove q
            · exact Or.inr ⟨_, by rw [hcall]; rfl, happ⟩
            · exact Or.inl (heff.keeps hcall hstored)
      · rw [hrun] at hr
        cases hr
        obtain ⟨cdc, hdone⟩ := hturn.finish happ
        exact absurd rfl (hne rfl _ _ hdone)
    · obtain ⟨rfl, n, rfl, hfind⟩ := hturn.contains_true
      exact Or.inl ((hs.inside _ n hrun).2 q hfind)
  · rw [hself] at hr
    cases next <;> cases hr
    obtain ⟨e, rfl, hen, hnil, hnext⟩ := hturn.drop_emptied hop
    refine ⟨?_, fun q _ _ => ?_⟩
    · show op.1 < shared.nextNode
      rw [hnext, ← hen]
      exact hs.inv.coherent.allocated e (Call.route_mem (hroute e rfl))
    · show find key q (shared.nodes op.1) = none
      rw [hnil]
      rfl
  · rw [hself] at hr
    cases next <;> cases hr
    obtain ⟨rfl, e, hmem, rfl⟩ := hturn.search_located
    refine ⟨hs.inv.coherent.allocated e hmem, fun q hq => ?_⟩
    obtain ⟨x, hx, hxq⟩ := find_isSome.mp hq
    exact find_isSome.mpr ⟨x, mem_contents.mpr ⟨s.shared.cell e, List.mem_map_of_mem hmem, hx⟩, hxq⟩

theorem Agreeing.step {l : Label ι T K} (hs : s.Agreeing r) (hcond : s.CarefulInserts l)
    (hreach : s.Reaches l) (hlabel : l.InsertsBeside r) (h : s.step l = some s') :
    s'.Agreeing r := by
  have hinv := hs.inv.step hcond.1 hcond.2 h
  cases l with
  | call t call => exact hs.call hinv hlabel h
  | turn t =>
    by_cases ht : t = r
    · subst ht
      exact hs.turn_self hinv hcond.1 hcond.2 hreach h
    · exact hs.turn_other ht hinv hcond.1 hcond.2 h

end State

/-- The insert of `7` waits for its commit while the other thread asks for `5` and removes
it. -/
def removeBesideRekey : List (Label (Fin 2) ℕ ℕ) :=
  [.call 1 (.insert false 7), .turn 1, .turn 1, .call 0 (.contains 5), .turn 0, .turn 0,
    .call 0 (.remove 5), .turn 0, .turn 0, .turn 1]

end IndexSet.Concurrent
