import IndexSet.Concurrent.Linear

/-!
# Reads Between Inserts

`contains` and `get` keep a pointer to a node with no lock held.  Inserts of other values
never take a key out of a node, except a split, which moves the upper half to a new node:
`read_finds_iff` says that a read of a stored value finds it exactly when no split moves it
out of the node between the two steps of the read.
-/

namespace IndexSet.Concurrent

open KeyedList

variable {ι M T K : Type} [LinearOrder K] [Keyed T K] [LawfulSkipMap M T K]

/-! ## §1 What an insert does to one node -/

/-- A split that goes through does not move the key out of the node. -/
def Phase.Leaves (s : BTreeSet M T) (n : NodeId) (q : K) (phase : Phase T) : Prop :=
  ∀ op ∈ phase.split, op.1 = n → s.Registered n (key op.2.1) →
    find key q (Node.halve (s.nodes n)).2 = none

instance (s : BTreeSet M T) (n : NodeId) (q : K) (phase : Phase T) :
    Decidable (phase.Leaves s n q) :=
  inferInstanceAs (Decidable (∀ op ∈ phase.split, _ → _ → _))

section Node

variable {s s' : BTreeSet M T} {n n' : NodeId} {q : K}

omit [LawfulSkipMap M T K] in
/-- A write that does not matter to the lookup. -/
theorem BTreeSet.Wrote.find_node {items : List T} (h : s.Wrote n' items s')
    (hsame : find key q items = find key q (s.nodes n')) :
    find key q (s'.nodes n) = find key q (s.nodes n) := by
  rw [h.nodes]
  by_cases hn : n = n'
  · rw [hn, Function.update_self, hsame]
  · rw [Function.update_of_ne hn]

/-- A split changes no allocated node but its own. -/
theorem BTreeSet.nodes_split (m w : T) (hsorted : s.Sorted) (hne : s.nodes n' ≠ [])
    (hn : n < s.nextNode) :
    n < (s.commitSplit n' m w).1.nextNode ∧
      (n ≠ n' → (s.commitSplit n' m w).1.nodes n = s.nodes n) := by
  obtain ⟨lowerMax, lower, upperMax, upper, hstate, -⟩ :=
    commitSplit_spec s n' m w (hsorted n') hne
  rw [hstate]
  refine ⟨Nat.lt_succ_of_lt hn, fun hnn => ?_⟩
  simp [splitState, hnn, Nat.ne_of_lt hn]

/-- A split leaves the keys of the lower half in the node. -/
theorem BTreeSet.find_node_split {m w : T} (hsorted : s.Sorted) (hne : s.nodes n ≠ [])
    (hw : key w ≠ q) (hn : n < s.nextNode) :
    (find key q ((s.commitSplit n m w).1.nodes n)).isSome =
      (find key q (Node.halve (s.nodes n)).1).isSome := by
  obtain ⟨lowerMax, lower, upperMax, upper, hstate, -, -, -, -, hlower⟩ :=
    commitSplit_spec s n m w (hsorted n) hne
  have hnodes : (s.splitState n m lowerMax lower upperMax upper).nodes n = lower := by
    simp [splitState, Nat.ne_of_lt hn]
  rw [hstate, hnodes]
  rcases hlower with rfl | rfl
  · rfl
  · rw [Bool.eq_iff_iff, find_put_isSome, or_iff_right hw]

/-- **An insert of another value** keeps the key in a node, unless it splits the node and the
key is in the upper half. -/
theorem Turn.find_node {events : List (ChangeEvent T)} {c : Bool} {w : T} {phase : Phase T}
    {next : Next T} {changes : List (ChangeEventUnassigned T)}
    (h : Turn s events (.insert c w) phase s' next changes) (hsorted : s.Sorted)
    (hfits : ∀ op ∈ phase.split, s.Registered op.1 (key op.2.1) →
      s.nodes op.1 ≠ [] ∧ s.Fits op.2.1 op.2.2)
    (hw : key w ≠ q) (hn : n < s.nextNode) :
    n < s'.nextNode ∧
      (phase.Leaves s n q → (find key q (s'.nodes n)).isSome = (find key q (s.nodes n)).isSome) ∧
      (¬ phase.Leaves s n q → find key q (s'.nodes n) = none) := by
  -- only a split can move the key
  have hstays : phase.split = none → n < s'.nextNode →
      find key q (s'.nodes n) = find key q (s.nodes n) →
      n < s'.nextNode ∧
        (phase.Leaves s n q → (find key q (s'.nodes n)).isSome = (find key q (s.nodes n)).isSome) ∧
        (¬ phase.Leaves s n q → find key q (s'.nodes n) = none) := by
    intro hnone hn' hsame
    refine ⟨hn', fun _ => by rw [hsame], fun hnot => absurd ?_ hnot⟩
    intro op hop
    rw [hnone] at hop
    cases hop
  cases h with
  | lookupPut | lookupFirst | release | overflow | locked | retry | full | refused | located |
      unlocated | searched | maxEmpty | maxGone | maxSame | rekeyed | dropGone | kept | dropped =>
    exact hstays rfl hn rfl
  | first hcreated =>
    refine hstays rfl (hcreated.nextNode ▸ Nat.lt_succ_of_lt hn) ?_
    rw [hcreated.nodes, Function.update_of_ne (Nat.ne_of_lt hn)]
  | added _ hl _ _ _ hwrote =>
    refine hstays rfl (hwrote.nextNode ▸ hn) (hwrote.find_node ?_)
    rw [find_insert_ne hw, hl]
  | raised _ _ _ hwrote =>
    refine hstays rfl (hwrote.nextNode ▸ hn) (hwrote.find_node ?_)
    rw [find_insert_ne hw, List.append_nil]
  | replaced hl hx _ _ _ hwrote =>
    refine hstays rfl (hwrote.nextNode ▸ hn) (hwrote.find_node ?_)
    rw [find_insert_ne hw, hl, find_insert_ne (hx ▸ hw)]
  | splitGone hnot =>
    refine ⟨hn, fun _ => rfl, fun hleaves => absurd ?_ hleaves⟩
    rintro op hop rfl hreg
    cases hop
    exact absurd hreg hnot
  | splitPanic hreg hnil => exact absurd hnil (hfits _ rfl hreg).1
  | @split c w m n' cdc eventId hreg =>
    have ⟨hne, _⟩ := hfits (n', m, w) rfl hreg
    have ⟨hn', hother⟩ := BTreeSet.nodes_split m w hsorted hne hn
    by_cases hnn : n = n'
    · subst hnn
      have hself := BTreeSet.find_node_split (m := m) hsorted hne hw hn
      -- a key of the node is in one of its halves
      have hasc := hsorted n
      rw [← halve_eq (s.nodes n)] at hasc
      have ⟨_, _, hacross⟩ := ascending_append.mp hasc
      have hmem : (find key q (s.nodes n)).isSome ↔
          (find key q (Node.halve (s.nodes n)).1).isSome ∨
            (find key q (Node.halve (s.nodes n)).2).isSome := by
        conv_lhs => rw [← halve_eq (s.nodes n)]
        simp only [find_isSome, List.mem_append]
        exact ⟨fun ⟨x, hx, hq⟩ => hx.imp (fun hx => ⟨x, hx, hq⟩) fun hx => ⟨x, hx, hq⟩,
          fun h => h.elim (fun ⟨x, hx, hq⟩ => ⟨x, Or.inl hx, hq⟩)
            fun ⟨x, hx, hq⟩ => ⟨x, Or.inr hx, hq⟩⟩
      refine ⟨hn', fun hleaves => ?_, fun hnot => ?_⟩
      · have hnone := hleaves (n, m, w) rfl rfl hreg
        rw [Bool.eq_iff_iff, hmem, hnone, Option.isSome_none]
        simpa using Bool.eq_iff_iff.mp hself
      · have hupper : (find key q (Node.halve (s.nodes n)).2).isSome := by
          by_contra hnone
          refine hnot fun op hop _ _ => ?_
          simpa using hnone
        obtain ⟨y, hy, hyq⟩ := find_isSome.mp hupper
        have hlower : find key q (Node.halve (s.nodes n)).1 = none :=
          find_eq_none.mpr fun x hx hxq => (hacross x hx y hy).ne (hxq.trans hyq.symm)
        rw [hlower, Option.isSome_none, Option.isSome_eq_false_iff,
          Option.isNone_iff_eq_none] at hself
        exact hself
    · refine ⟨hn', fun _ => by rw [← hother hnn], fun hnot => absurd ?_ hnot⟩
      intro op hop hop1 _
      cases hop
      exact absurd hop1.symm hnn

end Node

/-! ## §2 One read -/

/-- The call inserts another value. -/
def Call.InsertsOther (q : K) : Call T K → Prop
  | .insert _ w => key w ≠ q
  | _ => False

/-- Steps of any thread; calls of the other threads, which insert other values. -/
def Label.Beside (r : ι) (q : K) : Label ι T K → Prop
  | .call u c => u ≠ r ∧ c.InsertsOther q
  | .turn _ => True

/-- The read found an element with the key. -/
def Ret.Finds (q : K) : Ret T → Prop
  | .found b => b = true
  | .got (some x) => key x = q
  | _ => False

/-- The node a thread is about to search. -/
def Thread.searching : Thread T K → Option NodeId
  | .running _ (.search n) => some n
  | _ => none

section Read

variable {s s' : BTreeSet M T} {events : List (ChangeEvent T)} {call : Call T K} {q : K}
  {next : Next T} {changes : List (ChangeEventUnassigned T)}

/-- The lookup of a read. -/
theorem Turn.read_lookup (hcall : call = .contains q ∨ call = .get q)
    (h : Turn s events call .lookup s' next changes) :
    s' = s ∧ ((∃ n, s.locateNode q = some n ∧ next = .goto (.search n)) ∨
      s.locateNode q = none ∧ ∃ ret, next = .done ret [] ∧ ¬ ret.Finds q) := by
  rcases hcall with rfl | rfl
  all_goals
    cases h with
    | located hread hn =>
      rcases hread with hread | hread <;> cases hread
      exact ⟨rfl, Or.inl ⟨_, hn, rfl⟩⟩
    | unlocated hread hn =>
      rcases hread with ⟨hread, rfl⟩ | ⟨hread, rfl⟩ <;> cases hread
      exact ⟨rfl, Or.inr ⟨hn, _, rfl, by simp [Ret.Finds]⟩⟩

/-- The search of a read. -/
theorem Turn.read_search {n : NodeId} (hcall : call = .contains q ∨ call = .get q)
    (h : Turn s events call (.search n) s' next changes) :
    s' = s ∧ ∃ ret, next = .done ret [] ∧
      (ret.Finds q ↔ (find key q (s.nodes n)).isSome = true) := by
  rcases hcall with rfl | rfl
  all_goals
    cases h with
    | searched hread =>
      rcases hread with ⟨hread, rfl⟩ | ⟨hread, rfl⟩ <;> cases hread
      refine ⟨rfl, _, rfl, ?_⟩
      first
        | exact Iff.rfl
        | cases hfind : find key q (s.nodes n) with
          | none => simp [Ret.Finds]
          | some x =>
            have hx : key x = q := by simpa using List.find?_some hfind
            simp [Ret.Finds, hx]

end Read

namespace State

variable [DecidableEq ι] [Fintype ι]

/-- No split moves the key out of the node the reader is about to search. -/
def StaysPut (r : ι) (q : K) (s : State ι M T K) (l : Label ι T K) : Prop :=
  ∀ n ∈ (s.threads r).searching, ∀ p ∈ s.active l, p.2.Leaves s.shared n q

instance (r : ι) (q : K) (s : State ι M T K) (l : Label ι T K) : Decidable (s.StaysPut r q l) :=
  inferInstanceAs (Decidable (∀ n ∈ (s.threads r).searching, ∀ p ∈ s.active l, _))

/-- Where the reader stands, and whether it finds the key. -/
inductive Reader (s : State ι M T K) (r : ι) (call : Call T K) (q : K) : Bool → Prop
  | looking : s.threads r = .running call .lookup →
      (find key q s.shared.elements).isSome → (∀ x ∈ s.returned, x.thread ≠ r) →
      Reader s r call q true
  | searching {found : Bool} {n : NodeId} : s.threads r = .running call (.search n) →
      n < s.shared.nextNode → (find key q (s.shared.nodes n)).isSome = found →
      (∀ x ∈ s.returned, x.thread ≠ r) → Reader s r call q found
  | answered {found : Bool} : s.threads r = .idle →
      (∃ x ∈ s.returned, x.thread = r ∧ x.call = call) →
      (∀ x ∈ s.returned, x.thread = r → (x.ret.Finds q ↔ found = true)) → Reader s r call q found

/-- A read next to inserts of other values. -/
structure Reading (r : ι) (call : Call T K) (q : K) (found : Bool) (s : State ι M T K) : Prop where
  inv : s.Inv
  others : ∀ u, u ≠ r → ∀ c phase, s.threads u = .running c phase → c.InsertsOther q
  reader : s.Reader r call q found

variable {s s' : State ι M T K} {r : ι} {call : Call T K} {q : K} {found : Bool}

omit [DecidableEq ι] [Fintype ι] [LinearOrder K] [Keyed T K] [LawfulSkipMap M T K] in
theorem of_mem_record {t : ι} {call : Call T K} {next : Next T} {x : Returned ι T K}
    (hx : x ∈ next.record t call) :
    x.thread = t ∧ x.call = call ∧ ∃ cdc, next = .done x.ret cdc := by
  cases next with
  | done ret cdc =>
    rw [Next.record, List.mem_singleton] at hx
    subst hx
    exact ⟨rfl, rfl, cdc, rfl⟩
  | goto ph => cases hx
  | panic => cases hx

omit [LinearOrder K] [LawfulSkipMap M T K] [Fintype ι] in
/-- The other threads keep inserting other values. -/
theorem others_advance {t : ι} {c : Call T K} {phase : Phase T} (shared : BTreeSet M T)
    (next : Next T)
    (h : ∀ u, u ≠ r → ∀ c phase, s.threads u = .running c phase → c.InsertsOther q)
    (ht : s.threads t = .running c phase) :
    ∀ u, u ≠ r → ∀ c' phase, (s.advance t c shared next).threads u = .running c' phase →
      c'.InsertsOther q := by
  intro u hu c' ph hrun
  by_cases hut : u = t
  · subst hut
    rw [threads_advance_self] at hrun
    cases next <;> cases hrun
    exact h u hu c _ ht
  · rw [threads_advance_of_ne hut] at hrun
    exact h u hu c' ph hrun

/-- A step of the reader. -/
theorem Reading.turn_self (hs : s.Reading r call q found)
    (hcall : call = .contains q ∨ call = .get q) (hinv : s'.Inv)
    (h : s.step (.turn r) = some s') : s'.Reading r call q found := by
  obtain ⟨c, phase, shared, next, ht, ⟨changes, hturn, -, -⟩, rfl⟩ := step_turn hs.inv h
  refine ⟨hinv, others_advance _ _ hs.others ht, ?_⟩
  cases hs.reader with
  | looking hthread hfind hnone =>
    rw [hthread] at ht
    cases ht
    obtain ⟨rfl, ⟨n, hn, rfl⟩ | ⟨hn, ret, rfl, hret⟩⟩ := hturn.read_lookup hcall
    · rw [BTreeSet.locateNode_eq, Option.map_eq_some_iff] at hn
      obtain ⟨e, he, rfl⟩ := hn
      refine .searching (threads_advance_self ..) ?_ ?_ ?_
      · obtain ⟨a, b, hcut, -, -⟩ := BTreeSet.lookupPut_eq_some he
        exact hs.inv.coherent.allocated e (by simp [hcut])
      · show (find key q (s.shared.nodes e.2)).isSome = true
        rw [← hs.inv.coherent.find_elements he, hfind]
      · simpa [advance, Next.record] using hnone
    · -- an element is stored, so there is a node to search
      rw [BTreeSet.locateNode_eq, Option.map_eq_none_iff, BTreeSet.lookupPut_eq_none] at hn
      rw [BTreeSet.elements, BTreeSet.view, hn] at hfind
      cases hfind
  | @searching _ n hthread hn hfind hnone =>
    rw [hthread] at ht
    cases ht
    obtain ⟨rfl, ret, rfl, hret⟩ := hturn.read_search hcall
    refine .answered (threads_advance_self ..)
      ⟨_, List.mem_append_right _ (List.mem_singleton.mpr rfl), rfl, rfl⟩ fun x hx hxr => ?_
    rcases List.mem_append.mp hx with hx | hx
    · exact absurd hxr (hnone x hx)
    · obtain ⟨-, -, _, hdone⟩ := of_mem_record hx
      cases hdone
      rw [hret, hfind]
  | answered hthread _ _ =>
    rw [hthread] at ht
    cases ht

/-- A step of another thread: a split may move the key away from a waiting reader. -/
theorem Reading.turn_other {u : ι} (hs : s.Reading r call q found) (hu : u ≠ r)
    (hfirst : s.FirstOnEmpty (.turn u)) (hfits : s.SplitFits (.turn u))
    (h : s.step (.turn u) = some s') :
    (s.StaysPut r q (.turn u) → s'.Reading r call q found) ∧
      (¬ s.StaysPut r q (.turn u) → s'.Reading r call q false) := by
  have hinv := hs.inv.step hfirst hfits h
  obtain ⟨c, phase, shared, next, ht, ⟨changes, hturn, -, -⟩, rfl⟩ := step_turn hs.inv h
  have hactive := active_turn ht
  have hinserts := hs.others u hu c phase ht
  have hothers := others_advance shared next hs.others ht
  have hthreads := threads_advance_of_ne (s := s) (t := u) (Ne.symm hu) c shared next
  have hrecord : ∀ x ∈ next.record u c, x.thread ≠ r := fun x hx =>
    (of_mem_record hx).1 ▸ hu
  have hreturned : ∀ {P : Returned ι T K → Prop}, (∀ x ∈ s.returned, P x) →
      (∀ x, x.thread ≠ r → P x) → ∀ x ∈ (s.advance u c shared next).returned, P x := by
    intro P hold hnew x hx
    rcases List.mem_append.mp hx with hx | hx
    · exact hold x hx
    · exact hnew x (hrecord x hx)
  cases c with
  | insert ch w =>
    cases hs.reader with
    | looking hthread hfind hnone =>
      -- the reader has no node yet: the set keeps the key
      have hstays : s.StaysPut r q (.turn u) := fun n hn => by
        rw [hthread] at hn
        cases hn
      refine ⟨fun _ => ⟨hinv, hothers, ?_⟩, fun hnot => absurd hstays hnot⟩
      obtain ⟨_, _, hlinear⟩ := hturn.linear hs.inv.coherent hs.inv.sorted
        (fun e he => hs.inv.routed u _ e (he ▸ ht)) (hfirst _ hactive) (hfits _ hactive)
      have hlin := hlinear (hs.inv.dropsEmpty (l := .turn u) (fun p hp => by
        rw [hactive] at hp
        cases hp
        exact ⟨ch, w, rfl⟩) _ hactive)
      refine .looking (hthreads.trans hthread) ?_ (hreturned hnone fun x hx => hx)
      show (find key q shared.elements).isSome
      generalize shared.elements = l at hlin
      cases hlin with
      | wait => exact hfind
      | act _ heff => exact heff.keeps (by simp) hfind
      | defer _ _ heff => exact heff.keeps (by simp) hfind
      | finish => exact hfind
      | panic => exact hfind
    | @searching _ n hthread hn hfind hnone =>
      have ⟨hn', hkeep, hlose⟩ := hturn.find_node hs.inv.sorted (hfits _ hactive) hinserts hn
      have hstays : s.StaysPut r q (.turn u) ↔ phase.Leaves s.shared n q := by
        constructor
        · intro h
          exact h n (by rw [hthread]; rfl) _ hactive
        · intro h n' hn' p hp
          rw [hthread] at hn'
          cases hn'
          rw [hactive] at hp
          cases hp
          exact h
      rw [hstays]
      have hnone' := hreturned hnone fun x hx => hx
      exact ⟨fun h => ⟨hinv, hothers, .searching (hthreads.trans hthread) hn'
        ((hkeep h).trans hfind) hnone'⟩, fun h => ⟨hinv, hothers,
          .searching (hthreads.trans hthread) hn' (by
            show (find key q (shared.nodes n)).isSome = false
            rw [hlose h]
            rfl) hnone'⟩⟩
    | answered hthread hrec hall =>
      have hstays : s.StaysPut r q (.turn u) := fun n hn => by
        rw [hthread] at hn
        cases hn
      refine ⟨fun _ => ⟨hinv, hothers, .answered (hthreads.trans hthread) ?_ ?_⟩,
        fun hnot => absurd hstays hnot⟩
      · obtain ⟨x, hx, hrest⟩ := hrec
        exact ⟨x, List.mem_append_left _ hx, hrest⟩
      · exact hreturned hall fun x hx hxr => absurd hxr hx
  | remove p => exact hinserts.elim
  | contains p => exact hinserts.elim
  | get p => exact hinserts.elim

/-- A call of another thread. -/
theorem Reading.call_other {u : ι} {c : Call T K} (hs : s.Reading r call q found) (hu : u ≠ r)
    (hc : c.InsertsOther q) (hinv : s'.Inv) (h : s.step (.call u c) = some s') :
    s'.Reading r call q found := by
  obtain ⟨-, rfl⟩ := step_call h
  have hthread : (s.invoke u c).threads r = s.threads r := Function.update_of_ne (Ne.symm hu) ..
  refine ⟨hinv, fun u' hu' c' ph hrun => ?_, ?_⟩
  · by_cases hut : u' = u
    · subst hut
      simp only [invoke, Function.update_self, Thread.running.injEq] at hrun
      exact hrun.1 ▸ hc
    · simp only [invoke, Function.update_of_ne hut] at hrun
      exact hs.others u' hu' c' ph hrun
  · cases hs.reader with
    | looking ht hfind hnone => exact .looking (hthread.trans ht) hfind hnone
    | searching ht hn hfind hnone => exact .searching (hthread.trans ht) hn hfind hnone
    | answered ht hrec hall => exact .answered (hthread.trans ht) hrec hall

/-- A step next to a read, or of the read. -/
theorem Reading.step {l : Label ι T K} (hs : s.Reading r call q found)
    (hcall : call = .contains q ∨ call = .get q) (hcond : s.CarefulInserts l)
    (hlabel : l.Beside r q) (h : s.step l = some s') :
    (s.StaysPut r q l → s'.Reading r call q found) ∧
      (¬ s.StaysPut r q l → s'.Reading r call q false) := by
  have hinv := hs.inv.step hcond.1 hcond.2 h
  cases l with
  | call u c =>
    exact ⟨fun _ => hs.call_other hlabel.1 hlabel.2 hinv h, fun hnot => absurd
      (fun n hn p hp => by cases hp) hnot⟩
  | turn u =>
    by_cases hu : u = r
    · subst hu
      refine ⟨fun _ => hs.turn_self hcall hinv h, fun hnot => absurd (fun n hn p hp => ?_) hnot⟩
      -- the reader itself splits nothing
      obtain ⟨t, ht, hrun⟩ := active_eq_some hp
      cases ht
      rw [hrun] at hn
      rintro op hop - -
      cases hphase : p.2 with
      | search m =>
        rw [hphase] at hop
        cases hop
      | _ =>
        rw [hphase] at hn
        cases hn
    · exact hs.turn_other hu hcond.1 hcond.2 h

end State

end IndexSet.Concurrent
