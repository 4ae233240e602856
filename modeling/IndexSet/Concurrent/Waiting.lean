import IndexSet.Concurrent.Deadlock

/-!
# Whom a Thread Waits For

Inserts, removes and range constructions that begin on a set at rest, with the single
acquisitions of their locks: a thread that cannot take its next step waits for a lock, or a node's
mutex, that another one holds.  So when nobody can, the threads are deadlocked, and as long as no
construction asks for the node behind its back node somebody goes on (`never_stuck`).

- §1 a thread is in a phase of its call, and with its locks it can run it;
- §2 all threads, and runs.
-/

namespace IndexSet.Concurrent

open KeyedList

variable {ι M T K Q : Type} [LinearOrder K] [Keyed T K] [LawfulSkipMap M T K] [LinearOrder Q]

/-! ## §1 The phases of a call -/

/-- The phases a call goes through. -/
def Call.Visits : Call T K → Phase T → Prop
  | .insert _ _, .search _ => False
  | .insert _ _, _ => True
  | _, .lookup => True
  | .remove _, .edit _ => True
  | .remove _, .commit _ _ _ => True
  | .contains _, .search _ => True
  | .get _, .search _ => True
  | _, _ => False

theorem Turn.visits {s s' : BTreeSet M T} {events : List (ChangeEvent T)} {call : Call T K}
    {phase phase' : Phase T} {changes : List (ChangeEventUnassigned T)}
    (h : Turn s events call phase s' (.goto phase') changes) : call.Visits phase' := by
  cases h with
  | located hread => rcases hread with rfl | rfl <;> trivial
  | _ => trivial

omit [LawfulSkipMap M T K] in
/-- A step of a call that has its locks can be taken. -/
theorem turn_isSome [SkipMap M T K] (s : BTreeSet M T) {alone : Bool} {call : Call T K}
    {phase : Phase T} (h : call.Visits phase)
    (hcommit : ∀ op d cdc, phase = .commit op d cdc → alone = true) :
    (turn s alone call phase).isSome = true := by
  cases call with
  | insert c v =>
    cases phase with
    | lookup =>
      simp only [turn]
      cases s.lookupPut (key v) <;> rfl
    | edit e =>
      simp only [turn]
      split
      · rfl
      · rfl
      · split
        · rfl
        · split <;> rfl
      · rfl
    | tryWrite =>
      simp only [turn]
      split <;> rfl
    | commit op d cdc =>
      simp only [turn, hcommit op d cdc rfl, if_true]
      split
      · rfl
      · rfl
      · split <;> rfl
    | search n => exact h.elim
    | release =>
      simp only [turn]
      cases s.firstNode v <;> rfl
    | insertFirst => rfl
  | remove q =>
    cases phase with
    | lookup =>
      simp only [turn]
      cases s.lookupRemove q <;> rfl
    | edit e =>
      simp only [turn]
      split <;> rfl
    | commit op d cdc =>
      simp only [turn, hcommit op d cdc rfl, if_true]
      split <;> rfl
    | _ => exact h.elim
  | contains q =>
    cases phase with
    | lookup =>
      simp only [turn]
      cases s.locateNode q <;> rfl
    | search n => rfl
    | _ => exact h.elim
  | get q =>
    cases phase with
    | lookup =>
      simp only [turn]
      cases s.locateNode q <;> rfl
    | search n => rfl
    | _ => exact h.elim

namespace Locks

variable {borrow : T → Q} {s s' : BTreeSet M T} {f : NodeId → WithBot K} {alone : Bool}
  {job : Job T K Q} {thread : Thread T K Q}

/-- A job is in a phase of its call. -/
def Job.Visits : Job T K Q → Prop
  | .call c phase => c.Visits phase
  | .replace c entry => c.Visits (.edit entry)
  | .range _ _ _ => True

def Thread.Visits : Thread T K Q → Prop
  | .running job _ => job.Visits
  | _ => True

omit [LinearOrder Q] in
theorem afterCall_visits {events : List (ChangeEvent T)} {call : Call T K} {phase : Phase T}
    {next : Next T} {changes : List (ChangeEventUnassigned T)}
    (h : Turn s events call phase s' next changes) :
    (afterCall call next : Thread T K Q).Visits := by
  cases next with
  | goto phase' => exact h.visits
  | done ret cdc => trivial
  | panic => trivial

/-- What a thread has run leaves it in a phase of its call. -/
theorem Job.run_visits (hsorted : s.Sorted) (hfits : job.Fits f s.nextNode)
    (hvisits : job.Visits) (h : job.run s borrow alone = some (s', thread)) : thread.Visits := by
  cases job with
  | call c phase =>
    simp only [Job.run] at h
    split at h
    next e hconflict =>
      -- only an insert that is not checked goes on to replace
      cases h
      unfold conflict at hconflict
      split at hconflict
      · trivial
      · cases hconflict
    next =>
      obtain ⟨⟨s₁, next⟩, hturn, heq⟩ := Option.map_eq_some_iff.mp h
      cases heq
      have hdefers : ∀ op d cdc, phase = .commit op d cdc → c.Defers op d := by
        rintro op d cdc rfl
        exact hfits
      obtain ⟨changes, hturn, -, -⟩ := turn_spec hsorted hdefers hturn
      exact afterCall_visits hturn
  | replace c e =>
    obtain ⟨⟨s₁, next⟩, hturn, heq⟩ := Option.map_eq_some_iff.mp h
    cases heq
    obtain ⟨changes, hturn, -, -⟩ := turn_spec hsorted (by simp) hturn
    exact afterCall_visits hturn
  | range lo hi phase =>
    cases h
    cases s.rangeTurn borrow lo hi phase <;> trivial

/-- A thread that has its locks can run its phase. -/
theorem Job.run_isSome (s : BTreeSet M T) (borrow : T → Q) (hvisits : job.Visits)
    (halone : .exclusive ∈ job.guards → alone = true) :
    (job.run s borrow alone).isSome = true := by
  cases job with
  | call c phase =>
    simp only [Job.run]
    split
    · rfl
    · rw [Option.isSome_map]
      refine turn_isSome s hvisits ?_
      rintro op d cdc rfl
      exact halone (by simp [Job.guards, phaseGuards])
  | replace c e =>
    rw [Job.run, Option.isSome_map]
    exact turn_isSome s hvisits (by simp)
  | range lo hi phase => rfl

/-! ## §2 All threads -/

theorem Guard.lock_eq_of_excludes {g g' : Guard} (h : g.excludes g' = true) : g.lock = g'.lock := by
  cases g <;> cases g' <;> simp_all [Guard.excludes, Guard.lock]

namespace State

variable [DecidableEq ι] [Fintype ι] {s s' : State ι M T K Q}

/-- What holds in every state the threads reach: the invariant of the locks, and that every thread
is in a phase of its call. -/
structure InPhase (s : State ι M T K Q) : Prop where
  inv : ∃ f, s.Inv f
  visits : ∀ t, (s.threads t).Visits

omit [Fintype ι] [LawfulSkipMap M T K] [LinearOrder K] [Keyed T K] [LinearOrder Q] in
theorem visits_update {t : ι} {thread : Thread T K Q} (hs : ∀ u, (s.threads u).Visits)
    (ht : thread.Visits) (u : ι) : (Function.update s.threads t thread u).Visits :=
  (Function.forall_update_iff s.threads fun _ th => th.Visits).mpr ⟨ht, fun v _ => hs v⟩ u

theorem InPhase.step {l : Label ι T K Q} (hs : s.InPhase) (h : s.step borrow l = some s') :
    s'.InPhase := by
  obtain ⟨f, hinv⟩ := hs.inv
  refine ⟨hinv.step h, ?_⟩
  cases l with
  | insert t value =>
    rw [begin_eq h]
    exact visits_update hs.visits trivial
  | remove t value =>
    rw [begin_eq h]
    exact visits_update hs.visits trivial
  | range t lo hi =>
    rw [begin_eq h]
    exact visits_update hs.visits trivial
  | turn t =>
    simp only [State.step] at h
    split at h
    next job acquired ht =>
      have hvisits := hs.visits t
      have hfits := hinv.fits t
      rw [ht] at hvisits hfits
      split at h
      next guard hguard =>
        -- one lock more, in the same phase
        split at h <;> cases h
        exact visits_update hs.visits hvisits
      next hall =>
        obtain ⟨⟨shared, thread⟩, hrun, rfl⟩ := Option.map_eq_some_iff.mp h
        exact visits_update hs.visits (Job.run_visits hinv.sorted hfits.2 hvisits hrun)
    next => cases h

/-- A thread that cannot take its next step waits for a lock that another one holds. -/
theorem InPhase.waits {t : ι} {job : Job T K Q} {acquired : ℕ} (hs : s.InPhase)
    (ht : s.threads t = .running job acquired) (hstuck : s.step borrow (.turn t) = none) :
    ∃ l, (s.threads t).waits = some l ∧ ∃ u, u ≠ t ∧ l ∈ (s.threads u).holds := by
  obtain ⟨f, hinv⟩ := hs.inv
  have hvisits := hs.visits t
  rw [ht] at hvisits
  simp only [State.step, ht] at hstuck
  split at hstuck
  next guard hguard =>
    split at hstuck
    · cases hstuck
    next hfree =>
      obtain ⟨u, hu, held, hheld, hexcludes⟩ :
          ∃ u, u ≠ t ∧ ∃ held ∈ (s.threads u).guards, held.excludes guard = true := by
        simpa [free] using hfree
      refine ⟨guard.lock, by rw [ht, Thread.waits, hguard, Option.map_some], u, hu, ?_⟩
      rw [← Guard.lock_eq_of_excludes hexcludes]
      exact List.mem_map_of_mem hheld
  next hall =>
    -- with all its locks it can go on
    have hguards : (s.threads t).guards = job.guards := by
      rw [ht]
      exact List.take_of_length_le (List.getElem?_eq_none_iff.mp hall)
    have halone : .exclusive ∈ job.guards → s.free t .exclusive = true := fun hexclusive =>
      decide_eq_true fun u hu held hheld =>
        hinv.excludes t u hu .exclusive (hguards ▸ hexclusive) held hheld
    have hsome := Job.run_isSome s.shared borrow hvisits halone
    rw [Option.map_eq_none_iff.mp hstuck] at hsome
    cases hsome

/-- When nobody can take a step, the threads that are at something are deadlocked. -/
theorem InPhase.deadlocked (borrow : T → Q) {t : ι} {job : Job T K Q} {acquired : ℕ}
    (hs : s.InPhase) (ht : s.threads t = .running job acquired)
    (hstuck : ∀ u, s.step borrow (.turn u) = none) :
    s.Deadlocked := by
  refine ⟨{u | ∃ job acquired, s.threads u = .running job acquired}, ⟨t, job, acquired, ht⟩, ?_⟩
  rintro u ⟨job, acquired, hu⟩
  obtain ⟨l, hwaits, v, hv, hholds⟩ := hs.waits hu (hstuck u)
  refine ⟨l, hwaits, v, ?_, hv, hholds⟩
  -- who holds a lock is at something
  cases hthread : s.threads v with
  | running job acquired => exact ⟨job, acquired, hthread⟩
  | idle => simp [hthread, Thread.holds, Thread.guards] at hholds
  | panicked => simp [hthread, Thread.holds, Thread.guards] at hholds

end State

/-- **Nobody waits for ever**: in every state a run of inserts, removes and range constructions
reaches from a set at rest, as long as no construction asks for the node behind its back node,
somebody can take the next step while anybody is at something. -/
theorem never_stuck [DecidableEq ι] [Fintype ι] {cdc : Bool} {elementSize nodeCapacity : ℕ}
    {before schedule : List (Label ι T K Q)} {q s : State ι M T K Q}
    (hbefore : Transition.run (State.step borrow)
      (State.start (BTreeSet.withMaximumNodeSize cdc elementSize nodeCapacity)) before = some q)
    (hquiet : q.Quiescent)
    (hends : Transition.Along (State.step borrow) (State.EndsAtNode borrow) q schedule)
    (hrun : Transition.run (State.step borrow) q schedule = some s) {t : ι} {job : Job T K Q}
    {acquired : ℕ} (ht : s.threads t = .running job acquired) :
    ∃ u, (s.step borrow (.turn u)).isSome = true := by
  have hs : s.InPhase := Transition.run_invariant (P := fun _ _ => True) (I := State.InPhase)
    (fun _ _ _ hs _ h => hs.step h) ⟨⟨_, State.inv_start ..⟩, fun _ => trivial⟩
    (Transition.along_of_forall_mem (Q := fun _ => True) fun _ _ => trivial)
    (Transition.run_append.mpr ⟨q, hbefore, hrun⟩)
  obtain ⟨f, hinv⟩ := hs.inv
  by_contra hnone
  refine hinv.not_deadlocked (State.not_behind_run hquiet hends hrun)
    (hs.deadlocked borrow ht fun u => ?_)
  simpa using not_exists.mp hnone u

/-- A range from 15 has gone from the second node to the first, for whose mutex a remove waits, and
an insert waits for the mutex of the second. -/
def behindRange : List (Label (Fin 3) ℕ ℕ ℕ) :=
  .range 1 (.included 15) .unbounded :: turns 1 4 ++ .remove 0 10 :: turns 0 2 ++ turns 1 1 ++
    .insert 2 25 :: turns 2 2

theorem never_stuck_behindRange :
    ∃ q s : State (Fin 3) (SortedIndex ℕ) ℕ ℕ ℕ,
      Transition.run (State.step id)
        (State.start (BTreeSet.withMaximumNodeSize true 8 2)) fillTwoNodes = some q ∧
      Transition.run (State.step id) q behindRange = some s ∧
      s.step id (.turn 0) = none ∧ s.step id (.turn 2) = none ∧
      ∃ u, (s.step id (.turn u)).isSome = true := by
  have ⟨q, hrun, hq⟩ := Transition.exists_run
    (fun q : State (Fin 3) (SortedIndex ℕ) ℕ ℕ ℕ => decide (q.Quiescent ∧
      Transition.Along (State.step id) (State.EndsAtNode id) q behindRange ∧
      ((Transition.run (State.step id) q behindRange).any fun s =>
        decide ((s.step id (.turn 0)).isNone ∧ (s.step id (.turn 2)).isNone ∧
          (s.threads 0).waits = some (.node 0))) = true))
    (State.step id) (State.start (BTreeSet.withMaximumNodeSize true 8 2))
    fillTwoNodes (by decide +kernel)
  obtain ⟨hquiet, hends, hany⟩ := of_decide_eq_true hq
  obtain ⟨s, hbehind, hs⟩ := (Option.any_eq_true _ _).mp hany
  simp only [Option.isNone_iff_eq_none, decide_eq_true_eq] at hs
  obtain ⟨hremove, hinsert, hwaits⟩ := hs
  obtain ⟨job, acquired, ht⟩ : ∃ job acquired, s.threads 0 = .running job acquired := by
    cases ht : s.threads 0 with
    | running job acquired => exact ⟨job, acquired, rfl⟩
    | idle => simp [ht, Thread.waits] at hwaits
    | panicked => simp [ht, Thread.waits] at hwaits
  exact ⟨q, s, hrun, hbehind, hremove, hinsert, never_stuck hrun hquiet hends hbehind ht⟩

end Locks

end IndexSet.Concurrent
