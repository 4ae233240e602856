import IndexSet.Concurrent.Accounting

/-!
# Builds With and Without Change Events

The feature `cdc` adds the events, their counter, and three calls of `expect`.  What the events
say changes nothing else: a run of the build that reports its changes is, with the events left
out, a run of the build that does not.  One `expect` can fail, that of a split whose node has
been emptied; a thread that panics there would go on in the other build.

- `BTreeSet.silent`, …, `State.silent`: a state without its events;
- §2 every piece of the code commutes with leaving them out;
- `silent_of_run`: so does a run in which no thread has panicked.
-/

namespace IndexSet.Concurrent

open KeyedList

variable {ι M T K : Type} [LinearOrder K] [Keyed T K]

/-! ## §1 Leaving the events out -/

/-- The set as the build without `cdc` has it. -/
def BTreeSet.silent (s : BTreeSet M T) : BTreeSet M T := { s with cdc := false, eventId := 0 }

def PutOutcome.silent : PutOutcome T → PutOutcome T
  | .done _ => .done []
  | .conflict idx oldMax => .conflict idx oldMax
  | .deferred operation _ => .deferred operation []

def RemoveOutcome.silent : RemoveOutcome T → RemoveOutcome T
  | .absent => .absent
  | .done deleted _ => .done deleted []
  | .deferred deleted operation _ => .deferred deleted operation []

def Phase.silent : Phase T → Phase T
  | .commit operation deleted _ => .commit operation deleted []
  | phase => phase

def Next.silent : Next T → Next T
  | .goto phase => .goto phase.silent
  | .done ret _ => .done ret []
  | .panic => .panic

def Thread.silent : Thread T K → Thread T K
  | .running call phase => .running call phase.silent
  | thread => thread

def Returned.silent (r : Returned ι T K) : Returned ι T K := { r with cdc := [] }

/-- The state as the build without `cdc` has it. -/
def State.silent (s : State ι M T K) : State ι M T K where
  shared := s.shared.silent
  threads t := (s.threads t).silent
  invoked := s.invoked
  returned := s.returned.map Returned.silent

/-! ## §2 The code without its events -/

namespace BTreeSet

variable (s : BTreeSet M T)

omit [LinearOrder K] [Keyed T K]

@[simp] theorem silent_nodes : s.silent.nodes = s.nodes := rfl
@[simp] theorem silent_index : s.silent.index = s.index := rfl
@[simp] theorem silent_nodeCapacity : s.silent.nodeCapacity = s.nodeCapacity := rfl
@[simp] theorem silent_poisoned : s.silent.poisoned = s.poisoned := rfl
@[simp] theorem silent_cdc : s.silent.cdc = false := rfl

@[simp] theorem silent_setNode (n : NodeId) (items : List T) :
    (s.setNode n items).silent = s.silent.setNode n items := rfl

@[simp] theorem silent_emit (changes : List (ChangeEventUnassigned T)) :
    (s.emit changes).1.silent = s.silent := by
  obtain ⟨eventId, heq⟩ := emit_eq s changes
  rw [heq]
  rfl

@[simp] theorem emit_silent (changes : List (ChangeEventUnassigned T)) :
    s.silent.emit changes = (s.silent, []) :=
  emit_of_not_cdc rfl changes

end BTreeSet

namespace BTreeSet

variable (s : BTreeSet M T)

theorem putEdit_silent (e : T × NodeId) (v : T) :
    s.silent.putEdit e v = (s.putEdit e v).map fun r => (r.1.silent, r.2.silent) := by
  rw [putEdit, putEdit]
  simp only [silent_nodes, silent_nodeCapacity, emit_silent, ← silent_setNode]
  cases Node.needToSplit (s.nodes e.2) s.nodeCapacity with
  | true => rfl
  | false =>
    rcases Node.insert (s.nodes e.2) v with ⟨node, inserted, idx⟩
    cases inserted with
    | true =>
      simp only [Bool.false_eq_true, if_false]
      split_ifs with hsame
      · simp [PutOutcome.silent]
      · cases Node.max (s.nodes e.2) <;> simp [PutOutcome.silent]
    | false => cases Node.max (s.nodes e.2) <;> rfl

theorem removeEdit_silent (e : T × NodeId) (q : K) :
    s.silent.removeEdit e q = (s.removeEdit e q).map fun r => (r.1.silent, r.2.silent) := by
  rw [removeEdit, removeEdit]
  simp only [silent_nodes, emit_silent, ← silent_setNode]
  rcases Node.delete (s.nodes e.2) q with ⟨node, _ | ⟨deleted, idx⟩⟩
  · rfl
  · cases Node.max (s.nodes e.2) with
    | none => rfl
    | some oldMax =>
      dsimp only
      split_ifs <;> simp [RemoveOutcome.silent]

variable [SkipMap M T K]

omit [LinearOrder K] [Keyed T K] in
/-- The events of a replacement never fail to be made. -/
theorem putReplace_silent {n : NodeId} {a b : List T} {x : T} (m v : T)
    (hl : s.nodes n = a ++ x :: b) :
    s.silent.putReplace n a.length m v =
      (s.putReplace n a.length m v).map fun r => (r.1.silent, r.2.1, []) := by
  obtain ⟨changes, hchanges⟩ := Option.isSome_iff_exists.mp (replaceEvents_isSome a b x m v)
  rw [← hl] at hchanges
  cases hcdc : s.cdc with
  | true =>
    obtain ⟨eventId, hemit⟩ := emit_eq s changes
    simp [putReplace, hcdc, hchanges, hemit]
    rfl
  | false =>
    simp [putReplace, hcdc, emit_of_not_cdc hcdc]

theorem insertFirst_silent (v : T) :
    s.silent.insertFirst v = ((s.insertFirst v).1.silent, []) := by
  obtain ⟨eventId, hemit⟩ := emit_eq s [.createNode v]
  simp only [insertFirst, emit_silent, hemit]
  rfl

theorem commitSplit_silent (n : NodeId) (m v : T) :
    s.silent.commitSplit n m v =
      ((s.commitSplit n m v).1.silent, (s.commitSplit n m v).2.1, []) := by
  cases hlower : Node.max (Node.halve (s.nodes n)).1 <;>
    cases hupper : Node.max (Node.halve (s.nodes n)).2 <;>
    simp only [commitSplit, silent_nodes, silent_index, hlower, hupper] <;> rfl

/-- A commit gives up for the same reasons, and goes through in the same way, unless it splits a
node that has been emptied. -/
theorem commit_silent (operation : Operation T)
    (hfilled : ∀ n m v, operation = .split n m v → (s.commit operation).isSome) :
    s.silent.commit operation = (s.commit operation).map fun r =>
      (r.1.silent, r.2.map fun ok => (ok.1, [])) := by
  cases operation with
  | split n m v =>
    have hsome := hfilled n m v rfl
    simp only [commit, silent_nodes, silent_index, silent_cdc, Bool.false_eq_true, false_and,
      if_false] at hsome ⊢
    cases hget : SkipMap.get s.index (key m) with
    | none => rfl
    | some entry =>
      rw [hget] at hsome
      dsimp only at hsome ⊢
      by_cases hentry : entry.2 = n
      · rw [if_pos hentry] at hsome
        rw [if_pos hentry, if_pos hentry, commitSplit_silent]
        split_ifs at hsome ⊢ with hempty
        · cases hsome
        · rfl
      · rw [if_neg hentry, if_neg hentry]
        rfl
  | updateMax n m =>
    simp only [commit, silent_nodes, silent_index]
    cases Node.max (s.nodes n) with
    | none => rfl
    | some newMax =>
      dsimp only
      cases SkipMap.get s.index (key m) with
      | none => rfl
      | some entry =>
        dsimp only
        split_ifs
        · cases compare (key newMax) (key m) <;> rfl
        · rfl
  | makeUnreachable n m =>
    simp only [commit, silent_nodes, silent_index, silent_cdc, Bool.false_eq_true, if_false]
    cases SkipMap.get s.index (key m) with
    | none => rfl
    | some entry =>
      dsimp only
      by_cases hentry : entry.2 = n
      · rw [if_pos hentry, if_pos hentry]
        cases compareMax (Node.max (s.nodes n)) m <;> rfl
      · rw [if_neg hentry, if_neg hentry]
        rfl

theorem commitDeferred_silent (operation : Operation T) (cdc : List (ChangeEvent T))
    (hsome : (s.commitDeferred operation cdc).isSome) :
    s.silent.commitDeferred operation [] = (s.commitDeferred operation cdc).map fun r =>
      (r.1.silent, r.2.map fun ok => (ok.1, [])) := by
  have hcommit : (s.commit operation).isSome := by
    rw [commitDeferred] at hsome
    cases h : s.commit operation with
    | none => simp [h] at hsome
    | some r => rfl
  rw [commitDeferred, commitDeferred, s.commit_silent operation fun _ _ _ _ => hcommit]
  rcases hr : s.commit operation with _ | ⟨s', err | ⟨value, changes⟩⟩
  · rw [hr] at hcommit
    cases hcommit
  · rfl
  · simp [Except.map]

end BTreeSet

/-! ## §3 One step -/

section Step

variable [LawfulSkipMap M T K] {s : BTreeSet M T}

/-- An edit of an insert. -/
theorem turn_edit_silent (hsorted : s.Sorted) {alone checked : Bool} {v : T} {e : T × NodeId}
    {shared : BTreeSet M T} {next : Next T}
    (h : turn s alone (.insert checked v) (.edit e) = some (shared, next)) :
    turn s.silent alone (.insert checked v) (.edit e) = some (shared.silent, next.silent) := by
  obtain ⟨s', outcome, heval, hedit⟩ := s.putEdit_spec e v (hsorted e.2)
  have hsilent := s.putEdit_silent e v
  simp only [turn, heval] at h
  simp only [turn, hsilent, heval, Option.map_some]
  cases hedit with
  | full =>
    cases h
    rfl
  | added =>
    cases h
    rfl
  | raised =>
    cases h
    rfl
  | @present a b x m _ hl =>
    -- an equal element: refused, or replaced where it is
    cases checked with
    | true =>
      cases h
      rfl
    | false =>
      have hreplace := s.putReplace_silent m v hl
      obtain ⟨s'', cdc, changes, hrepl, -⟩ := s.putReplace_spec e.2 m v hl
      simp only [Bool.false_eq_true, if_false, hrepl] at h
      simp only [PutOutcome.silent, Bool.false_eq_true, if_false, hreplace, hrepl]
      cases h
      rfl

/-- A commit that does not panic. -/
theorem turn_commit_silent {alone : Bool} {call : Call T K} {operation : Operation T}
    {deleted : Option T} {cdc : List (ChangeEvent T)} {shared : BTreeSet M T} {next : Next T}
    (h : turn s alone call (.commit operation deleted cdc) = some (shared, next))
    (hnext : next ≠ .panic) :
    turn s.silent alone call (.commit operation deleted []) =
      some (shared.silent, next.silent) := by
  cases hr : s.commitDeferred operation cdc with
  | none =>
    -- the thread panics, or it does not commit at all
    cases call with
    | insert checked v =>
      simp only [turn, hr] at h
      cases alone with
      | true =>
        cases h
        exact absurd rfl hnext
      | false => cases h
    | remove q =>
      simp only [turn, hr] at h
      cases alone with
      | true =>
        cases h
        exact absurd rfl hnext
      | false => cases h
    | contains q => cases h
    | get q => cases h
  | some r =>
    have hsilent := s.commitDeferred_silent operation cdc (hr ▸ rfl)
    obtain ⟨s', ok⟩ := r
    cases call with
    | insert checked v =>
      simp only [turn, hr] at h
      simp only [turn, hsilent, hr, Option.map_some]
      cases alone with
      | true =>
        cases ok with
        | none => cases operation <;> (cases h; rfl)
        | some ok =>
          cases h
          rfl
      | false => cases h
    | remove q =>
      simp only [turn, hr] at h
      simp only [turn, hsilent, hr, Option.map_some]
      cases alone with
      | true =>
        cases ok with
        | none =>
          cases h
          rfl
        | some ok =>
          cases h
          rfl
      | false => cases h
    | contains q => cases h
    | get q => cases h

/-- **One step of a call**, if it does not panic. -/
theorem turn_silent (hsorted : s.Sorted) {alone : Bool} {call : Call T K} {phase : Phase T}
    {shared : BTreeSet M T} {next : Next T} (h : turn s alone call phase = some (shared, next))
    (hnext : next ≠ .panic) :
    turn s.silent alone call phase.silent = some (shared.silent, next.silent) := by
  cases phase with
  | commit operation deleted cdc => exact turn_commit_silent h hnext
  | lookup =>
    -- a lookup reads the index alone
    cases call with
    | insert checked v =>
      have hsame : s.silent.lookupPut (key v) = s.lookupPut (key v) := rfl
      simp only [turn] at h
      simp only [Phase.silent, turn, hsame]
      cases hl : s.lookupPut (key v) <;> rw [hl] at h <;> (cases h; rfl)
    | remove q =>
      have hsame : s.silent.lookupRemove q = s.lookupRemove q := rfl
      simp only [turn] at h
      simp only [Phase.silent, turn, hsame]
      cases hl : s.lookupRemove q <;> rw [hl] at h <;> (cases h; rfl)
    | contains q =>
      have hsame : s.silent.locateNode q = s.locateNode q := rfl
      simp only [turn] at h
      simp only [Phase.silent, turn, hsame]
      cases hl : s.locateNode q <;> rw [hl] at h <;> (cases h; rfl)
    | get q =>
      have hsame : s.silent.locateNode q = s.locateNode q := rfl
      simp only [turn] at h
      simp only [Phase.silent, turn, hsame]
      cases hl : s.locateNode q <;> rw [hl] at h <;> (cases h; rfl)
  | edit e =>
    cases call with
    | insert checked v => exact turn_edit_silent hsorted h
    | remove q =>
      have hsilent := s.removeEdit_silent e q
      simp only [turn] at h
      simp only [Phase.silent, turn, hsilent]
      rcases hr : s.removeEdit e q with _ | ⟨s', outcome⟩
      · rw [hr] at h
        cases h
        rfl
      · rw [hr] at h
        cases outcome <;> (cases h; rfl)
    | contains q => cases h
    | get q => cases h
  | release =>
    cases call with
    | insert checked v =>
      have hsame : s.silent.firstNode v = s.firstNode v := rfl
      simp only [turn] at h
      simp only [Phase.silent, turn, hsame]
      cases hnode : s.firstNode v <;> rw [hnode] at h <;> (cases h; rfl)
    | _ => cases h
  | tryWrite =>
    cases call with
    | insert checked v =>
      simp only [turn] at h
      simp only [Phase.silent, turn]
      by_cases hfree : (alone && !s.poisoned) = true
      · rw [if_pos hfree] at h
        cases h
        exact if_pos hfree
      · rw [if_neg hfree] at h
        cases h
        exact if_neg hfree
    | _ => cases h
  | insertFirst =>
    cases call with
    | insert checked v =>
      cases h
      simp only [Phase.silent, turn, s.insertFirst_silent v]
      rfl
    | _ => cases h
  | search n =>
    cases call with
    | contains q =>
      cases h
      rfl
    | get q =>
      cases h
      rfl
    | _ => cases h

end Step

/-! ## §4 Runs -/

namespace State

variable [LawfulSkipMap M T K] [DecidableEq ι] {s s' : State ι M T K}

omit [LinearOrder K] [Keyed T K] [LawfulSkipMap M T K] [DecidableEq ι] in
@[simp] theorem holdsRead_silent (thread : Thread T K) :
    thread.silent.holdsRead = thread.holdsRead := by
  cases thread with
  | running call phase => cases phase <;> rfl
  | _ => rfl

omit [LinearOrder K] [Keyed T K] [LawfulSkipMap M T K] in
theorem alone_silent [Fintype ι] (s : State ι M T K) (t : ι) : s.silent.alone t = s.alone t := by
  simp [alone, silent]

omit [LinearOrder K] [Keyed T K] [LawfulSkipMap M T K] in
theorem silent_invoke (s : State ι M T K) (t : ι) (call : Call T K) :
    (s.invoke t call).silent = s.silent.invoke t call := by
  simp only [silent, invoke, State.mk.injEq, and_true, true_and]
  funext u
  by_cases hut : u = t
  · subst hut
    simp [Thread.silent, Phase.silent]
  · simp [hut]

omit [LinearOrder K] [Keyed T K] [LawfulSkipMap M T K] in
theorem silent_advance (s : State ι M T K) (t : ι) (call : Call T K) (shared : BTreeSet M T)
    (next : Next T) :
    (s.advance t call shared next).silent =
      s.silent.advance t call shared.silent next.silent := by
  simp only [silent, advance, State.mk.injEq, true_and]
  constructor
  · funext u
    by_cases hut : u = t
    · subst hut
      cases next <;> simp [Next.thread, Next.silent, Thread.silent]
    · simp [hut]
  · cases next <;> simp [Next.record, Next.silent, Returned.silent]

/-- **A step** that does not panic. -/
theorem step_silent [Fintype ι] (hsorted : s.shared.Sorted) {l : Label ι T K}
    (h : s.step l = some s') (hpanic : ∀ t, s'.threads t ≠ .panicked) :
    s.silent.step l = some s'.silent := by
  cases l with
  | call t call =>
    obtain ⟨hidle, rfl⟩ := step_call h
    have hsilent : s.silent.threads t = .idle := by simp [silent, hidle, Thread.silent]
    rw [silent_invoke]
    simp [step, hsilent]
  | turn t =>
    obtain ⟨call, phase, shared, next, ht, hturn, rfl⟩ := step_turn_eq h
    have hnext : next ≠ .panic := fun hnext => by
      refine hpanic t ?_
      rw [threads_advance_self, hnext]
      rfl
    have hsilent : s.silent.threads t = .running call phase.silent := by
      simp [silent, ht, Thread.silent]
    have hstep : turn s.silent.shared (s.alone t) call phase.silent =
        some (shared.silent, next.silent) := turn_silent hsorted hturn hnext
    rw [silent_advance]
    simp only [step, hsilent, alone_silent, hstep]
    rfl

/-- A thread that has panicked stays so. -/
theorem panicked_of_run [Fintype ι] {t : ι} (hpanic : s.threads t = .panicked)
    {schedule : List (Label ι T K)} (hrun : Transition.run State.step s schedule = some s') :
    s'.threads t = .panicked := by
  refine Transition.run_invariant (P := fun _ _ => True)
    (I := fun s : State ι M T K => s.threads t = .panicked) (fun s l s' hs _ h => ?_) hpanic
    (Transition.along_of_forall_mem fun _ _ => trivial) hrun
  cases l with
  | call u call =>
    obtain ⟨hidle, rfl⟩ := step_call h
    have hut : t ≠ u := fun hut => by
      rw [← hut, hs] at hidle
      cases hidle
    simpa [State.invoke, hut] using hs
  | turn u =>
    obtain ⟨call, phase, shared, next, hrunning, -, rfl⟩ := step_turn_eq h
    have hut : t ≠ u := fun hut => by
      rw [← hut, hs] at hrunning
      cases hrunning
    rw [threads_advance_of_ne hut]
    exact hs

/-- A run in which no thread has panicked, from any state with sorted nodes. -/
theorem Sound.run_silent [Fintype ι] (hs : s.Sound) {schedule : List (Label ι T K)}
    (hrun : Transition.run State.step s schedule = some s')
    (hpanic : ∀ t, s'.threads t ≠ .panicked) :
    Transition.run State.step s.silent schedule = some s'.silent := by
  induction schedule generalizing s with
  | nil =>
    cases hrun
    rfl
  | cons l schedule ih =>
    obtain ⟨s₁, hstep, hrest⟩ := Transition.run_cons.mp hrun
    have hnone : ∀ t, s₁.threads t ≠ .panicked := fun t ht => hpanic t (panicked_of_run ht hrest)
    exact Transition.run_cons.mpr ⟨s₁.silent, step_silent hs.sorted hstep hnone,
      ih (hs.step hstep) hrest⟩

end State

/-- **The feature `cdc`**: in every interleaving in which no thread of the build with `cdc` has
panicked, the build without it takes the same steps, to the same index and the same nodes, and
its calls return the same. -/
theorem silent_of_run [LawfulSkipMap M T K] [DecidableEq ι] [Fintype ι] {shared : BTreeSet M T}
    (hs : shared.Coherent) (hsorted : shared.Sorted) {schedule : List (Label ι T K)}
    {final : State ι M T K}
    (hrun : Transition.run State.step (State.start shared) schedule = some final)
    (hpanic : ∀ t, final.threads t ≠ .panicked) :
    Transition.run State.step (State.start shared.silent) schedule = some final.silent :=
  (State.sound_start hs hsorted).run_silent hrun hpanic

/-- A split, a replacement and a remove that lowers a maximum, of two threads. -/
def reportingRun : List (Label (Fin 2) ℕ ℕ) :=
  [.call 0 (.insert false 3), .turn 0, .turn 0, .call 1 (.insert false 4), .turn 1, .turn 1,
    .turn 1, .call 0 (.insert false 3), .turn 0, .turn 0, .call 1 (.remove 5), .turn 1, .turn 1,
    .turn 1]

theorem silent_of_reportingRun :
    ∃ final : State (Fin 2) (SortedIndex ℕ) ℕ ℕ,
      Transition.run State.step (State.start (BTreeSet.single true 2 5)) reportingRun =
          some final ∧
        Transition.run State.step (State.start (BTreeSet.single true 2 5).silent) reportingRun =
          some final.silent := by
  obtain ⟨final, hrun, hfinal⟩ := Transition.exists_run
    (fun s : State (Fin 2) (SortedIndex ℕ) ℕ ℕ => decide (∀ t, s.threads t ≠ .panicked))
    State.step (State.start (BTreeSet.single true 2 5)) reportingRun (by decide)
  have hrest := BTreeSet.single_atRest (M := SortedIndex ℕ) (K := ℕ) true 2 5
  exact ⟨final, hrun, silent_of_run hrest.coherent hrest.sorted hrun (of_decide_eq_true hfinal)⟩

end IndexSet.Concurrent
