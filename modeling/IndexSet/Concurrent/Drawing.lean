import IndexSet.Concurrent.EventIds

/-!
# Drawing Identifiers One by One

The threads of `Machine` once more, cut at every `fetch_add` on the shared counter: a step
draws at most one identifier, and other threads may draw between two of a call.

- `put_cdc` replaces an equal element after `put_cdc_checked` has let go of the index lock:
  it holds the mutex of the node, draws an identifier for each event and then replaces;
- a commit takes the index lock exclusively and then the mutex of its node, and keeps the
  index lock until each of its events has an identifier;
- a first node gets its identifier and goes into the index in two steps, with no lock held;
- every other step is one of `turn` and draws one identifier or none.

`draw_spec` says what one step does to the counter, and `Ledger.step` that the books of all
threads stay balanced.
-/

namespace IndexSet.Concurrent.Drawing

open KeyedList

variable {ι M T K : Type}

/-! ## §1 Stages of a call -/

/-- Where a thread stands in its call. -/
inductive Stage (T : Type) where
  | within (phase : Phase T)
  /-- The first node has its identifier. -/
  | attach (value : T) (cdc : List (ChangeEvent T))
  /-- It holds the node's mutex: identifiers for the events `left`, then the replacement. -/
  | replace (node : NodeId) (idx : ℕ) (value : T) (left : List (ChangeEventUnassigned T))
    (cdc : List (ChangeEvent T))
  /-- It holds the index lock exclusively and goes for the node's mutex. -/
  | locked (operation : Operation T) (deleted : Option T) (cdc : List (ChangeEvent T))
  /-- It has committed and still holds the index lock: identifiers for the events `left`. -/
  | assign (ret : Ret T) (left : List (ChangeEventUnassigned T)) (cdc : List (ChangeEvent T))
  deriving DecidableEq

def Stage.holdsRead : Stage T → Bool
  | .within phase => phase.holdsRead
  | _ => false

def Stage.holdsWrite : Stage T → Bool
  | .locked _ _ _ => true
  | .assign _ _ _ => true
  | _ => false

/-- The node whose mutex a thread holds from one step to the next. -/
def Stage.holdsNode : Stage T → Option NodeId
  | .replace n _ _ _ _ => some n
  | _ => none

/-- What follows a step of a call. -/
inductive Next (T : Type) where
  | goto (stage : Stage T)
  | done (ret : Ret T) (cdc : List (ChangeEvent T))
  | panic

/-- What follows a step of `turn`. -/
def Next.ofTurn : Concurrent.Next T → Next T
  | .goto phase => .goto (.within phase)
  | .done ret cdc => .done ret cdc
  | .panic => .panic

/-- What the other threads' locks let a thread do. -/
structure Free where
  /-- Nobody else holds the index lock exclusively. -/
  read : Bool
  /-- Nobody else holds the index lock. -/
  write : Bool
  /-- Nobody else holds the mutex of the node. -/
  node : NodeId → Bool

/-! ## §2 One step of a call -/

variable [LinearOrder K] [Keyed T K]

/-- What a call returns after a commit that replaced `old`. -/
def committed : Call T K → Option T → Option T → Ret T
  | .remove _, _, deleted => .removed deleted
  | _, old, _ => .put old

section Step

variable [SkipMap M T K]

/-- A step that `turn` takes. -/
def coarse (s : BTreeSet M T) (free : Free) (call : Call T K) (phase : Phase T) :
    Option (BTreeSet M T × Next T) :=
  (turn s free.write call phase).map fun r => (r.1, .ofTurn r.2)

/-- The edit of a call under the node's mutex.  Only a `put_cdc` that finds an equal element
draws more than one identifier, and keeps the mutex for it. -/
def edit (s : BTreeSet M T) (free : Free) (call : Call T K) (entry : T × NodeId) :
    Option (BTreeSet M T × Next T) :=
  match call with
  | .insert false value =>
    match s.putEdit entry value with
    | some (s, .conflict idx max) =>
      match if s.cdc then BTreeSet.replaceEvents (s.nodes entry.2) idx max value else some [] with
      | some changes => some (s, .goto (.replace entry.2 idx value changes []))
      | none => some (s, .panic)
    | _ => coarse s free (.insert false value) (.edit entry)
  | call => coarse s free call (.edit entry)

/-- `Operation::commit` under the exclusive lock; a split that has given up starts over. -/
def commit (s : BTreeSet M T) (call : Call T K) (operation : Operation T) (deleted : Option T)
    (cdc : List (ChangeEvent T)) : BTreeSet M T × Next T :=
  match s.commit operation with
  | none => ({ s with poisoned := true }, .panic)
  | some (s, .ok (old, changes)) => (s, .goto (.assign (committed call old deleted) changes cdc))
  | some (s, .error ()) =>
    match call, operation with
    | .insert _ _, .split _ _ _ => (s, .goto (.within .lookup))
    | call, _ => (s, .done (call.answer deleted) cdc)

/-- One step of a call; `none` says that the step has to wait. -/
def draw (s : BTreeSet M T) (free : Free) (call : Call T K) :
    Stage T → Option (BTreeSet M T × Next T)
  -- `index_lock.read()` waits while a commit is under way
  | .within .lookup => if free.read then coarse s free call .lookup else none
  | .within (.edit entry) => if free.node entry.2 then edit s free call entry else none
  | .within .release => coarse s free call .release
  | .within .tryWrite => coarse s free call .tryWrite
  | .within .insertFirst =>
    match call with
    | .insert _ value =>
      -- no lock is held from here on: others draw and write between the two steps
      let (s, cdc) := s.emit [.createNode value]
      some (s, .goto (.attach value cdc))
    | _ => none
  | .attach value cdc =>
    let (s, firstNode) := s.newNode (Node.insert [] value).1
    some ({ s with index := SkipMap.insert s.index value firstNode }, .done (.put none) cdc)
  | .replace n idx value (change :: left) cdc =>
    -- only the node is locked: the next identifier need not be the successor
    let (s, event) := s.emit [change]
    some (s, .goto (.replace n idx value left (cdc ++ event)))
  | .replace n idx value [] cdc =>
    let (node, old) := Node.replace (s.nodes n) idx value
    some (s.setNode n node, .done (.put old) cdc)
  | .within (.commit operation deleted cdc) =>
    -- the index lock first, then the mutex of the node
    if free.write then some (s, .goto (.locked operation deleted cdc)) else none
  | .locked operation deleted cdc =>
    if free.node operation.node then some (commit s call operation deleted cdc) else none
  | .assign ret (change :: left) cdc =>
    let (s, event) := s.emit [change]
    some (s, .goto (.assign ret left (cdc ++ event)))
  -- the index lock goes with the return
  | .assign ret [] cdc => some (s, .done ret cdc)
  | .within (.search n) => if free.node n then coarse s free call (.search n) else none

end Step

/-! ## §3 All threads -/

/-- A thread. -/
inductive Thread (T K : Type) where
  | idle
  | running (call : Call T K) (stage : Stage T)
  | panicked
  deriving DecidableEq

namespace Thread

/-- Where a thread stands, if it is in a call. -/
def stage : Thread T K → Option (Stage T)
  | .running _ stage => some stage
  | _ => none

def holdsRead (thread : Thread T K) : Bool := thread.stage.any Stage.holdsRead

def holdsWrite (thread : Thread T K) : Bool := thread.stage.any Stage.holdsWrite

def holdsNode (thread : Thread T K) : Option NodeId := thread.stage.bind Stage.holdsNode

end Thread

def Next.thread (call : Call T K) : Next T → Thread T K
  | .goto stage => .running call stage
  | .done _ _ => .idle
  | .panic => .panicked

def Next.record (t : ι) (call : Call T K) : Next T → List (Returned ι T K)
  | .done ret cdc => [⟨t, call, ret, cdc⟩]
  | _ => []

/-- The shared set, the threads and what has returned so far. -/
structure State (ι M T K : Type) where
  shared : BTreeSet M T
  threads : ι → Thread T K
  returned : List (Returned ι T K)

namespace State

/-- Threads at rest on a shared set. -/
def start (shared : BTreeSet M T) : State ι M T K := ⟨shared, fun _ => .idle, []⟩

variable [DecidableEq ι]

/-- What the locks of the others let a thread do. -/
def free [Fintype ι] (s : State ι M T K) (t : ι) : Free where
  read := decide (∀ u, u ≠ t → (s.threads u).holdsWrite = false)
  write := decide (∀ u, u ≠ t →
    (s.threads u).holdsRead = false ∧ (s.threads u).holdsWrite = false)
  node n := decide (∀ u, u ≠ t → (s.threads u).holdsNode ≠ some n)

/-- A step of a call is over. -/
def advance (s : State ι M T K) (t : ι) (call : Call T K) (shared : BTreeSet M T)
    (next : Next T) : State ι M T K where
  shared
  threads := Function.update s.threads t (next.thread call)
  returned := s.returned ++ next.record t call

variable [Fintype ι] [SkipMap M T K]

/-- One step of the machine. -/
def step (s : State ι M T K) : Label ι T K → Option (State ι M T K)
  | .call t call =>
    match s.threads t with
    | .idle => some (s.advance t call s.shared (.goto (.within .lookup)))
    | _ => none
  | .turn t =>
    match s.threads t with
    | .running call stage =>
      (draw s.shared (s.free t) call stage).map fun r => s.advance t call r.1 r.2
    | _ => none

/-- No call is in flight. -/
def Quiescent (s : State ι M T K) : Prop := ∀ t, s.threads t = .idle

instance [DecidableEq T] (s : State ι M T K) : Decidable s.Quiescent :=
  inferInstanceAs (Decidable (∀ t, s.threads t = .idle))

end State

/-! ## §4 What a step draws -/

/-- The events a call has collected so far. -/
def Stage.pending : Stage T → List (ChangeEvent T)
  | .within phase => phase.pending
  | .attach _ cdc => cdc
  | .replace _ _ _ _ cdc => cdc
  | .locked _ _ cdc => cdc
  | .assign _ _ cdc => cdc

def Thread.pending (thread : Thread T K) : List (ChangeEvent T) :=
  (thread.stage.map Stage.pending).getD []

/-- The events a call has collected after a step. -/
def Next.collected : Next T → List (ChangeEvent T)
  | .goto stage => stage.pending
  | .done _ cdc => cdc
  | .panic => []

omit [LinearOrder K] [Keyed T K] in
/-- Collected events are in the record of the call or in the hands of its thread. -/
theorem Next.moved (t : ι) (call : Call T K) (next : Next T) :
    (next.record t call).map Returned.cdc = [] ∧
        (next.thread call).pending = next.collected ∨
      (next.record t call).map Returned.cdc = [next.collected] ∧
        (next.thread call).pending = [] := by
  cases next with
  | goto stage => exact Or.inl ⟨rfl, rfl⟩
  | done ret cdc => exact Or.inr ⟨rfl, rfl⟩
  | panic => exact Or.inl ⟨rfl, rfl⟩

/-- A call that may have to start over, or panic, has collected no events. -/
def Stage.Restartable : Stage T → Prop
  | .within phase => phase.Restartable
  | .locked (.split _ _ _) _ cdc => cdc = []
  | _ => True

def Next.Restartable : Next T → Prop
  | .goto stage => stage.Restartable
  | _ => True

/-- What a step from `s` to `s'` adds to the collected events, and does to the counter. -/
structure Drew (s s' : BTreeSet M T) (pending : List (ChangeEvent T)) (next : Next T)
    (changes : List (ChangeEventUnassigned T)) : Prop where
  length_le : changes.length ≤ 1
  cdc : s'.cdc = s.cdc
  eventId : s'.eventId = fetchAdd^[changes.length] s.eventId
  collected : next.collected = pending ++ BTreeSet.number s.eventId changes
  restartable : next.Restartable

section Draws

variable {s s' : BTreeSet M T} {next : Next T} {pending : List (ChangeEvent T)}

omit [LinearOrder K] [Keyed T K] in
/-- A step that leaves the counter alone draws nothing. -/
theorem drew_nil (hcdc : s'.cdc = s.cdc) (hid : s'.eventId = s.eventId)
    (hnext : next.collected = pending) (hrestart : next.Restartable) :
    ∃ changes, Drew s s' pending next changes :=
  ⟨[], Nat.zero_le 1, hcdc, hid, hnext.trans (List.append_nil _).symm, hrestart⟩

omit [LinearOrder K] [Keyed T K] in
/-- One `fetch_add`, after writes that leave the counter alone. -/
theorem drew_emit (hs : s.cdc = true) (s₁ : BTreeSet M T) (hcdc : s₁.cdc = s.cdc)
    (hid : s₁.eventId = s.eventId)
    {change : ChangeEventUnassigned T} (hnext : next.collected = pending ++ (s₁.emit [change]).2)
    (hrestart : next.Restartable) :
    ∃ changes, Drew s (s₁.emit [change]).1 pending next changes := by
  rw [BTreeSet.emit_of_cdc (hcdc.trans hs), hid] at hnext ⊢
  exact ⟨[change], le_rfl, hcdc, rfl, hnext, hrestart⟩

/-- The edit of a put writes nothing, or writes one node and draws one identifier. -/
theorem putEdit_cases {e : T × NodeId} {v : T} {outcome : PutOutcome T}
    (h : s.putEdit e v = some (s', outcome)) :
    (s' = s ∧ ((∃ op, outcome = .deferred op []) ∨ ∃ idx max, outcome = .conflict idx max)) ∨
      ∃ node change, s' = ((s.setNode e.2 node).emit [change]).1 ∧
        (outcome = .done ((s.setNode e.2 node).emit [change]).2 ∨
          ∃ m, outcome = .deferred (.updateMax e.2 m) ((s.setNode e.2 node).emit [change]).2) := by
  unfold BTreeSet.putEdit at h
  dsimp only at h
  split_ifs at h with hfull
  · cases h
    exact Or.inl ⟨rfl, Or.inl ⟨_, rfl⟩⟩
  · rcases hinsert : Node.insert (s.nodes e.2) v with ⟨node, inserted, idx⟩
    cases hmax : Node.max (s.nodes e.2) <;> cases inserted <;> simp only [hinsert, hmax] at h
    · cases h
    · split_ifs at h <;> cases h <;> exact Or.inr ⟨node, _, rfl, Or.inl rfl⟩
    · cases h
      exact Or.inl ⟨rfl, Or.inr ⟨idx, _, rfl⟩⟩
    · split_ifs at h <;> cases h
      · exact Or.inr ⟨node, _, rfl, Or.inl rfl⟩
      · exact Or.inr ⟨node, _, rfl, Or.inr ⟨_, rfl⟩⟩

/-- The same for the edit of a remove. -/
theorem removeEdit_cases {e : T × NodeId} {q : K} {outcome : RemoveOutcome T}
    (h : s.removeEdit e q = some (s', outcome)) :
    (s' = s ∧ outcome = .absent) ∨
      ∃ node deleted, (s' = s.setNode e.2 node ∧
          ∃ m, outcome = .deferred deleted (.makeUnreachable e.2 m) []) ∨
        ∃ change, s' = ((s.setNode e.2 node).emit [change]).1 ∧
          (outcome = .done deleted ((s.setNode e.2 node).emit [change]).2 ∨
            ∃ m, outcome = .deferred deleted (.updateMax e.2 m)
              ((s.setNode e.2 node).emit [change]).2) := by
  unfold BTreeSet.removeEdit at h
  dsimp only at h
  rcases hdelete : Node.delete (s.nodes e.2) q with ⟨node, deleted⟩
  rw [hdelete] at h
  cases deleted with
  | none =>
    cases h
    exact Or.inl ⟨rfl, rfl⟩
  | some deleted =>
    obtain ⟨deleted, idx⟩ := deleted
    cases hmax : Node.max (s.nodes e.2) with
    | none =>
      simp only [hmax] at h
      cases h
    | some m =>
      simp only [hmax] at h
      refine Or.inr ⟨node, deleted, ?_⟩
      split_ifs at h <;> cases h
      · exact Or.inr ⟨_, rfl, Or.inl rfl⟩
      · exact Or.inr ⟨_, rfl, Or.inr ⟨_, rfl⟩⟩
      · exact Or.inl ⟨rfl, _, rfl⟩

variable [SkipMap M T K] {free : Free} {call : Call T K} {stage : Stage T}

/-- A commit leaves the counter to the caller. -/
theorem commit_same {op : Operation T}
    {result : Except Unit (Option T × List (ChangeEventUnassigned T))}
    (h : s.commit op = some (s', result)) : s'.cdc = s.cdc ∧ s'.eventId = s.eventId := by
  cases op with
  | split n m v =>
    have ⟨hid, hcdc⟩ := s.commitSplit_same n m v
    simp only [BTreeSet.commit] at h
    split at h
    · split_ifs at h <;> cases h
      · exact ⟨hcdc, hid⟩
      · exact ⟨rfl, rfl⟩
    · cases h
      exact ⟨rfl, rfl⟩
  | updateMax n m =>
    simp only [BTreeSet.commit] at h
    repeat' split at h
    all_goals
      cases h
      exact ⟨rfl, rfl⟩
  | makeUnreachable n m =>
    simp only [BTreeSet.commit] at h
    repeat' split at h
    all_goals
      cases h
      exact ⟨rfl, rfl⟩

/-- Only a split panics. -/
theorem commit_panic {op : Operation T} (h : s.commit op = none) : ∃ n m v, op = .split n m v := by
  cases op with
  | split n m v => exact ⟨n, m, v, rfl⟩
  | updateMax n m =>
    simp only [BTreeSet.commit] at h
    repeat' split at h
    all_goals cases h
  | makeUnreachable n m =>
    simp only [BTreeSet.commit] at h
    repeat' split at h
    all_goals cases h

omit [SkipMap M T K] [LinearOrder K] [Keyed T K] in
/-- Whoever has collected nothing may start over. -/
theorem restartable_nil (op : Operation T) (d : Option T) : (Phase.commit op d []).Restartable := by
  cases op with
  | split n m v => rfl
  | updateMax n m => trivial
  | makeUnreachable n m => trivial

theorem coarse_eq_some {phase : Phase T} (h : coarse s free call phase = some (s', next)) :
    ∃ n, turn s free.write call phase = some (s', n) ∧ next = .ofTurn n := by
  obtain ⟨⟨s', n⟩, hturn, heq⟩ := Option.map_eq_some_iff.mp h
  cases heq
  exact ⟨n, hturn, rfl⟩

/-- A commit draws nothing yet, and an insert that starts over has collected nothing. -/
theorem commit_spec {op : Operation T} {d : Option T} {cdc : List (ChangeEvent T)}
    (hrestart : (Stage.locked op d cdc).Restartable) (h : commit s call op d cdc = (s', next)) :
    ∃ changes, Drew s s' cdc next changes := by
  unfold commit at h
  cases hcommit : s.commit op with
  | none =>
    -- an empty node has no half to report; its insert has collected nothing
    obtain ⟨n, m, v, rfl⟩ := commit_panic hcommit
    rw [hcommit] at h
    cases h
    exact drew_nil rfl rfl hrestart.symm trivial
  | some r =>
    obtain ⟨s₁, result⟩ := r
    have ⟨hcdc, hid⟩ := commit_same hcommit
    rw [hcommit] at h
    cases result with
    | ok r =>
      cases h
      exact drew_nil hcdc hid rfl trivial
    | error _ =>
      -- a refused split starts over; a rekey or a drop that gives up keeps its events
      dsimp only at h
      split at h <;> cases h
      · exact drew_nil hcdc hid hrestart.symm trivial
      · exact drew_nil hcdc hid rfl trivial

/-- Lookups, the way to a first node and searches draw nothing. -/
theorem coarse_quiet {phase : Phase T}
    (hphase : phase = .lookup ∨ phase = .release ∨ phase = .tryWrite ∨ ∃ n, phase = .search n)
    (h : coarse s free call phase = some (s', next)) : ∃ changes, Drew s s' [] next changes := by
  obtain ⟨n, hturn, rfl⟩ := coarse_eq_some h
  obtain rfl | rfl | rfl | ⟨n, rfl⟩ := hphase <;> cases call <;> simp only [turn] at hturn
  all_goals
    repeat' split at hturn
    all_goals cases hturn <;> exact drew_nil rfl rfl rfl trivial

/-- The edit of a put that does not replace an element. -/
theorem putEdit_spec {c : Bool} {v : T} {e : T × NodeId} (hs : s.cdc = true)
    (hconflict : ∀ s₁ idx max, s.putEdit e v = some (s₁, .conflict idx max) → c = true)
    (h : coarse s free (.insert c v) (.edit e) = some (s', next)) :
    ∃ changes, Drew s s' [] next changes := by
  obtain ⟨n, hturn, rfl⟩ := coarse_eq_some h
  cases hedit : s.putEdit e v with
  | none =>
    simp only [turn, hedit] at hturn
    cases hturn
    exact drew_nil rfl rfl rfl trivial
  | some r =>
    obtain ⟨s₁, outcome⟩ := r
    -- a full node, an equal element, room inside the node, a new maximum
    obtain ⟨rfl, ⟨op, rfl⟩ | ⟨idx, max, rfl⟩⟩ | ⟨node, change, rfl, rfl | ⟨m, rfl⟩⟩ :=
      putEdit_cases hedit
    · simp only [turn, hedit] at hturn
      cases hturn
      exact drew_nil rfl rfl rfl (restartable_nil op none)
    · simp only [turn, hedit, hconflict _ _ _ hedit, if_true] at hturn
      cases hturn
      exact drew_nil rfl rfl rfl trivial
    · simp only [turn, hedit] at hturn
      cases hturn
      exact drew_emit hs (s.setNode e.2 node) rfl rfl rfl trivial
    · simp only [turn, hedit] at hturn
      cases hturn
      exact drew_emit hs (s.setNode e.2 node) rfl rfl rfl trivial

/-- The edit of a remove. -/
theorem removeEdit_spec {q : K} {e : T × NodeId} (hs : s.cdc = true)
    (h : coarse s free (.remove q) (.edit e) = some (s', next)) :
    ∃ changes, Drew s s' [] next changes := by
  obtain ⟨n, hturn, rfl⟩ := coarse_eq_some h
  cases hedit : s.removeEdit e q with
  | none =>
    simp only [turn, hedit] at hturn
    cases hturn
    exact drew_nil rfl rfl rfl trivial
  | some r =>
    obtain ⟨s₁, outcome⟩ := r
    -- nothing to remove, the last element, one inside the node, the maximum
    obtain ⟨rfl, rfl⟩ | ⟨node, deleted, ⟨rfl, m, rfl⟩ | ⟨change, rfl, rfl | ⟨m, rfl⟩⟩⟩ :=
      removeEdit_cases hedit
    · simp only [turn, hedit] at hturn
      cases hturn
      exact drew_nil rfl rfl rfl trivial
    · simp only [turn, hedit] at hturn
      cases hturn
      exact drew_nil rfl rfl rfl trivial
    · simp only [turn, hedit] at hturn
      cases hturn
      exact drew_emit hs (s.setNode e.2 node) rfl rfl rfl trivial
    · simp only [turn, hedit] at hturn
      cases hturn
      exact drew_emit hs (s.setNode e.2 node) rfl rfl rfl trivial

/-- An edit draws one identifier or none, also when `put_cdc` keeps the node for more. -/
theorem edit_spec {e : T × NodeId} (hs : s.cdc = true)
    (h : edit s free call e = some (s', next)) : ∃ changes, Drew s s' [] next changes := by
  cases call with
  | insert c v =>
    cases c with
    | true => exact putEdit_spec hs (fun _ _ _ _ => rfl) h
    | false =>
      simp only [edit] at h
      split at h
      · -- an equal element: the identifiers are drawn by the steps that follow
        rename_i hedit
        obtain ⟨rfl, -⟩ | ⟨_, _, _, hnot | ⟨_, hnot⟩⟩ := putEdit_cases hedit
        · split at h <;> cases h <;> exact drew_nil rfl rfl rfl trivial
        · cases hnot
        · cases hnot
      · rename_i hother
        exact putEdit_spec hs (fun s₁ idx max hedit => (hother s₁ idx max hedit).elim) h
  | remove q => exact removeEdit_spec hs h
  | contains q => cases h
  | get q => cases h

/-- **One step** draws one identifier or none, and keeps what the call has collected. -/
theorem draw_spec (hs : s.cdc = true) (hrestart : stage.Restartable)
    (h : draw s free call stage = some (s', next)) :
    ∃ changes, Drew s s' stage.pending next changes := by
  cases stage with
  | within phase =>
    cases phase with
    | lookup =>
      simp only [draw] at h
      split_ifs at h
      exact coarse_quiet (Or.inl rfl) h
    | edit entry =>
      simp only [draw] at h
      split_ifs at h
      exact edit_spec hs h
    | release =>
      exact coarse_quiet (Or.inr (Or.inl rfl)) h
    | tryWrite =>
      exact coarse_quiet (Or.inr (Or.inr (Or.inl rfl))) h
    | insertFirst =>
      cases call <;> cases h
      exact drew_emit hs s rfl rfl rfl trivial
    | commit op d cdc =>
      simp only [draw] at h
      split_ifs at h
      cases h
      refine drew_nil rfl rfl rfl ?_
      cases op with
      | split n m v => exact hrestart
      | updateMax n m => trivial
      | makeUnreachable n m => trivial
    | search n =>
      simp only [draw] at h
      split_ifs at h
      exact coarse_quiet (Or.inr (Or.inr (Or.inr ⟨n, rfl⟩))) h
  | attach v cdc =>
    cases h
    exact drew_nil rfl rfl rfl trivial
  | replace n idx v left cdc =>
    cases left with
    | nil =>
      cases h
      exact drew_nil rfl rfl rfl trivial
    | cons change left =>
      cases h
      exact drew_emit hs s rfl rfl rfl trivial
  | locked op d cdc =>
    simp only [draw] at h
    split_ifs at h
    exact commit_spec hrestart (Option.some.inj h)
  | assign ret left cdc =>
    cases left with
    | nil =>
      cases h
      exact drew_nil rfl rfl rfl trivial
    | cons change left =>
      cases h
      exact drew_emit hs s rfl rfl rfl trivial

end Draws

/-! ## §5 The ledger of a run -/

namespace State

variable [Fintype ι]

/-- The changes of the log are in the returned vectors and in the threads' hands. -/
structure Ledger (s : State ι M T K) (log : List (ChangeEventUnassigned T)) : Prop where
  cdc : s.shared.cdc = true
  restartable : ∀ t call stage, s.threads t = .running call stage → stage.Restartable
  eventId : s.shared.eventId = fetchAdd^[log.length] 0
  books : Books (s.returned.map Returned.cdc) (fun t => (s.threads t).pending) log

variable {s s' : State ι M T K} {log : List (ChangeEventUnassigned T)}

omit [LinearOrder K] [Keyed T K] in
theorem ledger_start {shared : BTreeSet M T} (hcdc : shared.cdc = true)
    (hid : shared.eventId = 0) : (start shared : State ι M T K).Ledger [] where
  cdc := hcdc
  restartable _ _ _ h := by simp [start] at h
  eventId := hid
  books := books_nil

variable [DecidableEq ι]

omit [LinearOrder K] [Keyed T K] in
/-- A step extends the log by what it draws. -/
theorem Ledger.advance (hs : s.Ledger log) {t : ι} {call : Call T K} {shared : BTreeSet M T}
    {next : Next T} {changes : List (ChangeEventUnassigned T)}
    (hdrew : Drew s.shared shared (s.threads t).pending next changes) :
    (s.advance t call shared next).Ledger (log ++ changes) := by
  refine ⟨hdrew.cdc.trans hs.cdc, fun u c stage hu => ?_, ?_, ?_⟩
  · by_cases hut : u = t
    · subst hut
      have hnext : next.thread call = .running c stage := by
        simpa [State.advance] using hu
      cases next <;> cases hnext
      exact hdrew.restartable
    · exact hs.restartable u c stage (by simpa [State.advance, hut] using hu)
  · show shared.eventId = _
    rw [hdrew.eventId, hs.eventId, List.length_append, Nat.add_comm, Function.iterate_add_apply]
  · have hcollected := hdrew.collected
    rw [hs.eventId] at hcollected
    have hbooks := hs.books.draw hcollected (next.moved t call)
    rw [← List.map_append] at hbooks
    exact hbooks.congr fun u => Function.apply_update (fun _ => Thread.pending) s.threads t _ u

/-- **The books stay balanced** in every step of every thread. -/
theorem Ledger.step [SkipMap M T K] {l : Label ι T K} (hs : s.Ledger log)
    (h : s.step l = some s') : ∃ changes, s'.Ledger (log ++ changes) := by
  cases l with
  | call t call =>
    cases ht : s.threads t with
    | idle =>
      simp only [State.step, ht, Option.some.injEq] at h
      subst h
      refine ⟨[], hs.advance ⟨Nat.zero_le 1, rfl, rfl, ?_, trivial⟩⟩
      rw [ht]
      rfl
    | running c stage => simp [State.step, ht] at h
    | panicked => simp [State.step, ht] at h
  | turn t =>
    cases ht : s.threads t with
    | idle => simp [State.step, ht] at h
    | panicked => simp [State.step, ht] at h
    | running call stage =>
      simp only [State.step, ht, Option.map_eq_some_iff] at h
      obtain ⟨⟨shared, next⟩, hdraw, rfl⟩ := h
      obtain ⟨changes, hdrew⟩ := draw_spec hs.cdc (hs.restartable t call stage ht) hdraw
      refine ⟨changes, hs.advance ?_⟩
      rw [ht]
      exact hdrew

end State

/-! ## §6 Runs -/

variable [SkipMap M T K] [DecidableEq ι] [Fintype ι]

/-- **Gapless identifiers**: any number of threads call a new set that reports its changes.
Once all calls have returned, the identifiers of their events are `0, …, n - 1`, each once,
and increasing within each vector. -/
theorem eventIds_gapless {elementSize nodeCapacity : ℕ} {schedule : List (Label ι T K)}
    {final : State ι M T K}
    (hrun : Transition.run State.step
      (State.start (BTreeSet.withMaximumNodeSize true elementSize nodeCapacity)) schedule =
        some final)
    (hquiet : final.Quiescent)
    (hlen : (final.returned.flatMap Returned.cdc).length < 2 ^ 64) :
    ((final.returned.flatMap Returned.cdc).map ChangeEvent.eventId).Perm
        (List.range (final.returned.flatMap Returned.cdc).length) ∧
      ∀ r ∈ final.returned, (r.cdc.map ChangeEvent.eventId).Pairwise (· < ·) := by
  obtain ⟨log, hledger⟩ : ∃ log, final.Ledger log :=
    Transition.run_invariant (P := fun _ _ => True)
      (I := fun s : State ι M T K => ∃ log, s.Ledger log)
      (fun s l s' ⟨log, hs⟩ _ h =>
        have ⟨changes, hs'⟩ := hs.step h
        ⟨log ++ changes, hs'⟩)
      ⟨[], State.ledger_start rfl rfl⟩
      (Transition.along_of_forall_mem fun _ _ => trivial) hrun
  have hnone : ∀ t, (final.threads t).pending = [] := fun t => by
    rw [hquiet t]
    rfl
  obtain ⟨hperm, hinc⟩ := hledger.books.gapless hnone hlen
  exact ⟨hperm, fun r hr => hinc r.cdc (List.mem_map_of_mem hr)⟩

/-- `n` steps of one thread. -/
def turns (t : Fin 2) (n : ℕ) : List (Label (Fin 2) ℕ ℕ) := List.replicate n (.turn t)

/-- Two threads decide to split the same full node: the second commit is refused and its
insert starts over. -/
def refusedSplit : List (Label (Fin 2) ℕ ℕ) :=
  [.call 0 (.insert false 1)] ++ turns 0 5 ++ [.call 1 (.insert false 2)] ++ turns 1 5 ++
    [.call 0 (.insert true 3), .call 1 (.insert false 4)] ++ turns 0 2 ++ turns 1 2 ++
    turns 0 5 ++ turns 1 9

/-- Then both replace an element, each in its node, and draw in turns: the vectors get the
identifiers 6 and 8, and 7 and 9.  A checked insert finds its element and returns no
events, and a remove empties a node. -/
def inTurns : List (Label (Fin 2) ℕ ℕ) :=
  [.call 0 (.insert false 1), .call 1 (.insert false 2)] ++ turns 0 2 ++ turns 1 2 ++
    [.turn 0, .turn 1, .turn 0, .turn 1, .turn 0, .turn 1] ++
    [.call 0 (.insert true 1)] ++ turns 0 2 ++ [.call 1 (.remove 2)] ++ turns 1 6

theorem eventIds_gapless_inTurns :
    ∃ final : State (Fin 2) (SortedIndex ℕ) ℕ ℕ,
      Transition.run State.step (State.start (BTreeSet.withMaximumNodeSize true 8 2))
          (refusedSplit ++ inTurns) = some final ∧
        final.returned.map (fun r => r.cdc.map ChangeEvent.eventId) =
          [[0], [1], [2, 3], [4, 5], [6, 8], [7, 9], [], [10]] ∧
        ((final.returned.flatMap Returned.cdc).map ChangeEvent.eventId).Perm
          (List.range (final.returned.flatMap Returned.cdc).length) := by
  obtain ⟨final, hrun, hfinal⟩ := Transition.exists_run
    (fun s : State (Fin 2) (SortedIndex ℕ) ℕ ℕ =>
      decide (s.Quiescent ∧ (s.returned.flatMap Returned.cdc).length < 2 ^ 64 ∧
        s.returned.map (fun r => r.cdc.map ChangeEvent.eventId) =
          [[0], [1], [2, 3], [4, 5], [6, 8], [7, 9], [], [10]]))
    State.step (State.start (BTreeSet.withMaximumNodeSize true 8 2))
    (refusedSplit ++ inTurns) (by decide)
  obtain ⟨hquiet, hlen, hids⟩ := of_decide_eq_true hfinal
  exact ⟨final, hrun, hids, (eventIds_gapless hrun hquiet hlen).1⟩

end IndexSet.Concurrent.Drawing
