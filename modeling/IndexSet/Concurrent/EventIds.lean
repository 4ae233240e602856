import IndexSet.Concurrent.Linear
import Mathlib.Data.List.Range

/-!
# Identifiers of Change Events

The identifiers of all threads come from one counter.  `log` is the list of all changes in
the order in which they got their identifiers, and `Books` says where they are: every
change of the log is in a returned vector or in the hands of one thread, none is in two
places, and no vector is out of order.

- `Books.draw`: the books stay balanced when a thread draws identifiers;
- `Books.gapless`: once no thread holds anything, the returned vectors have it all;
- `Turn.reported`: a step of the machine adds its own events to those the thread had
  collected, and whoever starts over has collected none;
- `Ledger.turn`: so the machine keeps its books.
-/

namespace IndexSet.Concurrent

open KeyedList

variable {ι M T K : Type}

/-! ## §1 Numbering -/

section Number

/-- Identifiers in strictly increasing order. -/
def Increasing (events : List (ChangeEvent T)) : Prop :=
  (events.map ChangeEvent.eventId).Pairwise (· < ·)

instance (events : List (ChangeEvent T)) : Decidable (Increasing events) :=
  inferInstanceAs (Decidable (List.Pairwise _ _))

theorem fetchAdd_iterate (n : ℕ) : fetchAdd^[n] 0 = n % 2 ^ 64 := by
  induction n with
  | zero => rfl
  | succ n ih =>
    rw [Function.iterate_succ_apply', ih, fetchAdd]
    omega

namespace BTreeSet

@[simp] theorem length_number (eventId : ℕ) (changes : List (ChangeEventUnassigned T)) :
    (number eventId changes).length = changes.length := by
  induction changes generalizing eventId with
  | nil => rfl
  | cons change changes ih => rw [number, List.length_cons, List.length_cons, ih]

theorem number_append (eventId : ℕ) (changes more : List (ChangeEventUnassigned T)) :
    number eventId (changes ++ more) =
      number eventId changes ++ number (fetchAdd^[changes.length] eventId) more := by
  induction changes generalizing eventId with
  | nil => rfl
  | cons change changes ih =>
    simp only [List.cons_append, number, ih, List.length_cons, Function.iterate_succ_apply]

/-- As long as the counter does not wrap around, the identifiers are consecutive. -/
theorem eventId_number {eventId : ℕ} {changes : List (ChangeEventUnassigned T)}
    (h : eventId + changes.length ≤ 2 ^ 64) :
    (number eventId changes).map ChangeEvent.eventId = List.range' eventId changes.length := by
  induction changes generalizing eventId with
  | nil => rfl
  | cons change changes ih =>
    rw [List.length_cons] at h
    rw [number, List.map_cons, List.length_cons, List.range'_succ]
    refine congrArg₂ List.cons rfl ?_
    cases changes with
    | nil => rfl
    | cons next changes =>
      rw [List.length_cons] at h ih
      have hnext : fetchAdd eventId = eventId + 1 := Nat.mod_eq_of_lt (by omega)
      rw [hnext]
      exact ih (by omega)

/-- The same for the events that follow a log. -/
theorem eventId_number_after {log changes : List (ChangeEventUnassigned T)}
    (h : (log ++ changes).length ≤ 2 ^ 64) :
    (number (fetchAdd^[log.length] 0) changes).map ChangeEvent.eventId =
      List.range' log.length changes.length := by
  rw [List.length_append] at h
  cases changes with
  | nil => rfl
  | cons change changes =>
    rw [List.length_cons] at h
    rw [fetchAdd_iterate, Nat.mod_eq_of_lt (by omega)]
    exact eventId_number (by simpa using h)

/-- Events from the log have lower identifiers than those that follow it. -/
theorem increasing_append {log changes : List (ChangeEventUnassigned T)}
    {events : List (ChangeEvent T)} (h : (log ++ changes).length ≤ 2 ^ 64)
    (hinc : Increasing events) (hlog : ∀ x ∈ events, x ∈ number 0 log) :
    Increasing (events ++ number (fetchAdd^[log.length] 0) changes) := by
  have hlen : 0 + log.length ≤ 2 ^ 64 := by
    rw [List.length_append] at h
    omega
  unfold Increasing
  rw [List.map_append, eventId_number_after h, List.pairwise_append]
  refine ⟨hinc, List.pairwise_lt_range', fun i hi j hj => ?_⟩
  obtain ⟨x, hx, rfl⟩ := List.mem_map.mp hi
  have hmem : x.eventId ∈ (number 0 log).map ChangeEvent.eventId :=
    List.mem_map_of_mem (hlog x hx)
  rw [eventId_number hlen, List.mem_range'_1] at hmem
  rw [List.mem_range'_1] at hj
  omega

end BTreeSet

end Number

/-! ## §2 The books -/

section Books

variable [Fintype ι] {returned : List (List (ChangeEvent T))} {pending : ι → List (ChangeEvent T)}
  {log : List (ChangeEventUnassigned T)}

/-- Every change of the log is in one returned vector or in the hands of one thread, and no
vector is out of order. -/
structure Books (returned : List (List (ChangeEvent T))) (pending : ι → List (ChangeEvent T))
    (log : List (ChangeEventUnassigned T)) : Prop where
  balance : (returned.flatten : Multiset (ChangeEvent T)) +
    ∑ t, (pending t : Multiset (ChangeEvent T)) = (BTreeSet.number 0 log : List (ChangeEvent T))
  increasing : log.length ≤ 2 ^ 64 →
    (∀ cdc ∈ returned, Increasing cdc) ∧ ∀ t, Increasing (pending t)

theorem books_nil : Books [] (fun _ : ι => ([] : List (ChangeEvent T))) [] where
  balance := by simp [BTreeSet.number]
  increasing _ := ⟨by simp, fun _ => List.Pairwise.nil⟩

/-- What a thread holds is in the log. -/
theorem Books.mem_log (hs : Books returned pending log) {t : ι} {x : ChangeEvent T}
    (hx : x ∈ pending t) : x ∈ BTreeSet.number 0 log := by
  rw [← Multiset.mem_coe, ← hs.balance, Multiset.mem_add]
  exact Or.inr (Multiset.mem_sum.mpr ⟨t, Finset.mem_univ t, hx⟩)

/-- Once no thread holds anything, the returned vectors together are the log. -/
theorem Books.perm (hs : Books returned pending log) (hquiet : ∀ t, pending t = []) :
    returned.flatten.Perm (BTreeSet.number 0 log) := by
  have hzero : ∑ t, (pending t : Multiset (ChangeEvent T)) = 0 :=
    Finset.sum_eq_zero fun t _ => by rw [hquiet t]; rfl
  have hbalance := hs.balance
  rw [hzero, add_zero] at hbalance
  exact Multiset.coe_eq_coe.mp hbalance

/-- **The books stay balanced**: a thread draws the next identifiers, and keeps or returns
what it has collected. -/
theorem Books.draw [DecidableEq ι] (hs : Books returned pending log) {t : ι}
    {changes : List (ChangeEventUnassigned T)} {given : List (List (ChangeEvent T))}
    {kept collected : List (ChangeEvent T)}
    (hcollected : collected =
      pending t ++ BTreeSet.number (fetchAdd^[log.length] 0) changes)
    (hmoved : given = [] ∧ kept = collected ∨ given = [collected] ∧ kept = []) :
    Books (returned ++ given) (Function.update pending t kept) (log ++ changes) := by
  constructor
  · have hsum := Transition.sum_update
      (fun cdc : List (ChangeEvent T) => (cdc : Multiset (ChangeEvent T))) pending t kept
    have hall : (given.flatten : Multiset (ChangeEvent T)) + (kept : Multiset (ChangeEvent T)) =
        (pending t : Multiset (ChangeEvent T)) +
          (BTreeSet.number (fetchAdd^[log.length] 0) changes : List (ChangeEvent T)) := by
      rw [Multiset.coe_add, Multiset.coe_add, ← hcollected]
      obtain ⟨rfl, rfl⟩ | ⟨rfl, rfl⟩ := hmoved <;> simp
    rw [BTreeSet.number_append, ← Multiset.coe_add, ← hs.balance, List.flatten_append,
      ← Multiset.coe_add]
    -- what the thread held moves on with what it collected
    refine add_right_cancel (b := (pending t : Multiset (ChangeEvent T))) ?_
    rw [add_assoc, hsum]
    calc _ = (returned.flatten : Multiset (ChangeEvent T)) +
            ∑ u, (pending u : Multiset (ChangeEvent T)) +
            ((given.flatten : Multiset (ChangeEvent T)) + (kept : Multiset (ChangeEvent T))) := by
          ac_rfl
      _ = _ := by rw [hall]; ac_rfl
  · intro hlen
    have hlog : log.length ≤ 2 ^ 64 := by
      rw [List.length_append] at hlen
      omega
    -- below `2 ^ 64` the new identifiers are above all that were given out
    obtain ⟨hreturned, hpending⟩ := hs.increasing hlog
    have hinc : Increasing collected := by
      rw [hcollected]
      exact BTreeSet.increasing_append hlen (hpending t) fun x hx => hs.mem_log hx
    have hkept : Increasing kept := by
      obtain ⟨-, rfl⟩ | ⟨-, rfl⟩ := hmoved
      · exact hinc
      · exact List.Pairwise.nil
    refine ⟨fun cdc hcdc => ?_, fun u => ?_⟩
    · rcases List.mem_append.mp hcdc with hcdc | hcdc
      · exact hreturned cdc hcdc
      · -- what is given out now is all the call has collected
        obtain ⟨rfl, -⟩ | ⟨rfl, -⟩ := hmoved
        · cases hcdc
        · exact List.mem_singleton.mp hcdc ▸ hinc
    · by_cases hu : u = t
      · rw [hu, Function.update_self]
        exact hkept
      · rw [Function.update_of_ne hu]
        exact hpending u

/-- A thread that takes up nothing leaves the books as they are. -/
theorem Books.congr {pending' : ι → List (ChangeEvent T)} (hs : Books returned pending log)
    (h : ∀ t, pending' t = pending t) : Books returned pending' log :=
  funext h ▸ hs

/-- Once no thread holds anything, the identifiers are consecutive, and increase within each
vector. -/
theorem Books.gapless (hs : Books returned pending log) (hquiet : ∀ t, pending t = [])
    (hlen : returned.flatten.length < 2 ^ 64) :
    (returned.flatten.map ChangeEvent.eventId).Perm (List.range returned.flatten.length) ∧
      ∀ cdc ∈ returned, Increasing cdc := by
  have hperm := hs.perm hquiet
  have hlog : log.length < 2 ^ 64 := by
    have h := hperm.length_eq
    rw [BTreeSet.length_number] at h
    omega
  refine ⟨?_, (hs.increasing hlog.le).1⟩
  have h := hperm.map ChangeEvent.eventId
  rw [BTreeSet.eventId_number (by omega), ← List.range_eq_range'] at h
  rwa [hperm.length_eq, BTreeSet.length_number]

end Books

/-! ## §3 What a step reports -/

/-- The events a call has collected so far. -/
def Phase.pending : Phase T → List (ChangeEvent T)
  | .commit _ _ cdc => cdc
  | _ => []

def Thread.pending : Thread T K → List (ChangeEvent T)
  | .running _ phase => phase.pending
  | _ => []

/-- The events a call has collected after a step. -/
def Next.collected : Next T → List (ChangeEvent T)
  | .goto phase => phase.pending
  | .done _ cdc => cdc
  | .panic => []

/-- A call that may have to start over has collected no events. -/
def Phase.Restartable : Phase T → Prop
  | .commit (.split _ _ _) _ cdc => cdc = []
  | _ => True

/-- Collected events are in the record of the call or in the hands of its thread. -/
theorem Next.moved (t : ι) (call : Call T K) (next : Next T) :
    (next.record t call).map Returned.cdc = [] ∧
        (next.thread call).pending = next.collected ∨
      (next.record t call).map Returned.cdc = [next.collected] ∧
        (next.thread call).pending = [] := by
  cases next with
  | goto phase => exact Or.inl ⟨rfl, rfl⟩
  | done ret cdc => exact Or.inr ⟨rfl, rfl⟩
  | panic => exact Or.inl ⟨rfl, rfl⟩

section Turns

variable [LinearOrder K] [Keyed T K] [LawfulSkipMap M T K]
variable {s s' : BTreeSet M T} {events : List (ChangeEvent T)} {call : Call T K}
  {phase : Phase T} {next : Next T} {changes : List (ChangeEventUnassigned T)}

/-- **One step** adds its own events to the collected ones, and drops none. -/
theorem Turn.reported (h : Turn s events call phase s' next changes)
    (hrestart : phase.Restartable) (hnil : changes = [] → events = []) :
    next.collected = phase.pending ++ events := by
  cases h with
  | splitGone =>
    rw [hnil rfl, List.append_nil]
    exact Eq.symm hrestart
  | splitPanic =>
    rw [hnil rfl, List.append_nil]
    exact Eq.symm hrestart
  | first | added | raised | replaced | inside | lowered => rfl
  | split | dropped => rfl
  | _ =>
    rw [hnil rfl, List.append_nil]
    rfl

theorem Turn.restartable {ph : Phase T} (h : Turn s events call phase s' (.goto ph) changes) :
    ph.Restartable := by
  cases h with
  | full => rfl
  | _ => trivial

/-- The build does not change. -/
theorem Turn.cdc_eq (h : Turn s events call phase s' next changes) : s'.cdc = s.cdc := by
  cases h with
  | first hcreated => exact hcreated.cdc
  | added _ _ _ _ _ hwrote => exact hwrote.cdc
  | raised _ _ _ hwrote => exact hwrote.cdc
  | replaced _ _ _ _ _ hwrote => exact hwrote.cdc
  | inside _ _ _ _ hwrote => exact hwrote.cdc
  | lowered _ _ _ hwrote => exact hwrote.cdc
  | emptied _ _ hwrote => exact hwrote.cdc
  | split => exact (s.commitSplit_same ..).2
  | _ => rfl

end Turns

/-! ## §4 The ledger of a run -/

namespace State

variable [LinearOrder K] [Keyed T K] [Fintype ι]

/-- The changes of the log are in the returned vectors and in the threads' hands. -/
structure Ledger (s : State ι M T K) (log : List (ChangeEventUnassigned T)) : Prop where
  cdc : s.shared.cdc = true
  sorted : s.shared.Sorted
  defers : ∀ t call op d cdc, s.threads t = .running call (.commit op d cdc) → call.Defers op d
  restartable : ∀ t call phase, s.threads t = .running call phase → phase.Restartable
  eventId : s.shared.eventId = fetchAdd^[log.length] 0
  books : Books (s.returned.map Returned.cdc) (fun t => (s.threads t).pending) log

variable {s s' : State ι M T K} {log : List (ChangeEventUnassigned T)}

theorem ledger_start {shared : BTreeSet M T} (hcdc : shared.cdc = true) (hsorted : shared.Sorted)
    (hid : shared.eventId = 0) : (start shared : State ι M T K).Ledger [] where
  cdc := hcdc
  sorted := hsorted
  defers _ _ _ _ _ h := by simp [start] at h
  restartable _ _ _ h := by simp [start] at h
  eventId := hid
  books := books_nil

/-- Once all calls have returned, their vectors together are the log. -/
theorem Ledger.perm (hs : s.Ledger log) (hquiet : s.Quiescent) :
    (s.returned.flatMap Returned.cdc).Perm (BTreeSet.number 0 log) :=
  hs.books.perm fun t => by
    show (s.threads t).pending = []
    rw [hquiet t]
    rfl

variable [DecidableEq ι] [LawfulSkipMap M T K]

/-- **The ledger stays in order**: a step of a thread extends the log by its own changes. -/
theorem Ledger.turn (hs : s.Ledger log) {t : ι} {call : Call T K} {phase : Phase T}
    {shared : BTreeSet M T} {next : Next T} {changes : List (ChangeEventUnassigned T)}
    (ht : s.threads t = .running call phase)
    (hturn : Turn s.shared (s.shared.emit changes).2 call phase shared next changes)
    (hid : shared.eventId = (s.shared.emit changes).1.eventId) :
    (s.advance t call shared next).Ledger (log ++ changes) := by
  have hevents : (s.shared.emit changes).2 =
      BTreeSet.number (fetchAdd^[log.length] 0) changes := by
    rw [BTreeSet.emit_of_cdc hs.cdc, hs.eventId]
  have hreported : next.collected =
      (s.threads t).pending ++ BTreeSet.number (fetchAdd^[log.length] 0) changes := by
    rw [← hevents, hturn.reported (hs.restartable t call phase ht) (fun hnil => hnil ▸ rfl), ht]
    rfl
  refine ⟨hturn.cdc_eq.trans hs.cdc, hturn.sorted hs.sorted, ?_, ?_, ?_, ?_⟩
  · -- a thread that waits with an operation waits with one of its own call
    refine forall_threads_advance (P := fun _ th => ∀ c op d cdc,
      th = .running c (.commit op d cdc) → c.Defers op d) (fun c op d cdc he => ?_)
      fun u _ => hs.defers u
    cases next <;> cases he
    exact hturn.defers
  · refine forall_threads_advance (P := fun _ th => ∀ c ph, th = .running c ph →
      ph.Restartable) (fun c ph he => ?_) fun u _ => hs.restartable u
    cases next <;> cases he
    exact hturn.restartable
  · show shared.eventId = _
    rw [hid, BTreeSet.emit_of_cdc hs.cdc, hs.eventId, List.length_append, Nat.add_comm,
      Function.iterate_add_apply]
  · have hbooks := hs.books.draw hreported (next.moved t call)
    rw [← List.map_append] at hbooks
    exact hbooks.congr fun u => Function.apply_update (fun _ => Thread.pending) s.threads t _ u

omit [LawfulSkipMap M T K] in
/-- A call that begins gives out nothing and has collected nothing. -/
theorem Ledger.invoke {t : ι} {call : Call T K} (hs : s.Ledger log) (hidle : s.threads t = .idle) :
    (s.invoke t call).Ledger log := by
  have hthreads : ∀ u, u ≠ t → (s.invoke t call).threads u = s.threads u := fun u hu => by
    simp [State.invoke, hu]
  have hself : (s.invoke t call).threads t = .running call .lookup := by simp [State.invoke]
  refine ⟨hs.cdc, hs.sorted, fun u c op d cdc hu => ?_, fun u c ph hu => ?_, hs.eventId,
    hs.books.congr fun u => ?_⟩
  · by_cases hut : u = t
    · rw [hut, hself] at hu
      cases hu
    · exact hs.defers u c op d cdc (hthreads u hut ▸ hu)
  · by_cases hut : u = t
    · rw [hut, hself] at hu
      cases hu
      trivial
    · exact hs.restartable u c ph (hthreads u hut ▸ hu)
  · by_cases hut : u = t
    · rw [hut, hself, hidle]
      rfl
    · rw [hthreads u hut]

end State

end IndexSet.Concurrent
