import Mathlib.Algebra.Order.BigOperators.Group.Finset
import IndexSet.Concurrent.Accounting

/-!
# Progress, Whatever the Interleaving

Calls wait for the exclusive index lock, and start over when a split finds its entry gone or
`try_write` fails.

- §1, §2: how many steps a call has left, if nobody comes between; only a step that changes
  the index and returns can add to what the others have left, and a failed `try_write`;
- §3 so calls return: the turns of a run are bounded by the calls that have returned and the
  `try_write`s that have failed (`turns_bounded`);
- §4 the failed `try_write`s cannot be left out: two inserts into an empty set can make each
  other start over for ever (`first_node_livelock`).
-/

namespace IndexSet.Concurrent

open KeyedList

variable {ι M T K : Type} [LinearOrder K] [Keyed T K] [LawfulSkipMap M T K]

/-! ## §1 What a call has left -/

/-- The steps a phase has left, when nobody else comes between.  A split that waits with an
entry that is gone has to start over. -/
def Phase.left (s : BTreeSet M T) : Phase T → ℕ
  | .lookup => 4
  | .release => 3
  | .tryWrite => 2
  | .insertFirst => 1
  | .edit e => if s.Registered e.2 (key e.1) then 2 else 6
  | .commit (.split n m _) _ _ => if s.Registered n (key m) then 1 else 5
  | .commit _ _ _ => 1
  | .search _ => 1

/-- An idle thread has a whole call before it. -/
def Thread.left (s : BTreeSet M T) : Thread T K → ℕ
  | .idle => 4
  | .running _ phase => phase.left s
  | .panicked => 0

theorem Phase.left_pos (s : BTreeSet M T) (phase : Phase T) : 1 ≤ phase.left s := by
  unfold left
  split <;> first | omega | (split <;> omega)

/-- The index says how much a phase has left. -/
theorem Thread.left_congr {s s' : BTreeSet M T} (h : s'.index = s.index) (thread : Thread T K) :
    thread.left s' = thread.left s := by
  have hreg : ∀ n q, s'.Registered n q ↔ s.Registered n q := fun n q => by
    rw [BTreeSet.Registered, BTreeSet.Registered, BTreeSet.entries, BTreeSet.entries, h]
  cases thread with
  | running call phase => simp only [left, Phase.left, hreg]
  | _ => rfl

/-- Whatever happens to the index, at most one call's worth is added. -/
theorem Thread.left_le (s s' : BTreeSet M T) (thread : Thread T K) :
    thread.left s' ≤ thread.left s + 4 := by
  cases thread with
  | running call phase =>
    simp only [left, Phase.left]
    split <;> first | omega | (split <;> split <;> omega)
  | _ => exact Nat.le_add_right ..

section Steps

variable {s s' : BTreeSet M T} {events : List (ChangeEvent T)} {call : Call T K}
  {phase : Phase T} {next : Next T} {changes : List (ChangeEventUnassigned T)}

/-- A lookup finds a registered node. -/
theorem BTreeSet.registered_of_route {e : T × NodeId} (h : call.route s = some e) :
    s.Registered e.2 (key e.1) := ⟨e, Call.route_mem h, rfl, rfl⟩

/-- **One step** uses up a step of the call, is its last one, or is a `try_write` that fails. -/
theorem Turn.left (h : Turn s events call phase s' next changes) :
    (s'.index = s.index ∧ (next.thread call).left s' + 1 ≤ phase.left s) ∨
      (∃ ret cdc, next = .done ret cdc) ∨
      (phase = .tryWrite ∧ s' = s ∧ next = .goto .lookup) := by
  cases h with
  | first | added | refused | replaced | missed | absent | inside | split | maxEmpty | maxGone
  | maxSame | rekeyed | dropGone | kept | dropped | unlocated | searched =>
    exact Or.inr (Or.inl ⟨_, _, rfl⟩)
  | retry => exact Or.inr (Or.inr ⟨rfl, rfl, rfl⟩)
  | @lookupPut c v e he =>
    -- what a lookup finds is in the index
    have hreg : s.Registered e.2 (key e.1) :=
      BTreeSet.registered_of_route (show (Call.insert c v : Call T K).route s = some e from he)
    refine Or.inl ⟨rfl, ?_⟩
    simp [Next.thread, Thread.left, Phase.left, hreg]
  | @lookupRemove q e he =>
    have hreg : s.Registered e.2 (key e.1) :=
      BTreeSet.registered_of_route (show (Call.remove q : Call T K).route s = some e from he)
    refine Or.inl ⟨rfl, ?_⟩
    simp [Next.thread, Thread.left, Phase.left, hreg]
  | full =>
    -- an entry that is gone by now will not be found by the commit either
    refine Or.inl ⟨rfl, ?_⟩
    simp only [Next.thread, Thread.left, Phase.left]
    split <;> omega
  | raised _ _ _ hwrote =>
    refine Or.inl ⟨hwrote.index, ?_⟩
    simp only [Next.thread, Thread.left, Phase.left]
    split <;> omega
  | lowered _ _ _ hwrote =>
    refine Or.inl ⟨hwrote.index, ?_⟩
    simp only [Next.thread, Thread.left, Phase.left]
    split <;> omega
  | emptied _ _ hwrote =>
    refine Or.inl ⟨hwrote.index, ?_⟩
    simp only [Next.thread, Thread.left, Phase.left]
    split <;> omega
  | splitGone hgone =>
    refine Or.inl ⟨rfl, ?_⟩
    simp [Next.thread, Thread.left, Phase.left, hgone]
  | splitPanic hreg =>
    refine Or.inl ⟨rfl, ?_⟩
    simp [Next.thread, Thread.left, Phase.left, hreg]
  | lookupFirst | release | overflow | locked | located =>
    refine Or.inl ⟨rfl, ?_⟩
    simp [Next.thread, Thread.left, Phase.left]

end Steps

/-! ## §2 All threads -/

/-- The label is a turn. -/
def Label.isTurn : Label ι T K → Bool
  | .call _ _ => false
  | .turn _ => true

namespace State

/-- What all threads have left. -/
def left [Fintype ι] (s : State ι M T K) : ℕ := ∑ t, (s.threads t).left s.shared

/-- One for a `try_write` that fails. -/
def fails [DecidableEq ι] [Fintype ι] (s : State ι M T K) : Label ι T K → ℕ
  | .call _ _ => 0
  | .turn t =>
    match s.threads t with
    | .running _ .tryWrite => if s.alone t && !s.shared.poisoned then 0 else 1
    | _ => 0

theorem left_start [Fintype ι] (shared : BTreeSet M T) :
    (start shared : State ι M T K).left = 4 * Fintype.card ι := by
  simp [left, start, Thread.left, Nat.mul_comm]

variable [DecidableEq ι] [Fintype ι] {s s' : State ι M T K}

/-- A step of one thread: what it has left itself, and what the others have. -/
theorem left_advance {t : ι} {call : Call T K} {phase : Phase T}
    (ht : s.threads t = .running call phase) (shared : BTreeSet M T) (next : Next T) :
    s.left = phase.left s.shared + ∑ u ∈ Finset.univ.erase t, (s.threads u).left s.shared ∧
      (s.advance t call shared next).left = (next.thread call).left shared +
        ∑ u ∈ Finset.univ.erase t, (s.threads u).left shared := by
  constructor
  · rw [left, ← Finset.add_sum_erase _ _ (Finset.mem_univ t), ht]
    rfl
  · rw [left, ← Finset.add_sum_erase _ _ (Finset.mem_univ t), threads_advance_self]
    congr 1
    apply Finset.sum_congr rfl
    intro u hu
    rw [threads_advance_of_ne (Finset.ne_of_mem_erase hu)]
    rfl

omit [DecidableEq ι] [Fintype ι] in
/-- A `try_write` sends the thread back only when it fails. -/
theorem turn_tryWrite {shared shared' : BTreeSet M T} {alone : Bool} {call : Call T K}
    (h : turn shared alone call .tryWrite = some (shared', .goto .lookup)) :
    (alone && !shared.poisoned) = false := by
  cases call with
  | insert c v =>
    by_contra hcan
    rw [Bool.not_eq_false] at hcan
    simp [turn, hcan] at h
  | remove q => cases h
  | contains q => cases h
  | get q => cases h

/-- **One step** of any thread: what is used up is paid for by a return or a failed
`try_write`. -/
theorem Sound.left_step {l : Label ι T K} (hs : s.Sound) (h : s.step l = some s') :
    s'.left + 4 * Fintype.card ι * s.returned.length + (if l.isTurn then 1 else 0) ≤
      s.left + 4 * Fintype.card ι * s'.returned.length + 3 * s.fails l := by
  cases l with
  | call t call =>
    obtain ⟨hidle, rfl⟩ := step_call h
    have hsame : (s.invoke t call).left = s.left := by
      apply Finset.sum_congr rfl
      intro u _
      by_cases hu : u = t
      · subst hu
        simp [State.invoke, hidle, Thread.left, Phase.left]
      · simp [State.invoke, hu]
    rw [hsame]
    simp [State.invoke, Label.isTurn, fails]
  | turn t =>
    obtain ⟨call, phase, shared, next, ht, hstep, rfl⟩ := step_turn_eq h
    obtain ⟨changes, hturn, -, -⟩ := turn_spec hs.sorted
      (fun op d cdc hphase => hs.defers t call op d cdc (hphase ▸ ht)) hstep
    obtain ⟨hbefore, hafter⟩ := left_advance ht shared next
    have hpos := phase.left_pos s.shared
    rcases hturn.left with ⟨hindex, hless⟩ | ⟨ret, cdc, rfl⟩ | ⟨rfl, rfl, rfl⟩
    · -- the others have what they had
      have hothers : ∑ u ∈ Finset.univ.erase t, (s.threads u).left shared =
          ∑ u ∈ Finset.univ.erase t, (s.threads u).left s.shared :=
        Finset.sum_congr rfl fun u _ => Thread.left_congr hindex _
      have hmono : s.returned.length ≤ (s.advance t call shared next).returned.length := by
        simp [State.advance]
      have hpaid := Nat.mul_le_mul_left (4 * Fintype.card ι) hmono
      simp only [Label.isTurn, if_true]
      omega
    · -- a return pays for all that the others get
      have hothers : ∑ u ∈ Finset.univ.erase t, (s.threads u).left shared ≤
          ∑ u ∈ Finset.univ.erase t, (s.threads u).left s.shared +
            4 * (Fintype.card ι - 1) := by
        calc ∑ u ∈ Finset.univ.erase t, (s.threads u).left shared
            ≤ ∑ u ∈ Finset.univ.erase t, ((s.threads u).left s.shared + 4) :=
              Finset.sum_le_sum fun u _ => Thread.left_le ..
          _ = _ := by
              rw [Finset.sum_add_distrib, Finset.sum_const_nat fun _ _ => rfl,
                Finset.card_erase_of_mem (Finset.mem_univ t), Finset.card_univ, Nat.mul_comm 4]
      have hcard : 1 ≤ Fintype.card ι := Fintype.card_pos_iff.mpr ⟨t⟩
      have hself : (Next.thread call (.done ret cdc)).left shared = 4 := rfl
      have hlength : (s.advance t call shared (.done ret cdc)).returned.length =
          s.returned.length + 1 := by
        simp [State.advance, Next.record]
      rw [hlength, Nat.mul_add, Nat.mul_one]
      simp only [Label.isTurn, if_true]
      omega
    · have hfails : s.fails (.turn t) = 1 := by
        simp only [fails, ht]
        rw [turn_tryWrite hstep]
        rfl
      have hlength : (s.advance t call s.shared (.goto .lookup)).returned.length =
          s.returned.length := by
        simp [State.advance, Next.record]
      have hself : (Next.thread call (.goto .lookup : Next T)).left s.shared = 4 := rfl
      have hphase : (Phase.tryWrite : Phase T).left s.shared = 2 := rfl
      rw [hlength, hfails]
      simp only [Label.isTurn, if_true]
      omega

end State

/-! ## §3 Calls return -/

/-- **Lock freedom**: in every interleaving on a coherent set, whatever the maximum node size,
the threads together take at most `4 n` turns for each call that returns, and `4 n` more, for
`n` threads, unless a `try_write` fails; each one that does can cost three more turns. -/
theorem turns_bounded [DecidableEq ι] [Fintype ι] {shared : BTreeSet M T} (hs : shared.Coherent)
    (hsorted : shared.Sorted) {schedule : List (Label ι T K)} {final : State ι M T K}
    (hrun : Transition.run State.step (State.start shared) schedule = some final) :
    schedule.countP Label.isTurn ≤
      4 * Fintype.card ι * (final.returned.length + 1) +
        3 * Transition.total State.step State.fails (State.start shared) schedule := by
  have hbound := Transition.run_amortised State.step Label.isTurn State.left
    (fun s : State ι M T K => 4 * Fintype.card ι * s.returned.length)
    (fun s l => 3 * s.fails l) (I := State.Sound)
    (fun s l s' hI h => ⟨hI.step h, hI.left_step h⟩) (State.sound_start hs hsorted) hrun
  rw [Transition.total_mul, State.left_start] at hbound
  have hstart : (State.start shared : State ι M T K).returned.length = 0 := rfl
  rw [hstart] at hbound
  rw [Nat.mul_add, Nat.mul_one]
  omega

theorem turns_bounded_splitTwice :
    ∃ final : State (Fin 2) (SortedIndex ℕ) ℕ ℕ,
      Transition.run State.step (State.start (BTreeSet.single false 2 5)) splitTwice =
          some final ∧
        splitTwice.countP Label.isTurn ≤
          4 * 2 * (final.returned.length + 1) +
            3 * Transition.total State.step State.fails
              (State.start (BTreeSet.single false 2 5 : BTreeSet (SortedIndex ℕ) ℕ))
              splitTwice := by
  obtain ⟨final, hrun, -⟩ := Transition.exists_run
    (fun s : State (Fin 2) (SortedIndex ℕ) ℕ ℕ => s.shared.len == 4)
    State.step (State.start (BTreeSet.single false 2 5)) splitTwice
    (by decide)
  have hrest := BTreeSet.single_atRest (M := SortedIndex ℕ) (K := ℕ) false 2 5
  exact ⟨final, hrun, turns_bounded hrest.coherent hrest.sorted hrun⟩

/-! ## §4 The first node -/

namespace State

variable [DecidableEq ι] [Fintype ι] {s s' : State ι M T K}

theorem step_of_turn {t : ι} {call : Call T K} {phase : Phase T} {shared : BTreeSet M T}
    {next : Next T} (ht : s.threads t = .running call phase)
    (h : turn s.shared (s.alone t) call phase = some (shared, next)) :
    s.step (.turn t) = some (s.advance t call shared next) := by
  simp only [step, ht, h, Option.map_some]

/-- One insert is about to look up the first node, another one to let go of the index lock. -/
structure Spinning (s : State ι M T K) (t u : ι) : Prop where
  empty : s.shared.entries = []
  allocates : s.shared.Allocates
  looking : ∃ c v, s.threads t = .running (.insert c v) .lookup
  releasing : ∃ c v, s.threads u = .running (.insert c v) .release
  returned : s.returned = []

/-- Three turns, and they have changed places. -/
theorem Spinning.round {t u : ι} (hne : t ≠ u) (hs : s.Spinning t u) :
    ∃ s', Transition.run step s [.turn t, .turn u, .turn u] = some s' ∧ s'.Spinning u t := by
  obtain ⟨hempty, hfits, ⟨c, v, ht⟩, ⟨c', w, hu⟩, hreturned⟩ := hs
  have hnone : s.shared.lookupPut (key v) = none := BTreeSet.lookupPut_eq_none.mpr hempty
  -- the lookup finds an empty index, and holds the lock shared
  have h₁ : s.step (.turn t) = some (s.advance t (.insert c v) s.shared (.goto .release)) :=
    step_of_turn ht (by simp only [turn, hnone])
  generalize hs₁ : s.advance t (.insert c v) s.shared (.goto .release) = s₁ at h₁
  have hu₁ : s₁.threads u = .running (.insert c' w) .release := by
    rw [← hs₁, threads_advance_of_ne hne.symm, hu]
  have ht₁ : s₁.threads t = .running (.insert c v) .release := by
    rw [← hs₁, threads_advance_self]
    rfl
  have hnode : s₁.shared.firstNode w = some [w] := by
    rw [← hs₁]
    exact BTreeSet.firstNode_of_allocates hfits w
  have h₂ : s₁.step (.turn u) =
      some (s₁.advance u (.insert c' w) s₁.shared (.goto .tryWrite)) :=
    step_of_turn hu₁ (by simp only [turn, hnode])
  generalize hs₂ : s₁.advance u (.insert c' w) s₁.shared (.goto .tryWrite) = s₂ at h₂
  have hu₂ : s₂.threads u = .running (.insert c' w) .tryWrite := by
    rw [← hs₂, threads_advance_self]
    rfl
  have ht₂ : s₂.threads t = .running (.insert c v) .release := by
    rw [← hs₂, threads_advance_of_ne hne, ht₁]
  -- so the `try_write` of the other one fails
  have hbusy : s₂.alone u = false := by
    refine decide_eq_false fun hall => ?_
    have hread := hall t hne
    rw [ht₂] at hread
    cases hread
  have h₃ : s₂.step (.turn u) =
      some (s₂.advance u (.insert c' w) s₂.shared (.goto .lookup)) :=
    step_of_turn hu₂ (by simp [turn, hbusy])
  refine ⟨_, Transition.run_cons.mpr ⟨s₁, h₁, Transition.run_cons.mpr ⟨s₂, h₂,
    Transition.run_cons.mpr ⟨_, h₃, rfl⟩⟩⟩, ?_, ?_, ⟨c', w, threads_advance_self ..⟩, ⟨c, v, ?_⟩,
    ?_⟩
  · rw [← hs₂, ← hs₁]
    exact hempty
  · rw [← hs₂, ← hs₁]
    exact hfits
  · rw [threads_advance_of_ne hne, ht₂]
  · rw [← hs₂, ← hs₁]
    simp [State.advance, hreturned]

theorem Spinning.rounds {t u : ι} (hne : t ≠ u) (hs : s.Spinning t u) (k : ℕ) :
    ∃ schedule s', Transition.run step s schedule = some s' ∧
      (∀ l ∈ schedule, l.isTurn = true) ∧ schedule.length = 3 * k ∧ s'.returned = [] := by
  induction k generalizing s t u with
  | zero => exact ⟨[], s, rfl, by simp, rfl, hs.returned⟩
  | succ k ih =>
    obtain ⟨s₁, hrun, hs₁⟩ := hs.round hne
    obtain ⟨schedule, s', hrun', hturns, hlength, hreturned⟩ := ih hne.symm hs₁
    refine ⟨[.turn t, .turn u, .turn u] ++ schedule, s',
      Transition.run_append.mpr ⟨s₁, hrun, hrun'⟩, fun l hl => ?_, ?_, hreturned⟩
    · rcases List.mem_append.mp hl with hl | hl
      · simp only [List.mem_cons, List.not_mem_nil, or_false] at hl
        rcases hl with rfl | rfl | rfl <;> rfl
      · exact hturns l hl
    · rw [List.length_append, hlength]
      simp only [List.length_cons, List.length_nil]
      omega

end State

/-- **Livelock**: two inserts into an empty set whose first node can be allocated, each in a thread
of its own, can take any number of turns without either returning. -/
theorem first_node_livelock [DecidableEq ι] [Fintype ι] {t u : ι} (hne : t ≠ u) (cdc : Bool)
    {elementSize nodeCapacity : ℕ} (hcapacity : nodeCapacity * elementSize ≤ Node.isizeMax)
    (v w : T) (k : ℕ) :
    ∃ (turns : List (Label ι T K)) (final : State ι M T K),
      Transition.run State.step
          (State.start (BTreeSet.withMaximumNodeSize cdc elementSize nodeCapacity))
          (.call t (.insert false v) :: .call u (.insert false w) :: turns) = some final ∧
        (∀ l ∈ turns, l.isTurn = true) ∧ k ≤ turns.length ∧ final.returned = [] := by
  have hempty :=
    BTreeSet.withMaximumNodeSize_entries (M := M) (T := T) cdc elementSize nodeCapacity
  have hfits : (BTreeSet.withMaximumNodeSize cdc elementSize nodeCapacity :
      BTreeSet M T).Allocates := hcapacity
  generalize (BTreeSet.withMaximumNodeSize cdc elementSize nodeCapacity : BTreeSet M T) = shared
    at hempty hfits ⊢
  have hnone : shared.lookupPut (key w) = none := BTreeSet.lookupPut_eq_none.mpr hempty
  -- both call, and the second one goes ahead to where it lets go of the lock
  let s₁ : State ι M T K := (State.start shared).invoke t (.insert false v)
  let s₂ : State ι M T K := s₁.invoke u (.insert false w)
  have h₁ : (State.start shared : State ι M T K).step (.call t (.insert false v)) = some s₁ :=
    rfl
  have hu₁ : s₁.threads u = .idle := by simp [s₁, State.invoke, State.start, hne.symm]
  have h₂ : s₁.step (.call u (.insert false w)) = some s₂ := by
    simp only [State.step, hu₁]
    rfl
  have hu₂ : s₂.threads u = .running (.insert false w) .lookup := by simp [s₂, State.invoke]
  have ht₂ : s₂.threads t = .running (.insert false v) .lookup := by
    simp [s₂, s₁, State.invoke, hne]
  have h₃ : s₂.step (.turn u) =
      some (s₂.advance u (.insert false w) s₂.shared (.goto .release)) := by
    apply State.step_of_turn hu₂
    have hshared : s₂.shared = shared := rfl
    simp only [turn, hshared, hnone]
  have hspin : (s₂.advance u (.insert false w) s₂.shared (.goto .release)).Spinning t u := by
    refine ⟨hempty, hfits, ⟨false, v, ?_⟩, ⟨false, w, State.threads_advance_self ..⟩, rfl⟩
    rw [State.threads_advance_of_ne hne, ht₂]
  obtain ⟨schedule, final, hrun, hturns, hlength, hreturned⟩ := hspin.rounds hne k
  refine ⟨.turn u :: schedule, final, ?_, ?_, ?_, hreturned⟩
  · exact Transition.run_cons.mpr ⟨s₁, h₁, Transition.run_cons.mpr ⟨s₂, h₂,
      Transition.run_cons.mpr ⟨_, h₃, hrun⟩⟩⟩
  · rintro l (_ | ⟨_, hl⟩)
    · rfl
    · exact hturns l hl
  · rw [List.length_cons, hlength]
    omega

theorem first_node_livelock_pair :
    ∃ (turns : List (Label (Fin 2) ℕ ℕ)) (final : State (Fin 2) (SortedIndex ℕ) ℕ ℕ),
      Transition.run State.step
          (State.start (BTreeSet.withMaximumNodeSize false 8 4 : BTreeSet (SortedIndex ℕ) ℕ))
          (.call 0 (.insert false 5) :: .call 1 (.insert false 3) :: turns) = some final ∧
        (∀ l ∈ turns, l.isTurn = true) ∧ 100 ≤ turns.length ∧ final.returned = [] :=
  first_node_livelock (by decide) false (by decide : 4 * 8 ≤ _) 5 3 100

end IndexSet.Concurrent
