import Mathlib.Algebra.BigOperators.Group.Finset.Basic
import Mathlib.Algebra.Order.Group.Multiset
import IndexSet.Concurrent.Sequential
import IndexSet.Concurrent.Agreement
import IndexSet.Concurrent.Deadlock

/-!
# What the Nodes Hold, Whatever the Interleaving

Three results that need no condition on how the threads of a set meet, or next to none.

- §1, §2 **conservation**: what is in the nodes and what was handed back is what was there
  and what was stored, each value as often (`conservation`).  Values can be lost with the
  node that holds them, never in a node, and none is there twice;
- §3 **size**: no node outgrows the maximum node size (`nodes_bounded`);
- §4 **panics**: without a remove there is none, and the index lock is never poisoned
  (`panics_after_remove`).
-/

namespace IndexSet.Concurrent

open KeyedList

variable {ι M T K : Type} [LinearOrder K] [Keyed T K] [LawfulSkipMap M T K]

/-! ## §1 The heap -/

omit [LinearOrder K] [Keyed T K] [LawfulSkipMap M T K] in
theorem coe_append_cons (a b : List T) (x : T) :
    ((a ++ x :: b : List T) : Multiset T) = a + b + {x} := by
  rw [← Multiset.coe_add, ← Multiset.cons_coe, ← Multiset.singleton_add]
  ac_rfl

omit [LawfulSkipMap M T K] in
/-- Storing a value in an ascending list adds it, and takes out the equal element. -/
theorem put_balance {l : List T} (h : Ascending key l) (v : T) :
    (put key v l : Multiset T) + (find key (key v) l).toList = (l : Multiset T) + {v} := by
  rcases h.exists_cut (key v) with ⟨a, x, b, rfl, hx, ha, hb⟩ | ⟨a, b, rfl, ha, hb⟩
  · rw [put_hit hx ha hb, find_hit hx ha, Option.toList_some, Multiset.coe_singleton,
      coe_append_cons, coe_append_cons]
    ac_rfl
  · rw [put_gap ha hb, find_gap ha hb, Option.toList_none, Multiset.coe_nil, add_zero,
      coe_append_cons, Multiset.coe_add]

namespace BTreeSet

/-- Everything in a node, whether the index leads to it or not. -/
def heap (s : BTreeSet M T) : Multiset T :=
  ∑ n ∈ Finset.range s.nextNode, (s.nodes n : Multiset T)

variable {s s' : BTreeSet M T}

omit [LinearOrder K] [Keyed T K] [LawfulSkipMap M T K] in
theorem sum_nodes_update (nodes : NodeId → List T) {n bound : NodeId} (hn : n < bound)
    (items : List T) :
    (∑ i ∈ Finset.range bound, (Function.update nodes n items i : Multiset T)) + nodes n =
      (∑ i ∈ Finset.range bound, (nodes i : Multiset T)) + items := by
  have hmem := Finset.mem_range.mpr hn
  have hrest : ∑ i ∈ (Finset.range bound).erase n,
        (Function.update nodes n items i : Multiset T) =
      ∑ i ∈ (Finset.range bound).erase n, (nodes i : Multiset T) := by
    apply Finset.sum_congr rfl
    intro i hi
    rw [Function.update_of_ne (Finset.ne_of_mem_erase hi)]
  rw [← Finset.add_sum_erase _ _ hmem, ← Finset.add_sum_erase _ (fun i => (nodes i : Multiset T))
    hmem, hrest, Function.update_self]
  ac_rfl

omit [LinearOrder K] [Keyed T K] [LawfulSkipMap M T K] in
/-- A write takes the old contents of the node away. -/
theorem Wrote.heap {n : NodeId} {items : List T} (h : s.Wrote n items s')
    (hn : n < s.nextNode) : s'.heap + s.nodes n = s.heap + items := by
  rw [BTreeSet.heap, BTreeSet.heap, h.nodes, h.nextNode]
  exact sum_nodes_update s.nodes hn items

omit [LinearOrder K] [Keyed T K] [LawfulSkipMap M T K] in
/-- A new node adds its contents. -/
theorem heap_newNode (items : List T) :
    ∑ i ∈ Finset.range (s.nextNode + 1),
      (Function.update s.nodes s.nextNode items i : Multiset T) = s.heap + items := by
  rw [Finset.sum_range_succ, Function.update_self, BTreeSet.heap]
  congr 1
  apply Finset.sum_congr rfl
  intro i hi
  rw [Function.update_of_ne (Finset.mem_range.mp hi).ne]

/-- A split of a node that is not empty stores its value and hands the old one back. -/
theorem heap_commitSplit {n : NodeId} {m v : T} (hsorted : s.Sorted) (hn : n < s.nextNode)
    (hne : s.nodes n ≠ []) :
    (s.commitSplit n m v).1.heap + (s.commitSplit n m v).2.1.toList = s.heap + {v} := by
  obtain ⟨lowerMax, lower, upperMax, upper, hstate, hold, hput, -⟩ :=
    commitSplit_spec s n m v (hsorted n) hne
  rw [hstate, hold]
  have hlower := sum_nodes_update s.nodes hn lower
  have hupper := heap_newNode (s := { s with nodes := Function.update s.nodes n lower }) upper
  have hbalance := put_balance (hsorted n) v
  rw [← hput, ← Multiset.coe_add] at hbalance
  have hsplit : (s.splitState n m lowerMax lower upperMax upper).heap + s.nodes n =
      s.heap + (lower + upper) := by
    calc (s.splitState n m lowerMax lower upperMax upper).heap + s.nodes n
        = (∑ i ∈ Finset.range s.nextNode, (Function.update s.nodes n lower i : Multiset T)) +
            upper + s.nodes n := congrArg (· + (s.nodes n : Multiset T)) hupper
      _ = s.heap + (lower + upper) := by
          rw [add_right_comm, hlower, add_assoc]
          rfl
  -- the old contents cancel
  apply add_right_cancel (b := (s.nodes n : Multiset T))
  calc (s.splitState n m lowerMax lower upperMax upper).heap +
          ((find key (key v) (s.nodes n)).toList : Multiset T) + s.nodes n
      = s.heap + ((lower : Multiset T) + upper + (find key (key v) (s.nodes n)).toList) := by
        rw [add_right_comm, hsplit]
        ac_rfl
    _ = s.heap + {v} + s.nodes n := by
        rw [hbalance]
        ac_rfl

end BTreeSet

/-! ## §2 Conservation -/

/-- What an answer hands back. -/
@[simp] def Ret.handed : Ret T → Multiset T
  | .put old => old.toList
  | .removed deleted => deleted.toList
  | _ => 0

/-- The answer of an insert that has stored its value. -/
@[simp] def Ret.stores : Ret T → Bool
  | .put _ => true
  | _ => false

/-- The value of an insert. -/
@[simp] def Call.value : Call T K → Multiset T
  | .insert _ v => {v}
  | _ => 0

/-- The element a thread has taken out and is about to hand back. -/
@[simp] def Thread.handed : Thread T K → Multiset T
  | .running _ phase => phase.deleted.toList
  | _ => 0

/-- The value a thread has stored without having returned. -/
@[simp] def Thread.stored : Thread T K → Multiset T
  | .running call phase => if phase.applied then call.value else 0
  | _ => 0

def Returned.handed (r : Returned ι T K) : Multiset T := r.ret.handed

def Returned.stored (r : Returned ι T K) : Multiset T := if r.ret.stores then r.call.value else 0

/-- What follows a step hands back, or will. -/
@[simp] def Next.handed : Next T → Multiset T
  | .goto phase => phase.deleted.toList
  | .done ret _ => ret.handed
  | .panic => 0

/-- What has been stored when a step is over. -/
@[simp] def Next.stored (call : Call T K) : Next T → Multiset T
  | .goto phase => if phase.applied then call.value else 0
  | .done ret _ => if ret.stores then call.value else 0
  | .panic => 0

section Steps

variable {s s' : BTreeSet M T} {events : List (ChangeEvent T)} {call : Call T K}
  {phase : Phase T} {next : Next T} {changes : List (ChangeEventUnassigned T)}

omit [LinearOrder K] [LawfulSkipMap M T K] in
/-- A call that has taken effect hands back what it took out. -/
theorem Call.Defers.settled {op : Operation T} {d : Option T} (h : call.Defers op d)
    (cdc : List (ChangeEvent T)) (happ : (Phase.commit op d cdc).applied = true) :
    (Next.done (call.answer d) cdc).handed = d.toList ∧
      (Next.done (call.answer d) cdc).stored call = call.value := by
  cases call with
  | insert c v =>
    cases op with
    | split n m w => cases happ
    | updateMax n m =>
      cases (h : d = none)
      exact ⟨rfl, rfl⟩
    | makeUnreachable n m => exact (h : False).elim
  | remove q => exact ⟨rfl, rfl⟩
  | contains q => exact (h : False).elim
  | get q => exact (h : False).elim

/-- **One step** moves values between the nodes and the caller, and makes none up. -/
theorem Turn.balance (h : Turn s events call phase s' next changes) (hsorted : s.Sorted)
    (hedit : ∀ e, phase = .edit e → e.2 < s.nextNode)
    (hentries : ∀ e ∈ s.entries, e.2 < s.nextNode)
    (hdefers : ∀ op d cdc, phase = .commit op d cdc → call.Defers op d)
    (hsplit : ∀ op ∈ phase.split, s.Registered op.1 (key op.2.1) → s.nodes op.1 ≠ []) :
    s'.heap + next.handed + (Thread.running call phase).stored =
      s.heap + (Thread.running call phase).handed + next.stored call := by
  -- a write moves what distinguishes the new contents from the old ones
  have hmoved : ∀ {n : NodeId} {old new : List T} (given taken : Multiset T),
      s.Wrote n new s' → n < s.nextNode → s.nodes n = old →
      (new : Multiset T) + given = old + taken → s'.heap + given = s.heap + taken := by
    intro n old new given taken hwrote hn hold hitems
    have hheap := hwrote.heap hn
    rw [hold] at hheap
    apply add_right_cancel (b := (old : Multiset T))
    calc s'.heap + given + old = s.heap + (new + given) := by
          rw [add_right_comm, hheap, add_assoc]
      _ = s.heap + taken + old := by
          rw [hitems]
          ac_rfl
  cases h with
  | lookupPut | lookupFirst | release | overflow | locked | retry | full | refused | lookupRemove
  | missed | absent | splitGone | splitPanic | located =>
    simp [Phase.applied, Phase.deleted, BTreeSet.heap]
  | @first c v s' hcreated =>
    have hheap : s'.heap = s.heap + {v} := by
      rw [BTreeSet.heap, hcreated.nodes, hcreated.nextNode, BTreeSet.heap_newNode,
        Multiset.coe_singleton]
    simp [hheap, Phase.applied, Phase.deleted]
  | @added c v e a b s' _ hl _ _ _ hwrote =>
    have hheap := hmoved 0 {v} hwrote (hedit e rfl) hl
      (by rw [coe_append_cons, Multiset.coe_add, add_zero])
    simpa [Phase.applied, Phase.deleted] using hheap
  | @raised c v m e s' _ _ _ hwrote =>
    have hheap := hmoved 0 {v} hwrote (hedit e rfl) rfl
      (by rw [coe_append_cons, Multiset.coe_nil, add_zero, add_zero])
    simpa [Phase.applied, Phase.deleted] using hheap
  | @replaced v x m e a b s' _ hl _ _ _ _ hwrote =>
    have hheap := hmoved {x} {v} hwrote (hedit e rfl) hl
      (by rw [coe_append_cons, coe_append_cons]; ac_rfl)
    simpa [Phase.applied, Phase.deleted] using hheap
  | @inside q e a b x m s' hl _ _ _ hwrote =>
    have hheap := hmoved {x} 0 hwrote (hedit e rfl) hl
      (by rw [coe_append_cons, Multiset.coe_add, add_zero])
    simpa [Phase.applied, Phase.deleted] using hheap
  | @lowered q e a x s' hl _ _ hwrote =>
    have hheap := hmoved {x} 0 hwrote (hedit e rfl) hl
      (by rw [coe_append_cons, Multiset.coe_nil, add_zero, add_zero])
    simpa [Phase.applied, Phase.deleted] using hheap
  | @emptied q e x s' hl _ hwrote =>
    have hheap := hmoved {x} 0 hwrote (hedit e rfl) hl (by simp)
    simpa [Phase.applied, Phase.deleted] using hheap
  | @split c v m n cdc eventId hreg =>
    have hne := hsplit (n, m, v) rfl hreg
    obtain ⟨e, he, rfl, -⟩ := hreg
    have hheap := BTreeSet.heap_commitSplit (m := m) (v := v) hsorted (hentries e he) hne
    have hsame : BTreeSet.heap { (s.commitSplit e.2 m v).1 with eventId } =
      (s.commitSplit e.2 m v).1.heap := rfl
    rw [hsame]
    simpa [Phase.applied, Phase.deleted] using hheap
  | @maxEmpty _ m n d cdc | @maxGone _ m n d cdc | @maxSame _ m n d cdc
  | @rekeyed _ m _ n d cdc =>
    -- the call has taken effect before
    obtain ⟨hhanded, hstored⟩ := (hdefers _ _ _ rfl).settled cdc rfl
    rw [hhanded, hstored]
    rfl
  | @dropGone _ m n d cdc | @kept _ m n d cdc =>
    obtain ⟨hhanded, hstored⟩ := (hdefers _ _ _ rfl).settled cdc rfl
    rw [hhanded, hstored]
    rfl
  | @dropped _ m n d cdc =>
    obtain ⟨hhanded, hstored⟩ := (hdefers _ _ _ rfl).settled (cdc ++ events) rfl
    rw [hhanded, hstored]
    rfl
  | unlocated hread =>
    rcases hread with ⟨rfl, rfl⟩ | ⟨rfl, rfl⟩ <;> simp [Phase.applied, Phase.deleted]
  | searched hread =>
    rcases hread with ⟨rfl, rfl⟩ | ⟨rfl, rfl⟩ <;> simp [Phase.applied, Phase.deleted]

/-- With `cdc`, a split that finds its node empty panics. -/
theorem turn_split_panics {alone c : Bool} {n : NodeId} {m v : T} {d : Option T}
    {cdc : List (ChangeEvent T)} (hcdc : s.cdc = true) (hreg : s.Registered n (key m))
    (hnil : s.nodes n = [])
    (h : turn s alone (.insert c v : Call T K) (.commit (.split n m v) d cdc) =
      some (s', next)) : s' = { s with poisoned := true } ∧ next = .panic := by
  cases alone with
  | false => simp [turn] at h
  | true =>
    rcases s.commit_split_cases n m v with ⟨hnot, -⟩ | ⟨_, _, _, -, -, -, ⟨-, -, heval⟩ | ⟨hne, -⟩⟩
    · exact absurd hreg hnot
    · simp only [turn, if_true, BTreeSet.commitDeferred, heval, Option.some.injEq,
        Prod.mk.injEq] at h
      exact ⟨h.1.symm, h.2.symm⟩
    · exact absurd ⟨hcdc, hnil⟩ hne

end Steps

/-- Two sums over threads and two over returned calls, after a step that moves one thread. -/
theorem balance_step {A : Type*} [AddCancelCommMonoid A]
    {heap heap' initial out out' past into into' done gone gain seen went came told : A}
    (hout : out' + gone = out + went) (hinto : into' + gain = into + came)
    (hstep : heap' + (went + seen) + gain = heap + gone + (came + told))
    (hs : heap + (out + past) = initial + (into + done)) :
    heap' + (out' + (past + seen)) = initial + (into' + (done + told)) := by
  apply add_right_cancel (b := gone + gain)
  calc heap' + (out' + (past + seen)) + (gone + gain)
      = heap' + (out' + gone) + past + seen + gain := by ac_rfl
    _ = heap' + (went + seen) + gain + (out + past) := by
        rw [hout]
        ac_rfl
    _ = heap + (out + past) + (gone + came + told) := by
        rw [hstep]
        ac_rfl
    _ = initial + (into + came) + (done + told) + gone := by
        rw [hs]
        ac_rfl
    _ = initial + (into' + (done + told)) + (gone + gain) := by
        rw [← hinto]
        ac_rfl

omit [LinearOrder K] [Keyed T K] in
theorem Next.handed_eq (t : ι) (call : Call T K) (next : Next T) :
    next.handed =
      (next.thread call).handed + ((next.record t call).map Returned.handed).sum := by
  cases next <;> simp [Next.thread, Next.record, Returned.handed]

omit [LinearOrder K] [Keyed T K] in
theorem Next.stored_eq (t : ι) (call : Call T K) (next : Next T) :
    next.stored call =
      (next.thread call).stored + ((next.record t call).map Returned.stored).sum := by
  cases next <;> simp [Next.thread, Next.record, Returned.stored]

/-- In a coherent set every indexed node has one key. -/
theorem BTreeSet.Coherent.filed {s : BTreeSet M T} (hs : s.Coherent) :
    ∃ f, Filed f s.index s.nextNode := by
  classical
  refine ⟨fun n => if h : ∃ e ∈ s.entries, e.2 = n then ↑(key h.choose.1) else ⊥,
    fun e he => ⟨?_, hs.allocated e he⟩⟩
  have hex : ∃ p ∈ s.entries, p.2 = e.2 := ⟨e, he, rfl⟩
  have hsame : hex.choose = e :=
    List.inj_on_of_nodup_map hs.distinct hex.choose_spec.1 he hex.choose_spec.2
  exact (dif_pos hex).trans (by rw [hsame])

namespace State

/-- What every interleaving keeps: ascending nodes, each in the index once at most, and
threads with nodes and operations of their own. -/
structure Sound (s : State ι M T K) : Prop where
  sorted : s.shared.Sorted
  filed : ∃ f, Filed f s.shared.index s.shared.nextNode
  editing : ∀ t call e, s.threads t = .running call (.edit e) → e.2 < s.shared.nextNode
  defers : ∀ t call op d cdc, s.threads t = .running call (.commit op d cdc) → call.Defers op d

theorem sound_start {shared : BTreeSet M T} (hs : shared.Coherent) (hsorted : shared.Sorted) :
    (start shared : State ι M T K).Sound :=
  ⟨hsorted, hs.filed, fun _ _ _ h => by simp [start] at h, fun _ _ _ _ _ h => by simp [start] at h⟩

variable [DecidableEq ι] {s s' : State ι M T K}

theorem Sound.invoke (hs : s.Sound) (t : ι) (call : Call T K) : (s.invoke t call).Sound := by
  refine ⟨hs.sorted, hs.filed, fun u c e hu => ?_, fun u c op d cdc hu => ?_⟩
  · by_cases hut : u = t
    · subst hut
      simp [State.invoke] at hu
    · exact hs.editing u c e (by simpa [State.invoke, hut] using hu)
  · by_cases hut : u = t
    · subst hut
      simp [State.invoke] at hu
    · exact hs.defers u c op d cdc (by simpa [State.invoke, hut] using hu)

theorem Sound.advance {t : ι} {call : Call T K} {phase : Phase T} {shared : BTreeSet M T}
    {next : Next T} {events : List (ChangeEvent T)} {changes : List (ChangeEventUnassigned T)}
    (hs : s.Sound) (hturn : Turn s.shared events call phase shared next changes) :
    (s.advance t call shared next).Sound := by
  obtain ⟨f, hfiled⟩ := hs.filed
  obtain ⟨f', hfiled', hgrow, -⟩ := hturn.filed hfiled hs.sorted
  refine ⟨hturn.sorted hs.sorted, ⟨f', hfiled'⟩, ?_, ?_⟩
  · refine forall_threads_advance (P := fun _ th => ∀ c e, th = .running c (.edit e) →
      e.2 < shared.nextNode) (fun c e he => ?_) fun u _ c e he => ?_
    · cases next with
      | goto phase' =>
        cases he
        exact (hfiled' e (Call.route_mem hturn.routed)).2
      | done ret cdc => cases he
      | panic => cases he
    · exact (hs.editing u c e he).trans_le hgrow
  · refine forall_threads_advance (P := fun _ th => ∀ c op d cdc,
      th = .running c (.commit op d cdc) → c.Defers op d) (fun c op d cdc he => ?_)
      fun u _ => hs.defers u
    cases next with
    | goto phase' =>
      cases he
      exact hturn.defers
    | done ret cdc => cases he
    | panic => cases he

/-- **Every step**, whatever the interleaving, keeps it. -/
theorem Sound.step [Fintype ι] {l : Label ι T K} (hs : s.Sound) (h : s.step l = some s') :
    s'.Sound := by
  cases l with
  | call t call =>
    obtain ⟨-, rfl⟩ := step_call h
    exact hs.invoke t call
  | turn t =>
    obtain ⟨call, phase, shared, next, -, ⟨changes, hturn, -⟩, rfl⟩ :=
      step_turn_of hs.sorted hs.defers h
    exact hs.advance hturn

/-- What calls have handed back, or are about to. -/
def handedBack [Fintype ι] (s : State ι M T K) : Multiset T :=
  (∑ t, (s.threads t).handed) + (s.returned.map Returned.handed).sum

/-- The values that calls have stored. -/
def storedValues [Fintype ι] (s : State ι M T K) : Multiset T :=
  (∑ t, (s.threads t).stored) + (s.returned.map Returned.stored).sum

/-- A split that goes through finds a node that is not empty; with `cdc` it panics otherwise. -/
def SplitsFilled (s : State ι M T K) (l : Label ι T K) : Prop :=
  ∀ p ∈ s.active l, ∀ op ∈ p.2.split, s.shared.Registered op.1 (key op.2.1) →
    s.shared.cdc = true ∨ s.shared.nodes op.1 ≠ []

instance (s : State ι M T K) (l : Label ι T K) : Decidable (s.SplitsFilled l) :=
  inferInstanceAs (Decidable (∀ p ∈ s.active l, ∀ op ∈ p.2.split, _ → _ ∨ _))

variable [Fintype ι]

/-- The balance of a run that began with `initial` in the nodes. -/
structure Balanced (initial : Multiset T) (s : State ι M T K) : Prop where
  sound : s.Sound
  balance : s.shared.heap + s.handedBack = initial + s.storedValues

theorem Balanced.step {initial : Multiset T} {l : Label ι T K} (hs : s.Balanced initial)
    (hcond : s.SplitsFilled l) (h : s.step l = some s') : s'.Balanced initial := by
  refine ⟨hs.sound.step h, ?_⟩
  have hbalance := hs.balance
  cases l with
  | call t call =>
    obtain ⟨hidle, rfl⟩ := step_call h
    -- a call that begins has nothing in its hands
    have hhanded := Transition.sum_update Thread.handed s.threads t (.running call .lookup)
    have hstored := Transition.sum_update Thread.stored s.threads t (.running call .lookup)
    rw [hidle] at hhanded hstored
    rw [handedBack, storedValues, invoke]
    dsimp only
    rw [show (∑ u, (Function.update s.threads t (.running call .lookup) u).handed) =
          ∑ u, (s.threads u).handed by simpa [Phase.deleted] using hhanded,
      show (∑ u, (Function.update s.threads t (.running call .lookup) u).stored) =
          ∑ u, (s.threads u).stored by simpa [Phase.applied] using hstored]
    exact hbalance
  | turn t =>
    obtain ⟨call, phase, shared, next, ht, hstep, rfl⟩ := step_turn_eq h
    obtain ⟨changes, hturn, -, -⟩ := turn_spec hs.sound.sorted
      (fun op d cdc hphase => hs.sound.defers t call op d cdc (hphase ▸ ht)) hstep
    obtain ⟨f, hfiled⟩ := hs.sound.filed
    have hhanded := Transition.sum_update Thread.handed s.threads t (next.thread call)
    have hstored := Transition.sum_update Thread.stored s.threads t (next.thread call)
    rw [ht] at hhanded hstored
    simp only [handedBack, storedValues, advance, List.map_append, List.sum_append]
    apply balance_step hhanded hstored ?_ hbalance
    rw [← Next.handed_eq t call next, ← Next.stored_eq t call next]
    by_cases hpanic : ∃ op ∈ phase.split, s.shared.Registered op.1 (key op.2.1) ∧
        s.shared.nodes op.1 = []
    · -- the panic leaves the nodes alone
      obtain ⟨⟨n, m, v⟩, hop, hreg, hnil⟩ := hpanic
      have hcdc := (hcond _ (active_turn ht) _ hop hreg).resolve_right (not_not.mpr hnil)
      cases phase with
      | commit op d cdc =>
        have hdefers := hs.sound.defers t call op d cdc ht
        cases op with
        | split n' m' v' =>
          cases hop
          cases call with
          | insert c w =>
            obtain ⟨rfl, rfl⟩ := hdefers
            obtain ⟨rfl, rfl⟩ := turn_split_panics hcdc hreg hnil hstep
            simp [Phase.applied, Phase.deleted, BTreeSet.heap]
          | remove q => exact (hdefers : False).elim
          | contains q => exact (hdefers : False).elim
          | get q => exact (hdefers : False).elim
        | updateMax n' m' => cases hop
        | makeUnreachable n' m' => cases hop
      | _ => cases hop
    · refine hturn.balance hs.sound.sorted (fun e he => hs.sound.editing t call e (he ▸ ht))
        (fun e he => (hfiled e he).2)
        (fun op d cdc hphase => hs.sound.defers t call op d cdc (hphase ▸ ht)) ?_
      intro op hop hreg hnil
      exact hpanic ⟨op, hop, hreg, hnil⟩

end State

/-- **Conservation**: in every interleaving whose splits find their nodes not empty, what is
in the nodes and what calls have handed back is what was in the nodes at the start and what
calls have stored, each value as often. -/
theorem conservation [DecidableEq ι] [Fintype ι] {shared : BTreeSet M T} (hs : shared.Coherent)
    (hsorted : shared.Sorted) {schedule : List (Label ι T K)} {final : State ι M T K}
    (hrun : Transition.run State.step (State.start shared) schedule = some final)
    (hcond : Transition.Along State.step State.SplitsFilled (State.start shared) schedule) :
    final.shared.heap + final.handedBack = shared.heap + final.storedValues := by
  have hstart : (State.start shared : State ι M T K).Balanced shared.heap := by
    refine ⟨State.sound_start hs hsorted, ?_⟩
    simp [State.start, State.handedBack, State.storedValues]
  exact (Transition.run_invariant (fun s l s' hI hc h => hI.step hc h) hstart hcond hrun).balance

/-- An insert beside a remove of the same key: whichever of the two values is handed back,
the other one is in the node. -/
theorem conservation_removeBesideRekey :
    ∃ final : State (Fin 2) (SortedIndex ℕ) ℕ ℕ,
      Transition.run State.step (State.start (BTreeSet.single false 4 5)) removeBesideRekey =
          some final ∧
        final.shared.heap + final.handedBack =
          (BTreeSet.single false 4 5 : BTreeSet (SortedIndex ℕ) ℕ).heap +
            final.storedValues := by
  obtain ⟨final, hrun, -⟩ := Transition.exists_run
    (fun _ : State (Fin 2) (SortedIndex ℕ) ℕ ℕ => true)
    State.step (State.start (BTreeSet.single false 4 5)) removeBesideRekey
    (by decide)
  have hrest := BTreeSet.single_atRest (M := SortedIndex ℕ) (K := ℕ) false 4 5
  exact ⟨final, hrun, conservation hrest.coherent hrest.sorted hrun (by decide)⟩

/-! ## §3 The size of the nodes -/

/-- No node, in the index or not, has more than `max(capacity, 2)` elements. -/
def BTreeSet.NodesBounded (s : BTreeSet M T) (capacity : ℕ) : Prop :=
  s.nodeCapacity = capacity ∧ ∀ n, (s.nodes n).length ≤ max capacity 2

section Size

variable {s s' : BTreeSet M T} {events : List (ChangeEvent T)} {call : Call T K}
  {phase : Phase T} {next : Next T} {changes : List (ChangeEventUnassigned T)} {c : ℕ}

omit [LinearOrder K] [Keyed T K] [LawfulSkipMap M T K] in
theorem BTreeSet.Wrote.nodesBounded {n : NodeId} {items : List T} (h : s.Wrote n items s')
    (hs : s.NodesBounded c) (hlen : items.length ≤ max c 2) : s'.NodesBounded c := by
  refine ⟨h.nodeCapacity.trans hs.1, fun k => ?_⟩
  rw [h.nodes]
  by_cases hk : k = n
  · rw [hk, Function.update_self]
    exact hlen
  · rw [Function.update_of_ne hk]
    exact hs.2 k

/-- A split bounds both halves, whatever the node has become since it was found full. -/
theorem BTreeSet.nodesBounded_commitSplit {n : NodeId} {m v : T} (hsorted : s.Sorted)
    (hs : s.NodesBounded c) : (s.commitSplit n m v).1.NodesBounded c := by
  by_cases hnil : s.nodes n = []
  · refine ⟨by simpa [commitSplit, hnil, Node.halve, Node.max, setNode] using hs.1, fun k => ?_⟩
    have hnodes : (s.commitSplit n m v).1.nodes = Function.update s.nodes n [] := by
      simp [commitSplit, hnil, Node.halve, Node.max, setNode]
    rw [hnodes]
    by_cases hk : k = n
    · subst hk
      simp
    · simpa [hk] using hs.2 k
  · obtain ⟨lowerMax, lower, upperMax, upper, hstate, -, hput, -, -, hhalf⟩ :=
      commitSplit_spec s n m v (hsorted n) hnil
    obtain ⟨hlower, hupper⟩ := length_halves (hsorted n) hnil hput hhalf (hs.2 n)
    rw [hstate]
    refine ⟨hs.1, fun k => ?_⟩
    simp only [splitState]
    by_cases hk : k = s.nextNode
    · subst hk
      simpa using hupper
    · by_cases hn : k = n
      · subst hn
        simpa [hk] using hlower
      · simpa [hk, hn] using hs.2 k

/-- **One step** keeps the bound: an edit adds to a node only when that has room. -/
theorem Turn.nodesBounded (h : Turn s events call phase s' next changes) (hsorted : s.Sorted)
    (hs : s.NodesBounded c) : s'.NodesBounded c := by
  have hcapacity := hs.1
  have hlen := hs.2
  cases h with
  | first hcreated =>
    refine ⟨hcreated.nodeCapacity.trans hcapacity, fun k => ?_⟩
    rw [hcreated.nodes]
    by_cases hk : k = s.nextNode
    · subst hk
      simp
    · simpa [hk] using hlen k
  | @added _ _ e a b _ hroom hl _ _ _ hwrote =>
    apply hwrote.nodesBounded hs
    rw [hl] at hroom
    simp only [List.length_append, List.length_cons] at hroom ⊢
    omega
  | raised hroom _ _ hwrote =>
    apply hwrote.nodesBounded hs
    rw [List.length_append, List.length_singleton]
    omega
  | @replaced _ _ _ e _ _ _ _ hl _ _ _ _ hwrote =>
    apply hwrote.nodesBounded hs
    have hold := hlen e.2
    rw [hl] at hold
    simpa using hold
  | @inside _ e _ _ _ _ _ hl _ _ _ hwrote =>
    apply hwrote.nodesBounded hs
    have hold := hlen e.2
    rw [hl] at hold
    simp only [List.length_append, List.length_cons] at hold ⊢
    omega
  | @lowered _ e _ _ _ hl _ _ hwrote =>
    apply hwrote.nodesBounded hs
    have hold := hlen e.2
    rw [hl] at hold
    simp only [List.length_append, List.length_singleton] at hold
    omega
  | emptied _ _ hwrote =>
    apply hwrote.nodesBounded hs
    simp
  | split => exact BTreeSet.nodesBounded_commitSplit hsorted hs
  | _ => exact hs

end Size

/-- **Size**: in every interleaving no node outgrows the maximum node size, however many
threads found it full at once, and whatever it has become when they split it. -/
theorem nodes_bounded [DecidableEq ι] [Fintype ι] {shared : BTreeSet M T} {capacity : ℕ}
    (hs : shared.Coherent) (hsorted : shared.Sorted) (hbounded : shared.NodesBounded capacity)
    {schedule : List (Label ι T K)} {final : State ι M T K}
    (hrun : Transition.run State.step (State.start shared) schedule = some final) :
    ∀ n, (final.shared.nodes n).length ≤ max capacity 2 := by
  have hfinal : final.Sound ∧ final.shared.NodesBounded capacity := by
    refine Transition.run_invariant (P := fun _ _ => True)
      (I := fun s : State ι M T K => s.Sound ∧ s.shared.NodesBounded capacity)
      (fun s l s' hI _ h => ?_) ⟨State.sound_start hs hsorted, hbounded⟩
      (Transition.along_of_forall_mem fun _ _ => trivial) hrun
    refine ⟨hI.1.step h, ?_⟩
    cases l with
    | call t call =>
      obtain ⟨-, rfl⟩ := State.step_call h
      exact hI.2
    | turn t =>
      obtain ⟨call, phase, shared, next, -, ⟨changes, hturn, -⟩, rfl⟩ :=
        State.step_turn_of hI.1.sorted hI.1.defers h
      exact hturn.nodesBounded hI.1.sorted hI.2
  exact hfinal.2.2

/-- Two threads find a node full; the second one finds it split and tries again. -/
def splitTwice : List (Label (Fin 2) ℕ ℕ) :=
  [.call 0 (.insert false 3), .turn 0, .turn 0, .call 0 (.insert false 4), .turn 0, .turn 0,
    .call 1 (.insert false 1), .turn 1, .turn 1, .turn 0, .turn 1, .turn 1, .turn 1]

theorem nodes_bounded_splitTwice :
    ∃ final : State (Fin 2) (SortedIndex ℕ) ℕ ℕ,
      Transition.run State.step (State.start (BTreeSet.single false 2 5)) splitTwice =
          some final ∧
        ∀ n, (final.shared.nodes n).length ≤ 2 := by
  obtain ⟨final, hrun, -⟩ := Transition.exists_run
    (fun s : State (Fin 2) (SortedIndex ℕ) ℕ ℕ => s.shared.len == 4)
    State.step (State.start (BTreeSet.single false 2 5)) splitTwice
    (by decide)
  have hrest := BTreeSet.single_atRest (M := SortedIndex ℕ) (K := ℕ) false 2 5
  have hbounded : (BTreeSet.single false 2 5 : BTreeSet (SortedIndex ℕ) ℕ).NodesBounded 2 := by
    refine ⟨rfl, fun n => ?_⟩
    rcases Nat.eq_zero_or_pos n with rfl | hn
    · decide
    · have hnil : (BTreeSet.single false 2 5 : BTreeSet (SortedIndex ℕ) ℕ).nodes n = [] :=
        Function.update_of_ne hn.ne' _ _
      rw [hnil]
      exact Nat.zero_le _
  exact ⟨final, hrun, nodes_bounded hrest.coherent hrest.sorted hbounded hrun⟩

/-! ## §4 Panics -/

/-- The index leads to no empty node. -/
def BTreeSet.NoneEmpty (s : BTreeSet M T) : Prop := ∀ e ∈ s.entries, s.nodes e.2 ≠ []

section Panics

variable {s s' : BTreeSet M T} {events : List (ChangeEvent T)} {call : Call T K}
  {phase : Phase T} {next : Next T} {changes : List (ChangeEventUnassigned T)}
  {f : NodeId → WithBot K}

omit [LawfulSkipMap M T K] in
theorem BTreeSet.Wrote.noneEmpty [LawfulSkipMap M T K] {n : NodeId} {items : List T}
    (h : s.Wrote n items s') (hs : s.NoneEmpty) (hne : items ≠ []) : s'.NoneEmpty := by
  intro e he
  rw [h.entries] at he
  rw [h.nodes]
  by_cases hn : e.2 = n
  · rw [hn, Function.update_self]
    exact hne
  · rw [Function.update_of_ne hn]
    exact hs e he

omit [LinearOrder K] [Keyed T K] [LawfulSkipMap M T K] in
theorem BTreeSet.Wrote.allocates {n : NodeId} {items : List T} (h : s.Wrote n items s')
    (hs : s.Allocates) : s'.Allocates := by
  rwa [Allocates, h.nodeCapacity, h.elementSize]

/-- A split registers a half only when that is not empty. -/
theorem BTreeSet.noneEmpty_commitSplit {n : NodeId} {m v : T} (hs : s.NoneEmpty)
    (hsorted : s.Sorted) (hfiled : Filed f s.index s.nextNode) (hreg : s.Registered n (key m)) :
    (s.commitSplit n m v).1.NoneEmpty := by
  obtain ⟨p, hp, rfl, hkey⟩ := hreg
  obtain ⟨lowerMax, lower, upperMax, upper, hstate, -, -, hlower, hupper, -⟩ :=
    commitSplit_spec s p.2 m v (hsorted p.2) (hs p hp)
  have hupperNe : upper ≠ [] := fun hnil => by simp [hnil] at hupper
  -- what stays in the index under its old key is neither half
  have hold : ∀ e ∈ SkipMap.iter (SkipMap.remove s.index (key m)),
      Function.update (Function.update s.nodes p.2 lower) s.nextNode upper e.2 ≠ [] := by
    intro e he
    have hne := hfiled.remove_ne (hkey ▸ (hfiled p hp).1) e he
    rw [LawfulSkipMap.iter_remove, mem_erase] at he
    rw [Function.update_of_ne (hfiled e he.1).2.ne, Function.update_of_ne hne]
    exact hs e he.1
  rw [hstate]
  intro e he
  simp only [entries, splitState, LawfulSkipMap.iter_insert] at he
  show Function.update (Function.update s.nodes p.2 lower) s.nextNode upper e.2 ≠ []
  rcases mem_put.mp he with rfl | ⟨he, -⟩
  · rwa [Function.update_self]
  · cases lowerMax with
    | none => exact hold e he
    | some lo =>
      rw [LawfulSkipMap.iter_insert] at he
      rcases mem_put.mp he with rfl | ⟨he, -⟩
      · rw [Function.update_of_ne (hfiled p hp).2.ne, Function.update_self]
        intro hnil
        simp [hnil] at hlower
      · exact hold e he

/-- **One step of a call that takes nothing out** leaves no indexed node empty, and does not
panic if the first node can be allocated. -/
theorem Turn.noneEmpty (h : Turn s events call phase s' next changes) (hs : s.NoneEmpty)
    (hsorted : s.Sorted) (hfiled : Filed f s.index s.nextNode)
    (hcall : ∀ q, call ≠ .remove q) :
    s'.NoneEmpty ∧ s'.poisoned = s.poisoned ∧
      (s.Allocates → s'.Allocates ∧ next ≠ .panic) := by
  cases h with
  | overflow hoverflow => exact ⟨hs, rfl, fun hfits => absurd hfits hoverflow⟩
  | first hcreated =>
    refine ⟨fun e he => ?_, hcreated.poisoned, fun hfits => ⟨?_, by simp⟩⟩
    swap
    · rwa [BTreeSet.Allocates, hcreated.nodeCapacity, hcreated.elementSize]
    rw [BTreeSet.entries, hcreated.index, LawfulSkipMap.iter_insert] at he
    rw [hcreated.nodes]
    rcases mem_put.mp he with rfl | ⟨he, -⟩
    · simp
    · rw [Function.update_of_ne (hfiled e he).2.ne]
      exact hs e he
  | added _ _ _ _ _ hwrote =>
    exact ⟨hwrote.noneEmpty hs (by simp), hwrote.poisoned, fun h => ⟨hwrote.allocates h, by simp⟩⟩
  | raised _ _ _ hwrote =>
    exact ⟨hwrote.noneEmpty hs (by simp), hwrote.poisoned, fun h => ⟨hwrote.allocates h, by simp⟩⟩
  | replaced _ _ _ _ _ hwrote =>
    exact ⟨hwrote.noneEmpty hs (by simp), hwrote.poisoned, fun h => ⟨hwrote.allocates h, by simp⟩⟩
  | inside => exact absurd rfl (hcall _)
  | lowered => exact absurd rfl (hcall _)
  | emptied => exact absurd rfl (hcall _)
  | splitPanic hreg hnil =>
    obtain ⟨e, he, rfl, -⟩ := hreg
    exact absurd hnil (hs e he)
  | @split _ v m n _ _ hreg =>
    have hnone := BTreeSet.noneEmpty_commitSplit (v := v) hs hsorted hfiled hreg
    obtain ⟨e, he, rfl, -⟩ := hreg
    obtain ⟨_, _, _, _, hstate, -⟩ :=
      BTreeSet.commitSplit_spec s e.2 m v (hsorted e.2) (hs e he)
    rw [hstate] at hnone ⊢
    exact ⟨hnone, rfl, fun hfits => ⟨hfits, by simp⟩⟩
  | @rekeyed _ m max n _ _ _ _ hmax _ =>
    refine ⟨fun e he => ?_, rfl, fun hfits => ⟨hfits, by simp⟩⟩
    rw [BTreeSet.entries, BTreeSet.rekeyState, LawfulSkipMap.iter_insert] at he
    show s.nodes e.2 ≠ []
    rcases mem_put.mp he with rfl | ⟨he, -⟩
    · intro hnil
      simp [hnil] at hmax
    · rw [LawfulSkipMap.iter_remove, mem_erase] at he
      exact hs e he.1
  | @dropped _ m =>
    refine ⟨fun e he => ?_, rfl, fun hfits => ⟨hfits, by simp⟩⟩
    rw [BTreeSet.entries, BTreeSet.dropState, LawfulSkipMap.iter_remove, mem_erase] at he
    exact hs e he.1
  | _ => exact ⟨hs, rfl, fun hfits => ⟨hfits, by simp⟩⟩

end Panics

namespace State

/-- Nobody takes anything out, and nothing has panicked if the first node can be allocated. -/
structure Unharmed (fits : Prop) (s : State ι M T K) : Prop where
  sound : s.Sound
  noneEmpty : s.shared.NoneEmpty
  unpoisoned : s.shared.poisoned = false
  allocates : fits → s.shared.Allocates
  running : fits → ∀ t, s.threads t ≠ .panicked
  calls : ∀ t call phase, s.threads t = .running call phase → ∀ q, call ≠ .remove q

theorem Unharmed.step [DecidableEq ι] [Fintype ι] {s s' : State ι M T K} {l : Label ι T K}
    {fits : Prop} (hs : s.Unharmed fits) (hl : ∀ t q, l ≠ .call t (.remove q))
    (h : s.step l = some s') : s'.Unharmed fits := by
  have hsound := hs.sound.step h
  cases l with
  | call t call =>
    obtain ⟨-, rfl⟩ := step_call h
    refine ⟨hsound, hs.noneEmpty, hs.unpoisoned, hs.allocates, fun hfits u => ?_,
      fun u c phase hu q => ?_⟩
    · by_cases hut : u = t
      · subst hut
        simp [invoke]
      · simpa [invoke, hut] using hs.running hfits u
    · by_cases hut : u = t
      · subst hut
        simp only [invoke, Function.update_self, Thread.running.injEq] at hu
        rintro rfl
        exact hl u q (by rw [hu.1])
      · exact hs.calls u c phase (by simpa [invoke, hut] using hu) q
  | turn t =>
    obtain ⟨call, phase, shared, next, ht, ⟨changes, hturn, -⟩, rfl⟩ :=
      step_turn_of hs.sound.sorted hs.sound.defers h
    obtain ⟨f, hfiled⟩ := hs.sound.filed
    have hcall := hs.calls t call phase ht
    obtain ⟨hnone, hpoisoned, hnext⟩ :=
      hturn.noneEmpty hs.noneEmpty hs.sound.sorted hfiled hcall
    refine ⟨hsound, hnone, hpoisoned.trans hs.unpoisoned,
      fun hfits => (hnext (hs.allocates hfits)).1, fun hfits => ?_, ?_⟩
    · refine forall_threads_advance (P := fun _ th => th ≠ .panicked) ?_
        fun u _ => hs.running hfits u
      cases next with
      | goto phase' => simp [Next.thread]
      | done ret cdc => simp [Next.thread]
      | panic => exact absurd rfl (hnext (hs.allocates hfits)).2
    · refine forall_threads_advance (P := fun _ th => ∀ c ph, th = .running c ph →
        ∀ q, c ≠ .remove q) (fun c ph he => ?_) fun u _ => hs.calls u
      cases next <;> cases he
      exact hcall

end State

/-- **Panics**: whatever the maximum node size and the interleaving, the index lock is poisoned only
in a run in which a remove was called, and a thread panics only in such a run or when a node of the
maximum size cannot be allocated. -/
theorem panics_after_remove [DecidableEq ι] [Fintype ι] {shared : BTreeSet M T}
    (hrest : shared.AtRest) (hpoisoned : shared.poisoned = false)
    {schedule : List (Label ι T K)} {final : State ι M T K}
    (hrun : Transition.run State.step (State.start shared) schedule = some final) :
    (final.shared.poisoned = true → ∃ t q, Label.call t (.remove q) ∈ schedule) ∧
      ((∃ t, final.threads t = .panicked) →
        (∃ t q, Label.call t (.remove q) ∈ schedule) ∨ ¬ shared.Allocates) := by
  by_cases hremove : ∃ t q, Label.call t (.remove q) ∈ schedule
  · exact ⟨fun _ => hremove, fun _ => Or.inl hremove⟩
  have hcalls : ∀ l ∈ schedule, ∀ t q, l ≠ .call t (.remove q) := by
    rintro l hl t q rfl
    exact hremove ⟨t, q, hl⟩
  have hstart : (State.start shared : State ι M T K).Unharmed shared.Allocates :=
    ⟨State.sound_start hrest.coherent hrest.sorted, fun e he => hrest.ne_nil he, hpoisoned, id,
      fun _ _ => by simp [State.start], fun _ _ _ h => by simp [State.start] at h⟩
  have hfinal : final.Unharmed shared.Allocates :=
    Transition.run_invariant (P := fun (_ : State ι M T K) l => ∀ t q, l ≠ .call t (.remove q))
      (fun s l s' hI hl h => hI.step hl h) hstart
      (Transition.along_of_forall_mem hcalls) hrun
  constructor
  · intro hpanic
    rw [hfinal.unpoisoned] at hpanic
    cases hpanic
  · rintro ⟨t, ht⟩
    exact Or.inr fun hfits => hfinal.running hfits t ht

/-- An insert waits to split a node that a remove empties in the meantime. -/
def splitBesideRemove : List (Label (Fin 2) ℕ ℕ) :=
  [.call 0 (.insert false 7), .turn 0, .turn 0, .call 1 (.remove 5), .turn 1, .turn 1, .turn 0]

theorem panics_after_remove_split :
    ∃ final : State (Fin 2) (SortedIndex ℕ) ℕ ℕ,
      Transition.run State.step (State.start (BTreeSet.single true 1 5)) splitBesideRemove =
          some final ∧
        ∃ t q, Label.call t (.remove q) ∈ splitBesideRemove := by
  obtain ⟨final, hrun, hpanic⟩ := Transition.exists_run
    (fun s : State (Fin 2) (SortedIndex ℕ) ℕ ℕ => s.shared.poisoned)
    State.step (State.start (BTreeSet.single true 1 5)) splitBesideRemove
    (by decide)
  exact ⟨final, hrun,
    (panics_after_remove (BTreeSet.single_atRest true 1 5) rfl hrun).1 hpanic⟩

end IndexSet.Concurrent
