import IndexSet.Concurrent.Linear
import IndexSet.Concurrent.Locks

/-!
# When Range Constructions Can Deadlock

Threads take the index lock before node mutexes, so only a construction that holds one node
mutex and asks for another can close a cycle.  For the start bound it goes from a node to
the one before it, for the end bound from a node to the one behind it.

- §1 every node has one key while the index lock is held shared: `Filed`;
- §2 guards exclude each other, and a construction on its way to the node before its front
  node goes down in that key;
- §3 what each phase leaves of this, §4 for all threads: `Inv`;
- §5 as long as no construction asks for the node behind its back node, the locks are taken in
  the order of the keys;
- §6 runs, and one in which a remove that has emptied a node sends two constructions into each
  other.
-/

namespace IndexSet.Concurrent

open KeyedList

variable {M T K : Type} [LinearOrder K] [Keyed T K] [LawfulSkipMap M T K]

/-! ## §1 The keys of the nodes -/

/-- Entries name nodes below the bound, and no node under two keys. -/
def Filed (f : NodeId → WithBot K) (index : M) (bound : NodeId) : Prop :=
  ∀ e ∈ SkipMap.iter index, f e.2 = key e.1 ∧ e.2 < bound

section Filed

variable {f : NodeId → WithBot K} {index : M} {bound bound' : NodeId}

theorem Filed.remove (h : Filed f index bound) (q : K) :
    Filed f (SkipMap.remove index q) bound := by
  intro e he
  rw [LawfulSkipMap.iter_remove, mem_erase] at he
  exact h e he.1

/-- Removing its key takes a node out of the index. -/
theorem Filed.remove_ne (h : Filed f index bound) {n : NodeId} {q : K} (hn : f n = ↑q) :
    ∀ e ∈ SkipMap.iter (SkipMap.remove index q), e.2 ≠ n := by
  rintro e he rfl
  rw [LawfulSkipMap.iter_remove, mem_erase] at he
  exact he.2 (WithBot.coe_injective ((h e he.1).1.symm.trans hn))

/-- A node that is not in the index gets an entry. -/
theorem Filed.insert (h : Filed f index bound) {n : NodeId}
    (hn : ∀ e ∈ SkipMap.iter index, e.2 ≠ n) (hbound : bound ≤ bound') (hlt : n < bound')
    (m : T) : Filed (Function.update f n ↑(key m)) (SkipMap.insert index m n) bound' := by
  intro e he
  rw [LawfulSkipMap.iter_insert] at he
  rcases mem_put.mp he with rfl | ⟨he, -⟩
  · exact ⟨by simp, hlt⟩
  · rw [Function.update_of_ne (hn e he)]
    exact ⟨(h e he).1, (h e he).2.trans_le hbound⟩

theorem Filed.fresh (h : Filed f index bound) : ∀ e ∈ SkipMap.iter index, e.2 ≠ bound :=
  fun e he => (h e he).2.ne

end Filed

variable {s s' : BTreeSet M T} {events : List (ChangeEvent T)} {f : NodeId → WithBot K}

/-- The node of a split loses its key and two keys come in. -/
theorem Filed.splitState (h : Filed f s.index s.nextNode) {n : NodeId} {m : T}
    (hn : s.Registered n (key m)) (lowerMax : Option T) (lower : List T) (upperMax : T)
    (upper : List T) :
    ∃ f', Filed f' (s.splitState n m lowerMax lower upperMax upper).index (s.nextNode + 1) := by
  obtain ⟨e, he, rfl, hkey⟩ := hn
  have ⟨hfe, hlt⟩ := h e he
  have hremoved := h.remove (key m)
  cases lowerMax with
  | none => exact ⟨_, hremoved.insert hremoved.fresh (Nat.le_succ _) (Nat.lt_succ_self _) upperMax⟩
  | some lo =>
    have hlower := hremoved.insert (h.remove_ne (hkey ▸ hfe)) le_rfl hlt lo
    exact ⟨_, hlower.insert hlower.fresh (Nat.le_succ _) (Nat.lt_succ_self _) upperMax⟩

/-- **Keys of nodes**: after a step every node still has one key, and only a commit gives a
node that was there another one. -/
theorem Turn.filed {call : Call T K} {phase : Phase T} {next : Next T}
    {changes : List (ChangeEventUnassigned T)} (h : Turn s events call phase s' next changes)
    (hs : Filed f s.index s.nextNode) (hsorted : s.Sorted) :
    ∃ f', Filed f' s'.index s'.nextNode ∧ s.nextNode ≤ s'.nextNode ∧
      ((∀ op d cdc, phase ≠ .commit op d cdc) → ∀ n < s.nextNode, f' n = f n) := by
  have hwrote : ∀ {n : NodeId} {items : List T}, s.Wrote n items s' →
      ∃ f', Filed f' s'.index s'.nextNode ∧ s.nextNode ≤ s'.nextNode ∧
        ((∀ op d cdc, phase ≠ .commit op d cdc) → ∀ n < s.nextNode, f' n = f n) :=
    fun hw => ⟨f, by rw [hw.index, hw.nextNode]; exact hs, hw.nextNode.ge, fun _ _ _ => rfl⟩
  cases h with
  | @first _ v _ hcreated =>
    refine ⟨Function.update f s.nextNode ↑(key v), ?_, hcreated.nextNode ▸ Nat.le_succ _,
      fun _ n hn => Function.update_of_ne hn.ne _ _⟩
    rw [hcreated.index, hcreated.nextNode]
    exact hs.insert hs.fresh (Nat.le_succ _) (Nat.lt_succ_self _) _
  | added _ _ _ _ _ hw => exact hwrote hw
  | raised _ _ _ hw => exact hwrote hw
  | replaced _ _ _ _ _ hw => exact hwrote hw
  | inside _ _ _ _ hw => exact hwrote hw
  | lowered _ _ _ hw => exact hwrote hw
  | emptied _ _ hw => exact hwrote hw
  | @split _ v m n cdc _ hreg =>
    by_cases hnil : s.nodes n = []
    · refine ⟨f, ?_, ?_, fun hc => absurd rfl (hc _ _ _)⟩
      · simpa [BTreeSet.commitSplit, hnil, Node.halve, Node.max, BTreeSet.setNode]
          using hs.remove (key m)
      · simp [BTreeSet.commitSplit, hnil, Node.halve, Node.max, BTreeSet.setNode]
    · obtain ⟨lowerMax, lower, upperMax, upper, hstate, -⟩ :=
        BTreeSet.commitSplit_spec s n m v (hsorted n) hnil
      obtain ⟨f', hf'⟩ := hs.splitState hreg lowerMax lower upperMax upper
      refine ⟨f', ?_, ?_, fun hc => absurd rfl (hc _ _ _)⟩
      · rw [hstate]
        exact hf'
      · rw [hstate]
        exact Nat.le_succ _
  | @rekeyed _ m max n _ _ _ hreg _ _ =>
    obtain ⟨e, he, rfl, hkey⟩ := hreg
    obtain ⟨hfe, hlt⟩ := hs e he
    exact ⟨_, (hs.remove (key m)).insert (hs.remove_ne (hkey ▸ hfe)) le_rfl hlt max, le_rfl,
      fun hc => absurd rfl (hc _ _ _)⟩
  | @dropped _ m => exact ⟨f, hs.remove (key m), le_rfl, fun _ _ _ => rfl⟩
  | _ => exact ⟨f, hs, le_rfl, fun _ _ _ => rfl⟩

namespace Locks

variable {ι Q : Type} [LinearOrder Q]

/-! ## §2 Guards and phases -/

omit [LawfulSkipMap M T K] [LinearOrder K] [Keyed T K] in
theorem Guard.excludes_comm (g g' : Guard) : g.excludes g' = g'.excludes g := by
  cases g <;> cases g' <;> simp [Guard.excludes, eq_comm]

section Range

variable {borrow : T → Q} {lo hi : Bound Q} {phase phase' : RangePhase T}

/-- The phases after both ends of a range are known. -/
def AtEnd (phase : RangePhase T) : Prop :=
  ∃ range e, phase = .last range e ∨ phase = .first range e

omit [LawfulSkipMap M T K] [LinearOrder K] [Keyed T K] in
theorem toLast_atEnd [SkipMap M T K] {range : Range T} (h : s.toLast lo hi range = .inl phase) :
    AtEnd phase := by
  have hfirst : s.toFirst range = .inl phase → AtEnd phase := fun h => by
    unfold BTreeSet.toFirst at h
    split at h <;> cases h
    exact ⟨_, _, Or.inr rfl⟩
  unfold BTreeSet.toLast at h
  split at h
  · split at h
    · cases h
      exact ⟨_, _, Or.inl rfl⟩
    · exact hfirst h
  · cases h

/-- Where a construction goes from the front end. -/
theorem toBack_cases {frontNode : Option NodeId} {frontValue : Option T}
    (h : s.toBack borrow lo hi frontNode frontValue = .inl phase) :
    (∃ e, phase = .back frontNode frontValue e) ∨ AtEnd phase := by
  unfold BTreeSet.toBack at h
  split at h
  · cases h
    exact Or.inl ⟨_, rfl⟩
  · exact Or.inr (toLast_atEnd h)

/-- **Inversion** of a step of a construction that goes on. -/
theorem rangeTurn_cases (h : s.rangeTurn borrow lo hi phase = .inl phase') :
    (∃ e ∈ s.entries, phase = .start ∧ phase' = .front e) ∨
      (∃ e, ∃ p ∈ s.entries, phase = .front e ∧ key p.1 < key e.1 ∧ phase' = .preFront e p) ∨
      (∃ node value e n, phase = .back node value e ∧
        Node.rank borrow (s.nodes e.2) hi false = none ∧
        SkipMap.next s.index e = some n ∧ phase' = .postBack node value e n) ∨
      (∃ node value e, phase' = .back node value e) ∨ AtEnd phase' := by
  have hback : ∀ {node : Option NodeId} {value : Option T},
      s.toBack borrow lo hi node value = .inl phase' →
      (∃ node value e, phase' = .back node value e) ∨ AtEnd phase' := fun h =>
    (toBack_cases h).imp_left fun ⟨e, he⟩ => ⟨_, _, e, he⟩
  cases phase with
  | start =>
    simp only [BTreeSet.rangeTurn] at h
    split at h
    next e he =>
      cases h
      exact Or.inl ⟨e, LawfulSkipMap.lowerBoundOf_mem he, rfl, rfl⟩
    next => exact Or.inr (Or.inr (Or.inr (hback h)))
  | front e =>
    simp only [BTreeSet.rangeTurn] at h
    split at h
    next => exact Or.inr (Or.inr (Or.inr (hback h)))
    next =>
      split at h
      next p hp =>
        cases h
        rw [LawfulSkipMap.prev_eq] at hp
        have hfound := List.find?_some hp
        have hlt : key p.1 < key e.1 := of_decide_eq_true hfound
        have hmem := List.mem_reverse.mp (List.mem_of_find?_eq_some hp)
        exact Or.inr (Or.inl ⟨e, p, hmem, rfl, hlt, rfl⟩)
      next => exact Or.inr (Or.inr (Or.inr (hback h)))
  | preFront e p => exact Or.inr (Or.inr (Or.inr (hback h)))
  | back node value e =>
    simp only [BTreeSet.rangeTurn] at h
    split at h
    next => exact Or.inr (Or.inr (Or.inr (Or.inr (toLast_atEnd h))))
    next hrank =>
      split at h
      next n hn =>
        cases h
        exact Or.inr (Or.inr (Or.inl ⟨node, value, e, n, rfl, hrank, hn, rfl⟩))
      next => exact Or.inr (Or.inr (Or.inr (Or.inr (toLast_atEnd h))))
  | postBack node value e n => exact Or.inr (Or.inr (Or.inr (Or.inr (toLast_atEnd h))))
  | last range e =>
    simp only [BTreeSet.rangeTurn, BTreeSet.toFirst] at h
    split at h <;> cases h
    exact Or.inr (Or.inr (Or.inr (Or.inr ⟨_, _, Or.inr rfl⟩)))
  | first range e => cases h

end Range

/-- The nodes a construction knows have the keys it found them under, and the node before the
front node a lower one. -/
def Ordered (f : NodeId → WithBot K) (bound : NodeId) : RangePhase T → Prop
  | .front e => f e.2 = key e.1 ∧ e.2 < bound
  | .preFront e p =>
      (f e.2 = key e.1 ∧ e.2 < bound) ∧ (f p.2 = key p.1 ∧ p.2 < bound) ∧ key p.1 < key e.1
  | _ => True

/-- What holds of a thread's job: the operation it waits with is its own, the entries of its
construction are `Ordered`. -/
def Job.Fits (f : NodeId → WithBot K) (bound : NodeId) : Job T K Q → Prop
  | .call c (.commit op d _) => c.Defers op d
  | .range _ _ phase => Ordered f bound phase
  | _ => True

/-- A thread has at least the locks its phase began with. -/
def Thread.Fits (f : NodeId → WithBot K) (bound : NodeId) : Thread T K Q → Prop
  | .running job acquired => job.kept ≤ acquired ∧ job.Fits f bound
  | _ => True

omit [LawfulSkipMap M T K] [LinearOrder Q] in
/-- A construction under way holds the index lock, so no commit changes a key it knows. -/
theorem Thread.Fits.mono {thread : Thread T K Q} {f f' : NodeId → WithBot K} {bound bound' : NodeId}
    (h : thread.Fits f bound) (hbound : bound ≤ bound')
    (hf : .shared ∈ thread.guards → ∀ n < bound, f' n = f n) : thread.Fits f' bound' := by
  cases thread with
  | idle => trivial
  | panicked => trivial
  | running job acquired =>
    obtain ⟨hkept, hfits⟩ := h
    refine ⟨hkept, ?_⟩
    have hshared : ∀ {l : List Guard}, 1 ≤ acquired → job.guards = .shared :: l →
        .shared ∈ (Thread.running job acquired).guards := fun hone hl => by
      obtain ⟨k, rfl⟩ := Nat.exists_eq_add_of_le' hone
      simp [Thread.guards, hl]
    cases job with
    | call c phase => cases phase <;> exact hfits
    | replace c e => trivial
    | range lo hi phase =>
      cases phase with
      | front e =>
        have hold := hf (hshared hkept rfl)
        exact ⟨(hold _ hfits.2).trans hfits.1, hfits.2.trans_le hbound⟩
      | preFront e p =>
        have hold := hf (hshared (le_trans (Nat.le_succ 1) hkept) rfl)
        obtain ⟨⟨he, hle⟩, ⟨hp, hlp⟩, hlt⟩ := hfits
        exact ⟨⟨(hold _ hle).trans he, hle.trans_le hbound⟩,
          ⟨(hold _ hlp).trans hp, hlp.trans_le hbound⟩, hlt⟩
      | _ => trivial

/-! ## §3 What a phase leaves -/

section Run

variable {borrow : T → Q} {alone : Bool} {job : Job T K Q} {thread : Thread T K Q}

/-- What a thread has run: the keys of the nodes, its own next phase, and that it holds
nothing it did not hold before. -/
structure Ran (f : NodeId → WithBot K) (s : BTreeSet M T) (job : Job T K Q) (s' : BTreeSet M T)
    (thread : Thread T K Q) (f' : NodeId → WithBot K) : Prop where
  filed : Filed f' s'.index s'.nextNode
  sorted : s'.Sorted
  grows : s.nextNode ≤ s'.nextNode
  keeps : .exclusive ∉ job.guards → ∀ n < s.nextNode, f' n = f n
  fits : thread.Fits f' s'.nextNode
  releases : ∀ g ∈ thread.guards, g ∈ job.guards

omit [LinearOrder Q] in
/-- A step of a call. -/
theorem ran_turn (hfiled : Filed f s.index s.nextNode) (hsorted : s.Sorted) {call : Call T K}
    {phase : Phase T} {next : Next T}
    (hdefers : ∀ op d cdc, phase = .commit op d cdc → call.Defers op d)
    (h : turn s alone call phase = some (s', next)) :
    ∃ f', Ran f s (.call call phase : Job T K Q) s' (afterCall call next) f' := by
  obtain ⟨changes, hturn, -, -⟩ := turn_spec hsorted hdefers h
  obtain ⟨f', hfiled', hgrows, hkeeps⟩ := hturn.filed hfiled hsorted
  refine ⟨f', hfiled', hturn.sorted hsorted, hgrows, fun hguards => hkeeps ?_, ?_, ?_⟩
  · rintro op d cdc rfl
    exact hguards (by simp [Job.guards, phaseGuards])
  · cases next with
    | goto phase' =>
      refine ⟨le_rfl, ?_⟩
      cases phase' with
      | commit op d cdc => exact hturn.defers
      | _ => trivial
    | done ret cdc => trivial
    | panic => trivial
  · cases hturn <;> simp [afterCall, go, Thread.guards, Job.guards, phaseGuards, Job.kept]

omit [LinearOrder Q] in
/-- After an edit a call holds no lock. -/
theorem edit_releases (hsorted : s.Sorted) {call : Call T K} {e : T × NodeId} {next : Next T}
    (h : turn s alone call (.edit e) = some (s', next)) :
    (afterCall call next : Thread T K Q).guards = [] := by
  obtain ⟨changes, hturn, -, -⟩ := turn_spec hsorted (by simp) h
  cases hturn <;> rfl

/-- **What a thread runs** once it has its locks. -/
theorem Job.run_spec (hfiled : Filed f s.index s.nextNode) (hsorted : s.Sorted)
    (hfits : job.Fits f s.nextNode) (h : job.run s borrow alone = some (s', thread)) :
    ∃ f', Ran f s job s' thread f' := by
  cases job with
  | call c phase =>
    have hdefers : ∀ op d cdc, phase = .commit op d cdc → c.Defers op d := by
      rintro op d cdc rfl
      exact hfits
    simp only [Job.run] at h
    split at h
    next e hconflict =>
      cases h
      obtain ⟨rfl⟩ : phase = .edit e := by
        unfold conflict at hconflict
        split at hconflict
        · split at hconflict <;> cases hconflict
          rfl
        · cases hconflict
      -- a conflict goes on with the same guard
      exact ⟨f, hfiled, hsorted, le_rfl, fun _ _ _ => rfl, ⟨le_rfl, trivial⟩,
        by simp [go, Thread.guards, Job.guards, Job.kept, phaseGuards]⟩
    next =>
      obtain ⟨⟨s₁, next⟩, hturn, heq⟩ := Option.map_eq_some_iff.mp h
      cases heq
      exact ran_turn hfiled hsorted hdefers hturn
  | replace c e =>
    obtain ⟨⟨s₁, next⟩, hturn, heq⟩ := Option.map_eq_some_iff.mp h
    cases heq
    obtain ⟨f', hran⟩ := ran_turn (Q := Q) hfiled hsorted (by simp) hturn
    refine ⟨f', hran.filed, hran.sorted, hran.grows, fun _ => hran.keeps ?_, hran.fits, ?_⟩
    · simp [Job.guards, phaseGuards]
    · rw [edit_releases hsorted hturn]
      simp
  | range lo hi phase =>
    cases h
    suffices h : (afterRange lo hi (s.rangeTurn borrow lo hi phase)).Fits f s.nextNode ∧
        ∀ g ∈ (afterRange lo hi (s.rangeTurn borrow lo hi phase) : Thread T K Q).guards,
          g ∈ rangeGuards phase from
      ⟨f, hfiled, hsorted, le_rfl, fun _ _ _ => rfl, h.1, h.2⟩
    cases hnext : s.rangeTurn borrow lo hi phase with
    | inr range => exact ⟨trivial, by simp [afterRange, Thread.guards]⟩
    | inl phase' =>
      have hmem : ∀ e ∈ s.entries, f e.2 = key e.1 ∧ e.2 < s.nextNode := fun e he => hfiled e he
      have hshared : .shared ∈ rangeGuards phase := by cases phase <;> simp [rangeGuards]
      rcases rangeTurn_cases hnext with ⟨e, he, rfl, rfl⟩ | ⟨e, p, hp, rfl, hlt, rfl⟩ |
        ⟨node, value, e, n, rfl, -, -, rfl⟩ | ⟨node, value, e, rfl⟩ | ⟨range, e, rfl | rfl⟩
      · -- the front node, and then the node before it
        exact ⟨⟨le_rfl, hmem e he⟩, by simp [afterRange, go, Thread.guards, Job.guards, Job.kept,
          rangeGuards]⟩
      · exact ⟨⟨le_rfl, hfits, hmem p hp, hlt⟩, by simp [afterRange, go, Thread.guards, Job.guards,
          Job.kept, rangeGuards]⟩
      · exact ⟨⟨le_rfl, trivial⟩, by simp [afterRange, go, Thread.guards, Job.guards, Job.kept,
          rangeGuards]⟩
      all_goals
        refine ⟨⟨le_rfl, trivial⟩, fun g hg => ?_⟩
        obtain rfl : g = .shared := by
          simpa [afterRange, go, Thread.guards, Job.guards, Job.kept, rangeGuards] using hg
        exact hshared

end Run

/-! ## §4 All threads -/

namespace State

variable [DecidableEq ι] [Fintype ι] {borrow : T → Q} {t : ι}

/-- What holds in every state the threads reach. -/
structure Inv (f : NodeId → WithBot K) (s : State ι M T K Q) : Prop where
  filed : Filed f s.shared.index s.shared.nextNode
  sorted : s.shared.Sorted
  fits : ∀ t, (s.threads t).Fits f s.shared.nextNode
  excludes : ∀ t u, u ≠ t → ∀ g ∈ (s.threads t).guards, ∀ g' ∈ (s.threads u).guards,
    g'.excludes g = false

variable {s s' : State ι M T K Q} {f : NodeId → WithBot K}

omit [Fintype ι] [LawfulSkipMap M T K] [LinearOrder K] [Keyed T K] [LinearOrder Q] in
theorem begin_eq {job : Job T K Q} (h : s.begin t job = some s') :
    s' = { s with threads := Function.update s.threads t (.running job 0) } := by
  unfold begin at h
  split at h <;> cases h
  rfl

omit [Fintype ι] [LawfulSkipMap M T K] [LinearOrder K] [Keyed T K] [LinearOrder Q] in
/-- One thread moves on to guards that exclude no other's. -/
theorem excludes_update {thread : Thread T K Q}
    (hs : ∀ t u, u ≠ t → ∀ g ∈ (s.threads t).guards, ∀ g' ∈ (s.threads u).guards,
      g'.excludes g = false)
    (ht : ∀ u, u ≠ t → ∀ g ∈ thread.guards, ∀ g' ∈ (s.threads u).guards,
      g'.excludes g = false) :
    ∀ v u, u ≠ v → ∀ g ∈ (Function.update s.threads t thread v).guards,
      ∀ g' ∈ (Function.update s.threads t thread u).guards, g'.excludes g = false := by
  intro v u huv g hg g' hg'
  by_cases hv : v = t
  · subst hv
    rw [Function.update_self] at hg
    rw [Function.update_of_ne huv] at hg'
    exact ht u huv g hg g' hg'
  · rw [Function.update_of_ne hv] at hg
    by_cases hu : u = t
    · subst hu
      rw [Function.update_self] at hg'
      rw [Guard.excludes_comm]
      exact ht v hv g' hg' g hg
    · rw [Function.update_of_ne hu] at hg'
      exact hs v u huv g hg g' hg'

omit [Fintype ι] [LinearOrder Q] in
/-- A thread begins. -/
theorem Inv.begin {job : Job T K Q} (hs : s.Inv f) (h : s.begin t job = some s')
    (hkept : job.kept = 0) (hfits : job.Fits f s.shared.nextNode) : s'.Inv f := by
  rw [begin_eq h]
  refine ⟨hs.filed, hs.sorted, fun u => ?_, excludes_update hs.excludes ?_⟩
  · by_cases hu : u = t
    · subst hu
      simp only [Function.update_self]
      exact ⟨hkept.le, hfits⟩
    · simpa only [Function.update_of_ne hu] using hs.fits u
  · simp [Thread.guards]

omit [LinearOrder Q] in
/-- A thread takes a lock. -/
theorem Inv.acquire {job : Job T K Q} {acquired : ℕ} {guard : Guard} (hs : s.Inv f)
    (ht : s.threads t = .running job acquired) (hguard : job.guards[acquired]? = some guard)
    (hfree : s.free t guard = true) :
    ({ s with threads := Function.update s.threads t (.running job (acquired + 1)) } :
      State ι M T K Q).Inv f := by
  have hfits := hs.fits t
  rw [ht] at hfits
  refine ⟨hs.filed, hs.sorted, fun u => ?_, excludes_update hs.excludes fun u hu g hg g' hg' => ?_⟩
  · by_cases hu : u = t
    · subst hu
      simp only [Function.update_self]
      exact ⟨hfits.1.trans (Nat.le_succ _), hfits.2⟩
    · simpa only [Function.update_of_ne hu] using hs.fits u
  · simp only [Thread.guards, List.take_add_one, hguard, Option.toList_some, List.mem_append,
      List.mem_singleton] at hg
    rcases hg with hg | rfl
    · exact hs.excludes t u hu g (by simpa [Thread.guards, ht] using hg) g' hg'
    · exact of_decide_eq_true hfree u hu g' hg'

/-- A thread that has all its locks runs its phase. -/
theorem Inv.run {job : Job T K Q} {acquired : ℕ} {shared : BTreeSet M T}
    {thread : Thread T K Q} (hs : s.Inv f) (ht : s.threads t = .running job acquired)
    (hall : job.guards[acquired]? = none)
    (h : job.run s.shared borrow (s.free t .exclusive) = some (shared, thread)) :
    ∃ f', ({ shared, threads := Function.update s.threads t thread } : State ι M T K Q).Inv f' := by
  have hfits := hs.fits t
  rw [ht] at hfits
  have hguards : (s.threads t).guards = job.guards := by
    rw [ht]
    exact List.take_of_length_le (List.getElem?_eq_none_iff.mp hall)
  obtain ⟨f', hran⟩ := Job.run_spec hs.filed hs.sorted hfits.2 h
  refine ⟨f', hran.filed, hran.sorted, fun u => ?_, excludes_update hs.excludes ?_⟩
  · by_cases hu : u = t
    · subst hu
      simpa only [Function.update_self] using hran.fits
    · simp only [Function.update_of_ne hu]
      refine (hs.fits u).mono hran.grows fun hshared => hran.keeps fun hexclusive => ?_
      -- a reader and a writer
      have hcontra := hs.excludes t u hu .exclusive (hguards ▸ hexclusive) .shared hshared
      cases hcontra
  · intro u hu g hg g' hg'
    exact hs.excludes t u hu g (hguards ▸ hran.releases g hg) g' hg'

/-- **Every step keeps the invariant.** -/
theorem Inv.step {l : Label ι T K Q} (hs : s.Inv f) (h : s.step borrow l = some s') :
    ∃ f', s'.Inv f' := by
  cases l with
  | insert t value => exact ⟨f, hs.begin h rfl trivial⟩
  | remove t value => exact ⟨f, hs.begin h rfl trivial⟩
  | range t lo hi => exact ⟨f, hs.begin h rfl trivial⟩
  | turn t =>
    simp only [State.step] at h
    split at h
    next job acquired ht =>
      split at h
      next guard hguard =>
        split at h <;> cases h
        next hfree => exact ⟨f, hs.acquire ht hguard hfree⟩
      next hall =>
        obtain ⟨⟨shared, thread⟩, hrun, rfl⟩ := Option.map_eq_some_iff.mp h
        exact hs.run ht hall hrun
    next => cases h

/-! ## §5 The order of the locks -/

/-- The construction has its back node and asks for the node behind it. -/
def asksBehind : Job T K Q → Bool
  | .range _ _ (.postBack _ _ _ _) => true
  | _ => false

def behind : Thread T K Q → Bool
  | .running job _ => asksBehind job
  | _ => false

/-- A construction that holds its back node finds an element past its end bound there, or no
entry follows. -/
def endsAtNode (borrow : T → Q) (shared : BTreeSet M T) : Thread T K Q → Bool
  | .running (.range lo hi (.back node value e)) acquired =>
    let thread : Thread T K Q := .running (.range lo hi (.back node value e)) acquired
    decide (.node e.2 ∉ thread.holds) || (Node.rank borrow (shared.nodes e.2) hi false).isSome ||
      (SkipMap.next shared.index e).isNone
  | _ => true

/-- The thread that moves, if it holds the back node of a range, ends there. -/
def EndsAtNode (borrow : T → Q) (s : State ι M T K Q) : Label ι T K Q → Prop
  | .turn t => endsAtNode borrow s.shared (s.threads t) = true
  | _ => True

instance (borrow : T → Q) (s : State ι M T K Q) : ∀ l, Decidable (s.EndsAtNode borrow l)
  | .turn t => inferInstanceAs (Decidable (endsAtNode borrow s.shared (s.threads t) = true))
  | .insert _ _ => isTrue trivial
  | .remove _ _ => isTrue trivial
  | .range _ _ _ => isTrue trivial

omit [Fintype ι] [LawfulSkipMap M T K] [LinearOrder K] [Keyed T K] [LinearOrder Q] in
theorem not_behind_update {thread : Thread T K Q} (hs : ∀ u, behind (s.threads u) = false)
    (ht : behind thread = false) (u : ι) :
    behind (Function.update s.threads t thread u) = false := by
  by_cases hu : u = t
  · rw [hu, Function.update_self]
    exact ht
  · rw [Function.update_of_ne hu]
    exact hs u

/-- A construction that ends at its back node never asks for the node behind it. -/
theorem not_behind_step {l : Label ι T K Q} (hs : ∀ u, behind (s.threads u) = false)
    (hl : EndsAtNode borrow s l) (h : s.step borrow l = some s') :
    ∀ u, behind (s'.threads u) = false := by
  cases l with
  | insert t value =>
    rw [begin_eq h]
    exact not_behind_update hs rfl
  | remove t value =>
    rw [begin_eq h]
    exact not_behind_update hs rfl
  | range t lo hi =>
    rw [begin_eq h]
    exact not_behind_update hs rfl
  | turn t =>
    simp only [State.step] at h
    split at h
    next job acquired ht =>
      have hjob := hs t
      rw [ht] at hjob
      split at h
      next guard hguard =>
        split at h <;> cases h
        exact not_behind_update hs hjob
      next hall =>
        obtain ⟨⟨shared, thread⟩, hrun, rfl⟩ := Option.map_eq_some_iff.mp h
        refine not_behind_update hs ?_
        have hcall : ∀ (c : Call T K) (next : Next T),
            behind (afterCall c next : Thread T K Q) = false := fun c next => by
          cases next <;> rfl
        cases job with
        | call c phase =>
          simp only [Job.run] at hrun
          split at hrun
          · cases hrun
            rfl
          · obtain ⟨r, -, heq⟩ := Option.map_eq_some_iff.mp hrun
            cases heq
            exact hcall c r.2
        | replace c e =>
          obtain ⟨r, -, heq⟩ := Option.map_eq_some_iff.mp hrun
          cases heq
          exact hcall c r.2
        | range lo hi phase =>
          cases hrun
          cases hnext : s.shared.rangeTurn borrow lo hi phase with
          | inr range => rfl
          | inl phase' =>
            rcases rangeTurn_cases hnext with ⟨e, _, -, rfl⟩ | ⟨e, p, _, -, -, rfl⟩ |
              ⟨node, value, e, n, rfl, hrank, hn, -⟩ | ⟨node, value, e, rfl⟩ | ⟨range, e, rfl | rfl⟩
            · rfl
            · rfl
            · -- the guard on the back node is held, and the condition keeps it from going on
              have hmem : .node e.2 ∈ (s.threads t).holds := by
                rw [ht, Thread.holds, Thread.guards,
                  List.take_of_length_le (List.getElem?_eq_none_iff.mp hall)]
                simp [Job.guards, rangeGuards, Guard.lock]
              rw [ht] at hmem
              simp [EndsAtNode, ht, endsAtNode, hmem, hrank, hn] at hl
            all_goals rfl
    next => cases h

/-- The order of the locks in a state: nodes by their keys, the index lock above them. -/
def rank (f : NodeId → WithBot K) : Lock → WithTop (WithBot K)
  | .index => ⊤
  | .node n => ↑(f n)

omit [LawfulSkipMap M T K] [LinearOrder Q] in
/-- The guards of a job descend. -/
theorem guards_descend {job : Job T K Q} {bound : NodeId} (hfits : job.Fits f bound)
    (hbehind : asksBehind job = false) :
    job.guards.Pairwise fun g g' => rank f g'.lock < rank f g.lock := by
  cases job with
  | call c phase => cases phase <;> simp [Job.guards, phaseGuards, Guard.lock, rank]
  | replace c e => simp [Job.guards]
  | range lo hi phase =>
    cases phase with
    | preFront e p =>
      obtain ⟨⟨he, -⟩, ⟨hp, -⟩, hlt⟩ := hfits
      simp [Job.guards, rangeGuards, Guard.lock, rank, he, hp, hlt]
    | postBack node value e n => cases hbehind
    | _ => simp [Job.guards, rangeGuards, Guard.lock, rank]

omit [DecidableEq ι] [Fintype ι] [LinearOrder Q] in
/-- **Lock order**: a thread waits for a lock below all it holds. -/
theorem Inv.ordered (hs : s.Inv f) (hbehind : ∀ t, behind (s.threads t) = false) (t : ι)
    (l l' : Lock) (hholds : l ∈ (s.threads t).holds) (hwaits : (s.threads t).waits = some l') :
    rank f l' < rank f l := by
  have hfits := hs.fits t
  have hbehind := hbehind t
  cases ht : s.threads t with
  | idle => simp [ht, Thread.waits] at hwaits
  | panicked => simp [ht, Thread.waits] at hwaits
  | running job acquired =>
    rw [ht] at hfits hbehind hholds hwaits
    obtain ⟨g, hg, rfl⟩ := List.mem_map.mp hholds
    obtain ⟨g', hg', rfl⟩ := Option.map_eq_some_iff.mp hwaits
    have hdescend := guards_descend hfits.2 hbehind
    rw [← List.take_append_drop acquired job.guards, List.pairwise_append] at hdescend
    refine hdescend.2.2 g hg g' (List.mem_of_getElem? (i := 0) ?_)
    rw [List.getElem?_drop]
    exact hg'

omit [DecidableEq ι] [LinearOrder Q] in
/-- **No deadlock** while no construction asks for the node behind its back node. -/
theorem Inv.not_deadlocked (hs : s.Inv f) (hbehind : ∀ t, behind (s.threads t) = false) :
    ¬ s.Deadlocked :=
  LockOrder.not_deadlocked (rank f) fun t l l' => hs.ordered hbehind t l l'

omit [DecidableEq ι] [Fintype ι] [LinearOrder Q] in
/-- The start of every run keeps the invariant. -/
theorem inv_start (cdc : Bool) (elementSize nodeCapacity : ℕ) :
    (start (BTreeSet.withMaximumNodeSize cdc elementSize nodeCapacity) : State ι M T K Q).Inv
      fun _ => ⊥ := by
  have hnil := BTreeSet.withMaximumNodeSize_entries (M := M) (T := T) cdc elementSize nodeCapacity
  refine ⟨fun e he => ?_, fun n => ascending_nil, fun _ => trivial, by simp [start, Thread.guards]⟩
  have hmem : e ∈ BTreeSet.entries _ := he
  rw [start, hnil] at hmem
  cases hmem

/-! ## §6 Runs -/

/-- From a state in which nobody does, no construction comes to ask for the node behind its back
node. -/
theorem not_behind_run {q : State ι M T K Q} {schedule : List (Label ι T K Q)}
    (hquiet : q.Quiescent)
    (hends : Transition.Along (State.step borrow) (State.EndsAtNode borrow) q schedule)
    (hrun : Transition.run (State.step borrow) q schedule = some s) :
    ∀ t, behind (s.threads t) = false := by
  have hidle : ∀ t, behind (q.threads t) = false := fun t => by
    have ht := hquiet t
    cases hthread : q.threads t <;> simp [hthread, Thread.isIdle] at ht
    rfl
  exact Transition.run_invariant (I := fun s : State ι M T K Q => ∀ t, behind (s.threads t) = false)
    (fun _ _ _ hbehind hl h => not_behind_step hbehind hl h) hidle hends hrun

end State

variable [DecidableEq ι] [Fintype ι]

/-- **No lock cycle** among inserts, removes and range constructions that begin on a set at rest,
as long as no construction finds its back node without an element past its end bound while an
entry follows. -/
theorem no_lock_cycle {borrow : T → Q} {cdc : Bool} {elementSize nodeCapacity : ℕ}
    {before schedule : List (Label ι T K Q)} {q s : State ι M T K Q}
    (hbefore : Transition.run (State.step borrow)
      (State.start (BTreeSet.withMaximumNodeSize cdc elementSize nodeCapacity)) before = some q)
    (hquiet : q.Quiescent)
    (hends : Transition.Along (State.step borrow) (State.EndsAtNode borrow) q schedule)
    (hrun : Transition.run (State.step borrow) q schedule = some s) : ¬ s.Deadlocked := by
  have ⟨f, hs⟩ : ∃ f, s.Inv f :=
    Transition.run_invariant (P := fun _ _ => True) (I := fun s : State ι M T K Q => ∃ f, s.Inv f)
      (fun _ _ _ ⟨_, hs⟩ _ h => hs.step h) ⟨_, State.inv_start ..⟩
      (Transition.along_of_forall_mem (Q := fun _ => True) fun _ _ => trivial)
      (Transition.run_append.mpr ⟨q, hbefore, hrun⟩)
  exact hs.not_deadlocked (State.not_behind_run hquiet hends hrun)

/-- Thread `t` takes `n` steps. -/
def turns (t : Fin 3) (n : ℕ) : List (Label (Fin 3) ℕ ℕ ℕ) := List.replicate n (.turn t)

/-- Three inserts at capacity 2: the nodes `[10]` and `[20, 30]`. -/
def fillTwoNodes : List (Label (Fin 3) ℕ ℕ ℕ) :=
  .insert 0 10 :: turns 0 5 ++ .insert 0 20 :: turns 0 7 ++ .insert 0 30 :: turns 0 7

/-- A range from 15 goes from the second node to the first, for which a remove waits. -/
def lookBack : List (Label (Fin 3) ℕ ℕ ℕ) :=
  .range 1 (.included 15) .unbounded :: turns 1 5 ++ .remove 0 10 :: turns 0 2 ++ turns 1 3

theorem no_lock_cycle_lookBack :
    ∃ q s : State (Fin 3) (SortedIndex ℕ) ℕ ℕ ℕ,
      Transition.run (State.step id)
        (State.start (BTreeSet.withMaximumNodeSize true 8 2)) fillTwoNodes = some q ∧
      Transition.run (State.step id) q lookBack = some s ∧ ¬ s.Deadlocked := by
  have ⟨s, hrun, hs⟩ := Transition.exists_run
    (fun q : State (Fin 3) (SortedIndex ℕ) ℕ ℕ ℕ => decide (q.Quiescent ∧
      Transition.Along (State.step id) (State.EndsAtNode id) q lookBack ∧
      (Transition.run (State.step id) q lookBack).isSome))
    (State.step id) (State.start (BTreeSet.withMaximumNodeSize true 8 2))
    fillTwoNodes (by decide +kernel)
  have ⟨hquiet, hends, hsome⟩ := of_decide_eq_true hs
  have ⟨s', hback⟩ := Option.isSome_iff_exists.mp hsome
  exact ⟨s, s', hrun, hback, no_lock_cycle hrun hquiet hends hback⟩

/-- Thread 0 has emptied the first node and waits to take it out of the index.  A range from 15
holds the second node and asks for the first; a range up to 5 holds the first node and asks
for the second. -/
def crossing : List (Label (Fin 3) ℕ ℕ ℕ) :=
  .remove 0 10 :: turns 0 4 ++ .range 1 (.included 15) .unbounded :: turns 1 4 ++
    .range 2 .unbounded (.included 5) :: turns 2 6

theorem crossing_deadlocks :
    ∃ q s : State (Fin 3) (SortedIndex ℕ) ℕ ℕ ℕ,
      Transition.run (State.step id)
        (State.start (BTreeSet.withMaximumNodeSize true 8 2)) fillTwoNodes = some q ∧
      q.Quiescent ∧ Transition.run (State.step id) q crossing = some s ∧ s.Deadlocked := by
  have ⟨s, hrun, hs⟩ := Transition.exists_run
    (fun s : State (Fin 3) (SortedIndex ℕ) ℕ ℕ ℕ => decide (
      .node 1 ∈ (s.threads 1).holds ∧ (s.threads 1).waits = some (.node 0) ∧
      .node 0 ∈ (s.threads 2).holds ∧ (s.threads 2).waits = some (.node 1)))
    (State.step id) (State.start (BTreeSet.withMaximumNodeSize true 8 2))
    (fillTwoNodes ++ crossing) (by decide +kernel)
  have ⟨hone, hwone, htwo, hwtwo⟩ := of_decide_eq_true hs
  have ⟨q, hq, hcross⟩ := Transition.run_append.mp hrun
  have ⟨q', hq', hquiet⟩ := Transition.exists_run
    (fun s : State (Fin 3) (SortedIndex ℕ) ℕ ℕ ℕ => decide s.Quiescent)
    (State.step id) (State.start (BTreeSet.withMaximumNodeSize true 8 2))
    fillTwoNodes (by decide +kernel)
  obtain rfl := Option.some.inj (hq.symm.trans hq')
  exact ⟨q, s, hq, of_decide_eq_true hquiet, hcross,
    LockOrder.deadlocked_pair (t := (1 : Fin 3)) (u := 2) (by decide) hone htwo hwone hwtwo⟩

end Locks

end IndexSet.Concurrent
