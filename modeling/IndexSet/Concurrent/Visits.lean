import IndexSet.Concurrent.Iteration
import IndexSet.Concurrent.NodeOrder

/-!
# What an Iteration Visits

The index that the iteration should see is the one the commit under way will leave:
`State.settled`.  On it the threads take the steps of the machine of all threads.

- §1 the operations of a commit on the skip list add up to the commit;
- §2 where `next` resumes in a node;
- §3 `Walked`: what has been yielded is ascending, and every other element of the beginning is
  ahead of where the iteration stands;
- §4 the steps of the iteration, §5 the steps of the threads keep it;
- §6 runs, and an iteration that loses its place.
-/

namespace IndexSet.Concurrent.Iteration

open KeyedList

variable {ι M T K : Type} [LinearOrder K] [Keyed T K] [LawfulSkipMap M T K]

/-! ## §1 The skip list after a commit -/

section Writes

variable {s s' : BTreeSet M T} {n : NodeId} {m v : T}

theorem isRegistered_iff : isRegistered s n m = true ↔ s.Registered n (key m) := by
  rw [BTreeSet.registered_iff, isRegistered]
  cases SkipMap.get s.index (key m) <;> simp

/-- The operations of a commit, one after the other. -/
def settle (index : M) (writes : List (IndexWrite T K)) : M :=
  writes.foldl IndexWrite.apply index

theorem settle_split (hreg : s.Registered n (key m)) :
    settle s.index (indexWrites s (.split n m v)) = (s.commitSplit n m v).1.index := by
  rw [indexWrites, if_pos (isRegistered_iff.mpr hreg)]
  simp only [BTreeSet.commitSplit, settle]
  cases hlower : Node.max (Node.halve (s.nodes n)).1 with
  | none =>
    cases hupper : Node.max (Node.halve (s.nodes n)).2 <;>
      simp [IndexWrite.apply, BTreeSet.newNode, BTreeSet.setNode]
  | some lo =>
    have hmax : (lowerHalf (Node.halve (s.nodes n)).1 lo v).max = lo := by
      unfold lowerHalf
      split <;> rfl
    cases hupper : Node.max (Node.halve (s.nodes n)).2 with
    | none => simp [IndexWrite.apply, BTreeSet.setNode]
    | some up =>
      by_cases hle : key v ≤ key lo <;>
        simp [IndexWrite.apply, BTreeSet.newNode, BTreeSet.setNode, hle]

/-- **The operations of a commit** on the skip list lead to the index it leaves. -/
theorem settle_of_turn {events : List (ChangeEvent T)} {call : Call T K} {op : Operation T}
    {d : Option T} {cdc : List (ChangeEvent T)} {next : Next T}
    {changes : List (ChangeEventUnassigned T)}
    (h : Turn s events call (.commit op d cdc) s' next changes) (hnext : next ≠ .panic) :
    settle s.index (indexWrites s op) = s'.index := by
  cases h with
  | splitGone hnot =>
    rw [← isRegistered_iff] at hnot
    simp [indexWrites, hnot, Iteration.settle]
  | splitPanic => exact absurd rfl hnext
  | split hreg => exact settle_split hreg
  | maxEmpty hnil => simp [indexWrites, hnil, Node.max, Iteration.settle]
  | @maxGone _ m n _ _ hne hnot =>
    rw [← isRegistered_iff] at hnot
    cases hm : Node.max (s.nodes n) <;> simp [indexWrites, hm, hnot, Iteration.settle]
  | @maxSame _ m n _ _ hreg hmax =>
    obtain ⟨x, hx, hkey⟩ := Option.map_eq_some_iff.mp hmax
    simp [indexWrites, Node.max, hx, hkey, Iteration.settle]
  | @rekeyed _ m max n _ _ _ hreg hmax hne =>
    simp [indexWrites, Node.max, hmax, isRegistered_iff.mpr hreg, hne, Iteration.settle,
      IndexWrite.apply, BTreeSet.rekeyState]
  | dropGone hnot =>
    rw [← isRegistered_iff] at hnot
    simp [indexWrites, hnot, Iteration.settle]
  | @kept _ m n _ _ k hreg hmax hle =>
    obtain ⟨x, hx, rfl⟩ := Option.map_eq_some_iff.mp hmax
    have hcmp : BTreeSet.compareMax (Node.max (s.nodes n)) m ≠ .lt := by
      rw [Node.max, hx]
      exact fun hlt => absurd (compare_lt_iff_lt.mp hlt) (not_lt.mpr hle)
    simp [indexWrites, hcmp, Iteration.settle]
  | @dropped _ m n _ _ _ hreg hmax =>
    have hcmp : BTreeSet.compareMax (Node.max (s.nodes n)) m = .lt := by
      cases hx : Node.max (s.nodes n) with
      | none => rfl
      | some x =>
        have hbelow := hmax (key x) (Option.map_eq_some_iff.mpr ⟨x, hx, rfl⟩)
        exact compare_lt_iff_lt.mpr hbelow
    simp [indexWrites, hcmp, isRegistered_iff.mpr hreg, Iteration.settle, IndexWrite.apply,
      BTreeSet.dropState]

end Writes

/-! ## §2 Resuming in a node -/

section Resume

/-- What is not above the last value yielded is skipped. -/
def unvisited (l : List T) : Option T → List T
  | some value => l.dropWhile fun x => key x ≤ key value
  | none => l

variable {l : List T} {value : Option T}

/-- **Resuming** leaves what has not been visited, as long as `rank` can count the node. -/
theorem resumeAt_eq (overflowChecks : Bool) (value : Option T) (hlen : l.length ≤ 2 ^ 31) :
    resumeAt overflowChecks l value = some (unvisited l value) := by
  cases value with
  | none => rfl
  | some value =>
  rw [unvisited]
  have hdrop : l.dropWhile (fun x => decide (key x ≤ key value)) =
      l.drop (l.takeWhile fun x => key x ≤ key value).length := by
    have h := congrArg (List.drop (l.takeWhile fun x => key x ≤ key value).length)
      (List.takeWhile_append_dropWhile (p := fun x => decide (key x ≤ key value)) (l := l))
    rwa [List.drop_left] at h
  rw [hdrop]
  simp only [resumeAt, rankI32_eq_rank overflowChecks key hlen, Option.map_some, rank_forward,
    Bound.Starts, not_lt]
  cases (l.takeWhile fun x => key x ≤ key value).length with
  | zero => simp
  | succ n => simp

/-- What is left of an ascending node: everything above the last value. -/
theorem mem_unvisited (h : Ascending key l) {x : T} :
    x ∈ unvisited l value ↔ x ∈ l ∧ ∀ v ∈ value, key v < key x := by
  cases value with
  | none => simp [unvisited]
  | some v =>
    rw [unvisited]
    induction l with
    | nil => simp
    | cons y l ih =>
      have ⟨habove, hl⟩ := ascending_cons.mp h
      by_cases hy : key y ≤ key v
      · rw [List.dropWhile_cons_of_pos (by simpa using hy), ih hl]
        simp only [List.mem_cons, Option.mem_some_iff, forall_eq']
        constructor
        · rintro ⟨hx, hlt⟩
          exact ⟨Or.inr hx, hlt⟩
        · rintro ⟨rfl | hx, hlt⟩
          · exact absurd hlt (not_lt.mpr hy)
          · exact ⟨hx, hlt⟩
      · rw [List.dropWhile_cons_of_neg (by simpa using hy)]
        simp only [Option.mem_some_iff, forall_eq', iff_self_and]
        intro hx
        rcases List.mem_cons.mp hx with rfl | hx
        · exact not_le.mp hy
        · exact (not_le.mp hy).trans (habove x hx)

theorem unvisited_ascending (h : Ascending key l) : Ascending key (unvisited l value) := by
  cases value with
  | none => exact h
  | some v => exact h.sublist (List.dropWhile_sublist _)

end Resume

/-! ## §3 The invariant -/

/-- The node the iteration needs in the index to go on. -/
def Walk.stands : Walk T → Option NodeId
  | .opened front => front
  | .lock n _ => some n
  | .inside n _ => some n
  | .find n => some n
  | _ => none

/-- The next step reads the same in two indexes: the first entry, the entry of its node, or the one
behind that. -/
def Walk.ReadsSame (index index' : M) : Walk T → Prop
  | .start => SkipMap.front index = SkipMap.front index'
  | .find n =>
    ((SkipMap.iter index).find? fun e => e.2 = n) = (SkipMap.iter index').find? fun e => e.2 = n
  | .next _ e => SkipMap.next index e = SkipMap.next index' e
  | _ => True

/-- The node in which the next step skips what has been yielded. -/
def Walk.resumes : Walk T → Option NodeId
  | .lock n true => some n
  | _ => none

/-- A key that the iteration is still to come to. -/
def Walk.Ahead (s : BTreeSet M T) (q : K) : Walk T → Prop
  | .opened (some n) => s.Has n q ∨ s.After n q
  | .lock n _ => s.Has n q ∨ s.After n q
  | .inside n rest => (∃ x ∈ rest, key x = q) ∨ s.After n q
  | .find n => s.After n q
  | .next _ e => s.Beyond (key e.1) q
  | _ => False

/-- The last value yielded lies in the node or before it. -/
def Passed (s : BTreeSet M T) (n : NodeId) (value : Option T) : Prop :=
  ∀ v ∈ value, s.Before n (key v) ∨ s.Has n (key v)

/-- How the last value yielded lies to the place of the iteration.  An iteration without a back
node does not look for it when it locks a node, so there its place matters everywhere. -/
def Walk.Behind (s : BTreeSet M T) (hasBack : Bool) (value : Option T) : Walk T → Prop
  | .opened _ => value = none
  | .start => value = none
  | .lock n resume =>
      (hasBack = false → ∀ v ∈ value, s.Before n (key v)) ∧ (resume = false → hasBack = false)
  | .inside n rest =>
      Ascending key rest ∧ (∀ y ∈ rest, s.Has n (key y) ∧ ∀ v ∈ value, key v < key y) ∧
        (hasBack = false → Passed s n value)
  | .find n => hasBack = false → Passed s n value
  | .next n e => hasBack = false → e ∈ s.entries ∧ e.2 = n ∧ Passed s n value
  | .ended => True
  | .panicked => True

/-- **The iteration so far**: what it has yielded is ascending, and what the set held at the
beginning has been yielded or is above that and ahead. -/
structure Walked (s : BTreeSet M T) (it : Iter T) : Prop where
  ascending : Ascending key it.yielded
  value : it.currentFrontValue = it.yielded.getLast?
  stands : ∀ n ∈ it.walk.stands, n ∈ s.order
  behind : it.walk.Behind s it.hasBack it.currentFrontValue
  complete : ∀ x ∈ it.initial, (∃ y ∈ it.yielded, key y = key x) ∨
    (∀ v ∈ it.currentFrontValue, key v < key x) ∧ it.walk.Ahead s (key x)

section IterStep

variable {s σ : BTreeSet M T} {it it' : Iter T}

/-- A move that yields nothing and loses nothing. -/
theorem Walked.move {walk : Walk T} {hasBack : Bool} (hw : Walked σ it)
    (hstands : ∀ n ∈ walk.stands, n ∈ σ.order)
    (hbehind : walk.Behind σ hasBack it.currentFrontValue)
    (hahead : ∀ q, (∀ v ∈ it.currentFrontValue, key v < q) → it.walk.Ahead σ q → walk.Ahead σ q) :
    Walked σ { it with walk, hasBack } :=
  ⟨hw.ascending, hw.value, hstands, hbehind, fun x hx =>
    (hw.complete x hx).imp_right fun ⟨hlt, h⟩ => ⟨hlt, hahead _ hlt h⟩⟩

/-- `Iter::new` begins before all elements. -/
theorem Walked.new (s : BTreeSet M T) : Walked s (Iter.new s) := by
  refine ⟨ascending_nil, rfl, ?_, rfl, ?_⟩
  · intro n hn
    simp only [Iter.new, Walk.stands, LawfulSkipMap.front_eq] at hn
    obtain ⟨e, he, rfl⟩ := Option.map_eq_some_iff.mp (Option.mem_def.mp hn)
    exact List.mem_map_of_mem (List.mem_of_head? he)
  · intro x hx
    refine Or.inr ⟨by simp [Iter.new], ?_⟩
    obtain ⟨p, hp, hxp⟩ := List.mem_flatMap.mp hx
    have hhas : s.Has p.2 (key x) := ⟨x, hxp, rfl⟩
    cases hentries : s.entries with
    | nil =>
      have hp : p ∈ s.entries := hp
      rw [hentries] at hp
      cases hp
    | cons e l =>
      have hfront : SkipMap.front s.index = some e := by
        rw [LawfulSkipMap.front_eq]
        show s.entries.head? = some e
        rw [hentries, List.head?_cons]
      simp only [Iter.new, hfront, Option.map_some, Walk.Ahead]
      have hp : p ∈ s.entries := hp
      rw [hentries] at hp
      rcases List.mem_cons.mp hp with rfl | hp
      · exact Or.inl hhas
      · refine Or.inr ⟨p.2, ?_, hhas⟩
        rw [BTreeSet.order, hentries]
        exact precedes_of_mem (a := [e.2]) (by simp) (List.mem_map_of_mem hp)

/-- What is left of the node when the iteration has locked it. -/
theorem Walked.lock {n : NodeId} {resume : Bool} (hw : Walked σ it)
    (hwalk : it.walk = .lock n resume) (hs : σ.Coherent) (hsorted : σ.Sorted) :
    Walked σ { it with
      walk := .inside n (if resume then unvisited (σ.nodes n) it.currentFrontValue
        else σ.nodes n) } := by
  have hbehind := hw.behind
  have hstands := hw.stands
  rw [hwalk] at hbehind hstands
  have ⟨hbefore, hresume⟩ := hbehind
  have hrest : ∀ x,
      x ∈ (if resume then unvisited (σ.nodes n) it.currentFrontValue else σ.nodes n) ↔
        x ∈ σ.nodes n ∧ ∀ v ∈ it.currentFrontValue, key v < key x := by
    intro x
    cases resume with
    | true => exact mem_unvisited (hsorted n)
    | false =>
      -- without a back node, everything yielded lies in the nodes before
      refine ⟨fun hx => ⟨hx, fun v hv => ?_⟩, And.left⟩
      obtain ⟨m, hmn, hm⟩ := hbefore (hresume rfl) v hv
      exact hs.lt_of_precedes hmn hm ⟨x, hx, rfl⟩
  refine hw.move hstands ⟨?_, fun y hy => ?_, fun hback v hv => Or.inl (hbefore hback v hv)⟩ ?_
  · cases resume with
    | true => exact unvisited_ascending (hsorted n)
    | false => exact hsorted n
  · have ⟨hmem, hlt⟩ := (hrest y).mp hy
    exact ⟨⟨y, hmem, rfl⟩, hlt⟩
  · intro q hlt hahead
    rw [hwalk] at hahead
    rcases hahead with ⟨x, hx, rfl⟩ | hafter
    · exact Or.inl ⟨x, (hrest x).mpr ⟨hx, hlt⟩, rfl⟩
    · exact Or.inr hafter

/-- The iteration yields the next element of its node. -/
theorem Walked.yield {n : NodeId} {v : T} {rest : List T} (hw : Walked σ it)
    (hwalk : it.walk = .inside n (v :: rest)) (hs : σ.Coherent) :
    Walked σ { it with
      walk := .inside n rest, currentFrontValue := some v, yielded := it.yielded ++ [v] } := by
  have hbehind := hw.behind
  have hstands := hw.stands
  rw [hwalk] at hbehind hstands
  obtain ⟨hasc, hrest, hpassed⟩ := hbehind
  have ⟨habove, hascrest⟩ := ascending_cons.mp hasc
  have ⟨hv, hlast⟩ := hrest v (List.mem_cons_self ..)
  have hbelow : Below key it.yielded (key v) := by
    intro y hy
    obtain ⟨l, hl⟩ : ∃ l, it.yielded.getLast? = some l :=
      ⟨_, List.getLast?_eq_some_getLast (List.ne_nil_of_mem hy)⟩
    have hmax : maxKey key it.yielded = some (key l) := by simp [maxKey, hl]
    exact lt_of_le_of_lt ((hw.ascending.le_maxKey hmax).1 y hy) (hlast l (hw.value.trans hl))
  refine ⟨ascending_append_cons.mpr ⟨hw.ascending, ascending_nil, hbelow, above_nil _⟩, by simp,
    hstands, ⟨hascrest, fun y hy => ⟨(hrest y (List.mem_cons_of_mem _ hy)).1, ?_⟩, ?_⟩, ?_⟩
  · rintro _ ⟨⟩
    exact habove y hy
  · rintro _ _ ⟨⟩
    exact Or.inr hv
  · intro x hx
    rcases hw.complete x hx with ⟨y, hy, hyx⟩ | ⟨-, hahead⟩
    · exact Or.inl ⟨y, List.mem_append_left _ hy, hyx⟩
    rw [hwalk] at hahead
    rcases hahead with ⟨y, hy, hyx⟩ | ⟨m, hnm, hm⟩
    · rcases List.mem_cons.mp hy with rfl | hy
      · exact Or.inl ⟨y, by simp, hyx⟩
      · refine Or.inr ⟨?_, Or.inl ⟨y, hy, hyx⟩⟩
        rintro _ ⟨⟩
        exact hyx ▸ habove y hy
    · refine Or.inr ⟨?_, Or.inr ⟨m, hnm, hm⟩⟩
      rintro _ ⟨⟩
      exact hs.lt_of_precedes hnm hv hm

/-- The iteration finds its node in the index. -/
theorem Walked.find {n : NodeId} (hw : Walked σ it) (hwalk : it.walk = .find n)
    (hs : σ.Coherent) :
    ∃ e, (σ.entries.find? fun e => e.2 = n) = some e ∧ Walked σ { it with walk := .next n e } := by
  have hbehind := hw.behind
  have hstands := hw.stands
  rw [hwalk] at hbehind hstands
  obtain ⟨p, hp, hpn⟩ := List.mem_map.mp (hstands n rfl)
  obtain ⟨e, he⟩ : ∃ e, (σ.entries.find? fun e => e.2 = n) = some e := by
    refine Option.isSome_iff_exists.mp (List.find?_isSome.mpr ⟨p, hp, ?_⟩)
    simpa using hpn
  have hmem := List.mem_of_find?_eq_some he
  have hen : e.2 = n := by simpa using List.find?_some he
  refine ⟨e, he, hw.move (by simp [Walk.stands]) (fun hback => ⟨hmem, hen, hbehind hback⟩) ?_⟩
  intro q _ hahead
  rw [hwalk] at hahead
  subst hen
  exact hs.beyond_of_after hmem hahead

/-- The iteration goes to the next node. -/
theorem Walked.next {n : NodeId} {e p : T × NodeId} (hw : Walked σ it)
    (hwalk : it.walk = .next n e) (hs : σ.Coherent) (hp : SkipMap.next σ.index e = some p) :
    Walked σ { it with walk := .lock p.2 it.hasBack } := by
  have hbehind := hw.behind
  rw [hwalk] at hbehind
  refine hw.move ?_ ⟨fun hback v hv => ?_, id⟩ fun q _ hahead => ?_
  · rintro _ ⟨⟩
    exact List.mem_map_of_mem (List.mem_of_find?_eq_some ((LawfulSkipMap.next_eq ..).symm.trans hp))
  · obtain ⟨he, rfl, hpassed⟩ := hbehind hback
    have hep := BTreeSet.precedes_of_next he hp
    rcases hpassed v hv with ⟨m, hme, hm⟩ | hhas
    · exact ⟨m, hme.trans hs.order_nodup hep, hm⟩
    · exact ⟨e.2, hep, hhas⟩
  · rw [hwalk] at hahead
    exact hahead.of_next hp

/-- **A step of the iteration** that reads in the index what a commit under way will leave there,
and resumes only in a node that `rank` can count. -/
theorem Walked.step {overflowChecks : Bool} {free : NodeId → Bool} (hw : Walked σ it)
    (hs : σ.Coherent) (hsorted : σ.Sorted) (hnodes : s.nodes = σ.nodes)
    (hreads : it.walk.ReadsSame s.index σ.index)
    (hcounts : ∀ n ∈ it.walk.resumes, (σ.nodes n).length ≤ 2 ^ 31)
    (h : it.step overflowChecks s free = some it') : Walked σ it' := by
  have hbehind := hw.behind
  have hstands := hw.stands
  cases hwalk : it.walk with
  | opened front =>
    rw [hwalk] at hbehind hstands
    have hvalue : it.currentFrontValue = none := hbehind
    simp only [Iter.step, hwalk] at h
    -- a set that was empty at the start gives nothing
    cases front with
    | none =>
      cases h
      refine hw.move (by simp [Walk.stands]) hvalue fun q _ hahead => ?_
      simp [hwalk, Walk.Ahead] at hahead
    | some n =>
      cases h
      exact hw.move hstands ⟨by simp [hvalue], by simp⟩ fun q _ hahead => by
        rwa [hwalk] at hahead
  | start =>
    rw [hwalk] at hbehind
    have hvalue : it.currentFrontValue = none := hbehind
    rw [hwalk] at hreads
    -- without a front node the first entry of the index is taken, or the iteration ends
    simp only [Iter.step, hwalk, show SkipMap.front s.index = _ from hreads] at h
    have hahead : ∀ {walk : Walk T} q, (∀ v ∈ it.currentFrontValue, key v < q) →
        it.walk.Ahead σ q → walk.Ahead σ q := fun q _ h => by simp [hwalk, Walk.Ahead] at h
    split at h
    next e he =>
      cases h
      refine hw.move ?_ ⟨by simp [hvalue], id⟩ hahead
      rintro _ ⟨⟩
      rw [LawfulSkipMap.front_eq] at he
      exact List.mem_map_of_mem (List.mem_of_head? he)
    next =>
      cases h
      exact hw.move (by simp [Walk.stands]) trivial hahead
  | lock n resume =>
    have hrest : (if resume then resumeAt overflowChecks (σ.nodes n) it.currentFrontValue
        else some (σ.nodes n)) = some (if resume then unvisited (σ.nodes n) it.currentFrontValue
          else σ.nodes n) := by
      cases resume with
      | true => exact resumeAt_eq overflowChecks _ (hcounts n (by simp [hwalk, Walk.resumes]))
      | false => rfl
    simp only [Iter.step, hwalk, hnodes, hrest] at h
    split at h <;> cases h
    exact hw.lock hwalk hs hsorted
  | inside n rest =>
    cases rest with
    | cons v rest =>
      simp only [Iter.step, hwalk] at h
      cases h
      exact hw.yield hwalk hs
    | nil =>
      -- the node is finished: everything it holds is behind
      rw [hwalk] at hbehind hstands
      simp only [Iter.step, hwalk] at h
      cases h
      refine hw.move hstands hbehind.2.2 fun q _ hahead => ?_
      rw [hwalk] at hahead
      simpa [Walk.Ahead] using hahead
  | find n =>
    obtain ⟨e, he, hnext⟩ := hw.find hwalk hs
    rw [hwalk] at hreads
    have he' : ((SkipMap.iter s.index).find? fun e => e.2 = n) = some e := hreads.trans he
    simp only [Iter.step, hwalk, he'] at h
    cases h
    exact hnext
  | next n e =>
    rw [hwalk] at hreads
    simp only [Iter.step, hwalk, show SkipMap.next s.index e = _ from hreads] at h
    split at h
    next p hp =>
      cases h
      exact hw.next hwalk hs hp
    next hnone =>
      cases h
      refine hw.move (by simp [Walk.stands]) trivial fun q _ hahead => ?_
      -- nothing is beyond the last entry
      rw [hwalk] at hahead
      exact absurd hahead (BTreeSet.not_beyond_of_next hnone)
  | ended | panicked =>
    simp only [Iter.step, hwalk] at h
    cases h

end IterStep

/-! ## §4 Steps of the threads -/

/-- The node the iteration has finished and not yet left. -/
def Walk.between : Walk T → Option NodeId
  | .find n => some n
  | .next n _ => some n
  | _ => none

section Evolve

variable {σ σ' : BTreeSet M T} {it : Iter T} {o : Option NodeId}

/-- What has been passed stays behind, unless the node itself is split. -/
theorem Passed.evolve {n : NodeId} {value : Option T} (h : Passed σ n value)
    (hevolves : σ.Evolves σ' o) (hs : σ.Coherent) (hn : n ∈ σ.order) (hn' : n ∈ σ'.order)
    (ho : o ≠ some n) : Passed σ' n value := fun v hv =>
  (h v hv).imp (hevolves.before hs.order_nodup hn') (hevolves.has hn ho)

/-- **A step of a thread** keeps the place of the iteration: it does not take its node out of
the index, does not split the node it is in, and, without a back node, not the one it has
just finished. -/
theorem Walked.evolve (hw : Walked σ it) (hs : σ.Coherent) (hevolves : σ.Evolves σ' o)
    (hfollows : σ.Follows σ')
    (hstands : ∀ n ∈ it.walk.stands, o = some n → 2 ≤ (σ.nodes n).length)
    (hholds : ∀ n ∈ it.walk.holds, o ≠ some n)
    (hbetween : it.hasBack = false → ∀ n ∈ it.walk.between, o ≠ some n)
    (hentry : it.hasBack = false → ∀ n e, it.walk = .next n e → e ∈ σ.entries → e ∈ σ'.entries) :
    Walked σ' it := by
  have hstays : ∀ n ∈ it.walk.stands, n ∈ σ'.order := fun n hn =>
    hevolves.mem (hw.stands n hn) (hstands n hn)
  have hbehind := hw.behind
  have hmem := hw.stands
  have hahead : ∀ {n : NodeId} {q : K}, n ∈ it.walk.stands → σ.Has n q ∨ σ.After n q →
      σ'.Has n q ∨ σ'.After n q := fun hn h =>
    h.elim (hevolves.here hs.order_nodup (hmem _ hn) (hstays _ hn))
      fun h => Or.inr (hevolves.after hs.order_nodup (hstays _ hn) h)
  refine ⟨hw.ascending, hw.value, hstays, ?_, fun x hx =>
    (hw.complete x hx).imp_right fun ⟨hlt, h⟩ => ⟨hlt, ?_⟩⟩
  · cases hwalk : it.walk with
    -- what has been passed is still behind
    | opened front => rwa [hwalk] at hbehind
    | start => rwa [hwalk] at hbehind
    | lock n resume =>
      rw [hwalk] at hbehind
      refine ⟨fun hback v hv => ?_, hbehind.2⟩
      exact hevolves.before hs.order_nodup (hstays n (by simp [hwalk, Walk.stands]))
        (hbehind.1 hback v hv)
    | inside n rest =>
      rw [hwalk] at hbehind
      have hn : n ∈ it.walk.stands := by simp [hwalk, Walk.stands]
      have ho := hholds n (by simp [hwalk, Walk.holds])
      exact ⟨hbehind.1, fun y hy =>
        ⟨hevolves.has (hmem n hn) ho (hbehind.2.1 y hy).1, (hbehind.2.1 y hy).2⟩,
        fun hback => (hbehind.2.2 hback).evolve hevolves hs (hmem n hn) (hstays n hn) ho⟩
    | find n =>
      rw [hwalk] at hbehind
      have hn : n ∈ it.walk.stands := by simp [hwalk, Walk.stands]
      exact fun hback => (hbehind hback).evolve hevolves hs (hmem n hn) (hstays n hn)
        (hbetween hback n (by simp [hwalk, Walk.between]))
    | next n e =>
      rw [hwalk] at hbehind
      intro hback
      obtain ⟨he, rfl, hpassed⟩ := hbehind hback
      have he' := hentry hback e.2 e hwalk he
      exact ⟨he', rfl, hpassed.evolve hevolves hs (List.mem_map_of_mem he)
        (List.mem_map_of_mem he') (hbetween hback e.2 (by simp [hwalk, Walk.between]))⟩
    | ended | panicked => trivial
  · cases hwalk : it.walk with
    -- what has not been yielded is still ahead
    | opened front =>
      rw [hwalk] at h
      cases front with
      | none => exact h
      | some n => exact hahead (by simp [hwalk, Walk.stands]) h
    | start => rwa [hwalk] at h
    | lock n resume =>
      rw [hwalk] at h
      exact hahead (by simp [hwalk, Walk.stands]) h
    | inside n rest =>
      rw [hwalk] at h
      exact h.imp_right (hevolves.after hs.order_nodup (hstays n (by simp [hwalk, Walk.stands])))
    | find n =>
      rw [hwalk] at h
      exact hevolves.after hs.order_nodup (hstays n (by simp [hwalk, Walk.stands])) h
    | next n e =>
      rw [hwalk] at h
      exact hfollows.beyond h
    | ended | panicked => rwa [hwalk] at h

end Evolve

section Entry

variable {s s' : BTreeSet M T} {events : List (ChangeEvent T)} {c : Bool} {v : T}
  {phase : Phase T} {next : Next T} {changes : List (ChangeEventUnassigned T)}

/-- The node of a commit. -/
def committed : Phase T → Option NodeId
  | .commit operation _ _ => some operation.node
  | _ => none

/-- Only a commit of its own node moves an entry. -/
theorem mem_entries_of_turn (h : Turn s events (.insert c v) phase s' next changes)
    (hs : s.Coherent) (hsorted : s.Sorted) (hempty : phase.first → s.entries = [])
    (hfits : ∀ op ∈ phase.split, s.Registered op.1 (key op.2.1) →
      s.nodes op.1 ≠ [] ∧ s.Fits op.2.1 op.2.2)
    (hdefers : ∀ op d cdc, phase = .commit op d cdc → (Call.insert c v : Call T K).Defers op d)
    {p : T × NodeId} (hp : p ∈ s.entries) (hnode : committed phase ≠ some p.2) :
    p ∈ s'.entries := by
  have hindex : phase.writesIndex = false → p ∈ s'.entries := fun hphase => by
    rw [BTreeSet.entries, h.index hphase]
    exact hp
  cases phase with
  | insertFirst =>
    rw [hempty rfl] at hp
    -- the index was empty
    cases hp
  | commit op d cdc =>
    have hside : ∀ {a b : List (T × NodeId)} {e : T × NodeId}, s.entries = a ++ e :: b →
        e.2 = op.node → p ∈ a ++ b := fun hcut hn => by
      rw [hcut] at hp
      rcases List.mem_append.mp hp with hp | hp
      · exact List.mem_append_left _ hp
      rcases List.mem_cons.mp hp with rfl | hp
      · exact absurd (by rw [committed, hn]) hnode
      · exact List.mem_append_right _ hp
    cases h with
    | @split _ _ m n _ _ hreg =>
      obtain ⟨hne, hfit⟩ := hfits _ rfl hreg
      obtain ⟨e, hmem, rfl, hkey⟩ := hreg
      obtain ⟨a, b, hcut⟩ := List.append_of_mem hmem
      obtain ⟨lowerMax, lower, upperMax, upper, hstate, -, hput, hlower, hupper, -⟩ :=
        BTreeSet.commitSplit_spec s e.2 m v (hsorted e.2) hne
      obtain ⟨_, _, hentries⟩ := hs.split hcut rfl hkey (hsorted e.2) (hfit.admissible hcut hkey)
        hput hlower hupper
      show p ∈ (s.commitSplit e.2 m v).1.entries
      rw [hstate, hentries]
      rcases List.mem_append.mp (hside hcut rfl) with hp | hp <;> simp [hp]
    | @rekeyed _ m max n _ _ _ hreg hmax _ =>
      obtain ⟨e, hmem, rfl, hkey⟩ := hreg
      obtain ⟨a, b, hcut⟩ := List.append_of_mem hmem
      have hm : maxKey key (s.nodes e.2) = some (key max) := by simp [maxKey, hmax]
      show p ∈ (s.rekeyState e.2 m max).entries
      rw [hs.rekeyState_entries hcut hkey (hsorted e.2) hm]
      rcases List.mem_append.mp (hside hcut rfl) with hp | hp <;> simp [hp]
    | dropped _ _ => exact (hdefers _ _ _ rfl).elim
    -- the other outcomes of a commit do not write
    | _ => exact hp
  | _ => exact hindex rfl

end Entry

/-! ## §5 All threads -/

namespace State

variable [DecidableEq ι] [Fintype ι] (s : State ι M T K)

/-- The set that the commit under way will leave. -/
def settled : BTreeSet M T :=
  match s.writer with
  | some w => { s.shared with index := settle s.shared.index w.writes }
  | none => s.shared

/-- The state of the machine of all threads once the commit is done. -/
def coarse : Concurrent.State ι M T K := ⟨s.settled, s.threads, [], []⟩

/-- The phase a thread runs next, unless its commit is under way. -/
def active (t : ι) : Option (Phase T) :=
  if s.writer.map Writer.thread = some t then none
  else match s.threads t with
    | .running _ phase => some phase
    | _ => none

/-- A first node goes into an empty index, with no commit under way, and a split that goes
through finds a node that is not empty and a value that fits in. -/
def Careful (phase : Phase T) : Prop :=
  (phase.first → s.shared.entries = [] ∧ s.writer.isNone) ∧
    ∀ op ∈ phase.split, s.shared.Registered op.1 (key op.2.1) →
      s.shared.nodes op.1 ≠ [] ∧ s.shared.Fits op.2.1 op.2.2

/-- A split does not take the node of the iteration out of the index; if the iteration has no
back node, nothing is committed on the node it has finished. -/
def KeepsPlace (it : Iter T) (phase : Phase T) : Prop :=
  (∀ op ∈ phase.split, s.shared.Registered op.1 (key op.2.1) → it.walk.stands = some op.1 →
      2 ≤ (s.shared.nodes op.1).length) ∧
    (it.hasBack = false → ∀ n ∈ it.walk.between, committed phase ≠ some n)

/-- No commit still has something to do to the skip list. -/
def IndexWhole : Prop := ∀ w ∈ s.writer, w.writes = []

/-- The condition on a step: the threads keep the tree coherent and the place of the iteration;
the iteration begins with no commit under way, reads in the index only what such a commit will leave
there, and resumes only in a node that `rank` can count. -/
def Undisturbed : Label ι T → Prop
  | .insert _ _ => True
  | .turn t => ∀ phase ∈ s.active t, s.Careful phase ∧ ∀ it ∈ s.iter, s.KeepsPlace it phase
  | .iter => s.IndexWhole
  | .next => ∀ it ∈ s.iter, it.walk.ReadsSame s.shared.index s.settled.index ∧
      ∀ n ∈ it.walk.resumes, (s.shared.nodes n).length ≤ 2 ^ 31

instance (phase : Phase T) : Decidable (s.Careful phase) :=
  inferInstanceAs (Decidable (_ ∧ ∀ op ∈ phase.split, _ → _ ∧ _))

instance (it : Iter T) (phase : Phase T) : Decidable (s.KeepsPlace it phase) :=
  inferInstanceAs (Decidable ((∀ op ∈ phase.split, _ → _ → _) ∧ (_ → ∀ n ∈ it.walk.between, _)))

instance : Decidable s.IndexWhole :=
  decidable_of_iff (∀ w ∈ s.writer, w.writes.isEmpty) (by simp [IndexWhole])

instance [DecidableEq T] (index index' : M) :
    ∀ walk : Walk T, Decidable (walk.ReadsSame index index')
  | .start => inferInstanceAs (Decidable (SkipMap.front index = _))
  | .find _ => inferInstanceAs (Decidable ((SkipMap.iter index).find? _ = _))
  | .next _ e => inferInstanceAs (Decidable (SkipMap.next index e = _))
  | .opened _ => isTrue trivial
  | .lock _ _ => isTrue trivial
  | .inside _ _ => isTrue trivial
  | .ended => isTrue trivial
  | .panicked => isTrue trivial

instance [DecidableEq T] : ∀ l, Decidable (s.Undisturbed l)
  | .insert _ _ => isTrue trivial
  | .turn t => inferInstanceAs (Decidable (∀ phase ∈ s.active t, _ ∧ ∀ it ∈ s.iter, _))
  | .iter => inferInstanceAs (Decidable s.IndexWhole)
  | .next => inferInstanceAs (Decidable (∀ it ∈ s.iter, _ ∧ ∀ n ∈ it.walk.resumes, _))

/-- What holds in every state of an undisturbed run. -/
structure Inv : Prop where
  inv : s.coarse.Inv
  inserts : ∀ t call phase, s.threads t = .running call phase → ∃ c v, call = .insert c v
  walked : ∀ it ∈ s.iter, Walked s.settled it

variable {s} {s' : State ι M T K} {t : ι}

omit [DecidableEq ι] [Fintype ι] in
theorem settled_of_none (h : s.writer = none) : s.settled = s.shared := by
  simp [settled, h]

omit [DecidableEq ι] [Fintype ι] in
theorem settled_of_whole (h : s.IndexWhole) : s.settled = s.shared := by
  cases hwriter : s.writer with
  | none => exact settled_of_none hwriter
  | some w => simp [settled, hwriter, h w hwriter, settle]

omit [DecidableEq ι] [Fintype ι] in
theorem settled_nodes (s : State ι M T K) : s.shared.nodes = s.settled.nodes := by
  unfold settled
  split <;> rfl

omit [DecidableEq ι] [Fintype ι] in
theorem inv_start (overflowChecks : Bool) {shared : BTreeSet M T} (hs : shared.Coherent)
    (hsorted : shared.Sorted) : (start overflowChecks shared : State ι M T K).Inv :=
  ⟨Concurrent.State.inv_start hs hsorted, fun _ _ _ h => by simp [start] at h, by simp [start]⟩

omit [DecidableEq ι] [Fintype ι] in
/-- The invariant is about the settled set, the threads and the iteration. -/
theorem Inv.congr (hs : s.Inv) (hsettled : s'.settled = s.settled)
    (hthreads : s'.threads = s.threads) (hiter : s'.iter = s.iter) : s'.Inv := by
  have hcoarse : s'.coarse = s.coarse := by rw [coarse, coarse, hsettled, hthreads]
  exact ⟨hcoarse ▸ hs.inv, hthreads ▸ hs.inserts, by rw [hsettled, hiter]; exact hs.walked⟩

omit [Fintype ι] in
/-- **A step of a call**, seen on the settled set. -/
theorem Inv.advance {c : Bool} {v : T} {phase : Phase T} {shared : BTreeSet M T} {next : Next T}
    {events : List (ChangeEvent T)} {changes : List (ChangeEventUnassigned T)} (hs : s.Inv)
    (ht : s.threads t = .running (.insert c v) phase)
    (hturn : Turn s.settled events (.insert c v) phase shared next changes)
    (hsettled : s'.settled = shared)
    (hthreads : s'.threads = Function.update s.threads t (next.thread (.insert c v)))
    (hiter : s'.iter = s.iter) (hempty : phase.first → s.settled.entries = [])
    (hfits : ∀ op ∈ phase.split, s.settled.Registered op.1 (key op.2.1) →
      s.settled.nodes op.1 ≠ [] ∧ s.settled.Fits op.2.1 op.2.2)
    (halone : ∀ op d cdc, phase = .commit op d cdc →
      ∀ u, u ≠ t → ∀ c e, s.threads u ≠ .running c (.edit e))
    (hkeeps : ∀ it ∈ s.iter,
      (∀ op ∈ phase.split, s.settled.Registered op.1 (key op.2.1) → it.walk.stands = some op.1 →
        2 ≤ (s.settled.nodes op.1).length) ∧
      (it.hasBack = false → ∀ n ∈ it.walk.between, committed phase ≠ some n) ∧
      ∀ n ∈ it.walk.holds, committed phase ≠ some n) : s'.Inv := by
  have hdefers : ∀ op d cdc, phase = .commit op d cdc →
      (Call.insert c v : Call T K).Defers op d := by
    rintro op d cdc rfl
    exact hs.inv.defers t _ op d cdc ht
  have hinv := hs.inv.advance (t := t) ht hturn hempty hfits halone
  refine ⟨?_, fun u call ph hu => ?_, fun it hit => ?_⟩
  · have hcoarse : s'.coarse = ⟨shared, Function.update s.threads t (next.thread (.insert c v)),
        [], []⟩ := by rw [coarse, hsettled, hthreads]
    rw [hcoarse]
    exact ⟨hinv.coherent, hinv.sorted, hinv.routed, hinv.defers⟩
  · rw [hthreads] at hu
    by_cases hut : u = t
    · subst hut
      rw [Function.update_self] at hu
      cases next with
      | goto ph' =>
        cases hu
        exact ⟨c, v, rfl⟩
      | done ret cdc => cases hu
      | panic => cases hu
    · rw [Function.update_of_ne hut] at hu
      exact hs.inserts u call ph hu
  · rw [hiter] at hit
    have ⟨hstands, hbetween, hholds⟩ := hkeeps it hit
    have hw := hs.walked it hit
    obtain ⟨o, hevolves, hfollows, ho⟩ := hturn.evolves hs.inv.coherent hs.inv.sorted hempty hfits
      hdefers
    -- only a split changes what a node holds, and then it is the node of the commit
    have hcommitted : ∀ n, o = some n → committed phase = some n := by
      rintro n rfl
      obtain ⟨m, w, hsplit, -⟩ := ho n rfl
      cases phase with
      | commit op d cdc =>
        cases op with
        | split n' m' w' =>
          cases hsplit
          rfl
        | updateMax n' m' => cases hsplit
        | makeUnreachable n' m' => cases hsplit
      | _ => cases hsplit
    rw [hsettled]
    refine hw.evolve hs.inv.coherent hevolves hfollows ?_ ?_ ?_ ?_
    · rintro n hn rfl
      obtain ⟨m, w, hsplit, hreg⟩ := ho n rfl
      exact hstands (n, m, w) hsplit hreg hn
    · exact fun n hn heq => hholds n hn (hcommitted n heq)
    · exact fun hback n hn heq => hbetween hback n hn (hcommitted n heq)
    · intro hback n e hwalk he
      have hbehind := hw.behind
      rw [hwalk] at hbehind
      obtain ⟨-, rfl, -⟩ := hbehind hback
      exact mem_entries_of_turn hturn hs.inv.coherent hs.inv.sorted hempty hfits hdefers he
        (hbetween hback e.2 (by simp [hwalk, Walk.between]))

omit [DecidableEq ι] [Fintype ι] in
/-- Operations of a commit on the skip list are already in the settled set. -/
theorem settled_write {w : Writer ι T K} (hw : s.writer = some w) :
    (s.write w).settled = s.settled := by
  cases hwrites : w.writes with
  | nil => simp [write, hwrites, settled, hw, settle]
  | cons op writes => simp [write, hwrites, settled, hw, settle]

section Turns

variable {call : Call T K} {phase : Phase T} {op : Operation T} {d : Option T}
  {cdc : List (ChangeEvent T)}

omit [LawfulSkipMap M T K] in
theorem turn_other [SkipMap M T K] (hwriter : s.writer = none)
    (ht : s.threads t = .running call phase) (hphase : ∀ op d cdc, phase ≠ .commit op d cdc)
    (h : s.turn t = some s') :
    ∃ shared next, Concurrent.turn s.shared (s.alone t) call phase = some (shared, next) ∧
      s' = s.advance t call shared next := by
  have hturn : (if (editNode phase).all s.free then
      (Concurrent.turn s.shared (s.alone t) call phase).map fun r => s.advance t call r.1 r.2
      else none) = some s' := by
    rw [← h]
    cases phase with
    | commit op d cdc => exact absurd rfl (hphase op d cdc)
    | _ => simp only [State.turn, hwriter, ht]
  split at hturn
  · obtain ⟨⟨shared, next⟩, hr, rfl⟩ := Option.map_eq_some_iff.mp hturn
    exact ⟨shared, next, hr, rfl⟩
  · cases hturn

omit [LawfulSkipMap M T K] in
/-- A commit waits for the mutex of its node. -/
theorem turn_commit [SkipMap M T K] (hwriter : s.writer = none)
    (ht : s.threads t = .running call (.commit op d cdc)) (h : s.turn t = some s') :
    s.free op.node = true ∧ ∃ shared next,
      Concurrent.turn s.shared (s.alone t) call (.commit op d cdc) = some (shared, next) ∧
      s' = s.beginCommit t call op shared next := by
  simp only [State.turn, hwriter, ht] at h
  split at h
  next hfree =>
    obtain ⟨⟨shared, next⟩, hturn, rfl⟩ := Option.map_eq_some_iff.mp h
    exact ⟨hfree, shared, next, hturn, rfl⟩
  · cases h

omit [Fintype ι] in
/-- The commit that has begun will leave what the step of its call leaves. -/
theorem settled_beginCommit {shared : BTreeSet M T} {next : Next T} (hnext : next ≠ .panic)
    (hindex : settle s.shared.index (indexWrites (K := K) s.shared op) = shared.index) :
    (s.beginCommit t call op shared next).settled = shared := by
  cases next with
  | panic => exact absurd rfl hnext
  | _ => simp [settled, beginCommit, State.advance, hindex]

end Turns

omit [DecidableEq ι] [Fintype ι] [LinearOrder K] [Keyed T K] [LawfulSkipMap M T K] in
/-- A node whose mutex is free is not the one the iteration is in. -/
theorem not_holds_of_free {n : NodeId} (h : s.free n = true) {it : Iter T} (hit : it ∈ s.iter) :
    n ∉ it.walk.holds := by
  intro hn
  rw [free, Option.mem_def.mp hit] at h
  exact of_decide_eq_true h hn

/-- A step of a thread. -/
theorem Inv.turn (hs : s.Inv) (hl : s.Undisturbed (.turn t)) (h : s.turn t = some s') :
    s'.Inv := by
  cases hwriter : s.writer with
  | some w =>
    simp only [State.turn, hwriter] at h
    split at h
    · cases h
      refine hs.congr (settled_write hwriter) ?_ ?_ <;> (unfold write; split <;> rfl)
    next hne =>
      -- another thread can only find the index lock taken
      cases ht : s.threads t with
      | idle => simp [ht] at h
      | panicked => simp [ht] at h
      | running call phase =>
        obtain ⟨c, v, rfl⟩ := hs.inserts t call phase ht
        have hactive : phase ∈ s.active t := by simp [active, hwriter, hne, ht]
        obtain ⟨⟨hfirst, _⟩, _⟩ := hl phase hactive
        simp only [ht] at h
        cases phase with
        | tryWrite =>
          simp only [unlocked, if_true, Concurrent.turn, Bool.false_and, Bool.false_eq_true,
            if_false, Option.map_some, Option.some.injEq] at h
          subst h
          have hturn : Turn s.settled [] (.insert c v : Call T K) .tryWrite s.settled
              (.goto .lookup) [] := .retry
          exact hs.advance ht hturn (by simp [settled, State.advance, hwriter]) rfl rfl
            (by simp [Phase.first]) (by simp [Phase.split]) (by simp)
            fun _ _ => by simp [Phase.split, committed]
        | insertFirst => simp [hwriter, Phase.first] at hfirst
        | _ => simp [unlocked] at h
  | none =>
    cases ht : s.threads t with
    | idle => simp [State.turn, hwriter, ht] at h
    | panicked => simp [State.turn, hwriter, ht] at h
    | running call phase =>
      obtain ⟨c, v, rfl⟩ := hs.inserts t call phase ht
      obtain ⟨⟨hfirst, hfits⟩, hplace⟩ := hl phase (by simp [active, hwriter, ht])
      have hσ := settled_of_none hwriter
      -- no commit is under way, so the settled set is the shared one
      have hsorted : s.shared.Sorted := hσ ▸ hs.inv.sorted
      by_cases hcommit : ∃ op d cdc, phase = .commit op d cdc
      · obtain ⟨op, d, cdc, rfl⟩ := hcommit
        obtain ⟨hfree, shared, next, hturn, rfl⟩ := turn_commit hwriter ht h
        obtain ⟨changes, hturn, -, halone⟩ :=
          turn_spec hsorted (by rintro _ _ _ ⟨⟩; exact hs.inv.defers t _ op d cdc ht) hturn
        have hnext : next ≠ .panic := by
          rintro rfl
          cases hturn with
          | splitPanic hreg hnil => exact (hfits _ rfl hreg).1 hnil
        refine hs.advance ht (hσ ▸ hturn)
          (settled_beginCommit hnext (settle_of_turn hturn hnext)) rfl rfl
          (by simp [Phase.first]) (hσ ▸ hfits) (fun op' d' cdc' hphase u hu call e hu' => ?_)
          fun it hit => ?_
        · have hread := of_decide_eq_true (halone op' d' cdc' hphase) u hu
          rw [hu'] at hread
          cases hread
        · obtain ⟨hstands, hbetween⟩ := hplace it hit
          refine ⟨hσ ▸ hstands, hbetween, ?_⟩
          rintro n hn ⟨⟩
          exact not_holds_of_free hfree hit hn
      · have hphase : ∀ op d cdc, phase ≠ .commit op d cdc := fun op d cdc h =>
          hcommit ⟨op, d, cdc, h⟩
        obtain ⟨shared, next, hturn, rfl⟩ := turn_other hwriter ht hphase h
        obtain ⟨changes, hturn, -, -⟩ :=
          turn_spec hsorted (fun op d cdc h => absurd h (hphase op d cdc)) hturn
        refine hs.advance ht (hσ ▸ hturn) (by simp [settled, State.advance, hwriter]) rfl rfl
          (fun hempty => hσ ▸ (hfirst hempty).1) (hσ ▸ hfits)
          (fun op d cdc h => absurd h (hphase op d cdc)) fun it hit => ?_
        have hnone : committed phase = none := by
          cases phase with
          | commit op d cdc => exact absurd rfl (hphase op d cdc)
          | _ => rfl
        obtain ⟨hstands, hbetween⟩ := hplace it hit
        exact ⟨hσ ▸ hstands, hbetween, by simp [hnone]⟩

/-- **Every step** that leaves the iteration undisturbed keeps the invariant. -/
theorem Inv.step {l : Label ι T} (hs : s.Inv) (hl : s.Undisturbed l) (h : s.step l = some s') :
    s'.Inv := by
  cases l with
  | insert t v =>
    simp only [State.step] at h
    split at h
    · split at h
      · cases h
        refine ⟨?_, fun u call phase hu => ?_, hs.walked⟩
        · have hinv : (s.coarse.invoke t (.insert false v)).Inv := hs.inv.invoke
          exact ⟨hinv.coherent, hinv.sorted, hinv.routed, hinv.defers⟩
        · by_cases hut : u = t
          · subst hut
            simp only [Function.update_self, Thread.running.injEq] at hu
            exact ⟨false, v, hu.1.symm⟩
          · simp only [Function.update_of_ne hut] at hu
            exact hs.inserts u call phase hu
      · cases h
    · cases h
  | turn t => exact hs.turn hl h
  | iter =>
    have hσ := settled_of_whole hl
    simp only [State.step] at h
    split at h <;> cases h
    refine ⟨hs.inv, hs.inserts, ?_⟩
    rintro _ ⟨⟩
    show Walked s.settled _
    rw [hσ]
    exact Walked.new s.shared
  | next =>
    simp only [State.step] at h
    split at h
    next it hit =>
      obtain ⟨it', hstep, rfl⟩ := Option.map_eq_some_iff.mp h
      refine ⟨hs.inv, hs.inserts, ?_⟩
      rintro _ ⟨⟩
      obtain ⟨hreads, hcounts⟩ := hl it hit
      rw [settled_nodes s] at hcounts
      exact (hs.walked it hit).step hs.inv.coherent hs.inv.sorted (settled_nodes s) hreads hcounts
        hstep
    · cases h

end State

/-! ## §6 Runs -/

section Runs

variable [DecidableEq ι] [Fintype ι]

end Runs

/-- Thread 0 takes `n` steps. -/
def turns (n : ℕ) : List (Label (Fin 1) ℕ) := List.replicate n (.turn 0)

end IndexSet.Concurrent.Iteration
