import IndexSet.Concurrent.Machine
import IndexSet.Concurrent.Commits

/-!
# Everything One Step Can Do

`Turn` lists what a step of a call does to the shared set and to the call, guards
included; `turn_spec` reads it off the definition once.  Proofs about runs go by cases on
`Turn` and never unfold the step.

Each constructor names the events it emits (`changes`); they get their identifiers in
`events`, in order.
-/

namespace IndexSet.Concurrent

open KeyedList

variable {ι M T K : Type} [LinearOrder K] [Keyed T K] [LawfulSkipMap M T K]

/-- The operation and the deleted element a call can be waiting with. -/
def Call.Defers : Call T K → Operation T → Option T → Prop
  | .insert _ v, .split _ _ w, d => w = v ∧ d = none
  | .insert _ _, .updateMax _ _, d => d = none
  | .remove q, .updateMax _ _, d => ∃ x, d = some x ∧ key x = q
  | .remove q, .makeUnreachable _ _, d => ∃ x, d = some x ∧ key x = q
  | _, _, _ => False

/-- What a step does: the call and its phase, the state after it, what follows, and the
events it emits. -/
inductive Turn (s : BTreeSet M T) (events : List (ChangeEvent T)) :
    Call T K → Phase T → BTreeSet M T → Next T → List (ChangeEventUnassigned T) → Prop
  -- lookups and the first node
  | lookupPut {c : Bool} {v : T} {e : T × NodeId} : s.lookupPut (key v) = some e →
      Turn s events (.insert c v) .lookup s (.goto (.edit e)) []
  | lookupFirst {c : Bool} {v : T} : s.lookupPut (key v) = none →
      Turn s events (.insert c v) .lookup s (.goto .release) []
  | release {c : Bool} {v : T} : s.Allocates →
      Turn s events (.insert c v) .release s (.goto .tryWrite) []
  | overflow {c : Bool} {v : T} : ¬ s.Allocates → Turn s events (.insert c v) .release s .panic []
  | locked {c : Bool} {v : T} : Turn s events (.insert c v) .tryWrite s (.goto .insertFirst) []
  | retry {c : Bool} {v : T} : Turn s events (.insert c v) .tryWrite s (.goto .lookup) []
  | first {c : Bool} {v : T} {s' : BTreeSet M T} : s.Created v s' →
      Turn s events (.insert c v) .insertFirst s' (.done (.put none) events) [.createNode v]
  -- edits of a put
  | full {c : Bool} {v : T} {e : T × NodeId} : s.nodeCapacity ≤ (s.nodes e.2).length →
      Turn s events (.insert c v) (.edit e) s (.goto (.commit (.split e.2 e.1 v) none [])) []
  | added {c : Bool} {v : T} {e : T × NodeId} {a b : List T} {s' : BTreeSet M T} :
      (s.nodes e.2).length < s.nodeCapacity → s.nodes e.2 = a ++ b →
      Below key a (key v) → Above key (key v) b → (s.nodes e.2 = [] ∨ b ≠ []) →
      s.Wrote e.2 (a ++ v :: b) s' →
      Turn s events (.insert c v) (.edit e) s' (.done (.put none) events)
        [.insertAt ((s.nodes e.2).getLast?.getD v) v a.length]
  | raised {c : Bool} {v m : T} {e : T × NodeId} {s' : BTreeSet M T} :
      (s.nodes e.2).length < s.nodeCapacity → (s.nodes e.2).getLast? = some m →
      Below key (s.nodes e.2) (key v) → s.Wrote e.2 (s.nodes e.2 ++ [v]) s' →
      Turn s events (.insert c v) (.edit e) s' (.goto (.commit (.updateMax e.2 m) none events))
        [.insertAt m v (s.nodes e.2).length]
  | refused {v x : T} {e : T × NodeId} {a b : List T} :
      s.nodes e.2 = a ++ x :: b → key x = key v → Below key a (key v) → Above key (key v) b →
      Turn s events (.insert true v) (.edit e) s (.done .refused []) []
  | replaced {v x m : T} {e : T × NodeId} {a b : List T} {s' : BTreeSet M T}
      {changes : List (ChangeEventUnassigned T)} :
      s.nodes e.2 = a ++ x :: b → key x = key v → Below key a (key v) → Above key (key v) b →
      (s.nodes e.2).getLast? = some m → s.Wrote e.2 (a ++ v :: b) s' →
      (s.cdc → BTreeSet.replaceEvents (s.nodes e.2) a.length m v = some changes) →
      Turn s events (.insert false v) (.edit e) s' (.done (.put (some x)) events) changes
  -- edits of a remove
  | lookupRemove {q : K} {e : T × NodeId} : s.lookupRemove q = some e →
      Turn s events (.remove q) .lookup s (.goto (.edit e)) []
  | missed {q : K} : s.lookupRemove q = none →
      Turn s events (.remove q) .lookup s (.done (.removed none) []) []
  | absent {q : K} {e : T × NodeId} : (∀ x ∈ s.nodes e.2, key x ≠ q) →
      Turn s events (.remove q) (.edit e) s (.done (.removed none) []) []
  | inside {q : K} {e : T × NodeId} {a b : List T} {x m : T} {s' : BTreeSet M T} :
      s.nodes e.2 = a ++ x :: b → key x = q → b ≠ [] → (s.nodes e.2).getLast? = some m →
      s.Wrote e.2 (a ++ b) s' →
      Turn s events (.remove q) (.edit e) s' (.done (.removed (some x)) events)
        [.removeAt m x a.length]
  | lowered {q : K} {e : T × NodeId} {a : List T} {x : T} {s' : BTreeSet M T} :
      s.nodes e.2 = a ++ [x] → key x = q → a ≠ [] → s.Wrote e.2 a s' →
      Turn s events (.remove q) (.edit e) s'
        (.goto (.commit (.updateMax e.2 x) (some x) events)) [.removeAt x x a.length]
  | emptied {q : K} {e : T × NodeId} {x : T} {s' : BTreeSet M T} :
      s.nodes e.2 = [x] → key x = q → s.Wrote e.2 [] s' →
      Turn s events (.remove q) (.edit e) s'
        (.goto (.commit (.makeUnreachable e.2 x) (some x) [])) []
  -- commits of a split
  | splitGone {c : Bool} {v m : T} {n : NodeId} {cdc : List (ChangeEvent T)} :
      ¬ s.Registered n (key m) →
      Turn s events (.insert c v) (.commit (.split n m v) none cdc) s (.goto .lookup) []
  | splitPanic {c : Bool} {v m : T} {n : NodeId} {cdc : List (ChangeEvent T)} :
      s.Registered n (key m) → s.nodes n = [] →
      Turn s events (.insert c v) (.commit (.split n m v) none cdc)
        { s with poisoned := true } .panic []
  | split {c : Bool} {v m : T} {n : NodeId} {cdc : List (ChangeEvent T)} {eventId : ℕ} :
      s.Registered n (key m) →
      Turn s events (.insert c v) (.commit (.split n m v) none cdc)
        { (s.commitSplit n m v).1 with eventId }
        (.done (.put (s.commitSplit n m v).2.1) (cdc ++ events)) (s.commitSplit n m v).2.2
  -- commits of a rekey
  | maxEmpty {call : Call T K} {m : T} {n : NodeId} {d : Option T} {cdc : List (ChangeEvent T)} :
      s.nodes n = [] →
      Turn s events call (.commit (.updateMax n m) d cdc) s (.done (call.answer d) cdc) []
  | maxGone {call : Call T K} {m : T} {n : NodeId} {d : Option T} {cdc : List (ChangeEvent T)} :
      s.nodes n ≠ [] → ¬ s.Registered n (key m) →
      Turn s events call (.commit (.updateMax n m) d cdc) s (.done (call.answer d) cdc) []
  | maxSame {call : Call T K} {m : T} {n : NodeId} {d : Option T} {cdc : List (ChangeEvent T)} :
      s.Registered n (key m) → maxKey key (s.nodes n) = some (key m) →
      Turn s events call (.commit (.updateMax n m) d cdc) s (.done (call.answer d) cdc) []
  | rekeyed {call : Call T K} {m max : T} {n : NodeId} {d : Option T}
      {cdc : List (ChangeEvent T)} {eventId : ℕ} :
      s.Registered n (key m) → (s.nodes n).getLast? = some max → key max ≠ key m →
      Turn s events call (.commit (.updateMax n m) d cdc) { s.rekeyState n m max with eventId }
        (.done (call.answer d) cdc) []
  -- commits that take a node out of the index
  | dropGone {call : Call T K} {m : T} {n : NodeId} {d : Option T} {cdc : List (ChangeEvent T)} :
      ¬ s.Registered n (key m) →
      Turn s events call (.commit (.makeUnreachable n m) d cdc) s (.done (call.answer d) cdc) []
  | kept {call : Call T K} {m : T} {n : NodeId} {d : Option T} {cdc : List (ChangeEvent T)}
      {k : K} : s.Registered n (key m) → maxKey key (s.nodes n) = some k → key m ≤ k →
      Turn s events call (.commit (.makeUnreachable n m) d cdc) s (.done (call.answer d) cdc) []
  | dropped {call : Call T K} {m : T} {n : NodeId} {d : Option T} {cdc : List (ChangeEvent T)}
      {eventId : ℕ} : s.Registered n (key m) →
      (∀ k, maxKey key (s.nodes n) = some k → k < key m) →
      Turn s events call (.commit (.makeUnreachable n m) d cdc)
        { s.dropState m with eventId } (.done (call.answer d) (cdc ++ events))
        (if s.cdc then [.removeNode m] else [])
  -- reads
  | located {call : Call T K} {q : K} {n : NodeId} : call = .contains q ∨ call = .get q →
      s.locateNode q = some n → Turn s events call .lookup s (.goto (.search n)) []
  | unlocated {call : Call T K} {q : K} {ret : Ret T} :
      call = .contains q ∧ ret = .found false ∨ call = .get q ∧ ret = .got none →
      s.locateNode q = none → Turn s events call .lookup s (.done ret []) []
  | searched {call : Call T K} {q : K} {n : NodeId} {ret : Ret T} :
      call = .contains q ∧ ret = .found (find key q (s.nodes n)).isSome ∨
        call = .get q ∧ ret = .got (find key q (s.nodes n)) →
      Turn s events call (.search n) s (.done ret []) []

/-! ## §1 Commits -/

section Commits

namespace BTreeSet

omit [LinearOrder K] [Keyed T K] [LawfulSkipMap M T K] in
/-- The events of a write take the next identifiers. -/
theorem setNode_emit {s s' : BTreeSet M T} {n : NodeId} {items : List T}
    {changes : List (ChangeEventUnassigned T)} {cdc : List (ChangeEvent T)}
    (h : (s.setNode n items).emit changes = (s', cdc)) :
    s'.eventId = (s.emit changes).1.eventId ∧ cdc = (s.emit changes).2 := by
  have hsame : (s.setNode n items).eventId = s.eventId := rfl
  have ⟨hstate, hevents⟩ := emit_after hsame rfl changes
  rw [h] at hstate hevents
  simp only at hstate hevents
  exact ⟨by rw [hstate], hevents⟩

omit [LawfulSkipMap M T K] in
/-- A split leaves the counter to the caller. -/
theorem commitSplit_same [SkipMap M T K] (s : BTreeSet M T) (n : NodeId) (m v : T) :
    (s.commitSplit n m v).1.eventId = s.eventId ∧ (s.commitSplit n m v).1.cdc = s.cdc := by
  unfold commitSplit
  dsimp only
  cases Node.max (Node.halve (s.nodes n)).1 <;> cases Node.max (Node.halve (s.nodes n)).2 <;>
    exact ⟨rfl, rfl⟩

theorem commitDeferred_updateMax (s : BTreeSet M T) (n : NodeId) (m : T)
    (cdc : List (ChangeEvent T)) :
    ∃ s' r, s.commitDeferred (.updateMax n m) cdc = some (s', r) ∧
      (r = none ∨ r = some (none, cdc)) ∧ s'.eventId = s.eventId ∧
      ∀ (call : Call T K) (d : Option T),
        Turn s [] call (.commit (.updateMax n m) d cdc) s' (.done (call.answer d) cdc) [] := by
  rcases s.commit_updateMax_cases n m with ⟨hnil, heval⟩ | ⟨hne, hnot, heval⟩ |
    ⟨a, e, b, max, hcut, hn, hkey, hmax, ⟨hsame, heval⟩ | ⟨hne, heval⟩⟩
  · exact ⟨s, some (none, cdc), by simp [commitDeferred, heval, emit], Or.inr rfl, rfl,
      fun call d => .maxEmpty hnil⟩
  · exact ⟨s, none, by simp [commitDeferred, heval], Or.inl rfl, rfl,
      fun call d => .maxGone hne hnot⟩
  · have hreg : s.Registered n (key m) := ⟨e, by simp [hcut], hn, hkey⟩
    exact ⟨s, some (none, cdc), by simp [commitDeferred, heval, emit], Or.inr rfl, rfl,
      fun call d => .maxSame hreg (by simp [maxKey, hmax, hsame])⟩
  · have hreg : s.Registered n (key m) := ⟨e, by simp [hcut], hn, hkey⟩
    exact ⟨s.rekeyState n m max, some (none, cdc), by simp [commitDeferred, heval, emit],
      Or.inr rfl, rfl, fun call d => .rekeyed hreg hmax hne⟩

theorem commitDeferred_makeUnreachable (s : BTreeSet M T) (n : NodeId) (m : T)
    (cdc : List (ChangeEvent T)) :
    ∃ s' r changes, s.commitDeferred (.makeUnreachable n m) cdc = some (s', r) ∧
      (r = none ∧ changes = [] ∨ r = some (none, cdc ++ (s.emit changes).2)) ∧
      s'.eventId = (s.emit changes).1.eventId ∧
      ∀ (call : Call T K) (d : Option T),
        Turn s (s.emit changes).2 call (.commit (.makeUnreachable n m) d cdc) s'
          (.done (call.answer d) (cdc ++ (s.emit changes).2)) changes := by
  rcases s.commit_makeUnreachable_cases n m with ⟨hnot, heval⟩ |
    ⟨a, e, b, hcut, hn, hkey, ⟨k, hmax, hle, heval⟩ | ⟨hlt, heval⟩⟩
  · refine ⟨s, none, [], by simp [commitDeferred, heval], Or.inl ⟨rfl, rfl⟩, rfl, fun call d => ?_⟩
    rw [emit, List.append_nil]
    exact .dropGone hnot
  · refine ⟨s, none, [], by simp [commitDeferred, heval], Or.inl ⟨rfl, rfl⟩, rfl, fun call d => ?_⟩
    rw [emit, List.append_nil]
    exact .kept ⟨e, by simp [hcut], hn, hkey⟩ hmax hle
  · have hsame : (s.dropState m).eventId = s.eventId := rfl
    obtain ⟨hstate, hevents⟩ := emit_after hsame rfl
      (if s.cdc then [.removeNode m] else [])
    refine ⟨{ s.dropState m with
      eventId := (s.emit (if s.cdc then [.removeNode m] else [])).1.eventId }, _,
      if s.cdc then [.removeNode m] else [], ?_, Or.inr rfl, ?_, fun call d =>
      .dropped ⟨e, by simp [hcut], hn, hkey⟩ hlt⟩
    · simp only [commitDeferred, heval, hstate, hevents]
    · rfl

end BTreeSet

end Commits

/-! ## §2 The inversion of a step -/

section Spec

variable {s s' : BTreeSet M T} {alone : Bool} {next : Next T}

/-- The step is one of `Turn`'s, its events carry the next identifiers, and a commit had
the lock to itself. -/
def Turned (s : BTreeSet M T) (alone : Bool) (call : Call T K) (phase : Phase T)
    (s' : BTreeSet M T) (next : Next T) : Prop :=
  ∃ changes, Turn s (s.emit changes).2 call phase s' next changes ∧
    s'.eventId = (s.emit changes).1.eventId ∧
    ∀ op d cdc, phase = .commit op d cdc → alone = true

/-- The edit of an insert. -/
theorem turned_putEdit {c : Bool} {v : T} {e : T × NodeId} (hsorted : s.Sorted)
    (h : turn s alone (.insert c v) (.edit e) = some (s', next)) :
    Turned s alone (.insert c v) (.edit e) s' next := by
  obtain ⟨s₁, outcome, heval, hedit⟩ := s.putEdit_spec e v (hsorted e.2)
  cases hedit with
  | full hfull =>
    simp only [turn, heval] at h
    cases h
    exact ⟨[], .full hfull, rfl, by simp⟩
  | added hroom hl ha hb hin hemit =>
    simp only [turn, heval] at h
    cases h
    have ⟨hid, hevents⟩ := BTreeSet.setNode_emit hemit
    subst hevents
    exact ⟨_, .added hroom hl ha hb hin (BTreeSet.wrote_emit hemit), hid, by simp⟩
  | raised hroom hm hbelow hemit =>
    simp only [turn, heval] at h
    cases h
    have ⟨hid, hevents⟩ := BTreeSet.setNode_emit hemit
    subst hevents
    exact ⟨_, .raised hroom hm hbelow (BTreeSet.wrote_emit hemit), hid, by simp⟩
  | @present a b x m hroom hl hx ha hb hm =>
    cases c with
    | true =>
      simp only [turn, heval, if_true] at h
      cases h
      exact ⟨[], .refused hl hx ha hb, rfl, by simp⟩
    | false =>
      obtain ⟨s₂, cdc, changes, hrep, hwrote, hchanges, hid, rfl⟩ := s.putReplace_spec e.2 m v hl
      simp only [turn, heval, Bool.false_eq_true, if_false, hrep] at h
      cases h
      exact ⟨changes, .replaced hl hx ha hb hm hwrote hchanges, hid, by simp⟩

/-- The commit of an insert. -/
theorem turned_putCommit {c : Bool} {v : T} {op : Operation T} {d : Option T}
    {cdc : List (ChangeEvent T)} (hdefers : (Call.insert c v : Call T K).Defers op d)
    (h : turn s alone (.insert c v) (.commit op d cdc) = some (s', next)) :
    Turned s alone (.insert c v) (.commit op d cdc) s' next := by
  cases alone with
  | false => simp [turn] at h
  | true =>
    cases op with
    | split n m w =>
      obtain ⟨rfl, rfl⟩ := hdefers
      rcases s.commit_split_cases n m w with ⟨hnot, heval⟩ |
        ⟨a, e, b, hcut, hn, hkey, ⟨-, hnil, heval⟩ | ⟨-, heval⟩⟩
      · simp only [turn, if_true, BTreeSet.commitDeferred, heval] at h
        cases h
        exact ⟨[], .splitGone hnot, rfl, by simp⟩
      · simp only [turn, if_true, BTreeSet.commitDeferred, heval] at h
        cases h
        exact ⟨[], .splitPanic ⟨e, by simp [hcut], hn, hkey⟩ hnil, rfl, by simp⟩
      · have ⟨hid, hcdc⟩ := s.commitSplit_same n m w
        have ⟨hstate, hevents⟩ := BTreeSet.emit_after hid hcdc (s.commitSplit n m w).2.2
        simp only [turn, if_true, BTreeSet.commitDeferred, heval, hstate, hevents] at h
        cases h
        exact ⟨_, .split ⟨e, by simp [hcut], hn, hkey⟩, rfl, by simp⟩
    | updateMax n m =>
      obtain rfl := hdefers
      obtain ⟨s₁, r, heval, hr, hid, hturn⟩ := s.commitDeferred_updateMax n m cdc
      have hnext : s₁ = s' ∧ Next.done (.put none) cdc = next := by
        rcases hr with rfl | rfl <;>
          simpa only [turn, if_true, heval, Option.some.injEq, Prod.mk.injEq] using h
      obtain ⟨rfl, rfl⟩ := hnext
      exact ⟨[], hturn (.insert c v) none, hid, by simp⟩
    | makeUnreachable n m => exact hdefers.elim

theorem turned_removeEdit {q : K} {e : T × NodeId} (hsorted : s.Sorted)
    (h : turn s alone (.remove q) (.edit e) = some (s', next)) :
    Turned s alone (.remove q) (.edit e) s' next := by
  obtain ⟨s₁, outcome, heval, hedit⟩ := s.removeEdit_spec e q (hsorted e.2)
  simp only [turn, heval] at h
  cases hedit with
  | absent habsent =>
    cases h
    exact ⟨[], .absent habsent, rfl, by simp⟩
  | inside hl hx hb hm hemit =>
    cases h
    have ⟨hid, hevents⟩ := BTreeSet.setNode_emit hemit
    subst hevents
    exact ⟨_, .inside hl hx hb hm (BTreeSet.wrote_emit hemit), hid, by simp⟩
  | lowered hl hx ha hemit =>
    cases h
    have ⟨hid, hevents⟩ := BTreeSet.setNode_emit hemit
    subst hevents
    exact ⟨_, .lowered hl hx ha (BTreeSet.wrote_emit hemit), hid, by simp⟩
  | emptied hl hx =>
    cases h
    exact ⟨[], .emptied hl hx ⟨rfl, rfl, rfl, rfl, rfl, rfl, rfl⟩, rfl, by simp⟩

theorem turned_removeCommit {q : K} {op : Operation T} {d : Option T}
    {cdc : List (ChangeEvent T)} (hdefers : (Call.remove q : Call T K).Defers op d)
    (h : turn s alone (.remove q) (.commit op d cdc) = some (s', next)) :
    Turned s alone (.remove q) (.commit op d cdc) s' next := by
  cases alone with
  | false => simp [turn] at h
  | true =>
    cases op with
    | split n m w => exact hdefers.elim
    | updateMax n m =>
      obtain ⟨s₁, r, heval, hr, hid, hturn⟩ := s.commitDeferred_updateMax n m cdc
      have hnext : s₁ = s' ∧ Next.done (.removed d) cdc = next := by
        rcases hr with rfl | rfl <;>
          simpa only [turn, if_true, heval, Option.some.injEq, Prod.mk.injEq] using h
      obtain ⟨rfl, rfl⟩ := hnext
      exact ⟨[], hturn (.remove q) d, hid, by simp⟩
    | makeUnreachable n m =>
      obtain ⟨s₁, r, changes, heval, hr, hid, hturn⟩ := s.commitDeferred_makeUnreachable n m cdc
      have hnext : s₁ = s' ∧ Next.done (.removed d) (cdc ++ (s.emit changes).2) = next := by
        rcases hr with ⟨rfl, rfl⟩ | rfl
        · simpa only [turn, if_true, heval, Option.some.injEq, Prod.mk.injEq, BTreeSet.emit,
            List.append_nil] using h
        · simpa only [turn, if_true, heval, Option.some.injEq, Prod.mk.injEq] using h
      obtain ⟨rfl, rfl⟩ := hnext
      exact ⟨changes, hturn (.remove q) d, hid, by simp⟩

theorem turned_read {call : Call T K} {q : K} (hread : call = .contains q ∨ call = .get q)
    {phase : Phase T} (hsorted : s.Sorted) (h : turn s alone call phase = some (s', next)) :
    Turned s alone call phase s' next := by
  have hcontains : ∀ n, Node.contains (s.nodes n) q = (find key q (s.nodes n)).isSome := by
    intro n
    rw [Bool.eq_iff_iff, find_isSome]
    exact Node.contains_eq_true q (hsorted n)
  cases phase with
  | lookup =>
    cases hn : s.locateNode q with
    | none =>
      rcases hread with rfl | rfl <;> simp only [turn, hn] at h <;> cases h
      · exact ⟨[], .unlocated (Or.inl ⟨rfl, rfl⟩) hn, rfl, by simp⟩
      · exact ⟨[], .unlocated (Or.inr ⟨rfl, rfl⟩) hn, rfl, by simp⟩
    | some n =>
      rcases hread with rfl | rfl <;> simp only [turn, hn] at h <;> cases h
      · exact ⟨[], .located (Or.inl rfl) hn, rfl, by simp⟩
      · exact ⟨[], .located (Or.inr rfl) hn, rfl, by simp⟩
  | search n =>
    rcases hread with rfl | rfl <;> simp only [turn] at h <;> cases h
    · exact ⟨[], .searched (Or.inl ⟨rfl, by rw [hcontains]⟩), rfl, by simp⟩
    · exact ⟨[], .searched (Or.inr ⟨rfl, by rw [Node.trySelect_spec q (hsorted n)]⟩), rfl,
        by simp⟩
  | edit e => rcases hread with rfl | rfl <;> simp [turn] at h
  | release => rcases hread with rfl | rfl <;> simp [turn] at h
  | tryWrite => rcases hread with rfl | rfl <;> simp [turn] at h
  | insertFirst => rcases hread with rfl | rfl <;> simp [turn] at h
  | commit op d cdc => rcases hread with rfl | rfl <;> simp [turn] at h

/-- **Inversion**: what the machine does in one step of a call is in `Turn`. -/
theorem turn_spec {call : Call T K} {phase : Phase T} (hsorted : s.Sorted)
    (hdefers : ∀ op d cdc, phase = .commit op d cdc → call.Defers op d)
    (h : turn s alone call phase = some (s', next)) : Turned s alone call phase s' next := by
  cases call with
  | contains q => exact turned_read (Or.inl rfl) hsorted h
  | get q => exact turned_read (Or.inr rfl) hsorted h
  | insert c v =>
    cases phase with
    | lookup =>
      simp only [turn] at h
      cases he : s.lookupPut (key v) with
      | some e =>
        -- the node the value belongs to, or the last one
        rw [he] at h
        cases h
        exact ⟨[], .lookupPut he, rfl, by simp⟩
      | none =>
        rw [he] at h
        cases h
        exact ⟨[], .lookupFirst he, rfl, by simp⟩
    | release =>
      simp only [turn] at h
      cases hnode : s.firstNode v with
      | some node =>
        rw [hnode] at h
        cases h
        have hfits : s.Allocates := by
          by_contra hnot
          simp [BTreeSet.firstNode_eq_none.mpr hnot] at hnode
        exact ⟨[], .release hfits, rfl, by simp⟩
      | none =>
        rw [hnode] at h
        cases h
        exact ⟨[], .overflow (BTreeSet.firstNode_eq_none.mp hnode), rfl, by simp⟩
    | tryWrite =>
      simp only [turn] at h
      split at h <;> cases h
      · exact ⟨[], .locked, rfl, by simp⟩
      · exact ⟨[], .retry, rfl, by simp⟩
    | insertFirst =>
      obtain ⟨s₁, heval, hcreated, hid⟩ := s.insertFirst_spec v
      simp only [turn, heval] at h
      cases h
      exact ⟨_, .first hcreated, hid, by simp⟩
    | edit e => exact turned_putEdit hsorted h
    | commit op d cdc => exact turned_putCommit (hdefers op d cdc rfl) h
    | search n => simp [turn] at h
  | remove q =>
    cases phase with
    | lookup =>
      simp only [turn] at h
      cases he : s.lookupRemove q with
      | some e =>
        rw [he] at h
        cases h
        exact ⟨[], .lookupRemove he, rfl, by simp⟩
      | none =>
        rw [he] at h
        cases h
        exact ⟨[], .missed he, rfl, by simp⟩
    | edit e => exact turned_removeEdit hsorted h
    | commit op d cdc => exact turned_removeCommit (hdefers op d cdc rfl) h
    -- a remove never creates a node, and never only reads
    | release => simp [turn] at h
    | tryWrite => simp [turn] at h
    | insertFirst => simp [turn] at h
    | search n => simp [turn] at h

end Spec

end IndexSet.Concurrent
