import IndexSet.Lib.Transition

/-!
# Pools of Containers

A program that works with several containers of one kind at once: it creates them, changes
one, moves the content of one into another and splits one into two.  The containers are
numbered as they appear.

- `Ops`: the operations of one kind of container, partial where they can panic;
- `step`: what an action does to the pool;
- `step_forall`, `step_exists`: a property of every container, or of some container, goes
  through a step when the operations keep it;
- `run_forall_iff`: a property of every container, which splitting alone can destroy.

Independent of any particular container.
-/

namespace Pool

/-- The operations of a container `S` with actions `A` and places to split at `κ`. -/
structure Ops (S A κ : Type*) where
  create : S
  act : S → A → Option S
  append : S → S → Option (S × S)
  splitOff : S → κ → Option (S × S)

/-- An action on a pool: containers are named by their numbers. -/
inductive Action (A κ : Type*) where
  | create
  | act (i : ℕ) (a : A)
  | append (i j : ℕ)
  | splitOff (i : ℕ) (place : κ)
  deriving DecidableEq, Repr

/-- The action splits a container. -/
def Action.IsSplitOff {A κ : Type*} : Action A κ → Prop
  | .splitOff _ _ => True
  | _ => False

instance {A κ : Type*} : ∀ a : Action A κ, Decidable a.IsSplitOff
  | .create => isFalse id
  | .act _ _ => isFalse id
  | .append _ _ => isFalse id
  | .splitOff _ _ => isTrue trivial

variable {S A κ : Type*} (ops : Ops S A κ)

/-- What an action does; `none` is a panic, or a number that names no container. -/
def step : List S → Action A κ → Option (List S)
  | pool, .create => some (pool ++ [ops.create])
  | pool, .act i a => do
    let s ← pool[i]?
    let s ← ops.act s a
    return pool.set i s
  | pool, .append i j => do
    let s ← pool[i]?
    let other ← pool[j]?
    if i = j then none
    else
      let (s, other) ← ops.append s other
      return (pool.set i s).set j other
  | pool, .splitOff i place => do
    let s ← pool[i]?
    let (s, latter) ← ops.splitOff s place
    return pool.set i s ++ [latter]

variable {ops}

/-- What the operations keep of a property of containers, given what they may rely on. -/
structure Keeps (ops : Ops S A κ) (G P : S → Prop) : Prop where
  act : ∀ s a s', G s → P s → ops.act s a = some s' → P s'
  appendSelf : ∀ s other s' other', G s → G other → P s → ops.append s other = some (s', other') →
    P s'
  appendOther : ∀ s other s' other', G s → G other → P other →
    ops.append s other = some (s', other') → P other'
  splitOff : ∀ s place s' latter, G s → P s → ops.splitOff s place = some (s', latter) → P s'

/-- **Every container**: a property that the new containers have and the operations keep. -/
theorem step_forall {G P : S → Prop} (hkeeps : Keeps ops G P) (hcreate : P ops.create)
    {pool pool' : List S} {action : Action A κ}
    (hlatter : ∀ i place s s' latter, action = .splitOff i place → G s → P s →
      ops.splitOff s place = some (s', latter) → P latter)
    (hG : ∀ s ∈ pool, G s) (hP : ∀ s ∈ pool, P s) (hstep : step ops pool action = some pool') :
    ∀ s ∈ pool', P s := by
  have hset : ∀ (l : List S) i s, (∀ s ∈ l, P s) → P s → ∀ s' ∈ l.set i s, P s' := by
    intro l i s hl hs s' hs'
    rcases List.mem_or_eq_of_mem_set hs' with hs' | rfl
    · exact hl s' hs'
    · exact hs
  cases action with
  | create =>
    cases hstep
    intro s hs
    rcases List.mem_append.mp hs with hs | hs
    · exact hP s hs
    · exact List.mem_singleton.mp hs ▸ hcreate
  | act i a =>
    simp only [step, Option.bind_eq_bind, Option.bind_eq_some_iff] at hstep
    obtain ⟨s, hs, s', hact, hstep⟩ := hstep
    cases hstep
    have hmem := List.mem_of_getElem? hs
    exact hset pool i s' hP (hkeeps.act s a s' (hG s hmem) (hP s hmem) hact)
  | append i j =>
    simp only [step, Option.bind_eq_bind, Option.bind_eq_some_iff] at hstep
    obtain ⟨s, hs, other, hother, hstep⟩ := hstep
    split at hstep
    · cases hstep
    · obtain ⟨⟨s', other'⟩, happend, hstep⟩ := Option.bind_eq_some_iff.mp hstep
      cases hstep
      have hmem := List.mem_of_getElem? hs
      have hmem' := List.mem_of_getElem? hother
      -- two containers change
      refine hset _ j other' (hset pool i s' hP ?_) ?_
      · exact hkeeps.appendSelf s other s' other' (hG s hmem) (hG other hmem') (hP s hmem) happend
      · exact hkeeps.appendOther s other s' other' (hG s hmem) (hG other hmem') (hP other hmem')
          happend
  | splitOff i place =>
    simp only [step, Option.bind_eq_bind, Option.bind_eq_some_iff] at hstep
    obtain ⟨s, hs, ⟨s', latter⟩, hsplit, hstep⟩ := hstep
    cases hstep
    have hmem := List.mem_of_getElem? hs
    intro t ht
    rcases List.mem_append.mp ht with ht | ht
    · exact hset pool i s' hP
        (hkeeps.splitOff s place s' latter (hG s hmem) (hP s hmem) hsplit) t ht
    · rw [List.mem_singleton.mp ht]
      exact hlatter i place s s' latter rfl (hG s hmem) (hP s hmem) hsplit

/-- **Some container**: a property that the operations keep stays in the pool. -/
theorem step_exists {G P : S → Prop} (hkeeps : Keeps ops G P) {pool pool' : List S}
    {action : Action A κ} (hG : ∀ s ∈ pool, G s) (hP : ∃ s ∈ pool, P s)
    (hstep : step ops pool action = some pool') : ∃ s ∈ pool', P s := by
  obtain ⟨t, ht, hPt⟩ := hP
  obtain ⟨n, hn⟩ := List.mem_iff_getElem?.mp ht
  -- the container under the number of `t` has the property afterwards
  have hset : ∀ (l : List S) i s, (∃ x, l[n]? = some x ∧ P x) → (n = i → P s) →
      ∃ x, (l.set i s)[n]? = some x ∧ P x := by
    rintro l i s ⟨x, hx, hPx⟩ hs
    by_cases hni : n = i
    · subst hni
      have hlt := (List.getElem?_eq_some_iff.mp hx).1
      exact ⟨s, by rw [List.getElem?_set_self hlt], hs rfl⟩
    · exact ⟨x, by rw [List.getElem?_set_ne (Ne.symm hni), hx], hPx⟩
  have hmem : ∀ {l : List S}, (∃ x, l[n]? = some x ∧ P x) → ∃ s ∈ l, P s := by
    rintro l ⟨x, hx, hPx⟩
    exact ⟨x, List.mem_of_getElem? hx, hPx⟩
  cases action with
  | create =>
    cases hstep
    exact ⟨t, List.mem_append_left _ ht, hPt⟩
  | act i a =>
    simp only [step, Option.bind_eq_bind, Option.bind_eq_some_iff] at hstep
    obtain ⟨s, hs, s', hact, hstep⟩ := hstep
    cases hstep
    refine hmem (hset pool i s' ⟨t, hn, hPt⟩ ?_)
    rintro rfl
    obtain rfl : s = t := Option.some.inj (hs.symm.trans hn)
    exact hkeeps.act s a s' (hG s ht) hPt hact
  | append i j =>
    simp only [step, Option.bind_eq_bind, Option.bind_eq_some_iff] at hstep
    obtain ⟨s, hs, other, hother, hstep⟩ := hstep
    split at hstep
    · cases hstep
    · obtain ⟨⟨s', other'⟩, happend, hstep⟩ := Option.bind_eq_some_iff.mp hstep
      cases hstep
      have hGs := hG s (List.mem_of_getElem? hs)
      have hGother := hG other (List.mem_of_getElem? hother)
      refine hmem (hset _ j other' (hset pool i s' ⟨t, hn, hPt⟩ ?_) ?_)
      · rintro rfl
        obtain rfl : s = t := Option.some.inj (hs.symm.trans hn)
        exact hkeeps.appendSelf s other s' other' hGs hGother hPt happend
      · rintro rfl
        obtain rfl : other = t := Option.some.inj (hother.symm.trans hn)
        exact hkeeps.appendOther s other s' other' hGs hGother hPt happend
  | splitOff i place =>
    simp only [step, Option.bind_eq_bind, Option.bind_eq_some_iff] at hstep
    obtain ⟨s, hs, ⟨s', latter⟩, hsplit, hstep⟩ := hstep
    cases hstep
    obtain ⟨x, hx, hPx⟩ := hmem (hset pool i s' ⟨t, hn, hPt⟩ (by
      rintro rfl
      obtain rfl : s = t := Option.some.inj (hs.symm.trans hn)
      exact hkeeps.splitOff s place s' latter (hG s ht) hPt hsplit))
    exact ⟨x, List.mem_append_left _ hx, hPx⟩

/-- What is needed of the operations to tell when a property `P` of every container is lost:
`U` is what they rely on, `B` what a container shows that has lost `P` for good, and `safe`
says that splitting does not lose it. -/
structure Splits (ops : Ops S A κ) (U P B : S → Prop) (safe : Prop) : Prop where
  create : U ops.create ∧ P ops.create
  usable : Keeps ops U U
  good : Keeps ops U P
  bad : Keeps ops U B
  latter_usable : ∀ s place s' latter, U s → ops.splitOff s place = some (s', latter) → U latter
  latter_good : safe → ∀ s place s' latter, U s → P s →
    ops.splitOff s place = some (s', latter) → P latter
  latter_bad : ¬ safe → ∀ s place s' latter, U s → ops.splitOff s place = some (s', latter) →
    B latter
  not_both : ∀ s, P s → ¬ B s

theorem Splits.step_usable {U P B : S → Prop} {safe : Prop} (h : Splits ops U P B safe)
    {pool pool' : List S} {action : Action A κ} (hU : ∀ s ∈ pool, U s)
    (hstep : step ops pool action = some pool') : ∀ s ∈ pool', U s :=
  step_forall h.usable h.create.1
    (fun _ place s s' latter _ hs _ hsplit => h.latter_usable s place s' latter hs hsplit)
    hU hU hstep

/-- **Splitting decides**: after a run that starts with no container all have the property if
and only if splitting is safe or no action of the run has split a container. -/
theorem run_forall_iff {U P B : S → Prop} {safe : Prop} (h : Splits ops U P B safe)
    {actions : List (Action A κ)} {pool : List S}
    (hrun : Transition.run (step ops) [] actions = some pool) :
    (∀ s ∈ pool, P s) ↔ safe ∨ ∀ action ∈ actions, ¬ action.IsSplitOff := by
  have hends := Transition.run_dichotomy (P := fun _ action => safe ∨ ¬ action.IsSplitOff)
    (R := fun _ _ => True) (J := fun pool => ∀ s ∈ pool, U s ∧ P s)
    (K := fun pool => (∀ s ∈ pool, U s) ∧ ∃ s ∈ pool, B s) ?_ ?_ ?_
    (by simp) (Transition.along_of_forall_mem fun _ _ => trivial) hrun
  · rcases hends with ⟨halong, hgood⟩ | ⟨hnot, -, s, hs, hbad⟩
    · refine ⟨fun _ => ?_, fun _ s hs => (hgood s hs).2⟩
      by_cases hsafe : safe
      · exact Or.inl hsafe
      · refine Or.inr (Transition.forall_mem_of_along (halong.imp ?_) hrun)
        exact fun _ action hstep => hstep.resolve_left hsafe
    · refine ⟨fun hgood => absurd hbad (h.not_both s (hgood s hs)), fun hcond => absurd ?_ hnot⟩
      rcases hcond with hsafe | hnone
      · exact Transition.along_of_forall_mem fun _ _ => Or.inl hsafe
      · exact Transition.along_of_forall_mem fun action hmem => Or.inr (hnone action hmem)
  · -- a step that is fine keeps the property everywhere
    intro pool action pool' hJ _ hfine hstep s hs
    have hU := fun s hs => (hJ s hs).1
    refine ⟨h.step_usable hU hstep s hs, step_forall h.good h.create.2 ?_ hU
      (fun s hs => (hJ s hs).2) hstep s hs⟩
    rintro i place t t' latter rfl hUt hPt hsplit
    have hsafe := hfine.resolve_right fun hnot => hnot trivial
    exact h.latter_good hsafe t place t' latter hUt hPt hsplit
  · -- an unsafe split makes a container that has lost it
    intro pool action pool' hJ _ hnot hstep
    rw [not_or, not_not] at hnot
    obtain ⟨hrisk, hsplitOff⟩ := hnot
    have hU := fun s hs => (hJ s hs).1
    refine ⟨h.step_usable hU hstep, ?_⟩
    cases action with
    | create => exact absurd hsplitOff id
    | act i a => exact absurd hsplitOff id
    | append i j => exact absurd hsplitOff id
    | splitOff i place =>
      simp only [step, Option.bind_eq_bind, Option.bind_eq_some_iff] at hstep
      obtain ⟨s, hs, ⟨s', latter⟩, hsplit, hstep⟩ := hstep
      cases hstep
      exact ⟨latter, by simp,
        h.latter_bad hrisk s place s' latter (hU s (List.mem_of_getElem? hs)) hsplit⟩
  · intro pool action pool' hK _ hstep
    exact ⟨h.step_usable hK.1 hstep, step_exists h.bad hK.1 hK.2 hstep⟩

end Pool
