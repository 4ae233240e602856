import IndexSet.Lib.KeyedList

/-!
# Ranges of Keys

A range is a start bound and an end bound, each inclusive, exclusive or missing.

- `InRange`: the keys between the two bounds;
- `Proper`: the start does not lie behind the end, and the two do not exclude one key;
- `NotAfter`: the start does not lie behind the end;
- `Ascending.cut_range`: a range cuts an ascending list into what is before it, what is in it
  and what is behind it;
- `filter_cut_range`: for a proper range these parts are filters of the list.

Independent of any particular container.
-/

namespace KeyedList

/-- An endpoint of a range. -/
inductive Bound (κ : Type*) where
  | included (bound : κ)
  | excluded (bound : κ)
  | unbounded
  deriving DecidableEq, Repr

variable {α κ : Type*} [LinearOrder κ]

/-- The key lies behind a start bound. -/
def Bound.Starts : Bound κ → κ → Prop
  | .included bound, k => bound ≤ k
  | .excluded bound, k => bound < k
  | .unbounded, _ => True

/-- The key lies before an end bound. -/
def Bound.Ends : Bound κ → κ → Prop
  | .included bound, k => k ≤ bound
  | .excluded bound, k => k < bound
  | .unbounded, _ => True

/-- The key lies between the bounds. -/
def InRange (lo hi : Bound κ) (k : κ) : Prop := lo.Starts k ∧ hi.Ends k

/-- The start is at most the end, and not both are excluded at the same key. -/
def Proper : Bound κ → Bound κ → Prop
  | .excluded a, .excluded b => a < b
  | .included a, .included b => a ≤ b
  | .included a, .excluded b => a ≤ b
  | .excluded a, .included b => a ≤ b
  | .unbounded, _ => True
  | _, .unbounded => True

/-- The start is at most the end. -/
def NotAfter : Bound κ → Bound κ → Prop
  | .excluded a, .excluded b => a ≤ b
  | lo, hi => Proper lo hi

instance : ∀ (lo : Bound κ) (k : κ), Decidable (lo.Starts k)
  | .included bound, k => inferInstanceAs (Decidable (bound ≤ k))
  | .excluded bound, k => inferInstanceAs (Decidable (bound < k))
  | .unbounded, _ => isTrue trivial

instance : ∀ (hi : Bound κ) (k : κ), Decidable (hi.Ends k)
  | .included bound, k => inferInstanceAs (Decidable (k ≤ bound))
  | .excluded bound, k => inferInstanceAs (Decidable (k < bound))
  | .unbounded, _ => isTrue trivial

instance (lo hi : Bound κ) (k : κ) : Decidable (InRange lo hi k) :=
  inferInstanceAs (Decidable (_ ∧ _))

theorem Bound.Starts.mono {lo : Bound κ} {j k : κ} (h : lo.Starts j) (hjk : j ≤ k) :
    lo.Starts k := by
  cases lo with
  | included bound => exact le_trans h hjk
  | excluded bound => exact lt_of_lt_of_le h hjk
  | unbounded => trivial

theorem Bound.Ends.mono {hi : Bound κ} {j k : κ} (h : hi.Ends k) (hjk : j ≤ k) : hi.Ends j := by
  cases hi with
  | included bound => exact le_trans hjk h
  | excluded bound => exact lt_of_le_of_lt hjk h
  | unbounded => trivial

/-- A key before the start of a proper range is also before its end. -/
theorem Proper.ends {lo hi : Bound κ} (h : Proper lo hi) {k : κ} (hk : ¬ lo.Starts k) :
    hi.Ends k := by
  cases lo with
  | unbounded => exact absurd trivial hk
  | included a =>
    have hka : k < a := not_le.mp hk
    cases hi with
    | included b => exact hka.le.trans h
    | excluded b => exact hka.trans_le h
    | unbounded => trivial
  | excluded a =>
    have hka : k ≤ a := not_lt.mp hk
    cases hi with
    | included b => exact hka.trans h
    | excluded b => exact hka.trans_lt h
    | unbounded => trivial

/-- A key before the end of an inverted range does not lie behind its start. -/
theorem not_starts_of_inverted {lo hi : Bound κ} (h : ¬ Proper lo hi) {k : κ} (hk : hi.Ends k) :
    ¬ lo.Starts k := by
  cases lo with
  | unbounded => exact absurd trivial h
  | included a =>
    apply not_le.mpr
    cases hi with
    | included b => exact lt_of_le_of_lt hk (not_le.mp h)
    | excluded b => exact lt_trans hk (not_le.mp h)
    | unbounded => exact absurd trivial h
  | excluded a =>
    apply not_lt.mpr
    cases hi with
    | included b => exact le_trans hk (not_le.mp h).le
    | excluded b => exact hk.le.trans (not_lt.mp h)
    | unbounded => exact absurd trivial h

/-- Only a range that excludes both its ends at one key is not proper as well. -/
theorem NotAfter.proper {lo hi : Bound κ} (h : NotAfter lo hi) :
    Proper lo hi ∨ ∃ q, lo = .excluded q ∧ hi = .excluded q := by
  cases lo <;> cases hi <;> try exact Or.inl h
  rename_i a b
  rcases lt_or_eq_of_le (show a ≤ b from h) with hlt | rfl
  · exact Or.inl hlt
  · exact Or.inr ⟨a, rfl, rfl⟩

variable {key : α → κ} {l : List α}

/-- An ascending list is cut by a predicate that elements below others inherit from them. -/
theorem Ascending.cut_inherited (h : Ascending key l) {p : α → Prop} [DecidablePred p]
    (hp : ∀ x y, key x ≤ key y → p y → p x) :
    ∃ a b, l = a ++ b ∧ (∀ x ∈ a, p x) ∧ ∀ x ∈ b, ¬ p x := by
  induction l with
  | nil => exact ⟨[], [], rfl, by simp, by simp⟩
  | cons y l ih =>
    obtain ⟨hyl, hl⟩ := ascending_cons.mp h
    by_cases hy : p y
    · obtain ⟨a, b, rfl, ha, hb⟩ := ih hl
      exact ⟨y :: a, b, rfl, List.forall_mem_cons.mpr ⟨hy, ha⟩, hb⟩
    · refine ⟨[], y :: l, rfl, by simp, List.forall_mem_cons.mpr ⟨hy, fun x hx hpx => ?_⟩⟩
      exact hy (hp _ _ (hyl x hx).le hpx)

/-- An ascending list is cut by a predicate that holds on a lower part of the order. -/
theorem Ascending.cut_lower (h : Ascending key l) {p : κ → Prop} [DecidablePred p]
    (hp : ∀ j k, j ≤ k → p k → p j) :
    ∃ a b, l = a ++ b ∧ (∀ x ∈ a, p (key x)) ∧ ∀ x ∈ b, ¬ p (key x) :=
  h.cut_inherited fun x y => hp (key x) (key y)

/-- **The cut of a range**: before it, in it, behind it. -/
theorem Ascending.cut_range (h : Ascending key l) (lo hi : Bound κ) :
    ∃ before inside after, l = before ++ inside ++ after ∧
      (∀ x ∈ before, ¬ lo.Starts (key x)) ∧ (∀ x ∈ inside, InRange lo hi (key x)) ∧
      (∀ x ∈ after, ¬ hi.Ends (key x)) := by
  obtain ⟨a, after, rfl, ha, hafter⟩ :=
    h.cut_lower (p := hi.Ends) fun _ _ hjk hk => hk.mono hjk
  obtain ⟨before, inside, rfl, hbefore, hinside⟩ :=
    (ascending_append.mp h).1.cut_lower (p := fun k => ¬ lo.Starts k)
      fun _ _ hjk hk hj => hk (hj.mono hjk)
  refine ⟨before, inside, after, rfl, hbefore, fun x hx => ?_, hafter⟩
  exact ⟨not_not.mp (hinside x hx), ha x (List.mem_append_right _ hx)⟩

/-- The parts of the cut of a proper range, as filters. -/
theorem filter_cut_range {before inside after : List α} {lo hi : Bound κ}
    (hproper : Proper lo hi) (hbefore : ∀ x ∈ before, ¬ lo.Starts (key x))
    (hinside : ∀ x ∈ inside, InRange lo hi (key x)) (hafter : ∀ x ∈ after, ¬ hi.Ends (key x)) :
    (before ++ inside ++ after).filter (fun x => InRange lo hi (key x)) = inside ∧
      (before ++ inside ++ after).filter (fun x => ¬ lo.Starts (key x)) = before ∧
      (before ++ inside ++ after).filter (fun x => hi.Ends (key x)) = before ++ inside := by
  have hbehind : ∀ x ∈ after, lo.Starts (key x) := fun x hx => by
    by_contra hstart
    exact hafter x hx (hproper.ends hstart)
  have hends : ∀ x ∈ before, hi.Ends (key x) := fun x hx => hproper.ends (hbefore x hx)
  refine ⟨?_, ?_, ?_⟩
  · have h₁ : before.filter (fun x => InRange lo hi (key x)) = [] := by
      simpa [List.filter_eq_nil_iff] using fun x hx hin => hbefore x hx hin.1
    have h₂ : inside.filter (fun x => InRange lo hi (key x)) = inside := by
      simpa [List.filter_eq_self] using hinside
    have h₃ : after.filter (fun x => InRange lo hi (key x)) = [] := by
      simpa [List.filter_eq_nil_iff] using fun x hx hin => hafter x hx hin.2
    rw [List.filter_append, List.filter_append, h₁, h₂, h₃, List.nil_append, List.append_nil]
  · have h₁ : before.filter (fun x => ¬ lo.Starts (key x)) = before := by
      simpa [List.filter_eq_self] using hbefore
    have h₂ : inside.filter (fun x => ¬ lo.Starts (key x)) = [] := by
      simpa [List.filter_eq_nil_iff] using fun x hx => (hinside x hx).1
    have h₃ : after.filter (fun x => ¬ lo.Starts (key x)) = [] := by
      simpa [List.filter_eq_nil_iff] using hbehind
    rw [List.filter_append, List.filter_append, h₁, h₂, h₃, List.append_nil, List.append_nil]
  · have h₁ : before.filter (fun x => hi.Ends (key x)) = before := by
      simpa [List.filter_eq_self] using hends
    have h₂ : inside.filter (fun x => hi.Ends (key x)) = inside := by
      simpa [List.filter_eq_self] using fun x hx => (hinside x hx).2
    have h₃ : after.filter (fun x => hi.Ends (key x)) = [] := by
      simpa [List.filter_eq_nil_iff] using hafter
    rw [List.filter_append, List.filter_append, h₁, h₂, h₃, List.append_nil]

/-- Among the keys up to `q`, one that is present is not below it. -/
theorem length_filter_le (h : Ascending key l) {q : κ} {x : α} (hx : find key q l = some x) :
    (l.filter fun x => key x ≤ q).length = (l.filter fun x => key x < q).length + 1 := by
  obtain ⟨hmem, rfl⟩ := (find_eq_some h).mp hx
  obtain ⟨a, b, rfl⟩ := List.append_of_mem hmem
  have ⟨_, _, hbelow, habove⟩ := ascending_append_cons.mp h
  have h₁ : a.filter (fun y => key y ≤ key x) = a := by
    simpa [List.filter_eq_self] using fun y hy => (hbelow y hy).le
  have h₂ : b.filter (fun y => key y ≤ key x) = [] := by
    simpa [List.filter_eq_nil_iff, Above] using habove
  rw [List.filter_append, List.filter_append, h₁, filter_lt_eq_self hbelow,
    List.filter_cons_of_pos (by simp), h₂, List.filter_cons_of_neg (by simp),
    filter_lt_eq_nil habove]
  simp

/-- A key that is absent is not among those up to it. -/
theorem filter_le_eq {q : κ} (hq : find key q l = none) :
    l.filter (fun x => key x ≤ q) = l.filter fun x => key x < q := by
  refine List.filter_congr fun x hx => ?_
  have hne := find_eq_none.mp hq x hx
  simp [le_iff_lt_or_eq, hne]

end KeyedList
