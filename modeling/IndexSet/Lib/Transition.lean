import Mathlib.Algebra.BigOperators.Group.Finset.Piecewise
import Mathlib.Algebra.GroupWithZero.Nat
import Mathlib.Data.Fintype.BigOperators
import Mathlib.Data.List.Basic
import Mathlib.Data.Option.Basic

/-!
# Runs of a Labelled Transition System

A system is a partial step function `step : σ → ℓ → Option σ`: a state and a
label determine the next state, and `none` means the label is not enabled.
A schedule is a list of labels.  Interleavings of any number of threads are
schedules whose labels name the thread that moves.

- `run`: execute a schedule;
- `Along P`: every step of a schedule meets `P`, a condition on the state
  *before* the step and the label;
- `run_invariant`: the induction rule — what every step preserves holds at the end
  of the run;
- `run_dichotomy`: when the end of a run shows whether its steps met a condition;
- `run_amortised`: how many steps of one kind a run can have, by a potential;
- `sum_update`: a sum over threads after one of them has moved.
-/

namespace Transition

variable {σ ℓ : Type*} (step : σ → ℓ → Option σ)

/-- Execute a schedule from `s`; `none` when some label is not enabled. -/
def run : σ → List ℓ → Option σ
  | s, [] => some s
  | s, l :: ls => (step s l).bind fun s' => run s' ls

/-- Every step the schedule takes from `s` meets `P`. -/
def Along (P : σ → ℓ → Prop) : σ → List ℓ → Prop
  | _, [] => True
  | s, l :: ls =>
      P s l ∧
        match step s l with
        | some s' => Along P s' ls
        | none => True

instance decidableAlong (P : σ → ℓ → Prop) [∀ s l, Decidable (P s l)] :
    ∀ s ls, Decidable (Along step P s ls)
  | _, [] => isTrue trivial
  | s, l :: ls =>
      have : Decidable
          (match step s l with
           | some s' => Along step P s' ls
           | none => True) :=
        match step s l with
        | some s' => decidableAlong P s' ls
        | none => isTrue trivial
      inferInstanceAs (Decidable (_ ∧ _))

variable {step}

@[simp] theorem run_nil (s : σ) : run step s [] = some s := rfl

theorem run_cons {s s' : σ} {l : ℓ} {ls : List ℓ} :
    run step s (l :: ls) = some s' ↔ ∃ s₁, step s l = some s₁ ∧ run step s₁ ls = some s' := by
  simp [run, Option.bind_eq_some_iff]

theorem run_append {s s' : σ} {ls₁ ls₂ : List ℓ} :
    run step s (ls₁ ++ ls₂) = some s' ↔
      ∃ s₁, run step s ls₁ = some s₁ ∧ run step s₁ ls₂ = some s' := by
  induction ls₁ generalizing s with
  | nil => simp
  | cons l ls₁ ih =>
    rw [List.cons_append, run_cons]
    constructor
    · rintro ⟨s₁, hs₁, h⟩
      obtain ⟨s₂, hs₂, h⟩ := ih.mp h
      exact ⟨s₂, run_cons.mpr ⟨s₁, hs₁, hs₂⟩, h⟩
    · rintro ⟨s₂, hs₂, h⟩
      obtain ⟨s₁, hs₁, hs₂⟩ := run_cons.mp hs₂
      exact ⟨s₁, hs₁, ih.mpr ⟨s₂, hs₂, h⟩⟩

theorem along_cons {P : σ → ℓ → Prop} {s s' : σ} {l : ℓ} {ls : List ℓ}
    (h : Along step P s (l :: ls)) (hs : step s l = some s') : P s l ∧ Along step P s' ls := by
  unfold Along at h
  rw [hs] at h
  exact h

/-- A condition along a schedule holds along its two parts. -/
theorem along_append {P : σ → ℓ → Prop} {s s₁ : σ} {ls₁ ls₂ : List ℓ}
    (h : Along step P s (ls₁ ++ ls₂)) (hrun : run step s ls₁ = some s₁) :
    Along step P s ls₁ ∧ Along step P s₁ ls₂ := by
  induction ls₁ generalizing s with
  | nil =>
    cases hrun
    exact ⟨trivial, h⟩
  | cons l ls₁ ih =>
    obtain ⟨s', hs', hrun⟩ := run_cons.mp hrun
    obtain ⟨hl, hls⟩ := along_cons h hs'
    obtain ⟨hfirst, hsecond⟩ := ih hls hrun
    refine ⟨⟨hl, ?_⟩, hsecond⟩
    rw [hs']
    exact hfirst

/-- A weaker condition on the same steps. -/
theorem Along.imp {P Q : σ → ℓ → Prop} (h : ∀ s l, P s l → Q s l) {s : σ} {ls : List ℓ}
    (hP : Along step P s ls) : Along step Q s ls := by
  induction ls generalizing s with
  | nil => trivial
  | cons l ls ih =>
    unfold Along at hP ⊢
    refine ⟨h s l hP.1, ?_⟩
    cases hs : step s l with
    | none => trivial
    | some s' =>
      rw [hs] at hP
      exact ih hP.2

/-- A condition on labels alone holds along the schedule when it holds of its labels. -/
theorem along_of_forall_mem {Q : ℓ → Prop} {s : σ} {ls : List ℓ} (h : ∀ l ∈ ls, Q l) :
    Along step (fun _ l => Q l) s ls := by
  induction ls generalizing s with
  | nil => trivial
  | cons l ls ih =>
    refine ⟨h l (List.mem_cons_self ..), ?_⟩
    cases step s l with
    | none => trivial
    | some s' => exact ih fun l' hl' => h l' (List.mem_cons_of_mem _ hl')

/-- A state that no step leaves. -/
theorem along_of_stays {P : σ → ℓ → Prop} {s : σ} (hstay : ∀ l, step s l = none ∨ step s l = some s)
    (hP : ∀ l, P s l) (ls : List ℓ) : Along step P s ls := by
  induction ls with
  | nil => trivial
  | cons l ls ih =>
    refine ⟨hP l, ?_⟩
    rcases hstay l with hnone | hsome
    · rw [hnone]
      trivial
    · rw [hsome]
      exact ih

/-- The other way round for a schedule that runs to its end. -/
theorem forall_mem_of_along {Q : ℓ → Prop} {s s' : σ} {ls : List ℓ}
    (h : Along step (fun _ l => Q l) s ls) (hrun : run step s ls = some s') : ∀ l ∈ ls, Q l := by
  induction ls generalizing s with
  | nil => simp
  | cons l ls ih =>
    obtain ⟨s₁, hs₁, hrun⟩ := run_cons.mp hrun
    obtain ⟨hl, hls⟩ := along_cons h hs₁
    exact List.forall_mem_cons.mpr ⟨hl, ih hls hrun⟩

/-- Schedules name two or three threads by literals of `Fin`. -/
instance neZero_two : NeZero 2 := ⟨by decide⟩

instance neZero_three : NeZero 3 := ⟨by decide⟩

/-- A run found by executing its schedule. -/
theorem exists_run (P : σ → Bool) (step : σ → ℓ → Option σ) (s : σ) (ls : List ℓ)
    (h : (run step s ls).any P = true) :
    ∃ s', run step s ls = some s' ∧ P s' = true := by
  cases hrun : run step s ls with
  | none => simp [hrun] at h
  | some s' => exact ⟨s', rfl, by simpa [hrun] using h⟩

/-- **Invariant rule**: an invariant that every step meeting `P` preserves holds after
every run whose steps all meet `P`. -/
theorem run_invariant {P : σ → ℓ → Prop} {I : σ → Prop}
    (hstep : ∀ s l s', I s → P s l → step s l = some s' → I s')
    {s s' : σ} {ls : List ℓ} (hI : I s) (hP : Along step P s ls)
    (hrun : run step s ls = some s') : I s' := by
  induction ls generalizing s with
  | nil =>
    cases hrun
    exact hI
  | cons l ls ih =>
    obtain ⟨s₁, hs₁, hrun⟩ := run_cons.mp hrun
    have ⟨hl, hls⟩ := along_cons hP hs₁
    exact ih (hstep s l s₁ hI hl hs₁) hls hrun

/-- **Dichotomy rule**: while every step meets `P` the run stays in `J`; the first step that
does not takes it to `K`, where it stays.  So the end of the run shows whether every step
met `P`. -/
theorem run_dichotomy {P R : σ → ℓ → Prop} {J K : σ → Prop}
    (hkeep : ∀ s l s', J s → R s l → P s l → step s l = some s' → J s')
    (hbreak : ∀ s l s', J s → R s l → ¬ P s l → step s l = some s' → K s')
    (hstay : ∀ s l s', K s → R s l → step s l = some s' → K s')
    {s s' : σ} {ls : List ℓ} (hJ : J s) (hR : Along step R s ls)
    (hrun : run step s ls = some s') :
    (Along step P s ls ∧ J s') ∨ (¬ Along step P s ls ∧ K s') := by
  induction ls generalizing s with
  | nil =>
    cases hrun
    exact Or.inl ⟨trivial, hJ⟩
  | cons l ls ih =>
    obtain ⟨s₁, hs₁, hrun⟩ := run_cons.mp hrun
    have ⟨hl, hls⟩ := along_cons hR hs₁
    by_cases hP : P s l
    · rcases ih (hkeep s l s₁ hJ hl hP hs₁) hls hrun with ⟨halong, hend⟩ | ⟨hnot, hend⟩
      · refine Or.inl ⟨⟨hP, ?_⟩, hend⟩
        rw [hs₁]
        exact halong
      · exact Or.inr ⟨fun h => hnot (along_cons h hs₁).2, hend⟩
    · exact Or.inr ⟨fun h => hP h.1,
        run_invariant hstay (hbreak s l s₁ hJ hl hP hs₁) hls hrun⟩

/-- A quantity summed over the steps of a schedule. -/
def total (step : σ → ℓ → Option σ) (f : σ → ℓ → ℕ) : σ → List ℓ → ℕ
  | _, [] => 0
  | s, l :: ls =>
      f s l +
        match step s l with
        | some s' => total step f s' ls
        | none => 0

theorem total_mul (f : σ → ℓ → ℕ) (c : ℕ) (s : σ) (ls : List ℓ) :
    total step (fun s l => c * f s l) s ls = c * total step f s ls := by
  induction ls generalizing s with
  | nil => rfl
  | cons l ls ih =>
    rw [total, total, Nat.mul_add]
    cases step s l with
    | none => rfl
    | some s' => exact congrArg _ (ih s')

/-- **Amortisation rule**: if every move uses up potential, and potential comes only from what
is paid for or allowed, then a run has no more moves than the potential it began with, what was
paid for, and what was allowed. -/
theorem run_amortised (step : σ → ℓ → Option σ) (moves : ℓ → Bool) {I : σ → Prop}
    (potential paid : σ → ℕ) (allowed : σ → ℓ → ℕ)
    (hstep : ∀ s l s', I s → step s l = some s' → I s' ∧
      potential s' + paid s + (if moves l then 1 else 0) ≤
        potential s + paid s' + allowed s l)
    {s s' : σ} {ls : List ℓ} (hI : I s) (hrun : run step s ls = some s') :
    potential s' + paid s + ls.countP moves ≤
      potential s + paid s' + total step allowed s ls := by
  induction ls generalizing s with
  | nil =>
    cases hrun
    simp
  | cons l ls ih =>
    obtain ⟨s₁, hs₁, hrun⟩ := run_cons.mp hrun
    obtain ⟨hI₁, hle⟩ := hstep s l s₁ hI hs₁
    have hrest := ih hI₁ hrun
    rw [total, hs₁, List.countP_cons]
    dsimp only
    omega

/-- What is summed over all threads changes by what the moving thread gives up and gets. -/
theorem sum_update {ι α A : Type*} [DecidableEq ι] [Fintype ι] [AddCommMonoid A] (f : α → A)
    (threads : ι → α) (t : ι) (x : α) :
    (∑ u, f (Function.update threads t x u)) + f (threads t) = (∑ u, f (threads u)) + f x := by
  have hupdate : ∀ u, f (Function.update threads t x u) =
      Function.update (fun u => f (threads u)) t (f x) u := fun u => by
    by_cases hu : u = t
    · subst hu
      simp
    · simp [hu]
  rw [Finset.sum_congr rfl fun u _ => hupdate u, Finset.sum_update_of_mem (Finset.mem_univ t),
    Finset.sdiff_singleton_eq_erase, ← Finset.add_sum_erase _ _ (Finset.mem_univ t)]
  ac_rfl

end Transition
