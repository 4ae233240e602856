import Mathlib.Data.Set.Finite.Basic
import Mathlib.Order.Preorder.Finite

/-!
# Deadlock and Lock Order

Threads hold locks and wait for locks.  A deadlock is a group of threads each of which
waits for a lock that another one of the group holds.

- `not_deadlocked`: no deadlock when every thread waits for a lock that is below each lock
  it holds, in some order of the locks;
- `deadlocked_pair`: two threads, each with the lock the other one waits for.

The order may depend on the state, so it needs no meaning beyond the moment.
-/

namespace LockOrder

variable {ι L : Type*}

/-- **Deadlock**: a non-empty group of threads, each waiting for a lock that another member of
the group holds. -/
def Deadlocked (holds waits : ι → L → Prop) : Prop :=
  ∃ G : Set ι, G.Nonempty ∧ ∀ t ∈ G, ∃ l, waits t l ∧ ∃ u ∈ G, u ≠ t ∧ holds u l

variable {holds waits : ι → L → Prop}

/-- **Lock order**: threads that only wait for locks below all they hold never deadlock. -/
theorem not_deadlocked [Finite ι] {R : Type*} [Preorder R] (rank : L → R)
    (horder : ∀ t l l', holds t l → waits t l' → rank l' < rank l) :
    ¬ Deadlocked holds waits := by
  rintro ⟨G, ⟨t₀, ht₀⟩, hG⟩
  have ⟨l₀, _⟩ := hG t₀ ht₀
  have : Nonempty L := ⟨l₀⟩
  have : Nonempty ι := ⟨t₀⟩
  choose! lock hwaits holder hmem _ hholds using hG
  -- a member whose lock is the lowest waited for
  obtain ⟨t, ht, hmin⟩ := (Set.toFinite G).exists_minimalFor (fun t => rank (lock t)) G ⟨t₀, ht₀⟩
  have hlt : rank (lock (holder t)) < rank (lock t) :=
    horder (holder t) (lock t) (lock (holder t)) (hholds t ht) (hwaits _ (hmem t ht))
  exact absurd (hmin (hmem t ht) hlt.le) (not_le_of_gt hlt)

/-- Two threads, each with the lock the other one waits for. -/
theorem deadlocked_pair {t u : ι} {l l' : L} (hne : t ≠ u) (ht : holds t l') (hu : holds u l)
    (hwt : waits t l) (hwu : waits u l') : Deadlocked holds waits := by
  refine ⟨{t, u}, ⟨t, by simp⟩, fun x hx => ?_⟩
  rcases hx with rfl | rfl
  · exact ⟨l, hwt, u, by simp, hne.symm, hu⟩
  · exact ⟨l', hwu, t, by simp, hne, ht⟩

end LockOrder
