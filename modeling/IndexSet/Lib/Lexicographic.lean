import Mathlib.Data.List.Basic
import Mathlib.Order.Compare
import Mathlib.Order.Lattice

/-!
# Comparing Sequences That Are Cut into Blocks

The same sequence can be cut into blocks in many ways.  Comparing the blocks one after the
other is comparing the sequences only when the cuts play along.

- `compareLex_append_left`, `compareLex_append_of_not_isPrefix`: comparison behind a common
  prefix, and at a difference;
- `Aligned`: at the first block in which two sequences differ, a block that is a prefix of
  the other one is followed by something smaller;
- `compareLex_blocks_iff`: exactly then the comparison of the blocks is the comparison of
  the sequences.

Independent of any particular program.
-/

namespace Lexicographic

variable {α κ : Type*}

/-! ## §1 Sequences -/

/-- Comparing by a key is comparing the keys. -/
theorem compareLex_map [Ord κ] (f : α → κ) (a b : List α) :
    (List.compareLex fun x y => compare (f x) (f y)) a b =
      List.compareLex compare (a.map f) (b.map f) := by
  induction a generalizing b with
  | nil => cases b <;> simp [List.compareLex]
  | cons x a ih =>
    cases b with
    | nil => simp [List.compareLex]
    | cons y b =>
      rw [List.map_cons, List.map_cons, List.compareLex_cons_cons, List.compareLex_cons_cons, ih]

/-- The same block by block. -/
theorem compareLex_map_blocks [Ord κ] (f : α → κ) (a b : List (List α)) :
    (List.compareLex (List.compareLex fun x y => compare (f x) (f y))) a b =
      List.compareLex (List.compareLex compare) (a.map (List.map f)) (b.map (List.map f)) := by
  induction a generalizing b with
  | nil => cases b <;> simp [List.compareLex]
  | cons x a ih =>
    cases b with
    | nil => simp [List.compareLex]
    | cons y b =>
      rw [List.map_cons, List.map_cons, List.compareLex_cons_cons, List.compareLex_cons_cons, ih,
        compareLex_map]

/-- Equality element by element, by a key, is equality of the keys. -/
theorem isEqv_map {f : α → κ} {eqv : α → α → Bool} (h : ∀ x y, eqv x y = true ↔ f x = f y)
    (a b : List α) : a.isEqv b eqv = true ↔ a.map f = b.map f := by
  induction a generalizing b with
  | nil => cases b <;> simp [List.isEqv]
  | cons x a ih =>
    cases b with
    | nil => simp [List.isEqv]
    | cons y b => simp [List.isEqv, h, ih]

variable [LinearOrder κ]

theorem compareLex_self (a : List κ) : List.compareLex compare a a = .eq := by
  induction a with
  | nil => rfl
  | cons x a ih => rw [List.compareLex_cons_cons, ih, compare_eq_iff_eq.mpr rfl]; rfl

theorem compareLex_eq_iff {a b : List κ} : List.compareLex compare a b = .eq ↔ a = b := by
  induction a generalizing b with
  | nil => cases b <;> simp [List.compareLex]
  | cons x a ih =>
    cases b with
    | nil => simp [List.compareLex]
    | cons y b =>
      rw [List.compareLex_cons_cons, Ordering.then_eq_eq, ih, compare_eq_iff_eq, List.cons.injEq]

/-- A common prefix does not matter. -/
theorem compareLex_append_left (p a b : List κ) :
    List.compareLex compare (p ++ a) (p ++ b) = List.compareLex compare a b := by
  induction p with
  | nil => rfl
  | cons x p ih =>
    rw [List.cons_append, List.cons_append, List.compareLex_cons_cons, ih,
      compare_eq_iff_eq.mpr rfl]
    rfl

/-- Once two sequences differ it does not matter what follows. -/
theorem compareLex_append_of_not_isPrefix {x y : List κ} (hxy : ¬ x <+: y) (hyx : ¬ y <+: x)
    (a b : List κ) :
    List.compareLex compare (x ++ a) (y ++ b) = List.compareLex compare x y := by
  induction x generalizing y with
  | nil => exact absurd List.nil_prefix hxy
  | cons u x ih =>
    cases y with
    | nil => exact absurd List.nil_prefix hyx
    | cons v y =>
      rw [List.cons_append, List.cons_append, List.compareLex_cons_cons,
        List.compareLex_cons_cons]
      by_cases huv : u = v
      · subst huv
        rw [ih (fun h => hxy (List.cons_prefix_cons.mpr ⟨rfl, h⟩))
          fun h => hyx (List.cons_prefix_cons.mpr ⟨rfl, h⟩)]
      · have hne : compare u v ≠ .eq := fun h => huv (compare_eq_iff_eq.mp h)
        cases hc : compare u v with
        | eq => exact absurd hc hne
        | lt => rfl
        | gt => rfl

/-- A proper prefix comes first. -/
theorem compareLex_of_isPrefix {x z : List κ} (hz : z ≠ []) :
    List.compareLex compare x (x ++ z) = .lt ∧ List.compareLex compare (x ++ z) x = .gt := by
  obtain ⟨w, z, rfl⟩ := List.exists_cons_of_ne_nil hz
  have hlt := compareLex_append_left x [] (w :: z)
  have hgt := compareLex_append_left x (w :: z) []
  rw [List.append_nil] at hlt hgt
  rw [hlt, hgt]
  exact ⟨rfl, rfl⟩

/-! ## §2 Blocks -/

/-- At the first block in which the two differ, neither block is a prefix of the other, or
what follows the shorter one is smaller than what follows it on the other side. -/
def Aligned : List (List κ) → List (List κ) → Prop
  | [], b => b.flatten = [] → b = []
  | x :: a, [] => (x :: a).flatten ≠ []
  | x :: a, y :: b =>
    if x = y then Aligned a b
    else
      (x <+: y → List.compareLex compare a.flatten (y.drop x.length ++ b.flatten) = .lt) ∧
        (y <+: x → List.compareLex compare (x.drop y.length ++ a.flatten) b.flatten = .gt)

/-- **Comparing blocks** is comparing the sequences exactly when the blocks are aligned. -/
theorem compareLex_blocks_iff (a b : List (List κ)) :
    List.compareLex (List.compareLex compare) a b = List.compareLex compare a.flatten b.flatten ↔
      Aligned a b := by
  induction a generalizing b with
  | nil =>
    cases b with
    | nil => simp [Aligned, List.compareLex]
    | cons y b =>
      rw [List.compareLex_nil_cons, Aligned]
      cases hflat : (y :: b).flatten <;> simp [List.compareLex]
  | cons x a ih =>
    cases b with
    | nil =>
      rw [List.compareLex_cons_nil, Aligned]
      cases hflat : (x :: a).flatten <;> simp [List.compareLex]
    | cons y b =>
      rw [List.compareLex_cons_cons, List.flatten_cons, List.flatten_cons, Aligned]
      by_cases hxy : x = y
      · subst hxy
        rw [if_pos rfl, compareLex_self, compareLex_append_left, ← ih b]
        rfl
      · rw [if_neg hxy]
        have hne : List.compareLex compare x y ≠ .eq := fun h => hxy (compareLex_eq_iff.mp h)
        have hthen : ∀ o, (List.compareLex compare x y).then o = List.compareLex compare x y := by
          intro o
          cases hc : List.compareLex compare x y with
          | eq => exact absurd hc hne
          | lt => rfl
          | gt => rfl
        rw [hthen]
        by_cases hpre : x <+: y
        · -- the left block ends first
          obtain ⟨z, rfl⟩ := hpre
          have hz : z ≠ [] := fun h => hxy (by rw [h, List.append_nil])
          have hback : ¬ x ++ z <+: x := fun h => by
            have hlen := h.length_le
            rw [List.length_append] at hlen
            exact hz (List.length_eq_zero_iff.mp (by omega))
          rw [(compareLex_of_isPrefix hz).1, List.append_assoc, compareLex_append_left,
            List.drop_left]
          constructor
          · exact fun h => ⟨fun _ => h.symm, fun h' => absurd h' hback⟩
          · exact fun h => (h.1 (List.prefix_append ..)).symm
        · by_cases hpre' : y <+: x
          · -- the right block ends first
            obtain ⟨z, rfl⟩ := hpre'
            have hz : z ≠ [] := fun h => hxy (by rw [h, List.append_nil])
            rw [(compareLex_of_isPrefix hz).2, List.append_assoc, compareLex_append_left,
              List.drop_left]
            constructor
            · exact fun h => ⟨fun h' => absurd h' hpre, fun _ => h.symm⟩
            · exact fun h => (h.2 (List.prefix_append ..)).symm
          · rw [compareLex_append_of_not_isPrefix hpre hpre']
            exact ⟨fun _ => ⟨fun h => absurd h hpre, fun h => absurd h hpre'⟩, fun _ => rfl⟩

theorem compareLex_blocks_eq_iff {a b : List (List κ)} :
    List.compareLex (List.compareLex compare) a b = .eq ↔ a = b := by
  induction a generalizing b with
  | nil => cases b <;> simp [List.compareLex]
  | cons x a ih =>
    cases b with
    | nil => simp [List.compareLex]
    | cons y b =>
      rw [List.compareLex_cons_cons, Ordering.then_eq_eq, ih, compareLex_eq_iff, List.cons.injEq]

/-- Aligned blocks of the same sequence are the same blocks. -/
theorem Aligned.eq_of_flatten_eq {a b : List (List κ)} (h : Aligned a b)
    (hflat : a.flatten = b.flatten) : a = b := by
  rw [← compareLex_blocks_eq_iff, (compareLex_blocks_iff a b).mpr h, hflat, compareLex_self]

end Lexicographic
