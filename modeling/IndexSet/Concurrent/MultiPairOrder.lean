import IndexSet.Concurrent.RangeIter

/-!
# The Order of Multimap Entries

`core/multipair/random.rs` and `core/multipair/ord.rs`: the two kinds of entries of a
multimap, with the comparison that sorts the nodes.

- §1 what a comparison has to satisfy on the entries of a node;
- §2 `OrdMultiPair`: the key, and then the value;
- §3 `RandomMultiPair`: the key, then equality of the values, then the discriminator.  The two
  criteria agree unless a discriminator falls between those of two equal entries.
-/

namespace IndexSet.Concurrent

variable {Q V K L : Type} [LinearOrder K] [LinearOrder L]

/-! ## §1 Orders -/

/-- On the elements of `l`, `cmp` is antisymmetric and transitive, answers `Equal` exactly for
elements that are `==`, and refines the order of what they are sorted by first. -/
structure OrdersOn {T : Type} (cmp : T → T → Ordering) (eq : T → T → Bool) (borrow : T → K)
    (l : List T) : Prop where
  antisymm : ∀ x ∈ l, ∀ y ∈ l, cmp y x = (cmp x y).swap
  trans : ∀ x ∈ l, ∀ y ∈ l, ∀ z ∈ l, (cmp x y).isLE → (cmp y z).isLE → (cmp x z).isLE
  eq_iff : ∀ x ∈ l, ∀ y ∈ l, cmp x y = .eq ↔ eq x y = true
  refines : ∀ x ∈ l, ∀ y ∈ l, borrow x ≠ borrow y → cmp x y = compare (borrow x) (borrow y)

/-- Comparing the other way round. -/
theorem swap_compare (a b : K) : compare b a = (compare a b).swap := by
  rcases lt_trichotomy a b with h | h | h
  · rw [compare_lt_iff_lt.mpr h, compare_gt_iff_gt.mpr h]
    rfl
  · rw [compare_eq_iff_eq.mpr h, compare_eq_iff_eq.mpr h.symm]
    rfl
  · rw [compare_gt_iff_gt.mpr h, compare_lt_iff_lt.mpr h]
    rfl

theorem isLE_compare {a b : K} : (compare a b).isLE = true ↔ a ≤ b := by
  rw [Ordering.isLE_iff_ne_gt]
  exact compare_le_iff_le

/-! ## §2 `OrdMultiPair` -/

namespace OrdMultiPair

variable [Keyed Q K] [Keyed V L]

/-- `OrdMultiPair::cmp`. -/
def cmp (self other : OrdMultiPair Q V) : Ordering :=
  (compare (Keyed.key self.key) (Keyed.key other.key)).then
    (compare (Keyed.key self.value) (Keyed.key other.value))

/-- `OrdMultiPair::eq`. -/
def eq (self other : OrdMultiPair Q V) : Bool :=
  decide (Keyed.key self.key = Keyed.key other.key) &&
    decide (Keyed.key self.value = Keyed.key other.value)

theorem cmp_isLE {x y : OrdMultiPair Q V} : (x.cmp y).isLE = true ↔
    Keyed.key x.key < Keyed.key y.key ∨
      Keyed.key x.key = Keyed.key y.key ∧ Keyed.key x.value ≤ Keyed.key y.value := by
  rw [cmp]
  rcases lt_trichotomy (Keyed.key x.key) (Keyed.key y.key) with h | h | h
  · simp [compare_lt_iff_lt.mpr h, h]
  · rw [compare_eq_iff_eq.mpr h, Ordering.eq_then, isLE_compare]
    simp [h]
  · simp [compare_gt_iff_gt.mpr h, h.not_gt, h.ne']

/-- Entries ordered by key and value are in order, whatever they are. -/
theorem ordersOn (l : List (OrdMultiPair Q V)) : OrdersOn cmp eq (fun p => Keyed.key p.key) l where
  antisymm x _ y _ := by
    rw [cmp, cmp, Ordering.swap_then, ← swap_compare, ← swap_compare]
  trans x _ y _ z _ hxy hyz := by
    rw [cmp_isLE] at hxy hyz ⊢
    rcases hxy with hxy | ⟨hxy, hxyv⟩
    · rcases hyz with hyz | ⟨hyz, -⟩
      · exact Or.inl (hxy.trans hyz)
      · exact Or.inl (hyz ▸ hxy)
    · rcases hyz with hyz | ⟨hyz, hyzv⟩
      · exact Or.inl (hxy ▸ hyz)
      · exact Or.inr ⟨hxy.trans hyz, hxyv.trans hyzv⟩
  eq_iff x _ y _ := by
    simp [cmp, eq, Ordering.then_eq_eq]
  refines x _ y _ h := by
    rcases lt_or_gt_of_ne h with h | h
    · rw [cmp, compare_lt_iff_lt.mpr h]
      rfl
    · rw [cmp, compare_gt_iff_gt.mpr h]
      rfl

/-- The order of the entries in the model of the sets: pairs, lexicographically. -/
theorem cmp_eq_compare {P W : Type} [LinearOrder P] [LinearOrder W] (x y : OrdMultiPair P W) :
    @cmp P W P W _ _ ⟨id⟩ ⟨id⟩ x y = compare (Keyed.key x) (Keyed.key y) := rfl

end OrdMultiPair

/-! ## §3 `RandomMultiPair` -/

/-- `core/multipair/random.rs`: an entry with a random number, a `u64`. -/
structure RandomMultiPair (Q V : Type) where
  key : Q
  value : V
  discriminator : ℕ
  deriving DecidableEq

instance : MultiPairLike (RandomMultiPair Q V) Q V :=
  ⟨RandomMultiPair.key, RandomMultiPair.value⟩

namespace RandomMultiPair

variable [Keyed Q K] [BEq V]

/-- `RandomMultiPair::cmp`. -/
def cmp (self other : RandomMultiPair Q V) : Ordering :=
  match compare (Keyed.key self.key) (Keyed.key other.key) with
  | .eq =>
    if self.value == other.value then .eq else compare self.discriminator other.discriminator
  | ord => ord

/-- `RandomMultiPair::eq`. -/
def eq (self other : RandomMultiPair Q V) : Bool :=
  decide (Keyed.key self.key = Keyed.key other.key) && self.value == other.value

/-- Discriminators tell the entries of one key apart. -/
def Distinct (l : List (RandomMultiPair Q V)) : Prop :=
  ∀ x ∈ l, ∀ y ∈ l, Keyed.key x.key = Keyed.key y.key → x.discriminator = y.discriminator →
    (x.value == y.value) = true

/-- Two entries of one key have equal values, and an entry of that key with another value has
a discriminator between theirs. -/
def Straddled (l : List (RandomMultiPair Q V)) : Prop :=
  ∃ x ∈ l, ∃ y ∈ l, ∃ z ∈ l, Keyed.key x.key = Keyed.key z.key ∧ Keyed.key z.key = Keyed.key y.key ∧
    (x.value == y.value) = true ∧ (x.value == z.value) = false ∧
    x.discriminator < z.discriminator ∧ z.discriminator < y.discriminator

section Laws

omit [BEq V] [LinearOrder L]

variable [BEq V] {l : List (RandomMultiPair Q V)} {x y : RandomMultiPair Q V}

theorem cmp_of_lt (h : Keyed.key x.key < Keyed.key y.key) : x.cmp y = .lt := by
  rw [cmp, compare_lt_iff_lt.mpr h]

theorem cmp_of_gt (h : Keyed.key y.key < Keyed.key x.key) : x.cmp y = .gt := by
  rw [cmp, compare_gt_iff_gt.mpr h]

theorem cmp_of_eq (h : Keyed.key x.key = Keyed.key y.key) : x.cmp y =
    if x.value == y.value then .eq else compare x.discriminator y.discriminator := by
  rw [cmp, compare_eq_iff_eq.mpr h]

theorem cmp_isLE : (x.cmp y).isLE = true ↔
    Keyed.key x.key < Keyed.key y.key ∨ Keyed.key x.key = Keyed.key y.key ∧
      ((x.value == y.value) = true ∨ x.discriminator ≤ y.discriminator) := by
  rcases lt_trichotomy (Keyed.key x.key) (Keyed.key y.key) with h | h | h
  · simp [cmp_of_lt h, h]
  · rw [cmp_of_eq h]
    by_cases hv : (x.value == y.value) = true
    · simp [hv, h]
    · simp [hv, h, isLE_compare]
  · simp [cmp_of_gt h, h.not_gt, h.ne']

variable [EquivBEq V]

/-- Values that differ stay apart when one of them is replaced by an equal one. -/
theorem bne_of_beq {u v w : V} (huv : (u == v) = true) (huw : (u == w) = false) :
    (v == w) = false := by
  rw [Bool.eq_false_iff] at huw ⊢
  exact fun hvw => huw (BEq.trans huv hvw)

/-- Whatever falls between two equal entries breaks transitivity. -/
theorem Straddled.not_trans (h : Straddled l) :
    ∃ x ∈ l, ∃ y ∈ l, ∃ z ∈ l, (x.cmp y).isLE = true ∧ (y.cmp z).isLE = true ∧
      ¬ (x.cmp z).isLE = true := by
  obtain ⟨x, hx, y, hy, z, hz, hxz, hzy, hsame, hother, hlow, hhigh⟩ := h
  refine ⟨z, hz, y, hy, x, hx, ?_, ?_, ?_⟩
  · exact cmp_isLE.mpr (Or.inr ⟨hzy, Or.inr hhigh.le⟩)
  · exact cmp_isLE.mpr (Or.inr ⟨hzy.symm.trans hxz.symm, Or.inl (BEq.symm hsame)⟩)
  · rw [cmp_isLE]
    rintro (hlt | ⟨-, hval | hle⟩)
    · exact hlt.ne hxz.symm
    · exact Bool.eq_false_iff.mp hother (BEq.symm hval)
    · exact absurd hle (not_le.mpr hlow)

/-- Without such entries the order of three entries is that of two. -/
theorem cmp_trans (hdistinct : Distinct l) (hnot : ¬ Straddled l) {z : RandomMultiPair Q V}
    (hx : x ∈ l) (hy : y ∈ l) (hz : z ∈ l) (hxy : (x.cmp y).isLE = true)
    (hyz : (y.cmp z).isLE = true) : (x.cmp z).isLE = true := by
  rw [cmp_isLE] at hxy hyz ⊢
  rcases hxy with hxy | ⟨hxy, hxyv⟩
  · rcases hyz with hyz | ⟨hyz, -⟩
    · exact Or.inl (hxy.trans hyz)
    · exact Or.inl (hyz ▸ hxy)
  rcases hyz with hyz | ⟨hyz, hyzv⟩
  · exact Or.inl (hxy ▸ hyz)
  refine Or.inr ⟨hxy.trans hyz, ?_⟩
  by_cases hxz : (x.value == z.value) = true
  · exact Or.inl hxz
  rw [Bool.not_eq_true] at hxz
  refine Or.inr (not_lt.mp fun hlt => ?_)
  -- the discriminators of `x` and `z` are the wrong way round: `y` equals one of the two
  by_cases hsame : (x.value == y.value) = true
  · have hyz' := bne_of_beq hsame hxz
    have hle := hyzv.resolve_left (Bool.eq_false_iff.mp hyz')
    have hne : y.discriminator ≠ z.discriminator := fun heq =>
      Bool.eq_false_iff.mp hyz' (hdistinct y hy z hz hyz heq)
    exact hnot ⟨y, hy, x, hx, z, hz, hyz, (hxy.trans hyz).symm, BEq.symm hsame, hyz',
      lt_of_le_of_ne hle hne, hlt⟩
  · have hle := hxyv.resolve_left hsame
    have hne : x.discriminator ≠ y.discriminator := fun heq =>
      hsame (hdistinct x hx y hy hxy heq)
    have hzy : (z.value == y.value) = true :=
      BEq.symm (hyzv.resolve_right (not_le.mpr (hlt.trans_le hle)))
    have hzx : (z.value == x.value) = false :=
      Bool.eq_false_iff.mpr fun h => Bool.eq_false_iff.mp hxz (BEq.symm h)
    exact hnot ⟨z, hz, y, hy, x, hx, (hxy.trans hyz).symm, hxy, hzy, hzx, hlt,
      lt_of_le_of_ne hle hne⟩

/-- Entries with random numbers are in order when no three of them are entangled. -/
theorem ordersOn_iff (hdistinct : Distinct l) :
    OrdersOn cmp eq (fun p => Keyed.key p.key) l ↔ ¬ Straddled l := by
  constructor
  · rintro horders hstraddled
    obtain ⟨x, hx, y, hy, z, hz, hxy, hyz, hxz⟩ := hstraddled.not_trans
    exact hxz (horders.trans x hx y hy z hz hxy hyz)
  · intro hnot
    refine ⟨fun x _ y _ => ?_, fun x hx y hy z hz => cmp_trans hdistinct hnot hx hy hz,
      fun x hx y hy => ?_, fun x _ y _ h => ?_⟩
    · rcases lt_trichotomy (Keyed.key x.key) (Keyed.key y.key) with h | h | h
      · rw [cmp_of_lt h, cmp_of_gt h]
        rfl
      · rw [cmp_of_eq h, cmp_of_eq h.symm, BEq.comm (a := y.value)]
        split
        · rfl
        · exact swap_compare _ _
      · rw [cmp_of_lt h, cmp_of_gt h]
        rfl
    · rw [eq, Bool.and_eq_true, decide_eq_true_iff]
      rcases lt_trichotomy (Keyed.key x.key) (Keyed.key y.key) with h | h | h
      · simp [cmp_of_lt h, h.ne]
      · rw [cmp_of_eq h]
        by_cases hv : (x.value == y.value) = true
        · simp [hv, h]
        · have hne : x.discriminator ≠ y.discriminator := fun heq => hv (hdistinct x hx y hy h heq)
          simp [hv, hne]
      · simp [cmp_of_gt h, h.ne']
    · rcases lt_or_gt_of_ne h with h | h
      · rw [cmp_of_lt h, compare_lt_iff_lt.mpr h]
      · rw [cmp_of_gt h, compare_gt_iff_gt.mpr h]

end Laws

end RandomMultiPair

/-- **Multimap entries in order**: entries of distinct discriminators are ordered by `cmp` if
and only if no discriminator falls between those of two entries of its key with equal values;
entries ordered by key and value always are. -/
theorem multiPairs_ordersOn_iff [Keyed Q K] [Keyed V L] {W : Type} [BEq W] [EquivBEq W] :
    (∀ l : List (RandomMultiPair Q W), RandomMultiPair.Distinct l →
      (OrdersOn RandomMultiPair.cmp RandomMultiPair.eq (fun p => key p.key) l ↔
        ¬ RandomMultiPair.Straddled l)) ∧
    ∀ l : List (OrdMultiPair Q V),
      OrdersOn OrdMultiPair.cmp OrdMultiPair.eq (fun p => key p.key) l :=
  ⟨fun _ hdistinct => RandomMultiPair.ordersOn_iff hdistinct, OrdMultiPair.ordersOn⟩

/-- Three entries of one key, the equal ones next to each other. -/
theorem multiPairs_ordersOn_iff_threeEntries :
    OrdersOn RandomMultiPair.cmp RandomMultiPair.eq (fun p => key p.key)
      [(⟨1, 7, 10⟩ : RandomMultiPair ℕ ℕ), ⟨1, 7, 20⟩, ⟨1, 8, 30⟩] := by
  refine ((multiPairs_ordersOn_iff (Q := ℕ) (V := ℕ) (K := ℕ) (L := ℕ) (W := ℕ)).1 _ ?_).mpr ?_
  · unfold RandomMultiPair.Distinct
    decide
  · unfold RandomMultiPair.Straddled
    decide

/-- The other value drew the number in the middle: the first entry is below the second, and the
second below the third, which the first equals. -/
theorem randomMultiPair_not_transitive :
    RandomMultiPair.Distinct [(⟨1, 7, 10⟩ : RandomMultiPair ℕ ℕ), ⟨1, 8, 20⟩, ⟨1, 7, 30⟩] ∧
      RandomMultiPair.cmp (⟨1, 7, 10⟩ : RandomMultiPair ℕ ℕ) ⟨1, 8, 20⟩ = .lt ∧
      RandomMultiPair.cmp (⟨1, 8, 20⟩ : RandomMultiPair ℕ ℕ) ⟨1, 7, 30⟩ = .lt ∧
      RandomMultiPair.cmp (⟨1, 7, 10⟩ : RandomMultiPair ℕ ℕ) ⟨1, 7, 30⟩ = .eq ∧
      ¬ OrdersOn RandomMultiPair.cmp RandomMultiPair.eq (fun p => key p.key)
        [(⟨1, 7, 10⟩ : RandomMultiPair ℕ ℕ), ⟨1, 8, 20⟩, ⟨1, 7, 30⟩] := by
  refine ⟨by unfold RandomMultiPair.Distinct; decide, rfl, rfl, rfl, fun horders => ?_⟩
  have hle := horders.trans ⟨1, 8, 20⟩ (by decide) ⟨1, 7, 30⟩ (by decide) ⟨1, 7, 10⟩ (by decide)
    rfl rfl
  exact absurd hle (by decide)

end IndexSet.Concurrent
