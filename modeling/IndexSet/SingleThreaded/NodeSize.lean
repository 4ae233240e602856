import IndexSet.Lib.Pool
import IndexSet.SingleThreaded.Refinement

/-!
# Node Sizes

How long the nodes of a set get, over programs that work with several sets: `append` moves
elements from one into another, `split_off` makes a new one.

- `insert_boundKept`, …, `splitOff_boundKept`: what each operation does to the maximum node size
  and to the nodes;
- `nodeSize_kept_iff`: the programs in which every set keeps the maximum node size it was
  made with.

`split_off` builds the set it returns from `default`, whatever the maximum node size.
-/

namespace IndexSet

open KeyedList

variable {T Q V F K : Type} [LinearOrder K]

/-! ## §1 One operation -/

namespace BTreeSet

variable [Keyed T K]

variable [LawfulFenwickTree F]

theorem insert_boundKept {s s' : BTreeSet T F} {v : T} {r : Bool} (hs : s.Usable)
    (hins : s.insert v = some (s', r)) : s.BoundKept s' := by
  obtain ⟨s₁, heval, -, hcap, -, hbound⟩ :=
    insert_spec_of_splitsWell hs.1 v fun _ _ _ _ _ => Or.inl hs.2
  cases hins.symm.trans heval
  exact ⟨hcap, hbound⟩

theorem delete_boundKept {s s' : BTreeSet T F} {q : K} {removal : Option T} {removed : Bool}
    (hdel : s.delete q = some (s', removal, removed)) : s.BoundKept s' := by
  unfold delete at hdel
  simp only [Option.bind_eq_bind, Option.bind_eq_some_iff] at hdel
  obtain ⟨⟨i, j⟩, -, hdel⟩ := hdel
  split at hdel
  · split at hdel
    · obtain ⟨⟨s₁, x⟩, hdelAt, hdel⟩ := Option.bind_eq_some_iff.mp hdel
      cases hdel
      exact deleteAt_boundKept hdelAt
    · cases hdel
      exact BoundKept.refl s
  · cases hdel
    exact BoundKept.refl s

theorem remove_boundKept {s s' : BTreeSet T F} {q : K} {removed : Bool}
    (hremove : s.remove q = some (s', removed)) : s.BoundKept s' := by
  unfold remove at hremove
  simp only [Option.bind_eq_bind, Option.bind_eq_some_iff] at hremove
  obtain ⟨⟨s₁, removal, removed'⟩, hdel, hremove⟩ := hremove
  cases hremove
  exact delete_boundKept hdel

theorem popFirst_boundKept {s s' : BTreeSet T F} {removal : Option T}
    (hpop : s.popFirst = some (s', removal)) : s.BoundKept s' := by
  unfold popFirst at hpop
  split at hpop
  · simp only [Option.bind_eq_bind, Option.bind_eq_some_iff] at hpop
    obtain ⟨⟨s₁, x⟩, hdel, hpop⟩ := hpop
    cases hpop
    exact deleteAt_boundKept hdel
  · cases hpop
    exact BoundKept.refl s

/-- The element that is replaced goes before the new one comes. -/
theorem replace_boundKept {s s' : BTreeSet T F} {v : T} {replaced : Option T} (hs : s.Usable)
    (hreplace : s.replace v = some (s', replaced)) : s.BoundKept s' := by
  obtain ⟨s₁, htake, hvalid, hcap, -⟩ := take_spec hs.1 (key v)
  have hkept : s.BoundKept s₁ := by
    have htake' := htake
    unfold take at htake'
    simp only [Option.bind_eq_bind, Option.bind_eq_some_iff] at htake'
    obtain ⟨⟨s₂, removal, removed⟩, hdel, htake'⟩ := htake'
    cases htake'
    exact delete_boundKept hdel
  obtain ⟨s₂, hins, -⟩ := insert_spec hvalid (hcap ▸ hs.2) v
  have heval : s.replace v = some (s₂, find key (key v) s.toList) := by
    simp [replace, htake, hins]
  cases hreplace.symm.trans heval
  exact hkept.trans (insert_boundKept ⟨hvalid, hcap ▸ hs.2⟩ hins)

/-- `append` keeps the maximum node sizes of both sets. -/
theorem appendLoop_boundKept {fuel : ℕ} {s other s' other' : BTreeSet T F} (hs : s.Usable)
    (hother : other.Valid) (happend : appendLoop fuel s other = some (s', other')) :
    s.BoundKept s' ∧ other.BoundKept other' := by
  induction fuel generalizing s other with
  | zero => cases happend
  | succ fuel ih =>
    obtain ⟨other₁, hpop, hother₁, -⟩ := popFirst_spec hother
    have hkept := popFirst_boundKept hpop
    simp only [appendLoop, hpop, Option.bind_eq_bind, Option.bind_some] at happend
    cases hhead : other.toList.head? with
    | none =>
      rw [hhead] at happend
      cases happend
      exact ⟨BoundKept.refl _, hkept⟩
    | some v =>
      rw [hhead] at happend
      obtain ⟨s₁, hreplace, hs₁, hcap₁, -⟩ := replace_spec hs.1 hs.2 v
      simp only [hreplace, Option.bind_some] at happend
      obtain ⟨h, h'⟩ := ih ⟨hs₁, hcap₁ ▸ hs.2⟩ hother₁ happend
      exact ⟨(replace_boundKept hs hreplace).trans h, hkept.trans h'⟩

/-- `split_off` does for the set it is called on. -/
theorem splitOff_boundKept {s s' latter : BTreeSet T F} {q : K}
    (hsplit : s.splitOff q = some (s', latter)) :
    s.BoundKept s' ∧ latter.nodeCapacity = defaultInnerSize ∧
      (s.Bounded → ∀ node ∈ latter.inner, node.length ≤ s.nodeCapacity) := by
  unfold splitOff at hsplit
  simp only [Option.bind_eq_bind, Option.bind_eq_some_iff] at hsplit
  obtain ⟨⟨i, j⟩, -, hsplit⟩ := hsplit
  exact splitOffAt_boundKept hsplit

theorem splitOffCmp_boundKept {s s' latter : BTreeSet T F} {cmp : T → Bool}
    (hsplit : s.splitOffCmp cmp = some (s', latter)) :
    s.BoundKept s' ∧ latter.nodeCapacity = defaultInnerSize ∧
      (s.Bounded → ∀ node ∈ latter.inner, node.length ≤ s.nodeCapacity) := by
  unfold splitOffCmp at hsplit
  simp only [Option.bind_eq_bind, Option.bind_eq_some_iff] at hsplit
  obtain ⟨⟨i, j⟩, -, hsplit⟩ := hsplit
  exact splitOffAt_boundKept hsplit

end BTreeSet

/-- `insert` of a map writes in place or goes to `insert_at`. -/
theorem BTreeMap.insert_boundKept [Keyed Q K] [LawfulFenwickTree F] {m m' : BTreeMap Q V F}
    {k : Q} {v : V} {old : Option V} (hm : m.set.Usable) (hins : m.insert k v = some (m', old)) :
    m.set.BoundKept m'.set := by
  obtain ⟨m₁, heval, -, hcap, -, hbound⟩ :=
    insert_spec_of_splitsWell hm.1 k v fun _ _ _ _ _ _ => Or.inl hm.2
  cases hins.symm.trans heval
  exact ⟨hcap, hbound⟩

theorem BTreeMap.remove_boundKept [Keyed Q K] [LawfulFenwickTree F] {m m' : BTreeMap Q V F}
    {k : K} {removal : Option V} (hremove : m.remove k = some (m', removal)) :
    m.set.BoundKept m'.set := by
  unfold remove BTreeSet.deleteCmp at hremove
  simp only [Option.bind_eq_bind, Option.bind_eq_some_iff] at hremove
  obtain ⟨⟨s, x, removed⟩, ⟨entry, -, hdel⟩, hremove⟩ := hremove
  cases hremove
  cases entry with
  | exist i j =>
    obtain ⟨⟨s₁, x⟩, hdelAt, hdel⟩ := Option.bind_eq_some_iff.mp hdel
    cases hdel
    exact BTreeSet.deleteAt_boundKept hdelAt
  | empty i =>
    cases hdel
    exact BTreeSet.BoundKept.refl _

/-! ## §2 Programs with several sets -/

/-- `insert` and `remove`, as actions on one set. -/
inductive BTreeSet.Edit (T K : Type) where
  | insert (value : T)
  | remove (value : K)

/-- `insert` and `remove`, as actions on one map. -/
inductive BTreeMap.Edit (Q V K : Type) where
  | insert (key : Q) (value : V)
  | remove (key : K)

section Ops

variable [FenwickTree F]

/-- The operations of the sets made by `with_maximum_node_size(c)`. -/
def BTreeSet.ops [Keyed T K] (c : ℕ) : Pool.Ops (BTreeSet T F) (BTreeSet.Edit T K) K where
  create := withMaximumNodeSize c
  act
    | s, .insert value => (s.insert value).map Prod.fst
    | s, .remove value => (s.remove value).map Prod.fst
  append := append
  splitOff := splitOff

/-- The operations of the maps made by `with_maximum_node_size(c)`. -/
def BTreeMap.ops [Keyed Q K] (c : ℕ) : Pool.Ops (BTreeMap Q V F) (BTreeMap.Edit Q V K) K where
  create := withMaximumNodeSize c
  act
    | m, .insert key value => (m.insert key value).map Prod.fst
    | m, .remove key => (m.remove key).map Prod.fst
  append := append
  splitOff := splitOff

end Ops

/-- The set has the maximum node size it was made with, and no longer node. -/
def BTreeSet.OfSize (c : ℕ) (s : BTreeSet T F) : Prop :=
  s.nodeCapacity = c ∧ ∀ node ∈ s.inner, node.length ≤ c

theorem BTreeSet.BoundKept.ofSize {c : ℕ} {s s' : BTreeSet T F} (h : s.BoundKept s')
    (hs : s.OfSize c) : s'.OfSize c := by
  obtain ⟨rfl, hbound⟩ := hs
  exact ⟨h.1, h.1 ▸ h.2 hbound⟩

/-- What the operations do to the sets in their containers: they leave them usable, keep the
bound, and split off a set with the default maximum node size. -/
structure KeepsBound [Keyed T K] [LawfulFenwickTree F] {S A κ : Type} (ops : Pool.Ops S A κ)
    (set : S → BTreeSet T F) : Prop where
  act : ∀ s a s', (set s).Usable → ops.act s a = some s' →
    (set s').Usable ∧ (set s).BoundKept (set s')
  append : ∀ s other s' other', (set s).Usable → (set other).Usable →
    ops.append s other = some (s', other') →
    ((set s').Usable ∧ (set s).BoundKept (set s')) ∧
      (set other').Usable ∧ (set other).BoundKept (set other')
  splitOff : ∀ s place s' latter, (set s).Usable → ops.splitOff s place = some (s', latter) →
    ((set s').Usable ∧ (set s).BoundKept (set s')) ∧ (set latter).Usable ∧
      (set latter).nodeCapacity = defaultInnerSize ∧
      ((set s).Bounded → ∀ node ∈ (set latter).inner, node.length ≤ (set s).nodeCapacity)

theorem KeepsBound.splits [Keyed T K] [LawfulFenwickTree F] {S A κ : Type} {ops : Pool.Ops S A κ}
    {set : S → BTreeSet T F} (h : KeepsBound ops set) {c : ℕ} (husable : (set ops.create).Usable)
    (hsize : (set ops.create).OfSize c) :
    Pool.Splits ops (fun s => (set s).Usable) (fun s => (set s).OfSize c)
      (fun s => (set s).nodeCapacity ≠ c) (c = defaultInnerSize) := by
  have hkeeps : ∀ P : BTreeSet T F → Prop, (∀ s s', s.BoundKept s' → P s → P s') →
      Pool.Keeps ops (fun s => (set s).Usable) fun s => P (set s) := fun P hP =>
    { act := fun s a s' hs hPs ha => hP _ _ (h.act s a s' hs ha).2 hPs
      appendSelf := fun s other s' other' hs hother hPs ha =>
        hP _ _ (h.append s other s' other' hs hother ha).1.2 hPs
      appendOther := fun s other s' other' hs hother hPs ha =>
        hP _ _ (h.append s other s' other' hs hother ha).2.2 hPs
      splitOff := fun s place s' latter hs hPs ha =>
        hP _ _ (h.splitOff s place s' latter hs ha).1.2 hPs }
  exact
    { create := ⟨husable, hsize⟩
      usable :=
        { act := fun s a s' hs _ ha => (h.act s a s' hs ha).1
          appendSelf := fun s other s' other' hs hother _ ha =>
            (h.append s other s' other' hs hother ha).1.1
          appendOther := fun s other s' other' hs hother _ ha =>
            (h.append s other s' other' hs hother ha).2.1
          splitOff := fun s place s' latter hs _ ha => (h.splitOff s place s' latter hs ha).1.1 }
      good := hkeeps (BTreeSet.OfSize c) fun s s' hkept hs => hkept.ofSize hs
      bad := hkeeps (fun s => s.nodeCapacity ≠ c) fun s s' hkept hs => by rwa [hkept.1]
      latter_usable := fun s place s' latter hs ha => (h.splitOff s place s' latter hs ha).2.1
      latter_good := fun hsafe s place s' latter hs hofSize ha => by
        obtain ⟨-, -, hcap, hnodes⟩ := h.splitOff s place s' latter hs ha
        obtain ⟨rfl, hbound⟩ := hofSize
        exact ⟨hcap.trans hsafe.symm, hnodes hbound⟩
      latter_bad := fun hrisk s place s' latter hs ha => by
        rw [(h.splitOff s place s' latter hs ha).2.2.1]
        exact Ne.symm hrisk
      not_both := fun s hs hne => hne hs.1 }

/-- The operations of sets. -/
theorem BTreeSet.ops_keepsBound [Keyed T K] [LawfulFenwickTree F] (c : ℕ) :
    KeepsBound (BTreeSet.ops c : Pool.Ops (BTreeSet T F) (BTreeSet.Edit T K) K) id where
  act s a s' hs ha := by
    cases a with
    | insert v =>
      obtain ⟨⟨s₁, r⟩, hins, rfl⟩ := Option.map_eq_some_iff.mp ha
      obtain ⟨hvalid, hcap, -⟩ := of_total (insert_spec hs.1 hs.2 v) hins
      exact ⟨⟨hvalid, hcap ▸ hs.2⟩, insert_boundKept hs hins⟩
    | remove q =>
      obtain ⟨⟨s₁, r⟩, hremove, rfl⟩ := Option.map_eq_some_iff.mp ha
      obtain ⟨hvalid, hcap, -⟩ := of_total (remove_spec hs.1 q) hremove
      exact ⟨⟨hvalid, hcap ▸ hs.2⟩, remove_boundKept hremove⟩
  append s other s' other' hs hother ha := by
    obtain ⟨s₁, s₂, heval, h₁, h₂, hcap₁, hcap₂, -⟩ := append_spec hs.1 hs.2 hother.1
    cases ha.symm.trans heval
    obtain ⟨hkept, hkept'⟩ := appendLoop_boundKept hs hother.1 ha
    exact ⟨⟨⟨h₁, hcap₁ ▸ hs.2⟩, hkept⟩, ⟨h₂, hcap₂ ▸ hother.2⟩, hkept'⟩
  splitOff s q s' latter hs ha := by
    obtain ⟨s₁, s₂, heval, h₁, h₂, hcap₁, hcap₂, -⟩ := splitOff_spec hs.1 q
    cases ha.symm.trans heval
    obtain ⟨hkept, hlatter⟩ := splitOff_boundKept ha
    exact ⟨⟨⟨h₁, hcap₁ ▸ hs.2⟩, hkept⟩, ⟨h₂, hcap₂ ▸ two_le_defaultInnerSize⟩, hlatter⟩

/-- The operations of maps. -/
theorem BTreeMap.ops_keepsBound [Keyed Q K] [LawfulFenwickTree F] (c : ℕ) :
    KeepsBound (BTreeMap.ops c : Pool.Ops (BTreeMap Q V F) (BTreeMap.Edit Q V K) K)
      BTreeMap.set where
  act m a m' hm ha := by
    cases a with
    | insert k v =>
      obtain ⟨⟨m₁, r⟩, hins, rfl⟩ := Option.map_eq_some_iff.mp ha
      obtain ⟨hvalid, hcap, -⟩ := of_total (insert_spec hm.1 hm.2 k v) hins
      exact ⟨⟨hvalid, hcap ▸ hm.2⟩, insert_boundKept hm hins⟩
    | remove k =>
      obtain ⟨⟨m₁, r⟩, hremove, rfl⟩ := Option.map_eq_some_iff.mp ha
      obtain ⟨hvalid, hcap, -⟩ := of_total (remove_spec hm.1 k) hremove
      exact ⟨⟨hvalid, hcap ▸ hm.2⟩, remove_boundKept hremove⟩
  append m other m' other' hm hother ha := by
    obtain ⟨⟨s', otherSet⟩, happend, heq⟩ := Option.bind_eq_some_iff.mp ha
    cases heq
    exact (BTreeSet.ops_keepsBound c).append _ _ _ _ hm hother happend
  splitOff m k m' latter hm ha := by
    obtain ⟨s₁, s₂, heval, h₁, h₂, hcap₁, hcap₂, -⟩ := BTreeSet.splitOffCmp_spec hm.1 k
    obtain ⟨⟨s', latterSet⟩, hsplit, heq⟩ := Option.bind_eq_some_iff.mp ha
    cases heq
    cases hsplit.symm.trans heval
    obtain ⟨hkept, hlatter⟩ := BTreeSet.splitOffCmp_boundKept hsplit
    exact ⟨⟨⟨h₁, hcap₁ ▸ hm.2⟩, hkept⟩, ⟨h₂, hcap₂ ▸ two_le_defaultInnerSize⟩, hlatter⟩

/-- **Node sizes**: in a program over sets made with maximum node size `c`, or over such maps,
all sets keep that size and no node is longer, if and only if the program splits none or `c`
is the default. -/
theorem nodeSize_kept_iff {K' : Type} [LinearOrder K'] [Keyed T K] [Keyed Q K']
    [LawfulFenwickTree F] (c : ℕ) (hc : 2 ≤ c) :
    (∀ (actions : List (Pool.Action (BTreeSet.Edit T K) K)) (sets : List (BTreeSet T F)),
      Transition.run (Pool.step (BTreeSet.ops c)) [] actions = some sets →
      ((∀ s ∈ sets, s.OfSize c) ↔
        c = defaultInnerSize ∨ ∀ action ∈ actions, ¬ action.IsSplitOff)) ∧
    ∀ (actions : List (Pool.Action (BTreeMap.Edit Q V K') K')) (maps : List (BTreeMap Q V F)),
      Transition.run (Pool.step (BTreeMap.ops c)) [] actions = some maps →
      ((∀ m ∈ maps, m.set.OfSize c) ↔
        c = defaultInnerSize ∨ ∀ action ∈ actions, ¬ action.IsSplitOff) := by
  have husable : (BTreeSet.withMaximumNodeSize c : BTreeSet T F).Usable :=
    ⟨BTreeSet.withMaximumNodeSize_valid c, hc⟩
  have husable' : (BTreeSet.withMaximumNodeSize c : BTreeSet (Pair Q V) F).Usable :=
    ⟨BTreeSet.withMaximumNodeSize_valid c, hc⟩
  have hsize : ∀ T' : Type, (BTreeSet.withMaximumNodeSize c : BTreeSet T' F).OfSize c :=
    fun T' => ⟨rfl, by simp [BTreeSet.withMaximumNodeSize, BTreeSet.default]⟩
  exact ⟨fun actions sets hrun =>
      Pool.run_forall_iff ((BTreeSet.ops_keepsBound c).splits husable (hsize T)) hrun,
    fun actions maps hrun =>
      Pool.run_forall_iff ((BTreeMap.ops_keepsBound c).splits husable' (hsize (Pair Q V))) hrun⟩

/-- Two sets are filled, and one is moved into the other. -/
def appendingRun : List (Pool.Action (BTreeSet.Edit ℕ ℕ) ℕ) :=
  [.create, .create, .act 0 (.insert 1), .act 1 (.insert 2), .append 0 1, .act 0 (.remove 1)]

/-- The same with two maps. -/
def appendingMaps : List (Pool.Action (BTreeMap.Edit ℕ ℕ ℕ) ℕ) :=
  [.create, .create, .act 0 (.insert 1 7), .act 1 (.insert 2 8), .append 0 1, .act 0 (.remove 1)]

theorem nodeSize_kept_iff_appending :
    (∃ sets : List (BTreeSet ℕ CountList),
      Transition.run (Pool.step (BTreeSet.ops 2)) [] appendingRun = some sets ∧
        ∀ s ∈ sets, s.OfSize 2) ∧
      ∃ maps : List (BTreeMap ℕ ℕ CountList),
        Transition.run (Pool.step (BTreeMap.ops 2)) [] appendingMaps = some maps ∧
          ∀ m ∈ maps, m.set.OfSize 2 :=
  ⟨⟨[⟨[[2]], ⟨[1]⟩, 2, 1⟩, ⟨[[]], ⟨[0]⟩, 2, 0⟩], by rfl,
      ((nodeSize_kept_iff (T := ℕ) (Q := ℕ) (V := ℕ) 2 (by decide)).1 appendingRun _
        (by rfl)).mpr (Or.inr (by decide))⟩,
    ⟨[⟨⟨[[⟨2, 8⟩]], ⟨[1]⟩, 2, 1⟩⟩, ⟨⟨[[]], ⟨[0]⟩, 2, 0⟩⟩], by rfl,
      ((nodeSize_kept_iff (T := ℕ) (Q := ℕ) (V := ℕ) 2 (by decide)).2 appendingMaps _
        (by rfl)).mpr (Or.inr (by decide))⟩⟩

/-- The set `split_off` returns takes three elements into one node. -/
theorem splitOff_forgets_nodeSize :
    ∃ sets : List (BTreeSet ℕ CountList),
      Transition.run (Pool.step (BTreeSet.ops 2)) []
        [.create, .act 0 (.insert 1), .splitOff 0 0, .act 1 (.insert 2), .act 1 (.insert 3)] =
          some sets ∧
        (sets.map BTreeSet.nodeCapacity = [2, 1024] ∧
          sets.map BTreeSet.inner = [[[]], [[1, 2, 3]]]) ∧ ¬ ∀ s ∈ sets, s.OfSize 2 := by
  refine ⟨[⟨[[]], ⟨[0]⟩, 2, 0⟩, ⟨[[1, 2, 3]], ⟨[3]⟩, 1024, 3⟩], by rfl, ⟨by rfl, by rfl⟩, ?_⟩
  intro h
  exact absurd (h _ (List.mem_cons_of_mem _ (List.mem_singleton_self _))).1 (by decide)

end IndexSet
