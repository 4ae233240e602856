import IndexSet.Lib.Merge
import IndexSet.SingleThreaded.Positions
import IndexSet.SingleThreaded.Iter

/-!
# Set Operations of the Single-Threaded `BTreeSet`

`lib.rs`: `union`, `difference`, `symmetric_difference` and `intersection` share one automaton,
`MergeIter`, that shows the heads of the two sets and advances on the next call. Each of the
four judges the heads in its own way.

- `MergeIter.Pending`: the lists whose heads the next call shows (`next_spec`);
- `loop_spec`: a consumer that judges as a rule does gives what the rule selects;
- `setOperations`: the four iterators, and the three tests made of them.
-/

namespace IndexSet

open KeyedList DoubleEnded

variable {T F K : Type} [LinearOrder K] [Keyed T K]

/-! ## §1 The code -/

/-- `struct MergeIter`. -/
structure MergeIter (T F : Type) where
  start : Bool
  leftIter : Iter T F
  currentLeft : Option T
  rightIter : Iter T F
  currentRight : Option T

namespace MergeIter

/-- `self.current_left = self.left_iter.next();` -/
def advanceLeft (it : MergeIter T F) : Option (MergeIter T F) := do
  let (leftIter, currentLeft) ← it.leftIter.pull .front
  return { it with leftIter, currentLeft }

/-- `self.current_right = self.right_iter.next();` -/
def advanceRight (it : MergeIter T F) : Option (MergeIter T F) := do
  let (rightIter, currentRight) ← it.rightIter.pull .front
  return { it with rightIter, currentRight }

/-- `Some((self.current_left, self.current_right))`. -/
def shown (it : MergeIter T F) : MergeIter T F × Option (Option T × Option T) :=
  (it, some (it.currentLeft, it.currentRight))

/-- `MergeIter::next`. -/
def next (it : MergeIter T F) : Option (MergeIter T F × Option (Option T × Option T)) :=
  if it.start then do
    let it ← it.advanceLeft
    let it ← it.advanceRight
    return shown { it with start := false }
  else
    match it.currentLeft, it.currentRight with
    | some left, some right =>
      if key left < key right then it.advanceLeft.map shown
      else if key left = key right then do
        let it ← it.advanceLeft
        let it ← it.advanceRight
        return it.shown
      else it.advanceRight.map shown
    | some _, none => it.advanceLeft.map shown
    | none, some _ => it.advanceRight.map shown
    | none, none => some (it, none)

/-- The `loop` of a consumer, a round a fuel: `give` returns the element, `skip` continues. -/
def loop (body : Option T × Option T → Verdict T) : ℕ → MergeIter T F →
    Option (MergeIter T F × Option T)
  | 0, _ => none
  | fuel + 1, it => do
    match ← it.next with
    | (it, some heads) =>
      match body heads with
      | .give value => return (it, some value)
      | .skip => loop body fuel it
      | .stop => return (it, none)
    | (it, none) => return (it, none)

/-- More rounds than the two iterators have elements left to show. -/
def rounds (it : MergeIter T F) : ℕ :=
  (it.leftIter.currentBackIdx - it.leftIter.currentFrontIdx) +
    (it.rightIter.currentBackIdx - it.rightIter.currentFrontIdx) + 3

end MergeIter

/-- `Union::next`; `struct Union` and its siblings are taken for their `merge_iter`. -/
def Union.next (it : MergeIter T F) : Option (MergeIter T F × Option T) := do
  match ← it.next with
  | (it, some (some left, some right)) =>
    if key right < key left then return (it, some right) else return (it, some left)
  | (it, some (some left, none)) => return (it, some left)
  | (it, some (none, some right)) => return (it, some right)
  | (it, some (none, none)) => return (it, none)
  | (it, none) => return (it, none)

/-- A round of `Difference::next`. -/
def Difference.body : Option T × Option T → Verdict T
  | (some left, some right) => if key left < key right then .give left else .skip
  | (some left, none) => .give left
  | (none, _) => .stop

/-- A round of `SymmetricDifference::next`. -/
def SymmetricDifference.body : Option T × Option T → Verdict T
  | (some left, some right) =>
    if key left < key right then .give left
    else if key right < key left then .give right
    else .skip
  | (some left, none) => .give left
  | (none, some right) => .give right
  | (none, _) => .stop

/-- A round of `Intersection::next`. -/
def Intersection.body : Option T × Option T → Verdict T
  | (some left, some right) => if key left = key right then .give left else .skip
  | (none, _) => .stop
  | (_, none) => .stop

/-- `Difference::next`. -/
def Difference.next (it : MergeIter T F) : Option (MergeIter T F × Option T) :=
  it.loop Difference.body it.rounds

/-- `SymmetricDifference::next`. -/
def SymmetricDifference.next (it : MergeIter T F) : Option (MergeIter T F × Option T) :=
  it.loop SymmetricDifference.body it.rounds

/-- `Intersection::next`. -/
def Intersection.next (it : MergeIter T F) : Option (MergeIter T F × Option T) :=
  it.loop Intersection.body it.rounds

namespace BTreeSet

/-- The `merge_iter` all four operations start with. -/
def mergeIter (s other : BTreeSet T F) : Option (MergeIter T F) := do
  let leftIter ← s.iter
  let rightIter ← other.iter
  return { start := true, leftIter, currentLeft := none, rightIter, currentRight := none }

/-- `BTreeSet::union`. -/
def union (s other : BTreeSet T F) : Option (MergeIter T F) := s.mergeIter other

/-- `BTreeSet::difference`. -/
def difference (s other : BTreeSet T F) : Option (MergeIter T F) := s.mergeIter other

/-- `BTreeSet::symmetric_difference`. -/
def symmetricDifference (s other : BTreeSet T F) : Option (MergeIter T F) := s.mergeIter other

/-- `BTreeSet::intersection`. -/
def intersection (s other : BTreeSet T F) : Option (MergeIter T F) := s.mergeIter other

/-- `BTreeSet::is_subset`. -/
def isSubset (s other : BTreeSet T F) : Option Bool := do
  let (_, item) ← Difference.next (← s.difference other)
  return !item.isSome

/-- `BTreeSet::is_superset`. -/
def isSuperset (s other : BTreeSet T F) : Option Bool := do
  let (_, item) ← Difference.next (← other.difference s)
  return !item.isSome

/-- `BTreeSet::is_disjoint`. -/
def isDisjoint (s other : BTreeSet T F) : Option Bool := do
  let (_, item) ← Intersection.next (← s.intersection other)
  return !item.isSome

end BTreeSet

/-! ## §2 The automaton -/

/-- Where an iterator still has a list to give, its positions leave room for it. -/
theorem Iter.Spans.length_le {it : Iter T F} {l : List T} (h : it.Spans l) :
    l.length ≤ it.currentBackIdx - it.currentFrontIdx := by
  rcases h.position with hpos | ⟨hahead, -⟩
  · omega
  · obtain ⟨post, hpost⟩ := h.ahead
    rw [hahead] at hpost
    simp [(List.append_eq_nil_iff.mp hpost.symm).1]

namespace MergeIter

variable {it : MergeIter T F} {l r : List T}

/-- The heads of these lists are shown. -/
structure Shows (it : MergeIter T F) (l r : List T) : Prop where
  start : it.start = false
  currentLeft : it.currentLeft = l.head?
  currentRight : it.currentRight = r.head?
  left : it.leftIter.Spans l.tail
  right : it.rightIter.Spans r.tail

/-- The heads of these lists are what the next call shows. -/
def Pending (it : MergeIter T F) (l r : List T) : Prop :=
  (it.start = true ∧ it.leftIter.Spans l ∧ it.rightIter.Spans r) ∨
    ∃ l₀ r₀, it.Shows l₀ r₀ ∧ advance key l₀ r₀ = (l, r)

theorem advanceLeft_spec (h : it.leftIter.Spans l) :
    ∃ leftIter, it.advanceLeft = some { it with leftIter, currentLeft := l.head? } ∧
      leftIter.Spans l.tail := by
  obtain ⟨leftIter, hpull, hspans⟩ := h.pull_item .front
  refine ⟨leftIter, ?_, hspans⟩
  rw [advanceLeft, hpull]
  rfl

theorem advanceRight_spec (h : it.rightIter.Spans r) :
    ∃ rightIter, it.advanceRight = some { it with rightIter, currentRight := r.head? } ∧
      rightIter.Spans r.tail := by
  obtain ⟨rightIter, hpull, hspans⟩ := h.pull_item .front
  refine ⟨rightIter, ?_, hspans⟩
  rw [advanceRight, hpull]
  rfl

theorem Shows.advanceLeft (h : it.Shows l r) :
    ∃ it', it.advanceLeft = some it' ∧ it'.Shows l.tail r := by
  obtain ⟨leftIter, hadvance, hspans⟩ := advanceLeft_spec h.left
  exact ⟨_, hadvance, h.start, rfl, h.currentRight, hspans, h.right⟩

theorem Shows.advanceRight (h : it.Shows l r) :
    ∃ it', it.advanceRight = some it' ∧ it'.Shows l r.tail := by
  obtain ⟨rightIter, hadvance, hspans⟩ := advanceRight_spec h.right
  exact ⟨_, hadvance, h.start, h.currentLeft, rfl, h.left, hspans⟩

theorem Shows.map_shown {moved : Option (MergeIter T F)} (h : it.Shows l r)
    (hmoved : moved = some it) : moved.map shown = some (it, some (l.head?, r.head?)) := by
  rw [hmoved, Option.map_some, shown, h.currentLeft, h.currentRight]

/-- A call that is not the first advances past the heads shown, until there are none. -/
theorem Shows.next {l₀ r₀ : List T} (h : it.Shows l₀ r₀) (hadvance : advance key l₀ r₀ = (l, r)) :
    (∃ it', it.next = some (it', some (l.head?, r.head?)) ∧ it'.Shows l r) ∨
      (l = [] ∧ r = [] ∧ it.next = some (it, none)) := by
  have hfalse : ¬ it.start = true := by simp [h.start]
  obtain ⟨left, hleft, hshowsl⟩ := h.advanceLeft
  obtain ⟨right, hright, hshowsr⟩ := h.advanceRight
  rw [MergeIter.next, if_neg hfalse, h.currentLeft, h.currentRight]
  cases l₀ with
  | nil =>
    cases r₀ with
    | nil =>
      cases hadvance
      exact Or.inr ⟨rfl, rfl, rfl⟩
    | cons y r₀ =>
      cases hadvance
      exact Or.inl ⟨right, hshowsr.map_shown hright, hshowsr⟩
  | cons x l₀ =>
    cases r₀ with
    | nil =>
      cases hadvance
      exact Or.inl ⟨left, hshowsl.map_shown hleft, hshowsl⟩
    | cons y r₀ =>
      simp only [List.head?_cons]
      rw [advance] at hadvance
      split_ifs at hadvance ⊢ with hlt heq
      · cases hadvance
        exact Or.inl ⟨left, hshowsl.map_shown hleft, hshowsl⟩
      · cases hadvance
        obtain ⟨both, hboth, hshows⟩ := hshowsl.advanceRight
        refine Or.inl ⟨both, ?_, hshows⟩
        have hshown := hshows.map_shown hboth
        rw [Option.map_eq_bind] at hshown
        rw [hleft]
        exact hshown
      · cases hadvance
        exact Or.inl ⟨right, hshowsr.map_shown hright, hshowsr⟩

/-- **One call** of the automaton shows the heads that are pending. -/
theorem next_spec (h : it.Pending l r) :
    (∃ it', it.next = some (it', some (l.head?, r.head?)) ∧ it'.Shows l r) ∨
      (l = [] ∧ r = [] ∧ it.next = some (it, none)) := by
  rcases h with ⟨hstart, hl, hr⟩ | ⟨l₀, r₀, hshows, hadvance⟩
  · obtain ⟨leftIter, hleft, hl'⟩ := advanceLeft_spec hl
    have hr₀ : ({ it with leftIter, currentLeft := l.head? } : MergeIter T F).rightIter.Spans r :=
      hr
    obtain ⟨rightIter, hright, hr'⟩ := advanceRight_spec hr₀
    refine Or.inl ⟨⟨false, leftIter, l.head?, rightIter, r.head?⟩, ?_, rfl, rfl, rfl, hl', hr'⟩
    rw [next, if_pos hstart, hleft]
    simp only [Option.bind_eq_bind, Option.bind_some, hright]
    rfl
  · exact hshows.next hadvance

/-! ## §3 The consumers -/

/-- A loop whose body judges as a rule does gives the selection of the rule. -/
theorem loop_spec {rule : Rule} {body : Option T × Option T → Verdict T}
    (hbody : ∀ heads, body heads = rule.judge key heads) {fuel : ℕ} (h : it.Pending l r)
    (hfuel : l.length + r.length < fuel) :
    ∃ it' l' r', it.loop body fuel = some (it', (select key rule l r).head?) ∧
      it'.Pending l' r' ∧ select key rule l' r' = (select key rule l r).tail := by
  induction fuel generalizing it l r with
  | zero => exact absurd hfuel (Nat.not_lt_zero _)
  | succ fuel ih =>
    rw [loop]
    rcases next_spec h with ⟨it', hnext, hshows⟩ | ⟨rfl, rfl, hnext⟩
    · have hpending : it'.Pending (advance key l r).1 (advance key l r).2 :=
        Or.inr ⟨l, r, hshows, rfl⟩
      have hfits := judge_fits key rule l r
      rw [← hbody] at hfits
      simp only [hnext, Option.bind_eq_bind, Option.bind_some]
      cases hverdict : body (l.head?, r.head?) with
      | give x =>
        rw [hverdict] at hfits
        have hselect : select key rule l r = x :: _ := hfits
        exact ⟨it', _, _, by rw [hselect]; rfl, hpending, by rw [hselect]; rfl⟩
      | skip =>
        rw [hverdict] at hfits
        obtain ⟨hne, hselect⟩ := hfits
        rw [hselect]
        exact ih hpending (by have := length_advance_lt key hne; omega)
      | stop =>
        rw [hverdict] at hfits
        obtain ⟨hnil, hnil'⟩ := hfits
        exact ⟨it', _, _, by rw [hnil]; rfl, hpending, by rw [hnil, hnil']; rfl⟩
    · simp only [hnext, Option.bind_eq_bind, Option.bind_some]
      exact ⟨it, [], [], by simp [select], h, by simp [select]⟩

/-- There are enough rounds. -/
theorem Pending.lt_rounds (h : it.Pending l r) : l.length + r.length < it.rounds := by
  unfold rounds
  rcases h with ⟨-, hl, hr⟩ | ⟨l₀, r₀, hshows, hadvance⟩
  · have := hl.length_le
    have := hr.length_le
    omega
  · have hl := hshows.left.length_le
    have hr := hshows.right.length_le
    rw [List.length_tail] at hl hr
    have hle : l.length + r.length ≤ l₀.length + r₀.length := by
      by_cases hne : l₀ ≠ [] ∨ r₀ ≠ []
      · have := length_advance_lt key hne
        rw [hadvance] at this
        exact this.le
      · obtain ⟨rfl, rfl⟩ : l₀ = [] ∧ r₀ = [] := by simpa using hne
        cases hadvance
        exact le_rfl
    omega

/-- **A consumer** that judges as a rule does enumerates the selection of the rule. -/
theorem enumerates_loop {rule : Rule} {body : Option T × Option T → Verdict T}
    (hbody : ∀ heads, body heads = rule.judge key heads) (h : it.Pending l r) :
    Enumerates (fun it : MergeIter T F => it.loop body it.rounds) it (select key rule l r) := by
  refine enumerates_of (R := fun it out => ∃ l r, it.Pending l r ∧ select key rule l r = out)
    ?_ ⟨l, r, h, rfl⟩
  rintro it - ⟨l, r, h, rfl⟩
  obtain ⟨it', l', r', hloop, h', hselect⟩ := loop_spec hbody h h.lt_rounds
  exact ⟨it', hloop, l', r', h', hselect⟩

end MergeIter

/-- `Union::next` never continues: its one round judges as the rule does that wants everything. -/
theorem Union.next_eq (it : MergeIter T F) {fuel : ℕ} :
    Union.next it = it.loop (Rule.judge key ⟨true, true, true⟩) (fuel + 1) := by
  rw [Union.next, MergeIter.loop]
  refine congrArg _ (funext fun answer => ?_)
  obtain ⟨it', heads⟩ := answer
  rcases heads with _ | ⟨_ | left, _ | right⟩
  · rfl
  · rfl
  · rfl
  · rfl
  · simp only [Rule.judge, if_true]
    rcases lt_trichotomy (key left) (key right) with hlt | heq | hgt
    · rw [if_neg hlt.not_gt, if_pos hlt]
    · rw [if_neg heq.not_gt, if_neg heq.not_lt, if_pos heq]
    · rw [if_pos hgt, if_neg hgt.not_gt, if_neg hgt.ne']

theorem Difference.body_eq (heads : Option T × Option T) :
    Difference.body heads = Rule.judge key ⟨true, false, false⟩ heads := by
  rcases heads with ⟨_ | left, _ | right⟩
  · rfl
  · rfl
  · rfl
  · simp [Difference.body, Rule.judge]

theorem SymmetricDifference.body_eq (heads : Option T × Option T) :
    SymmetricDifference.body heads = Rule.judge key ⟨true, false, true⟩ heads := by
  rcases heads with ⟨_ | left, _ | right⟩
  · rfl
  · rfl
  · rfl
  · simp only [SymmetricDifference.body, Rule.judge, if_true]
    rcases lt_trichotomy (key left) (key right) with hlt | heq | hgt
    · rw [if_pos hlt, if_pos hlt]
    · rw [if_neg heq.not_lt, if_neg heq.not_gt, if_neg heq.not_lt, if_pos heq]
      rfl
    · rw [if_neg hgt.not_gt, if_pos hgt, if_neg hgt.not_gt, if_neg hgt.ne']

theorem Intersection.body_eq (heads : Option T × Option T) :
    Intersection.body heads = Rule.judge key ⟨false, true, false⟩ heads := by
  rcases heads with ⟨_ | left, _ | right⟩
  · rfl
  · rfl
  · rfl
  · simp only [Intersection.body, Rule.judge, if_true]
    rcases lt_trichotomy (key left) (key right) with hlt | heq | hgt
    · rw [if_neg hlt.ne, if_pos hlt]
      rfl
    · rw [if_pos heq, if_neg heq.not_lt, if_pos heq]
    · rw [if_neg hgt.ne', if_neg hgt.not_gt, if_neg hgt.ne']
      rfl

/-! ## §4 The operations -/

/-- An iterator gives just these elements, strictly ascending, and then nothing more. -/
def Gives (next : MergeIter T F → Option (MergeIter T F × Option T))
    (made : Option (MergeIter T F)) (wanted : T → Prop) : Prop :=
  ∃ it l, made = some it ∧ Enumerates next it l ∧ Ascending key l ∧ ∀ x, x ∈ l ↔ wanted x

/-- A test returns, and with `true` exactly when the statement holds. -/
def Decides (test : Option Bool) (statement : Prop) : Prop :=
  ∃ answer, test = some answer ∧ (answer = true ↔ statement)

/-- The set operations on two sets are those on their elements; of two equal elements the one of
the first set is given. -/
structure BTreeSet.SetOperations (a b : BTreeSet T F) : Prop where
  union : Gives Union.next (a.union b) fun x =>
    x ∈ a.toList ∨ x ∈ b.toList ∧ ∀ y ∈ a.toList, key y ≠ key x
  difference : Gives Difference.next (a.difference b) fun x =>
    x ∈ a.toList ∧ ∀ y ∈ b.toList, key y ≠ key x
  symmetricDifference : Gives SymmetricDifference.next (a.symmetricDifference b) fun x =>
    (x ∈ a.toList ∧ ∀ y ∈ b.toList, key y ≠ key x) ∨
      (x ∈ b.toList ∧ ∀ y ∈ a.toList, key y ≠ key x)
  intersection : Gives Intersection.next (a.intersection b) fun x =>
    x ∈ a.toList ∧ ∃ y ∈ b.toList, key y = key x
  isSubset : Decides (a.isSubset b) (∀ x ∈ a.toList, ∃ y ∈ b.toList, key y = key x)
  isSuperset : Decides (a.isSuperset b) (∀ x ∈ b.toList, ∃ y ∈ a.toList, key y = key x)
  isDisjoint : Decides (a.isDisjoint b) (∀ x ∈ a.toList, ∀ y ∈ b.toList, key y ≠ key x)

namespace BTreeSet

/-- What the merge needs of a set: a node, ascending elements and the right length. Nodes may
have any lengths, and may be empty. -/
structure Listed (s : BTreeSet T F) : Prop where
  ne_nil : s.inner ≠ []
  len_eq : s.len = s.toList.length
  ascending : Ascending key s.toList

theorem Valid.listed [LawfulFenwickTree F] {s : BTreeSet T F} (hs : s.Valid) : s.Listed :=
  ⟨hs.layout.ne_nil, hs.len_eq, hs.layout.ascending⟩

variable {a b : BTreeSet T F}

/-- The merge of two sets is about to show their elements. -/
theorem mergeIter_pending (ha : a.Listed) (hb : b.Listed) :
    ∃ it, a.mergeIter b = some it ∧ it.Pending a.toList b.toList := by
  obtain ⟨leftIter, hleft, hl, -⟩ := Iter.new_spans ha.ne_nil ha.len_eq
  obtain ⟨rightIter, hright, hr, -⟩ := Iter.new_spans hb.ne_nil hb.len_eq
  refine ⟨⟨true, leftIter, none, rightIter, none⟩, ?_, Or.inl ⟨rfl, hl, hr⟩⟩
  rw [mergeIter, iter, iter, hleft, hright]
  rfl

/-- A consumer of the merge that judges as a rule does gives what the rule wants. -/
theorem gives_of_rule (ha : a.Listed) (hb : b.Listed) (rule : Rule)
    {body : Option T × Option T → Verdict T}
    (hbody : ∀ heads, body heads = rule.judge key heads) :
    Gives (fun it : MergeIter T F => it.loop body it.rounds) (a.mergeIter b)
      (rule.Wants key a.toList b.toList) := by
  obtain ⟨it, hmade, hpending⟩ := mergeIter_pending ha hb
  exact ⟨it, _, hmade, MergeIter.enumerates_loop hbody hpending,
    select_ascending rule ha.ascending hb.ascending, mem_select rule ha.ascending hb.ascending⟩

end BTreeSet

theorem Gives.congr {next : MergeIter T F → Option (MergeIter T F × Option T)}
    {made : Option (MergeIter T F)} {wanted wanted' : T → Prop} (h : Gives next made wanted)
    (hiff : ∀ x, wanted x ↔ wanted' x) : Gives next made wanted' := by
  obtain ⟨it, l, hmade, hnext, hasc, hmem⟩ := h
  exact ⟨it, l, hmade, hnext, hasc, fun x => (hmem x).trans (hiff x)⟩

theorem Decides.congr {test : Option Bool} {p q : Prop} (h : Decides test p) (hiff : p ↔ q) :
    Decides test q := by
  obtain ⟨answer, htest, hanswer⟩ := h
  exact ⟨answer, htest, hanswer.trans hiff⟩

/-- An iterator has no first element exactly when it is to give none. -/
theorem Gives.decides {next : MergeIter T F → Option (MergeIter T F × Option T)}
    {made : Option (MergeIter T F)} {wanted : T → Prop} (h : Gives next made wanted) :
    Decides (made.bind fun it => (next it).bind fun p => some !p.2.isSome)
      (∀ x, ¬ wanted x) := by
  obtain ⟨it, l, hmade, hnext, -, hmem⟩ := h
  obtain ⟨it', hhead⟩ := hnext.head
  refine ⟨!l.head?.isSome, by rw [hmade, Option.bind_some, hhead]; rfl, ?_⟩
  cases l with
  | nil => simp [← hmem]
  | cons x l => simpa using ⟨x, (hmem x).mp (List.mem_cons_self ..)⟩

namespace BTreeSet

variable {a b : BTreeSet T F}

theorem union_gives (ha : a.Listed) (hb : b.Listed) :
    Gives Union.next (a.union b) fun x =>
      x ∈ a.toList ∨ x ∈ b.toList ∧ ∀ y ∈ a.toList, key y ≠ key x := by
  have hnext : (Union.next : MergeIter T F → _) =
      fun it => it.loop (Rule.judge key ⟨true, true, true⟩) it.rounds :=
    funext fun it => Union.next_eq it
  rw [hnext]
  refine (gives_of_rule ha hb ⟨true, true, true⟩ fun _ => rfl).congr fun x => ?_
  simp only [Rule.Wants, true_and]
  rw [← or_assoc, ← and_or_left]
  refine or_congr_left (and_iff_left ?_)
  by_cases h : ∃ y ∈ b.toList, key y = key x
  · exact Or.inr h
  · exact Or.inl (by simpa using h)

theorem difference_gives (ha : a.Listed) (hb : b.Listed) :
    Gives Difference.next (a.difference b) fun x =>
      x ∈ a.toList ∧ ∀ y ∈ b.toList, key y ≠ key x :=
  (gives_of_rule ha hb ⟨true, false, false⟩ Difference.body_eq).congr fun x => by
    simp [Rule.Wants]

theorem symmetricDifference_gives (ha : a.Listed) (hb : b.Listed) :
    Gives SymmetricDifference.next (a.symmetricDifference b) fun x =>
      (x ∈ a.toList ∧ ∀ y ∈ b.toList, key y ≠ key x) ∨
        (x ∈ b.toList ∧ ∀ y ∈ a.toList, key y ≠ key x) :=
  (gives_of_rule ha hb ⟨true, false, true⟩ SymmetricDifference.body_eq).congr fun x => by
    simp [Rule.Wants]

theorem intersection_gives (ha : a.Listed) (hb : b.Listed) :
    Gives Intersection.next (a.intersection b) fun x =>
      x ∈ a.toList ∧ ∃ y ∈ b.toList, key y = key x :=
  (gives_of_rule ha hb ⟨false, true, false⟩ Intersection.body_eq).congr fun x => by
    simp [Rule.Wants]

theorem isSubset_decides (ha : a.Listed) (hb : b.Listed) :
    Decides (a.isSubset b) (∀ x ∈ a.toList, ∃ y ∈ b.toList, key y = key x) :=
  Decides.congr (difference_gives ha hb).decides (by simp)

theorem isDisjoint_decides (ha : a.Listed) (hb : b.Listed) :
    Decides (a.isDisjoint b) (∀ x ∈ a.toList, ∀ y ∈ b.toList, key y ≠ key x) :=
  Decides.congr (intersection_gives ha hb).decides (by simp)

end BTreeSet

/-- **Set operations**: on two sets with any node layouts the four iterators give the union, the
difference, the symmetric difference and the intersection, and the three tests decide inclusion
and disjointness. -/
theorem setOperations (a b : BTreeSet T F) (ha : a.Listed) (hb : b.Listed) : a.SetOperations b where
  union := BTreeSet.union_gives ha hb
  difference := BTreeSet.difference_gives ha hb
  symmetricDifference := BTreeSet.symmetricDifference_gives ha hb
  intersection := BTreeSet.intersection_gives ha hb
  isSubset := BTreeSet.isSubset_decides ha hb
  isSuperset := BTreeSet.isSubset_decides hb ha
  isDisjoint := BTreeSet.isDisjoint_decides ha hb

/-- With the three elements of a set and a set whose nodes have other lengths. -/
theorem setOperations_threeElements :
    threeElements.SetOperations ⟨[[3], [], [4, 6]], ⟨[1, 0, 2]⟩, 2, 3⟩ :=
  setOperations _ _ threeElements_produced.usable.1.listed ⟨by decide, by decide, by decide⟩

end IndexSet
