import IndexSet.Lib.KeyedList

/-!
# Merging Two Ascending Lists

A merge of two lists that ascend by a key shows their heads, and then moves on past the
smaller one, or past both when their keys are equal. A consumer of the merge judges each pair
of heads: it gives one of the two, skips the pair, or stops.

- `advance`: the lists behind the heads shown;
- `Rule`: which elements are wanted, by the side or sides that have their key;
- `select`: the wanted elements, `mem_select` and `select_ascending` what they are;
- `Rule.judge`, `judge_fits`: the consumer that gives them, one pair of heads after the other.

Independent of any particular program.
-/

namespace KeyedList

variable {α κ : Type*} [LinearOrder κ] (key : α → κ)

/-! ## §1 Moving on -/

/-- What the merge shows after these lists. -/
def advance : List α → List α → List α × List α
  | x :: l, y :: r =>
    if key x < key y then (l, y :: r) else if key x = key y then (l, r) else (x :: l, r)
  | _ :: l, [] => (l, [])
  | [], _ :: r => ([], r)
  | [], [] => ([], [])

/-- Moving on leaves less, unless nothing is left. -/
theorem length_advance_lt {l r : List α} (h : l ≠ [] ∨ r ≠ []) :
    (advance key l r).1.length + (advance key l r).2.length < l.length + r.length := by
  cases l with
  | nil =>
    cases r with
    | nil => simp at h
    | cons y r => simp [advance]
  | cons x l =>
    cases r with
    | nil => simp [advance]
    | cons y r =>
      rw [advance]
      split_ifs <;> simp only [List.length_cons] <;> omega

/-! ## §2 Selecting -/

/-- Which elements are wanted: those of the left list only, of both, of the right list only. -/
structure Rule where
  leftOnly : Bool
  both : Bool
  rightOnly : Bool

/-- An element in front of a list, if it is wanted. -/
def consIf (wanted : Bool) (x : α) (l : List α) : List α := if wanted then x :: l else l

/-- The wanted elements; of two with the same key the left one. -/
def select (rule : Rule) : List α → List α → List α
  | x :: l, y :: r =>
    if key x < key y then consIf rule.leftOnly x (select rule l (y :: r))
    else if key x = key y then consIf rule.both x (select rule l r)
    else consIf rule.rightOnly y (select rule (x :: l) r)
  | x :: l, [] => if rule.leftOnly then x :: l else []
  | [], y :: r => if rule.rightOnly then y :: r else []
  | [], [] => []
termination_by l r => l.length + r.length

/-- An element of one of the lists is wanted. -/
def Rule.Wants (rule : Rule) (l r : List α) (x : α) : Prop :=
  (rule.leftOnly ∧ x ∈ l ∧ ∀ y ∈ r, key y ≠ key x) ∨
    (rule.both ∧ x ∈ l ∧ ∃ y ∈ r, key y = key x) ∨
    (rule.rightOnly ∧ x ∈ r ∧ ∀ y ∈ l, key y ≠ key x)

variable {key}

/-- A left head below the right list has its key on the left only. -/
theorem wants_left {rule : Rule} {x z : α} {l r : List α} (hl : Above key (key x) l)
    (hr : Above key (key x) r) :
    rule.Wants key (x :: l) r z ↔ (rule.leftOnly ∧ z = x) ∨ rule.Wants key l r z := by
  unfold Rule.Wants
  constructor
  · rintro (⟨h, hz, hne⟩ | ⟨h, hz, y, hy, hyz⟩ | ⟨h, hz, hne⟩)
    · rcases List.mem_cons.mp hz with rfl | hz
      · exact Or.inl ⟨h, rfl⟩
      · exact Or.inr (Or.inl ⟨h, hz, hne⟩)
    · rcases List.mem_cons.mp hz with rfl | hz
      · exact absurd hyz (hr y hy).ne'
      · exact Or.inr (Or.inr (Or.inl ⟨h, hz, y, hy, hyz⟩))
    · exact Or.inr (Or.inr (Or.inr ⟨h, hz, (List.forall_mem_cons.mp hne).2⟩))
  · rintro (⟨h, rfl⟩ | ⟨h, hz, hne⟩ | ⟨h, hz, hy⟩ | ⟨h, hz, hne⟩)
    · exact Or.inl ⟨h, List.mem_cons_self .., fun y hy => (hr y hy).ne'⟩
    · exact Or.inl ⟨h, List.mem_cons_of_mem _ hz, hne⟩
    · exact Or.inr (Or.inl ⟨h, List.mem_cons_of_mem _ hz, hy⟩)
    · exact Or.inr (Or.inr ⟨h, hz, List.forall_mem_cons.mpr ⟨(hr z hz).ne, hne⟩⟩)

/-- A right head below the left list has its key on the right only. -/
theorem wants_right {rule : Rule} {y z : α} {l r : List α} (hl : Above key (key y) l)
    (hr : Above key (key y) r) :
    rule.Wants key l (y :: r) z ↔ (rule.rightOnly ∧ z = y) ∨ rule.Wants key l r z := by
  unfold Rule.Wants
  constructor
  · rintro (⟨h, hz, hne⟩ | ⟨h, hz, w, hw, hwz⟩ | ⟨h, hz, hne⟩)
    · exact Or.inr (Or.inl ⟨h, hz, (List.forall_mem_cons.mp hne).2⟩)
    · rcases List.mem_cons.mp hw with rfl | hw
      · exact absurd hwz (hl z hz).ne
      · exact Or.inr (Or.inr (Or.inl ⟨h, hz, w, hw, hwz⟩))
    · rcases List.mem_cons.mp hz with rfl | hz
      · exact Or.inl ⟨h, rfl⟩
      · exact Or.inr (Or.inr (Or.inr ⟨h, hz, hne⟩))
  · rintro (⟨h, rfl⟩ | ⟨h, hz, hne⟩ | ⟨h, hz, w, hw, hwz⟩ | ⟨h, hz, hne⟩)
    · exact Or.inr (Or.inr ⟨h, List.mem_cons_self .., fun w hw => (hl w hw).ne'⟩)
    · exact Or.inl ⟨h, hz, List.forall_mem_cons.mpr ⟨(hl z hz).ne, hne⟩⟩
    · exact Or.inr (Or.inl ⟨h, hz, w, List.mem_cons_of_mem _ hw, hwz⟩)
    · exact Or.inr (Or.inr ⟨h, List.mem_cons_of_mem _ hz, hne⟩)

/-- Equal heads have their key on both sides. -/
theorem wants_both {rule : Rule} {x y z : α} {l r : List α} (hxy : key x = key y)
    (hl : Above key (key x) l) (hr : Above key (key x) r) :
    rule.Wants key (x :: l) (y :: r) z ↔ (rule.both ∧ z = x) ∨ rule.Wants key l r z := by
  unfold Rule.Wants
  constructor
  · rintro (⟨h, hz, hne⟩ | ⟨h, hz, w, hw, hwz⟩ | ⟨h, hz, hne⟩)
    · rcases List.mem_cons.mp hz with rfl | hz
      · exact absurd hxy.symm (hne y (List.mem_cons_self ..))
      · exact Or.inr (Or.inl ⟨h, hz, (List.forall_mem_cons.mp hne).2⟩)
    · rcases List.mem_cons.mp hz with rfl | hz
      · exact Or.inl ⟨h, rfl⟩
      · rcases List.mem_cons.mp hw with rfl | hw
        · exact absurd (hxy.trans hwz) (hl z hz).ne
        · exact Or.inr (Or.inr (Or.inl ⟨h, hz, w, hw, hwz⟩))
    · rcases List.mem_cons.mp hz with rfl | hz
      · exact absurd hxy (hne x (List.mem_cons_self ..))
      · exact Or.inr (Or.inr (Or.inr ⟨h, hz, (List.forall_mem_cons.mp hne).2⟩))
  · rintro (⟨h, rfl⟩ | ⟨h, hz, hne⟩ | ⟨h, hz, w, hw, hwz⟩ | ⟨h, hz, hne⟩)
    · exact Or.inr (Or.inl ⟨h, List.mem_cons_self .., y, List.mem_cons_self .., hxy.symm⟩)
    · exact Or.inl ⟨h, List.mem_cons_of_mem _ hz,
        List.forall_mem_cons.mpr ⟨hxy ▸ (hl z hz).ne, hne⟩⟩
    · exact Or.inr (Or.inl ⟨h, List.mem_cons_of_mem _ hz, w, List.mem_cons_of_mem _ hw, hwz⟩)
    · exact Or.inr (Or.inr ⟨h, List.mem_cons_of_mem _ hz,
        List.forall_mem_cons.mpr ⟨(hr z hz).ne, hne⟩⟩)

theorem mem_consIf {wanted : Bool} {x z : α} {l : List α} :
    z ∈ consIf wanted x l ↔ (wanted ∧ z = x) ∨ z ∈ l := by
  cases wanted <;> simp [consIf]

/-- **What is selected** is what is wanted. -/
theorem mem_select (rule : Rule) {l r : List α} (hl : Ascending key l) (hr : Ascending key r)
    (z : α) : z ∈ select key rule l r ↔ rule.Wants key l r z := by
  fun_induction select key rule l r with
  | case1 x l y r hlt ih =>
    obtain ⟨hxl, hl⟩ := ascending_cons.mp hl
    have hxr : Above key (key x) (y :: r) :=
      (above_cons ..).mpr ⟨hlt, (ascending_cons.mp hr).1.trans_lt hlt.le⟩
    rw [mem_consIf, ih hl hr, wants_left hxl hxr]
  | case2 x l y r _ heq ih =>
    obtain ⟨hxl, hl⟩ := ascending_cons.mp hl
    obtain ⟨hyr, hr⟩ := ascending_cons.mp hr
    rw [mem_consIf, ih hl hr, wants_both heq hxl (heq ▸ hyr)]
  | case3 x l y r hlt hne ih =>
    have hyx : key y < key x := lt_of_le_of_ne (not_lt.mp hlt) (Ne.symm hne)
    obtain ⟨hyr, hr⟩ := ascending_cons.mp hr
    have hyl : Above key (key y) (x :: l) :=
      (above_cons ..).mpr ⟨hyx, (ascending_cons.mp hl).1.trans_lt hyx.le⟩
    rw [mem_consIf, ih hl hr, wants_right hyl hyr]
  | case4 x l hrule => simp [Rule.Wants, hrule]
  | case5 x l hrule => simp [Rule.Wants, hrule]
  | case6 y r hrule => simp [Rule.Wants, hrule]
  | case7 y r hrule => simp [Rule.Wants, hrule]
  | case8 => simp [Rule.Wants]

theorem ascending_consIf {wanted : Bool} {x : α} {l : List α} (hx : Above key (key x) l)
    (hl : Ascending key l) : Ascending key (consIf wanted x l) := by
  cases wanted
  · exact hl
  · exact ascending_cons.mpr ⟨hx, hl⟩

/-- What is wanted from lists above a key is above it. -/
theorem above_select (rule : Rule) {l r : List α} (hl : Ascending key l) (hr : Ascending key r)
    {q : κ} (hql : Above key q l) (hqr : Above key q r) : Above key q (select key rule l r) := by
  intro z hz
  rcases (mem_select rule hl hr z).mp hz with ⟨-, hz, -⟩ | ⟨-, hz, -⟩ | ⟨-, hz, -⟩
  · exact hql z hz
  · exact hql z hz
  · exact hqr z hz

/-- What is selected ascends. -/
theorem select_ascending (rule : Rule) {l r : List α} (hl : Ascending key l)
    (hr : Ascending key r) : Ascending key (select key rule l r) := by
  fun_induction select key rule l r with
  | case1 x l y r hlt ih =>
    obtain ⟨hxl, hl⟩ := ascending_cons.mp hl
    have hxr : Above key (key x) (y :: r) :=
      (above_cons ..).mpr ⟨hlt, (ascending_cons.mp hr).1.trans_lt hlt.le⟩
    exact ascending_consIf (above_select rule hl hr hxl hxr) (ih hl hr)
  | case2 x l y r _ heq ih =>
    obtain ⟨hxl, hl⟩ := ascending_cons.mp hl
    obtain ⟨hyr, hr⟩ := ascending_cons.mp hr
    exact ascending_consIf (above_select rule hl hr hxl (heq ▸ hyr)) (ih hl hr)
  | case3 x l y r hlt hne ih =>
    have hyx : key y < key x := lt_of_le_of_ne (not_lt.mp hlt) (Ne.symm hne)
    obtain ⟨hyr, hr⟩ := ascending_cons.mp hr
    have hyl : Above key (key y) (x :: l) :=
      (above_cons ..).mpr ⟨hyx, (ascending_cons.mp hl).1.trans_lt hyx.le⟩
    exact ascending_consIf (above_select rule hl hr hyl hyr) (ih hl hr)
  | case4 x l hrule => exact hl
  | case6 y r hrule => exact hr
  | case5 | case7 | case8 => exact ascending_nil

/-! ## §3 Judging the heads -/

/-- What a consumer does with a pair of heads. -/
inductive Verdict (α : Type*) where
  | give (x : α)
  | skip
  | stop

variable (key) in
/-- The consumer that gives the wanted heads. On one side it stops when it wants nothing from
there. -/
def Rule.judge (rule : Rule) : Option α × Option α → Verdict α
  | (some x, some y) =>
    if key x < key y then (if rule.leftOnly then .give x else .skip)
    else if key x = key y then (if rule.both then .give x else .skip)
    else (if rule.rightOnly then .give y else .skip)
  | (some x, none) => if rule.leftOnly then .give x else .stop
  | (none, some y) => if rule.rightOnly then .give y else .stop
  | (none, none) => .stop

/-- What a verdict on the heads of two lists says about the selection from them. -/
def Verdict.Fits (key : α → κ) (rule : Rule) (l r : List α) : Verdict α → Prop
  | .give x => select key rule l r =
      x :: select key rule (advance key l r).1 (advance key l r).2
  | .skip => (l ≠ [] ∨ r ≠ []) ∧
      select key rule l r = select key rule (advance key l r).1 (advance key l r).2
  | .stop => select key rule l r = [] ∧
      select key rule (advance key l r).1 (advance key l r).2 = []

/-- **The consumer gives the selection**, one pair of heads after the other. -/
theorem judge_fits (key : α → κ) (rule : Rule) (l r : List α) :
    (rule.judge key (l.head?, r.head?)).Fits key rule l r := by
  cases l with
  | nil =>
    cases r with
    | nil => simp [Rule.judge, Verdict.Fits, select, advance]
    | cons y r =>
      -- the rest of the right list is wanted as a whole, or not at all
      cases hrule : rule.rightOnly <;> cases r <;>
        simp [Rule.judge, Verdict.Fits, select, advance, hrule]
  | cons x l =>
    cases r with
    | nil =>
      cases hrule : rule.leftOnly <;> cases l <;>
        simp [Rule.judge, Verdict.Fits, select, advance, hrule]
    | cons y r =>
      simp only [List.head?_cons, Rule.judge]
      split_ifs with hlt hleft heq hboth hright
      all_goals simp [Verdict.Fits, select, advance, consIf, *]

end KeyedList
