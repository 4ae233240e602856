import Mathlib.Data.List.Basic
import Mathlib.Data.Option.Basic
import Mathlib.Order.Lattice

/-!
# Double-Ended Iterators

An iterator is a partial function `pull : σ → End → Option (σ × Option α)`: asked for an
item at one end it moves on and gives one, or says that there is none; `none` is a panic.
What it should give is what the list of its items would.

- `reference`: the answers of a list to any sequence of calls;
- `ExactlyOnce`, `exactlyOnce_iff`: these are the answers in which what is given at the two
  ends is a prefix and a reversed suffix that do not overlap, and a call is refused only once
  everything has been given;
- `Yields`: an iterator all of whose runs visit a list exactly once;
- `yields_of`: the simulation rule — an iterator whose every answer is that of a list;
- `not_yields`: an iterator that goes on when its list has ended;
- `mapped`: an iterator whose items are made of those of another one;
- `Enumerates`, `enumerates_of`: the same for an iterator with a single end;
- `Silent`: an iterator that gives nothing, or is not even built;
- `MeetsInside`: the course of an iteration from both ends, spelled out;
- `facing`, `Ahead`: a list and an order as one meets them coming from one end;
- `outputs_eq_iff`: when some answers go wrong, the calls that go right are those whose
  every step meets a condition.

Independent of any particular program.
-/

namespace DoubleEnded

variable {α σ : Type*}

/-- The end at which an item is asked for: `next` or `next_back`. -/
inductive End where
  | front
  | back
  deriving DecidableEq, Repr

/-! ## §1 The reference -/

/-- The item a list has at one end. -/
def item (l : List α) : End → Option α
  | .front => l.head?
  | .back => l.getLast?

/-- The list without it. -/
def rest (l : List α) : End → List α
  | .front => l.tail
  | .back => l.dropLast

/-- The answers of a list to a sequence of calls. -/
def reference : List α → List End → List (Option α)
  | _, [] => []
  | l, e :: es => item l e :: reference (rest l e) es

/-- The items given at one end. -/
def given (at_ : End) : List End → List (Option α) → List α
  | e :: es, some x :: answers =>
    if e = at_ then x :: given at_ es answers else given at_ es answers
  | _ :: es, none :: answers => given at_ es answers
  | _, _ => []

theorem item_eq_none {l : List α} {e : End} : item l e = none ↔ l = [] := by
  cases e <;> simp [item]

@[simp] theorem item_nil (e : End) : item ([] : List α) e = none := by cases e <;> rfl

@[simp] theorem rest_nil (e : End) : rest ([] : List α) e = [] := by cases e <;> rfl

theorem item_map {β : Type*} (f : α → β) (l : List α) (e : End) :
    item (l.map f) e = (item l e).map f := by
  cases e <;> simp [item]

theorem rest_map {β : Type*} (f : α → β) (l : List α) (e : End) :
    rest (l.map f) e = (rest l e).map f := by
  cases e <;> simp [rest, List.map_tail, List.map_dropLast]

/-- A list is determined by its answers. -/
theorem reference_injective {l l' : List α} (h : ∀ es, reference l es = reference l' es) :
    l = l' := by
  have hhead : ∀ {l l' : List α}, (∀ es, reference l es = reference l' es) →
      l.head? = l'.head? := fun h => (List.cons.inj (h [.front])).1
  induction l generalizing l' with
  | nil => exact (List.head?_eq_none_iff.mp (hhead h).symm).symm
  | cons x l ih =>
    obtain ⟨t, rfl⟩ := List.head?_eq_some_iff.mp (hhead h).symm
    exact congrArg (x :: ·) (ih fun es => (List.cons.inj (h (.front :: es))).2)

/-- Every item is given exactly once: at any time what has been given in front is a prefix of
the list, what has been given at the back a reversed suffix, the two do not overlap, and a
call is refused only if together they are the whole list. -/
structure ExactlyOnce (l : List α) (es : List End) (answers : List (Option α)) : Prop where
  length_eq : answers.length = es.length
  parts : ∀ k, ∃ left,
    l = given .front (es.take k) (answers.take k) ++ left ++
        (given .back (es.take k) (answers.take k)).reverse ∧
      (answers[k]? = some none → left = [])

theorem given_some (at_ e : End) (es : List End) (x : α) (answers : List (Option α)) :
    given at_ (e :: es) (some x :: answers) =
      if e = at_ then x :: given at_ es answers else given at_ es answers := by
  rw [given]

theorem given_none (at_ e : End) (es : List End) (answers : List (Option α)) :
    given at_ (e :: es) (none :: answers) = given at_ es answers := by
  rw [given]

/-- The first answer is the item at its end, and the others make up the rest. -/
theorem exactlyOnce_cons {l : List α} {e : End} {es : List End} {a : Option α}
    {answers : List (Option α)} :
    ExactlyOnce l (e :: es) (a :: answers) ↔
      a = item l e ∧ ExactlyOnce (rest l e) es answers := by
  cases a with
  | none =>
    constructor
    · intro h
      obtain ⟨left, hl, hnone⟩ := h.parts 0
      obtain rfl : l = [] := by simpa [given, hnone rfl] using hl
      refine ⟨(item_nil e).symm, by simpa using h.length_eq, fun k => ?_⟩
      simpa only [rest_nil, List.take_succ_cons, given_none, List.getElem?_cons_succ]
        using h.parts (k + 1)
    · rintro ⟨hitem, h⟩
      obtain rfl := item_eq_none.mp hitem.symm
      refine ⟨by simpa using h.length_eq, fun k => ?_⟩
      cases k with
      | zero => exact ⟨[], by simp [given], fun _ => rfl⟩
      | succ k =>
        simpa only [rest_nil, List.take_succ_cons, given_none, List.getElem?_cons_succ]
          using h.parts k
  | some x =>
    have hcut : some x = item l e ↔
        l = match e with
          | .front => x :: rest l e
          | .back => rest l e ++ [x] := by
      cases e with
      | front => cases l <;> simp [item, rest, eq_comm]
      | back =>
        rcases List.eq_nil_or_concat' l with rfl | ⟨t, y, rfl⟩ <;> simp [item, rest, eq_comm]
    -- without the first item the same parts make up the rest
    have hparts : ∀ k left, some x = item l e →
        (l = given .front ((e :: es).take (k + 1)) ((some x :: answers).take (k + 1)) ++ left ++
              (given .back ((e :: es).take (k + 1)) ((some x :: answers).take (k + 1))).reverse ↔
          rest l e = given .front (es.take k) (answers.take k) ++ left ++
              (given .back (es.take k) (answers.take k)).reverse) := by
      intro k left hitem
      have hl := hcut.mp hitem
      simp only [List.take_succ_cons, given_some]
      cases e with
      | front =>
        rw [hl]
        simp [rest]
      | back =>
        rw [hl]
        simp [rest, ← List.append_assoc]
    constructor
    · intro h
      have hitem : some x = item l e := by
        obtain ⟨left, hl, -⟩ := h.parts 1
        rw [hl]
        cases e <;> simp [given, item]
      refine ⟨hitem, by simpa using h.length_eq, fun k => ?_⟩
      obtain ⟨left, hl, hnone⟩ := h.parts (k + 1)
      exact ⟨left, (hparts k left hitem).mp hl, hnone⟩
    · rintro ⟨hitem, h⟩
      refine ⟨by simpa using h.length_eq, fun k => ?_⟩
      cases k with
      | zero => exact ⟨l, by simp [given], by simp⟩
      | succ k =>
        obtain ⟨left, hl, hnone⟩ := h.parts k
        exact ⟨left, (hparts k left hitem).mpr hl, hnone⟩

/-- **Exactly once** means: the answers of the list. -/
theorem exactlyOnce_iff {l : List α} {es : List End} {answers : List (Option α)} :
    ExactlyOnce l es answers ↔ answers = reference l es := by
  induction es generalizing l answers with
  | nil =>
    refine ⟨fun h => List.length_eq_zero_iff.mp h.length_eq, ?_⟩
    rintro rfl
    exact ⟨rfl, fun k => ⟨l, by simp [given], by simp [reference]⟩⟩
  | cons e es ih =>
    cases answers with
    | nil => exact ⟨fun h => absurd h.length_eq (by simp), fun h => absurd h (by simp [reference])⟩
    | cons a answers => rw [exactlyOnce_cons, ih, reference, List.cons.injEq]

/-! ## §2 Iterators -/

variable (pull : σ → End → Option (σ × Option α))

/-- The answers of an iterator to a sequence of calls; `none` when it panics. -/
def outputs : σ → List End → Option (List (Option α))
  | _, [] => some []
  | s, e :: es => (pull s e).bind fun r => (outputs r.1 es).map (r.2 :: ·)

/-- Every call of the sequence meets `P`, a condition on the state before it. -/
def Along (P : σ → End → Prop) : σ → List End → Prop
  | _, [] => True
  | s, e :: es =>
    P s e ∧
      match pull s e with
      | some r => Along P r.1 es
      | none => True

instance decidableAlong (P : σ → End → Prop) [∀ s e, Decidable (P s e)] :
    ∀ s es, Decidable (Along pull P s es)
  | _, [] => isTrue trivial
  | s, e :: es =>
      have : Decidable
          (match pull s e with
           | some r => Along pull P r.1 es
           | none => True) :=
        match pull s e with
        | some r => decidableAlong P r.1 es
        | none => isTrue trivial
      inferInstanceAs (Decidable (_ ∧ _))

variable {pull}

theorem outputs_cons {s s' : σ} {e : End} {es : List End} {x : Option α}
    (h : pull s e = some (s', x)) :
    outputs pull s (e :: es) = (outputs pull s' es).map (x :: ·) := by
  rw [outputs, h, Option.bind_some]

/-- **When some answers go wrong**: an iterator answers a call as its list does if the call
meets `P`, and otherwise it does not; then exactly the sequences all of whose calls meet `P`
get the answers of the list. -/
theorem outputs_eq_iff {P : σ → End → Prop} {R : σ → List α → Prop}
    (hgood : ∀ s l e, R s l → P s e → ∃ s', pull s e = some (s', item l e) ∧ R s' (rest l e))
    (hbad : ∀ s l e, R s l → ¬ P s e → ∀ s', pull s e ≠ some (s', item l e))
    {s : σ} {l : List α} (h : R s l) (es : List End) :
    outputs pull s es = some (reference l es) ↔ Along pull P s es := by
  induction es generalizing s l with
  | nil => exact ⟨fun _ => trivial, fun _ => rfl⟩
  | cons e es ih =>
    by_cases hP : P s e
    · obtain ⟨s', hpull, hR⟩ := hgood s l e h hP
      rw [outputs_cons hpull, Along, hpull, reference]
      simp only [Option.map_eq_some_iff, List.cons.injEq, true_and]
      rw [← ih hR]
      simp [hP]
    · refine ⟨fun hout => ?_, fun halong => absurd halong.1 hP⟩
      rw [outputs, Option.bind_eq_some_iff] at hout
      obtain ⟨⟨s', x⟩, hpull, hout⟩ := hout
      obtain ⟨answers, -, hout⟩ := Option.map_eq_some_iff.mp hout
      rw [reference, List.cons.injEq] at hout
      exact absurd (hout.1 ▸ hpull) (hbad s l e h hP s')

/-- Every sequence of calls is answered without a panic and visits the list exactly once. -/
def Yields (pull : σ → End → Option (σ × Option α)) (s : σ) (l : List α) : Prop :=
  ∀ es, ∃ answers, outputs pull s es = some answers ∧ ExactlyOnce l es answers

theorem yields_iff {s : σ} {l : List α} :
    Yields pull s l ↔ ∀ es, outputs pull s es = some (reference l es) := by
  simp only [Yields, exactlyOnce_iff, exists_eq_right]

/-- An iterator yields one list at most. -/
theorem Yields.eq {s : σ} {l l' : List α} (h : Yields pull s l) (h' : Yields pull s l') :
    l = l' :=
  reference_injective fun es =>
    Option.some.inj ((yields_iff.mp h es).symm.trans (yields_iff.mp h' es))

/-- **Simulation**: an iterator whose every answer is that of a list. -/
theorem yields_of {R : σ → List α → Prop}
    (hstep : ∀ s l e, R s l → ∃ s', pull s e = some (s', item l e) ∧ R s' (rest l e))
    {s : σ} {l : List α} (h : R s l) : Yields pull s l := by
  rw [yields_iff]
  intro es
  induction es generalizing s l with
  | nil => rfl
  | cons e es ih =>
    obtain ⟨s', hpull, hR⟩ := hstep s l e h
    rw [outputs_cons hpull, ih hR]
    rfl

/-- The first call of an iterator that yields a list. -/
theorem Yields.item {s : σ} {l : List α} (h : Yields pull s l) (e : End) :
    ∃ s', pull s e = some (s', item l e) ∧ Yields pull s' (rest l e) := by
  rw [yields_iff] at h
  have hone := h [e]
  rw [outputs, Option.bind_eq_some_iff] at hone
  obtain ⟨⟨s', x⟩, hpull, hone⟩ := hone
  obtain rfl : x = DoubleEnded.item l e := by simpa [outputs, reference] using hone
  refine ⟨s', hpull, yields_iff.mpr fun es => ?_⟩
  have hout := h (e :: es)
  rw [outputs_cons hpull, Option.map_eq_some_iff] at hout
  obtain ⟨answers, hanswers, heq⟩ := hout
  rw [hanswers, (List.cons.inj heq).2]

/-- An iterator that wraps another one and makes its items of those of the other. -/
theorem Yields.wrapped {β τ : Type*} {pull' : τ → End → Option (τ × Option β)} (wrap : σ → τ)
    (f : α → β)
    (hpull : ∀ s e, pull' (wrap s) e = (pull s e).map fun r => (wrap r.1, r.2.map f))
    {s : σ} {l : List α} (h : Yields pull s l) : Yields pull' (wrap s) (l.map f) := by
  refine yields_of (R := fun t l' => ∃ s l, Yields pull s l ∧ t = wrap s ∧ l' = l.map f) ?_
    ⟨s, l, h, rfl, rfl⟩
  rintro - - e ⟨s, l, h, rfl, rfl⟩
  obtain ⟨s', hcall, hrest⟩ := h.item e
  refine ⟨wrap s', ?_, s', rest l e, hrest, rfl, rest_map f l e⟩
  rw [hpull, hcall, item_map, Option.map_some]

/-- A yielded list holds only items that the iterator holds, if its calls give nothing else. -/
theorem Yields.mem_of {P : σ → α → Prop}
    (hpull : ∀ s e s' a, pull s e = some (s', a) →
      (∀ x, a = some x → P s x) ∧ ∀ x, P s' x → P s x)
    {s : σ} {l : List α} (h : Yields pull s l) : ∀ x ∈ l, P s x := by
  induction l generalizing s with
  | nil => simp
  | cons y l ih =>
    obtain ⟨s', hcall, hyields⟩ := h.item .front
    have ⟨hitem, hrest⟩ := hpull s .front s' _ hcall
    intro x hx
    rcases List.mem_cons.mp hx with rfl | hx
    · exact hitem x rfl
    · exact hrest x (ih hyields x hx)

/-- **A wrong answer at the end**: an iterator that gives the items of its list in front, and
then does not say that there are no more, does not yield the list. -/
theorem not_yields {R : σ → List α → Prop}
    (hfront : ∀ s x l, R s (x :: l) → ∃ s', pull s .front = some (s', some x) ∧ R s' l)
    {e : End} (hstop : ∀ s, R s [] → ∀ s', pull s e ≠ some (s', none))
    {s : σ} {l : List α} (h : R s l) : ¬ Yields pull s l := by
  intro hyields
  induction l generalizing s with
  | nil =>
    obtain ⟨s', hpull, -⟩ := hyields.item e
    rw [item_nil] at hpull
    exact hstop s h s' hpull
  | cons x l ih =>
    obtain ⟨s', hpull, hR⟩ := hfront s x l h
    obtain ⟨s'', hpull', hrest⟩ := hyields.item .front
    obtain rfl : s' = s'' := (Prod.mk.inj (Option.some.inj (hpull.symm.trans hpull'))).1
    exact ih hR hrest

/-- `Iterator::find`: `next` until an item satisfies the predicate, at most so many times. -/
def findNext (pull : σ → End → Option (σ × Option α)) (p : α → Bool) :
    ℕ → σ → Option (Option α)
  | 0, _ => none
  | fuel + 1, s =>
    (pull s .front).bind fun
      | (s, some x) => if p x then some (some x) else findNext pull p fuel s
      | (_, none) => some none

/-- It finds the first item of the list. -/
theorem Yields.findNext {p : α → Bool} {fuel : ℕ} {s : σ} {l : List α} (h : Yields pull s l)
    (hfuel : l.length < fuel) : findNext pull p fuel s = some (l.find? p) := by
  induction fuel generalizing s l with
  | zero => omega
  | succ fuel ih =>
    obtain ⟨s', hcall, hrest⟩ := h.item .front
    rw [DoubleEnded.findNext, hcall]
    cases l with
    | nil => rfl
    | cons x l =>
      have hlength : l.length < fuel := by simpa using hfuel
      by_cases hx : p x
      · simp [DoubleEnded.item, hx]
      · simpa [DoubleEnded.item, rest, hx] using ih hrest hlength

/-- What is made of the items does not matter. -/
theorem reference_map {β : Type*} (f : α → β) (l : List α) (es : List End) :
    reference (l.map f) es = (reference l es).map (Option.map f) := by
  induction es generalizing l with
  | nil => rfl
  | cons e es ih => rw [reference, item_map, rest_map, ih, reference, List.map_cons]

/-- An iterator whose items are made of those of another one. -/
def mapped {β : Type*} (f : α → β) (pull : σ → End → Option (σ × Option α)) (s : σ) (e : End) :
    Option (σ × Option β) :=
  (pull s e).map fun r => (r.1, r.2.map f)

theorem outputs_mapped {β : Type*} (f : α → β) (s : σ) (es : List End) :
    outputs (mapped f pull) s es = (outputs pull s es).map (List.map (Option.map f)) := by
  induction es generalizing s with
  | nil => rfl
  | cons e es ih =>
    rw [outputs, outputs, mapped]
    cases pull s e with
    | none => rfl
    | some r => simp [ih, Function.comp_def]

theorem mapped_id : mapped id pull = pull := by
  funext s e
  simp [mapped]

/-- It yields what is made of the list. -/
theorem Yields.mapped {β : Type*} {s : σ} {l : List α} (h : Yields pull s l) (f : α → β) :
    Yields (mapped f pull) s (l.map f) := by
  rw [yields_iff] at h ⊢
  intro es
  rw [outputs_mapped, h es, reference_map, Option.map_some]

theorem reference_nil (es : List End) :
    reference ([] : List α) es = List.replicate es.length none := by
  induction es with
  | nil => rfl
  | cons e es ih => rw [reference, item_nil, rest_nil, ih, List.length_cons, List.replicate_succ]

/-- If nothing is made of its items, it has none. -/
theorem Yields.of_mapped_nil {β : Type*} {s : σ} {f : α → β}
    (h : Yields (DoubleEnded.mapped f pull) s []) : Yields pull s [] := by
  rw [yields_iff] at h ⊢
  intro es
  have hes := h es
  rw [outputs_mapped, reference_nil, Option.map_eq_some_iff] at hes
  obtain ⟨answers, hanswers, heq⟩ := hes
  obtain ⟨hlength, hnone⟩ := List.eq_replicate_iff.mp heq
  rw [hanswers, reference_nil, Option.some_inj]
  refine List.eq_replicate_iff.mpr ⟨by simpa using hlength, fun a ha => ?_⟩
  exact Option.map_eq_none_iff.mp (hnone _ (List.mem_map_of_mem ha))

/-! ## §3 One end -/

/-- An iterator with a single end: its calls give the items of the list in order, and nothing
from then on. -/
def Enumerates (next : σ → Option (σ × Option α)) (s : σ) (l : List α) : Prop :=
  ∀ n, outputs (fun s _ => next s) s (List.replicate n .front) =
    some ((List.range n).map fun i => l[i]?)

theorem reference_replicate (l : List α) (n : ℕ) :
    reference l (List.replicate n .front) = (List.range n).map fun i => l[i]? := by
  induction n generalizing l with
  | zero => rfl
  | succ n ih =>
    rw [List.replicate_succ, reference, ih, List.range_succ_eq_map, List.map_cons, List.map_map]
    cases l <;> simp [item, rest, Function.comp_def]

/-- The first call. -/
theorem Enumerates.head {next : σ → Option (σ × Option α)} {s : σ} {l : List α}
    (h : Enumerates next s l) : ∃ s', next s = some (s', l.head?) := by
  have hone := h 1
  rw [List.replicate_one, outputs, Option.bind_eq_some_iff] at hone
  obtain ⟨⟨s', x⟩, hnext, hout⟩ := hone
  obtain rfl : x = l.head? := by simpa [outputs, List.head?_eq_getElem?] using hout
  exact ⟨s', hnext⟩

/-- **Simulation** with a single end. -/
theorem enumerates_of {next : σ → Option (σ × Option α)} {R : σ → List α → Prop}
    (hstep : ∀ s l, R s l → ∃ s', next s = some (s', l.head?) ∧ R s' l.tail)
    {s : σ} {l : List α} (h : R s l) : Enumerates next s l := by
  intro n
  rw [← reference_replicate]
  induction n generalizing s l with
  | zero => rfl
  | succ n ih =>
    obtain ⟨s', hnext, hR⟩ := hstep s l h
    rw [List.replicate_succ, outputs_cons hnext, ih hR]
    rfl

/-- Nothing ever comes out: what has been built, if anything, panics or has no item, however
often it is asked for one. -/
def Silent (next : σ → Option (σ × Option α)) (built : Option σ) : Prop :=
  ∀ s, built = some s → ∀ n answers,
    outputs (fun s _ => next s) s (List.replicate n .front) = some answers →
      ∀ a ∈ answers, a = none

/-- A condition under which a call has no item, and which it keeps. -/
theorem silent_of {next : σ → Option (σ × Option α)} {R : σ → Prop}
    (hstep : ∀ s, R s → ∀ s' a, next s = some (s', a) → a = none ∧ R s')
    {built : Option σ} (h : ∀ s, built = some s → R s) : Silent next built := by
  intro s hs n
  have hR := h s hs
  clear hs h
  induction n generalizing s with
  | zero =>
    intro answers hout
    obtain rfl : answers = [] := (Option.some.inj hout).symm
    simp
  | succ n ih =>
    intro answers hout
    rw [List.replicate_succ, outputs, Option.bind_eq_some_iff] at hout
    obtain ⟨⟨s', a⟩, hnext, hout⟩ := hout
    obtain ⟨left, hleft, rfl⟩ := Option.map_eq_some_iff.mp hout
    obtain ⟨rfl, hR'⟩ := hstep s hR s' a hnext
    exact List.forall_mem_cons.mpr ⟨rfl, ih s' hR' left hleft⟩

/-- One item is enough. -/
theorem not_silent {next : σ → Option (σ × Option α)} {built : Option σ} {s s' : σ} {x : α}
    (hbuilt : built = some s) (hnext : next s = some (s', some x)) : ¬ Silent next built := by
  intro h
  have hone : outputs (fun s _ => next s) s (List.replicate 1 .front) = some [some x] := by
    rw [List.replicate_one, outputs_cons hnext]
    rfl
  exact absurd (h s hbuilt 1 _ hone (some x) (List.mem_singleton_self _)) (by simp)

/-- An iterator that yields the empty list. -/
theorem Yields.silent {s : σ} (h : Yields pull s []) : Silent (pull · .front) (some s) := by
  refine silent_of (R := fun s => Yields pull s []) ?_ fun s' hs' => Option.some.inj hs' ▸ h
  intro s hs s' a hnext
  obtain ⟨s'', hpull, hrest⟩ := hs.item .front
  obtain ⟨rfl, rfl⟩ := Prod.mk.inj (Option.some.inj (hpull.symm.trans hnext))
  exact ⟨item_nil .front, hrest⟩

/-! ## §4 Where the ends meet -/

/-- Once a call has been refused, the list has nothing left for any other. -/
theorem reference_after_none {l : List α} {es : List End} {j k : ℕ} (hjk : j ≤ k)
    (hk : k < es.length) (hnone : (reference l es)[j]? = some none) :
    (reference l es)[k]? = some none := by
  induction es generalizing l j k with
  | nil => exact absurd hk (Nat.not_lt_zero k)
  | cons e es ih =>
    cases j with
    | zero =>
      -- the list is empty
      obtain rfl : l = [] := item_eq_none.mp (Option.some.inj hnone)
      rw [reference_nil]
      exact List.getElem?_replicate_of_lt hk
    | succ j =>
      cases k with
      | zero => exact absurd hjk (Nat.not_succ_le_zero j)
      | succ k =>
        apply ih (Nat.le_of_succ_le_succ hjk) (Nat.lt_of_succ_lt_succ hk)
        exact hnone

/-- The course of an iteration from both ends: what has been given in front is a prefix, what
has been given at the back a reversed suffix, the two together are at most the list, and they
are all of it when a call is refused, as is every call from then on. -/
structure MeetsInside (l : List α) (es : List End) (answers : List (Option α)) : Prop where
  length_eq : answers.length = es.length
  inFront : ∀ k, given .front (es.take k) (answers.take k) <+: l
  atBack : ∀ k, (given .back (es.take k) (answers.take k)).reverse <:+ l
  disjoint : ∀ k, (given .front (es.take k) (answers.take k)).length +
    (given .back (es.take k) (answers.take k)).length ≤ l.length
  covered : ∀ k, answers[k]? = some none →
    (given .front (es.take k) (answers.take k)).length +
      (given .back (es.take k) (answers.take k)).length = l.length
  ended : ∀ j k, j ≤ k → k < es.length → answers[j]? = some none → answers[k]? = some none

theorem ExactlyOnce.meetsInside {l : List α} {es : List End} {answers : List (Option α)}
    (h : ExactlyOnce l es answers) : MeetsInside l es answers where
  length_eq := h.length_eq
  inFront k := by
    obtain ⟨left, hl, -⟩ := h.parts k
    rw [List.append_assoc] at hl
    exact ⟨_, hl.symm⟩
  atBack k := by
    obtain ⟨left, hl, -⟩ := h.parts k
    exact ⟨_, hl.symm⟩
  disjoint k := by
    obtain ⟨left, hl, -⟩ := h.parts k
    have hlen := congrArg List.length hl
    simp only [List.length_append, List.length_reverse] at hlen
    omega
  covered k hk := by
    obtain ⟨left, hl, hleft⟩ := h.parts k
    have hlen := congrArg List.length hl
    simp only [hleft hk, List.length_append, List.length_reverse, List.length_nil] at hlen
    omega
  ended j k hjk hk hj := by
    obtain rfl := exactlyOnce_iff.mp h
    exact reference_after_none hjk hk hj

/-! ## §5 Seen from one end -/

/-- The end opposite. -/
def End.opposite : End → End
  | .front => .back
  | .back => .front

@[simp] theorem End.opposite_opposite (e : End) : e.opposite.opposite = e := by cases e <;> rfl

/-- The list as one meets it coming from an end. -/
def facing : End → List α → List α
  | .front, l => l
  | .back, l => l.reverse

@[simp] theorem facing_facing (e : End) (l : List α) : facing e (facing e l) = l := by
  cases e <;> simp [facing]

@[simp] theorem mem_facing {e : End} {l : List α} {x : α} : x ∈ facing e l ↔ x ∈ l := by
  cases e <;> simp [facing]

@[simp] theorem facing_nil (e : End) : facing e ([] : List α) = [] := by cases e <;> rfl

theorem facing_eq_nil {e : End} {l : List α} : facing e l = [] ↔ l = [] := by
  cases e <;> simp [facing]

theorem facing_opposite (e : End) (l : List α) : facing e.opposite l = (facing e l).reverse := by
  cases e <;> simp [facing, End.opposite]

/-- `b` lies ahead of `a` for one who comes from the end. -/
def Ahead {κ : Type*} [LT κ] : End → κ → κ → Prop
  | .front, a, b => a < b
  | .back, a, b => b < a

section Ahead

variable {κ : Type*} [LinearOrder κ] {e : End} {a b c : κ}

instance decidableAhead : ∀ (e : End) (a b : κ), Decidable (Ahead e a b)
  | .front, a, b => inferInstanceAs (Decidable (a < b))
  | .back, a, b => inferInstanceAs (Decidable (b < a))

theorem ahead_opposite : Ahead e.opposite a b ↔ Ahead e b a := by cases e <;> rfl

theorem Ahead.trans (h : Ahead e a b) (h' : Ahead e b c) : Ahead e a c := by
  cases e with
  | front => exact lt_trans h h'
  | back => exact lt_trans h' h

theorem Ahead.irrefl : ¬ Ahead e a a := by
  cases e <;> exact lt_irrefl a

end Ahead

end DoubleEnded
