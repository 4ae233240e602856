import Mathlib.Data.List.Basic
import Mathlib.Order.Lattice

/-!
# Lists Ascending in a Key

A finite map over a linearly ordered key type, represented by a list that is
strictly ascending in the key.  Elements carry their key inside them
(`key : α → κ`), so two different elements may share a key: that is the
difference between "equal in the order" and "the same object".

The module is independent of any particular program:
- `Ascending`, `Below`, `Above`: the order predicates;
- `put`, `add`, `erase`, `find`, `union`: the reference operations;
- **context lemmas**: an operation on `a ++ l ++ b` only touches `l` when
  the key lies between `a` and `b`.

All reference operations are `List.filter`s, so they distribute over
concatenation; the context lemmas say this once and for all.
-/

namespace KeyedList

variable {α κ : Type*} [LinearOrder κ] (key : α → κ)

/-! ## §1 Order predicates -/

/-- The list is strictly ascending in the key. -/
def Ascending (l : List α) : Prop := l.Pairwise fun a b => key a < key b

/-- Every element of the list has a key below `q`. -/
def Below (l : List α) (q : κ) : Prop := ∀ x ∈ l, key x < q

/-- Every element of the list has a key above `q`. -/
def Above (q : κ) (l : List α) : Prop := ∀ x ∈ l, q < key x

instance (l : List α) : Decidable (Ascending key l) :=
  inferInstanceAs (Decidable (l.Pairwise _))

instance (l : List α) (q : κ) : Decidable (Below key l q) :=
  inferInstanceAs (Decidable (∀ x ∈ l, key x < q))

instance (l : List α) (q : κ) : Decidable (Above key q l) :=
  inferInstanceAs (Decidable (∀ x ∈ l, q < key x))

variable {key}

@[simp] theorem ascending_nil : Ascending key [] := List.Pairwise.nil

@[simp] theorem ascending_singleton (x : α) : Ascending key [x] := List.pairwise_singleton _ x

@[simp] theorem below_nil (q : κ) : Below key [] q := by simp [Below]

@[simp] theorem above_nil (q : κ) : Above key q [] := by simp [Above]

@[simp] theorem below_cons (x : α) (l : List α) (q : κ) :
    Below key (x :: l) q ↔ key x < q ∧ Below key l q := by
  simp [Below]

@[simp] theorem above_cons (x : α) (l : List α) (q : κ) :
    Above key q (x :: l) ↔ q < key x ∧ Above key q l := by
  simp [Above]

@[simp] theorem below_append (a b : List α) (q : κ) :
    Below key (a ++ b) q ↔ Below key a q ∧ Below key b q := by
  simp [Below, or_imp, forall_and]

@[simp] theorem above_append (a b : List α) (q : κ) :
    Above key q (a ++ b) ↔ Above key q a ∧ Above key q b := by
  simp [Above, or_imp, forall_and]

theorem Below.trans_lt {l : List α} {p q : κ} (h : Below key l p) (hpq : p ≤ q) :
    Below key l q :=
  fun x hx => lt_of_lt_of_le (h x hx) hpq

theorem Above.trans_lt {l : List α} {p q : κ} (h : Above key q l) (hpq : p ≤ q) :
    Above key p l :=
  fun x hx => lt_of_le_of_lt hpq (h x hx)

theorem ascending_cons {x : α} {l : List α} :
    Ascending key (x :: l) ↔ Above key (key x) l ∧ Ascending key l :=
  List.pairwise_cons

theorem ascending_append {a b : List α} :
    Ascending key (a ++ b) ↔
      Ascending key a ∧ Ascending key b ∧ ∀ x ∈ a, Above key (key x) b :=
  List.pairwise_append

/-- An ascending list is cut by any of its elements into what is below and what is above. -/
theorem ascending_append_cons {a b : List α} {x : α} :
    Ascending key (a ++ x :: b) ↔
      Ascending key a ∧ Ascending key b ∧ Below key a (key x) ∧ Above key (key x) b := by
  rw [ascending_append, ascending_cons]
  constructor
  · rintro ⟨ha, ⟨hxb, hb⟩, hab⟩
    exact ⟨ha, hb, fun y hy => (above_cons _ _ _ |>.mp (hab y hy)).1, hxb⟩
  · rintro ⟨ha, hb, hax, hxb⟩
    exact ⟨ha, ⟨hxb, hb⟩, fun y hy =>
      (above_cons _ _ _).mpr ⟨hax y hy, hxb.trans_lt (hax y hy).le⟩⟩

theorem Ascending.sublist {l l' : List α} (h : Ascending key l) (hs : l'.Sublist l) :
    Ascending key l' :=
  List.Pairwise.sublist hs h

/-- In an ascending list an element is determined by its key. -/
theorem Ascending.eq_of_key_eq {l : List α} (h : Ascending key l) {x y : α}
    (hx : x ∈ l) (hy : y ∈ l) (hxy : key x = key y) : x = y := by
  obtain ⟨a, b, rfl⟩ := List.append_of_mem hx
  have ⟨_, _, hax, hxb⟩ := ascending_append_cons.mp h
  rcases List.mem_append.mp hy with hya | hyb
  · exact absurd hxy (hax y hya).ne'
  · rcases List.mem_cons.mp hyb with rfl | hyb
    · rfl
    · exact absurd hxy (hxb y hyb).ne

theorem Ascending.nodup {l : List α} (h : Ascending key l) : l.Nodup :=
  List.Pairwise.imp (fun hlt heq => absurd (congrArg key heq) hlt.ne) h

/-- Ascending lists with the same elements are equal. -/
theorem Ascending.eq_of_mem_iff {l l' : List α} (h : Ascending key l) (h' : Ascending key l')
    (hmem : ∀ x, x ∈ l ↔ x ∈ l') : l = l' := by
  have hperm : l.Perm l' := (List.perm_ext_iff_of_nodup h.nodup h'.nodup).mpr hmem
  exact hperm.eq_of_pairwise (fun x y _ _ hxy hyx => absurd hxy (lt_asymm hyx)) h h'

/-- An ascending list is cut by any key: either at the element with that key, or in a gap. -/
theorem Ascending.exists_cut {l : List α} (h : Ascending key l) (q : κ) :
    (∃ a x b, l = a ++ x :: b ∧ key x = q ∧ Below key a q ∧ Above key q b) ∨
      (∃ a b, l = a ++ b ∧ Below key a q ∧ Above key q b) := by
  induction l with
  | nil => exact Or.inr ⟨[], [], rfl, below_nil q, above_nil q⟩
  | cons y l ih =>
    have ⟨hyl, hl⟩ := ascending_cons.mp h
    rcases lt_trichotomy (key y) q with hlt | heq | hgt
    · -- `y` belongs below the cut of the tail
      rcases ih hl with ⟨a, x, b, rfl, hx, ha, hb⟩ | ⟨a, b, rfl, ha, hb⟩
      · exact Or.inl ⟨y :: a, x, b, rfl, hx, (below_cons _ _ _).mpr ⟨hlt, ha⟩, hb⟩
      · exact Or.inr ⟨y :: a, b, rfl, (below_cons _ _ _).mpr ⟨hlt, ha⟩, hb⟩
    · exact Or.inl ⟨[], y, l, rfl, heq, below_nil q, heq ▸ hyl⟩
    · exact Or.inr ⟨[], y :: l, rfl, below_nil q,
        (above_cons _ _ _).mpr ⟨hgt, hyl.trans_lt hgt.le⟩⟩

/-! ## §2 Reference operations -/

variable (key)

/-- Store `v`, replacing an element with the same key. -/
def put (v : α) (l : List α) : List α :=
  l.filter (fun x => key x < key v) ++ v :: l.filter (fun x => key v < key x)

/-- Drop the element with key `q`. -/
def erase (q : κ) (l : List α) : List α := l.filter fun x => key x ≠ q

/-- The element with key `q`. -/
def find (q : κ) (l : List α) : Option α := l.find? fun x => key x = q

/-- Store `v` unless an element with the same key is there already. -/
def add (v : α) (l : List α) : List α := if (find key (key v) l).isSome then l else put key v l

/-- All elements of both lists, those of `b` winning over equal ones of `a`. -/
def union (a b : List α) : List α := b.foldl (fun acc v => put key v acc) a

variable {key}

@[simp] theorem put_nil (v : α) : put key v [] = [v] := rfl

@[simp] theorem erase_nil (q : κ) : erase key q [] = [] := rfl

@[simp] theorem find_nil (q : κ) : find key q [] = none := rfl

@[simp] theorem union_nil (a : List α) : union key a [] = a := rfl

@[simp] theorem union_cons (a b : List α) (v : α) :
    union key a (v :: b) = union key (put key v a) b := rfl

theorem filter_lt_eq_self {l : List α} {q : κ} (h : Below key l q) :
    l.filter (fun x => key x < q) = l := by
  simpa [List.filter_eq_self, Below] using h

theorem filter_lt_eq_nil {l : List α} {q : κ} (h : Above key q l) :
    l.filter (fun x => key x < q) = [] := by
  simpa [List.filter_eq_nil_iff] using fun x hx => (h x hx).le

theorem filter_gt_eq_self {l : List α} {q : κ} (h : Above key q l) :
    l.filter (fun x => q < key x) = l := by
  simpa [List.filter_eq_self, Above] using h

theorem filter_gt_eq_nil {l : List α} {q : κ} (h : Below key l q) :
    l.filter (fun x => q < key x) = [] := by
  simpa [List.filter_eq_nil_iff] using fun x hx => (h x hx).le

theorem erase_eq_self {l : List α} {q : κ} (h : ∀ x ∈ l, key x ≠ q) : erase key q l = l := by
  simpa [erase, List.filter_eq_self] using h

theorem find_eq_none {l : List α} {q : κ} : find key q l = none ↔ ∀ x ∈ l, key x ≠ q := by
  simp [find, List.find?_eq_none]

theorem Below.ne {l : List α} {q : κ} (h : Below key l q) : ∀ x ∈ l, key x ≠ q :=
  fun x hx => (h x hx).ne

theorem Above.ne {l : List α} {q : κ} (h : Above key q l) : ∀ x ∈ l, key x ≠ q :=
  fun x hx => (h x hx).ne'

theorem mem_put {v x : α} {l : List α} :
    x ∈ put key v l ↔ x = v ∨ (x ∈ l ∧ key x ≠ key v) := by
  simp only [put, List.mem_append, List.mem_filter, List.mem_cons, decide_eq_true_eq]
  constructor
  · rintro (⟨hx, hlt⟩ | rfl | ⟨hx, hgt⟩)
    · exact Or.inr ⟨hx, hlt.ne⟩
    · exact Or.inl rfl
    · exact Or.inr ⟨hx, hgt.ne'⟩
  · rintro (rfl | ⟨hx, hne⟩)
    · exact Or.inr (Or.inl rfl)
    · rcases lt_or_gt_of_ne hne with hlt | hgt
      · exact Or.inl ⟨hx, hlt⟩
      · exact Or.inr (Or.inr ⟨hx, hgt⟩)

theorem mem_erase {q : κ} {x : α} {l : List α} : x ∈ erase key q l ↔ x ∈ l ∧ key x ≠ q := by
  simp [erase]

/-- The keys of `put key v l` are those of `l` together with the key of `v`. -/
theorem mem_keys_put {v : α} {l : List α} {q : κ} :
    (∃ x ∈ put key v l, key x = q) ↔ key v = q ∨ ∃ x ∈ l, key x = q := by
  constructor
  · rintro ⟨x, hx, rfl⟩
    rcases mem_put.mp hx with rfl | ⟨hx, -⟩
    · exact Or.inl rfl
    · exact Or.inr ⟨x, hx, rfl⟩
  · rintro (rfl | ⟨x, hx, rfl⟩)
    · exact ⟨v, mem_put.mpr (Or.inl rfl), rfl⟩
    · by_cases hxv : key x = key v
      · exact ⟨v, mem_put.mpr (Or.inl rfl), hxv.symm⟩
      · exact ⟨x, mem_put.mpr (Or.inr ⟨hx, hxv⟩), rfl⟩

theorem put_ascending {v : α} {l : List α} (h : Ascending key l) : Ascending key (put key v l) :=
  ascending_append_cons.mpr
    ⟨h.sublist List.filter_sublist, h.sublist List.filter_sublist,
      fun x hx => by simpa using (List.mem_filter.mp hx).2,
      fun x hx => by simpa using (List.mem_filter.mp hx).2⟩

theorem erase_ascending {q : κ} {l : List α} (h : Ascending key l) :
    Ascending key (erase key q l) :=
  h.sublist List.filter_sublist

theorem find_eq_some_of_mem {q : κ} {x : α} {l : List α} (h : Ascending key l) (hx : x ∈ l)
    (hq : key x = q) : find key q l = some x := by
  cases hf : find key q l with
  | none => exact absurd hq (find_eq_none.mp hf x hx)
  | some y =>
    have hy : key y = q := by simpa using List.find?_some hf
    rw [h.eq_of_key_eq hx (List.mem_of_find?_eq_some hf) (hq.trans hy.symm)]

theorem find_eq_some {q : κ} {x : α} {l : List α} (h : Ascending key l) :
    find key q l = some x ↔ x ∈ l ∧ key x = q :=
  ⟨fun hf => ⟨List.mem_of_find?_eq_some hf, by simpa using List.find?_some hf⟩,
    fun ⟨hx, hq⟩ => find_eq_some_of_mem h hx hq⟩

theorem find_isSome {q : κ} {l : List α} : (find key q l).isSome ↔ ∃ x ∈ l, key x = q := by
  simp [find, List.find?_isSome]

theorem mem_add {v x : α} {l : List α} (hx : x ∈ add key v l) : x = v ∨ x ∈ l := by
  unfold add at hx
  split at hx
  · exact Or.inr hx
  · exact (mem_put.mp hx).imp_right And.left

/-- The keys of `add key v l` are those of `l` together with the key of `v`. -/
theorem mem_keys_add {v : α} {l : List α} {q : κ} :
    (∃ x ∈ add key v l, key x = q) ↔ key v = q ∨ ∃ x ∈ l, key x = q := by
  unfold add
  split
  next hfind =>
    refine ⟨Or.inr, ?_⟩
    rintro (rfl | h)
    · exact find_isSome.mp hfind
    · exact h
  next => exact mem_keys_put

/-- An element with another key does not matter to a lookup. -/
theorem find_insert_ne {a b : List α} {v : α} {q : κ} (hv : key v ≠ q) :
    find key q (a ++ v :: b) = find key q (a ++ b) := by
  simp [find, List.find?_append, hv]

theorem find_put_isSome {v : α} {l : List α} {q : κ} :
    (find key q (put key v l)).isSome ↔ key v = q ∨ (find key q l).isSome := by
  rw [find_isSome, find_isSome, mem_keys_put]

/-- Storing changes the lookup of its own key only. -/
theorem find_put {v : α} {l : List α} {q : κ} :
    find key q (put key v l) = if key v = q then some v else find key q l := by
  have hfilter : ∀ p : α → Bool, (∀ x, key x = q → p x = true) →
      find key q (l.filter p) = find key q l := by
    intro p hp
    rw [find, List.find?_filter]
    refine congrArg (List.find? · l) (funext fun x => ?_)
    by_cases hx : key x = q <;> simp [hx, hp x]
  have hnone : ∀ p : α → Bool, (∀ x, key x = q → p x = false) → find key q (l.filter p) = none :=
    fun p hp => find_eq_none.mpr fun x hx hq => by simp [hp x hq] at hx
  rw [put, find, List.find?_append, List.find?_cons]
  rcases lt_trichotomy (key v) q with hlt | heq | hgt
  · have habove := hfilter (fun x => decide (key v < key x)) fun x hx => by simp [hx, hlt]
    rw [← find, hnone _ fun x hx => by simp [hx, hlt.le], if_neg hlt.ne]
    simpa [hlt.ne, find] using habove
  · rw [← find, hnone _ fun x hx => by simp [hx, heq.le], if_pos heq]
    simp [heq]
  · rw [← find, hfilter _ fun x hx => by simp [hx, hgt], if_neg hgt.ne', ← find,
      hnone _ fun x hx => by simp [hx, hgt.le]]
    cases find key q l <;> simp [hgt.ne']

/-- So does erasing. -/
theorem find_erase {p q : κ} {l : List α} :
    find key q (erase key p l) = if q = p then none else find key q l := by
  split
  · subst p
    exact find_eq_none.mpr fun x hx => (mem_erase.mp hx).2
  next hne =>
    rw [find, erase, List.find?_filter]
    refine congrArg (List.find? · l) (funext fun x => ?_)
    by_cases hx : key x = q <;> simp [hx, hne]

/-- An ascending list is the finite map `q ↦ find key q l`; storing updates it at one point. -/
theorem find_put_update {v : α} {l : List α} :
    (fun q => find key q (put key v l)) =
      Function.update (fun q => find key q l) (key v) (some v) := by
  funext q
  rw [find_put, Function.update_apply]
  exact if_congr eq_comm rfl rfl

theorem find_erase_update {p : κ} {l : List α} :
    (fun q => find key q (erase key p l)) = Function.update (fun q => find key q l) p none := by
  funext q
  rw [find_erase, Function.update_apply]

theorem find_erase_isSome {p q : κ} {l : List α} :
    (find key q (erase key p l)).isSome ↔ q ≠ p ∧ (find key q l).isSome := by
  simp only [find_isSome, mem_erase]
  constructor
  · rintro ⟨x, ⟨hx, hne⟩, rfl⟩
    exact ⟨hne, x, hx, rfl⟩
  · rintro ⟨hne, x, hx, rfl⟩
    exact ⟨x, ⟨hx, hne⟩, rfl⟩

/-! ## §3 Context lemmas -/

theorem put_context {a l b : List α} {v : α} (ha : Below key a (key v))
    (hb : Above key (key v) b) :
    put key v (a ++ l ++ b) = a ++ put key v l ++ b := by
  simp only [put, List.filter_append, filter_lt_eq_self ha, filter_lt_eq_nil hb,
    filter_gt_eq_nil ha, filter_gt_eq_self hb, List.append_nil, List.nil_append,
    List.append_assoc, List.cons_append]

theorem erase_context {a l b : List α} {q : κ} (ha : ∀ x ∈ a, key x ≠ q)
    (hb : ∀ x ∈ b, key x ≠ q) :
    erase key q (a ++ l ++ b) = a ++ erase key q l ++ b := by
  simp only [erase, List.filter_append]
  rw [← erase, ← erase, ← erase, erase_eq_self ha, erase_eq_self hb]

theorem find_context {a l b : List α} {q : κ} (ha : ∀ x ∈ a, key x ≠ q)
    (hb : ∀ x ∈ b, key x ≠ q) : find key q (a ++ l ++ b) = find key q l := by
  have h₁ : find key q a = none := find_eq_none.mpr ha
  have h₂ : find key q b = none := find_eq_none.mpr hb
  simp only [find] at h₁ h₂ ⊢
  rw [List.find?_append, List.find?_append, h₁, h₂]
  simp

/-- Storing into a gap. -/
theorem put_gap {a b : List α} {v : α} (ha : Below key a (key v)) (hb : Above key (key v) b) :
    put key v (a ++ b) = a ++ v :: b := by
  have h := put_context (l := []) ha hb
  simpa using h

/-- Storing over the element with the same key. -/
theorem put_hit {a b : List α} {x v : α} (hx : key x = key v) (ha : Below key a (key v))
    (hb : Above key (key v) b) : put key v (a ++ x :: b) = a ++ v :: b := by
  have h := put_context (l := [x]) ha hb
  simpa [put, hx] using h

theorem erase_hit {a b : List α} {x : α} {q : κ} (hx : key x = q) (ha : Below key a q)
    (hb : Above key q b) : erase key q (a ++ x :: b) = a ++ b := by
  have h := erase_context (l := [x]) ha.ne hb.ne
  simpa [erase, hx] using h

theorem find_hit {a b : List α} {x : α} {q : κ} (hx : key x = q) (ha : Below key a q) :
    find key q (a ++ x :: b) = some x := by
  have h₁ : find key q a = none := find_eq_none.mpr ha.ne
  simp only [find] at h₁ ⊢
  rw [List.find?_append, h₁]
  simp [hx]

/-- Storing over an element keeps the list of whatever the two have in common. -/
theorem map_put_of_find {β : Type*} {f : α → β} {l : List α} {x v : α} (h : Ascending key l)
    (hx : find key (key v) l = some x) (hf : f v = f x) : (put key v l).map f = l.map f := by
  have ⟨hmem, hkey⟩ := (find_eq_some h).mp hx
  obtain ⟨a, b, rfl⟩ := List.append_of_mem hmem
  have ⟨_, _, ha, hb⟩ := ascending_append_cons.mp h
  rw [put_hit hkey (hkey ▸ ha) (hkey ▸ hb), List.map_append, List.map_append, List.map_cons,
    List.map_cons, hf]

section Map

variable {β : Type*} {key' : β → κ} {f : α → β}

/-- A map that leaves the keys as they are commutes with every operation. -/
theorem find_map_of_key (hf : ∀ x, key' (f x) = key x) (q : κ) (l : List α) :
    find key' q (l.map f) = (find key q l).map f := by
  rw [find, find, List.find?_map]
  exact congrArg (fun p => (List.find? p l).map f) (funext fun x => by simp [hf])

omit [LinearOrder κ] in
theorem filter_map_of_key (hf : ∀ x, key' (f x) = key x) (p : κ → Bool) (l : List α) :
    (l.map f).filter (fun x => p (key' x)) = (l.filter fun x => p (key x)).map f := by
  rw [List.filter_map]
  exact congrArg (fun r => (List.filter r l).map f) (funext fun x => by simp [hf])

theorem put_map_of_key (hf : ∀ x, key' (f x) = key x) (v : α) (l : List α) :
    put key' (f v) (l.map f) = (put key v l).map f := by
  have hlow := filter_map_of_key hf (fun k => decide (k < key v)) l
  have hhigh := filter_map_of_key hf (fun k => decide (key v < k)) l
  rw [put, put, hf, hlow, hhigh, List.map_append, List.map_cons]

theorem erase_map_of_key (hf : ∀ x, key' (f x) = key x) (q : κ) (l : List α) :
    erase key' q (l.map f) = (erase key q l).map f :=
  filter_map_of_key hf (fun k => decide (k ≠ q)) l

end Map

theorem find_gap {a b : List α} {q : κ} (ha : Below key a q) (hb : Above key q b) :
    find key q (a ++ b) = none :=
  find_eq_none.mpr fun x hx => (List.mem_append.mp hx).elim (ha.ne x) (hb.ne x)

/-- The elements with a key are the one that is found, or none. -/
theorem filter_eq_find {l : List α} {q : κ} (h : Ascending key l) :
    (l.filter fun x => key x = q) = (find key q l).toList := by
  have hnil : ∀ {a : List α}, (∀ x ∈ a, key x ≠ q) → (a.filter fun x => key x = q) = [] :=
    fun ha => List.filter_eq_nil_iff.mpr fun x hx => by simpa using ha x hx
  rcases h.exists_cut q with ⟨a, x, b, rfl, hx, ha, hb⟩ | ⟨a, b, rfl, ha, hb⟩
  · rw [find_hit hx ha, List.filter_append, List.filter_cons_of_pos (by simpa using hx),
      hnil ha.ne, hnil hb.ne]
    rfl
  · rw [find_gap ha hb, List.filter_append, hnil ha.ne, hnil hb.ne]
    rfl

theorem add_context {a l b : List α} {v : α} (ha : Below key a (key v))
    (hb : Above key (key v) b) :
    add key v (a ++ l ++ b) = a ++ add key v l ++ b := by
  unfold add
  rw [find_context ha.ne hb.ne, put_context ha hb]
  split <;> rfl

theorem add_ascending {v : α} {l : List α} (h : Ascending key l) : Ascending key (add key v l) := by
  unfold add
  split
  · exact h
  · exact put_ascending h

theorem add_ne_nil (v : α) (l : List α) : add key v l ≠ [] := by
  unfold add
  split
  next h =>
    rintro rfl
    simp at h
  next => simp [put]

/-- Dropping the old element first makes no difference to `put`. -/
theorem add_erase (v : α) (l : List α) : add key v (erase key (key v) l) = put key v l := by
  have hfind : find key (key v) (erase key (key v) l) = none :=
    find_eq_none.mpr fun x hx => (mem_erase.mp hx).2
  unfold add
  rw [hfind, if_neg (by simp)]
  unfold put erase
  rw [List.filter_filter, List.filter_filter]
  congr 1
  · refine List.filter_congr fun x _ => ?_
    simpa using fun h : key x < key v => h.ne
  · congr 1
    refine List.filter_congr fun x _ => ?_
    simpa using fun h : key v < key x => h.ne'

/-- The first element from a cut on decides whether the key of the cut is there. -/
theorem find_cut {a b : List α} {q : κ} (ha : Below key a q) (hb : Ascending key b)
    (hge : ∀ x ∈ b, q ≤ key x) :
    find key q (a ++ b) = b.head?.filter fun x => key x = q := by
  cases b with
  | nil => simpa using find_eq_none.mpr ha.ne
  | cons x b =>
    have hx := hge x (List.mem_cons_self ..)
    have hxb := (ascending_cons.mp hb).1
    by_cases heq : key x = q
    · rw [find_hit heq ha, List.head?_cons, Option.filter_some, heq]
      simp
    · have hlt : q < key x := lt_of_le_of_ne hx (Ne.symm heq)
      rw [find_gap ha ((above_cons _ _ _).mpr ⟨hlt, hxb.trans_lt hx⟩), List.head?_cons,
        Option.filter_some, if_neg (by simpa using heq)]

theorem length_put_gap {l : List α} {v : α} (h : Ascending key l) (hv : find key (key v) l = none) :
    (put key v l).length = l.length + 1 := by
  rcases h.exists_cut (key v) with ⟨a, x, b, rfl, hx, ha, -⟩ | ⟨a, b, rfl, ha, hb⟩
  · rw [find_hit hx ha] at hv
    cases hv
  · rw [put_gap ha hb]
    simp
    omega

/-- Adding a value makes a list longer by one at most. -/
theorem length_add_le {l : List α} (h : Ascending key l) (v : α) :
    (add key v l).length ≤ l.length + 1 := by
  unfold add
  cases hfind : find key (key v) l with
  | some x => simp
  | none => simp [length_put_gap h hfind]

/-! ## §4 Cuts

What is below a key and what is not, when the list is cut there. -/

/-- Every ascending list is cut at a key. -/
theorem Ascending.exists_cut_le {l : List α} (h : Ascending key l) (q : κ) :
    ∃ a b, l = a ++ b ∧ Below key a q ∧ ∀ x ∈ b, q ≤ key x := by
  rcases h.exists_cut q with ⟨a, x, b, hl, hx, ha, hb⟩ | ⟨a, b, hl, ha, hb⟩
  · refine ⟨a, x :: b, hl, ha, ?_⟩
    exact List.forall_mem_cons.mpr ⟨hx.ge, fun y hy => (hb y hy).le⟩
  · exact ⟨a, b, hl, ha, fun y hy => (hb y hy).le⟩

/-- The two sides of a cut, as filters. -/
theorem filter_cut {l a b : List α} {q : κ} (hl : l = a ++ b) (ha : Below key a q)
    (hb : ∀ x ∈ b, q ≤ key x) :
    l.filter (fun x => key x < q) = a ∧ l.filter (fun x => q ≤ key x) = b := by
  subst hl
  have h₁ : a.filter (fun x => key x < q) = a := filter_lt_eq_self ha
  have h₂ : b.filter (fun x => key x < q) = [] := by
    simpa [List.filter_eq_nil_iff] using hb
  have h₃ : a.filter (fun x => q ≤ key x) = [] := by
    simpa [List.filter_eq_nil_iff, Below] using ha
  have h₄ : b.filter (fun x => q ≤ key x) = b := by
    simpa [List.filter_eq_self] using hb
  simp only [List.filter_append, h₁, h₂, h₃, h₄, List.append_nil, List.nil_append, and_self]

/-- Behind a cut the first element not less than the value is the head. -/
theorem find_cut_head {l a b : List α} {q : κ} (hl : l = a ++ b) (ha : Below key a q)
    (hb : ∀ x ∈ b, q ≤ key x) : l.find? (fun x => q ≤ key x) = b.head? := by
  have hskip : a.find? (fun x => q ≤ key x) = none := by
    rw [List.find?_eq_none]
    intro x hx
    simpa using ha x hx
  rw [hl, List.find?_append, hskip, Option.none_or]
  cases b with
  | nil => rfl
  | cons x b => exact List.find?_cons_of_pos (by simpa using hb x (List.mem_cons_self ..))

/-- On an ascending list the first element not less than the value is the least such one. -/
theorem find_least {l : List α} (h : Ascending key l) {q : κ} {x : α}
    (hx : l.find? (fun x => q ≤ key x) = some x) :
    x ∈ l ∧ q ≤ key x ∧ ∀ y ∈ l, q ≤ key y → key x ≤ key y := by
  obtain ⟨hqx, a, b, rfl, ha⟩ := List.find?_eq_some_iff_append.mp hx
  obtain ⟨_, _, _, habove⟩ := ascending_append_cons.mp h
  refine ⟨by simp, by simpa using hqx, fun y hy hqy => ?_⟩
  rcases List.mem_append.mp hy with hya | hyb
  · have hbelow : key y < q := by simpa using ha y hya
    exact absurd hqy (not_le.mpr hbelow)
  · rcases List.mem_cons.mp hyb with rfl | hyb
    · exact le_rfl
    · exact (habove y hyb).le

/-- As many elements lie below an element of an ascending list as stand before it. -/
theorem length_filter_lt {l : List α} (h : Ascending key l) {i : ℕ} {x : α}
    (hx : l[i]? = some x) : (l.filter fun y => key y < key x).length = i := by
  obtain ⟨hi, rfl⟩ := List.getElem?_eq_some_iff.mp hx
  have hcut : l = l.take i ++ l[i] :: l.drop (i + 1) := by
    rw [List.getElem_cons_drop, List.take_append_drop]
  have hasc := h
  rw [hcut] at hasc
  obtain ⟨_, _, hbelow, habove⟩ := ascending_append_cons.mp hasc
  have hge : ∀ y ∈ l[i] :: l.drop (i + 1), key l[i] ≤ key y :=
    List.forall_mem_cons.mpr ⟨le_rfl, fun y hy => (habove y hy).le⟩
  rw [(filter_cut hcut hbelow hge).1, List.length_take_of_le hi.le]

/-- The entry at the position of a value is the first one not less than it. -/
theorem getElem?_length_filter {l : List α} (h : Ascending key l) (q : κ) :
    l[(l.filter fun x => key x < q).length]? = l.find? fun x => q ≤ key x := by
  obtain ⟨a, b, hl, ha, hge⟩ := h.exists_cut_le q
  rw [(filter_cut hl ha hge).1, find_cut_head hl ha hge, hl, List.getElem?_append_right le_rfl,
    Nat.sub_self]
  exact List.head?_eq_getElem?.symm

/-! ## §5 Positions

Positional updates of a list written as `pre ++ x :: post`. -/

theorem getElem?_split (pre post : List α) (x : α) : (pre ++ x :: post)[pre.length]? = some x := by
  simp

theorem set_split (pre post : List α) (x y : α) :
    (pre ++ x :: post).set pre.length y = pre ++ y :: post := by
  simp

theorem eraseIdx_split (pre post : List α) (x : α) :
    (pre ++ x :: post).eraseIdx pre.length = pre ++ post := by
  simp [List.eraseIdx_append]

theorem modify_split (pre post : List α) (x : α) (f : α → α) :
    (pre ++ x :: post).modify pre.length f = pre ++ f x :: post := by
  induction pre with
  | nil => rfl
  | cons y pre ih => simpa using ih

theorem insertIdx_split (pre post : List α) (x : α) :
    (pre ++ post).insertIdx pre.length x = pre ++ x :: post := by
  induction pre with
  | nil => simp
  | cons y pre ih => simp [ih]

/-! ## §6 The largest key -/

variable (key) in
/-- The key of the last element: the largest one of an ascending list. -/
def maxKey (l : List α) : Option κ := l.getLast?.map key

omit [LinearOrder κ] in
@[simp] theorem maxKey_nil : maxKey key ([] : List α) = none := rfl

omit [LinearOrder κ] in
@[simp] theorem maxKey_concat (l : List α) (x : α) : maxKey key (l ++ [x]) = some (key x) := by
  simp [maxKey]

omit [LinearOrder κ] in
theorem maxKey_eq_none {l : List α} : maxKey key l = none ↔ l = [] := by
  simp [maxKey]

omit [LinearOrder κ] in
theorem maxKey_append_of_ne_nil (a : List α) {b : List α} (hb : b ≠ []) :
    maxKey key (a ++ b) = maxKey key b := by
  obtain ⟨b, x, rfl⟩ := (List.eq_nil_or_concat' b).resolve_left hb
  rw [← List.append_assoc, maxKey_concat, maxKey_concat]

/-- A largest key bounds the list, and some element has it. -/
theorem Ascending.le_maxKey {l : List α} (h : Ascending key l) {m : κ}
    (hm : maxKey key l = some m) : (∀ x ∈ l, key x ≤ m) ∧ ∃ x ∈ l, key x = m := by
  rcases List.eq_nil_or_concat' l with rfl | ⟨l, y, rfl⟩
  · cases hm
  · rw [maxKey_concat] at hm
    cases hm
    refine ⟨fun x hx => ?_, y, by simp, rfl⟩
    rcases List.mem_append.mp hx with hxl | hxy
    · exact ((ascending_append_cons.mp h).2.2.1 x hxl).le
    · exact (List.mem_singleton.mp hxy ▸ le_refl _)

omit [LinearOrder κ] in
/-- The maximum key is the same when a value goes in below it. -/
theorem maxKey_put_inside {l a b : List α} {v : α} (hl : l = a ++ b) (hb : b ≠ []) :
    maxKey key (a ++ v :: b) = maxKey key l := by
  rw [hl, maxKey_append_of_ne_nil a (b := v :: b) (by simp), maxKey_append_of_ne_nil a hb,
    show v :: b = [v] ++ b from rfl, maxKey_append_of_ne_nil [v] hb]

omit [LinearOrder κ] in
/-- The maximum key is the same when a value takes the place of an equal one. -/
theorem maxKey_replace {l a b : List α} {x v : α} (hl : l = a ++ x :: b) (hx : key x = key v) :
    maxKey key (a ++ v :: b) = maxKey key l := by
  rcases List.eq_nil_or_concat' b with rfl | ⟨b, y, rfl⟩
  · rw [hl, maxKey_concat, maxKey_concat, hx]
  · rw [hl, ← List.cons_append, ← List.append_assoc, maxKey_concat, ← List.cons_append,
      ← List.append_assoc, maxKey_concat]

/-- The largest key after a value is stored. -/
theorem maxKey_put {l : List α} {v : α} (h : Ascending key l) :
    maxKey key (put key v l) = some (match maxKey key l with
      | some m => max m (key v)
      | none => key v) := by
  cases hm : maxKey key l with
  | none =>
    rw [maxKey_eq_none.mp hm]
    rfl
  | some m =>
    have ⟨hle, x, hx, hxm⟩ := h.le_maxKey hm
    have hv : v ∈ put key v l := mem_put.mpr (Or.inl rfl)
    obtain ⟨y, hy⟩ : ∃ y, maxKey key (put key v l) = some y :=
      Option.ne_none_iff_exists'.mp fun hnone => List.ne_nil_of_mem hv (maxKey_eq_none.mp hnone)
    have ⟨hle', z, hz, hzy⟩ := (put_ascending h).le_maxKey hy
    rw [hy]
    refine congrArg some (le_antisymm ?_ (max_le ?_ ?_))
    · rw [← hzy]
      rcases mem_put.mp hz with rfl | ⟨hzl, -⟩
      · exact le_max_right ..
      · exact (hle z hzl).trans (le_max_left ..)
    · rw [← hxm]
      by_cases hxv : key x = key v
      · exact hxv ▸ hle' v hv
      · exact hle' x (mem_put.mpr (Or.inr ⟨hx, hxv⟩))
    · exact hle' v hv

end KeyedList
