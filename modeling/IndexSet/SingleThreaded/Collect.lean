import IndexSet.SingleThreaded.Map
import IndexSet.SingleThreaded.Iter
import Mathlib.Data.List.Induction

/-!
# Collecting and Taking Apart

`FromIterator`, `From` an array, and the owning iterators `IntoIter`, `IntoIterMap`, `IntoKeys`
and `IntoValues` of `lib.rs`.  An owning iterator pops: it has no position of its own, and the
set inside it shrinks at both ends.

- §1 the code;
- §2 the owning iterators on a set or map that satisfies the invariant;
- §3 what is collected: of equal items a set keeps the first, a map the first key and the last
  value;
- §4 collecting and taking apart, and the other way round.
-/

namespace IndexSet

open KeyedList DoubleEnded

variable {T Q V F K : Type} [LinearOrder K]

/-! ## §1 The code -/

/-- `struct IntoIter`. -/
structure IntoIter (T F : Type) where
  btree : BTreeSet T F

/-- `struct IntoIterMap`. -/
structure IntoIterMap (Q V F : Type) where
  inner : IntoIter (Pair Q V) F

/-- `struct IntoKeys`. -/
structure IntoKeys (Q V F : Type) where
  inner : IntoIterMap Q V F

/-- `struct IntoValues`. -/
structure IntoValues (Q V F : Type) where
  inner : IntoIterMap Q V F

section Code

variable [FenwickTree F]

/-- `IntoIter::next` and `IntoIter::next_back`. -/
def IntoIter.pull (it : IntoIter T F) : End → Option (IntoIter T F × Option T)
  | .front => it.btree.popFirst.map fun r => (⟨r.1⟩, r.2)
  | .back => it.btree.popLast.map fun r => (⟨r.1⟩, r.2)

/-- `IntoIterMap::next` and `IntoIterMap::next_back`. -/
def IntoIterMap.pull (it : IntoIterMap Q V F) (e : End) :
    Option (IntoIterMap Q V F × Option (Q × V)) := do
  let (inner, entry) ← it.inner.pull e
  return (⟨inner⟩, entry.map fun entry => (entry.key, entry.value))

/-- `IntoKeys::next` and `IntoKeys::next_back`. -/
def IntoKeys.pull (it : IntoKeys Q V F) (e : End) : Option (IntoKeys Q V F × Option Q) := do
  let (inner, entry) ← it.inner.pull e
  return (⟨inner⟩, entry.map Prod.fst)

/-- `IntoValues::next` and `IntoValues::next_back`. -/
def IntoValues.pull (it : IntoValues Q V F) (e : End) :
    Option (IntoValues Q V F × Option V) := do
  let (inner, entry) ← it.inner.pull e
  return (⟨inner⟩, entry.map Prod.snd)

end Code

/-- `BTreeSet::into_iter`. -/
def BTreeSet.intoIter (s : BTreeSet T F) : IntoIter T F := ⟨s⟩

/-- `BTreeMap::into_iter`. -/
def BTreeMap.intoIter (m : BTreeMap Q V F) : IntoIterMap Q V F := ⟨m.set.intoIter⟩

/-- `BTreeMap::into_keys`. -/
def BTreeMap.intoKeys (m : BTreeMap Q V F) : IntoKeys Q V F := ⟨m.intoIter⟩

/-- `BTreeMap::into_values`. -/
def BTreeMap.intoValues (m : BTreeMap Q V F) : IntoValues Q V F := ⟨m.intoIter⟩

section Collect

variable [FenwickTree F]

/-- `iter.into_iter().for_each(|item| { btree.insert(item); })`. -/
def BTreeSet.insertEach [Keyed T K] (btree : BTreeSet T F) (iter : List T) :
    Option (BTreeSet T F) :=
  iter.foldlM (fun btree item => (btree.insert item).map Prod.fst) btree

/-- `BTreeSet::from_iter`. -/
def BTreeSet.fromIter [Keyed T K] (iter : List T) : Option (BTreeSet T F) := new.insertEach iter

/-- `BTreeSet::from` an array. -/
def BTreeSet.fromArray [Keyed T K] (value : List T) : Option (BTreeSet T F) :=
  default.insertEach value

/-- `iter.into_iter().for_each(|item| { btree.insert(item.0, item.1); })`. -/
def BTreeMap.insertEach [Keyed Q K] (btree : BTreeMap Q V F) (iter : List (Q × V)) :
    Option (BTreeMap Q V F) :=
  iter.foldlM (fun btree item => (btree.insert item.1 item.2).map Prod.fst) btree

/-- `BTreeMap::from_iter`. -/
def BTreeMap.fromIter [Keyed Q K] (iter : List (Q × V)) : Option (BTreeMap Q V F) :=
  new.insertEach iter

/-- `BTreeMap::from` an array; `BTreeMap::default` is `new`. -/
def BTreeMap.fromArray [Keyed Q K] (value : List (Q × V)) : Option (BTreeMap Q V F) :=
  new.insertEach value

end Collect

/-! ## §2 Taking apart -/

section TakingApart

variable [LawfulFenwickTree F]

/-- **`into_iter`** of a set: under every sequence of calls its elements come out once. -/
theorem BTreeSet.Valid.intoIter_yields [Keyed T K] {s : BTreeSet T F} (hs : s.Valid) :
    Yields IntoIter.pull s.intoIter s.toList := by
  refine yields_of (R := fun it l => it.btree.Valid ∧ it.btree.toList = l) ?_ ⟨hs, rfl⟩
  rintro ⟨btree⟩ l e ⟨hvalid, rfl⟩
  cases e with
  | front =>
    obtain ⟨s', hpop, hs', -, hlist⟩ := popFirst_spec hvalid
    exact ⟨⟨s'⟩, by rw [IntoIter.pull, hpop]; rfl, hs', hlist⟩
  | back =>
    obtain ⟨s', hpop, hs', -, hlist⟩ := popLast_spec hvalid
    exact ⟨⟨s'⟩, by rw [IntoIter.pull, hpop]; rfl, hs', hlist⟩

/-- `into_iter` of a map gives its entries. -/
theorem BTreeMap.Valid.intoIter_yields [Keyed Q K] {m : BTreeMap Q V F} (hm : m.Valid) :
    Yields IntoIterMap.pull m.intoIter (m.toList.map fun p => (p.key, p.value)) :=
  (BTreeSet.Valid.intoIter_yields hm).wrapped IntoIterMap.mk (fun p => (p.key, p.value))
    fun it e => by rw [IntoIterMap.pull]; cases it.pull e <;> rfl

/-- `into_keys` gives the keys. -/
theorem BTreeMap.Valid.intoKeys_yields [Keyed Q K] {m : BTreeMap Q V F} (hm : m.Valid) :
    Yields IntoKeys.pull m.intoKeys (m.toList.map Pair.key) := by
  have h : Yields IntoKeys.pull m.intoKeys
      ((m.toList.map fun p => (p.key, p.value)).map Prod.fst) :=
    hm.intoIter_yields.wrapped IntoKeys.mk Prod.fst
      fun it e => by rw [IntoKeys.pull]; cases it.pull e <;> rfl
  rwa [List.map_map] at h

/-- `into_values` gives the values. -/
theorem BTreeMap.Valid.intoValues_yields [Keyed Q K] {m : BTreeMap Q V F} (hm : m.Valid) :
    Yields IntoValues.pull m.intoValues (m.toList.map Pair.value) := by
  have h : Yields IntoValues.pull m.intoValues
      ((m.toList.map fun p => (p.key, p.value)).map Prod.snd) :=
    hm.intoIter_yields.wrapped IntoValues.mk Prod.snd
      fun it e => by rw [IntoValues.pull]; cases it.pull e <;> rfl
  rwa [List.map_map] at h

end TakingApart

/-! ## §3 What is collected -/

section Collected

/-- An item that is left out does not hide the others. -/
theorem find_add {α κ : Type} [LinearOrder κ] {k : α → κ} (v : α) (l : List α) (q : κ) :
    find k q (add k v l) = (find k q l).or (if k v = q then some v else none) := by
  rw [add]
  by_cases hv : k v = q
  · subst hv
    cases hfind : find k (k v) l with
    | none => simp [find_put]
    | some x => simp [hfind]
  · rw [if_neg hv, Option.or_none]
    split
    · rfl
    · rw [find_put, if_neg hv]

/-- **Of equal items a set keeps the first.** -/
theorem find_foldl_add {α κ : Type} [LinearOrder κ] {k : α → κ} (items : List α) (l : List α)
    (q : κ) : find k q (items.foldl (fun l v => add k v l) l) =
      (find k q l).or (items.find? fun v => k v = q) := by
  induction items generalizing l with
  | nil => simp
  | cons v items ih =>
    rw [List.foldl_cons, ih, find_add, Option.or_assoc]
    by_cases hv : k v = q <;> simp [hv]

theorem foldl_add_ascending {α κ : Type} [LinearOrder κ] {k : α → κ} (items : List α)
    {l : List α} (h : Ascending k l) : Ascending k (items.foldl (fun l v => add k v l) l) := by
  induction items generalizing l with
  | nil => exact h
  | cons v items ih => exact ih (add_ascending h)

/-- An insertion into a map, on its pairs. -/
def writeEntry [Keyed Q K] (l : List (Pair Q V)) (entry : Q × V) : List (Pair Q V) :=
  put key ⟨((find key (key entry.1) l).map Pair.key).getD entry.1, entry.2⟩ l

theorem find_writeEntry [Keyed Q K] (l : List (Pair Q V)) (entry : Q × V) (q : K) :
    find key q (writeEntry l entry) =
      if key entry.1 = q then some ⟨((find key q l).map Pair.key).getD entry.1, entry.2⟩
      else find key q l := by
  have hkey : key (⟨((find key (key entry.1) l).map Pair.key).getD entry.1, entry.2⟩ : Pair Q V) =
      key entry.1 := by
    cases hfind : find key (key entry.1) l with
    | none => rfl
    | some p =>
      have hp : key p = key entry.1 := by simpa using List.find?_some hfind
      exact hp
  rw [writeEntry, find_put, hkey]
  split
  next h => rw [h]
  next => rfl

/-- **Of equal keys a map keeps the first, with the last value.** -/
theorem find_foldl_writeEntry [Keyed Q K] (entries : List (Q × V)) (q : K) :
    find key q (entries.foldl writeEntry []) =
      (entries.filter fun e => key e.1 = q).head?.bind fun first =>
        (entries.filter fun e => key e.1 = q).getLast?.map fun last => ⟨first.1, last.2⟩ := by
  induction entries using List.reverseRecOn with
  | nil => rfl
  | append_singleton entries entry ih =>
    rw [List.foldl_append, List.foldl_cons, List.foldl_nil, find_writeEntry, ih, List.filter_append]
    by_cases hentry : key entry.1 = q
    · cases hfilter : entries.filter fun e => key e.1 = q with
      | nil => simp [hentry]
      | cons first rest =>
        obtain ⟨last, hlast⟩ : ∃ last, (first :: rest).getLast? = some last :=
          ⟨_, List.getLast?_eq_some_getLast (List.cons_ne_nil first rest)⟩
        have hnew : [entry].filter (fun e => decide (key e.1 = q)) = [entry] := by simp [hentry]
        rw [if_pos hentry, hnew, List.getLast?_concat, hlast]
        simp
    · simp [hentry]

theorem foldl_writeEntry_ascending [Keyed Q K] (entries : List (Q × V)) {l : List (Pair Q V)}
    (h : Ascending key l) : Ascending key (entries.foldl writeEntry l) := by
  induction entries generalizing l with
  | nil => exact h
  | cons entry entries ih => exact ih (put_ascending h)

variable [LawfulFenwickTree F]

/-- Inserting one item after another. -/
theorem BTreeSet.insertEach_spec [Keyed T K] {s : BTreeSet T F} (hs : s.Valid)
    (hcap : 2 ≤ s.nodeCapacity) (items : List T) :
    ∃ s', s.insertEach items = some s' ∧ s'.Valid ∧ s'.nodeCapacity = s.nodeCapacity ∧
      s'.toList = items.foldl (fun l v => add key v l) s.toList := by
  induction items generalizing s with
  | nil => exact ⟨s, rfl, hs, rfl, rfl⟩
  | cons v items ih =>
    obtain ⟨s₁, hinsert, hs₁, hcap₁, hlist₁⟩ := insert_spec hs hcap v
    obtain ⟨s', hrest, hs', hcap', hlist'⟩ := ih hs₁ (hcap₁ ▸ hcap)
    refine ⟨s', ?_, hs', hcap'.trans hcap₁, ?_⟩
    · rw [insertEach, List.foldlM_cons, hinsert]
      exact hrest
    · rw [hlist', hlist₁, List.foldl_cons]

theorem BTreeMap.insertEach_spec [Keyed Q K] {m : BTreeMap Q V F} (hm : m.Valid)
    (hcap : 2 ≤ m.set.nodeCapacity) (entries : List (Q × V)) :
    ∃ m', m.insertEach entries = some m' ∧ m'.Valid ∧ m'.set.nodeCapacity = m.set.nodeCapacity ∧
      m'.toList = entries.foldl writeEntry m.toList := by
  induction entries generalizing m with
  | nil => exact ⟨m, rfl, hm, rfl, rfl⟩
  | cons entry entries ih =>
    obtain ⟨m₁, hinsert, hm₁, hcap₁, hlist₁⟩ := insert_spec hm hcap entry.1 entry.2
    obtain ⟨m', hrest, hm', hcap', hlist'⟩ := ih hm₁ (hcap₁ ▸ hcap)
    refine ⟨m', ?_, hm', hcap'.trans hcap₁, ?_⟩
    · rw [insertEach, List.foldlM_cons, hinsert]
      exact hrest
    · rw [hlist', hlist₁, List.foldl_cons, writeEntry]

/-- Collecting the elements of an ascending list gives them back. -/
theorem foldl_add_self {α κ : Type} [LinearOrder κ] {k : α → κ} {l : List α}
    (h : Ascending k l) : l.foldl (fun l v => add k v l) [] = l := by
  refine (foldl_add_ascending l ascending_nil).eq_of_mem_iff h fun x => ?_
  have hfind : find k (k x) (l.foldl (fun l v => add k v l) []) = find k (k x) l := by
    rw [find_foldl_add, find_nil, Option.none_or]
    rfl
  have hmem := find_eq_some (q := k x) (x := x) 
    (foldl_add_ascending l (ascending_nil : Ascending k []))
  rw [hfind, find_eq_some h] at hmem
  simpa using hmem.symm

/-- The entries of an ascending list give its pairs back. -/
theorem foldl_writeEntry_self [Keyed Q K] {l : List (Pair Q V)} (h : Ascending key l) :
    (l.map fun p => (p.key, p.value)).foldl writeEntry [] = l := by
  have hasc := foldl_writeEntry_ascending (l.map fun p => (p.key, p.value))
    (ascending_nil : Ascending (key : Pair Q V → K) [])
  refine hasc.eq_of_mem_iff h fun p => ?_
  have hfind : find key (key p) ((l.map fun p => (p.key, p.value)).foldl writeEntry []) =
      find key (key p) l := by
    have hfilter : (l.map fun p => (p.key, p.value)).filter (fun e => key e.1 = key p) =
        (find key (key p) l).toList.map fun p => (p.key, p.value) := by
      rw [← filter_eq_find h, List.filter_map]
      rfl
    rw [find_foldl_writeEntry, hfilter]
    cases find key (key p) l <;> rfl
  have hmem := find_eq_some (q := key p) (x := p) hasc
  rw [hfind, find_eq_some h] at hmem
  simpa using hmem.symm

end Collected

/-! ## §4 Both ways -/

/-- **Collecting and taking apart.**  Whatever is collected, a set holds the first of equal items
and a map the first of equal keys with their last value, and the owning iterators give what it
holds in order, under every sequence of calls; what is taken out of a set or a map in any state,
collected again, is the same. -/
theorem collect_intoIter {K' : Type} [LinearOrder K'] [Keyed T K] [Keyed Q K']
    [LawfulFenwickTree F] :
    (∀ items : List T, ∃ s : BTreeSet T F, BTreeSet.fromIter items = some s ∧
      BTreeSet.fromArray items = some s ∧ Ascending key s.toList ∧
      (∀ q, find key q s.toList = items.find? fun x => key x = q) ∧
      Yields IntoIter.pull s.intoIter s.toList) ∧
    (∀ entries : List (Q × V), ∃ m : BTreeMap Q V F, BTreeMap.fromIter entries = some m ∧
      BTreeMap.fromArray entries = some m ∧ Ascending key m.toList ∧
      (∀ q, find key q m.toList = (entries.filter fun e => key e.1 = q).head?.bind fun first =>
        (entries.filter fun e => key e.1 = q).getLast?.map fun last => ⟨first.1, last.2⟩) ∧
      Yields IntoIterMap.pull m.intoIter (m.toList.map fun p => (p.key, p.value)) ∧
      Yields IntoKeys.pull m.intoKeys (m.toList.map Pair.key) ∧
      Yields IntoValues.pull m.intoValues (m.toList.map Pair.value)) ∧
    (∀ s : BTreeSet T F, s.Valid → ∃ l s', Yields IntoIter.pull s.intoIter l ∧
      BTreeSet.fromIter l = some s' ∧ (s' : BTreeSet T F).toList = s.toList) ∧
    ∀ m : BTreeMap Q V F, m.Valid → ∃ l m', Yields IntoIterMap.pull m.intoIter l ∧
      BTreeMap.fromIter l = some m' ∧ (m' : BTreeMap Q V F).toList = m.toList := by
  have hcap : 2 ≤ defaultInnerSize := by decide
  refine ⟨fun items => ?_, fun entries => ?_, fun s hs => ?_, fun m hm => ?_⟩
  · obtain ⟨s, hcollect, hs, -, hlist⟩ :=
      BTreeSet.insertEach_spec (s := (BTreeSet.new : BTreeSet T F)) BTreeSet.new_valid hcap items
    refine ⟨s, hcollect, hcollect, hs.layout.ascending, fun q => ?_, hs.intoIter_yields⟩
    rw [hlist, find_foldl_add]
    rfl
  · obtain ⟨m, hcollect, hm, -, hlist⟩ :=
      BTreeMap.insertEach_spec (m := (BTreeMap.new : BTreeMap Q V F)) BTreeSet.new_valid hcap
        entries
    refine ⟨m, hcollect, hcollect, hm.layout.ascending, fun q => ?_, hm.intoIter_yields,
      hm.intoKeys_yields, hm.intoValues_yields⟩
    rw [hlist]
    exact find_foldl_writeEntry entries q
  · obtain ⟨s', hcollect, -, -, hlist⟩ :=
      BTreeSet.insertEach_spec (s := (BTreeSet.new : BTreeSet T F)) BTreeSet.new_valid hcap
        s.toList
    exact ⟨s.toList, s', hs.intoIter_yields, hcollect,
      hlist.trans (foldl_add_self hs.layout.ascending)⟩
  · obtain ⟨m', hcollect, -, -, hlist⟩ :=
      BTreeMap.insertEach_spec (m := (BTreeMap.new : BTreeMap Q V F)) BTreeSet.new_valid hcap
        (m.toList.map fun p => (p.key, p.value))
    exact ⟨_, m', hm.intoIter_yields, hcollect,
      hlist.trans (foldl_writeEntry_self hm.layout.ascending)⟩

theorem collect_intoIter_twoNodes :
    (∃ l s', Yields IntoIter.pull
        (⟨[[1, 3], [5]], ⟨[2, 1]⟩, 2, 3⟩ : BTreeSet ℕ CountList).intoIter l ∧
      BTreeSet.fromIter l = some s' ∧ (s' : BTreeSet ℕ CountList).toList = [1, 3, 5]) ∧
    ∃ l m', Yields IntoIterMap.pull
        (⟨⟨[[⟨1, 7⟩], [⟨2, 7⟩]], ⟨[1, 1]⟩, 2, 2⟩⟩ : BTreeMap ℕ ℕ CountList).intoIter l ∧
      BTreeMap.fromIter l = some m' ∧ (m' : BTreeMap ℕ ℕ CountList).toList = [⟨1, 7⟩, ⟨2, 7⟩] :=
  ⟨(collect_intoIter (T := ℕ) (Q := ℕ) (V := ℕ) (F := CountList)).2.2.1
      ⟨[[1, 3], [5]], ⟨[2, 1]⟩, 2, 3⟩ ⟨⟨by decide, by decide, by decide⟩, rfl, rfl⟩,
    (collect_intoIter (T := ℕ) (Q := ℕ) (V := ℕ) (F := CountList)).2.2.2
      ⟨⟨[[⟨1, 7⟩], [⟨2, 7⟩]], ⟨[1, 1]⟩, 2, 2⟩⟩ ⟨⟨by decide, by decide, by decide⟩, rfl, rfl⟩⟩

end IndexSet
