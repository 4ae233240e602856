import IndexSet.SingleThreaded.Bulk

/-!
# The Single-Threaded `BTreeMap`

`lib.rs`: a `BTreeSet` of pairs.  The map writes values in place through mutable
references; everything else goes through `find_cmp`, `insert_at`, `delete_at`,
`split_off_cmp` and the positional functions of the set.

A method that returns `&mut V` is modelled with the write its caller makes through it:
a function on the value.
-/

namespace IndexSet

open KeyedList

variable {Q V F K : Type} [LinearOrder K] [Keyed Q K]

/-! ## §1 The map and its operations -/

/-- The closure `cmp` of the map's methods: `|item| item.key.borrow() < key`. -/
def Pair.cmp (k : K) (item : Pair Q V) : Bool := Keyed.key item.key < k

/-- The closure `cmp2` of the map's methods: `|item| item.key.borrow() == key`. -/
def Pair.cmp2 (k : K) (item : Pair Q V) : Bool := Keyed.key item.key = k

theorem Pair.cmp_eq (k : K) :
    (Pair.cmp k : Pair Q V → Bool) = fun x => decide (Keyed.key x < k) := rfl

theorem Pair.cmp2_eq (k : K) :
    (Pair.cmp2 k : Pair Q V → Bool) = fun x => decide (Keyed.key x = k) := rfl

/-- A write through a mutable reference into `inner[node_idx][position_within_node]`. -/
def BTreeSet.modifyAt {T : Type} (s : BTreeSet T F) (nodeIdx positionWithinNode : ℕ)
    (write : T → T) : BTreeSet T F :=
  { s with inner := s.inner.modify nodeIdx fun node => node.modify positionWithinNode write }

/-- A write to the value of a pair. -/
def Pair.modifyValue (write : V → V) (p : Pair Q V) : Pair Q V := { p with value := write p.value }

@[simp] theorem Pair.key_modifyValue (write : V → V) (p : Pair Q V) :
    key (p.modifyValue write) = key p := rfl

/-- `struct BTreeMap`. -/
structure BTreeMap (Q V F : Type) where
  set : BTreeSet (Pair Q V) F

/-- `struct OccupiedEntry`. -/
structure OccupiedEntry (Q V F : Type) where
  map : BTreeMap Q V F
  idx : ℕ

/-- `struct VacantEntry`. -/
structure VacantEntry (Q V F : Type) where
  map : BTreeMap Q V F
  key : Q

/-- `enum Entry`. -/
inductive Entry (Q V F : Type) where
  | vacant (entry : VacantEntry Q V F)
  | occupied (entry : OccupiedEntry Q V F)

section Operations

variable [FenwickTree F]

namespace BTreeMap

/-- `BTreeMap::new`. -/
def new : BTreeMap Q V F := ⟨BTreeSet.default⟩

/-- `BTreeMap::with_maximum_node_size`. -/
def withMaximumNodeSize (maximumNodeSize : ℕ) : BTreeMap Q V F :=
  ⟨BTreeSet.withMaximumNodeSize maximumNodeSize⟩

/-- `BTreeMap::clear`. -/
def clear (m : BTreeMap Q V F) : BTreeMap Q V F := ⟨m.set.clear⟩

/-- `BTreeMap::contains_key`. -/
def containsKey (m : BTreeMap Q V F) (k : K) : Option Bool :=
  m.set.containsCmp (Pair.cmp k) (Pair.cmp2 k)

/-- `BTreeMap::get_key_value`. -/
def getKeyValue (m : BTreeMap Q V F) (k : K) : Option (Option (Q × V)) := do
  let (nodeIdx, positionWithinNode) ← m.set.locateValueCmp (Pair.cmp k)
  match m.set.elementAt nodeIdx positionWithinNode with
  | some candidateValue =>
    if Keyed.key candidateValue.key = k then
      return some (candidateValue.key, candidateValue.value)
    else return none
  | none => return none

/-- `BTreeMap::first_key_value`. -/
def firstKeyValue (m : BTreeMap Q V F) : Option (Q × V) :=
  m.set.first.map fun p => (p.key, p.value)

/-- `BTreeMap::get`. -/
def get (m : BTreeMap Q V F) (k : K) : Option (Option V) := do
  match ← m.getKeyValue k with
  | some keyValue => return some keyValue.2
  | none => return none

/-- `BTreeMap::insert`. -/
def insert (m : BTreeMap Q V F) (k : Q) (value : V) : Option (BTreeMap Q V F × Option V) := do
  match ← m.set.findCmp (Pair.cmp (Keyed.key k)) (Pair.cmp2 (Keyed.key k)) with
  | .exist nodeIdx positionWithinNode =>
    let old ← m.set.elementAt nodeIdx positionWithinNode
    let write := Pair.modifyValue fun _ => value
    return (⟨m.set.modifyAt nodeIdx positionWithinNode write⟩, some old.value)
  | .empty nodeIdx =>
    let (set, _) ← m.set.insertAt nodeIdx ⟨k, value⟩
    return (⟨set⟩, none)

/-- `BTreeMap::remove_entry`. -/
def removeEntry (m : BTreeMap Q V F) (k : K) : Option (BTreeMap Q V F × Option (Q × V)) := do
  let (set, removal, removed) ← m.set.deleteCmp (Pair.cmp k) (Pair.cmp2 k)
  return (⟨set⟩, if removed then removal.map fun p => (p.key, p.value) else none)

/-- `BTreeMap::remove`. -/
def remove (m : BTreeMap Q V F) (k : K) : Option (BTreeMap Q V F × Option V) := do
  let (set, removal, removed) ← m.set.deleteCmp (Pair.cmp k) (Pair.cmp2 k)
  return (⟨set⟩, if removed then removal.map Pair.value else none)

/-- `BTreeMap::pop_first`. -/
def popFirst (m : BTreeMap Q V F) : Option (BTreeMap Q V F × Option (Q × V)) := do
  let (set, popping) ← m.set.popFirst
  return (⟨set⟩, popping.map fun p => (p.key, p.value))

/-- `BTreeMap::pop_last`. -/
def popLast (m : BTreeMap Q V F) : Option (BTreeMap Q V F × Option (Q × V)) := do
  let (set, popping) ← m.set.popLast
  return (⟨set⟩, popping.map fun p => (p.key, p.value))

/-- `BTreeMap::pop_index`. -/
def popIndex (m : BTreeMap Q V F) (index : ℕ) : Option (BTreeMap Q V F × (Q × V)) := do
  let (set, popping) ← m.set.popIndex index
  return (⟨set⟩, (popping.key, popping.value))

/-- `BTreeMap::retain`; the closure sees the key, may write the value, and carries a state. -/
def retain {σ : Type} (m : BTreeMap Q V F) (f : σ → Q → V → Bool × V × σ) (st : σ) :
    Option (BTreeMap Q V F × σ) := do
  let decide := fun st (item : Pair Q V) =>
    let (keep, value, st) := f st item.key item.value
    (keep, item.modifyValue fun _ => value, st)
  let (set, st) ← m.set.retainWith decide st
  return (⟨set⟩, st)

/-- `BTreeMap::append`: both maps afterwards. -/
def append (m other : BTreeMap Q V F) : Option (BTreeMap Q V F × BTreeMap Q V F) := do
  let (set, otherSet) ← m.set.append other.set
  return (⟨set⟩, ⟨otherSet⟩)

/-- `BTreeMap::split_off`: what stays and what is returned. -/
def splitOff (m : BTreeMap Q V F) (k : K) : Option (BTreeMap Q V F × BTreeMap Q V F) := do
  let (set, latter) ← m.set.splitOffCmp (Pair.cmp k)
  return (⟨set⟩, ⟨latter⟩)

/-- `BTreeMap::get_mut` and a write: the value before it. -/
def getMut (m : BTreeMap Q V F) (k : K) (write : V → V) : Option (BTreeMap Q V F × Option V) := do
  let (nodeIdx, positionWithinNode) ← m.set.locateValueCmp (Pair.cmp k)
  match m.set.elementAt nodeIdx positionWithinNode with
  | some entry =>
    if k = Keyed.key entry.key then
      return (⟨m.set.modifyAt nodeIdx positionWithinNode (Pair.modifyValue write)⟩,
        some entry.value)
    else return (m, none)
  | none => return (m, none)

/-- `BTreeMap::get_mut_index` and a write: the value before it. -/
def getMutIndex (m : BTreeMap Q V F) (index : ℕ) (write : V → V) :
    Option (BTreeMap Q V F × Option V) := do
  let (nodeIdx, positionWithinNode) ← m.set.locateIth index
  match m.set.elementAt nodeIdx positionWithinNode with
  | some entry =>
    return (⟨m.set.modifyAt nodeIdx positionWithinNode (Pair.modifyValue write)⟩,
      some entry.value)
  | none => return (m, none)

/-- `BTreeMap::entry`. -/
def entry (m : BTreeMap Q V F) (k : Q) : Option (Entry Q V F) := do
  if ← m.containsKey (Keyed.key k) then
    let idx ← m.set.rankCmp (Pair.cmp (Keyed.key k))
    return .occupied ⟨m, idx⟩
  else return .vacant ⟨m, k⟩

/-- `BTreeMap::first_entry`. -/
def firstEntry (m : BTreeMap Q V F) : Option (OccupiedEntry Q V F) :=
  if m.set.len = 0 then none else some ⟨m, 0⟩

/-- `BTreeMap::last_entry`. -/
def lastEntry (m : BTreeMap Q V F) : Option (OccupiedEntry Q V F) :=
  if 0 < m.set.len then some ⟨m, m.set.len - 1⟩ else none

end BTreeMap

/-- `OccupiedEntry::remove_entry`. -/
def OccupiedEntry.removeEntry (e : OccupiedEntry Q V F) : Option (BTreeMap Q V F × (Q × V)) :=
  e.map.popIndex e.idx

/-- `OccupiedEntry::remove`. -/
def OccupiedEntry.remove (e : OccupiedEntry Q V F) : Option (BTreeMap Q V F × V) := do
  let (map, entry) ← e.map.popIndex e.idx
  return (map, entry.2)

/-- `OccupiedEntry::get_mut`, `into_mut` and a write: the value before it. -/
def OccupiedEntry.getMut (e : OccupiedEntry Q V F) (write : V → V) :
    Option (BTreeMap Q V F × V) := do
  let (map, value) ← e.map.getMutIndex e.idx write
  return (map, ← value)

/-- `OccupiedEntry::insert`. -/
def OccupiedEntry.insert (e : OccupiedEntry Q V F) (value : V) : Option (BTreeMap Q V F × V) :=
  e.getMut fun _ => value

/-- `VacantEntry::insert` and a write through the reference it returns. -/
def VacantEntry.insert (e : VacantEntry Q V F) (value : V) (write : V → V) :
    Option (BTreeMap Q V F × V) := do
  let rank ← e.map.set.rankCmp (Pair.cmp (Keyed.key e.key))
  let (map, _) ← e.map.insert e.key value
  let (map, value) ← map.getMutIndex rank write
  return (map, ← value)

/-- `Entry::or_insert` and a write; `or_insert_with` and `or_default` differ in where the
default comes from. -/
def Entry.orInsert (e : Entry Q V F) (default : V) (write : V → V) :
    Option (BTreeMap Q V F × V) :=
  match e with
  | .vacant entry => entry.insert default write
  | .occupied entry => entry.getMut write

end Operations

/-! ## §2 Writes in place -/

section Writes

variable {T : Type} [Keyed T K]

theorem map_modify_of_comp {α β : Type*} {f : α → β} {g : α → α} (h : ∀ x, f (g x) = f x)
    (l : List α) (i : ℕ) : (l.modify i g).map f = l.map f := by
  induction l generalizing i with
  | nil => simp
  | cons x l ih =>
    cases i with
    | zero => simp [h]
    | succ i => simp [ih]

/-- A write that keeps the key keeps the invariant. -/
theorem BTreeSet.Valid.modifyAt [LawfulFenwickTree F] {s : BTreeSet T F} (hs : s.Valid) (i j : ℕ)
    {write : T → T} (hwrite : ∀ x, key (write x) = key x) : (s.modifyAt i j write).Valid :=
  hs.congr_keys (map_modify_of_comp (fun node => map_modify_of_comp hwrite node j) s.inner i)

omit [LinearOrder K] [Keyed T K] in
/-- A write makes no node longer. -/
theorem BTreeSet.Bounded.modifyAt (s : BTreeSet T F) (i j : ℕ) (write : T → T)
    (hbound : s.Bounded) : (s.modifyAt i j write).Bounded := by
  intro node hnode
  have hlengths : (s.modifyAt i j write).inner.map List.length = s.inner.map List.length :=
    map_modify_of_comp (fun l => List.length_modify write l j) s.inner i
  have hmem : node.length ∈ s.inner.map List.length :=
    hlengths ▸ List.mem_map_of_mem hnode
  obtain ⟨old, hold, hlen⟩ := List.mem_map.mp hmem
  exact hlen ▸ hbound old hold

/-- A write at a cut. -/
theorem BTreeSet.modifyAt_split {s : BTreeSet T F} {pre post : List (List T)} {a b : List T}
    {x : T} (hinner : s.inner = pre ++ (a ++ x :: b) :: post) (write : T → T) :
    (s.modifyAt pre.length a.length write).inner = pre ++ (a ++ write x :: b) :: post := by
  rw [BTreeSet.modifyAt, hinner, modify_split, modify_split]

end Writes

/-! ## §3 Specifications -/

namespace BTreeMap

variable [LawfulFenwickTree F]

/-- The set a map holds is valid. -/
def Valid (m : BTreeMap Q V F) : Prop := m.set.Valid

/-- The pairs of the map, in order. -/
def toList (m : BTreeMap Q V F) : List (Pair Q V) := m.set.toList

/-- **`insert`** writes the value of a present key in place and adds an absent key, as long as
no split leaves an empty half. -/
theorem insert_spec_of_splitsWell {m : BTreeMap Q V F} (hm : m.Valid) (k : Q) (v : V)
    (hsplit : ∀ pre l post, m.set.inner = pre ++ l :: post → (Below key l (key k) → post = []) →
      find key (key k) m.toList = none → m.set.SplitsWell l (⟨k, v⟩ : Pair Q V)) :
    ∃ m', m.insert k v = some (m', (find key (key k) m.toList).map Pair.value) ∧ m'.Valid ∧
      m'.set.nodeCapacity = m.set.nodeCapacity ∧
      m'.toList = put key ⟨((find key (key k) m.toList).map Pair.key).getD k, v⟩ m.toList ∧
      (m.set.Bounded → m'.set.Bounded) := by
  rcases BTreeSet.findCmp_spec hm (key k) with ⟨pre, a, x, b, post, hinner, hx, hfind, heval⟩ |
    ⟨pre, l, post, hinner, hpre, hpost, hstays, hfind, heval⟩
  · -- present: the cut is at the pair itself
    have helem : m.set.elementAt pre.length a.length = some x := BTreeSet.elementAt_split hinner
    have hasc := hm.layout.ascending
    have hcut : m.set.inner.flatten = (pre.flatten ++ a) ++ x :: (b ++ post.flatten) := by
      simp [hinner]
    rw [hcut] at hasc
    have ⟨_, _, hlow, hhigh⟩ := ascending_append_cons.mp hasc
    refine ⟨⟨m.set.modifyAt pre.length a.length (Pair.modifyValue fun _ => v)⟩, ?_,
      BTreeSet.Valid.modifyAt hm _ _ (fun p => rfl), rfl, ?_, BTreeSet.Bounded.modifyAt _ _ _ _⟩
    · simp only [insert, Pair.cmp_eq, Pair.cmp2_eq, heval, toList, hfind]
      simp [helem]
    · show (m.set.modifyAt pre.length a.length _).inner.flatten = _
      rw [BTreeSet.modifyAt_split hinner, toList, hfind, BTreeSet.toList, hcut]
      have hput := put_hit (v := (⟨x.key, v⟩ : Pair Q V)) (x := x) rfl hlow hhigh
      simp only [Option.map_some, Option.getD_some]
      rw [hput]
      simp [Pair.modifyValue]
  · -- absent: the node found is the one the pair belongs to
    obtain ⟨s', hins, hs', hcap', hlist, hbound⟩ :=
      BTreeSet.insertAt_spec_of_splitsWell (v := (⟨k, v⟩ : Pair Q V)) hm hinner
        (hsplit pre l post hinner hstays hfind) hpre hpost
    refine ⟨⟨s'⟩, ?_, hs', hcap', ?_, hbound⟩
    · simp only [insert, Pair.cmp_eq, Pair.cmp2_eq, heval, toList, hfind]
      simp [hins]
    · rw [toList, toList, hlist, hfind, add,
        show find key (key (⟨k, v⟩ : Pair Q V)) m.set.toList = none from hfind]
      rfl

/-- With a maximum node size of two or more no split does. -/
theorem insert_spec {m : BTreeMap Q V F} (hm : m.Valid) (hcap : 2 ≤ m.set.nodeCapacity) (k : Q)
    (v : V) :
    ∃ m', m.insert k v = some (m', (find key (key k) m.toList).map Pair.value) ∧ m'.Valid ∧
      m'.set.nodeCapacity = m.set.nodeCapacity ∧
      m'.toList = put key ⟨((find key (key k) m.toList).map Pair.key).getD k, v⟩ m.toList := by
  obtain ⟨m', heval, hvalid, hcap', hlist, -⟩ :=
    insert_spec_of_splitsWell hm k v fun _ _ _ _ _ _ => Or.inl hcap
  exact ⟨m', heval, hvalid, hcap', hlist⟩

/-- `remove_entry` takes exactly the pair with the key. -/
theorem removeEntry_spec {m : BTreeMap Q V F} (hm : m.Valid) (k : K) :
    ∃ m', m.removeEntry k = some (m', (find key k m.toList).map fun p => (p.key, p.value)) ∧
      m'.Valid ∧ m'.set.nodeCapacity = m.set.nodeCapacity ∧ m'.toList = erase key k m.toList := by
  obtain ⟨s', hdel, hrest⟩ := BTreeSet.deleteCmp_spec hm k
  refine ⟨⟨s'⟩, ?_, hrest⟩
  simp only [removeEntry, Pair.cmp_eq, Pair.cmp2_eq, hdel, toList]
  cases find key k m.set.toList <;> rfl

/-- `remove` does, and returns the value. -/
theorem remove_spec {m : BTreeMap Q V F} (hm : m.Valid) (k : K) :
    ∃ m', m.remove k = some (m', (find key k m.toList).map Pair.value) ∧
      m'.Valid ∧ m'.set.nodeCapacity = m.set.nodeCapacity ∧ m'.toList = erase key k m.toList := by
  obtain ⟨s', hdel, hrest⟩ := BTreeSet.deleteCmp_spec hm k
  refine ⟨⟨s'⟩, ?_, hrest⟩
  simp only [remove, Pair.cmp_eq, Pair.cmp2_eq, hdel, toList]
  cases find key k m.set.toList <;> rfl

theorem popFirst_spec {m : BTreeMap Q V F} (hm : m.Valid) :
    ∃ m', m.popFirst = some (m', m.toList.head?.map fun p => (p.key, p.value)) ∧ m'.Valid ∧
      m'.set.nodeCapacity = m.set.nodeCapacity ∧ m'.toList = m.toList.tail := by
  obtain ⟨s', hpop, hrest⟩ := BTreeSet.popFirst_spec hm
  exact ⟨⟨s'⟩, by simp [popFirst, hpop, toList], hrest⟩

theorem popLast_spec {m : BTreeMap Q V F} (hm : m.Valid) :
    ∃ m', m.popLast = some (m', m.toList.getLast?.map fun p => (p.key, p.value)) ∧ m'.Valid ∧
      m'.set.nodeCapacity = m.set.nodeCapacity ∧ m'.toList = m.toList.dropLast := by
  obtain ⟨s', hpop, hrest⟩ := BTreeSet.popLast_spec hm
  exact ⟨⟨s'⟩, by simp [popLast, hpop, toList], hrest⟩

theorem popIndex_spec {m : BTreeMap Q V F} (hm : m.Valid) {i : ℕ} (hi : i < m.toList.length) :
    ∃ m', m.popIndex i = some (m', (m.toList[i].key, m.toList[i].value)) ∧ m'.Valid ∧
      m'.set.nodeCapacity = m.set.nodeCapacity ∧ m'.toList = m.toList.eraseIdx i := by
  obtain ⟨s', hpop, hrest⟩ := BTreeSet.popIndex_spec hm hi
  refine ⟨⟨s'⟩, ?_, hrest⟩
  simp only [popIndex, hpop]
  rfl

/-- A closure that sees the key and may write the value, as one on entries. -/
def writing {σ : Type} (f : σ → Q → V → Bool × V × σ) (st : σ) (item : Pair Q V) :
    Bool × Pair Q V × σ :=
  ((f st item.key item.value).1, item.modifyValue fun _ => (f st item.key item.value).2.1,
    (f st item.key item.value).2.2)

/-- **`retain`** of the map: the entries answered with `true` stay, with the values written. -/
theorem retain_spec {m : BTreeMap Q V F} (hm : m.Valid) {σ : Type}
    (f : σ → Q → V → Bool × V × σ) (st : σ) :
    ∃ m', m.retain f st = some (m', (BTreeSet.ask (writing f) m.toList st).2) ∧ m'.Valid ∧
      m'.set.nodeCapacity = m.set.nodeCapacity ∧
      m'.toList = BTreeSet.kept (BTreeSet.ask (writing f) m.toList st).1 := by
  obtain ⟨s', hretain, hrest⟩ := BTreeSet.retainWith_spec (writing f) st hm fun _ _ => rfl
  have hrun : m.retain f st =
      (m.set.retainWith (writing f) st).bind fun p => some (⟨p.1⟩, p.2) := rfl
  exact ⟨⟨s'⟩, by rw [hrun, hretain]; rfl, hrest⟩

theorem append_spec {m other : BTreeMap Q V F} (hm : m.Valid) (hcap : 2 ≤ m.set.nodeCapacity)
    (hother : other.Valid) :
    ∃ m₁ m₂, m.append other = some (m₁, m₂) ∧ m₁.Valid ∧ m₂.Valid ∧
      m₁.set.nodeCapacity = m.set.nodeCapacity ∧ m₂.set.nodeCapacity = other.set.nodeCapacity ∧
      m₁.toList = union key m.toList other.toList ∧ m₂.toList = [] := by
  obtain ⟨s₁, s₂, happend, hrest⟩ := BTreeSet.append_spec hm hcap hother
  exact ⟨⟨s₁⟩, ⟨s₂⟩, by simp [append, happend], hrest⟩

theorem splitOff_spec {m : BTreeMap Q V F} (hm : m.Valid) (k : K) :
    ∃ m₁ m₂ : BTreeMap Q V F, m.splitOff k = some (m₁, m₂) ∧ m₁.Valid ∧ m₂.Valid ∧
      m₁.set.nodeCapacity = m.set.nodeCapacity ∧ m₂.set.nodeCapacity = defaultInnerSize ∧
      m₁.toList = m.toList.filter (fun p => key p < k) ∧
      m₂.toList = m.toList.filter (fun p => k ≤ key p) := by
  obtain ⟨s₁, s₂, hsplit, hrest⟩ := BTreeSet.splitOffCmp_spec hm k
  exact ⟨⟨s₁⟩, ⟨s₂⟩, by simp [splitOff, Pair.cmp_eq, hsplit], hrest⟩

/-- **`get_key_value`** finds the pair with the key, or nothing. -/
theorem getKeyValue_spec {m : BTreeMap Q V F} (hm : m.Valid) (k : K) :
    m.getKeyValue k = some ((find key k m.toList).map fun p => (p.key, p.value)) := by
  obtain ⟨pre, a, b, post, -, hloc, -, -, -, hfind⟩ := BTreeSet.locateValueCmp_find hm k
  simp only [getKeyValue, Pair.cmp_eq, hloc, Option.bind_eq_bind, Option.bind_some, toList, hfind]
  cases m.set.elementAt pre.length a.length with
  | none => rfl
  | some x => by_cases hx : Keyed.key x.key = k <;> simp [Pair.key_eq, hx, Option.filter_some]

/-- `get` finds its value. -/
theorem get_spec {m : BTreeMap Q V F} (hm : m.Valid) (k : K) :
    m.get k = some ((find key k m.toList).map Pair.value) := by
  rw [get, getKeyValue_spec hm k]
  cases find key k m.toList <;> rfl

/-- **`get_mut`** and a write: the pair with the key gets the value, and nothing else. -/
theorem getMut_spec {m : BTreeMap Q V F} (hm : m.Valid) (k : K) (write : V → V) :
    ∃ m', m.getMut k write = some (m', (find key k m.toList).map Pair.value) ∧ m'.Valid ∧
      m'.set.nodeCapacity = m.set.nodeCapacity ∧
      m'.toList = (find key k m.toList).elim m.toList
        fun p => put key (p.modifyValue write) m.toList := by
  obtain ⟨pre, a, b, post, hinner, hloc, hlow, -, -, hfind⟩ := BTreeSet.locateValueCmp_find hm k
  have helem := BTreeSet.elementAt_split hinner
  rw [helem] at hfind
  simp only [getMut, Pair.cmp_eq, hloc, Option.bind_eq_bind, Option.bind_some, helem, toList,
    hfind]
  cases b with
  | nil => exact ⟨m, rfl, hm, rfl, rfl⟩
  | cons x b =>
    by_cases hx : Keyed.key x.key = k
    · -- the write lands on the pair the lookup found
      have hcut : m.set.toList = (pre.flatten ++ a) ++ x :: (b ++ post.flatten) := by
        simp [BTreeSet.toList, hinner]
      have hasc := hm.layout.ascending
      rw [← BTreeSet.toList, hcut] at hasc
      obtain ⟨_, _, hbelow, habove⟩ := ascending_append_cons.mp hasc
      have hput := put_hit (v := x.modifyValue write) (x := x) rfl hbelow habove
      refine ⟨⟨m.set.modifyAt pre.length a.length (Pair.modifyValue write)⟩, ?_,
        BTreeSet.Valid.modifyAt hm _ _ (fun p => rfl), rfl, ?_⟩
      · simp [hx, Pair.key_eq, Option.filter_some]
      · rw [BTreeSet.toList, BTreeSet.modifyAt_split hinner]
        simp only [List.head?_cons, Option.filter_some, Pair.key_eq, hx, decide_true, if_true,
          Option.elim_some, hcut, hput]
        simp
    · exact ⟨m, by simp [Ne.symm hx, Pair.key_eq, hx, Option.filter_some], hm, rfl,
        by simp [Pair.key_eq, hx, Option.filter_some]⟩

/-- A write through `get_mut_index`: the entry at the index, and nothing else, gets the value. -/
theorem getMutIndex_spec {m : BTreeMap Q V F} (hm : m.Valid) {i : ℕ} (hi : i < m.toList.length)
    (write : V → V) :
    ∃ m', m.getMutIndex i write = some (m', some m.toList[i].value) ∧ m'.Valid ∧
      m'.set.nodeCapacity = m.set.nodeCapacity ∧
      m'.toList = m.toList.modify i (Pair.modifyValue write) := by
  obtain ⟨pre, a, x, b, post, hinner, hloc, hlen⟩ := BTreeSet.locateIth_spec hm hi
  have helem : m.set.elementAt pre.length a.length = some x := BTreeSet.elementAt_split hinner
  have htoList : m.toList = (pre.flatten ++ a) ++ x :: (b ++ post.flatten) := by
    simp [toList, BTreeSet.toList, hinner]
  have hget : m.toList[i]? = some x := by rw [htoList, ← hlen, getElem?_split]
  have hx : m.toList[i] = x := by
    rw [List.getElem?_eq_getElem hi] at hget
    exact Option.some.inj hget
  refine ⟨⟨m.set.modifyAt pre.length a.length (Pair.modifyValue write)⟩, ?_,
    BTreeSet.Valid.modifyAt hm _ _ (fun p => rfl), rfl, ?_⟩
  · simp [getMutIndex, hloc, helem, hx]
  · show (m.set.modifyAt pre.length a.length _).inner.flatten = _
    rw [BTreeSet.modifyAt_split hinner, htoList, ← hlen, modify_split]
    simp

/-- The entry of a present key is the position of its pair. -/
theorem entry_spec {m : BTreeMap Q V F} (hm : m.Valid) (k : Q) :
    (∃ i, ∃ hi : i < m.toList.length, m.entry k = some (.occupied ⟨m, i⟩) ∧
      key m.toList[i] = key k) ∨
    (m.entry k = some (.vacant ⟨m, k⟩) ∧ find key (key k) m.toList = none) := by
  have hcontains := BTreeSet.containsCmp_spec hm (key k)
  rcases hm.layout.ascending.exists_cut (key k) with ⟨a, x, b, hcut, hx, ha, hb⟩ |
    ⟨a, b, hcut, ha, hb⟩
  · -- present: the rank of the key is where its pair stands
    have htoList : m.set.toList = a ++ x :: b := hcut
    have hfind : find key (key k) m.set.toList = some x := by rw [htoList, find_hit hx ha]
    have hge : ∀ y ∈ x :: b, key k ≤ key y :=
      List.forall_mem_cons.mpr ⟨hx.ge, fun y hy => (hb y hy).le⟩
    have hrank := BTreeSet.rankCmp_spec hm (key k)
    rw [(filter_cut htoList ha hge).1] at hrank
    refine Or.inl ⟨a.length, by simp [toList, htoList], ?_, ?_⟩
    · simp [entry, containsKey, Pair.cmp_eq, Pair.cmp2_eq, hcontains, hfind, hrank]
    · simp [toList, htoList, hx]
  · have htoList : m.set.toList = a ++ b := hcut
    have hfind : find key (key k) m.set.toList = none := by rw [htoList, find_gap ha hb]
    exact Or.inr ⟨by simp [entry, containsKey, Pair.cmp_eq, Pair.cmp2_eq, hcontains, hfind], hfind⟩

end BTreeMap

/-! ## §4 Entries -/

section Entries

variable [LawfulFenwickTree F]

/-- An occupied entry points at a pair of a valid map. -/
def OccupiedEntry.Valid (e : OccupiedEntry Q V F) : Prop :=
  e.map.Valid ∧ e.idx < e.map.toList.length

theorem OccupiedEntry.removeEntry_spec {e : OccupiedEntry Q V F} (he : e.Valid) :
    ∃ m', e.removeEntry = some (m', (e.map.toList.get ⟨e.idx, he.2⟩).key,
        (e.map.toList.get ⟨e.idx, he.2⟩).value) ∧ m'.Valid ∧
      m'.set.nodeCapacity = e.map.set.nodeCapacity ∧
      m'.toList = e.map.toList.eraseIdx e.idx :=
  BTreeMap.popIndex_spec he.1 he.2

theorem OccupiedEntry.remove_spec {e : OccupiedEntry Q V F} (he : e.Valid) :
    ∃ m', e.remove = some (m', (e.map.toList.get ⟨e.idx, he.2⟩).value) ∧ m'.Valid ∧
      m'.set.nodeCapacity = e.map.set.nodeCapacity ∧
      m'.toList = e.map.toList.eraseIdx e.idx := by
  obtain ⟨m', hpop, hrest⟩ := BTreeMap.popIndex_spec he.1 he.2
  exact ⟨m', by simp [remove, hpop], hrest⟩

theorem OccupiedEntry.getMut_spec {e : OccupiedEntry Q V F} (he : e.Valid) (write : V → V) :
    ∃ m', e.getMut write = some (m', (e.map.toList.get ⟨e.idx, he.2⟩).value) ∧ m'.Valid ∧
      m'.set.nodeCapacity = e.map.set.nodeCapacity ∧
      m'.toList = e.map.toList.modify e.idx (Pair.modifyValue write) := by
  obtain ⟨m', hget, hrest⟩ := BTreeMap.getMutIndex_spec he.1 he.2 write
  exact ⟨m', by simp [getMut, hget], hrest⟩

/-- `VacantEntry::insert` finds the pair it has just inserted at the rank taken before. -/
theorem VacantEntry.insert_spec {e : VacantEntry Q V F} (he : e.map.Valid)
    (hcap : 2 ≤ e.map.set.nodeCapacity)
    (hvacant : find Keyed.key (Keyed.key e.key) e.map.toList = none) (v : V) (write : V → V) :
    ∃ m', e.insert v write = some (m', v) ∧ m'.Valid ∧
      m'.set.nodeCapacity = e.map.set.nodeCapacity ∧
      m'.toList = put Keyed.key ⟨e.key, write v⟩ e.map.toList := by
  obtain ⟨m₁, hins, hm₁, hcap₁, hlist₁⟩ := BTreeMap.insert_spec he hcap e.key v
  have hrank := BTreeSet.rankCmp_spec he (Keyed.key e.key)
  rw [hvacant] at hins hlist₁
  have hcut : m₁.toList = e.map.toList.filter (fun x => Keyed.key x < Keyed.key e.key) ++
      (⟨e.key, v⟩ : Pair Q V) :: e.map.toList.filter (fun x => Keyed.key e.key < Keyed.key x) :=
    hlist₁
  have hi : (e.map.toList.filter (fun x => Keyed.key x < Keyed.key e.key)).length <
      m₁.toList.length := by
    rw [hcut]
    simp
  obtain ⟨m', hget, hm', hcap', hlist'⟩ := BTreeMap.getMutIndex_spec hm₁ hi write
  have hval : m₁.toList[(e.map.toList.filter
      (fun x => Keyed.key x < Keyed.key e.key)).length].value = v := by
    simp [hcut]
  refine ⟨m', ?_, hm', hcap'.trans hcap₁, ?_⟩
  · rw [hval] at hget
    simp only [BTreeMap.toList] at hget
    simp [insert, Pair.cmp_eq, hrank, hins, hget]
  · rw [hlist', hcut, modify_split]
    rfl

/-- Where `entry` leads: an occupied entry is valid, a vacant one misses its key. -/
theorem BTreeMap.entry_valid {m : BTreeMap Q V F} (hm : m.Valid) (k : Q) :
    (∃ e : OccupiedEntry Q V F, m.entry k = some (.occupied e) ∧ e.Valid ∧ e.map = m) ∨
    (m.entry k = some (.vacant ⟨m, k⟩) ∧ find Keyed.key (Keyed.key k) m.toList = none) := by
  rcases BTreeMap.entry_spec hm k with ⟨i, hi, hentry, -⟩ | h
  · exact Or.inl ⟨⟨m, i⟩, hentry, ⟨hm, hi⟩, rfl⟩
  · exact Or.inr h

/-- **`or_insert`** never panics and keeps the invariant. -/
theorem BTreeMap.entry_orInsert_spec {m : BTreeMap Q V F} (hm : m.Valid)
    (hcap : 2 ≤ m.set.nodeCapacity) (k : Q) (v : V) (write : V → V) :
    ∃ e m' r, m.entry k = some e ∧ e.orInsert v write = some (m', r) ∧ m'.Valid ∧
      m'.set.nodeCapacity = m.set.nodeCapacity := by
  rcases BTreeMap.entry_valid hm k with ⟨e, hentry, he, rfl⟩ | ⟨hentry, hvacant⟩
  · obtain ⟨m', hget, hm', hcap', -⟩ := OccupiedEntry.getMut_spec he write
    exact ⟨.occupied e, m', _, hentry, hget, hm', hcap'⟩
  · obtain ⟨m', hins, hm', hcap', -⟩ :=
      VacantEntry.insert_spec (e := ⟨m, k⟩) hm hcap hvacant v write
    exact ⟨.vacant ⟨m, k⟩, m', _, hentry, hins, hm', hcap'⟩

theorem BTreeMap.firstEntry_valid {m : BTreeMap Q V F} (hm : m.Valid) {e : OccupiedEntry Q V F}
    (he : m.firstEntry = some e) : e.Valid ∧ e.map = m := by
  unfold BTreeMap.firstEntry at he
  split at he
  · cases he
  next hlen =>
    cases he
    refine ⟨⟨hm, ?_⟩, rfl⟩
    show 0 < m.set.toList.length
    rw [← hm.len_eq]
    omega

theorem BTreeMap.lastEntry_valid {m : BTreeMap Q V F} (hm : m.Valid) {e : OccupiedEntry Q V F}
    (he : m.lastEntry = some e) : e.Valid ∧ e.map = m := by
  unfold BTreeMap.lastEntry at he
  split at he
  next hlen =>
    cases he
    refine ⟨⟨hm, ?_⟩, rfl⟩
    show m.set.len - 1 < m.set.toList.length
    rw [← hm.len_eq]
    omega
  · cases he

end Entries

end IndexSet
