import IndexSet.SingleThreaded.FiniteMap
import IndexSet.SingleThreaded.Positions

/-!
# The Entry API

`lib.rs`: `entry` and its relatives address a pair by its position, which they compute from its
key before they change the map.

- `OccupiedEntry.key`, …, `Entry.orDefault`: the code that the model of the map does not need;
- `locate_agree`: the position of a pair and its key lead to the same place;
- `getMutIndex_eq_getMut`, `popIndex_eq_removeEntry`: so the operations by position are those by
  key;
- `OccupiedEntry.Addresses`, `Entry.Addresses`: an entry does what the map does for its key;
- `entry_addresses`: all entries of a map.
-/

namespace IndexSet

open KeyedList

variable {Q V F K T : Type} [LinearOrder K] [Keyed Q K]

/-! ## §1 The code -/

section Code

variable [FenwickTree F]

/-- `OccupiedEntry::key`; `none` is the panic of an unwrap. -/
def OccupiedEntry.key (e : OccupiedEntry Q V F) : Option Q := do
  let entry ← (← e.map.set.getIndex e.idx)
  return entry.key

/-- `OccupiedEntry::get`. -/
def OccupiedEntry.get (e : OccupiedEntry Q V F) : Option V := do
  let entry ← (← e.map.set.getIndex e.idx)
  return entry.value

/-- `Entry::key`. -/
def Entry.key : Entry Q V F → Option Q
  | .occupied entry => entry.key
  | .vacant entry => some entry.key

/-- `Entry::or_insert_with` and a write through the reference it returns. -/
def Entry.orInsertWith (e : Entry Q V F) (default : Unit → V) (write : V → V) :
    Option (BTreeMap Q V F × V) :=
  match e with
  | .vacant entry => entry.insert (default ()) write
  | .occupied entry => entry.getMut write

/-- `Entry::or_insert_with_key`. -/
def Entry.orInsertWithKey (e : Entry Q V F) (default : Q → V) (write : V → V) :
    Option (BTreeMap Q V F × V) :=
  match e with
  | .vacant entry => entry.insert (default entry.key) write
  | .occupied entry => entry.getMut write

/-- `Entry::or_default`. -/
def Entry.orDefault [Inhabited V] (e : Entry Q V F) (write : V → V) :
    Option (BTreeMap Q V F × V) :=
  match e with
  | .occupied entry => entry.getMut write
  | .vacant entry => entry.insert default write

/-- `Entry::and_modify`. -/
def Entry.andModify (e : Entry Q V F) (f : V → V) : Option (Entry Q V F) :=
  match e with
  | .occupied entry => do
    let (map, _) ← entry.getMut f
    return .occupied ⟨map, entry.idx⟩
  | .vacant entry => some (.vacant entry)

end Code

/-! ## §2 Positions and keys lead to the same place -/

/-- In two cuts of one list of nodes at one position, the first is not at an earlier node. -/
theorem node_le_of_cut {pre pre' post post' : List (List T)} {a a' b b' : List T} {x : T}
    (h : pre ++ (a ++ x :: b) :: post = pre' ++ (a' ++ b') :: post')
    (hlen : (pre.flatten ++ a).length = (pre'.flatten ++ a').length) :
    pre'.length ≤ pre.length := by
  by_contra hlt
  obtain ⟨more, hmore⟩ : ∃ more, pre' = pre ++ (a ++ x :: b) :: more := by
    have hleft : pre ++ [a ++ x :: b] <+: pre ++ (a ++ x :: b) :: post := ⟨post, by simp⟩
    have hright : pre' <+: pre ++ (a ++ x :: b) :: post := ⟨_, h.symm⟩
    have hshort : (pre ++ [a ++ x :: b]).length ≤ pre'.length := by
      rw [List.length_append, List.length_singleton]
      omega
    obtain ⟨more, hmore⟩ := List.prefix_of_prefix_length_le hleft hright hshort
    exact ⟨more, by rw [← hmore]; simp⟩
  rw [hmore] at hlen
  simp only [List.length_append, List.flatten_append, List.flatten_cons, List.length_cons] at hlen
  omega

/-- They are at one place. -/
theorem place_eq_of_cut {pre pre' post post' : List (List T)} {a a' b b' : List T} {x x' : T}
    (h : pre ++ (a ++ x :: b) :: post = pre' ++ (a' ++ x' :: b') :: post')
    (hlen : (pre.flatten ++ a).length = (pre'.flatten ++ a').length) :
    pre.length = pre'.length ∧ a.length = a'.length := by
  have hpre := le_antisymm (node_le_of_cut h.symm hlen.symm) (node_le_of_cut h hlen)
  obtain rfl : pre = pre' := (List.append_inj h hpre).1
  rw [List.length_append, List.length_append] at hlen
  exact ⟨rfl, Nat.add_left_cancel hlen⟩

/-- **The position of an element and its key** are located at the same place. -/
theorem locate_agree [Keyed T K] [LawfulFenwickTree F] {s : BTreeSet T F} (hs : s.Valid) {i : ℕ}
    {x : T} (hx : s.toList[i]? = some x) :
    ∃ n j, s.locateIth i = some (n, j) ∧
      s.locateValueCmp (fun y => key y < key x) = some (n, j) ∧ s.elementAt n j = some x := by
  obtain ⟨hi, -⟩ := List.getElem?_eq_some_iff.mp hx
  obtain ⟨pre, a, y, b, post, hinner, hloc, hlen⟩ := BTreeSet.locateIth_spec hs hi
  obtain ⟨pre', a', b', post', hinner', hloc', hlow, hhigh, -, hfind⟩ :=
    BTreeSet.locateValueCmp_find hs (key x)
  have hasc : Ascending key s.toList := hs.layout.ascending
  -- what is found by the key is `x`
  have hfindx : find key (key x) s.toList = some x :=
    find_eq_some_of_mem hasc (List.mem_of_getElem? hx) rfl
  obtain ⟨helem, -⟩ := Option.filter_eq_some_iff.mp (hfind.symm.trans hfindx)
  have hhead := (BTreeSet.elementAt_split hinner').symm.trans helem
  obtain ⟨b', rfl⟩ := List.head?_eq_some_iff.mp hhead
  -- both cuts are at the position of `x`
  have hlist : s.toList = (pre'.flatten ++ a') ++ (x :: b' ++ post'.flatten) := by
    simp [BTreeSet.toList, hinner']
  have hlen' : (pre'.flatten ++ a').length = i := by
    rw [← length_filter_lt hasc hx, (filter_cut hlist hlow hhigh).1]
  obtain ⟨hn, hj⟩ := place_eq_of_cut (hinner.symm.trans hinner') (hlen.trans hlen'.symm)
  exact ⟨pre'.length, a'.length, by rw [hloc, hn, hj], hloc', helem⟩

namespace BTreeMap

variable [LawfulFenwickTree F] {m : BTreeMap Q V F} {i : ℕ} {p : Pair Q V}

/-- A write to the position of a pair is one to its key. -/
theorem getMutIndex_eq_getMut (hm : m.Valid) (hp : m.toList[i]? = some p) (write : V → V) :
    m.getMutIndex i write = m.getMut (key p) write := by
  obtain ⟨n, j, hloc, hloc', helem⟩ := locate_agree hm hp
  simp only [getMutIndex, getMut, Pair.cmp_eq, hloc, Option.bind_eq_bind, Option.bind_some, helem]
  rw [show (fun x : Pair Q V => decide (Keyed.key x < key p)) = fun y => decide (key y < key p)
    from rfl, hloc']
  simp [helem, Pair.key_eq]

/-- `insert` of a key that is there is a write to it. -/
theorem insert_eq_getMut (hm : m.Valid) (hp : m.toList[i]? = some p) {k : Q}
    (hk : key k = key p) (v : V) : m.insert k v = m.getMut (key p) fun _ => v := by
  obtain ⟨n, j, -, hloc, helem⟩ := locate_agree hm hp
  simp only [insert, BTreeSet.findCmp, getMut, hk, Pair.cmp_eq, Pair.cmp2_eq, hloc,
    Option.bind_eq_bind, Option.bind_some, helem]
  simp [Option.filter_some, helem, Pair.key_eq]

/-- `pop_index` of the position of a pair is `remove_entry` of its key. -/
theorem removeEntry_eq_popIndex (hm : m.Valid) (hp : m.toList[i]? = some p) :
    m.removeEntry (key p) = (m.popIndex i).map fun r => (r.1, some r.2) := by
  obtain ⟨n, j, hloc, hloc', helem⟩ := locate_agree hm hp
  simp only [removeEntry, popIndex, BTreeSet.popIndex, BTreeSet.deleteCmp, BTreeSet.findCmp,
    Pair.cmp_eq, Pair.cmp2_eq, hloc, hloc', Option.bind_eq_bind, Option.bind_some, helem]
  cases hdel : m.set.deleteAt n j <;> simp [Option.filter_some, hdel]

/-- `remove` is the same without the key. -/
theorem remove_eq_popIndex (hm : m.Valid) (hp : m.toList[i]? = some p) :
    m.remove (key p) = (m.popIndex i).map fun r => (r.1, some r.2.2) := by
  obtain ⟨n, j, hloc, hloc', helem⟩ := locate_agree hm hp
  simp only [remove, popIndex, BTreeSet.popIndex, BTreeSet.deleteCmp, BTreeSet.findCmp,
    Pair.cmp_eq, Pair.cmp2_eq, hloc, hloc', Option.bind_eq_bind, Option.bind_some, helem]
  cases hdel : m.set.deleteAt n j <;> simp [Option.filter_some, hdel]

/-- The entry of a key that is there is the position of its pair. -/
theorem entry_of_present (hm : m.Valid) (hp : m.toList[i]? = some p) {k : Q}
    (hk : key k = key p) : m.entry k = some (.occupied ⟨m, i⟩) := by
  have hasc : Ascending key m.set.toList := hm.layout.ascending
  have hfind : find key (key p) m.set.toList = some p :=
    find_eq_some_of_mem hasc (List.mem_of_getElem? hp) rfl
  have hcontains := BTreeSet.containsCmp_spec hm (key p)
  have hrank := BTreeSet.rankCmp_spec hm (key p)
  rw [length_filter_lt hasc hp] at hrank
  simp [entry, containsKey, Pair.cmp_eq, Pair.cmp2_eq, hk, hcontains, hfind, hrank]

/-- The entry of any other key is vacant. -/
theorem entry_of_absent (hm : m.Valid) {k : Q} (hnone : find key (key k) m.toList = none) :
    m.entry k = some (.vacant ⟨m, k⟩) := by
  have hcontains := BTreeSet.containsCmp_spec hm (key k)
  rw [show find key (key k) m.set.toList = none from hnone] at hcontains
  simp [entry, containsKey, Pair.cmp_eq, Pair.cmp2_eq, hcontains]

/-- A write to a key that is not there does nothing. -/
theorem getMut_of_absent (hm : m.Valid) {q : K} (hnone : find key q m.toList = none)
    (write : V → V) : m.getMut q write = some (m, none) := by
  obtain ⟨pre, a, b, post, -, hloc, -, -, -, hfind⟩ := BTreeSet.locateValueCmp_find hm q
  have hfind := hfind.symm.trans hnone
  simp only [getMut, Pair.cmp_eq, hloc, Option.bind_eq_bind, Option.bind_some]
  cases helem : m.set.elementAt pre.length a.length with
  | none => rfl
  | some x =>
    rw [helem, Option.filter_eq_none_iff] at hfind
    have hne : ¬ q = Keyed.key x.key := fun heq => hfind x rfl (decide_eq_true heq.symm)
    simp only [if_neg hne]
    rfl

end BTreeMap

/-! ## §3 What an entry does -/

section Addresses

variable [LawfulFenwickTree F]

/-- A key has a new value, or none any more; all others are as they were. -/
structure BTreeMap.Rewrites (m m' : BTreeMap Q V F) (q : K) (v : Option V) : Prop where
  valid : m'.Valid
  get : ∀ q', m'.get q' = if q' = q then some v else m.get q'

/-- An occupied entry holds the pair, and its methods are those of the map for the key. -/
structure OccupiedEntry.Addresses (e : OccupiedEntry Q V F) (m : BTreeMap Q V F) (p : Pair Q V) :
    Prop where
  map : e.map = m
  getKeyValue : m.getKeyValue (Keyed.key p) = some (some (p.key, p.value))
  key : e.key = some p.key
  get : e.get = some p.value
  getMut : ∀ write, ∃ m', e.getMut write = some (m', p.value) ∧
    m.getMut (Keyed.key p) write = some (m', some p.value) ∧
    m.Rewrites m' (Keyed.key p) (some (write p.value))
  insert : ∀ k v, Keyed.key k = Keyed.key p → ∃ m', e.insert v = some (m', p.value) ∧
    m.insert k v = some (m', some p.value) ∧ m.Rewrites m' (Keyed.key p) (some v)
  removeEntry : ∃ m', e.removeEntry = some (m', p.key, p.value) ∧
    m.removeEntry (Keyed.key p) = some (m', some (p.key, p.value)) ∧
    m.Rewrites m' (Keyed.key p) none
  remove : ∃ m', e.remove = some (m', p.value) ∧
    m.remove (Keyed.key p) = some (m', some p.value) ∧ m.Rewrites m' (Keyed.key p) none

/-- A vacant entry holds the key; its `insert` is that of the map, and the reference it returns
leads to the value stored under the key. -/
structure VacantEntry.Addresses (e : VacantEntry Q V F) (m : BTreeMap Q V F) (k : Q) : Prop where
  map : e.map = m
  key : e.key = k
  absent : m.get (Keyed.key k) = some none
  insert : ∀ v write, ∃ m₁ m', m.insert k v = some (m₁, none) ∧
    m₁.getMut (Keyed.key k) write = some (m', some v) ∧ e.insert v write = some (m', v) ∧
    m.Rewrites m' (Keyed.key k) (some (write v))

/-- The entry of a key. -/
structure Entry.Addresses (e : Entry Q V F) (m : BTreeMap Q V F) (k : Q) : Prop where
  occupied_iff : (∃ e', e = .occupied e') ↔ ∃ p ∈ m.toList, Keyed.key p = Keyed.key k
  occupied : ∀ e', e = .occupied e' →
    ∃ p ∈ m.toList, Keyed.key p = Keyed.key k ∧ e'.Addresses m p
  vacant : ∀ e', e = .vacant e' → e'.Addresses m k
  key : ∃ k', e.key = some k' ∧ Keyed.key k' = Keyed.key k
  /-- The reference leads to the value that was there, or else to the given one. -/
  orInsert : ∀ v write, ∃ m' old, e.orInsert v write = some (m', old) ∧
    (m.get (Keyed.key k)).map (Option.getD · v) = some old ∧
    m.Rewrites m' (Keyed.key k) (some (write old))
  orInsertWith : ∀ default write, e.orInsertWith default write = e.orInsert (default ()) write
  orInsertWithKey : ∀ default write,
    e.orInsertWithKey default write = e.orInsert (default k) write
  orDefault : ∀ (_ : Inhabited V) write, e.orDefault write = e.orInsert default write
  /-- The entry afterwards is that of the key in the map as `get_mut` changes it. -/
  andModify : ∀ f, ∃ m' old, m.getMut (Keyed.key k) f = some (m', old) ∧
    e.andModify f = m'.entry k ∧ m.Rewrites m' (Keyed.key k) (old.map f)

variable {m : BTreeMap Q V F} {i : ℕ} {p : Pair Q V}

theorem BTreeMap.Rewrites.of_lookup {m' : BTreeMap Q V F} {q : K} {r : Option (Pair Q V)}
    (hm : m.Valid) (hm' : m'.Valid) (h : m'.lookup = Function.update m.lookup q r) :
    m.Rewrites m' q (r.map Pair.value) := by
  refine ⟨hm', fun q' => ?_⟩
  rw [BTreeMap.get_spec hm', BTreeMap.get_spec hm,
    show find Keyed.key q' m'.toList = m'.lookup q' from rfl, h, Function.update_apply]
  split <;> rfl

/-- A key that is changed twice. -/
theorem BTreeMap.Rewrites.trans {m₁ m₂ : BTreeMap Q V F} {q : K} {v v' : Option V}
    (h : m.Rewrites m₁ q v) (h' : m₁.Rewrites m₂ q v') : m.Rewrites m₂ q v' := by
  refine ⟨h'.valid, fun q' => ?_⟩
  rw [h'.get, h.get]
  split <;> rfl

/-- `get_mut` rewrites the value of its key. -/
theorem BTreeMap.getMut_rewrites (hm : m.Valid) {q : K} (hp : find Keyed.key q m.toList = some p)
    (write : V → V) :
    ∃ m', m.getMut q write = some (m', some p.value) ∧ m.Rewrites m' q (some (write p.value)) := by
  obtain ⟨m', hget, hm', -, hlist⟩ := BTreeMap.getMut_spec hm q write
  rw [hp, Option.map_some] at hget
  rw [hp, Option.elim_some] at hlist
  have hkey : Keyed.key p = q := ((find_eq_some hm.layout.ascending).mp hp).2
  exact ⟨m', hget, .of_lookup hm hm' (BTreeMap.lookup_of_put (p := p.modifyValue write) hkey hlist)⟩

/-- **An occupied entry** at the position of a pair. -/
theorem occupied_addresses (hm : m.Valid) (hp : m.toList[i]? = some p) :
    OccupiedEntry.Addresses ⟨m, i⟩ m p := by
  have hasc : Ascending Keyed.key m.toList := hm.layout.ascending
  have hfind : find Keyed.key (Keyed.key p) m.toList = some p :=
    find_eq_some_of_mem hasc (List.mem_of_getElem? hp) rfl
  have hindex : m.set.getIndex i = some (some p) := by
    rw [BTreeSet.getIndex_spec hm]
    exact congrArg some hp
  have hgetMut : ∀ write, ∃ m', OccupiedEntry.getMut ⟨m, i⟩ write = some (m', p.value) ∧
      m.getMut (Keyed.key p) write = some (m', some p.value) ∧
      m.Rewrites m' (Keyed.key p) (some (write p.value)) := by
    intro write
    obtain ⟨m', hget, hrewrites⟩ := BTreeMap.getMut_rewrites hm hfind write
    refine ⟨m', ?_, hget, hrewrites⟩
    simp only [OccupiedEntry.getMut, BTreeMap.getMutIndex_eq_getMut hm hp, hget,
      Option.bind_eq_bind, Option.bind_some, Option.pure_def]
  exact {
    map := rfl
    getKeyValue := by rw [BTreeMap.getKeyValue_spec hm, hfind, Option.map_some]
    key := by
      simp only [OccupiedEntry.key, hindex, Option.bind_eq_bind, Option.bind_some, Option.pure_def]
    get := by
      simp only [OccupiedEntry.get, hindex, Option.bind_eq_bind, Option.bind_some, Option.pure_def]
    getMut := hgetMut
    insert := fun k v hk => by
      obtain ⟨m', hinsert, hget, hrewrites⟩ := hgetMut fun _ => v
      exact ⟨m', hinsert, (BTreeMap.insert_eq_getMut hm hp hk v).trans hget, hrewrites⟩
    removeEntry := by
      obtain ⟨m', hremove, hm', -, hlist⟩ := BTreeMap.removeEntry_spec hm (Keyed.key p)
      rw [hfind, Option.map_some] at hremove
      refine ⟨m', ?_, hremove, .of_lookup hm hm' (BTreeMap.lookup_of_erase hlist)⟩
      rw [BTreeMap.removeEntry_eq_popIndex hm hp, Option.map_eq_some_iff] at hremove
      obtain ⟨⟨m'', kv⟩, hpop, heq⟩ := hremove
      cases heq
      exact hpop
    remove := by
      obtain ⟨m', hremove, hm', -, hlist⟩ := BTreeMap.remove_spec hm (Keyed.key p)
      rw [hfind, Option.map_some] at hremove
      refine ⟨m', ?_, hremove, .of_lookup hm hm' (BTreeMap.lookup_of_erase hlist)⟩
      rw [BTreeMap.remove_eq_popIndex hm hp, Option.map_eq_some_iff] at hremove
      obtain ⟨⟨m'', kv⟩, hpop, heq⟩ := hremove
      obtain ⟨rfl, hvalue⟩ := Prod.mk.inj heq
      have hvalue : kv.2 = p.value := Option.some.inj hvalue
      simp only [OccupiedEntry.remove, hpop, Option.bind_eq_bind, Option.bind_some,
        Option.pure_def, hvalue] }

/-- **A vacant entry** of a key that is not there: the pair is found at the rank taken before,
also when the insertion has split a node. -/
theorem vacant_addresses (hm : m.Valid) (hcap : 2 ≤ m.set.nodeCapacity) {k : Q}
    (hnone : find Keyed.key (Keyed.key k) m.toList = none) :
    VacantEntry.Addresses ⟨m, k⟩ m k where
  map := rfl
  key := rfl
  absent := by rw [BTreeMap.get_spec hm, hnone, Option.map_none]
  insert v write := by
    obtain ⟨m₁, hinsert, hm₁, -, hlist⟩ := BTreeMap.insert_spec hm hcap k v
    rw [hnone] at hinsert hlist
    have hput : m₁.toList = put Keyed.key (⟨k, v⟩ : Pair Q V) m.toList := hlist
    have hrewrites : m.Rewrites m₁ (Keyed.key k) (some v) :=
      .of_lookup hm hm₁ (BTreeMap.lookup_of_put (p := ⟨k, v⟩) rfl hput)
    have hfind : find Keyed.key (Keyed.key k) m₁.toList = some ⟨k, v⟩ := by
      have hmem : (⟨k, v⟩ : Pair Q V) ∈ m₁.toList := hput ▸ by simp [put]
      exact find_eq_some_of_mem hm₁.layout.ascending hmem rfl
    have hrank := BTreeSet.rankCmp_spec hm (Keyed.key k)
    have hat : m₁.toList[(m.toList.filter fun x => Keyed.key x < Keyed.key k).length]? =
        some ⟨k, v⟩ := by
      rw [hput]
      exact getElem?_split _ _ _
    obtain ⟨m', hget, hrewrites'⟩ := BTreeMap.getMut_rewrites hm₁ hfind write
    refine ⟨m₁, m', hinsert, hget, ?_, hrewrites.trans hrewrites'⟩
    have hindex : m₁.getMutIndex (m.toList.filter fun x => Keyed.key x < Keyed.key k).length write =
        some (m', some v) := (BTreeMap.getMutIndex_eq_getMut hm₁ hat write).trans hget
    have hrank' : m.set.rankCmp (Pair.cmp (Keyed.key k)) =
        some (m.toList.filter fun x => Keyed.key x < Keyed.key k).length := hrank
    simp only [VacantEntry.insert, hrank', hinsert, hindex, Option.bind_eq_bind, Option.bind_some,
      Option.pure_def, Option.map_none]

/-- The entry of a key that is there. -/
theorem entry_addresses_of_present (hm : m.Valid) (hp : m.toList[i]? = some p) {k : Q}
    (hk : Keyed.key k = Keyed.key p) : Entry.Addresses (.occupied ⟨m, i⟩) m k := by
  have hmem : p ∈ m.toList := List.mem_of_getElem? hp
  have hfind : find Keyed.key (Keyed.key p) m.toList = some p :=
    find_eq_some_of_mem hm.layout.ascending hmem rfl
  have h := occupied_addresses hm hp
  exact {
    occupied_iff := iff_of_true ⟨_, rfl⟩ ⟨p, hmem, hk.symm⟩
    occupied := fun e' he' => by
      cases he'
      exact ⟨p, hmem, hk.symm, h⟩
    vacant := fun e' he' => by cases he'
    key := ⟨p.key, h.key, hk.symm⟩
    orInsert := fun v write => by
      obtain ⟨m', hget, -, hrewrites⟩ := h.getMut write
      refine ⟨m', p.value, hget, ?_, hk ▸ hrewrites⟩
      rw [BTreeMap.get_spec hm, hk, hfind]
      rfl
    orInsertWith := fun _ _ => rfl
    orInsertWithKey := fun _ _ => rfl
    orDefault := fun _ _ => rfl
    andModify := fun f => by
      obtain ⟨m', hget, hget', hrewrites⟩ := h.getMut f
      refine ⟨m', some p.value, hk ▸ hget', ?_, hk ▸ hrewrites⟩
      -- the pair is still at its position
      have hp' : m'.toList[i]? = some (p.modifyValue f) := by
        obtain ⟨hi, hpi⟩ := List.getElem?_eq_some_iff.mp hp
        obtain ⟨m'', hindex, -, -, hlist⟩ := BTreeMap.getMutIndex_spec hm hi f
        rw [BTreeMap.getMutIndex_eq_getMut hm hp, hget'] at hindex
        obtain ⟨rfl, -⟩ := Prod.mk.inj (Option.some.inj hindex)
        rw [hlist, List.getElem?_modify_eq, hp]
        rfl
      rw [BTreeMap.entry_of_present hrewrites.valid hp' hk]
      simp only [Entry.andModify, hget, Option.bind_eq_bind, Option.bind_some, Option.pure_def] }

/-- The entry of a key that is not there. -/
theorem entry_addresses_of_absent (hm : m.Valid) (hcap : 2 ≤ m.set.nodeCapacity) {k : Q}
    (hnone : find Keyed.key (Keyed.key k) m.toList = none) :
    Entry.Addresses (.vacant ⟨m, k⟩) m k := by
  have h := vacant_addresses hm hcap hnone
  exact {
    occupied_iff := by
      refine iff_of_false ?_ ?_
      · rintro ⟨e', he'⟩
        cases he'
      · rintro ⟨p, hp, hkey⟩
        exact find_eq_none.mp hnone p hp hkey
    occupied := fun e' he' => by cases he'
    vacant := fun e' he' => by
      cases he'
      exact h
    key := ⟨k, rfl, rfl⟩
    orInsert := fun v write => by
      obtain ⟨-, m', -, -, hinsert, hrewrites⟩ := h.insert v write
      refine ⟨m', v, hinsert, ?_, hrewrites⟩
      rw [h.absent]
      rfl
    orInsertWith := fun _ _ => rfl
    orInsertWithKey := fun _ _ => rfl
    orDefault := fun _ _ => rfl
    andModify := fun f => by
      refine ⟨m, none, BTreeMap.getMut_of_absent hm hnone f,
        (BTreeMap.entry_of_absent hm hnone).symm, hm, fun q' => ?_⟩
      split
      · subst q'
        exact h.absent
      · rfl }

end Addresses

/-! ## §4 All entries -/

section

variable [LawfulFenwickTree F] {m : BTreeMap Q V F}

/-- `first_entry` of a map is absent or holds the least pair. -/
theorem firstEntry_addresses (hm : m.Valid) :
    m.toList = [] ∧ m.firstEntry = none ∨
      ∃ e, m.firstEntry = some e ∧ ∃ p ∈ m.toList, e.Addresses m p ∧
        ∀ x ∈ m.toList, key p ≤ key x := by
  have hasc : Ascending key m.toList := hm.layout.ascending
  have hlen : m.set.len = m.toList.length := hm.len_eq
  cases hlist : m.toList with
  | nil => exact Or.inl ⟨rfl, if_pos (by rw [hlen, hlist]; rfl)⟩
  | cons p l =>
    rw [hlist] at hlen hasc
    have hne : ¬ m.set.len = 0 := by
      rw [hlen, List.length_cons]
      exact Nat.succ_ne_zero _
    have hp : m.toList[0]? = some p := by rw [hlist]; rfl
    refine Or.inr ⟨⟨m, 0⟩, if_neg hne, p, List.mem_cons_self .., occupied_addresses hm hp, ?_⟩
    exact List.forall_mem_cons.mpr ⟨le_rfl, fun x hx => ((ascending_cons.mp hasc).1 x hx).le⟩

/-- `last_entry` of a map is absent or holds the greatest pair. -/
theorem lastEntry_addresses (hm : m.Valid) :
    m.toList = [] ∧ m.lastEntry = none ∨
      ∃ e, m.lastEntry = some e ∧ ∃ p ∈ m.toList, e.Addresses m p ∧
        ∀ x ∈ m.toList, key x ≤ key p := by
  have hasc : Ascending key m.toList := hm.layout.ascending
  have hlen : m.set.len = m.toList.length := hm.len_eq
  rcases List.eq_nil_or_concat' m.toList with hlist | ⟨l, p, hlist⟩
  · rw [hlist] at hlen
    exact Or.inl ⟨hlist, if_neg (by rw [hlen]; exact Nat.lt_irrefl 0)⟩
  · rw [hlist] at hlen hasc
    rw [List.length_append, List.length_singleton] at hlen
    have hp : m.toList[m.set.len - 1]? = some p := by simp [hlen, hlist]
    refine Or.inr ⟨⟨m, m.set.len - 1⟩, if_pos (by omega), p, by simp [hlist],
      occupied_addresses hm hp, fun x hx => ?_⟩
    rw [hlist] at hx
    rcases List.mem_append.mp hx with hx | hx
    · exact ((ascending_append.mp hasc).2.2 x hx p (List.mem_singleton_self p)).le
    · rw [List.mem_singleton.mp hx]

end

/-- **The entry API** of a map that satisfies the invariant, with a maximum node size of two or
more: `entry` addresses the pair of the key, `first_entry` the least pair and `last_entry` the
greatest one, and what is done through them is what the map does for the key. -/
theorem entry_addresses [LawfulFenwickTree F] (m : BTreeMap Q V F) (h : m.Valid)
    (hcap : 2 ≤ m.set.nodeCapacity) :
    (∀ k, ∃ e, m.entry k = some e ∧ e.Addresses m k) ∧
      (m.toList = [] ∧ m.firstEntry = none ∨
        ∃ e, m.firstEntry = some e ∧ ∃ p ∈ m.toList, e.Addresses m p ∧
          ∀ x ∈ m.toList, key p ≤ key x) ∧
      (m.toList = [] ∧ m.lastEntry = none ∨
        ∃ e, m.lastEntry = some e ∧ ∃ p ∈ m.toList, e.Addresses m p ∧
          ∀ x ∈ m.toList, key x ≤ key p) := by
  refine ⟨fun k => ?_, firstEntry_addresses h, lastEntry_addresses h⟩
  have hasc : Ascending key m.toList := h.layout.ascending
  cases hfind : find key (key k) m.toList with
  | some p =>
    obtain ⟨hmem, hkey⟩ := (find_eq_some hasc).mp hfind
    obtain ⟨i, hp⟩ := List.getElem?_of_mem hmem
    exact ⟨_, BTreeMap.entry_of_present h hp hkey.symm, entry_addresses_of_present h hp hkey.symm⟩
  | none =>
    exact ⟨_, BTreeMap.entry_of_absent h hfind, entry_addresses_of_absent h hcap hfind⟩

/-- An insertion between two pairs of a full node, which it splits. -/
theorem entry_addresses_fullNode :
    ∃ e : Entry ℕ ℕ CountList,
      (⟨⟨[[⟨2, 7⟩, ⟨4, 8⟩]], ⟨[2]⟩, 2, 2⟩⟩ : BTreeMap ℕ ℕ CountList).entry 3 = some e ∧
        e.Addresses ⟨⟨[[⟨2, 7⟩, ⟨4, 8⟩]], ⟨[2]⟩, 2, 2⟩⟩ 3 :=
  (entry_addresses (⟨⟨[[⟨2, 7⟩, ⟨4, 8⟩]], ⟨[2]⟩, 2, 2⟩⟩ : BTreeMap ℕ ℕ CountList)
    ⟨⟨by decide, by decide, by decide⟩, rfl, rfl⟩ (le_refl 2)).1 3

end IndexSet
