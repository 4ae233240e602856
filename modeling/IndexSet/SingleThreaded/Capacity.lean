import IndexSet.SingleThreaded.Iter
import Mathlib.Data.List.Induction

/-!
# Maximum Node Sizes

`with_maximum_node_size` takes every size.  A full node is halved before the value is placed:
a node of size one has an empty lower half, and one of size zero has none to take the first
element of.

- `Fits`: the insertions that leave no empty half behind;
- `insertAll_spec`: a run of such insertions ends in a valid set of the inserted values;
- `contains_of_not_fits`: the first insertion that does not fit is followed by a lookup that
  misses it;
- `maximumNodeSize_usable`: the runs that keep what they insert.
-/

namespace IndexSet

open KeyedList DoubleEnded

variable {T Q V F K : Type} [LinearOrder K]

/-! ## §1 Runs of insertions -/

section Runs

variable [FenwickTree F]

/-- A set with a maximum node size after a sequence of insertions; `none` is a panic. -/
def BTreeSet.insertAll [Keyed T K] (c : ℕ) (vs : List T) : Option (BTreeSet T F) :=
  vs.foldlM (fun s v => (s.insert v).map Prod.fst) (BTreeSet.withMaximumNodeSize c)

/-- A map with a maximum node size after a sequence of insertions. -/
def BTreeMap.insertAll [Keyed Q K] (c : ℕ) (entries : List (Q × V)) : Option (BTreeMap Q V F) :=
  entries.foldlM (fun m entry => (m.insert entry.1 entry.2).map Prod.fst)
    (BTreeMap.withMaximumNodeSize c)

theorem BTreeSet.insertAll_concat [Keyed T K] (c : ℕ) (vs : List T) (v : T) :
    (BTreeSet.insertAll c (vs ++ [v]) : Option (BTreeSet T F)) =
      (BTreeSet.insertAll c vs).bind fun s => (s.insert v).map Prod.fst := by
  simp [insertAll, List.foldlM_append]

theorem BTreeMap.insertAll_concat [Keyed Q K] (c : ℕ) (entries : List (Q × V)) (entry : Q × V) :
    (BTreeMap.insertAll c (entries ++ [entry]) : Option (BTreeMap Q V F)) =
      (BTreeMap.insertAll c entries).bind
        fun m => (m.insert entry.1 entry.2).map Prod.fst := by
  simp [insertAll, List.foldlM_append]

end Runs

/-- None of the values lies above the first. -/
def FirstGreatest [Keyed T K] (vs : List T) : Prop :=
  ∀ first ∈ vs.head?, ∀ v ∈ vs, key v ≤ key first

/-- The insertions into a set that leave no empty half: with nodes of one element, distinct
values of which the first is the greatest; with nodes of none, no insertion at all. -/
def BTreeSet.Fits [Keyed T K] (c : ℕ) (vs : List T) : Prop :=
  2 ≤ c ∨ vs = [] ∨ c = 1 ∧ (vs.Pairwise fun v w => key v ≠ key w) ∧ FirstGreatest vs

/-- The insertions into a map that leave no empty half: a present key is found before any node
is split. -/
def BTreeMap.Fits [Keyed Q K] (c : ℕ) (entries : List (Q × V)) : Prop :=
  2 ≤ c ∨ entries = [] ∨ c = 1 ∧ FirstGreatest (entries.map Prod.fst)

theorem FirstGreatest.of_append [Keyed T K] {vs ws : List T} (h : FirstGreatest (vs ++ ws)) :
    FirstGreatest vs := by
  cases vs with
  | nil => intro first hfirst; cases hfirst
  | cons v vs => exact fun first hfirst x hx => h first hfirst x (List.mem_append_left _ hx)

/-- A run fits as far as it goes. -/
theorem BTreeSet.Fits.of_append [Keyed T K] {c : ℕ} {vs ws : List T}
    (h : BTreeSet.Fits c (vs ++ ws)) : BTreeSet.Fits c vs := by
  rcases h with htwo | hnil | ⟨hone, hdistinct, hfirst⟩
  · exact Or.inl htwo
  · exact Or.inr (Or.inl (List.append_eq_nil_iff.mp hnil).1)
  · exact Or.inr (Or.inr ⟨hone, (List.pairwise_append.mp hdistinct).1, hfirst.of_append⟩)

theorem BTreeMap.Fits.of_append [Keyed Q K] {c : ℕ} {entries rest : List (Q × V)}
    (h : BTreeMap.Fits c (entries ++ rest)) : BTreeMap.Fits c entries := by
  rcases h with htwo | hnil | ⟨hone, hfirst⟩
  · exact Or.inl htwo
  · exact Or.inr (Or.inl (List.append_eq_nil_iff.mp hnil).1)
  · rw [List.map_append] at hfirst
    exact Or.inr (Or.inr ⟨hone, hfirst.of_append⟩)

/-- The greatest value is in a list of values with the keys of the inserted ones. -/
theorem FirstGreatest.exists_ge [Keyed T K] {vs : List T} {v : T}
    (h : FirstGreatest (vs ++ [v])) (hne : vs ≠ []) : ∃ w ∈ vs, key v ≤ key w := by
  obtain ⟨first, rest, rfl⟩ := List.exists_cons_of_ne_nil hne
  exact ⟨first, List.mem_cons_self .., h first rfl v (by simp)⟩

/-! ## §2 Runs that fit -/

/-- With nodes of one element, a value that is absent and not above the greatest element splits
the node it belongs to without leaving an empty half. -/
theorem BTreeSet.splitsWell_of_one [Keyed T K] [LawfulFenwickTree F] {s : BTreeSet T F}
    (hs : s.Valid) (hbound : s.Bounded) (hone : s.nodeCapacity = 1) {v : T}
    (habsent : ∀ x ∈ s.toList, key x ≠ key v)
    (hgreatest : s.toList ≠ [] → ∃ x ∈ s.toList, key v ≤ key x)
    {pre post : List (List T)} {l : List T} (hinner : s.inner = pre ++ l :: post)
    (hlast : Below key l (key v) → post = []) : s.SplitsWell l v := by
  refine Or.inr ⟨by omega, ?_⟩
  have hlist : s.toList = pre.flatten ++ l ++ post.flatten := by simp [toList, hinner]
  have hlen : l.length ≤ 1 := hone ▸ hbound l (by simp [hinner])
  cases l with
  | nil => exact above_nil _
  | cons x l =>
    obtain rfl : l = [] := List.length_eq_zero_iff.mp (by simpa using hlen)
    rw [above_cons]
    refine ⟨?_, above_nil _⟩
    by_contra hle
    have hlt : key x < key v := lt_of_le_of_ne (not_lt.mp hle) (habsent x (by simp [hlist]))
    -- the node is the last one, and all elements are below the value
    rw [hlast (by simpa using hlt), List.flatten_nil, List.append_nil] at hlist
    obtain ⟨y, hy, hvy⟩ := hgreatest (by simp [hlist])
    have hasc : Ascending key s.toList := hs.layout.ascending
    rw [hlist] at hasc hy
    obtain ⟨-, -, hbelow, -⟩ := ascending_append_cons.mp hasc
    have hyx : key y ≤ key x := by
      rcases List.mem_append.mp hy with hy | hy
      · exact (hbelow y hy).le
      · rw [List.mem_singleton.mp hy]
    exact absurd (hvy.trans hyx) (not_le.mpr hlt)

/-- What a run of insertions has led to: a valid set of the inserted values. -/
structure BTreeSet.Holds [Keyed T K] [LawfulFenwickTree F] (c : ℕ) (vs : List T)
    (s : BTreeSet T F) : Prop where
  valid : s.Valid
  bounded : s.Bounded
  nodeCapacity : s.nodeCapacity = c
  mem : ∀ x ∈ s.toList, x ∈ vs
  exists_key : ∀ v ∈ vs, ∃ x ∈ s.toList, key x = key v

theorem BTreeSet.Holds.exists_iff [Keyed T K] [LawfulFenwickTree F] {c : ℕ} {vs : List T}
    {s : BTreeSet T F} (h : s.Holds c vs) (q : K) :
    (∃ x ∈ s.toList, key x = q) ↔ ∃ v ∈ vs, key v = q := by
  constructor
  · rintro ⟨x, hx, hxq⟩
    exact ⟨x, h.mem x hx, hxq⟩
  · rintro ⟨v, hv, rfl⟩
    exact h.exists_key v hv

/-- **A run that fits** never panics and loses nothing. -/
theorem BTreeSet.insertAll_spec [Keyed T K] [LawfulFenwickTree F] {c : ℕ} {vs : List T}
    (hfits : BTreeSet.Fits c vs) :
    ∃ s : BTreeSet T F, BTreeSet.insertAll c vs = some s ∧ s.Holds c vs := by
  induction vs using List.reverseRecOn with
  | nil =>
    exact ⟨_, rfl, withMaximumNodeSize_valid c, by simp [Bounded, withMaximumNodeSize, default],
      rfl, by simp [toList, withMaximumNodeSize, default], by simp⟩
  | append_singleton vs v ih =>
    obtain ⟨s, hrun, h⟩ := ih hfits.of_append
    have hsplit : ∀ pre l post, s.inner = pre ++ l :: post → (Below key l (key v) → post = []) →
        s.SplitsWell l v := by
      intro pre l post hinner hlast
      rcases hfits with htwo | hnil | ⟨hone, hdistinct, hfirst⟩
      · exact Or.inl (h.nodeCapacity ▸ htwo)
      · exact absurd hnil (by simp)
      · -- nodes of one element: every later value lies below the first one
        refine splitsWell_of_one h.valid h.bounded (h.nodeCapacity.trans hone) ?_ ?_ hinner hlast
        · intro x hx
          exact (List.pairwise_append.mp hdistinct).2.2 x (h.mem x hx) v (by simp)
        · intro hne
          obtain ⟨y, hy⟩ := List.exists_mem_of_ne_nil _ hne
          obtain ⟨w, hw, hvw⟩ := hfirst.exists_ge (List.ne_nil_of_mem (h.mem y hy))
          obtain ⟨x, hx, hxw⟩ := h.exists_key w hw
          exact ⟨x, hx, hvw.trans hxw.ge⟩
    obtain ⟨s', hins, hvalid, hcap, hlist, hbound⟩ := insert_spec_of_splitsWell h.valid v hsplit
    refine ⟨s', ?_, hvalid, hbound h.bounded, hcap.trans h.nodeCapacity, ?_, ?_⟩
    · rw [insertAll_concat, hrun, Option.bind_some, hins]
      rfl
    · intro x hx
      rw [hlist] at hx
      rcases mem_add hx with rfl | hx
      · simp
      · exact List.mem_append_left _ (h.mem x hx)
    · intro w hw
      rw [hlist]
      refine (mem_keys_add (q := key w)).mpr ?_
      rcases List.mem_append.mp hw with hw | hw
      · exact Or.inr (h.exists_key w hw)
      · exact Or.inl (by rw [List.mem_singleton.mp hw])

/-- What a run of insertions into a map has led to: each key with the value inserted last. -/
structure BTreeMap.Holds [Keyed Q K] [LawfulFenwickTree F] (c : ℕ) (entries : List (Q × V))
    (m : BTreeMap Q V F) : Prop where
  valid : m.Valid
  bounded : m.set.Bounded
  nodeCapacity : m.set.nodeCapacity = c
  mem : ∀ p ∈ m.toList, p.key ∈ entries.map Prod.fst
  value : ∀ k : K, (find key k m.toList).map Pair.value =
    (entries.reverse.find? fun entry => key entry.1 = k).map Prod.snd

theorem BTreeMap.Holds.exists_key [Keyed Q K] [LawfulFenwickTree F] {c : ℕ}
    {entries : List (Q × V)} {m : BTreeMap Q V F} (h : m.Holds c entries) :
    ∀ k ∈ entries.map Prod.fst, ∃ p ∈ m.toList, key p = key k := by
  intro k hk
  obtain ⟨entry, hentry, rfl⟩ := List.mem_map.mp hk
  have hfound : (entries.reverse.find? fun e => key e.1 = key entry.1).isSome := by
    rw [List.find?_isSome]
    exact ⟨entry, List.mem_reverse.mpr hentry, by simp⟩
  have hvalue := congrArg Option.isSome (h.value (key entry.1))
  rw [Option.isSome_map, Option.isSome_map, hfound] at hvalue
  exact find_isSome.mp hvalue

/-- A run that fits never panics and loses nothing. -/
theorem BTreeMap.insertAll_spec [Keyed Q K] [LawfulFenwickTree F] {c : ℕ}
    {entries : List (Q × V)} (hfits : BTreeMap.Fits c entries) :
    ∃ m : BTreeMap Q V F, BTreeMap.insertAll c entries = some m ∧ m.Holds c entries := by
  induction entries using List.reverseRecOn with
  | nil =>
    exact ⟨_, rfl, BTreeSet.withMaximumNodeSize_valid c,
      by simp [BTreeSet.Bounded, withMaximumNodeSize, BTreeSet.withMaximumNodeSize,
        BTreeSet.default], rfl,
      by simp [toList, BTreeSet.toList, withMaximumNodeSize, BTreeSet.withMaximumNodeSize,
        BTreeSet.default],
      fun k => rfl⟩
  | append_singleton entries entry ih =>
    obtain ⟨m, hrun, h⟩ := ih hfits.of_append
    have hsplit : ∀ pre l post, m.set.inner = pre ++ l :: post →
        (Below key l (key entry.1) → post = []) → find key (key entry.1) m.toList = none →
        m.set.SplitsWell l (⟨entry.1, entry.2⟩ : Pair Q V) := by
      intro pre l post hinner hlast habsent
      rcases hfits with htwo | hnil | ⟨hone, hfirst⟩
      · exact Or.inl (h.nodeCapacity ▸ htwo)
      · exact absurd hnil (by simp)
      · rw [List.map_append] at hfirst
        refine BTreeSet.splitsWell_of_one h.valid h.bounded (h.nodeCapacity.trans hone)
          (find_eq_none.mp habsent) ?_ hinner hlast
        intro hne
        obtain ⟨p, hp⟩ := List.exists_mem_of_ne_nil _ hne
        obtain ⟨w, hw, hkw⟩ := hfirst.exists_ge (List.ne_nil_of_mem (h.mem p hp))
        obtain ⟨x, hx, hxw⟩ := h.exists_key w hw
        exact ⟨x, hx, hkw.trans hxw.ge⟩
    obtain ⟨m', hins, hvalid, hcap, hlist, hbound⟩ :=
      insert_spec_of_splitsWell h.valid entry.1 entry.2 hsplit
    refine ⟨m', ?_, hvalid, hbound h.bounded, hcap.trans h.nodeCapacity, ?_, ?_⟩
    · rw [insertAll_concat, hrun, Option.bind_some, hins]
      rfl
    · intro p hp
      rw [hlist] at hp
      rw [List.map_append, List.mem_append]
      rcases mem_put.mp hp with rfl | ⟨hp, -⟩
      · -- a present key keeps its key object
        cases hfind : find key (key entry.1) m.toList with
        | none => exact Or.inr (by simp)
        | some x =>
          exact Or.inl (h.mem x (List.mem_of_find?_eq_some hfind))
      · exact Or.inl (h.mem p hp)
    · intro k
      have hkey : key (⟨((find key (key entry.1) m.toList).map Pair.key).getD entry.1, entry.2⟩ :
          Pair Q V) = key entry.1 := by
        cases hfind : find key (key entry.1) m.toList with
        | none => rfl
        | some x => simpa [Pair.key_eq] using List.find?_some hfind
      rw [hlist, find_put, hkey, List.reverse_append, List.reverse_singleton,
        List.singleton_append, List.find?_cons]
      by_cases hk : key entry.1 = k
      · simp [hk]
      · simpa [hk] using h.value k

/-! ## §3 What is kept -/

/-- An answer is a smallest inserted value, and nothing only when there is none. -/
def IsMinimum [Keyed T K] (vs : List T) : Option T → Prop
  | some x => x ∈ vs ∧ ∀ v ∈ vs, key x ≤ key v
  | none => vs = []

/-- A set keeps the values inserted into it. -/
structure BTreeSet.KeepsInserted [Keyed T K] [LawfulFenwickTree F] (vs : List T)
    (s : BTreeSet T F) : Prop where
  contains : ∀ q : K, ∃ r, s.contains q = some r ∧ (r = true ↔ ∃ v ∈ vs, key v = q)
  first : IsMinimum vs s.first
  iter : ∃ it l, s.iter = some it ∧ Yields Iter.pull it l ∧ Ascending key l ∧
    (∀ x ∈ l, x ∈ vs) ∧ ∀ v ∈ vs, ∃ x ∈ l, key x = key v

/-- A map keeps the entries inserted into it, the last value of each key. -/
structure BTreeMap.KeepsInserted [Keyed Q K] [LawfulFenwickTree F] (entries : List (Q × V))
    (m : BTreeMap Q V F) : Prop where
  containsKey : ∀ k : K, ∃ r, m.containsKey k = some r ∧
    (r = true ↔ ∃ entry ∈ entries, key entry.1 = k)
  first : IsMinimum (entries.map Prod.fst) (m.firstKeyValue.map Prod.fst)
  iter : ∃ it l, m.iter = some it ∧ Yields IterMap.pull it l ∧
    Ascending (fun entry : Q × V => (key entry.1 : K)) l ∧
    ∀ k : K, (l.find? fun entry => key entry.1 = k).map Prod.snd =
      (entries.reverse.find? fun entry => key entry.1 = k).map Prod.snd

/-- The head of an ascending list of the inserted values is the smallest of them. -/
theorem isMinimum_head [Keyed T K] {α : Type} {l : List α} {k : α → K} (h : Ascending k l)
    {f : α → T} (hf : ∀ x, key (f x) = k x) {vs : List T} (hmem : ∀ x ∈ l, f x ∈ vs)
    (hkey : ∀ v ∈ vs, ∃ x ∈ l, k x = key v) : IsMinimum vs (l.head?.map f) := by
  cases l with
  | nil =>
    refine List.eq_nil_iff_forall_not_mem.mpr fun v hv => ?_
    obtain ⟨x, hx, -⟩ := hkey v hv
    cases hx
  | cons x l =>
    refine ⟨hmem x (List.mem_cons_self ..), fun v hv => ?_⟩
    obtain ⟨y, hy, hyv⟩ := hkey v hv
    rw [hf, ← hyv]
    rcases List.mem_cons.mp hy with rfl | hy
    · exact le_rfl
    · exact ((ascending_cons.mp h).1 y hy).le

theorem BTreeSet.Holds.keeps [Keyed T K] [LawfulFenwickTree F] {c : ℕ} {vs : List T}
    {s : BTreeSet T F} (h : s.Holds c vs) : s.KeepsInserted vs where
  contains q := ⟨_, contains_spec h.valid q, find_isSome.trans (h.exists_iff q)⟩
  first := by
    have hhead := isMinimum_head (f := id) h.valid.layout.ascending (fun _ => rfl) h.mem
      h.exists_key
    rw [Option.map_id] at hhead
    exact (first_eq h.valid).symm ▸ hhead
  iter := by
    obtain ⟨it, hiter, hyields⟩ := iter_yields h.valid.layout.ne_nil h.valid.len_eq
    exact ⟨it, s.toList, hiter, hyields, h.valid.layout.ascending, h.mem, h.exists_key⟩

theorem BTreeMap.Holds.keeps [Keyed Q K] [LawfulFenwickTree F] {c : ℕ} {entries : List (Q × V)}
    {m : BTreeMap Q V F} (h : m.Holds c entries) : m.KeepsInserted entries where
  containsKey k := by
    refine ⟨_, BTreeSet.containsCmp_spec h.valid k, find_isSome.trans ⟨?_, ?_⟩⟩
    · rintro ⟨p, hp, rfl⟩
      obtain ⟨entry, hentry, hkey⟩ := List.mem_map.mp (h.mem p hp)
      exact ⟨entry, hentry, by rw [hkey, Pair.key_eq]⟩
    · rintro ⟨entry, hentry, rfl⟩
      exact h.exists_key entry.1 (List.mem_map_of_mem hentry)
  first := by
    have hhead := isMinimum_head (f := Pair.key) h.valid.layout.ascending (fun _ => rfl) h.mem
      h.exists_key
    rw [firstKeyValue, BTreeSet.first_eq h.valid, Option.map_map]
    exact hhead
  iter := by
    obtain ⟨it, hiter, hyields⟩ := iter_yields h.valid.layout.ne_nil h.valid.len_eq
    refine ⟨it, _, hiter, hyields, List.pairwise_map.mpr h.valid.layout.ascending, fun k => ?_⟩
    rw [← h.value k, List.find?_map, Option.map_map]
    rfl

/-! ## §4 Runs that do not fit -/

namespace BTreeSet

variable [Keyed T K] [LawfulFenwickTree F]

/-- The split of a node of one element that is not above the value: an empty node, and the
element with the value behind it. -/
theorem insertAt_empty_half {s s' : BTreeSet T F} {r : Bool} {pre post : List (List T)} {x v : T}
    (hinner : s.inner = pre ++ [x] :: post) (hone : s.nodeCapacity = 1) (hxv : key x ≤ key v)
    (hins : s.insertAt pre.length v = some (s', r)) :
    s'.inner = pre ++ [] :: (Node.insert [x] v).1 :: post := by
  have hhalve : Node.halve [x] = ([], [x]) := by simp [Node.halve]
  have hnodes : (s.inner.set pre.length []).insertIdx (pre.length + 1) [x] =
      pre ++ [] :: [x] :: post := by
    rw [hinner, set_split]
    have h := insertIdx_split (pre ++ [[]]) post [x]
    simpa using h
  have htarget : (pre ++ [] :: [x] :: post)[pre.length + 1]? = some [x] := by simp
  have hset : (pre ++ [] :: [x] :: post).set (pre.length + 1) (Node.insert [x] v).1 =
      pre ++ [] :: (Node.insert [x] v).1 :: post := by simp
  have hfull : [x].length = s.nodeCapacity := hone.symm
  unfold insertAt at hins
  simp only [hinner, getElem?_split, Option.bind_eq_bind, Option.bind_some, if_pos hfull, hhalve,
    List.getElem?_cons_zero, if_pos hxv] at hins
  rw [← hinner, hnodes] at hins
  simp only [htarget, Option.bind_some, hset] at hins
  split at hins <;> cases hins <;> rfl

omit [LawfulFenwickTree F] in
/-- A lookup that stops at an empty node finds nothing. -/
theorem contains_of_empty [FenwickTree F] {s : BTreeSet T F} {pre post : List (List T)} {q : K}
    (hinner : s.inner = pre ++ [] :: post) (hbelow : Below key pre.flatten q)
    (hpre : ∀ node ∈ pre, node ≠ []) : s.contains q = some false := by
  have hnode : s.inner[pre.length]? = some [] := by simp [hinner]
  have hlocate : s.locateNode q = some pre.length := by
    unfold locateNode partitionPoint
    rw [hinner, List.takeWhile_append_of_pos]
    · simp [clampNode, hnode]
    · intro node hmem
      obtain ⟨a, x, rfl⟩ := (List.eq_nil_or_concat' node).resolve_left (hpre node hmem)
      rw [List.getLast?_concat]
      exact decide_eq_true (hbelow x (List.mem_flatten.mpr ⟨_, hmem, by simp⟩))
  simp [contains, locateValue, hlocate, hnode, elementAt, partitionPoint]

/-- Nodes of one element: the insertion of a present value, or of one above all elements, is
followed by a lookup that misses it. -/
theorem contains_of_not_fits {s s' : BTreeSet T F} {r : Bool} (hs : s.Valid) (hbound : s.Bounded)
    (hone : s.nodeCapacity = 1) (hne : s.toList ≠ []) {v : T}
    (hv : (∃ x ∈ s.toList, key x = key v) ∨ Below key s.toList (key v))
    (hins : s.insert v = some (s', r)) : s'.contains (key v) = some false := by
  obtain ⟨pre, a, b, post, hinner, -, hnode, hlow, hhigh, hstop⟩ :=
    locateValue_spec hs.layout (key v)
  have hlist : s.toList = (pre.flatten ++ a) ++ (b ++ post.flatten) := by simp [toList, hinner]
  have hlen : (a ++ b).length ≤ 1 := hone ▸ hbound (a ++ b) (by simp [hinner])
  have hlayout := hs.layout
  rw [hinner] at hlayout
  obtain ⟨x, hab, hxv⟩ : ∃ x, a ++ b = [x] ∧ key x ≤ key v := by
    cases a with
    | cons x a =>
      have hnil : a ++ b = [] := List.length_eq_zero_iff.mp (by simpa using hlen)
      exact ⟨x, by rw [List.cons_append, hnil], (hlow x (by simp)).le⟩
    | nil =>
      cases b with
      | nil =>
        rw [List.append_nil] at hlayout
        obtain ⟨rfl, rfl⟩ := hlayout.neighbours_of_nil
        exact absurd hlist (by simpa using hne)
      | cons x b =>
        have hnil : b = [] := List.length_eq_zero_iff.mp (by simpa using hlen)
        subst hnil
        refine ⟨x, rfl, ?_⟩
        rcases hv with ⟨y, hy, hyv⟩ | hbelow
        · -- the value is stored behind the cut, where `x` is the first element
          have hasc : Ascending key s.toList := hs.layout.ascending
          rw [hlist] at hy hasc
          rcases List.mem_append.mp hy with hy | hy
          · exact absurd hyv (hlow y hy).ne
          · rcases List.mem_cons.mp hy with rfl | hy
            · exact hyv.le
            · exact hyv ▸ ((ascending_append_cons.mp hasc).2.2.2 y hy).le
        · exact (hbelow x (by simp [hlist])).le
  rw [hab] at hinner hlayout
  have hinsAt : s.insertAt pre.length v = some (s', r) := by
    rw [insert, hnode] at hins
    exact hins
  refine contains_of_empty (insertAt_empty_half hinner hone hxv hinsAt)
    ((below_append ..).mp hlow).1 fun node hmem => ?_
  exact hlayout.nonempty_of_length (Or.inl (List.ne_nil_of_mem hmem)) node (by simp [hmem])

/-- A node of size zero has no upper half. -/
theorem insert_of_zero (v : T) : (withMaximumNodeSize 0 : BTreeSet T F).insert v = none := by
  simp [insert, locateNode, partitionPoint, clampNode, insertAt, withMaximumNodeSize, default,
    Node.halve]

theorem firstGreatest_singleton (v : T) : FirstGreatest [v] := by
  intro first hfirst w hw
  cases hfirst
  rw [List.mem_singleton.mp hw]

/-- The first insertion that does not fit panics, or loses the value it inserts. -/
theorem fits_concat {c : ℕ} {vs : List T} {v : T} (hfits : BTreeSet.Fits c vs)
    (hkeeps : ∃ s : BTreeSet T F, BTreeSet.insertAll c (vs ++ [v]) = some s ∧
      s.KeepsInserted (vs ++ [v])) :
    BTreeSet.Fits c (vs ++ [v]) := by
  obtain ⟨s', hrun', hkeeps⟩ := hkeeps
  obtain ⟨s, hrun, h⟩ := insertAll_spec (F := F) hfits
  rw [insertAll_concat, hrun, Option.bind_some, Option.map_eq_some_iff] at hrun'
  obtain ⟨⟨s₁, r⟩, hins, rfl⟩ := hrun'
  by_cases htwo : 2 ≤ c
  · exact Or.inl htwo
  have hone : c = 1 := by
    refine Nat.le_antisymm (by omega) (Nat.pos_of_ne_zero ?_)
    rintro rfl
    -- a run that fits has made no insertion yet
    rcases hfits with hbad | rfl | ⟨hbad, -⟩
    · exact absurd hbad (by omega)
    · cases hrun
      rw [insert_of_zero] at hins
      cases hins
    · exact absurd hbad (by omega)
  cases vs with
  | nil => exact Or.inr (Or.inr ⟨hone, List.pairwise_singleton _ _, firstGreatest_singleton v⟩)
  | cons first vs =>
    obtain ⟨-, hdistinct, hfirst⟩ := (hfits.resolve_left htwo).resolve_left (by simp)
    obtain ⟨y, hy, -⟩ := h.exists_key first (by simp)
    have hmiss : ∀ hv, s₁.contains (key v) = some false := fun hv =>
      contains_of_not_fits h.valid h.bounded (h.nodeCapacity.trans hone) (List.ne_nil_of_mem hy)
        hv hins
    obtain ⟨found, hcontains, hiff⟩ := hkeeps.contains (key v)
    have hstored : ¬ ((∃ x ∈ s.toList, key x = key v) ∨ Below key s.toList (key v)) := by
      intro hv
      obtain rfl : false = found := Option.some.inj ((hmiss hv).symm.trans hcontains)
      exact absurd (hiff.mpr ⟨v, by simp, rfl⟩) (by simp)
    rw [not_or, h.exists_iff] at hstored
    obtain ⟨habsent, hbelow⟩ := hstored
    refine Or.inr (Or.inr ⟨hone, List.pairwise_append.mpr
      ⟨hdistinct, List.pairwise_singleton _ _, fun w hw x hx => ?_⟩, fun f hf w hw => ?_⟩)
    · rw [List.mem_singleton.mp hx]
      exact fun heq => habsent ⟨w, hw, heq⟩
    · cases hf
      rcases List.mem_append.mp hw with hw | hw
      · exact hfirst first rfl w hw
      · -- some element is not below the value, and the first is the greatest
        rw [List.mem_singleton.mp hw]
        by_contra hlt
        refine hbelow fun x hx => ?_
        exact (hfirst first rfl x (h.mem x hx)).trans_lt (not_le.mp hlt)

end BTreeSet

/-- **Maximum node sizes**: a set keeps what is inserted into it, after every insertion, if and
only if no insertion leaves an empty half; a map does if none leaves one. -/
theorem maximumNodeSize_usable {K' : Type} [LinearOrder K'] [Keyed T K] [Keyed Q K']
    [LawfulFenwickTree F] (c : ℕ) :
    (∀ vs : List T, (∀ ws, ws <+: vs → ∃ s : BTreeSet T F,
        BTreeSet.insertAll c ws = some s ∧ s.KeepsInserted ws) ↔ BTreeSet.Fits c vs) ∧
      ∀ entries : List (Q × V), BTreeMap.Fits c entries → ∀ run, run <+: entries →
        ∃ m : BTreeMap Q V F, BTreeMap.insertAll c run = some m ∧ m.KeepsInserted run := by
  refine ⟨fun vs => ⟨fun hkeeps => ?_, fun hfits ws hws => ?_⟩, fun entries hfits run hrun => ?_⟩
  · induction vs using List.reverseRecOn with
    | nil => exact Or.inr (Or.inl rfl)
    | append_singleton vs v ih =>
      refine BTreeSet.fits_concat (ih fun ws hws => ?_) (hkeeps _ (List.prefix_refl _))
      exact hkeeps ws (hws.trans (List.prefix_append _ _))
  · obtain ⟨rest, rfl⟩ := hws
    obtain ⟨s, heval, h⟩ := BTreeSet.insertAll_spec (F := F) hfits.of_append
    exact ⟨s, heval, h.keeps⟩
  · obtain ⟨rest, rfl⟩ := hrun
    obtain ⟨m, heval, h⟩ := BTreeMap.insertAll_spec (F := F) hfits.of_append
    exact ⟨m, heval, h.keeps⟩

/-- Nodes of two elements, and a descending run into nodes of one. -/
theorem maximumNodeSize_usable_small :
    (∃ s : BTreeSet ℕ CountList, BTreeSet.insertAll 1 [5, 3, 4] = some s ∧
      s.KeepsInserted [5, 3, 4]) ∧
      ∃ m : BTreeMap ℕ ℕ CountList, BTreeMap.insertAll 1 [(5, 7), (5, 8), (3, 9)] = some m ∧
        m.KeepsInserted [(5, 7), (5, 8), (3, 9)] :=
  ⟨((maximumNodeSize_usable (T := ℕ) (Q := ℕ) (V := ℕ) (F := CountList) 1).1 [5, 3, 4]).mpr
      (Or.inr (Or.inr ⟨rfl, by decide, by unfold FirstGreatest; decide⟩)) _ (List.prefix_refl _),
    (maximumNodeSize_usable (T := ℕ) (Q := ℕ) (V := ℕ) (F := CountList) 1).2
      [(5, 7), (5, 8), (3, 9)] (Or.inr (Or.inr ⟨rfl, by unfold FirstGreatest; decide⟩)) _
      (List.prefix_refl _)⟩

/-- With nodes of one element `insert(1)`, `insert(2)` loses both; with nodes of none the first
insertion panics. -/
theorem maximumNodeSize_loses :
    (∃ s : BTreeSet ℕ CountList, BTreeSet.insertAll 1 [1, 2] = some s ∧
        s.contains 1 = some false ∧ s.contains 2 = some false ∧ ¬ s.KeepsInserted [1, 2]) ∧
      (BTreeSet.insertAll 0 [1] : Option (BTreeSet ℕ CountList)) = none ∧
      (∃ m : BTreeMap ℕ ℕ CountList, BTreeMap.insertAll 1 [(1, 7), (2, 8)] = some m ∧
        m.firstKeyValue = none ∧ ¬ m.KeepsInserted [(1, 7), (2, 8)]) ∧
      (BTreeMap.insertAll 0 [(1, 7)] : Option (BTreeMap ℕ ℕ CountList)) = none := by
  refine ⟨⟨⟨[[], [1, 2]], ⟨[0, 2]⟩, 1, 2⟩, by rfl, by rfl, by rfl, fun h => ?_⟩, by rfl,
    ⟨⟨⟨[[], [⟨1, 7⟩, ⟨2, 8⟩]], ⟨[0, 2]⟩, 1, 2⟩⟩, by rfl, by rfl, fun h => ?_⟩, by rfl⟩
  · obtain ⟨r, hcontains, hiff⟩ := h.contains 1
    obtain rfl : false = r := Option.some.inj hcontains
    exact absurd (hiff.mpr ⟨1, by decide, rfl⟩) (by decide)
  · exact absurd h.first (by simp [IsMinimum, BTreeMap.firstKeyValue, BTreeSet.first])

end IndexSet
