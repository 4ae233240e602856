import IndexSet.Cdc.Persisted
import IndexSet.Lib.Maxima

/-!
# Change Events Under a Coarser Order

A multimap can report its changes as those of `Pair`s: `multipair_change_event_into_pair` of
`cdc/change.rs` converts an event, element by element.  `Pair`s are ordered by their keys alone, so
the receiver may then be told of two nodes by the same maximum.

- §1 the conversion;
- §2 `Holds`: the receiver has the vectors of all nodes, each under the key of its maximum;
- §3 `Edited`: what one event says about the vectors.  The receiver follows it as long as the
  maxima stay apart, also when many elements have the same key;
- §4 the two events of a split, which it follows exactly when the maxima of the halves are apart.
-/

namespace IndexSet

open KeyedList

/-! ## §1 The conversion -/

/-- `multipair_change_event_into_pair`, on the event without its identifier. -/
def ChangeEventUnassigned.map {T P : Type} (f : T → P) :
    ChangeEventUnassigned T → ChangeEventUnassigned P
  | .insertAt maxValue value index => .insertAt (f maxValue) (f value) index
  | .removeAt maxValue value index => .removeAt (f maxValue) (f value) index
  | .createNode maxValue => .createNode (f maxValue)
  | .removeNode maxValue => .removeNode (f maxValue)
  | .splitNode maxValue splitIndex => .splitNode (f maxValue) splitIndex

/-- `multipair_change_event_into_pair`. -/
def multipairChangeEventIntoPair {T P : Type} (into : T → P) (ev : ChangeEvent T) :
    ChangeEvent P :=
  ⟨ev.eventId, ev.change.map into⟩

namespace PersistedBTreeMap

variable {P L : Type} [Keyed P L]

/-! ## §2 The vectors of the nodes -/

/-- The maxima of the vectors have different keys. -/
def Apart (nodes : List (List P)) : Prop := (nodes.map (maxKey key)).Nodup

instance [DecidableEq L] (nodes : List (List P)) : Decidable (Apart nodes) :=
  inferInstanceAs (Decidable (List.Nodup _))

/-- The map has the vectors, each under the key of its maximum, and no others. -/
def Holds (m : PersistedBTreeMap L P) (nodes : List (List P)) : Prop :=
  ∀ k l, m.nodes k = some l ↔ l ∈ nodes ∧ maxKey key l = some k

variable {a b : List (List P)} {l : List P} {k : L}

theorem apart_cons_middle :
    Apart (a ++ l :: b) ↔ maxKey key l ∉ (a ++ b).map (maxKey key) ∧ Apart (a ++ b) := by
  rw [Apart, Apart, List.map_append, List.map_cons, List.nodup_middle, List.nodup_cons,
    List.map_append]

theorem holds_nil : (empty : PersistedBTreeMap L P).Holds [] := by
  intro k l
  simp [empty]

/-- Where the other vectors have other maxima, a key is free. -/
theorem Holds.vacant {base : PersistedBTreeMap L P} (h : base.Holds (a ++ b))
    (hapart : Apart (a ++ l :: b)) (hk : maxKey key l = some k) : base.nodes k = none := by
  cases hnode : base.nodes k with
  | none => rfl
  | some other =>
    obtain ⟨hmem, hmax⟩ := (h k other).mp hnode
    obtain ⟨hnot, -⟩ := apart_cons_middle.mp hapart
    exact absurd (List.mem_map.mpr ⟨other, hmem, hmax.trans hk.symm⟩) hnot

variable [LinearOrder L]

/-- A vector put under its maximum, where nothing was. -/
theorem Holds.insert {base : PersistedBTreeMap L P} (h : base.Holds (a ++ b))
    (hbase : base.nodes k = none) (hk : maxKey key l = some k) :
    (base.insert k l).Holds (a ++ l :: b) := by
  have hmem : ∀ x : List P, x ∈ a ++ l :: b ↔ x = l ∨ x ∈ a ++ b := by
    intro x
    simp only [List.mem_append, List.mem_cons]
    tauto
  intro q x
  rw [hmem]
  by_cases hq : q = k
  · subst hq
    rw [nodes_insert_self, Option.some.injEq]
    constructor
    · rintro rfl
      exact ⟨Or.inl rfl, hk⟩
    · rintro ⟨rfl | hx, hmax⟩
      · rfl
      · -- another vector under this key
        have hsome := (h q x).mpr ⟨hx, hmax⟩
        rw [hbase] at hsome
        cases hsome
  · rw [nodes_insert_of_ne hq, h q x]
    constructor
    · rintro ⟨hx, hmax⟩
      exact ⟨Or.inr hx, hmax⟩
    · rintro ⟨rfl | hx, hmax⟩
      · exact absurd (Option.some.inj (hmax.symm.trans hk)) hq
      · exact ⟨hx, hmax⟩

/-- **One vector and the others.** -/
theorem Holds.cut {m : PersistedBTreeMap L P} (h : m.Holds (a ++ l :: b))
    (hapart : Apart (a ++ l :: b)) (hk : maxKey key l = some k) :
    ∃ base : PersistedBTreeMap L P,
      m = base.insert k l ∧ base.Holds (a ++ b) ∧ base.nodes k = none := by
  have hnode : m.nodes k = some l := (h k l).mpr ⟨by simp, hk⟩
  refine ⟨m.remove k, (insert_remove hnode).symm, fun q x => ?_, by simp [remove]⟩
  by_cases hq : q = k
  · subst hq
    have hnot := (apart_cons_middle.mp hapart).1
    constructor
    · simp [remove]
    · rintro ⟨hx, hmax⟩
      exact absurd (List.mem_map.mpr ⟨x, hx, hmax.trans hk.symm⟩) hnot
  · rw [nodes_remove_of_ne hq, h q x]
    constructor
    · rintro ⟨hx, hmax⟩
      refine ⟨?_, hmax⟩
      rcases List.mem_append.mp hx with hx | hx
      · exact List.mem_append_left _ hx
      · rcases List.mem_cons.mp hx with rfl | hx
        · exact absurd (Option.some.inj (hmax.symm.trans hk)) hq
        · exact List.mem_append_right _ hx
    · rintro ⟨hx, hmax⟩
      rcases List.mem_append.mp hx with hx | hx
      · exact ⟨List.mem_append_left _ hx, hmax⟩
      · exact ⟨List.mem_append_right _ (List.mem_cons_of_mem _ hx), hmax⟩

omit [LinearOrder L] in
/-- Vectors without a common element, all of them found under their maxima, have different
maxima. -/
theorem Holds.apart {m : PersistedBTreeMap L P} {nodes : List (List P)} (h : m.Holds nodes)
    (hne : ∀ l ∈ nodes, l ≠ []) (hnodup : nodes.flatten.Nodup) : Apart nodes := by
  obtain ⟨-, hdisjoint⟩ := List.nodup_flatten.mp hnodup
  refine List.pairwise_map.mpr (hdisjoint.imp_of_mem ?_)
  intro l l' hl hl' hll hmax
  obtain ⟨z, hz⟩ : ∃ z, l.getLast? = some z := ⟨_, List.getLast?_eq_some_getLast (hne l hl)⟩
  have hk : maxKey key l = some (key z) := maxKey_of_getLast? hz
  -- both are what the map has under their key
  have hsame := (h _ l).mpr ⟨hl, hk⟩
  rw [(h _ l').mpr ⟨hl', hmax.symm.trans hk⟩, Option.some.injEq] at hsame
  have hmem := List.mem_of_getLast? hz
  exact hll hmem (hsame ▸ hmem)

/-! ## §3 One event -/

/-- **What one event says** about the vectors of the nodes. -/
inductive Edited {T K : Type} [LinearOrder K] [Keyed T K] :
    List (List T) → ChangeEventUnassigned T → List (List T) → Prop where
  | created (v : T) : Edited [] (.createNode v) [[v]]
  /-- A value that does not go above the maximum, or becomes the maximum. -/
  | inserted {a b : List (List T)} {l r : List T} {m v : T} : (l ++ r).getLast? = some m →
      (r ≠ [] → key v ≤ key m) → (r = [] → key m ≤ key v) →
      Edited (a ++ (l ++ r) :: b) (.insertAt m v l.length) (a ++ (l ++ v :: r) :: b)
  | removed {a b : List (List T)} {l r : List T} {m x : T} : (l ++ x :: r).getLast? = some m →
      l ++ r ≠ [] →
      Edited (a ++ (l ++ x :: r) :: b) (.removeAt m x l.length) (a ++ (l ++ r) :: b)
  | dropped {a b : List (List T)} {x m : T} : key m = key x →
      Edited (a ++ [x] :: b) (.removeNode m) (a ++ b)
  | split {a b : List (List T)} {lo hi : List T} {m n : T} : lo.getLast? = some n →
      hi.getLast? = some m →
      Edited (a ++ (lo ++ hi) :: b) (.splitNode m lo.length) (a ++ lo :: hi :: b)

/-- A coarser order is told the same. -/
theorem Edited.map {T K : Type} [LinearOrder K] [Keyed T K] {f : T → P}
    (hf : ∀ x y, key x ≤ key y → key (f x) ≤ key (f y)) {nodes nodes' : List (List T)}
    {change : ChangeEventUnassigned T} (h : Edited nodes change nodes') :
    Edited (nodes.map (List.map f)) (change.map f) (nodes'.map (List.map f)) := by
  cases h with
  | created v => exact .created (f v)
  | inserted hm hle hge =>
    simp only [List.map_append, List.map_cons]
    rw [ChangeEventUnassigned.map, ← List.length_map f]
    refine .inserted ?_ (fun hr => ?_) (fun hr => ?_)
    · rw [← List.map_append, List.getLast?_map, hm, Option.map_some]
    · exact hf _ _ (hle fun hnil => hr (by rw [hnil, List.map_nil]))
    · exact hf _ _ (hge (List.map_eq_nil_iff.mp hr))
  | removed hm hne =>
    simp only [List.map_append, List.map_cons]
    rw [ChangeEventUnassigned.map, ← List.length_map f]
    refine .removed ?_ ?_
    · rw [← List.map_cons, ← List.map_append, List.getLast?_map, hm, Option.map_some]
    · rwa [← List.map_append, ne_eq, List.map_eq_nil_iff]
  | dropped hkey =>
    simp only [List.map_append, List.map_cons, List.map_nil]
    exact .dropped (le_antisymm (hf _ _ hkey.le) (hf _ _ hkey.ge))
  | split hn hm =>
    simp only [List.map_append, List.map_cons]
    rw [ChangeEventUnassigned.map, ← List.length_map f]
    exact .split (by rw [List.getLast?_map, hn, Option.map_some])
      (by rw [List.getLast?_map, hm, Option.map_some])

variable {base m : PersistedBTreeMap L P} {mx v x : P} {r : List P}

/-- An element added at the end, above the maximum or level with it. -/
theorem persist_insertAt_last (hbase : base.nodes (key mx) = none) (hle : key mx ≤ key v) :
    (base.insert (key mx) l).persistChange (.insertAt mx v l.length) =
      some (base.insert (key v) (l ++ [v])) := by
  rcases lt_or_eq_of_le hle with hlt | heq
  · exact persist_insertAt_raised hbase hlt
  · -- the vector stays where it is
    have h : (base.insert (key mx) (l ++ [])).persistChange (.insertAt mx v l.length) =
        some (base.insert (key mx) (l ++ [v])) := persist_insertAt_inside heq.ge
    rw [List.append_nil] at h
    rw [h, heq]

/-- An element removed below the maximum, or level with it: the vector moves from its key to
the same key. -/
theorem persist_removeAt_below (hbase : base.nodes (key mx) = none)
    (hm : (l ++ r).getLast? = some mx) :
    (base.insert (key mx) (l ++ x :: r)).persistChange (.removeAt mx x l.length) =
      some (base.insert (key mx) (l ++ r)) := by
  by_cases hkey : key mx = key x
  · rw [hkey] at hbase ⊢
    simp [persistChange, vecRemove, eraseIdx_split, hkey, hm, remove_insert hbase]
  · exact persist_removeAt_inside hkey

/-- **The receiver follows the event**, from vectors whose maxima are apart to such vectors. -/
theorem Edited.persist {nodes nodes' : List (List P)} {change : ChangeEventUnassigned P}
    (h : Edited nodes change nodes') (hm : m.Holds nodes) (hapart : Apart nodes)
    (hapart' : Apart nodes') :
    ∃ m', m.persistChange change = some m' ∧ m'.Holds nodes' := by
  cases h with
  | created v =>
    have hvacant : m.nodes (key v) = none :=
      Holds.vacant (a := []) (b := []) hm hapart' rfl
    exact ⟨_, persist_createNode, Holds.insert (a := []) (b := []) hm hvacant rfl⟩
  | @inserted a b l r mx v hlast hle hge =>
    obtain ⟨base, rfl, hbase, hvacant⟩ := hm.cut hapart (maxKey_of_getLast? hlast)
    rcases eq_or_ne r [] with rfl | hr
    · -- at the end
      have hk : maxKey key (l ++ [v]) = some (key v) := maxKey_concat ..
      rw [List.append_nil] at hlast ⊢
      exact ⟨_, persist_insertAt_last hvacant (hge rfl),
        hbase.insert (hbase.vacant hapart' hk) hk⟩
    · have hk : maxKey key (l ++ v :: r) = some (key mx) := by
        rw [maxKey_put_inside rfl hr, maxKey_of_getLast? hlast]
      exact ⟨_, persist_insertAt_inside (hle hr), hbase.insert hvacant hk⟩
  | @removed a b l r mx x hlast hne =>
    obtain ⟨base, rfl, hbase, hvacant⟩ := hm.cut hapart (maxKey_of_getLast? hlast)
    rcases eq_or_ne r [] with rfl | hr
    · -- the maximum goes
      rw [List.getLast?_concat, Option.some.injEq] at hlast
      subst hlast
      rw [List.append_nil] at hne hapart' ⊢
      obtain ⟨z, hz⟩ : ∃ z, l.getLast? = some z := ⟨_, List.getLast?_eq_some_getLast hne⟩
      have hk : maxKey key l = some (key z) := maxKey_of_getLast? hz
      exact ⟨_, persist_removeAt_max hvacant rfl hz, hbase.insert (hbase.vacant hapart' hk) hk⟩
    · have hlast' : (l ++ r).getLast? = some mx := by
        rw [List.getLast?_append_of_ne_nil _ (List.cons_ne_nil x r),
          List.getLast?_cons_of_ne_nil hr] at hlast
        rw [List.getLast?_append_of_ne_nil _ hr, hlast]
      exact ⟨_, persist_removeAt_below hvacant hlast',
        hbase.insert hvacant (maxKey_of_getLast? hlast')⟩
  | @dropped a b x mx hkey =>
    obtain ⟨base, rfl, hbase, hvacant⟩ := hm.cut (k := key mx) hapart (by rw [hkey]; rfl)
    exact ⟨base, persist_removeNode hvacant, hbase⟩
  | @split a b lo hi mx n hlo hhi =>
    have hlast : (lo ++ hi).getLast? = some mx := by
      rw [List.getLast?_append_of_ne_nil _ (List.ne_nil_of_mem (List.mem_of_getLast? hhi)), hhi]
    obtain ⟨base, rfl, hbase, hvacant⟩ := hm.cut hapart (maxKey_of_getLast? hlast)
    have hupper := hbase.insert hvacant (maxKey_of_getLast? hhi)
    have hk : maxKey key lo = some (key n) := maxKey_of_getLast? hlo
    exact ⟨_, persist_splitNode hvacant hlo hhi, hupper.insert (hupper.vacant hapart' hk) hk⟩

/-- The receiver follows the event exactly when the maxima are apart after it. -/
theorem Edited.followed_iff {nodes nodes' : List (List P)} {change : ChangeEventUnassigned P}
    (h : Edited nodes change nodes') (hm : m.Holds nodes) (hapart : Apart nodes)
    (hne : ∀ node ∈ nodes', node ≠ []) (hnodup : nodes'.flatten.Nodup) :
    (∃ m', m.persistAll [change] = some m' ∧ m'.Holds nodes') ↔ Apart nodes' := by
  constructor
  · rintro ⟨m', -, hholds⟩
    exact hholds.apart hne hnodup
  · intro hapart'
    obtain ⟨m', hpersist, hholds⟩ := h.persist hm hapart hapart'
    exact ⟨m', by rw [persistAll_singleton, hpersist], hholds⟩

/-! ## §4 A split and the value that goes into a half

Between the two events the receiver has the halves without the value. -/

variable {lo hi lo' hi' : List P} {n : P}

omit [LinearOrder L] in
/-- The halves are apart when their maxima are, and the lower maximum stays. -/
theorem Apart.halves (hapart : Apart (a ++ (lo ++ hi) :: b))
    (hapart' : Apart (a ++ lo' :: hi' :: b)) (hhi : maxKey key (lo ++ hi) = maxKey key hi)
    (hlo : maxKey key lo' = maxKey key lo) (hne : maxKey key lo ≠ maxKey key hi) :
    Apart (a ++ lo :: hi :: b) := by
  obtain ⟨hupper, hothers⟩ := apart_cons_middle.mp hapart
  obtain ⟨hlower, -⟩ := apart_cons_middle.mp hapart'
  rw [hhi] at hupper
  rw [hlo] at hlower
  refine apart_cons_middle.mpr ⟨?_, apart_cons_middle.mpr ⟨hupper, hothers⟩⟩
  simp only [List.map_append, List.map_cons, List.mem_append, List.mem_cons, not_or] at hlower ⊢
  exact ⟨hlower.1, hne, hlower.2.2⟩

/-- A value above the maximum takes its vector along to another key. -/
theorem persist_insertAt_moves {m' : PersistedBTreeMap L P} {i : ℕ} (hlt : key mx < key v)
    (h : (base.insert (key mx) l).persistChange (.insertAt mx v i) = some m') :
    m'.nodes (key mx) = none := by
  simp only [persistChange, nodes_insert_self, vecInsert] at h
  split at h
  · simp only [Option.map_some, insert_insert, Option.bind_eq_bind, Option.bind_some,
      nodes_insert_self, Option.some.injEq] at h
    rw [← h, nodes_insert_of_ne hlt.ne]
    simp [remove]
  · simp at h

/-- **The lower half takes the value**, not above its maximum. -/
theorem Holds.split_lower_iff (hm : m.Holds (a ++ (l ++ r ++ hi) :: b))
    (hapart : Apart (a ++ (l ++ r ++ hi) :: b)) (hlo : (l ++ r).getLast? = some n)
    (hhi : hi.getLast? = some mx) (hr : r ≠ []) (hle : key v ≤ key n)
    (hne : ∀ node ∈ a ++ (l ++ v :: r) :: hi :: b, node ≠ [])
    (hnodup : (a ++ (l ++ v :: r) :: hi :: b).flatten.Nodup) :
    (∃ m', m.persistAll [.splitNode mx (l ++ r).length, .insertAt n v l.length] = some m' ∧
        m'.Holds (a ++ (l ++ v :: r) :: hi :: b)) ↔
      key n ≠ key mx ∧ Apart (a ++ (l ++ v :: r) :: hi :: b) := by
  have hlower : maxKey key (l ++ r) = some (key n) := maxKey_of_getLast? hlo
  have hupper : maxKey key hi = some (key mx) := maxKey_of_getLast? hhi
  have hwhole : maxKey key (l ++ r ++ hi) = maxKey key hi :=
    maxKey_append_of_ne_nil _ (List.ne_nil_of_mem (List.mem_of_getLast? hhi))
  have hkeep : maxKey key (l ++ v :: r) = maxKey key (l ++ r) := maxKey_put_inside rfl hr
  constructor
  · rintro ⟨m', -, hholds⟩
    have hapart' := hholds.apart hne hnodup
    refine ⟨fun hkey => ?_, hapart'⟩
    obtain ⟨hnot, -⟩ := apart_cons_middle.mp hapart'
    rw [hkeep, hlower, hkey, ← hupper] at hnot
    exact hnot (by simp)
  · rintro ⟨hkey, hapart'⟩
    have hmid : Apart (a ++ (l ++ r) :: hi :: b) :=
      hapart.halves hapart' hwhole hkeep (by rw [hlower, hupper]; simpa using hkey)
    obtain ⟨m₁, hsplit, hm₁⟩ := (Edited.split hlo hhi).persist hm hapart hmid
    obtain ⟨m', hinsert, hm'⟩ :=
      (Edited.inserted hlo (fun _ => hle) (fun hnil => absurd hnil hr)).persist hm₁ hmid hapart'
    exact ⟨m', by rw [persistAll_cons hsplit, persistAll_singleton, hinsert], hm'⟩

/-- **The upper half takes the value.**  If its maximum was level with that of the lower half, the
receiver has lost one of the halves. -/
theorem Holds.split_upper_iff (hm : m.Holds (a ++ (lo ++ (l ++ r)) :: b))
    (hapart : Apart (a ++ (lo ++ (l ++ r)) :: b)) (hlo : lo.getLast? = some n)
    (hhi : (l ++ r).getLast? = some mx) (hle : r ≠ [] → key v ≤ key mx)
    (hge : r = [] → key mx ≤ key v)
    (hne : ∀ node ∈ a ++ lo :: (l ++ v :: r) :: b, node ≠ [])
    (hnodup : (a ++ lo :: (l ++ v :: r) :: b).flatten.Nodup) :
    (∃ m', m.persistAll [.splitNode mx lo.length, .insertAt mx v l.length] = some m' ∧
        m'.Holds (a ++ lo :: (l ++ v :: r) :: b)) ↔
      key n ≠ key mx ∧ Apart (a ++ lo :: (l ++ v :: r) :: b) := by
  have hlower : maxKey key lo = some (key n) := maxKey_of_getLast? hlo
  have hupper : maxKey key (l ++ r) = some (key mx) := maxKey_of_getLast? hhi
  have hwhole : maxKey key (lo ++ (l ++ r)) = maxKey key (l ++ r) :=
    maxKey_append_of_ne_nil _ (List.ne_nil_of_mem (List.mem_of_getLast? hhi))
  constructor
  · rintro ⟨m', hpersist, hholds⟩
    have hapart' := hholds.apart hne hnodup
    refine ⟨fun hkey => ?_, hapart'⟩
    have hlost : m'.nodes (key n) = some lo := (hholds _ _).mpr ⟨by simp, hlower⟩
    obtain ⟨hnot, -⟩ := apart_cons_middle.mp hapart'
    rcases eq_or_ne r [] with rfl | hr
    · -- the value is above both maxima, and takes the lower half along
      have hlevel : key n ≠ key v := by
        intro hkey'
        refine hnot ?_
        rw [hlower, hkey']
        simp [maxKey]
      have hlt : key mx < key v := lt_of_le_of_ne (hge rfl) (hkey ▸ hlevel)
      obtain ⟨base, rfl, -, hvacant⟩ := hm.cut hapart (hwhole.trans hupper)
      rw [persistAll_cons (persist_splitNode hvacant hlo hhi), persistAll_singleton, hkey,
        insert_insert] at hpersist
      rw [hkey, persist_insertAt_moves hlt hpersist] at hlost
      cases hlost
    · -- the maximum stays
      have hkeep : maxKey key (l ++ v :: r) = maxKey key (l ++ r) := maxKey_put_inside rfl hr
      rw [hlower, hkey, ← hupper, ← hkeep] at hnot
      exact hnot (by simp)
  · rintro ⟨hkey, hapart'⟩
    have hmid : Apart (a ++ lo :: (l ++ r) :: b) :=
      hapart.halves hapart' hwhole rfl (by rw [hlower, hupper]; simpa using hkey)
    obtain ⟨m₁, hsplit, hm₁⟩ := (Edited.split hlo hhi).persist hm hapart hmid
    have hinsertion := Edited.inserted (a := a ++ [lo]) (b := b) hhi hle hge
    rw [List.append_assoc, List.append_assoc, List.singleton_append, List.singleton_append]
      at hinsertion
    obtain ⟨m', hinsert, hm'⟩ := hinsertion.persist hm₁ hmid hapart'
    exact ⟨m', by rw [persistAll_cons hsplit, persistAll_singleton, hinsert], hm'⟩

end PersistedBTreeMap

end IndexSet
