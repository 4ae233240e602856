import IndexSet.SingleThreaded.Refinement

/-!
# The Fields That Describe the Nodes

`len` and `index` follow from `inner` in every set and map the public methods reach — also
with maximum node sizes below two, where the elements themselves may get out of order.

- `insert_at`, `delete_at`, `split_off` and in-place writes keep `Consistent`;
- `Reached.consistent`: so does every method, each being a composition of these.
-/

namespace IndexSet

open KeyedList

variable {T Q V F K : Type} [LinearOrder K]

/-! ## §1 The four ways to change a set -/

namespace BTreeSet

/-- `len` and `index` say what `inner` holds. -/
structure Consistent [LawfulFenwickTree F] (s : BTreeSet T F) : Prop where
  len_eq : s.len = s.toList.length
  index_eq : LawfulFenwickTree.counts s.index = s.inner.map List.length

section Primitives

variable [LawfulFenwickTree F] {s s' : BTreeSet T F}

theorem consistent_withMaximumNodeSize (c : ℕ) :
    (withMaximumNodeSize c : BTreeSet T F).Consistent :=
  ⟨rfl, LawfulFenwickTree.counts_fromIter [0]⟩

theorem consistent_clear (s : BTreeSet T F) : s.clear.Consistent :=
  ⟨rfl, LawfulFenwickTree.counts_fromIter [0]⟩

/-- Fields recomputed from the nodes. -/
theorem consistent_of_lengthIndex {inner : List (List T)} {c len : ℕ}
    (hlen : len = (inner.map List.length).sum) :
    (⟨inner, lengthIndex inner, c, len⟩ : BTreeSet T F).Consistent :=
  ⟨by rw [hlen, toList, List.length_flatten], LawfulFenwickTree.counts_fromIter _⟩

theorem Consistent.len_eq_sum (hs : s.Consistent) : s.len = (s.inner.map List.length).sum := by
  rw [hs.len_eq, toList, List.length_flatten]

/-- Writing items in place. -/
theorem Consistent.congr (hs : s.Consistent) {inner : List (List T)}
    (h : inner.map List.length = s.inner.map List.length) :
    ({ s with inner } : BTreeSet T F).Consistent :=
  ⟨by rw [hs.len_eq_sum, toList, List.length_flatten, h], hs.index_eq.trans h.symm⟩

theorem Consistent.modifyAt (hs : s.Consistent) (i j : ℕ) (write : T → T) :
    (s.modifyAt i j write).Consistent :=
  hs.congr (map_modify_of_comp (f := List.length) (fun node => by simp) s.inner i)

omit [LawfulFenwickTree F] in
/-- A node that is there cuts the nodes. -/
theorem exists_cut_of_getElem? {inner : List (List T)} {i : ℕ} {node : List T}
    (h : inner[i]? = some node) : ∃ pre post, inner = pre ++ node :: post ∧ i = pre.length := by
  obtain ⟨hi, rfl⟩ := List.getElem?_eq_some_iff.mp h
  refine ⟨inner.take i, inner.drop (i + 1), ?_, (List.length_take_of_le hi.le).symm⟩
  rw [List.getElem_cons_drop, List.take_append_drop]

/-- The lengths after one node is replaced. -/
theorem sum_length_set {inner : List (List T)} {i : ℕ} {node l : List T}
    (h : inner[i]? = some node) :
    ((inner.set i l).map List.length).sum + node.length =
      (inner.map List.length).sum + l.length := by
  obtain ⟨pre, post, rfl, rfl⟩ := exists_cut_of_getElem? h
  rw [set_split]
  simp only [List.map_append, List.map_cons, List.sum_append, List.sum_cons]
  omega

variable [Keyed T K]

/-- `insert_at` counts what it adds, on nodes in any order. -/
theorem Consistent.insertAt (hs : s.Consistent) {nodeIdx : ℕ} {value : T} {r : Bool}
    (h : s.insertAt nodeIdx value = some (s', r)) : s'.Consistent := by
  simp only [BTreeSet.insertAt, Option.bind_eq_bind, Option.bind_eq_some_iff] at h
  obtain ⟨node, hnode, h⟩ := h
  split at h
  · -- the node is halved, and the index rebuilt
    simp only [Option.bind_eq_some_iff] at h
    obtain ⟨front, -, target, htarget, h⟩ := h
    obtain ⟨pre, post, hinner, rfl⟩ := exists_cut_of_getElem? hnode
    have hsplit : ((s.inner.set pre.length (Node.halve node).1).insertIdx (pre.length + 1)
        (Node.halve node).2) = pre ++ (Node.halve node).1 :: (Node.halve node).2 :: post := by
      rw [hinner, set_split]
      simpa using insertIdx_split (pre ++ [(Node.halve node).1]) post (Node.halve node).2
    have hhalves := congrArg List.length (Node.halve_append node)
    rw [List.length_append] at hhalves
    have hsum := sum_length_set (l := (Node.insert target value).1) htarget
    have hlen := hs.len_eq_sum
    have hins := Node.length_insert target value
    rw [hsplit] at hsum h
    simp only [hinner, List.map_append, List.map_cons, List.sum_append, List.sum_cons] at hsum hlen
    split at h
    next hnew =>
      cases h
      rw [if_pos hnew] at hins
      exact consistent_of_lengthIndex (by omega)
    next hnew =>
      cases h
      rw [if_neg hnew] at hins
      exact consistent_of_lengthIndex (by omega)
  · obtain ⟨pre, post, hinner, rfl⟩ := exists_cut_of_getElem? hnode
    have hins := Node.length_insert node value
    have hsum := sum_length_set (l := (Node.insert node value).1) hnode
    have hlen := hs.len_eq_sum
    split at h
    next hnew =>
      cases h
      rw [if_pos hnew] at hins
      refine ⟨?_, ?_⟩
      · show s.len + 1 = (s.inner.set pre.length (Node.insert node value).1).flatten.length
        rw [List.length_flatten]
        omega
      · show _ = (s.inner.set pre.length (Node.insert node value).1).map List.length
        rw [counts_addAt_split hs.index_eq hinner hins, hinner, set_split]
    next hnew =>
      cases h
      rw [if_neg hnew] at hins
      refine hs.congr ?_
      rw [hinner, set_split, List.map_append, List.map_append, List.map_cons, List.map_cons, hins]

/-- `delete_at` counts what it removes. -/
theorem Consistent.deleteAt (hs : s.Consistent) {i j : ℕ} {r : T}
    (h : s.deleteAt i j = some (s', r)) : s'.Consistent := by
  simp only [BTreeSet.deleteAt, Option.bind_eq_bind, Option.bind_eq_some_iff] at h
  obtain ⟨node, hnode, removal, hremoval, h⟩ := h
  obtain ⟨hj, -⟩ := List.getElem?_eq_some_iff.mp hremoval
  obtain ⟨pre, post, hinner, rfl⟩ := exists_cut_of_getElem? hnode
  have hsum := sum_length_set (l := node.eraseIdx j) hnode
  have hlen := hs.len_eq_sum
  have herase : (node.eraseIdx j).length = node.length - 1 := List.length_eraseIdx_of_lt hj
  split at h
  next hgone =>
    simp only [Option.bind_eq_some_iff, checkedSub] at h
    obtain ⟨len, hle, h⟩ := h
    split at hle <;> cases hle
    cases h
    refine consistent_of_lengthIndex ?_
    have hempty := List.isEmpty_iff.mp hgone.1
    rw [hinner, set_split] at hsum ⊢
    rw [eraseIdx_split]
    rw [hempty] at hsum herase
    simp only [List.map_append, List.map_cons, List.sum_append, List.sum_cons, hinner,
      List.length_nil] at hsum hlen herase ⊢
    omega
  · simp only [Option.bind_eq_some_iff, checkedSub] at h
    obtain ⟨len, hle, h⟩ := h
    split at hle <;> cases hle
    cases h
    refine ⟨?_, ?_⟩
    · show s.len - 1 = (s.inner.set pre.length (node.eraseIdx j)).flatten.length
      rw [List.length_flatten]
      omega
    · show _ = (s.inner.set pre.length (node.eraseIdx j)).map List.length
      rw [counts_subAt_split hs.index_eq hinner (r := node.eraseIdx j) (by omega), hinner,
        set_split]

/-- `split_off` recomputes both halves. -/
theorem consistent_splitOffAt {i j : ℕ} {latter : BTreeSet T F}
    (h : s.splitOffAt i j = some (s', latter)) : s'.Consistent ∧ latter.Consistent := by
  simp only [BTreeSet.splitOffAt, Option.bind_eq_bind, Option.bind_eq_some_iff] at h
  obtain ⟨node, -, -, -, node', -, h⟩ := h
  cases h
  exact ⟨consistent_of_lengthIndex rfl, consistent_of_lengthIndex rfl⟩

theorem Consistent.deleteEach (hs : s.Consistent) {ps : List (ℕ × ℕ)}
    (h : s.deleteEach ps = some s') : s'.Consistent := by
  induction ps generalizing s with
  | nil =>
    cases h
    exact hs
  | cons p ps ih =>
    rw [BTreeSet.deleteEach, List.foldlM_cons] at h
    obtain ⟨s₁, hmap, h⟩ := Option.bind_eq_some_iff.mp h
    obtain ⟨⟨s₂, r⟩, hdel, rfl⟩ := Option.map_eq_some_iff.mp hmap
    exact ih (hs.deleteAt hdel) h

end Primitives

/-! ## §2 Every method -/

section Methods

variable [Keyed T K] [LawfulFenwickTree F] {s s' : BTreeSet T F}

theorem Consistent.insert (hs : s.Consistent) {v : T} {r : Bool}
    (h : s.insert v = some (s', r)) : s'.Consistent := by
  obtain ⟨nodeIdx, -, h⟩ := Option.bind_eq_some_iff.mp h
  exact hs.insertAt h

theorem Consistent.delete (hs : s.Consistent) {q : K} {r : Option T × Bool}
    (h : s.delete q = some (s', r)) : s'.Consistent := by
  simp only [BTreeSet.delete, Option.bind_eq_bind, Option.bind_eq_some_iff] at h
  obtain ⟨⟨i, j⟩, -, h⟩ := h
  split at h
  · split at h
    · obtain ⟨⟨s₁, removal⟩, hdel, h⟩ := Option.bind_eq_some_iff.mp h
      cases h
      exact hs.deleteAt hdel
    · cases h
      exact hs
  · cases h
    exact hs

theorem Consistent.deleteCmp (hs : s.Consistent) {cmp cmp2 : T → Bool} {r : Option T × Bool}
    (h : s.deleteCmp cmp cmp2 = some (s', r)) : s'.Consistent := by
  simp only [BTreeSet.deleteCmp, Option.bind_eq_bind, Option.bind_eq_some_iff] at h
  obtain ⟨entry, -, h⟩ := h
  split at h
  · obtain ⟨⟨s₁, removal⟩, hdel, h⟩ := Option.bind_eq_some_iff.mp h
    cases h
    exact hs.deleteAt hdel
  · cases h
    exact hs

theorem Consistent.remove (hs : s.Consistent) {q : K} {r : Bool}
    (h : s.remove q = some (s', r)) : s'.Consistent := by
  obtain ⟨⟨s₁, removal, removed⟩, hdel, h⟩ := Option.bind_eq_some_iff.mp h
  cases h
  exact hs.delete hdel

theorem Consistent.take (hs : s.Consistent) {q : K} {r : Option T}
    (h : s.take q = some (s', r)) : s'.Consistent := by
  obtain ⟨⟨s₁, removal, removed⟩, hdel, h⟩ := Option.bind_eq_some_iff.mp h
  cases h
  exact hs.delete hdel

theorem Consistent.replace (hs : s.Consistent) {v : T} {r : Option T}
    (h : s.replace v = some (s', r)) : s'.Consistent := by
  obtain ⟨⟨s₁, replaced⟩, htake, h⟩ := Option.bind_eq_some_iff.mp h
  obtain ⟨⟨s₂, inserted⟩, hins, h⟩ := Option.bind_eq_some_iff.mp h
  cases h
  exact (hs.take htake).insert hins

theorem Consistent.popFirst (hs : s.Consistent) {r : Option T}
    (h : s.popFirst = some (s', r)) : s'.Consistent := by
  unfold BTreeSet.popFirst at h
  split at h
  · obtain ⟨⟨s₁, removal⟩, hdel, h⟩ := Option.bind_eq_some_iff.mp h
    cases h
    exact hs.deleteAt hdel
  · cases h
    exact hs

theorem Consistent.popLast (hs : s.Consistent) {r : Option T}
    (h : s.popLast = some (s', r)) : s'.Consistent := by
  simp only [BTreeSet.popLast, Option.bind_eq_bind, Option.bind_eq_some_iff] at h
  obtain ⟨lastNodeIdx, -, node, -, h⟩ := h
  split at h
  · obtain ⟨⟨s₁, removal⟩, hdel, h⟩ := Option.bind_eq_some_iff.mp h
    cases h
    exact hs.deleteAt hdel
  · cases h
    exact hs

theorem Consistent.popIndex (hs : s.Consistent) {i : ℕ} {r : T}
    (h : s.popIndex i = some (s', r)) : s'.Consistent := by
  obtain ⟨⟨nodeIdx, position⟩, -, h⟩ := Option.bind_eq_some_iff.mp h
  exact hs.deleteAt h

omit [LinearOrder K] in
theorem Consistent.retainWith (hs : s.Consistent) {σ : Type} {f : σ → T → Bool × T × σ}
    (hf : ∀ st x, key (f st x).2.1 = key x) {st st' : σ}
    (h : s.retainWith f st = some (s', st')) : s'.Consistent := by
  simp only [BTreeSet.retainWith, Option.bind_eq_bind, Option.bind_eq_some_iff] at h
  obtain ⟨s₁, heach, h⟩ := h
  cases h
  have hkeys := scanInner_keys f hf 0 s.inner st
  have hlengths := congrArg (List.map List.length) hkeys
  simp only [List.map_map, Function.comp_def, List.length_map] at hlengths
  exact (hs.congr hlengths).deleteEach heach

theorem Consistent.append {other other' : BTreeSet T F} (hs : s.Consistent)
    (hother : other.Consistent) (h : s.append other = some (s', other')) :
    s'.Consistent ∧ other'.Consistent := by
  have hloop : ∀ (fuel : ℕ) {s other : BTreeSet T F}, s.Consistent → other.Consistent →
      appendLoop fuel s other = some (s', other') → s'.Consistent ∧ other'.Consistent := by
    intro fuel
    induction fuel with
    | zero => intro s other _ _ h; cases h
    | succ fuel ih =>
      intro s other hs hother h
      simp only [appendLoop, Option.bind_eq_bind, Option.bind_eq_some_iff] at h
      obtain ⟨⟨other₁, popped⟩, hpop, h⟩ := h
      have hother₁ := hother.popFirst hpop
      cases popped with
      | none =>
        cases h
        exact ⟨hs, hother₁⟩
      | some value =>
        obtain ⟨⟨s₁, replaced⟩, hrep, h⟩ := Option.bind_eq_some_iff.mp h
        exact ih (hs.replace hrep) hother₁ h
  exact hloop _ hs hother h

theorem consistent_splitOff {q : K} {latter : BTreeSet T F}
    (h : s.splitOff q = some (s', latter)) : s'.Consistent ∧ latter.Consistent := by
  obtain ⟨⟨nodeIdx, position⟩, -, h⟩ := Option.bind_eq_some_iff.mp h
  exact consistent_splitOffAt h

theorem consistent_splitOffCmp {cmp : T → Bool} {latter : BTreeSet T F}
    (h : s.splitOffCmp cmp = some (s', latter)) : s'.Consistent ∧ latter.Consistent := by
  obtain ⟨⟨nodeIdx, position⟩, -, h⟩ := Option.bind_eq_some_iff.mp h
  exact consistent_splitOffAt h

theorem Reached.consistent {least : ℕ} (h : s.Reached least) : s.Consistent := by
  induction h with
  | withMaximumNodeSize c _ => exact consistent_withMaximumNodeSize c
  | new => exact consistent_withMaximumNodeSize defaultInnerSize
  | insert _ hres ih => exact ih.insert hres
  | replace _ hres ih => exact ih.replace hres
  | remove _ hres ih => exact ih.remove hres
  | take _ hres ih => exact ih.take hres
  | popFirst _ hres ih => exact ih.popFirst hres
  | popLast _ hres ih => exact ih.popLast hres
  | popIndex _ _ hres ih => exact ih.popIndex hres
  | retain _ hres ih => exact ih.retainWith (fun _ _ => rfl) hres
  | appendSelf _ _ hres ih ih' => exact (ih.append ih' hres).1
  | appendOther _ _ hres ih ih' => exact (ih.append ih' hres).2
  | splitOffSelf _ hres _ => exact (consistent_splitOff hres).1
  | splitOffLatter _ hres _ => exact (consistent_splitOff hres).2
  | clear _ _ => exact consistent_clear _

end Methods

end BTreeSet

namespace BTreeMap

variable [Keyed Q K] [LawfulFenwickTree F] {m m' : BTreeMap Q V F}

/-- The set a map holds is consistent. -/
def Consistent (m : BTreeMap Q V F) : Prop := m.set.Consistent

theorem Consistent.insert (hm : m.Consistent) {k : Q} {v : V} {r : Option V}
    (h : m.insert k v = some (m', r)) : m'.Consistent := by
  simp only [BTreeMap.insert, Option.bind_eq_bind, Option.bind_eq_some_iff] at h
  obtain ⟨entry, -, h⟩ := h
  split at h
  · obtain ⟨old, -, h⟩ := Option.bind_eq_some_iff.mp h
    cases h
    exact BTreeSet.Consistent.modifyAt hm _ _ _
  · obtain ⟨⟨set, r⟩, hins, h⟩ := Option.bind_eq_some_iff.mp h
    cases h
    exact BTreeSet.Consistent.insertAt hm hins

theorem Consistent.getMutIndex (hm : m.Consistent) {i : ℕ} {write : V → V} {r : Option V}
    (h : m.getMutIndex i write = some (m', r)) : m'.Consistent := by
  simp only [BTreeMap.getMutIndex, Option.bind_eq_bind, Option.bind_eq_some_iff] at h
  obtain ⟨⟨nodeIdx, position⟩, -, h⟩ := h
  split at h
  · cases h
    exact BTreeSet.Consistent.modifyAt hm _ _ _
  · cases h
    exact hm

theorem Consistent.getMut (hm : m.Consistent) {k : K} {write : V → V} {r : Option V}
    (h : m.getMut k write = some (m', r)) : m'.Consistent := by
  simp only [BTreeMap.getMut, Option.bind_eq_bind, Option.bind_eq_some_iff] at h
  obtain ⟨⟨nodeIdx, position⟩, -, h⟩ := h
  split at h
  · split at h
    · cases h
      exact BTreeSet.Consistent.modifyAt hm _ _ _
    · cases h
      exact hm
  · cases h
    exact hm

theorem Consistent.popIndex (hm : m.Consistent) {i : ℕ} {r : Q × V}
    (h : m.popIndex i = some (m', r)) : m'.Consistent := by
  obtain ⟨⟨set, popping⟩, hpop, h⟩ := Option.bind_eq_some_iff.mp h
  cases h
  exact BTreeSet.Consistent.popIndex hm hpop

omit [LawfulFenwickTree F] in
/-- An entry of a map is an entry of that map. -/
theorem entry_map [FenwickTree F] {k : Q} {e : Entry Q V F} (h : m.entry k = some e) :
    (∃ i, e = .occupied ⟨m, i⟩) ∨ e = .vacant ⟨m, k⟩ := by
  simp only [BTreeMap.entry, Option.bind_eq_bind, Option.bind_eq_some_iff] at h
  obtain ⟨present, -, h⟩ := h
  split at h
  · obtain ⟨i, -, h⟩ := Option.bind_eq_some_iff.mp h
    cases h
    exact Or.inl ⟨i, rfl⟩
  · cases h
    exact Or.inr rfl

theorem Consistent.occupiedGetMut {e : OccupiedEntry Q V F} (hm : e.map.Consistent)
    {write : V → V} {r : V} (h : e.getMut write = some (m', r)) : m'.Consistent := by
  obtain ⟨⟨map, value⟩, hget, h⟩ := Option.bind_eq_some_iff.mp h
  obtain ⟨value', -, h⟩ := Option.bind_eq_some_iff.mp h
  cases h
  exact hm.getMutIndex hget

theorem Consistent.orInsert (hm : m.Consistent) {k : Q} {e : Entry Q V F}
    (hentry : m.entry k = some e) {default : V} {write : V → V} {r : V}
    (h : e.orInsert default write = some (m', r)) : m'.Consistent := by
  rcases entry_map hentry with ⟨i, rfl⟩ | rfl
  · exact Consistent.occupiedGetMut (e := ⟨m, i⟩) hm h
  · obtain ⟨rank, -, h⟩ := Option.bind_eq_some_iff.mp h
    obtain ⟨⟨map, old⟩, hins, h⟩ := Option.bind_eq_some_iff.mp h
    obtain ⟨⟨map', value⟩, hget, h⟩ := Option.bind_eq_some_iff.mp h
    obtain ⟨value', -, h⟩ := Option.bind_eq_some_iff.mp h
    cases h
    exact (hm.insert hins).getMutIndex hget

theorem Reached.consistent {least : ℕ} (h : m.Reached least) : m.Consistent := by
  induction h with
  | withMaximumNodeSize c _ => exact BTreeSet.consistent_withMaximumNodeSize c
  | new => exact BTreeSet.consistent_withMaximumNodeSize defaultInnerSize
  | insert _ hres ih => exact ih.insert hres
  | remove _ hres ih =>
    obtain ⟨⟨set, removal, removed⟩, hdel, hres⟩ := Option.bind_eq_some_iff.mp hres
    cases hres
    exact BTreeSet.Consistent.deleteCmp ih hdel
  | removeEntry _ hres ih =>
    obtain ⟨⟨set, removal, removed⟩, hdel, hres⟩ := Option.bind_eq_some_iff.mp hres
    cases hres
    exact BTreeSet.Consistent.deleteCmp ih hdel
  | popFirst _ hres ih =>
    obtain ⟨⟨set, popping⟩, hpop, hres⟩ := Option.bind_eq_some_iff.mp hres
    cases hres
    exact BTreeSet.Consistent.popFirst ih hpop
  | popLast _ hres ih =>
    obtain ⟨⟨set, popping⟩, hpop, hres⟩ := Option.bind_eq_some_iff.mp hres
    cases hres
    exact BTreeSet.Consistent.popLast ih hpop
  | popIndex _ _ hres ih => exact ih.popIndex hres
  | retain _ hres ih =>
    obtain ⟨⟨set, st⟩, hretain, hres⟩ := Option.bind_eq_some_iff.mp hres
    cases hres
    exact BTreeSet.Consistent.retainWith ih (fun _ _ => rfl) hretain
  | appendSelf _ _ hres ih ih' =>
    obtain ⟨⟨set, other⟩, happend, hres⟩ := Option.bind_eq_some_iff.mp hres
    cases hres
    exact (BTreeSet.Consistent.append ih ih' happend).1
  | appendOther _ _ hres ih ih' =>
    obtain ⟨⟨set, other⟩, happend, hres⟩ := Option.bind_eq_some_iff.mp hres
    cases hres
    exact (BTreeSet.Consistent.append ih ih' happend).2
  | splitOffSelf _ hres _ =>
    obtain ⟨⟨set, latter⟩, hsplit, hres⟩ := Option.bind_eq_some_iff.mp hres
    cases hres
    exact (BTreeSet.consistent_splitOffCmp hsplit).1
  | splitOffLatter _ hres _ =>
    obtain ⟨⟨set, latter⟩, hsplit, hres⟩ := Option.bind_eq_some_iff.mp hres
    cases hres
    exact (BTreeSet.consistent_splitOffCmp hsplit).2
  | clear _ _ => exact BTreeSet.consistent_clear _
  | getMut _ hres ih => exact ih.getMut hres
  | write _ ih => exact BTreeSet.Consistent.modifyAt ih _ _ _
  | entryOrInsert _ hentry hres ih => exact ih.orInsert hentry hres
  | entryGetMut _ hentry hres ih =>
    rcases entry_map hentry with ⟨i, he⟩ | he <;> cases he
    exact Consistent.occupiedGetMut ih hres
  | entryRemove _ hentry hres ih =>
    rcases entry_map hentry with ⟨i, he⟩ | he <;> cases he
    exact ih.popIndex hres
  | firstEntryRemove _ hentry hres ih =>
    unfold BTreeMap.firstEntry at hentry
    split at hentry <;> cases hentry
    exact ih.popIndex hres
  | lastEntryRemove _ hentry hres ih =>
    unfold BTreeMap.lastEntry at hentry
    split at hentry <;> cases hentry
    exact ih.popIndex hres

end BTreeMap

end IndexSet
