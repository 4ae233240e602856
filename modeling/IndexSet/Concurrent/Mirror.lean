import IndexSet.Cdc.Persisted
import IndexSet.Concurrent.Commits
import IndexSet.Lib.Maxima
import Mathlib.Data.List.Find

/-!
# What the Events of One Change Tell the Receiver

`mirror` is the persisted copy that is up to date: it has the contents of every indexed node
under the maximum the node really has, whatever the index key says.

- `Reports`: events that take the copy from before a change to the copy after it;
- §2: each edit of a node is reported by its event;
- §3: a split is, unless its value overwrites the maximum of a half: the events then remove
  the maximum, which moves the half to another key, and insert under the key it had.
-/

namespace IndexSet.Concurrent

open KeyedList PersistedBTreeMap

variable {M T K : Type} [LinearOrder K] [Keyed T K]

/-! ## §1 The copy -/

namespace BTreeSet

variable [LawfulSkipMap M T K]

/-- The persisted copy of the nodes, each under its maximum. -/
def mirror (s : BTreeSet M T) : PersistedBTreeMap K T := ⟨itemsUnder key s.view⟩

/-- The events take the copy of `s` to that of `s'`. -/
def Reports (s : BTreeSet M T) (changes : List (ChangeEventUnassigned T)) (s' : BTreeSet M T) :
    Prop :=
  s.mirror.persistAll changes = some s'.mirror

variable {s s' : BTreeSet M T} {a b : List (T × NodeId)} {e : T × NodeId}

/-- The copy depends on the contents of the indexed nodes alone. -/
theorem mirror_congr (h : s'.view.map Cell.items = s.view.map Cell.items) :
    s'.mirror = s.mirror := by
  have hunder : ∀ (cells : List (Cell T NodeId)) (k : K), itemsUnder key cells k =
      (cells.map Cell.items).find? fun l => maxKey key l = some k := fun cells k => by
    rw [List.find?_map]
    rfl
  unfold mirror
  congr 1
  funext k
  rw [hunder, hunder, h]

/-- What the other nodes contribute. -/
def others (s : BTreeSet M T) (a b : List (T × NodeId)) : PersistedBTreeMap K T :=
  ⟨itemsUnder key (a.map s.cell ++ b.map s.cell)⟩

theorem Coherent.contents_cut (hs : s.Coherent) (hcut : s.entries = a ++ e :: b) :
    Ascending key (contents (a.map s.cell ++ s.cell e :: b.map s.cell)) :=
  (hs.cut hcut).contents_ascending

/-- **The copy from one of its nodes**: the node under its maximum, next to the others, which
have nothing under its keys. -/
theorem Coherent.mirror_cut (hs : s.Coherent) (hcut : s.entries = a ++ e :: b) :
    (∀ k, maxKey key (s.nodes e.2) = some k →
        s.mirror = (s.others a b).insert k (s.nodes e.2)) ∧
      (s.nodes e.2 = [] → s.mirror = s.others a b) ∧
      ∀ x ∈ s.nodes e.2, (s.others a b).nodes (key x) = none := by
  have hasc := hs.contents_cut hcut
  refine ⟨fun k hk => ?_, fun hnil => ?_, fun x hx => itemsUnder_vacant hasc hx⟩
  · rw [mirror, view_cut hcut, itemsUnder_cut hasc hk]
    rfl
  · rw [mirror, view_cut hcut, itemsUnder_of_nil hnil]
    rfl

/-- The state the receiver should have in the end, in the words of the tests: the contents of
every node under its index key. -/
def expectedState (s : BTreeSet M T) : PersistedBTreeMap K T :=
  ⟨fun k => (find entryKey k (SkipMap.iter s.index)).map fun e => s.nodes e.2⟩

/-- At rest the index keys are the maxima. -/
theorem AtRest.expectedState_eq (hs : s.AtRest) : s.expectedState = s.mirror := by
  unfold expectedState mirror
  congr 1
  funext k
  have hsame : s.entries.find? (fun e => entryKey e = k) =
      s.entries.find? fun e => maxKey key (s.nodes e.2) = some k := by
    refine List.find?_congr fun p hp => decide_eq_decide.mpr ?_
    rw [hs.exact p hp, Option.some.injEq]
    rfl
  rw [itemsUnder, view, List.find?_map, Option.map_map, find]
  exact congrArg (Option.map fun e => s.nodes e.2) hsame

/-- Index keys and the event counter may change. -/
theorem mirror_emit (changes : List (ChangeEventUnassigned T)) :
    (s.emit changes).1.mirror = s.mirror := by
  obtain ⟨eventId, heq⟩ := emit_eq s changes
  rw [heq]
  rfl

theorem mirror_rekey (hcut : s.entries = a ++ e :: b) {m : T}
    (hentries : s'.entries = a ++ (m, e.2) :: b) (hnodes : s'.nodes = s.nodes) :
    s'.mirror = s.mirror :=
  mirror_congr (by
    have hitems : ∀ t : BTreeSet M T, t.view.map Cell.items = t.entries.map fun p => t.nodes p.2 :=
      fun t => List.map_map
    rw [hitems, hitems, hentries, hcut, hnodes, List.map_append, List.map_append]
    rfl)

theorem mirror_drop (hentries : s'.entries = a ++ b) (hnodes : s'.nodes = s.nodes) :
    s'.mirror = s.others a b := by
  have hcell : s'.cell = s.cell := by
    funext p
    simp [cell, hnodes]
  rw [mirror, view, hentries, List.map_append, hcell]
  rfl

/-! ## §2 Edits -/

section Wrote

variable {items : List T}

/-- A write to one node leaves alone what the others contribute. -/
theorem Wrote.others (h : s.Wrote e.2 items s') (hs : s.Coherent)
    (hcut : s.entries = a ++ e :: b) : s'.others a b = s.others a b := by
  have hkeep : ∀ p ∈ a ++ b, s'.nodes p.2 = s.nodes p.2 := fun p hp => by
    rw [h.nodes, Function.update_of_ne (hs.ne_of_cut hcut p hp)]
  unfold BTreeSet.others
  rw [map_cell_congr fun p hp => hkeep p (List.mem_append_left _ hp),
    map_cell_congr fun p hp => hkeep p (List.mem_append_right _ hp)]

/-- **A write to one node**, as the receiver sees it. -/
theorem Wrote.mirror (h : s.Wrote e.2 items s') (hs : s.Coherent) (hs' : s'.Coherent)
    (hcut : s.entries = a ++ e :: b) :
    (∀ k, maxKey key items = some k → s'.mirror = (s.others a b).insert k items) ∧
      (items = [] → s'.mirror = s.others a b) ∧
      ∀ x ∈ items, (s.others a b).nodes (key x) = none := by
  have hnode : s'.nodes e.2 = items := by rw [h.nodes, Function.update_self]
  have hcut' := hs'.mirror_cut (h.entries.trans hcut)
  rwa [hnode, h.others hs hcut] at hcut'

variable {x y v m : T} {l r : List T}

/-- A value that goes in below the maximum. -/
theorem Wrote.reports_added (h : s.Wrote e.2 (l ++ v :: r) s') (hs : s.Coherent)
    (hs' : s'.Coherent) (he : e ∈ s.entries) (hl : s.nodes e.2 = l ++ r) (hr : r ≠ [])
    (hv : Above key (key v) r) (hm : (s.nodes e.2).getLast? = some m) :
    s.Reports [.insertAt m v l.length] s' := by
  obtain ⟨a, b, hcut⟩ := List.append_of_mem he
  have hmax : maxKey key (s.nodes e.2) = some (key m) := maxKey_of_getLast? hm
  have hle : key v ≤ key m := by
    rw [hl, List.getLast?_append_of_ne_nil _ hr] at hm
    exact (hv m (List.mem_of_getLast? hm)).le
  rw [Reports, persistAll_singleton, (hs.mirror_cut hcut).1 _ hmax, hl,
    persist_insertAt_inside hle, (h.mirror hs hs' hcut).1 (key m)]
  rw [maxKey_put_inside hl hr, hmax]

/-- A value that becomes the maximum. -/
theorem Wrote.reports_raised (h : s.Wrote e.2 (s.nodes e.2 ++ [v]) s') (hs : s.Coherent)
    (hs' : s'.Coherent) (he : e ∈ s.entries) (hv : Below key (s.nodes e.2) (key v))
    (hm : (s.nodes e.2).getLast? = some m) :
    s.Reports [.insertAt m v (s.nodes e.2).length] s' := by
  obtain ⟨a, b, hcut⟩ := List.append_of_mem he
  have hmem := List.mem_of_getLast? hm
  have hmirror := hs.mirror_cut hcut
  rw [Reports, persistAll_singleton, hmirror.1 _ (maxKey_of_getLast? hm),
    persist_insertAt_raised (hmirror.2.2 m hmem) (hv m hmem),
    (h.mirror hs hs' hcut).1 _ (maxKey_concat ..)]

/-- A value over an equal one: the node goes and comes back when it has no other element,
moves to another key and back when the maximum is replaced. -/
theorem Wrote.reports_replaced (h : s.Wrote e.2 (l ++ v :: r) s') (hs : s.Coherent)
    (hs' : s'.Coherent) (he : e ∈ s.entries) (hl : s.nodes e.2 = l ++ x :: r)
    (hx : key x = key v) (hv : Below key l (key v)) (hr : Above key (key v) r)
    (hm : (s.nodes e.2).getLast? = some m) {changes : List (ChangeEventUnassigned T)}
    (hchanges : replaceEvents (s.nodes e.2) l.length m v = some changes) :
    s.Reports changes s' := by
  obtain ⟨a, b, hcut⟩ := List.append_of_mem he
  have hmax : maxKey key (s.nodes e.2) = some (key m) := maxKey_of_getLast? hm
  have hmirror := hs.mirror_cut hcut
  have hbase := hmirror.2.2 m (List.mem_of_getLast? hm)
  have hafter := (h.mirror hs hs' hcut).1 (key m) (by rw [maxKey_replace hl hx, hmax])
  rw [Reports, hmirror.1 _ hmax, hafter]
  rw [hl] at hchanges hm ⊢
  rcases List.eq_nil_or_concat' r with rfl | ⟨r, z, rfl⟩
  · -- the maximum is replaced
    rw [List.getLast?_concat, Option.some.injEq] at hm
    subst hm
    rcases List.eq_nil_or_concat' l with rfl | ⟨l, y, rfl⟩
    · have hlast : changes = [.removeNode x, .createNode v] := by
        simpa [replaceEvents] using hchanges.symm
      rw [hlast, persistAll_cons (persist_removeNode hbase), persistAll_singleton,
        persist_createNode, hx]
      rfl
    · have hlast : changes =
          [.removeAt x v (l ++ [y]).length, .insertAt y v (l ++ [y]).length] := by
        simpa [replaceEvents, eq_comm] using hchanges
      have hy : key y < key v := hv y (by simp)
      rw [hlast, persistAll_cons (persist_removeAt_max hbase hx (List.getLast?_concat ..)),
        persistAll_singleton, persist_insertAt_raised ?_ hy, hx]
      exact hmirror.2.2 y (by simp [hl])
  · have hlast : changes = [.removeAt m v l.length, .insertAt m v l.length] := by
      have hlen : (l ++ x :: (r ++ [z])).length ≠ 1 := by
        simp only [List.length_append, List.length_cons]
        omega
      have hidx : l.length ≠ (l ++ x :: (r ++ [z])).length - 1 := by simp
      rw [replaceEvents, if_neg hlen, if_neg hidx] at hchanges
      exact (Option.some.inj hchanges).symm
    have hlt : key v < key m := by
      rw [← List.cons_append, ← List.append_assoc, List.getLast?_concat, Option.some.injEq] at hm
      exact hr m (by simp [hm])
    rw [hlast, persistAll_cons (persist_removeAt_inside hlt.ne'), persistAll_singleton,
      persist_insertAt_inside hlt.le]

/-- An element removed that is not the maximum. -/
theorem Wrote.reports_inside (h : s.Wrote e.2 (l ++ r) s') (hs : s.Coherent)
    (hs' : s'.Coherent) (he : e ∈ s.entries) (hl : s.nodes e.2 = l ++ x :: r) (hr : r ≠ [])
    (hx : Above key (key x) r) (hm : (s.nodes e.2).getLast? = some m) :
    s.Reports [.removeAt m x l.length] s' := by
  obtain ⟨a, b, hcut⟩ := List.append_of_mem he
  have hmax : maxKey key (s.nodes e.2) = some (key m) := maxKey_of_getLast? hm
  have hne : key m ≠ key x := by
    rw [hl, show x :: r = [x] ++ r from rfl, ← List.append_assoc,
      List.getLast?_append_of_ne_nil _ hr] at hm
    exact (hx m (List.mem_of_getLast? hm)).ne'
  have hafter : maxKey key (l ++ r) = some (key m) := by
    rw [← maxKey_put_inside rfl hr, ← hl, hmax]
  rw [Reports, persistAll_singleton, (hs.mirror_cut hcut).1 _ hmax, hl,
    persist_removeAt_inside hne, (h.mirror hs hs' hcut).1 _ hafter]

/-- The maximum removed. -/
theorem Wrote.reports_lowered (h : s.Wrote e.2 l s') (hs : s.Coherent) (hs' : s'.Coherent)
    (he : e ∈ s.entries) (hl : s.nodes e.2 = l ++ [x]) (hne : l ≠ []) :
    s.Reports [.removeAt x x l.length] s' := by
  obtain ⟨a, b, hcut⟩ := List.append_of_mem he
  have hmirror := hs.mirror_cut hcut
  obtain ⟨l, y, rfl⟩ := (List.eq_nil_or_concat' l).resolve_left hne
  rw [Reports, persistAll_singleton, hmirror.1 _ (by rw [hl, maxKey_concat]), hl,
    persist_removeAt_max (hmirror.2.2 x (by simp [hl])) rfl (List.getLast?_concat ..),
    (h.mirror hs hs' hcut).1 _ (maxKey_concat ..)]

/-- The only element removed, and its node taken out of the index. -/
theorem Coherent.reports_dropped (hs : s.Coherent) (hcut : s.entries = a ++ e :: b)
    (hl : s.nodes e.2 = [x]) (hm : key m = key x) (hmirror : s'.mirror = s.others a b) :
    s.Reports [.removeNode m] s' := by
  have hfrom := hs.mirror_cut hcut
  rw [Reports, persistAll_singleton, hfrom.1 (key m) (by rw [hl, hm]; rfl),
    persist_removeNode (hm ▸ hfrom.2.2 x (by simp [hl])), hmirror]

end Wrote

/-- The first node of an empty index. -/
theorem Created.reports {v : T} (h : s.Created v s') (hnil : s.entries = []) :
    s.Reports [.createNode v] s' := by
  have hentries := (h.coherent hnil).1
  have hnode : s'.nodes s.nextNode = [v] := by rw [h.nodes, Function.update_self]
  rw [Reports, persistAll_singleton, persist_createNode]
  congr 1
  have hview : s'.view = [] ++ s'.cell (v, s.nextNode) :: [] := by simp [view, hentries]
  have hmax : maxKey key (s'.cell (v, s.nextNode)).items = some (key v) := by
    simp [cell, hnode, maxKey]
  have hempty : s.mirror = PersistedBTreeMap.empty := by
    rw [mirror, view, hnil]
    rfl
  have hafter : s'.mirror = PersistedBTreeMap.empty.insert (key v) [v] := by
    rw [mirror, hview, itemsUnder_cut (by simp [contents, cell, hnode]) hmax]
    simp [cell, hnode, PersistedBTreeMap.insert, PersistedBTreeMap.empty]
  rw [hempty, hafter]

end BTreeSet

/-! ## §3 Splits -/

section Halves

variable {base : PersistedBTreeMap K T} {l : List T} {mx v : T}

/-- **A half**, kept under its maximum: the events of a value that does not overwrite the
maximum store it there. -/
theorem persistAll_halfEvents (hbase : base.nodes (key mx) = none) (hasc : Ascending key l)
    (hmx : l.getLast? = some mx) (hv : key v ≠ key mx) {k : K}
    (hk : maxKey key (put key v l) = some k) :
    (base.insert (key mx) l).persistAll
        (halfEvents mx v (insertOrReplace l v).2.1 (insertOrReplace l v).2.2) =
      some (base.insert k (put key v l)) := by
  rcases insertOrReplace_cases v hasc with
    ⟨a, x, b, rfl, hx, ha, hb, heval⟩ | ⟨a, b, rfl, ha, hb, heval⟩
  · -- the element replaced is below the maximum
    have hne : b ≠ [] := by
      rintro rfl
      rw [List.getLast?_concat, Option.some.injEq] at hmx
      exact hv (hmx ▸ hx.symm)
    have hlast : b.getLast? = some mx := by
      rwa [show x :: b = [x] ++ b from rfl, ← List.append_assoc,
        List.getLast?_append_of_ne_nil _ hne] at hmx
    have hlt := hb mx (List.mem_of_getLast? hlast)
    rw [put_hit hx ha hb, maxKey_replace rfl hx, maxKey_of_getLast? hmx, Option.some.injEq] at hk
    rw [heval, put_hit hx ha hb, ← hk]
    simp only [halfEvents]
    rw [persistAll_cons (persist_removeAt_inside (hx ▸ hlt.ne')), persistAll_singleton,
      persist_insertAt_inside hlt.le]
  · rw [put_gap ha hb] at hk
    rw [heval, put_gap ha hb]
    simp only [halfEvents, persistAll_singleton]
    rcases eq_or_ne b [] with rfl | hne
    · -- a new maximum
      rw [List.append_nil] at hmx ⊢
      rw [maxKey_concat, Option.some.injEq] at hk
      rw [← hk, persist_insertAt_raised hbase (ha mx (List.mem_of_getLast? hmx))]
    · have hlast : b.getLast? = some mx := by
        rwa [List.getLast?_append_of_ne_nil _ hne] at hmx
      rw [maxKey_put_inside rfl hne, maxKey_of_getLast? hmx, Option.some.injEq] at hk
      rw [persist_insertAt_inside (hb mx (List.mem_of_getLast? hlast)).le, hk]

/-- **A split whose lower half takes the value**, below the maximum of that half. -/
theorem persistAll_split_lower {a b : List T} {lo : T} (hmx : base.nodes (key mx) = none)
    (hlo : base.nodes (key lo) = none) (hasc : Ascending key a) (ha : a.getLast? = some lo)
    (hb : b.getLast? = some mx) (hlt : key lo < key mx) (hv : key v < key lo) :
    (base.insert (key mx) (a ++ b)).persistAll (.splitNode mx a.length ::
        halfEvents lo v (insertOrReplace a v).2.1 (insertOrReplace a v).2.2) =
      some ((base.insert (key mx) b).insert (key lo) (put key v a)) := by
  have hbase : (base.insert (key mx) b).nodes (key lo) = none := by
    rw [nodes_insert_of_ne hlt.ne, hlo]
  rw [persistAll_cons (persist_splitNode hmx ha hb),
    persistAll_halfEvents hbase hasc ha hv.ne]
  rw [maxKey_put hasc, maxKey_of_getLast? ha]
  simp [max_eq_left hv.le]

/-- **A split whose upper half takes the value**, other than the maximum of the node. -/
theorem persistAll_split_upper {a b : List T} {lo : T} {k : K}
    (hmx : base.nodes (key mx) = none) (hasc : Ascending key b) (ha : a.getLast? = some lo)
    (hb : b.getLast? = some mx) (hlt : key lo < key mx) (hv : key v ≠ key mx)
    (hk : maxKey key (put key v b) = some k) :
    (base.insert (key mx) (a ++ b)).persistAll (.splitNode mx a.length ::
        halfEvents mx v (insertOrReplace b v).2.1 (insertOrReplace b v).2.2) =
      some ((base.insert k (put key v b)).insert (key lo) a) := by
  have hbase : (base.insert (key lo) a).nodes (key mx) = none := by
    rw [nodes_insert_of_ne hlt.ne', hmx]
  have hlok : key lo ≠ k := by
    rw [maxKey_put hasc, maxKey_of_getLast? hb] at hk
    rw [← Option.some.inj hk]
    exact (lt_of_lt_of_le hlt (le_max_left _ _)).ne
  rw [persistAll_cons (persist_splitNode hmx ha hb), insert_comm hlt.ne',
    persistAll_halfEvents hbase hasc hb hv hk, insert_comm hlok]

/-- A value over the maximum of a half: the half moves to another key, or goes when it has
no other element, and the value is lost. -/
theorem persistAll_halfEvents_max (hbase : base.nodes (key mx) = none) (hasc : Ascending key l)
    (hmx : l.getLast? = some mx) (hv : key v = key mx) :
    ∃ m, (base.insert (key mx) l).persistAll
        (halfEvents mx v (insertOrReplace l v).2.1 (insertOrReplace l v).2.2) = some m ∧
      m.nodes (key v) = none := by
  have hmem := List.mem_of_getLast? hmx
  rcases insertOrReplace_cases v hasc with
    ⟨a, x, b, rfl, hx, ha, hb, heval⟩ | ⟨a, b, rfl, ha, hb, -⟩
  · have hnil : b = [] := by
      by_contra hne
      have hlast : b.getLast? = some mx := by
        rwa [show x :: b = [x] ++ b from rfl, ← List.append_assoc,
          List.getLast?_append_of_ne_nil _ hne] at hmx
      exact (hb mx (List.mem_of_getLast? hlast)).ne hv
    subst hnil
    rw [List.getLast?_concat, Option.some.injEq] at hmx
    subst hmx
    rw [heval]
    simp only [halfEvents]
    rcases List.eq_nil_or_concat' a with rfl | ⟨a, z, rfl⟩
    · exact ⟨base, by rw [List.nil_append, List.length_nil,
        persistAll_cons (persist_removeAt_only hbase rfl), persistAll_singleton,
        persist_insertAt_unknown hbase hv.le], by rw [hv, hbase]⟩
    · have hz : key x ≠ key z := by
        rw [hx]
        exact (ha z (by simp)).ne'
      have hgone : (base.insert (key z) (a ++ [z])).nodes (key x) = none := by
        rw [nodes_insert_of_ne hz, hbase]
      exact ⟨_, by rw [persistAll_cons (persist_removeAt_max hbase rfl (List.getLast?_concat ..)),
        persistAll_singleton, persist_insertAt_unknown hgone hv.le], by rw [hv, hgone]⟩
  · rcases List.mem_append.mp hmem with hmem | hmem
    · exact absurd hv.symm (ha mx hmem).ne
    · exact absurd hv (hb mx hmem).ne

end Halves

namespace BTreeSet

variable [LawfulSkipMap M T K] {s : BTreeSet M T} {a b : List (T × NodeId)} {e : T × NodeId}
  {oldMax v : T}

/-- The value is equal to the maximum of the node, or to the one its lower half will have. -/
def OverwritesMax (s : BTreeSet M T) (n : NodeId) (v : T) : Prop :=
  maxKey key (Node.halve (s.nodes n)).1 = some (key v) ∨ maxKey key (s.nodes n) = some (key v)

instance (s : BTreeSet M T) (n : NodeId) (v : T) : Decidable (s.OverwritesMax n v) :=
  inferInstanceAs (Decidable (_ ∨ _))

/-- **A split with two halves**: the node is cut, each half under its own maximum, and the
value goes into one of them.  The events say so wherever the node is, if and only if the
value does not overwrite a maximum. -/
theorem commitSplit_reported {n : NodeId} (oldMax v : T) {m : T} {base : PersistedBTreeMap K T}
    (hcdc : s.cdc = true) (hasc : Ascending key (s.nodes n)) (htwo : 2 ≤ (s.nodes n).length)
    (hm : (s.nodes n).getLast? = some m) (hbase : ∀ x ∈ s.nodes n, base.nodes (key x) = none) :
    ∃ lo lower hi upper after,
      (s.commitSplit n oldMax v).1 = s.splitState n oldMax (some lo) lower hi upper ∧
      lower ++ upper = put key v (s.nodes n) ∧ maxKey key lower = some (key lo) ∧
      maxKey key upper = some (key hi) ∧
      (base.insert (key m) (s.nodes n)).persistAll (s.commitSplit n oldMax v).2.2 = some after ∧
      (after = (base.insert (key hi) upper).insert (key lo) lower ↔ ¬ s.OverwritesMax n v) := by
  have hl := halve_eq (s.nodes n)
  have hhalves := hasc
  rw [← hl] at hhalves
  obtain ⟨hasclo, haschi, hacross⟩ := ascending_append.mp hhalves
  have hne : s.nodes n ≠ [] := List.ne_nil_of_length_pos (by omega)
  have hhi : (Node.halve (s.nodes n)).2.getLast? = some m := (getLast?_halve_snd hne).trans hm
  obtain ⟨lo, hlo⟩ : ∃ lo, (Node.halve (s.nodes n)).1.getLast? = some lo := by
    refine ⟨_, List.getLast?_eq_some_getLast (List.ne_nil_of_length_pos ?_)⟩
    rw [Node.length_halve_fst]
    omega
  have hlomem := List.mem_of_getLast? hlo
  have hlom : key lo < key m := hacross lo hlomem m (List.mem_of_getLast? hhi)
  have hmaxlo : maxKey key (Node.halve (s.nodes n)).1 = some (key lo) := maxKey_of_getLast? hlo
  have hmaxhi : maxKey key (Node.halve (s.nodes n)).2 = some (key m) := maxKey_of_getLast? hhi
  have hvacantm : base.nodes (key m) = none := hbase m (List.mem_of_getLast? hm)
  have hvacantlo : base.nodes (key lo) = none := hbase lo (hl ▸ List.mem_append_left _ hlomem)
  -- the node is cut first
  have hcutEvent := persist_splitNode hvacantm hlo hhi
  rw [hl] at hcutEvent
  rw [OverwritesMax, hmaxlo, maxKey_of_getLast? hm, Option.some.injEq, Option.some.injEq]
  rcases commitSplit_cases oldMax v hasc hm with ⟨lo', hlo', hle, hput, heval⟩ |
    ⟨hlt, hput, hi, hupper, heval⟩
  · -- the lower half takes the value
    cases hlo.symm.trans hlo'
    have hput' : maxKey key (put key v (Node.halve (s.nodes n)).1) = some (key lo) := by
      rw [maxKey_put hasclo, hmaxlo]
      simp [max_eq_left hle]
    have hvm : key m ≠ key v := (lt_of_le_of_lt hle hlom).ne'
    rw [heval]
    simp only [hcdc, if_true]
    by_cases hover : key lo = key v
    · have hbase : (base.insert (key m) (Node.halve (s.nodes n)).2).nodes (key lo) = none := by
        rw [nodes_insert_of_ne hlom.ne, hvacantlo]
      obtain ⟨after, hafter, hgone⟩ := persistAll_halfEvents_max hbase hasclo hlo hover.symm
      refine ⟨lo, _, m, _, after, rfl, hput.symm, hput', hmaxhi,
        by rw [persistAll_cons hcutEvent, hafter], iff_of_false ?_ (by simp [hover])⟩
      rintro rfl
      simp [hover] at hgone
    · have hsplit := persistAll_split_lower hvacantm hvacantlo hasclo hlo hhi hlom
        (lt_of_le_of_ne hle (Ne.symm hover))
      rw [hl] at hsplit
      exact ⟨lo, _, m, _, _, rfl, hput.symm, hput', hmaxhi, hsplit, by simp [hover, hvm]⟩
  · -- the upper half does
    have hvlo : key lo ≠ key v := (hlt lo hlo).ne
    rw [heval, hlo]
    simp only [hcdc, if_true]
    by_cases hover : key m = key v
    · have hbase : (base.insert (key lo) (Node.halve (s.nodes n)).1).nodes (key m) = none := by
        rw [nodes_insert_of_ne hlom.ne', hvacantm]
      obtain ⟨after, hafter, hgone⟩ := persistAll_halfEvents_max hbase haschi hhi hover.symm
      have hup : key hi = key v := by
        rw [maxKey_put haschi, hmaxhi, hover] at hupper
        simpa using hupper.symm
      refine ⟨lo, _, hi, _, after, rfl, hput.symm, hmaxlo, hupper,
        by rw [persistAll_cons hcutEvent, insert_comm hlom.ne', hafter],
        iff_of_false ?_ (by simp [hover])⟩
      rintro rfl
      rw [nodes_insert_of_ne hvlo.symm, hup] at hgone
      simp at hgone
    · have hsplit := persistAll_split_upper hvacantm haschi hlo hhi hlom (Ne.symm hover) hupper
      rw [hl] at hsplit
      exact ⟨lo, _, hi, _, _, rfl, hput.symm, hmaxlo, hupper, hsplit, by simp [hover, hvlo]⟩

/-- The copy after a split with two halves. -/
theorem Coherent.mirror_splitState (hs : s.Coherent) (hcut : s.entries = a ++ e :: b)
    {lo hi : T} {lower upper : List T} {kl ku : K}
    (hs' : (s.splitState e.2 oldMax (some lo) lower hi upper).Coherent)
    (hentries : (s.splitState e.2 oldMax (some lo) lower hi upper).entries =
      a ++ ((some lo).map fun m => (m, e.2)).toList ++ (hi, s.nextNode) :: b)
    (hkl : maxKey key lower = some kl) (hku : maxKey key upper = some ku) :
    (s.splitState e.2 oldMax (some lo) lower hi upper).mirror =
      ((s.others a b).insert ku upper).insert kl lower := by
  have hview := hs.splitState_view hcut hentries
  rw [show a.map s.cell ++ (((some lo).map fun m => (⟨m, e.2, lower⟩ : Cell T NodeId)).toList ++
      [⟨hi, s.nextNode, upper⟩]) ++ b.map s.cell = a.map s.cell ++ ⟨lo, e.2, lower⟩ ::
        ⟨hi, s.nextNode, upper⟩ :: b.map s.cell by simp] at hview
  have hasc := hs'.partitioned.contents_ascending
  rw [hview] at hasc
  have hasc' : Ascending key (contents (a.map s.cell ++ ⟨hi, s.nextNode, upper⟩ :: b.map s.cell)) :=
    hasc.sublist (by
      simp only [contents_append, contents_cons]
      exact (List.sublist_append_right ..).append_left _)
  rw [mirror, hview, itemsUnder_cut hasc hkl, itemsUnder_cut hasc' hku]
  rfl

/-- **A split with two halves** is reported by its events, unless its value overwrites the
maximum of the half it goes to. -/
theorem Coherent.reports_split (hs : s.Coherent) (hcdc : s.cdc = true)
    (hcut : s.entries = a ++ e :: b) (hkey : key e.1 = key oldMax)
    (hasc : Ascending key (s.nodes e.2)) (htwo : 2 ≤ (s.nodes e.2).length)
    (hv : Admissible key (a.map s.cell) (b.map s.cell) (key v)) :
    s.Reports (s.commitSplit e.2 oldMax v).2.2 (s.commitSplit e.2 oldMax v).1 ↔
      ¬ s.OverwritesMax e.2 v := by
  obtain ⟨m, hm⟩ : ∃ m, (s.nodes e.2).getLast? = some m :=
    ⟨_, List.getLast?_eq_some_getLast (List.ne_nil_of_length_pos (by omega))⟩
  have hmirror := hs.mirror_cut hcut
  obtain ⟨lo, lower, hi, upper, after, hstate, hput, hlower, hupper, hevents, hafter⟩ :=
    commitSplit_reported oldMax v hcdc hasc htwo hm hmirror.2.2
  have hlowerMax : (some lo).map key = maxKey key lower := hlower.symm
  obtain ⟨hs', -, hentries⟩ := hs.split hcut rfl hkey hasc hv hput hlowerMax hupper
  rw [Reports, hmirror.1 _ (maxKey_of_getLast? hm), hevents, hstate,
    hs.mirror_splitState hcut hs' hentries hlower hupper, Option.some.injEq, hafter]

end BTreeSet

end IndexSet.Concurrent
