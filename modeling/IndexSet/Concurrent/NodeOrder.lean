import IndexSet.Concurrent.Linear
import IndexSet.Concurrent.Range

/-!
# The Order of the Nodes While Threads Insert

Whoever walks through the index knows nodes, not keys: a split or a rekeying moves an
entry, but never past another one.  So the nodes of the index are a list that only
grows, except for a node of one element, which a split takes out of the index.

- §1 one thing before another in a list;
- §2 `After`, `Before`: where a key is stored, seen from a node;
- §3 `Evolves`: how one step of an insert changes the list and the contents;
- §4 what stays where it is through such a step.
-/

namespace IndexSet.Concurrent

open KeyedList

/-! ## §1 Order in a list -/

section Precedes

variable {α : Type*} {l l' a b : List α} {x y : α}

/-- `x` comes before `y`. -/
def Precedes (l : List α) (x y : α) : Prop := [x, y].Sublist l

theorem precedes_of_mem (hx : x ∈ a) (hy : y ∈ b) : Precedes (a ++ b) x y :=
  List.Sublist.append (List.singleton_sublist.mpr hx) (List.singleton_sublist.mpr hy)

theorem Precedes.mono (h : Precedes l x y) (hl : l.Sublist l') : Precedes l' x y :=
  List.Sublist.trans h hl

theorem Precedes.left_mem (h : Precedes l x y) : x ∈ l := List.Sublist.mem (by simp) h

theorem Precedes.right_mem (h : Precedes l x y) : y ∈ l := List.Sublist.mem (by simp) h

/-- What comes after an element of a list without repetition. -/
theorem Precedes.mem_right (hnodup : (a ++ x :: b).Nodup) (h : Precedes (a ++ x :: b) x y) :
    y ∈ b := by
  have ⟨_, _, hdisj⟩ := List.nodup_append.mp hnodup
  obtain ⟨l₁, l₂, heq, h₁, h₂⟩ := List.sublist_append_iff.mp h
  cases l₁ with
  | nil =>
    rw [List.nil_append] at heq
    subst heq
    exact List.singleton_sublist.mp (List.cons_sublist_cons.mp h₂)
  | cons z l₁ =>
    rw [List.cons_append, List.cons.injEq] at heq
    have hx : x ∈ a := heq.1 ▸ h₁.subset (List.mem_cons_self ..)
    exact absurd rfl (hdisj x hx x (List.mem_cons_self ..))

/-- What comes before an element of a list without repetition. -/
theorem Precedes.mem_left (hnodup : (a ++ y :: b).Nodup) (h : Precedes (a ++ y :: b) x y) :
    x ∈ a := by
  have ⟨_, hyb, _⟩ := List.nodup_append.mp hnodup
  have hnot := (List.nodup_cons.mp hyb).1
  obtain ⟨l₁, l₂, heq, h₁, h₂⟩ := List.sublist_append_iff.mp h
  cases l₁ with
  | nil =>
    rw [List.nil_append] at heq
    subst heq
    have hy : y ∈ b := by
      rcases List.sublist_cons_iff.mp h₂ with h | ⟨r, hr, h⟩
      · exact h.subset (by simp)
      · cases hr
        exact h.subset (List.mem_cons_self ..)
    exact absurd hy hnot
  | cons z l₁ =>
    rw [List.cons_append, List.cons.injEq] at heq
    exact heq.1 ▸ h₁.subset (List.mem_cons_self ..)

theorem Precedes.trans {z : α} (hnodup : l.Nodup) (hxy : Precedes l x y) (hyz : Precedes l y z) :
    Precedes l x z := by
  obtain ⟨a, b, rfl⟩ := List.append_of_mem hxy.right_mem
  exact precedes_of_mem (hxy.mem_left hnodup) (List.mem_cons_of_mem _ (hyz.mem_right hnodup))

/-- An element that another one has replaced. -/
theorem not_mem_of_replaced (hnodup : (a ++ x :: b).Nodup) (hy : y ∉ a ++ x :: b) :
    x ∉ a ++ y :: b := by
  intro hx
  have ⟨_, hcons, hdisj⟩ := List.nodup_append.mp hnodup
  rcases List.mem_append.mp hx with hx | hx
  · exact hdisj x hx x (List.mem_cons_self ..) rfl
  rcases List.mem_cons.mp hx with rfl | hx
  · exact hy (by simp)
  · exact (List.nodup_cons.mp hcons).1 hx

end Precedes

variable {M T K : Type} [LinearOrder K] [Keyed T K] [LawfulSkipMap M T K]

namespace BTreeSet

/-! ## §2 Where a key is stored -/

/-- The nodes of the index, in order. -/
def order (s : BTreeSet M T) : List NodeId := s.entries.map Prod.snd

/-- The node holds an element with the key. -/
def Has (s : BTreeSet M T) (n : NodeId) (q : K) : Prop := ∃ x ∈ s.nodes n, key x = q

/-- The key is stored in a node behind this one. -/
def After (s : BTreeSet M T) (n : NodeId) (q : K) : Prop :=
  ∃ m, Precedes s.order n m ∧ s.Has m q

/-- The key is stored in a node before this one. -/
def Before (s : BTreeSet M T) (n : NodeId) (q : K) : Prop :=
  ∃ m, Precedes s.order m n ∧ s.Has m q

/-- The key lies beyond an index key, in a node that is registered beyond it. -/
def Beyond (s : BTreeSet M T) (k q : K) : Prop :=
  k < q ∧ ∃ p ∈ s.entries, k < key p.1 ∧ s.Has p.2 q

section Coherent

variable {s : BTreeSet M T} {n : NodeId} {q : K}

theorem Coherent.order_nodup (hs : s.Coherent) : s.order.Nodup := hs.distinct

/-- Entries of one node are one entry. -/
theorem Coherent.entry_eq (hs : s.Coherent) {e p : T × NodeId} (he : e ∈ s.entries)
    (hp : p ∈ s.entries) (h : e.2 = p.2) : e = p :=
  List.inj_on_of_nodup_map hs.distinct he hp h

theorem Coherent.entries_of_precedes {m : NodeId} (h : Precedes s.order m n) :
    ∃ e p, e.2 = m ∧ p.2 = n ∧ [e, p].Sublist s.entries := by
  obtain ⟨l, hsub, heq⟩ := List.sublist_map_iff.mp h
  match l, heq with
  | [e, p], heq =>
    simp only [List.map_cons, List.map_nil, List.cons.injEq, and_true] at heq
    exact ⟨e, p, heq.1.symm, heq.2.symm, hsub⟩

/-- Entries in order are ordered by their keys, and so is what they hold. -/
theorem Coherent.before_of_sublist (hs : s.Coherent) {e p : T × NodeId}
    (h : [e, p].Sublist s.entries) : (s.cell e).Before key (s.cell p) := by
  have hpair := hs.partitioned.before.sublist (h.map s.cell)
  simpa using hpair

/-- What a node holds is below what the nodes behind it hold. -/
theorem Coherent.lt_of_precedes (hs : s.Coherent) {m : NodeId} {k : K}
    (h : Precedes s.order m n) (hk : s.Has m k) (hq : s.Has n q) : k < q := by
  obtain ⟨e, p, rfl, rfl, hsub⟩ := entries_of_precedes h
  obtain ⟨x, hx, rfl⟩ := hk
  obtain ⟨y, hy, rfl⟩ := hq
  have ⟨_, hle, habove⟩ := hs.before_of_sublist hsub
  exact (hle x hx).trans_lt (habove y hy)

/-- What is behind a node is beyond its index key. -/
theorem Coherent.beyond_of_after (hs : s.Coherent) {e : T × NodeId} (he : e ∈ s.entries)
    (h : s.After e.2 q) : s.Beyond (key e.1) q := by
  obtain ⟨m, hem, hm⟩ := h
  obtain ⟨e', p, heq, rfl, hsub⟩ := entries_of_precedes hem
  obtain rfl := hs.entry_eq (hsub.mem (by simp)) he heq
  have ⟨hlt, _, habove⟩ := hs.before_of_sublist hsub
  obtain ⟨x, hx, rfl⟩ := hm
  exact ⟨habove x hx, p, hsub.mem (by simp), hlt, x, hx, rfl⟩

variable {e p : T × NodeId}

theorem cut_of_next (h : SkipMap.next s.index e = some p) :
    ∃ a b, s.entries = a ++ p :: b ∧ key e.1 < key p.1 ∧ ∀ x ∈ a, key x.1 ≤ key e.1 := by
  rw [LawfulSkipMap.next_eq, List.find?_eq_some_iff_append] at h
  obtain ⟨hlt, a, b, hcut, ha⟩ := h
  refine ⟨a, b, hcut, of_decide_eq_true hlt, fun x hx => ?_⟩
  have hx := ha x hx
  simp only [Bool.not_eq_true', decide_eq_false_iff_not, not_lt] at hx
  exact hx

/-- What is beyond a key is in the next node or behind it. -/
theorem Beyond.of_next (h : s.Beyond (key e.1) q) (hp : SkipMap.next s.index e = some p) :
    s.Has p.2 q ∨ s.After p.2 q := by
  obtain ⟨a, b, hcut, -, ha⟩ := cut_of_next hp
  obtain ⟨_, p', hp', hlt, hq⟩ := h
  rw [hcut] at hp'
  rcases List.mem_append.mp hp' with hp' | hp'
  · exact absurd hlt (not_lt.mpr (ha p' hp'))
  rcases List.mem_cons.mp hp' with rfl | hp'
  · exact Or.inl hq
  · refine Or.inr ⟨p'.2, ?_, hq⟩
    rw [order, hcut, List.map_append, List.map_cons,
      show a.map Prod.snd ++ p.2 :: b.map Prod.snd = (a.map Prod.snd ++ [p.2]) ++ b.map Prod.snd by
        simp]
    exact precedes_of_mem (by simp) (List.mem_map_of_mem hp')

theorem not_beyond_of_next (hp : SkipMap.next s.index e = none) : ¬ s.Beyond (key e.1) q := by
  rintro ⟨_, p', hp', hlt, _⟩
  rw [LawfulSkipMap.next_eq] at hp
  have h := List.find?_eq_none.mp hp p' hp'
  exact h (decide_eq_true hlt)

/-- The next entry comes after the entry. -/
theorem precedes_of_next (he : e ∈ s.entries) (hp : SkipMap.next s.index e = some p) :
    Precedes s.order e.2 p.2 := by
  obtain ⟨a, b, hcut, hlt, -⟩ := cut_of_next hp
  have hasc := s.entries_ascending
  rw [hcut] at hasc he
  have ⟨_, _, _, hb⟩ := ascending_append_cons.mp hasc
  have hea : e ∈ a := by
    rcases List.mem_append.mp he with he | he
    · exact he
    rcases List.mem_cons.mp he with rfl | he
    · exact absurd hlt (lt_irrefl _)
    · exact absurd hlt (not_lt.mpr (hb e he).le)
  rw [order, hcut, List.map_append, List.map_cons]
  exact precedes_of_mem (List.mem_map_of_mem hea) (by simp)

end Coherent

/-! ## §3 Steps of inserts -/

/-- A step of an insert: the list of nodes and the contents grow, or one node is split.  A node
of one element is replaced by its upper half. -/
inductive Evolves (s s' : BTreeSet M T) : Option NodeId → Prop where
  | grown : s.order.Sublist s'.order → (∀ n ∈ s.order, ∀ q, s.Has n q → s'.Has n q) →
      Evolves s s' none
  | split {a b kept : List NodeId} {n new : NodeId} : s.order = a ++ n :: b →
      s'.order = a ++ kept ++ new :: b → new ∉ s.order → (kept = [n] ∨ kept = []) →
      (2 ≤ (s.nodes n).length → kept = [n]) →
      (∀ m ∈ s.order, m ≠ n → ∀ q, s.Has m q → s'.Has m q) →
      (∀ q, s.Has n q → (kept = [n] ∧ s'.Has n q) ∨ s'.Has new q) → Evolves s s' (some n)

/-- A key stays in a node registered at least as high, or not below the key. -/
def Follows (s s' : BTreeSet M T) : Prop :=
  ∀ p ∈ s.entries, ∀ q, s.Has p.2 q →
    ∃ p' ∈ s'.entries, s'.Has p'.2 q ∧ (key p.1 ≤ key p'.1 ∨ q ≤ key p'.1)

variable {s s' : BTreeSet M T}

/-- The event counter does not matter. -/
theorem Evolves.counter {o : Option NodeId} (h : Evolves s s' o ∧ Follows s s') (eventId : ℕ) :
    Evolves s { s' with eventId } o ∧ Follows s { s' with eventId } := by
  obtain ⟨h, hfollows⟩ := h
  refine ⟨?_, hfollows⟩
  cases h with
  | grown hsub hkeys => exact .grown hsub hkeys
  | split hcut hcut' hnew hkept hlen hother hkeys =>
    exact .split hcut hcut' hnew hkept hlen hother hkeys

theorem Evolves.refl (s : BTreeSet M T) : Evolves s s none ∧ Follows s s :=
  ⟨.grown (List.Sublist.refl _) fun _ _ _ h => h, fun p hp _ h => ⟨p, hp, h, Or.inl le_rfl⟩⟩

/-- More elements in one node. -/
theorem Wrote.evolves {n : NodeId} {items : List T} (h : s.Wrote n items s')
    (hkeys : ∀ x ∈ s.nodes n, ∃ y ∈ items, key y = key x) :
    Evolves s s' none ∧ Follows s s' := by
  have hhas : ∀ m q, s.Has m q → s'.Has m q := by
    rintro m q ⟨x, hx, rfl⟩
    rw [Has, h.nodes]
    by_cases hm : m = n
    · subst hm
      rw [Function.update_self]
      exact hkeys x hx
    · rw [Function.update_of_ne hm]
      exact ⟨x, hx, rfl⟩
  refine ⟨.grown ?_ fun m _ q => hhas m q, fun p hp q hq => ⟨p, ?_, hhas _ q hq, Or.inl le_rfl⟩⟩
  · rw [order, order, h.entries]
  · rwa [h.entries]

/-- A commit of a split. -/
theorem Coherent.evolves_split (hs : s.Coherent) (hsorted : s.Sorted) {n : NodeId} {m v : T}
    (hreg : s.Registered n (key m)) (hne : s.nodes n ≠ []) (hfits : s.Fits m v) :
    Evolves s (s.commitSplit n m v).1 (some n) ∧ Follows s (s.commitSplit n m v).1 := by
  obtain ⟨e, hmem, rfl, hkey⟩ := hreg
  obtain ⟨a, b, hcut⟩ := List.append_of_mem hmem
  obtain ⟨lowerMax, lower, upperMax, upper, hstate, -, hput, hlower, hupper, hhalf⟩ :=
    commitSplit_spec s e.2 m v (hsorted e.2) hne
  have hadm := hfits.admissible hcut hkey
  obtain ⟨_, _, hentries⟩ := hs.split hcut rfl hkey (hsorted e.2) hadm hput hlower hupper
  rw [hstate]
  have hfresh : ∀ p ∈ s.entries, p.2 ≠ s.nextNode := fun p hp => Nat.ne_of_lt (hs.allocated p hp)
  have hen := hfresh e hmem
  have hold : ∀ x ∈ lower, x ∈ (s.splitState e.2 m lowerMax lower upperMax upper).nodes e.2 :=
    fun x hx => by simpa [splitState, hen] using hx
  have hnew : ∀ x ∈ upper,
      x ∈ (s.splitState e.2 m lowerMax lower upperMax upper).nodes s.nextNode :=
    fun x hx => by simpa [splitState] using hx
  have hother : ∀ k, k ≠ e.2 → k ≠ s.nextNode →
      (s.splitState e.2 m lowerMax lower upperMax upper).nodes k = s.nodes k := fun k hk hk' => by
    simp [splitState, hk, hk']
  have hasc := put_ascending (v := v) (hsorted e.2)
  rw [← hput] at hasc
  obtain ⟨hasclo, hascup, _⟩ := ascending_append.mp hasc
  -- a key of the node is in one of the halves
  have hkeys : ∀ q, s.Has e.2 q → (∃ x ∈ lower, key x = q) ∨ ∃ x ∈ upper, key x = q := by
    intro q hq
    obtain ⟨x, hx, hxq⟩ := find_isSome.mp
      (find_put_isSome.mpr (Or.inr (find_isSome.mpr hq)) :
        (find key q (put key v (s.nodes e.2))).isSome)
    rw [← hput] at hx
    exact (List.mem_append.mp hx).imp (fun hx => ⟨x, hx, hxq⟩) fun hx => ⟨x, hx, hxq⟩
  have hlowerMax : ∀ x ∈ lower, ∃ lo, lowerMax = some lo ∧ key x ≤ key lo := by
    intro x hx
    cases hlo : lowerMax with
    | none =>
      rw [hlo, Option.map_none] at hlower
      rw [maxKey_eq_none.mp hlower.symm] at hx
      cases hx
    | some lo =>
      rw [hlo, Option.map_some] at hlower
      exact ⟨lo, rfl, (hasclo.le_maxKey hlower.symm).1 x hx⟩
  constructor
  · have horder : (s.splitState e.2 m lowerMax lower upperMax upper).order =
        a.map Prod.snd ++ (lowerMax.map fun _ => e.2).toList ++ s.nextNode :: b.map Prod.snd := by
      rw [order, hentries]
      cases lowerMax <;> simp
    refine .split (by simp [order, hcut]) horder ?_ ?_ ?_ ?_ ?_
    · intro hin
      obtain ⟨p, hp, hpn⟩ := List.mem_map.mp hin
      exact hfresh p hp hpn
    · cases lowerMax <;> simp
    · intro hlen
      have hpos : lower ≠ [] := by
        have hhalf' : 0 < (Node.halve (s.nodes e.2)).1.length := by
          rw [Node.length_halve_fst]
          omega
        rcases hhalf with rfl | rfl
        · exact List.length_pos_iff.mp hhalf'
        · obtain ⟨x, hx⟩ := List.exists_mem_of_length_pos hhalf'
          obtain ⟨y, hy, -⟩ := find_isSome.mp
            (find_put_isSome.mpr (Or.inr (find_isSome.mpr ⟨x, hx, rfl⟩)) :
              (find key (key x) (put key v (Node.halve (s.nodes e.2)).1)).isSome)
          exact List.ne_nil_of_mem hy
      obtain ⟨x, hx⟩ := List.exists_mem_of_ne_nil _ hpos
      obtain ⟨lo, rfl, -⟩ := hlowerMax x hx
      rfl
    · rintro k hk hke q ⟨x, hx, hxq⟩
      obtain ⟨p, hp, rfl⟩ := List.mem_map.mp hk
      exact ⟨x, by rwa [hother p.2 hke (hfresh p hp)], hxq⟩
    · intro q hq
      rcases hkeys q hq with ⟨x, hx, hxq⟩ | ⟨x, hx, hxq⟩
      · obtain ⟨lo, rfl, -⟩ := hlowerMax x hx
        exact Or.inl ⟨rfl, x, hold x hx, hxq⟩
      · exact Or.inr ⟨x, hnew x hx, hxq⟩
  · intro p hp q hq
    rw [hcut] at hp
    have hside : p ∈ a ++ b → ∃ p' ∈ (s.splitState e.2 m lowerMax lower upperMax upper).entries,
        (s.splitState e.2 m lowerMax lower upperMax upper).Has p'.2 q ∧
          (key p.1 ≤ key p'.1 ∨ q ≤ key p'.1) := fun hp => by
      refine ⟨p, ?_, ?_, Or.inl le_rfl⟩
      · rw [hentries]
        rcases List.mem_append.mp hp with hp | hp <;> simp [hp]
      · obtain ⟨x, hx, hxq⟩ := hq
        exact ⟨x, by rwa [hother p.2 (hs.ne_of_cut hcut p hp) (hfresh p (mem_of_cut hcut hp))], hxq⟩
    rcases List.mem_append.mp hp with hp | hp
    · exact hside (List.mem_append_left _ hp)
    rcases List.mem_cons.mp hp with rfl | hp
    · rcases hkeys q hq with ⟨x, hx, hxq⟩ | ⟨x, hx, hxq⟩
      · obtain ⟨lo, rfl, hle⟩ := hlowerMax x hx
        exact ⟨(lo, p.2), by simp [hentries], ⟨x, hold x hx, hxq⟩, Or.inr (hxq ▸ hle)⟩
      · exact ⟨(upperMax, s.nextNode), by simp [hentries], ⟨x, hnew x hx, hxq⟩,
          Or.inr (hxq ▸ (hascup.le_maxKey hupper).1 x hx)⟩
    · exact hside (List.mem_append_right _ hp)

/-- A commit of a rekeying. -/
theorem Coherent.evolves_rekey (hs : s.Coherent) (hsorted : s.Sorted) {n : NodeId} {m max : T}
    (hreg : s.Registered n (key m)) (hmax : (s.nodes n).getLast? = some max) :
    Evolves s (s.rekeyState n m max) none ∧ Follows s (s.rekeyState n m max) := by
  obtain ⟨e, hmem, rfl, hkey⟩ := hreg
  obtain ⟨a, b, hcut⟩ := List.append_of_mem hmem
  have hm : maxKey key (s.nodes e.2) = some (key max) := by simp [maxKey, hmax]
  have hentries := hs.rekeyState_entries hcut hkey (hsorted e.2) hm
  refine ⟨.grown ?_ fun _ _ _ h => h, fun p hp q hq => ?_⟩
  · rw [order, order, hentries, hcut]
    simp
  · rw [hcut] at hp
    rcases List.mem_append.mp hp with hp | hp
    · exact ⟨p, by simp [hentries, hp], hq, Or.inl le_rfl⟩
    rcases List.mem_cons.mp hp with rfl | hp
    · obtain ⟨x, hx, rfl⟩ := hq
      exact ⟨(max, p.2), by simp [hentries], ⟨x, hx, rfl⟩,
        Or.inr (((hsorted p.2).le_maxKey hm).1 x hx)⟩
    · exact ⟨p, by simp [hentries, hp], hq, Or.inl le_rfl⟩

end BTreeSet

section Step

variable {s s' : BTreeSet M T} {events : List (ChangeEvent T)} {c : Bool} {v : T}
  {phase : Phase T} {next : Next T} {changes : List (ChangeEventUnassigned T)}

/-- **A step of an insert**, seen from the order of the nodes: only a commit of a split splits
a node. -/
theorem Turn.evolves (h : Turn s events (.insert c v) phase s' next changes)
    (hs : s.Coherent) (hsorted : s.Sorted) (hempty : phase.first → s.entries = [])
    (hfits : ∀ op ∈ phase.split, s.Registered op.1 (key op.2.1) →
      s.nodes op.1 ≠ [] ∧ s.Fits op.2.1 op.2.2)
    (hdefers : ∀ op d cdc, phase = .commit op d cdc → (Call.insert c v : Call T K).Defers op d) :
    ∃ o, BTreeSet.Evolves s s' o ∧ BTreeSet.Follows s s' ∧
      ∀ n ∈ o, ∃ m w, phase.split = some (n, m, w) ∧ s.Registered n (key m) := by
  have hgrown : BTreeSet.Evolves s s' none ∧ BTreeSet.Follows s s' →
      ∃ o, BTreeSet.Evolves s s' o ∧ BTreeSet.Follows s s' ∧
        ∀ n ∈ o, ∃ m w, phase.split = some (n, m, w) ∧ s.Registered n (key m) :=
    fun ⟨hevolves, hfollows⟩ => ⟨none, hevolves, hfollows, by simp⟩
  cases h with
  | first hcreated =>
    have hnil := hempty rfl
    -- the first node goes into an empty index
    refine hgrown ⟨.grown ?_ fun n hn => ?_, fun p hp => ?_⟩
    · rw [BTreeSet.order, hnil]
      exact List.nil_sublist _
    · rw [BTreeSet.order, hnil] at hn
      cases hn
    · rw [hnil] at hp
      cases hp
  | added _ hl _ _ _ hwrote =>
    refine hgrown (hwrote.evolves fun x hx => ⟨x, ?_, rfl⟩)
    rw [hl] at hx
    rcases List.mem_append.mp hx with hx | hx <;> simp [hx]
  | raised _ _ _ hwrote => exact hgrown (hwrote.evolves fun x hx => ⟨x, by simp [hx], rfl⟩)
  | @replaced v y m _ _ _ _ _ hl hy _ _ _ hwrote =>
    -- an overwritten element keeps its key
    refine hgrown (hwrote.evolves fun x hx => ?_)
    rw [hl] at hx
    rcases List.mem_append.mp hx with hx | hx
    · exact ⟨x, by simp [hx], rfl⟩
    rcases List.mem_cons.mp hx with rfl | hx
    · exact ⟨v, by simp, hy.symm⟩
    · exact ⟨x, by simp [hx], rfl⟩
  | splitPanic hreg hnil => exact absurd hnil (hfits _ rfl hreg).1
  | @split _ _ m n _ eventId hreg =>
    have ⟨hne, hfit⟩ := hfits _ rfl hreg
    have ⟨hevolves, hfollows⟩ :=
      BTreeSet.Evolves.counter (hs.evolves_split hsorted hreg hne hfit) eventId
    exact ⟨some n, hevolves, hfollows, fun _ hn => ⟨m, v, by cases hn; exact ⟨rfl, hreg⟩⟩⟩
  | rekeyed hreg hmax _ =>
    exact hgrown (BTreeSet.Evolves.counter (hs.evolves_rekey hsorted hreg hmax) _)
  | dropped _ _ => exact (hdefers _ _ _ rfl).elim
  -- the other steps write nothing
  | _ => exact hgrown (BTreeSet.Evolves.refl s)

end Step

namespace BTreeSet

/-! ## §4 What stays where it is -/

variable {s s' : BTreeSet M T} {o : Option NodeId} {n : NodeId} {q : K}

/-- Only a node of one element leaves the index. -/
theorem Evolves.mem (h : Evolves s s' o) (hn : n ∈ s.order)
    (hlen : o = some n → 2 ≤ (s.nodes n).length) : n ∈ s'.order := by
  cases h with
  | grown hsub _ => exact hsub.subset hn
  | @split a b kept n' new hcut hcut' _ _ hkept _ _ =>
    rw [hcut] at hn
    rw [hcut']
    rcases List.mem_append.mp hn with hn | hn
    · simp [hn]
    rcases List.mem_cons.mp hn with rfl | hn
    · rw [hkept (hlen rfl)]
      simp
    · simp [hn]

/-- Nodes that stay in the index keep their order. -/
theorem Evolves.precedes (h : Evolves s s' o) (hnodup : s.order.Nodup) {m : NodeId}
    (hmn : Precedes s.order m n) (hm : m ∈ s'.order) (hn : n ∈ s'.order) :
    Precedes s'.order m n := by
  cases h with
  | grown hsub _ => exact hmn.mono hsub
  | @split a b kept n' new hcut hcut' hnew hkept _ _ _ =>
    rw [hcut] at hmn hnodup hnew
    rw [hcut'] at hm hn ⊢
    have hgone := not_mem_of_replaced hnodup hnew
    rcases hkept with rfl | rfl
    · exact hmn.mono (by simp)
    · rcases List.sublist_or_mem_of_sublist hmn with hsub | hmem
      · exact List.Sublist.trans hsub (by simp)
      · simp only [List.mem_cons, List.not_mem_nil, or_false] at hmem
        rcases hmem with rfl | rfl
        · exact absurd (by simpa using hm) hgone
        · exact absurd (by simpa using hn) hgone

/-- A node that is not split keeps its keys. -/
theorem Evolves.has (h : Evolves s s' o) (hn : n ∈ s.order) (ho : o ≠ some n)
    (hq : s.Has n q) : s'.Has n q := by
  cases h with
  | grown _ hkeys => exact hkeys n hn q hq
  | split _ _ _ _ _ hother _ => exact hother n hn (fun heq => ho (heq ▸ rfl)) q hq

/-- What is behind a node stays behind it. -/
theorem Evolves.after (h : Evolves s s' o) (hnodup : s.order.Nodup) (hn : n ∈ s'.order)
    (hq : s.After n q) : s'.After n q := by
  obtain ⟨m, hnm, hm⟩ := hq
  by_cases ho : o = some m
  · subst ho
    cases h with
    | @split a b kept _ new hcut hcut' hnew hkept hlen hother hkeys =>
      have hna : n ∈ a := by
        rw [hcut] at hnm hnodup
        exact hnm.mem_left hnodup
      rcases hkeys q hm with ⟨rfl, hm'⟩ | hnew'
      · refine ⟨m, ?_, hm'⟩
        rw [hcut', List.append_assoc]
        exact precedes_of_mem hna (by simp)
      · refine ⟨new, ?_, hnew'⟩
        rw [hcut', List.append_assoc]
        exact precedes_of_mem hna (by simp)
  · have hm' : m ∈ s'.order := h.mem hnm.right_mem fun heq => absurd heq ho
    exact ⟨m, h.precedes hnodup hnm hn hm', h.has hnm.right_mem ho hm⟩

/-- What is before a node stays before it. -/
theorem Evolves.before (h : Evolves s s' o) (hnodup : s.order.Nodup) (hn : n ∈ s'.order)
    (hq : s.Before n q) : s'.Before n q := by
  obtain ⟨m, hmn, hm⟩ := hq
  by_cases ho : o = some m
  · subst ho
    cases h with
    | @split a b kept _ new hcut hcut' hnew hkept hlen hother hkeys =>
      have hnb : n ∈ b := by
        rw [hcut] at hmn hnodup
        exact hmn.mem_right hnodup
      rcases hkeys q hm with ⟨rfl, hm'⟩ | hnew'
      · refine ⟨m, ?_, hm'⟩
        rw [hcut', show a ++ [m] ++ new :: b = (a ++ [m]) ++ ([new] ++ b) by simp]
        exact precedes_of_mem (by simp) (by simp [hnb])
      · refine ⟨new, ?_, hnew'⟩
        rw [hcut', show a ++ kept ++ new :: b = (a ++ kept ++ [new]) ++ b by simp]
        exact precedes_of_mem (by simp) hnb
  · have hm' : m ∈ s'.order := h.mem hmn.left_mem fun heq => absurd heq ho
    exact ⟨m, h.precedes hnodup hmn hm' hn, h.has hmn.left_mem ho hm⟩

/-- What a node holds stays there or moves behind it. -/
theorem Evolves.here (h : Evolves s s' o) (hnodup : s.order.Nodup) (hn : n ∈ s.order)
    (hn' : n ∈ s'.order) (hq : s.Has n q) : s'.Has n q ∨ s'.After n q := by
  by_cases ho : o = some n
  · subst ho
    cases h with
    | @split a b kept _ new hcut hcut' hnew hkept hlen hother hkeys =>
      rcases hkeys q hq with ⟨-, hq'⟩ | hnew'
      · exact Or.inl hq'
      · rcases hkept with rfl | rfl
        · refine Or.inr ⟨new, ?_, hnew'⟩
          rw [hcut']
          exact precedes_of_mem (by simp) (by simp)
        · rw [hcut] at hnodup hnew
          exact absurd (by simpa [hcut'] using hn') (not_mem_of_replaced hnodup hnew)
  · exact Or.inl (h.has hn ho hq)

/-- What lies beyond a key stays beyond it. -/
theorem Follows.beyond (h : Follows s s') {k : K} (hq : s.Beyond k q) : s'.Beyond k q := by
  obtain ⟨hlt, p, hp, hkp, hpq⟩ := hq
  obtain ⟨p', hp', hq', hle⟩ := h p hp q hpq
  exact ⟨hlt, p', hp', hle.elim (fun hle => hkp.trans_le hle) fun hle => hlt.trans_le hle, hq'⟩

end BTreeSet

end IndexSet.Concurrent
