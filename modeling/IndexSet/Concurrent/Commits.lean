import IndexSet.Concurrent.Edits
import Mathlib.Data.List.Nodup

/-!
# What a Commit Does to the Tree

- §1 the halves of a split: the lower one takes a value not above its maximum, the upper
  one every other value, and together they hold what the node held with the value stored;
- §2 the state after a split, and what it is on a coherent set when the value fits
  between the neighbours of the node;
- §3 `UpdateMax` and `MakeUnreachable`, by cases on what the index holds for their key.
-/

namespace IndexSet.Concurrent

open KeyedList

variable {M T K : Type} [LinearOrder K] [Keyed T K] [LawfulSkipMap M T K]

/-! ## §1 Halves -/

section Halves

omit [LawfulSkipMap M T K]

/-- Where the value ends up in a half, and what it takes the place of. -/
theorem insertOrReplace_cases {l : List T} (v : T) (h : Ascending key l) :
    (∃ a x b, l = a ++ x :: b ∧ key x = key v ∧ Below key a (key v) ∧ Above key (key v) b ∧
        insertOrReplace l v = (a ++ v :: b, a.length, some x)) ∨
      (∃ a b, l = a ++ b ∧ Below key a (key v) ∧ Above key (key v) b ∧
        insertOrReplace l v = (a ++ v :: b, a.length, none)) := by
  rcases Node.insert_spec v h with ⟨a, x, b, rfl, hx, ha, hb, heval⟩ | ⟨a, b, hl, ha, hb, heval⟩
  · refine Or.inl ⟨a, x, b, rfl, hx, ha, hb, ?_⟩
    simp [insertOrReplace, heval, Node.replace_split]
  · exact Or.inr ⟨a, b, hl, ha, hb, by simp [insertOrReplace, heval]⟩

theorem insertOrReplace_spec {l : List T} (v : T) (h : Ascending key l) :
    (insertOrReplace l v).1 = put key v l ∧ (insertOrReplace l v).2.2 = find key (key v) l := by
  rcases insertOrReplace_cases v h with
    ⟨a, x, b, rfl, hx, ha, hb, heval⟩ | ⟨a, b, rfl, ha, hb, heval⟩
  · rw [heval, put_hit hx ha hb, find_hit hx ha]
    exact ⟨rfl, rfl⟩
  · rw [heval, put_gap ha hb, find_gap ha hb]
    exact ⟨rfl, rfl⟩

/-- The upper half is registered under its maximum after the value went in. -/
theorem upperHalf_spec {l : List T} {m : T} (v : T) (h : Ascending key l)
    (hm : l.getLast? = some m) :
    (upperHalf l m v).node = put key v l ∧ (upperHalf l m v).oldValue = find key (key v) l ∧
      maxKey key (put key v l) = some (key (upperHalf l m v).max) := by
  have ⟨hnode, hold⟩ := insertOrReplace_spec v h
  have hmax : maxKey key l = some (key m) := by simp [maxKey, hm]
  refine ⟨hnode, hold, ?_⟩
  rw [maxKey_put h, hmax]
  have hle := (h.le_maxKey hmax).1
  show some (max (key m) (key v)) = some (key (if (insertOrReplace l v).2.2.isNone ∧
    key m < key v then v else m))
  rw [hold]
  by_cases hlt : key m < key v
  · have hnone : find key (key v) l = none :=
      find_eq_none.mpr fun x hx => (lt_of_le_of_lt (hle x hx) hlt).ne
    rw [if_pos ⟨by simp [hnone], hlt⟩, max_eq_right hlt.le]
  · rw [if_neg fun hc => hlt hc.2, max_eq_left (not_lt.mp hlt)]

theorem halve_eq (l : List T) : (Node.halve l).1 ++ (Node.halve l).2 = l := Node.halve_append l

/-- The upper half of a non-empty node holds its maximum. -/
theorem getLast?_halve_snd {l : List T} (hne : l ≠ []) :
    (Node.halve l).2.getLast? = l.getLast? := by
  have hpos := List.length_pos_iff.mpr hne
  have hhi : (Node.halve l).2 ≠ [] := by
    rw [← List.length_pos_iff, Node.length_halve_snd]
    omega
  conv_rhs => rw [← halve_eq l, List.getLast?_append_of_ne_nil _ hhi]

end Halves

namespace BTreeSet

/-! ## §2 Splits -/

/-- The state after a split: the lower half keeps the node and is registered under
`lowerMax`, if it is not empty; the upper half is a new node. -/
def splitState (s : BTreeSet M T) (n : NodeId) (oldMax : T) (lowerMax : Option T) (lower : List T)
    (upperMax : T) (upper : List T) : BTreeSet M T :=
  let index := SkipMap.remove s.index (key oldMax)
  let index := match lowerMax with
    | some m => SkipMap.insert index m n
    | none => index
  { s with
    index := SkipMap.insert index upperMax s.nextNode
    nodes := Function.update (Function.update s.nodes n lower) s.nextNode upper
    nextNode := s.nextNode + 1 }

section Split

variable {s : BTreeSet M T} {n : NodeId} {oldMax v m : T}

/-- The value goes into the lower half. -/
theorem commitSplit_lower {lo : T} (hm : (s.nodes n).getLast? = some m)
    (hlo : (Node.halve (s.nodes n)).1.getLast? = some lo) (hle : key v ≤ key lo) :
    s.commitSplit n oldMax v =
      (s.splitState n oldMax (some lo) (insertOrReplace (Node.halve (s.nodes n)).1 v).1 m
          (Node.halve (s.nodes n)).2,
        (insertOrReplace (Node.halve (s.nodes n)).1 v).2.2,
        if s.cdc then
          .splitNode m (Node.halve (s.nodes n)).1.length ::
            halfEvents lo v (insertOrReplace (Node.halve (s.nodes n)).1 v).2.1
              (insertOrReplace (Node.halve (s.nodes n)).1 v).2.2
        else []) := by
  have hne : s.nodes n ≠ [] := fun hnil => by simp [hnil] at hm
  have hhi : (Node.halve (s.nodes n)).2.getLast? = some m := (getLast?_halve_snd hne).trans hm
  simp only [commitSplit, Node.max, hm, hlo, hhi, lowerHalf, decide_true, if_true, hle, setNode,
    newNode, splitState, Function.update_idem]
  simp

/-- The value goes into the upper half. -/
theorem commitSplit_upper (hm : (s.nodes n).getLast? = some m)
    (hlo : ∀ lo, (Node.halve (s.nodes n)).1.getLast? = some lo → key lo < key v) :
    s.commitSplit n oldMax v =
      (s.splitState n oldMax (Node.halve (s.nodes n)).1.getLast? (Node.halve (s.nodes n)).1
          (upperHalf (Node.halve (s.nodes n)).2 m v).max
          (upperHalf (Node.halve (s.nodes n)).2 m v).node,
        (upperHalf (Node.halve (s.nodes n)).2 m v).oldValue,
        if s.cdc then
          .splitNode m (Node.halve (s.nodes n)).1.length ::
            (upperHalf (Node.halve (s.nodes n)).2 m v).events
        else []) := by
  have hne : s.nodes n ≠ [] := fun hnil => by simp [hnil] at hm
  have hhi : (Node.halve (s.nodes n)).2.getLast? = some m := (getLast?_halve_snd hne).trans hm
  cases hlow : (Node.halve (s.nodes n)).1.getLast? with
  | none =>
    simp only [commitSplit, Node.max, hm, hlow, hhi, setNode, newNode, splitState,
      Bool.false_eq_true, if_false]
    simp
  | some lo =>
    have hnle : ¬ key v ≤ key lo := not_le.mpr (hlo lo hlow)
    simp only [commitSplit, Node.max, hm, hlow, hhi, lowerHalf, decide_false, setNode, newNode,
      splitState, hnle, Bool.false_eq_true, if_false, Function.update_idem]
    simp

/-- **The split, half by half**: the lower half takes a value that is not above its maximum,
the upper half every other one. -/
theorem commitSplit_cases (oldMax v : T) (hasc : Ascending key (s.nodes n))
    (hm : (s.nodes n).getLast? = some m) :
    (∃ lo, (Node.halve (s.nodes n)).1.getLast? = some lo ∧ key v ≤ key lo ∧
        put key v (s.nodes n) =
          put key v (Node.halve (s.nodes n)).1 ++ (Node.halve (s.nodes n)).2 ∧
        s.commitSplit n oldMax v =
          (s.splitState n oldMax (some lo) (put key v (Node.halve (s.nodes n)).1) m
              (Node.halve (s.nodes n)).2,
            find key (key v) (s.nodes n),
            if s.cdc then
              .splitNode m (Node.halve (s.nodes n)).1.length ::
                halfEvents lo v (insertOrReplace (Node.halve (s.nodes n)).1 v).2.1
                  (insertOrReplace (Node.halve (s.nodes n)).1 v).2.2
            else [])) ∨
      ((∀ lo, (Node.halve (s.nodes n)).1.getLast? = some lo → key lo < key v) ∧
        put key v (s.nodes n) =
          (Node.halve (s.nodes n)).1 ++ put key v (Node.halve (s.nodes n)).2 ∧
        ∃ upperMax, maxKey key (put key v (Node.halve (s.nodes n)).2) = some (key upperMax) ∧
          s.commitSplit n oldMax v =
            (s.splitState n oldMax (Node.halve (s.nodes n)).1.getLast?
                (Node.halve (s.nodes n)).1 upperMax (put key v (Node.halve (s.nodes n)).2),
              find key (key v) (s.nodes n),
              if s.cdc then
                .splitNode m (Node.halve (s.nodes n)).1.length ::
                  halfEvents m v (insertOrReplace (Node.halve (s.nodes n)).2 v).2.1
                    (insertOrReplace (Node.halve (s.nodes n)).2 v).2.2
              else [])) := by
  have hl := halve_eq (s.nodes n)
  have hhalves := hasc
  rw [← hl] at hhalves
  obtain ⟨hasclo, haschi, hacross⟩ := ascending_append.mp hhalves
  have hne : s.nodes n ≠ [] := fun hnil => by simp [hnil] at hm
  have hhi : (Node.halve (s.nodes n)).2.getLast? = some m := (getLast?_halve_snd hne).trans hm
  by_cases hlower : ∃ lo, (Node.halve (s.nodes n)).1.getLast? = some lo ∧ key v ≤ key lo
  · -- nothing of the upper half is near the value
    obtain ⟨lo, hlo, hle⟩ := hlower
    have habove : Above key (key v) (Node.halve (s.nodes n)).2 :=
      (hacross lo (List.mem_of_getLast? hlo)).trans_lt hle
    obtain ⟨hfst, hold⟩ := insertOrReplace_spec v hasclo
    refine Or.inl ⟨lo, hlo, hle, ?_, ?_⟩
    · have h := put_context (a := []) (l := (Node.halve (s.nodes n)).1)
        (b := (Node.halve (s.nodes n)).2) (v := v) (below_nil _) habove
      rw [List.nil_append, hl, List.nil_append] at h
      exact h
    · have h := find_context (a := []) (l := (Node.halve (s.nodes n)).1)
        (b := (Node.halve (s.nodes n)).2) (q := key v) (by simp) habove.ne
      rw [List.nil_append, hl] at h
      rw [commitSplit_lower hm hlo hle, hfst, hold, h]
  · have hlt : ∀ lo, (Node.halve (s.nodes n)).1.getLast? = some lo → key lo < key v :=
      fun lo hlo => not_le.mp fun hle => hlower ⟨lo, hlo, hle⟩
    have hbelow : Below key (Node.halve (s.nodes n)).1 (key v) := by
      intro x hx
      obtain ⟨lo, hlo⟩ : ∃ lo, (Node.halve (s.nodes n)).1.getLast? = some lo :=
        ⟨_, List.getLast?_eq_some_getLast (List.ne_nil_of_mem hx)⟩
      have hmax : maxKey key (Node.halve (s.nodes n)).1 = some (key lo) := by simp [maxKey, hlo]
      exact lt_of_le_of_lt ((hasclo.le_maxKey hmax).1 x hx) (hlt lo hlo)
    obtain ⟨hnode, hold, hupper⟩ := upperHalf_spec v haschi hhi
    refine Or.inr ⟨hlt, ?_, _, hupper, ?_⟩
    · have h := put_context (a := (Node.halve (s.nodes n)).1)
        (l := (Node.halve (s.nodes n)).2) (b := []) (v := v) hbelow (above_nil _)
      rw [List.append_nil, hl, List.append_nil] at h
      exact h
    · have h := find_context (a := (Node.halve (s.nodes n)).1)
        (l := (Node.halve (s.nodes n)).2) (b := []) (q := key v) hbelow.ne (by simp)
      rw [List.append_nil, hl] at h
      rw [commitSplit_upper hm hlt, hnode, hold, h]
      rfl

/-- **The split, whichever half takes the value**: the halves hold what the node held with
the value stored, each is registered under its maximum, and the element the value took the
place of is returned. -/
theorem commitSplit_spec (s : BTreeSet M T) (n : NodeId) (oldMax v : T)
    (hasc : Ascending key (s.nodes n)) (hne : s.nodes n ≠ []) :
    ∃ lowerMax lower upperMax upper,
      (s.commitSplit n oldMax v).1 = s.splitState n oldMax lowerMax lower upperMax upper ∧
      (s.commitSplit n oldMax v).2.1 = find key (key v) (s.nodes n) ∧
      lower ++ upper = put key v (s.nodes n) ∧ lowerMax.map key = maxKey key lower ∧
      maxKey key upper = some (key upperMax) ∧
      (lower = (Node.halve (s.nodes n)).1 ∨ lower = put key v (Node.halve (s.nodes n)).1) := by
  obtain ⟨m, hm⟩ : ∃ m, (s.nodes n).getLast? = some m := ⟨_, List.getLast?_eq_some_getLast hne⟩
  have hhi : (Node.halve (s.nodes n)).2.getLast? = some m := (getLast?_halve_snd hne).trans hm
  rcases commitSplit_cases oldMax v hasc hm with ⟨lo, hlo, hle, hput, heval⟩ |
    ⟨_, hput, upperMax, hupper, heval⟩
  · have hasclo : Ascending key (Node.halve (s.nodes n)).1 := hasc.sublist (List.take_sublist ..)
    have hmax : maxKey key (Node.halve (s.nodes n)).1 = some (key lo) := by simp [maxKey, hlo]
    refine ⟨some lo, _, m, _, by rw [heval], by rw [heval], hput.symm, ?_,
      by simp [maxKey, hhi], Or.inr rfl⟩
    rw [maxKey_put hasclo, hmax]
    simp [max_eq_left hle]
  · exact ⟨_, _, upperMax, _, by rw [heval], by rw [heval], hput.symm, rfl, hupper, Or.inl rfl⟩

/-- The halves are ascending when the node is. -/
theorem splitState_sorted {lowerMax : Option T} {lower upper : List T} {upperMax : T}
    (hs : s.Sorted) (hput : lower ++ upper = put key v (s.nodes n)) :
    (s.splitState n oldMax lowerMax lower upperMax upper).Sorted := by
  have hasc := put_ascending (v := v) (hs n)
  rw [← hput] at hasc
  have ⟨hlower, hupper, _⟩ := ascending_append.mp hasc
  intro k
  simp only [splitState]
  by_cases hk : k = s.nextNode
  · subst hk
    simpa using hupper
  · by_cases hn : k = n
    · subst hn
      simpa [hk] using hlower
    · simpa [hk, hn] using hs k

/-- The cells after a split: the old ones and those of the halves. -/
theorem Coherent.splitState_view (hs : s.Coherent) {a b : List (T × NodeId)} {e : T × NodeId}
    (hcut : s.entries = a ++ e :: b) {lowerMax : Option T} {lower upper : List T} {upperMax : T}
    (hentries : (s.splitState e.2 oldMax lowerMax lower upperMax upper).entries =
      a ++ (lowerMax.map fun m => (m, e.2)).toList ++ (upperMax, s.nextNode) :: b) :
    (s.splitState e.2 oldMax lowerMax lower upperMax upper).view =
      a.map s.cell ++ ((lowerMax.map fun m => (⟨m, e.2, lower⟩ : Cell T NodeId)).toList ++
        [⟨upperMax, s.nextNode, upper⟩]) ++ b.map s.cell := by
  have hother := hs.ne_of_cut hcut
  have hfresh : ∀ p ∈ a ++ e :: b, p.2 ≠ s.nextNode := fun p hp =>
    Nat.ne_of_lt (hs.allocated p (hcut ▸ hp))
  have hen : e.2 ≠ s.nextNode := hfresh e (by simp)
  have hcellOther : ∀ l : List (T × NodeId), (∀ p ∈ l, p.2 ≠ e.2 ∧ p.2 ≠ s.nextNode) →
      l.map (s.splitState e.2 oldMax lowerMax lower upperMax upper).cell = l.map s.cell :=
    fun l hl => map_cell_congr fun p hp => by simp [splitState, (hl p hp).1, (hl p hp).2]
  rw [view, hentries, List.map_append, List.map_append, List.map_cons,
    hcellOther a fun p hp => ⟨hother p (by simp [hp]), hfresh p (by simp [hp])⟩,
    hcellOther b fun p hp => ⟨hother p (by simp [hp]), hfresh p (by simp [hp])⟩]
  cases lowerMax <;> simp [cell, splitState, hen]

omit [LawfulSkipMap M T K] in
/-- Keys admissible between cells are admissible between the entries. -/
theorem Admissible.entries {a b : List (T × NodeId)} {k : K}
    (h : Admissible key (a.map s.cell) (b.map s.cell) k) :
    Below entryKey a k ∧ Above entryKey k b :=
  ⟨fun p hp => h.1 (s.cell p) (List.mem_map_of_mem hp),
    fun p hp => (h.2 (s.cell p) (List.mem_map_of_mem hp)).1⟩

/-- **A split on a coherent set**: when the value fits between the neighbours of the node,
the entry is replaced by entries for the halves, and the value is stored. -/
theorem Coherent.split (hs : s.Coherent) {a b : List (T × NodeId)} {e : T × NodeId}
    (hcut : s.entries = a ++ e :: b) (hn : e.2 = n) (hkey : key e.1 = key oldMax)
    (hasc : Ascending key (s.nodes n))
    (hv : Admissible key (a.map s.cell) (b.map s.cell) (key v))
    {lowerMax : Option T} {lower upper : List T} {upperMax : T}
    (hput : lower ++ upper = put key v (s.nodes n)) (hlower : lowerMax.map key = maxKey key lower)
    (hupper : maxKey key upper = some (key upperMax)) :
    (s.splitState n oldMax lowerMax lower upperMax upper).Coherent ∧
      (s.splitState n oldMax lowerMax lower upperMax upper).elements = put key v s.elements ∧
      (s.splitState n oldMax lowerMax lower upperMax upper).entries =
        a ++ (lowerMax.map fun m => (m, n)).toList ++ (upperMax, s.nextNode) :: b := by
  subst hn
  have hpart := hs.cut hcut
  have hput_asc := put_ascending (v := v) hasc
  rw [← hput] at hput_asc
  obtain ⟨hasclo, haschi, hacross⟩ := ascending_append.mp hput_asc
  have hadm : ∀ x ∈ lower ++ upper, Admissible key (a.map s.cell) (b.map s.cell) (key x) := by
    intro x hx
    rw [hput] at hx
    rcases mem_put.mp hx with rfl | ⟨hx, -⟩
    · exact hv
    · exact hpart.admissible_item hx
  obtain ⟨hleUpper, u, hu, huKey⟩ := haschi.le_maxKey hupper
  have hadmUpper : Admissible key (a.map s.cell) (b.map s.cell) (key upperMax) :=
    huKey ▸ hadm u (by simp [hu])
  obtain ⟨haUpper, hbUpper⟩ := Admissible.entries hadmUpper
  have hbelow : Below entryKey a (key oldMax) ∧ Above entryKey (key oldMax) b := by
    have hasc := s.entries_ascending
    rw [hcut] at hasc
    obtain ⟨_, _, ha, hb⟩ := ascending_append_cons.mp hasc
    exact ⟨hkey ▸ ha, hkey ▸ hb⟩
  have herase : erase entryKey (key oldMax) s.entries = a ++ b := by
    rw [hcut]
    exact erase_hit hkey hbelow.1 hbelow.2
  have hfresh : ∀ p ∈ a ++ e :: b, p.2 ≠ s.nextNode := fun p hp =>
    Nat.ne_of_lt (hs.allocated p (hcut ▸ hp))
  -- the entries
  have hlowFacts : ∀ lo, lowerMax = some lo →
      (∀ x ∈ lower, key x ≤ key lo) ∧ Admissible key (a.map s.cell) (b.map s.cell) (key lo) ∧
        key lo < key upperMax ∧ Above key (key lo) upper := by
    rintro lo rfl
    obtain ⟨hle, x, hx, hxlo⟩ := hasclo.le_maxKey hlower.symm
    have habove := hxlo ▸ hacross x hx
    exact ⟨hle, hxlo ▸ hadm x (by simp [hx]), huKey ▸ habove u hu, habove⟩
  have hentries : (s.splitState e.2 oldMax lowerMax lower upperMax upper).entries =
      a ++ (lowerMax.map fun m => (m, e.2)).toList ++ (upperMax, s.nextNode) :: b := by
    cases lowerMax with
    | none =>
      simp only [entries, splitState, LawfulSkipMap.iter_insert, LawfulSkipMap.iter_remove]
      rw [← entries, herase, put_gap haUpper hbUpper]
      simp
    | some lo =>
      obtain ⟨_, hadmlo, hlt, _⟩ := hlowFacts lo rfl
      obtain ⟨halo, hblo⟩ := Admissible.entries hadmlo
      simp only [entries, splitState, LawfulSkipMap.iter_insert, LawfulSkipMap.iter_remove]
      rw [← entries, herase, put_gap halo hblo,
        show a ++ (lo, e.2) :: b = (a ++ [(lo, e.2)]) ++ b by simp, put_gap ?_ hbUpper]
      · simp
      · exact (below_append ..).mpr ⟨haUpper, (below_cons ..).mpr ⟨hlt, below_nil _⟩⟩
  have hview := hs.splitState_view hcut hentries
  have hcontents : contents ((lowerMax.map fun m => (⟨m, e.2, lower⟩ : Cell T NodeId)).toList ++
      [⟨upperMax, s.nextNode, upper⟩]) = put key v (s.cell e).items := by
    show _ = put key v (s.nodes e.2)
    rw [← hput]
    cases lowerMax with
    | none =>
      have hnil := maxKey_eq_none.mp hlower.symm
      simp [hnil]
    | some lo => simp
  refine ⟨⟨?_, ?_, ?_⟩, ?_, hentries⟩
  · -- distinct names: the new one is fresh
    have hnodup := hs.distinct
    rw [hcut, List.map_append, List.map_cons] at hnodup
    have hnew : s.nextNode ∉ (a ++ e :: b).map Prod.snd := fun hmem => by
      obtain ⟨p, hp, heq⟩ := List.mem_map.mp hmem
      exact hfresh p hp heq
    rw [hentries]
    cases lowerMax with
    | none =>
      simp only [List.map_append, List.map_cons, Option.map_none, Option.toList_none,
        List.append_nil] at hnew ⊢
      refine List.nodup_middle.mpr (List.nodup_cons.mpr ⟨fun h => hnew ?_, ?_⟩)
      · rcases List.mem_append.mp h with h | h <;> simp [h]
      · exact (List.nodup_cons.mp (List.nodup_middle.mp hnodup)).2
    | some lo =>
      simp only [List.map_append, List.map_cons, Option.map_some, Option.toList_some,
        List.map_nil] at hnew ⊢
      refine List.nodup_middle.mpr (List.nodup_cons.mpr ⟨fun h => hnew ?_, ?_⟩)
      · simpa [or_assoc] using h
      · simpa using hnodup
  · intro p hp
    rw [hentries] at hp
    show p.2 < s.nextNode + 1
    have hold : ∀ p ∈ a ++ e :: b, p.2 < s.nextNode + 1 := fun p hp =>
      Nat.lt_succ_of_lt (hs.allocated p (hcut ▸ hp))
    rcases List.mem_append.mp hp with hp | hp
    · rcases List.mem_append.mp hp with hp | hp
      · exact hold p (by simp [hp])
      · cases lowerMax with
        | none => simp at hp
        | some lo =>
          rw [Option.map_some, Option.toList_some, List.mem_singleton] at hp
          exact hp ▸ hold e (by simp)
    · rcases List.mem_cons.mp hp with rfl | hp
      · exact Nat.lt_succ_self _
      · exact hold p (by simp [hp])
  · rw [hview]
    refine hpart.replace ?_ ?_ ?_
    · cases lowerMax with
      | none => simpa using partitioned_singleton (c := ⟨upperMax, s.nextNode, upper⟩) haschi
      | some lo =>
        obtain ⟨hle, _, hlt, habove⟩ := hlowFacts lo rfl
        refine ⟨?_, ?_⟩
        · simp only [Option.map_some, Option.toList_some, List.cons_append, List.nil_append,
            List.pairwise_cons, List.mem_singleton, forall_eq]
          exact ⟨⟨hlt, hle, habove⟩, by simp⟩
        · simpa using ⟨hasclo, haschi⟩
    · intro _ m hm
      cases lowerMax with
      | none =>
        simp only [Option.map_none, Option.toList_none, List.nil_append, List.mem_singleton] at hm
        subst hm
        exact hleUpper
      | some lo =>
        simp only [Option.map_some, Option.toList_some, List.cons_append, List.nil_append,
          List.mem_cons, List.not_mem_nil, or_false] at hm
        rcases hm with rfl | rfl
        · exact (hlowFacts lo rfl).1
        · exact hleUpper
    · intro m hm
      cases lowerMax with
      | none =>
        simp only [Option.map_none, Option.toList_none, List.nil_append, List.mem_singleton] at hm
        subst hm
        exact ⟨hadmUpper, fun x hx => hadm x (by simp [hx])⟩
      | some lo =>
        simp only [Option.map_some, Option.toList_some, List.cons_append, List.nil_append,
          List.mem_cons, List.not_mem_nil, or_false] at hm
        rcases hm with rfl | rfl
        · exact ⟨(hlowFacts lo rfl).2.1, fun x hx => hadm x (by simp [hx])⟩
        · exact ⟨hadmUpper, fun x hx => hadm x (by simp [hx])⟩
  · rw [elements, elements, hview, view_cut hcut, ← hpart.contents_put hv hcontents]

/-- The entries after a split: the old ones, whose nodes are as they were, and those of the
halves. -/
theorem Coherent.split_entry_cases (hs : s.Coherent) {a b : List (T × NodeId)} {e : T × NodeId}
    (hcut : s.entries = a ++ e :: b) {lowerMax : Option T} {lower upper : List T} {upperMax : T}
    (hentries : (s.splitState e.2 oldMax lowerMax lower upperMax upper).entries =
      a ++ (lowerMax.map fun m => (m, e.2)).toList ++ (upperMax, s.nextNode) :: b) :
    ∀ p ∈ (s.splitState e.2 oldMax lowerMax lower upperMax upper).entries,
      (p ∈ a ++ b ∧
        (s.splitState e.2 oldMax lowerMax lower upperMax upper).nodes p.2 = s.nodes p.2) ∨
      (lowerMax = some p.1 ∧
        (s.splitState e.2 oldMax lowerMax lower upperMax upper).nodes p.2 = lower) ∨
      (p.1 = upperMax ∧
        (s.splitState e.2 oldMax lowerMax lower upperMax upper).nodes p.2 = upper) := by
  have hother := hs.ne_of_cut hcut
  have hfresh : ∀ p ∈ s.entries, p.2 ≠ s.nextNode := fun p hp => Nat.ne_of_lt (hs.allocated p hp)
  have hen : e.2 ≠ s.nextNode := hfresh e (by simp [hcut])
  have hkeep : ∀ p ∈ a ++ b,
      (s.splitState e.2 oldMax lowerMax lower upperMax upper).nodes p.2 = s.nodes p.2 := by
    intro p hp
    simp [splitState, hother p hp, hfresh p (mem_of_cut hcut hp)]
  intro p hp
  rw [hentries] at hp
  rcases List.mem_append.mp hp with hp | hp
  · rcases List.mem_append.mp hp with hp | hp
    · have hmem : p ∈ a ++ b := by simp [hp]
      exact Or.inl ⟨hmem, hkeep p hmem⟩
    · rw [Option.mem_toList] at hp
      obtain ⟨m, rfl, rfl⟩ := Option.map_eq_some_iff.mp hp
      exact Or.inr (Or.inl ⟨rfl, by simp [splitState, hen]⟩)
  · rcases List.mem_cons.mp hp with rfl | hp
    · exact Or.inr (Or.inr ⟨rfl, by simp [splitState]⟩)
    · have hmem : p ∈ a ++ b := by simp [hp]
      exact Or.inl ⟨hmem, hkeep p hmem⟩

/-- Every entry after a split is exact, or is an old one whose node is as it was. -/
theorem Coherent.split_entries (hs : s.Coherent) {a b : List (T × NodeId)} {e : T × NodeId}
    (hcut : s.entries = a ++ e :: b) {lowerMax : Option T} {lower upper : List T} {upperMax : T}
    (hentries : (s.splitState e.2 oldMax lowerMax lower upperMax upper).entries =
      a ++ (lowerMax.map fun m => (m, e.2)).toList ++ (upperMax, s.nextNode) :: b)
    (hlower : lowerMax.map key = maxKey key lower)
    (hupper : maxKey key upper = some (key upperMax)) :
    ∀ p ∈ (s.splitState e.2 oldMax lowerMax lower upperMax upper).entries,
      (s.splitState e.2 oldMax lowerMax lower upperMax upper).Exact p ∨
        p ∈ a ++ b ∧
          (s.splitState e.2 oldMax lowerMax lower upperMax upper).nodes p.2 = s.nodes p.2 := by
  intro p hp
  rcases hs.split_entry_cases hcut hentries p hp with hold | ⟨rfl, hnode⟩ | ⟨hmax, hnode⟩
  · exact Or.inr hold
  · refine Or.inl ?_
    rw [Exact, hnode, ← hlower]
    rfl
  · refine Or.inl ?_
    rw [Exact, hnode, hupper, hmax]

end Split

/-! ## §3 Commits by cases -/

/-- Move an entry to another key. -/
def rekeyState (s : BTreeSet M T) (n : NodeId) (oldMax newMax : T) : BTreeSet M T :=
  { s with index := SkipMap.insert (SkipMap.remove s.index (key oldMax)) newMax n }

/-- Take an entry out of the index. -/
def dropState (s : BTreeSet M T) (oldMax : T) : BTreeSet M T :=
  { s with index := SkipMap.remove s.index (key oldMax) }

variable (s : BTreeSet M T) (n : NodeId) (oldMax v : T)

/-- The entry an operation names is there, and the index is cut at it, or it is not. -/
theorem registered_cut :
    (¬ s.Registered n (key oldMax) ∧
        ∀ e, SkipMap.get s.index (key oldMax) = some e → e.2 ≠ n) ∨
      (∃ a e b, s.entries = a ++ e :: b ∧ e.2 = n ∧ key e.1 = key oldMax ∧
        SkipMap.get s.index (key oldMax) = some e) := by
  by_cases h : s.Registered n (key oldMax)
  · obtain ⟨e, he, hn⟩ := registered_iff.mp h
    obtain ⟨a, b, hcut, hkey, -, -⟩ := get_cut he
    exact Or.inr ⟨a, e, b, hcut, hn, hkey, he⟩
  · exact Or.inl ⟨h, fun e he hn => h (registered_iff.mpr ⟨e, he, hn⟩)⟩

theorem commit_split_cases :
    (¬ s.Registered n (key oldMax) ∧
        s.commit (.split n oldMax v) = some (s, .error ())) ∨
      (∃ a e b, s.entries = a ++ e :: b ∧ e.2 = n ∧ key e.1 = key oldMax ∧
        ((s.cdc = true ∧ s.nodes n = [] ∧ s.commit (.split n oldMax v) = none) ∨
          (¬ (s.cdc = true ∧ s.nodes n = []) ∧ s.commit (.split n oldMax v) =
            some ((s.commitSplit n oldMax v).1, .ok (s.commitSplit n oldMax v).2)))) := by
  rcases s.registered_cut n oldMax with ⟨hnot, hget⟩ | ⟨a, e, b, hcut, hn, hkey, hget⟩
  · refine Or.inl ⟨hnot, ?_⟩
    cases he : SkipMap.get s.index (key oldMax) with
    | none => simp [commit, he]
    | some e => simp [commit, he, hget e he]
  · refine Or.inr ⟨a, e, b, hcut, hn, hkey, ?_⟩
    have hmax : Node.max (s.nodes n) = none ↔ s.nodes n = [] := List.getLast?_eq_none_iff
    by_cases hpanic : s.cdc = true ∧ s.nodes n = []
    · refine Or.inl ⟨hpanic.1, hpanic.2, ?_⟩
      simp [commit, hget, hn, hpanic.1, hmax.mpr hpanic.2]
    · refine Or.inr ⟨hpanic, ?_⟩
      simp only [commit, hget, hn, hmax, if_true, if_neg hpanic]

theorem commit_updateMax_cases :
    (s.nodes n = [] ∧ s.commit (.updateMax n oldMax) = some (s, .ok (none, []))) ∨
      (s.nodes n ≠ [] ∧ ¬ s.Registered n (key oldMax) ∧
        s.commit (.updateMax n oldMax) = some (s, .error ())) ∨
      (∃ a e b m, s.entries = a ++ e :: b ∧ e.2 = n ∧ key e.1 = key oldMax ∧
        (s.nodes n).getLast? = some m ∧
        ((key m = key oldMax ∧ s.commit (.updateMax n oldMax) = some (s, .ok (none, []))) ∨
          (key m ≠ key oldMax ∧ s.commit (.updateMax n oldMax) =
            some (s.rekeyState n oldMax m, .ok (none, []))))) := by
  cases hm : (s.nodes n).getLast? with
  | none =>
    refine Or.inl ⟨List.getLast?_eq_none_iff.mp hm, ?_⟩
    simp [commit, Node.max, hm]
  | some m =>
    have hne : s.nodes n ≠ [] := fun hnil => by simp [hnil] at hm
    rcases s.registered_cut n oldMax with ⟨hnot, hget⟩ | ⟨a, e, b, hcut, hn, hkey, hget⟩
    · refine Or.inr (Or.inl ⟨hne, hnot, ?_⟩)
      cases he : SkipMap.get s.index (key oldMax) with
      | none => simp [commit, Node.max, hm, he]
      | some e => simp [commit, Node.max, hm, he, hget e he]
    · refine Or.inr (Or.inr ⟨a, e, b, m, hcut, hn, hkey, rfl, ?_⟩)
      simp only [commit, Node.max, hm, hget, hn, if_true]
      rcases lt_trichotomy (key m) (key oldMax) with hlt | heq | hgt
      · refine Or.inr ⟨hlt.ne, ?_⟩
        rw [compare_lt_iff_lt.mpr hlt]
        rfl
      · refine Or.inl ⟨heq, ?_⟩
        rw [compare_eq_iff_eq.mpr heq]
      · refine Or.inr ⟨hgt.ne', ?_⟩
        rw [compare_gt_iff_gt.mpr hgt]
        rfl

theorem commit_makeUnreachable_cases :
    (¬ s.Registered n (key oldMax) ∧
        s.commit (.makeUnreachable n oldMax) = some (s, .error ())) ∨
      (∃ a e b, s.entries = a ++ e :: b ∧ e.2 = n ∧ key e.1 = key oldMax ∧
        ((∃ k, maxKey key (s.nodes n) = some k ∧ key oldMax ≤ k ∧
            s.commit (.makeUnreachable n oldMax) = some (s, .error ())) ∨
          ((∀ k, maxKey key (s.nodes n) = some k → k < key oldMax) ∧
            s.commit (.makeUnreachable n oldMax) = some (s.dropState oldMax,
              .ok (none, if s.cdc then [.removeNode oldMax] else []))))) := by
  rcases s.registered_cut n oldMax with ⟨hnot, hget⟩ | ⟨a, e, b, hcut, hn, hkey, hget⟩
  · refine Or.inl ⟨hnot, ?_⟩
    cases he : SkipMap.get s.index (key oldMax) with
    | none => simp [commit, he]
    | some e => simp [commit, he, hget e he]
  · refine Or.inr ⟨a, e, b, hcut, hn, hkey, ?_⟩
    simp only [commit, hget, hn, if_true]
    cases hm : (s.nodes n).getLast? with
    | none =>
      refine Or.inr ⟨by simp [maxKey, hm], ?_⟩
      simp only [Node.max, hm, compareMax]
      rfl
    | some m =>
      have hmax : maxKey key (s.nodes n) = some (key m) := by simp [maxKey, hm]
      simp only [Node.max, hm, compareMax]
      rcases lt_trichotomy (key m) (key oldMax) with hlt | heq | hgt
      · refine Or.inr ⟨fun k hk => Option.some.inj (hmax.symm.trans hk) ▸ hlt, ?_⟩
        rw [compare_lt_iff_lt.mpr hlt]
        rfl
      · refine Or.inl ⟨key m, hmax, heq.ge, ?_⟩
        rw [compare_eq_iff_eq.mpr heq]
      · refine Or.inl ⟨key m, hmax, hgt.le, ?_⟩
        rw [compare_gt_iff_gt.mpr hgt]

variable {s n oldMax v}

theorem dropState_entries {a b : List (T × NodeId)} {e : T × NodeId}
    (hcut : s.entries = a ++ e :: b) (hkey : key e.1 = key oldMax) :
    (s.dropState oldMax).entries = a ++ b := by
  have hasc := s.entries_ascending
  rw [hcut] at hasc
  have ⟨_, _, ha, hb⟩ := ascending_append_cons.mp hasc
  rw [entries, dropState, LawfulSkipMap.iter_remove, ← entries, hcut]
  exact erase_hit hkey (hkey ▸ ha) (hkey ▸ hb)

theorem Coherent.rekeyState_entries (hs : s.Coherent) {a b : List (T × NodeId)} {e : T × NodeId}
    (hcut : s.entries = a ++ e :: b) (hkey : key e.1 = key oldMax)
    (hasc : Ascending key (s.nodes e.2)) {m : T} (hm : maxKey key (s.nodes e.2) = some (key m)) :
    (s.rekeyState e.2 oldMax m).entries = a ++ (m, e.2) :: b := by
  have hdrop : (s.dropState oldMax).entries = a ++ b := dropState_entries hcut hkey
  have ⟨_, x, hx, hxm⟩ := hasc.le_maxKey hm
  have hadm : Admissible key (a.map s.cell) (b.map s.cell) (key m) :=
    hxm ▸ (hs.cut hcut).admissible_item hx
  have ⟨ha, hb⟩ := Admissible.entries hadm
  rw [entries, rekeyState, LawfulSkipMap.iter_insert]
  rw [entries, dropState] at hdrop
  rw [hdrop]
  exact put_gap ha hb

/-- Moving the one inexact entry to its maximum brings the set to rest. -/
theorem AtRest.of_rekey {a b : List (T × NodeId)} {e : T × NodeId} {m : T} (hcoh : s.Coherent)
    (hsorted : s.Sorted) (hcut : s.entries = a ++ e :: b) (hkey : key e.1 = key oldMax)
    (hm : maxKey key (s.nodes e.2) = some (key m)) (hexact : ∀ p ∈ a ++ b, s.Exact p) :
    (s.rekeyState e.2 oldMax m).AtRest ∧
      (s.rekeyState e.2 oldMax m).entries = a ++ (m, e.2) :: b ∧
      (s.rekeyState e.2 oldMax m).elements = s.elements := by
  have hentries := hcoh.rekeyState_entries hcut hkey (hsorted e.2) hm
  obtain ⟨hcoh', helems⟩ : (s.rekeyState e.2 oldMax m).Coherent ∧ _ :=
    hcoh.rekey hcut hm hentries rfl rfl
  refine ⟨⟨hcoh', hsorted, fun p hp => ?_⟩, hentries, helems⟩
  rw [hentries] at hp
  rcases List.mem_append.mp hp with hp | hp
  · exact hexact p (by simp [hp])
  · rcases List.mem_cons.mp hp with rfl | hp
    · exact hm
    · exact hexact p (by simp [hp])

/-- Taking out the one inexact entry brings the set to rest. -/
theorem AtRest.of_drop {a b : List (T × NodeId)} {e : T × NodeId} (hcoh : s.Coherent)
    (hsorted : s.Sorted) (hcut : s.entries = a ++ e :: b) (hkey : key e.1 = key oldMax)
    (hexact : ∀ p ∈ a ++ b, s.Exact p) :
    (s.dropState oldMax).AtRest ∧ (s.dropState oldMax).entries = a ++ b ∧
      (s.nodes e.2 = [] → (s.dropState oldMax).elements = s.elements) := by
  have hentries := dropState_entries hcut hkey
  obtain ⟨hcoh', helems⟩ : (s.dropState oldMax).Coherent ∧ _ := hcoh.drop hcut hentries rfl rfl
  refine ⟨⟨hcoh', hsorted, fun p hp => ?_⟩, hentries, helems⟩
  rw [hentries] at hp
  exact hexact p hp

end BTreeSet

end IndexSet.Concurrent
