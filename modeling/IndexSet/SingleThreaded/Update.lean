import IndexSet.SingleThreaded.Layout

/-!
# Updates of the Single-Threaded `BTreeSet`

One specification per mutating primitive: it does not panic, it keeps `Valid`, and it
changes the element list as the reference operation does.

- `locateIth_spec`: positions through the Fenwick index;
- `insertAt_spec_of_splitsWell`: the plain insert and the two halves of a split;
- `deleteAt_spec`: in-place removal and removal of an emptied node;
- `splitOffAt_spec`: the cut of the node list.
-/

namespace IndexSet

open KeyedList

namespace BTreeSet

variable {T F K : Type} [LinearOrder K] [Keyed T K] [LawfulFenwickTree F]

/-! ## §1 Positions -/

/-- The Fenwick prefix sums count the elements of the leading nodes. -/
theorem prefixSum_eq_length {s : BTreeSet T F} (hs : s.Valid) (k : ℕ) :
    FenwickTree.prefixSum s.index k 0 = (s.inner.take k).flatten.length := by
  rw [LawfulFenwickTree.prefixSum_eq, hs.index_eq, List.length_flatten, List.map_take,
    Nat.zero_add]

/-- `index_of` searches the prefix lengths. -/
theorem indexOf_eq_findGreatest {s : BTreeSet T F} (hs : s.Valid) (i : ℕ) :
    FenwickTree.indexOf s.index i =
      Nat.findGreatest (fun k => (s.inner.take k).flatten.length < i) s.inner.length := by
  rw [LawfulFenwickTree.indexOf_eq, hs.index_eq, List.length_map]
  congr 1
  funext k
  rw [List.length_flatten, List.map_take]

/-- The node `index_of` points at: `i` lies past the nodes before it and not past its end. -/
theorem indexOf_spec {s : BTreeSet T F} (hs : s.Valid) {i : ℕ} (hi : i ≤ s.toList.length)
    (hpos : 0 < i) :
    ∃ pre l post, s.inner = pre ++ l :: post ∧ FenwickTree.indexOf s.index i = pre.length ∧
      pre.flatten.length < i ∧ i ≤ pre.flatten.length + l.length := by
  have hidx := indexOf_eq_findGreatest hs i
  generalize hk : Nat.findGreatest (fun k => (s.inner.take k).flatten.length < i)
    s.inner.length = k at hidx
  have hlow : (s.inner.take k).flatten.length < i := by
    rw [← hk]
    exact Nat.findGreatest_spec (P := fun k => (s.inner.take k).flatten.length < i)
      (Nat.zero_le _) (by simpa using hpos)
  have hle : k ≤ s.inner.length := hk ▸ Nat.findGreatest_le _
  have hklt : k < s.inner.length := by
    refine lt_of_le_of_ne hle fun heq => ?_
    rw [heq, List.take_length] at hlow
    exact absurd hi (not_le.mpr hlow)
  have hcut : s.inner = s.inner.take k ++ s.inner[k] :: s.inner.drop (k + 1) := by
    rw [List.getElem_cons_drop, List.take_append_drop]
  have htake : (s.inner.take k).length = k := List.length_take_of_le hle
  refine ⟨s.inner.take k, s.inner[k], s.inner.drop (k + 1), hcut, by rw [hidx, htake], hlow, ?_⟩
  have hhigh : ¬ (s.inner.take (k + 1)).flatten.length < i :=
    Nat.findGreatest_is_greatest (P := fun k => (s.inner.take k).flatten.length < i)
      (by rw [hk]; exact Nat.lt_succ_self k) hklt
  have hsum : (s.inner.take (k + 1)).flatten.length =
      (s.inner.take k).flatten.length + (s.inner[k]).length := by
    rw [List.take_succ_eq_append_getElem hklt, List.flatten_append, List.length_append]
    simp
  omega

/-- `locate_ith` from the node `index_of` points at: past its end comes the next node. -/
theorem locateIth_of_indexOf {s : BTreeSet T F} (hs : s.Valid) {i : ℕ}
    {pre post : List (List T)} {l : List T} (hinner : s.inner = pre ++ l :: post)
    (hidx : FenwickTree.indexOf s.index i = pre.length) (hlow : pre.flatten.length ≤ i) :
    s.locateIth i =
      if i - pre.flatten.length = l.length then some (pre.length + 1, 0)
      else some (pre.length, i - pre.flatten.length) := by
  have hoffset : (if pre.length ≠ 0 then FenwickTree.prefixSum s.index pre.length 0 else 0) =
      pre.flatten.length := by
    rw [prefixSum_eq_length hs, hinner, List.take_left' rfl]
    cases pre <;> simp
  simp only [locateIth, hidx, hoffset, checkedSub, if_pos hlow, hinner, getElem?_split]
  rfl

/-- **`locate_ith`**: below the length, the `i`-th position of the element list. -/
theorem locateIth_spec {s : BTreeSet T F} (hs : s.Valid) {i : ℕ} (hi : i < s.toList.length) :
    ∃ pre a x b post, s.inner = pre ++ (a ++ x :: b) :: post ∧
      s.locateIth i = some (pre.length, a.length) ∧ (pre.flatten ++ a).length = i := by
  rcases Nat.eq_zero_or_pos i with rfl | hpos
  · -- position zero: the first node holds it
    have hidx : FenwickTree.indexOf s.index 0 = 0 := by
      rw [indexOf_eq_findGreatest hs, Nat.findGreatest_eq_zero_iff]
      simp
    obtain ⟨node, post, hinner⟩ := List.exists_cons_of_ne_nil hs.layout.ne_nil
    cases node with
    | nil =>
      have hpost := Layout.tail_of_nil (hinner ▸ hs.layout)
      simp [toList, hinner, hpost] at hi
    | cons x b =>
      refine ⟨[], [], x, b, post, hinner, ?_, rfl⟩
      simp [locateIth, hidx, checkedSub, hinner]
  · obtain ⟨pre, l, post, hinner, hidx, hlow, hhigh⟩ := indexOf_spec hs hi.le hpos
    have hlocate := locateIth_of_indexOf hs hinner hidx hlow.le
    by_cases hend : i - pre.flatten.length = l.length
    · -- one past the end of the node: the first position of the next one
      rw [hlocate, if_pos hend]
      have htotal : i < pre.flatten.length + (l.length + post.flatten.length) := by
        simpa [toList, hinner] using hi
      cases post with
      | nil =>
        rw [List.flatten_nil, List.length_nil] at htotal
        omega
      | cons node post =>
        have hne := hs.layout
        rw [hinner] at hne
        have hnode := hne.nonempty_of_length (Or.inr (by simp)) node (by simp)
        obtain ⟨x, b, rfl⟩ := List.exists_cons_of_ne_nil hnode
        refine ⟨pre ++ [l], [], x, b, post, by simp [hinner], by simp, ?_⟩
        have hlen : ((pre ++ [l]).flatten ++ []).length = pre.flatten.length + l.length := by
          rw [List.append_nil, List.flatten_append, List.length_append, List.flatten_singleton]
        omega
    · rw [hlocate, if_neg hend]
      have hlt : i - pre.flatten.length < l.length := by omega
      refine ⟨pre, l.take (i - pre.flatten.length), l[i - pre.flatten.length],
        l.drop (i - pre.flatten.length + 1), post, ?_, ?_, ?_⟩
      · rw [List.getElem_cons_drop, List.take_append_drop, hinner]
      · rw [List.length_take_of_le hlt.le]
      · rw [List.length_append, List.length_take_of_le hlt.le]
        omega

/-- From the length on, `locate_ith` points behind the last node. -/
theorem locateIth_end {s : BTreeSet T F} (hs : s.Valid) {i : ℕ} (hi : s.toList.length ≤ i) :
    ∃ j, s.locateIth i = some (s.inner.length, j) := by
  rcases hi.eq_or_lt with rfl | hlt
  · -- the length itself is one past the end of the last node
    obtain ⟨pre, l, hinner, hidx, hlen⟩ : ∃ pre l, s.inner = pre ++ [l] ∧
        FenwickTree.indexOf s.index s.toList.length = pre.length ∧
        s.toList.length = pre.flatten.length + l.length := by
      rcases Nat.eq_zero_or_pos s.toList.length with hzero | hpos
      · obtain ⟨node, nodes, hinner⟩ := List.exists_cons_of_ne_nil hs.layout.ne_nil
        have hnil : node = [] ∧ nodes.flatten = [] := by
          rw [toList, hinner, List.flatten_cons] at hzero
          exact List.append_eq_nil_iff.mp (List.length_eq_zero_iff.mp hzero)
        obtain ⟨rfl, -⟩ := hnil
        have hnodes := Layout.tail_of_nil (hinner ▸ hs.layout)
        refine ⟨[], [], by rw [hinner, hnodes]; rfl, ?_, hzero⟩
        rw [hzero, indexOf_eq_findGreatest hs, List.length_nil, Nat.findGreatest_eq_zero_iff]
        simp
      · obtain ⟨pre, l, post, hinner, hidx, hlow, hhigh⟩ := indexOf_spec hs le_rfl hpos
        have htotal : s.toList.length = pre.flatten.length + (l.length + post.flatten.length) := by
          simp [toList, hinner]
        have hpost : post = [] := by
          by_contra hne
          obtain ⟨node, nodes, rfl⟩ := List.exists_cons_of_ne_nil hne
          have hnode := (hinner ▸ hs.layout).nonempty_of_length (Or.inr hne) node (by simp)
          have hpos := List.length_pos_iff.mpr hnode
          rw [List.flatten_cons, List.length_append] at htotal
          omega
        subst hpost
        exact ⟨pre, l, hinner, hidx, by simpa using htotal⟩
    refine ⟨0, ?_⟩
    rw [locateIth_of_indexOf hs hinner hidx (by omega), if_pos (by omega), hinner]
    simp
  · have hidx : FenwickTree.indexOf s.index i = s.inner.length := by
      rw [indexOf_eq_findGreatest hs]
      exact Nat.findGreatest_eq (by rwa [List.take_length])
    have hne : s.inner.length ≠ 0 := fun h => hs.layout.ne_nil (List.length_eq_zero_iff.mp h)
    refine ⟨i - s.toList.length, ?_⟩
    simp only [locateIth, hidx, if_pos hne, prefixSum_eq_length hs, List.take_length,
      List.getElem?_eq_none (le_refl s.inner.length)]
    rw [checkedSub, if_pos (show s.inner.flatten.length ≤ i from hi)]
    rfl

/-! ## §2 Insertion -/

/-- The Fenwick index after one node changed its length by `add_at`. -/
theorem counts_addAt_split {s : BTreeSet T F}
    (hindex : LawfulFenwickTree.counts s.index = s.inner.map List.length)
    {pre post : List (List T)} {l l' : List T} (hinner : s.inner = pre ++ l :: post)
    (hlen : l'.length = l.length + 1) :
    LawfulFenwickTree.counts (FenwickTree.addAt s.index pre.length 1) =
      (pre ++ l' :: post).map List.length := by
  have hcounts : LawfulFenwickTree.counts s.index =
      pre.map List.length ++ l.length :: post.map List.length := by
    rw [hindex, hinner, List.map_append, List.map_cons]
  rw [LawfulFenwickTree.counts_addAt _ _ _ (by rw [hcounts]; simp), hcounts,
    List.map_append, List.map_cons, hlen]
  simpa using modify_split (pre.map List.length) (post.map List.length) l.length (· + 1)

/-- The Fenwick index after one node changed its length by `sub_at`. -/
theorem counts_subAt_split {s : BTreeSet T F}
    (hindex : LawfulFenwickTree.counts s.index = s.inner.map List.length)
    {pre post : List (List T)} {l r : List T} (hinner : s.inner = pre ++ l :: post)
    (hlen : l.length = r.length + 1) :
    LawfulFenwickTree.counts (FenwickTree.subAt s.index pre.length 1) =
      (pre ++ r :: post).map List.length := by
  have hcounts : LawfulFenwickTree.counts s.index =
      pre.map List.length ++ l.length :: post.map List.length := by
    rw [hindex, hinner, List.map_append, List.map_cons]
  rw [LawfulFenwickTree.counts_subAt _ _ _ l.length (by rw [hcounts]; simp) (by omega), hcounts,
    List.map_append, List.map_cons]
  have h := modify_split (pre.map List.length) (post.map List.length) l.length (· - 1)
  rw [List.length_map] at h
  rw [h, hlen]
  rfl

/-- Splitting the node to take in the value leaves no empty half: the node has two elements, or
the value goes into the lower half. -/
def SplitsWell (s : BTreeSet T F) (l : List T) (v : T) : Prop :=
  2 ≤ s.nodeCapacity ∨ (0 < s.nodeCapacity ∧ Above key (key v) l)

/-- No node is longer than the maximum node size. -/
def Bounded (s : BTreeSet T F) : Prop := ∀ node ∈ s.inner, node.length ≤ s.nodeCapacity

/-- The maximum node size stays, and so does the bound it is for the nodes. -/
def BoundKept (s s' : BTreeSet T F) : Prop :=
  s'.nodeCapacity = s.nodeCapacity ∧ (s.Bounded → s'.Bounded)

omit [LinearOrder K] [Keyed T K] [LawfulFenwickTree F] in
theorem BoundKept.refl (s : BTreeSet T F) : s.BoundKept s := ⟨rfl, id⟩

omit [LinearOrder K] [Keyed T K] [LawfulFenwickTree F] in
theorem BoundKept.trans {s s' s'' : BTreeSet T F} (h : s.BoundKept s') (h' : s'.BoundKept s'') :
    s.BoundKept s'' :=
  ⟨h'.1.trans h.1, fun hbound => h'.2 (h.2 hbound)⟩

omit [LawfulFenwickTree F] in
/-- Replacing a node by nodes within the bound. -/
theorem Bounded.replace {s : BTreeSet T F} (h : s.Bounded) {pre post nodes : List (List T)}
    {l : List T} (hinner : s.inner = pre ++ l :: post)
    (hnodes : ∀ node ∈ nodes, node.length ≤ s.nodeCapacity) :
    ∀ node ∈ pre ++ nodes ++ post, node.length ≤ s.nodeCapacity := by
  intro node hnode
  rw [List.mem_append, List.mem_append] at hnode
  rcases hnode with (hpre | hnode) | hpost
  · exact h node (by simp [hinner, hpre])
  · exact hnodes node hnode
  · exact h node (by simp [hinner, hpost])

/-- The node insert of a full node: it is halved, and the half the value belongs to takes it. -/
private theorem insertAt_full {s : BTreeSet T F} {pre post : List (List T)} {l : List T} {v : T}
    (hinner : s.inner = pre ++ l :: post) (hl : Ascending key l)
    (hfull : l.length = s.nodeCapacity) (hsplit : s.SplitsWell l v) :
    ∃ nodes : List (List T), nodes ≠ [] ∧ (∀ node ∈ nodes, node ≠ []) ∧
      (∀ node ∈ nodes, node.length ≤ s.nodeCapacity) ∧ nodes.flatten = add key v l ∧
      s.insertAt pre.length v =
        some ({ s with
            inner := pre ++ nodes ++ post
            index := lengthIndex (pre ++ nodes ++ post)
            len := if (find key (key v) l).isNone then s.len + 1 else s.len },
          (find key (key v) l).isNone) := by
  have hhalves := Node.halve_append l
  have hlen₁ := Node.length_halve_fst l
  have hlen₂ := Node.length_halve_snd l
  rcases hhalve : Node.halve l with ⟨L, R⟩
  rw [hhalve] at hhalves hlen₁ hlen₂
  dsimp only at hhalves hlen₁ hlen₂
  have hpos : 0 < s.nodeCapacity := hsplit.elim (fun h => by omega) And.left
  obtain ⟨front, R', rfl⟩ := List.exists_cons_of_length_pos (l := R) (by omega)
  have hcut := hl
  rw [← hhalves] at hcut
  have ⟨hascL, hascR', hLfront, hfrontR'⟩ := ascending_append_cons.mp hcut
  have hascR : Ascending key (front :: R') := (ascending_append.mp hcut).2.1
  -- the node list right after the split
  have hnodes : (s.inner.set pre.length L).insertIdx (pre.length + 1) (front :: R') =
      pre ++ L :: (front :: R') :: post := by
    rw [hinner, set_split]
    have h := insertIdx_split (pre ++ [L]) post (front :: R')
    simpa using h
  by_cases hside : key front ≤ key v
  · -- the upper half takes the value, so the node has a lower half
    have hL : L ≠ [] := by
      rcases hsplit with htwo | ⟨-, habove⟩
      · exact List.ne_nil_of_length_pos (by omega)
      · have hlt : key v < key front := habove front (by simp [← hhalves])
        exact absurd hside (not_le.mpr hlt)
    have hbelow : Below key L (key v) := hLfront.trans_lt hside
    have hfind : find key (key v) l = find key (key v) (front :: R') := by
      rw [← hhalves]
      simpa using find_context (l := front :: R') (b := []) hbelow.ne (above_nil (key v)).ne
    have ⟨hins₁, hins₂⟩ := Node.insert_eq_add v hascR
    have hlower := List.length_pos_iff.mpr hL
    refine ⟨[L, add key v (front :: R')], by simp, ?_, ?_, ?_, ?_⟩
    · intro node hnode
      rcases List.mem_cons.mp hnode with rfl | hnode
      · exact hL
      · exact List.mem_singleton.mp hnode ▸ add_ne_nil v _
    · intro node hnode
      rcases List.mem_cons.mp hnode with rfl | hnode
      · omega
      · obtain rfl := List.mem_singleton.mp hnode
        have hadd := length_add_le hascR v
        omega
    · rw [← hhalves]
      simpa using (add_context (l := front :: R') (b := []) hbelow (above_nil (key v))).symm
    · have hget : (pre ++ L :: (front :: R') :: post)[pre.length + 1]? = some (front :: R') := by
        simp
      have hset : (pre ++ L :: (front :: R') :: post).set (pre.length + 1)
          (add key v (front :: R')) = pre ++ [L, add key v (front :: R')] ++ post := by
        simp
      unfold insertAt
      simp only [hinner, getElem?_split, Option.bind_eq_bind, Option.bind_some, if_pos hfull,
        hhalve, List.getElem?_cons_zero, if_pos hside]
      rw [← hinner, hnodes]
      simp only [hget, Option.bind_some, hins₁, hins₂, hset, hfind]
      split <;> rename_i hnew <;> simp [hnew]
  · -- the lower half takes the value
    have habove : Above key (key v) (front :: R') :=
      (above_cons _ _ _).mpr ⟨not_le.mp hside, hfrontR'.trans_lt (not_le.mp hside).le⟩
    have hfind : find key (key v) l = find key (key v) L := by
      rw [← hhalves]
      simpa using find_context (a := []) (l := L) (below_nil (key v)).ne habove.ne
    have ⟨hins₁, hins₂⟩ := Node.insert_eq_add v hascL
    refine ⟨[add key v L, front :: R'], by simp, ?_, ?_, ?_, ?_⟩
    · intro node hnode
      rcases List.mem_cons.mp hnode with rfl | hnode
      · exact add_ne_nil v _
      · exact List.mem_singleton.mp hnode ▸ List.cons_ne_nil _ _
    · intro node hnode
      rcases List.mem_cons.mp hnode with rfl | hnode
      · have hadd := length_add_le hascL v
        omega
      · obtain rfl := List.mem_singleton.mp hnode
        omega
    · rw [← hhalves]
      simpa using (add_context (a := []) (l := L) (below_nil (key v)) habove).symm
    · unfold insertAt
      simp only [hinner, getElem?_split, Option.bind_eq_bind, Option.bind_some, if_pos hfull,
        hhalve, List.getElem?_cons_zero, if_neg hside]
      rw [← hinner, hnodes]
      simp only [getElem?_split, Option.bind_some, hins₁, hins₂, set_split, hfind]
      split <;> rename_i hnew <;> simp [hnew]

/-- The node insert of a node with room. -/
private theorem insertAt_roomy {s : BTreeSet T F}
    (hindex : LawfulFenwickTree.counts s.index = s.inner.map List.length)
    {pre post : List (List T)} {l : List T} {v : T} (hinner : s.inner = pre ++ l :: post)
    (hl : Ascending key l) (hroom : l.length ≠ s.nodeCapacity) :
    ∃ index, LawfulFenwickTree.counts index = (pre ++ add key v l :: post).map List.length ∧
      s.insertAt pre.length v =
        some ({ s with
            inner := pre ++ add key v l :: post
            index := index
            len := if (find key (key v) l).isNone then s.len + 1 else s.len },
          (find key (key v) l).isNone) := by
  have ⟨hins₁, hins₂⟩ := Node.insert_eq_add v hl
  cases hnew : find key (key v) l with
  | none =>
    have hlen : (add key v l).length = l.length + 1 := by
      simp [add, hnew, length_put_gap hl hnew]
    refine ⟨_, counts_addAt_split hindex hinner hlen, ?_⟩
    unfold insertAt
    simp only [hinner, getElem?_split, Option.bind_eq_bind, Option.bind_some, if_neg hroom,
      hins₁, hins₂, set_split, hnew]
    rfl
  | some x =>
    have hsame : add key v l = l := by simp [add, hnew]
    refine ⟨s.index, by rw [hsame, ← hinner]; exact hindex, ?_⟩
    unfold insertAt
    simp only [hinner, getElem?_split, Option.bind_eq_bind, Option.bind_some, if_neg hroom,
      hins₁, hins₂, set_split, hnew]
    rfl

/-- **`insert_at`** at the node the value belongs to adds the value, as long as no split leaves
an empty half. -/
theorem insertAt_spec_of_splitsWell {s : BTreeSet T F} (hs : s.Valid) {pre post : List (List T)}
    {l : List T} {v : T} (hinner : s.inner = pre ++ l :: post) (hsplit : s.SplitsWell l v)
    (hpre : Below key pre.flatten (key v)) (hpost : Above key (key v) post.flatten) :
    ∃ s', s.insertAt pre.length v = some (s', (find key (key v) s.toList).isNone) ∧ s'.Valid ∧
      s'.nodeCapacity = s.nodeCapacity ∧ s'.toList = add key v s.toList ∧
      (s.Bounded → s'.Bounded) := by
  have hl : Ascending key l := Layout.ascending_node (hinner ▸ hs.layout)
  have htoList : s.toList = pre.flatten ++ l ++ post.flatten := by simp [toList, hinner]
  have hfind : find key (key v) s.toList = find key (key v) l :=
    htoList ▸ find_context hpre.ne hpost.ne
  have hadd : add key v s.toList = pre.flatten ++ add key v l ++ post.flatten :=
    htoList ▸ add_context hpre hpost
  have hasc : Ascending key (pre.flatten ++ add key v l ++ post.flatten) :=
    hadd ▸ add_ascending hs.layout.ascending
  have hlayout := hs.layout
  rw [hinner] at hlayout
  have hlength : (add key v s.toList).length =
      if (find key (key v) l).isNone then s.len + 1 else s.len := by
    rw [hs.len_eq]
    unfold add
    cases hnew : find key (key v) l with
    | none =>
      rw [hfind, hnew]
      exact length_put_gap hs.layout.ascending (hfind.trans hnew)
    | some x => simp [hfind, hnew]
  rw [hfind]
  by_cases hfull : l.length = s.nodeCapacity
  · -- a full node is replaced by its two halves
    obtain ⟨nodes, hne, hnodes, hlens, hflat, heval⟩ :=
      insertAt_full (v := v) hinner hl hfull hsplit
    have htoList' : (pre ++ nodes ++ post).flatten = add key v s.toList := by
      rw [hadd, ← hflat]
      simp
    refine ⟨_, heval, ⟨hlayout.replace hne hnodes (hflat ▸ hasc), ?_, ?_⟩, rfl, htoList',
      fun hbound => hbound.replace hinner hlens⟩
    · exact (htoList' ▸ hlength).symm
    · exact LawfulFenwickTree.counts_fromIter _
  · obtain ⟨index, hcounts, heval⟩ := insertAt_roomy (v := v) hs.index_eq hinner hl hfull
    have htoList' : (pre ++ add key v l :: post).flatten = add key v s.toList := by
      rw [hadd]
      simp
    have hlayout' := hlayout.replace (m := [add key v l]) (by simp)
      (fun node hnode => List.mem_singleton.mp hnode ▸ add_ne_nil v l) (by simpa using hasc)
    refine ⟨_, heval, ⟨by simpa using hlayout', ?_, hcounts⟩, rfl, htoList', fun hbound => ?_⟩
    · exact (htoList' ▸ hlength).symm
    · -- an element is only added to a node below the bound
      have hle := hbound l (by simp [hinner])
      have hadd := length_add_le hl v
      have hnodes : ∀ node ∈ [add key v l], node.length ≤ s.nodeCapacity := by
        intro node hnode
        rw [List.mem_singleton.mp hnode]
        omega
      have h := hbound.replace hinner hnodes
      show ∀ node ∈ pre ++ add key v l :: post, node.length ≤ s.nodeCapacity
      simpa using h

/-! ## §3 Deletion -/

/-- What `delete_at` leaves of the node list: an emptied node goes unless it is the last one. -/
private def innerAfter (pre post : List (List T)) (node : List T) : List (List T) :=
  if node = [] ∧ (pre ≠ [] ∨ post ≠ []) then pre ++ post else pre ++ node :: post

private theorem deleteAt_eval {s : BTreeSet T F} (hs : s.Valid) {pre post : List (List T)}
    {a b : List T} {x : T} (hinner : s.inner = pre ++ (a ++ x :: b) :: post) :
    ∃ index, LawfulFenwickTree.counts index = (innerAfter pre post (a ++ b)).map List.length ∧
      s.deleteAt pre.length a.length =
        some ({ s with
            inner := innerAfter pre post (a ++ b)
            index := index
            len := s.len - 1 }, x) := by
  have hlen : 1 ≤ s.len := by
    rw [hs.len_eq, toList, hinner]
    simp
    omega
  have hmany : 1 < (pre ++ (a ++ b) :: post).length ↔ pre ≠ [] ∨ post ≠ [] := by
    rw [List.length_append, List.length_cons, ← List.length_pos_iff, ← List.length_pos_iff]
    omega
  by_cases hgone : a ++ b = [] ∧ (pre ≠ [] ∨ post ≠ [])
  · refine ⟨lengthIndex (pre ++ post), ?_, ?_⟩
    · rw [innerAfter, if_pos hgone]
      exact LawfulFenwickTree.counts_fromIter _
    · have hcond : (a ++ b).isEmpty = true ∧ 1 < (pre ++ (a ++ b) :: post).length :=
        ⟨by simp [hgone.1], hmany.mpr hgone.2⟩
      unfold deleteAt
      simp only [hinner, getElem?_split, Option.bind_eq_bind, Option.bind_some, eraseIdx_split,
        set_split, if_pos hcond, checkedSub, if_pos hlen, innerAfter, if_pos hgone]
      rfl
  · refine ⟨FenwickTree.subAt s.index pre.length 1, ?_, ?_⟩
    · rw [innerAfter, if_neg hgone]
      exact counts_subAt_split hs.index_eq hinner (by simp; omega)
    · have hcond : ¬ ((a ++ b).isEmpty = true ∧ 1 < (pre ++ (a ++ b) :: post).length) := by
        rw [hmany, List.isEmpty_iff]
        exact hgone
      unfold deleteAt
      simp only [hinner, getElem?_split, Option.bind_eq_bind, Option.bind_some, eraseIdx_split,
        set_split, if_neg hcond, checkedSub, if_pos hlen, innerAfter, if_neg hgone]
      rfl

/-- **`delete_at`** removes the element at the position and nothing else. -/
theorem deleteAt_spec {s : BTreeSet T F} (hs : s.Valid) {pre post : List (List T)}
    {a b : List T} {x : T} (hinner : s.inner = pre ++ (a ++ x :: b) :: post) :
    ∃ s', s.deleteAt pre.length a.length = some (s', x) ∧ s'.Valid ∧
      s'.nodeCapacity = s.nodeCapacity ∧
      s'.toList = pre.flatten ++ a ++ (b ++ post.flatten) ∧
      s'.toList = erase key (key x) s.toList := by
  obtain ⟨index, hindex, heval⟩ := deleteAt_eval hs hinner
  have htoList : s.toList = (pre.flatten ++ a) ++ x :: (b ++ post.flatten) := by
    simp [toList, hinner]
  have hcut := hs.layout.ascending
  rw [← toList, htoList] at hcut
  have ⟨_, _, hlow, hhigh⟩ := ascending_append_cons.mp hcut
  have herase : erase key (key x) s.toList = pre.flatten ++ a ++ (b ++ post.flatten) := by
    rw [htoList, erase_hit rfl hlow hhigh]
  have hflat : (innerAfter pre post (a ++ b)).flatten =
      pre.flatten ++ a ++ (b ++ post.flatten) := by
    unfold innerAfter
    split
    next h => simp [List.append_eq_nil_iff.mp h.1]
    next => simp
  have hasc : Ascending key (innerAfter pre post (a ++ b)).flatten := by
    rw [hflat, ← herase]
    exact erase_ascending hs.layout.ascending
  have hlayout := hs.layout
  rw [hinner] at hlayout
  refine ⟨_, heval, ⟨?_, ?_, hindex⟩, rfl, hflat, by rw [herase]; exact hflat⟩
  · show Layout (innerAfter pre post (a ++ b))
    by_cases hgone : a ++ b = [] ∧ (pre ≠ [] ∨ post ≠ [])
    · rw [innerAfter, if_pos hgone] at hasc ⊢
      refine Layout.of_nonempty (by simpa [or_iff_not_imp_left] using hgone.2) ?_ hasc
      intro node hnode
      refine hlayout.nonempty_of_length hgone.2 node ?_
      rcases List.mem_append.mp hnode with h | h <;> simp [h]
    · rw [innerAfter, if_neg hgone] at hasc ⊢
      by_cases hnil : a ++ b = []
      · have halone : pre = [] ∧ post = [] := by
          simpa [hnil, not_or] using hgone
        rw [halone.1, halone.2] at hasc ⊢
        exact Layout.singleton (by simpa using hasc)
      · have h := hlayout.replace (m := [a ++ b]) (by simp)
          (fun node hnode => List.mem_singleton.mp hnode ▸ hnil) (by simpa using hasc)
        simpa using h
  · show s.len - 1 = (innerAfter pre post (a ++ b)).flatten.length
    rw [hflat, hs.len_eq, htoList]
    simp
    omega

/-- A deletion makes no node longer. -/
theorem deleteAt_boundKept {s s' : BTreeSet T F} {i j : ℕ} {x : T}
    (hdel : s.deleteAt i j = some (s', x)) : s.BoundKept s' := by
  unfold deleteAt at hdel
  simp only [Option.bind_eq_bind, Option.bind_eq_some_iff] at hdel
  obtain ⟨node, hnode, y, -, hdel⟩ := hdel
  have hset : s.Bounded → ∀ l ∈ s.inner.set i (node.eraseIdx j), l.length ≤ s.nodeCapacity := by
    intro hbound l hl
    have hlen : (node.eraseIdx j).length ≤ s.nodeCapacity :=
      (List.length_eraseIdx_le node j).trans (hbound node (List.mem_of_getElem? hnode))
    rcases List.mem_or_eq_of_mem_set hl with hl | rfl
    · exact hbound l hl
    · exact hlen
  split at hdel
  · obtain ⟨len, -, hdel⟩ := Option.bind_eq_some_iff.mp hdel
    cases hdel
    exact ⟨rfl, fun hbound l hl => hset hbound l (List.mem_of_mem_eraseIdx hl)⟩
  · obtain ⟨len, -, hdel⟩ := Option.bind_eq_some_iff.mp hdel
    cases hdel
    exact ⟨rfl, hset⟩

/-- Lexicographic order of positions. -/
def PosBefore (p q : ℕ × ℕ) : Prop := p.1 < q.1 ∨ (p.1 = q.1 ∧ p.2 < q.2)

/-- Deleting at a position leaves what stands before it in place. -/
theorem deleteAt_frame {s s' : BTreeSet T F} (hs : s.Valid) {pre post : List (List T)}
    {a b : List T} {x : T} (hinner : s.inner = pre ++ (a ++ x :: b) :: post)
    (hdel : s.deleteAt pre.length a.length = some (s', x)) {p : ℕ × ℕ}
    (hp : PosBefore p (pre.length, a.length)) :
    s'.elementAt p.1 p.2 = s.elementAt p.1 p.2 := by
  obtain ⟨index, -, heval⟩ := deleteAt_eval hs hinner
  have hs' : s'.inner = innerAfter pre post (a ++ b) := by
    rw [heval, Option.some.injEq, Prod.mk.injEq] at hdel
    rw [← hdel.1]
  unfold elementAt
  rw [hs', hinner]
  rcases hp with hlt | ⟨heq, hlt⟩
  · dsimp only at hlt
    unfold innerAfter
    split <;> rw [List.getElem?_append_left hlt, List.getElem?_append_left hlt]
  · dsimp only at heq hlt
    have hne : ¬ (a ++ b = [] ∧ (pre ≠ [] ∨ post ≠ [])) := by
      rintro ⟨hnil, -⟩
      rw [(List.append_eq_nil_iff.mp hnil).1] at hlt
      exact Nat.not_lt_zero _ hlt
    rw [innerAfter, if_neg hne, heq, getElem?_split, getElem?_split, Option.bind_some,
      Option.bind_some, List.getElem?_append_left hlt, List.getElem?_append_left hlt]

/-! ## §4 Splitting off -/

/-- The loop pops everything past the first `keep` nodes, last node first. -/
theorem popNodes_eq {α : Type*} (keep : ℕ) :
    ∀ (fuel : ℕ) (inner remaining : List α), inner.length ≤ keep + fuel →
      popNodes keep fuel inner remaining =
        (inner.take keep, remaining ++ (inner.drop keep).reverse) := by
  intro fuel
  induction fuel with
  | zero =>
    intro inner remaining hlen
    simpa [popNodes] using hlen
  | succ fuel ih =>
    intro inner remaining hlen
    unfold popNodes
    by_cases hkeep : keep < inner.length
    · obtain ⟨l, node, rfl⟩ := (List.eq_nil_or_concat' inner).resolve_left
        (List.ne_nil_of_length_pos (Nat.lt_of_le_of_lt (Nat.zero_le _) hkeep))
      rw [List.length_append, List.length_singleton] at hkeep hlen
      rw [List.length_append, List.length_singleton, if_pos hkeep, List.getLast?_concat]
      dsimp only
      rw [List.dropLast_concat, ih l _ (by omega), List.take_append_of_le_length (by omega),
        List.drop_append_of_le_length (by omega), List.reverse_append]
      simp
    · rw [if_neg hkeep, List.take_of_length_le (by omega), List.drop_of_length_le (by omega)]
      simp

/-- What `split_off` keeps of the node list: an emptied node goes unless it is the only one. -/
private def firstAfter (pre : List (List T)) (a : List T) : List (List T) :=
  if a.isEmpty ∧ 1 < (pre ++ [a]).length then pre else pre ++ [a]

omit [LinearOrder K] [Keyed T K] [LawfulFenwickTree F] in
private theorem flatten_firstAfter {pre : List (List T)} {a : List T} :
    (firstAfter pre a).flatten = pre.flatten ++ a := by
  unfold firstAfter
  split
  · rename_i hgone
    rw [List.isEmpty_iff.mp hgone.1, List.append_nil]
  · simp

omit [LawfulFenwickTree F] in
private theorem layout_firstAfter {pre post : List (List T)} {a b : List T}
    (h : Layout (pre ++ (a ++ b) :: post)) : Layout (firstAfter pre a) := by
  have hasc := h.ascending
  rw [show (pre ++ (a ++ b) :: post).flatten = (pre.flatten ++ a) ++ (b ++ post.flatten) by simp]
    at hasc
  have hasc := (ascending_append.mp hasc).1
  have hpre : ∀ node ∈ pre, node ≠ [] := fun node hnode =>
    h.nonempty_of_length (Or.inl (List.ne_nil_of_mem hnode)) node (by simp [hnode])
  unfold firstAfter
  split
  · rename_i hgone
    have hne : pre ≠ [] := by
      rintro rfl
      simp at hgone
    rw [List.isEmpty_iff.mp hgone.1, List.append_nil] at hasc
    exact Layout.of_nonempty hne hpre hasc
  · rename_i hkept
    by_cases ha : a = []
    · -- an emptied node that is kept is the only one
      have hnil : pre = [] := by
        by_contra hne
        have hpos := List.length_pos_iff.mpr hne
        refine hkept ⟨by simp [ha], ?_⟩
        rw [List.length_append, List.length_singleton]
        omega
      subst hnil
      exact Layout.singleton (by simpa using hasc)
    · refine Layout.of_nonempty (by simp) (fun node hnode => ?_) (by simpa using hasc)
      rcases List.mem_append.mp hnode with hnode | hnode
      · exact hpre node hnode
      · exact List.mem_singleton.mp hnode ▸ ha

omit [LawfulFenwickTree F] in
/-- The nodes that `split_off` returns. -/
private theorem layout_latter {pre post : List (List T)} {a b : List T}
    (h : Layout (pre ++ (a ++ b) :: post)) (hstop : b = [] → post = []) : Layout (b :: post) := by
  have hasc := h.ascending
  rw [show (pre ++ (a ++ b) :: post).flatten = (pre.flatten ++ a) ++ (b ++ post.flatten) by simp]
    at hasc
  have hasc := (ascending_append.mp hasc).2.1
  by_cases hb : b = []
  · rw [hstop hb] at hasc ⊢
    exact Layout.singleton (by simpa using hasc)
  · refine Layout.of_nonempty (by simp) (fun node hnode => ?_) (by simpa using hasc)
    rcases List.mem_cons.mp hnode with rfl | hnode
    · exact hb
    · exact h.nonempty_of_length (Or.inr (List.ne_nil_of_mem hnode)) node (by simp [hnode])

omit [LinearOrder K] [Keyed T K] in
private theorem splitOffAt_eval {s : BTreeSet T F} {pre post : List (List T)} {a b : List T}
    (hinner : s.inner = pre ++ (a ++ b) :: post) :
    s.splitOffAt pre.length a.length =
      some ({ s with
          inner := firstAfter pre a
          index := lengthIndex (firstAfter pre a)
          len := ((firstAfter pre a).map List.length).sum },
        { (default : BTreeSet T F) with
          inner := b :: post
          len := ((b :: post).map List.length).sum
          index := lengthIndex (b :: post) }) := by
  have htake : (pre ++ a :: post).take (pre.length + 1) = pre ++ [a] := by
    rw [show pre ++ a :: post = (pre ++ [a]) ++ post by simp, List.take_left' (by simp)]
  have hdrop : (pre ++ a :: post).drop (pre.length + 1) = post := by
    rw [show pre ++ a :: post = (pre ++ [a]) ++ post by simp, List.drop_left' (by simp)]
  have hpos : a.length ≤ (a ++ b).length := by simp
  unfold splitOffAt
  simp only [hinner, getElem?_split, Option.bind_eq_bind, Option.bind_some, checkedSub,
    if_pos hpos, List.take_left', List.drop_left', set_split,
    popNodes_eq _ _ _ _ (Nat.le_add_left _ _), htake, hdrop, List.nil_append,
    List.reverse_reverse, eraseIdx_split, List.append_nil]
  rfl

/-- **The cut of `split_off`**: what precedes the position stays, the rest is returned. -/
theorem splitOffAt_spec {s : BTreeSet T F} (hs : s.Valid) {pre post : List (List T)}
    {a b : List T} (hinner : s.inner = pre ++ (a ++ b) :: post) (hstop : b = [] → post = []) :
    ∃ s₁ s₂ : BTreeSet T F, s.splitOffAt pre.length a.length = some (s₁, s₂) ∧
      s₁.Valid ∧ s₂.Valid ∧ s₁.nodeCapacity = s.nodeCapacity ∧
      s₂.nodeCapacity = defaultInnerSize ∧
      s₁.toList = pre.flatten ++ a ∧ s₂.toList = b ++ post.flatten := by
  have hlayout := hs.layout
  rw [hinner] at hlayout
  refine ⟨_, _, splitOffAt_eval hinner,
    ⟨layout_firstAfter hlayout, ?_, LawfulFenwickTree.counts_fromIter _⟩,
    ⟨layout_latter hlayout hstop, ?_, LawfulFenwickTree.counts_fromIter _⟩, rfl, rfl,
    flatten_firstAfter, List.flatten_cons⟩
  · show ((firstAfter pre a).map List.length).sum = (firstAfter pre a).flatten.length
    rw [List.length_flatten]
  · show ((b :: post).map List.length).sum = (b :: post).flatten.length
    rw [List.length_flatten]

/-- Splitting off makes no node longer, on either side. -/
theorem splitOffAt_boundKept {s s₁ s₂ : BTreeSet T F} {i j : ℕ}
    (hsplit : s.splitOffAt i j = some (s₁, s₂)) :
    s.BoundKept s₁ ∧ s₂.nodeCapacity = defaultInnerSize ∧
      (s.Bounded → ∀ node ∈ s₂.inner, node.length ≤ s.nodeCapacity) := by
  unfold splitOffAt at hsplit
  simp only [Option.bind_eq_bind, Option.bind_eq_some_iff,
    popNodes_eq _ _ _ _ (Nat.le_add_left _ _)] at hsplit
  obtain ⟨node, hnode, -, -, node', -, hsplit⟩ := hsplit
  have hset : s.Bounded → ∀ l ∈ s.inner.set i (node.take j), l.length ≤ s.nodeCapacity := by
    intro hbound l hl
    rcases List.mem_or_eq_of_mem_set hl with hl | rfl
    · exact hbound l hl
    · exact (List.length_take_le' j node).trans (hbound node (List.mem_of_getElem? hnode))
  cases hsplit
  refine ⟨⟨rfl, fun hbound l hl => hset hbound l ?_⟩, rfl, fun hbound l hl => ?_⟩
  · dsimp only at hl
    split at hl
    · exact List.mem_of_mem_take (List.mem_of_mem_eraseIdx hl)
    · exact List.mem_of_mem_take hl
  · rcases List.mem_cons.mp hl with rfl | hl
    · have hle := hbound node (List.mem_of_getElem? hnode)
      rw [List.length_drop]
      omega
    · rw [List.nil_append, List.reverse_reverse] at hl
      exact hset hbound l (List.mem_of_mem_drop hl)

end BTreeSet

end IndexSet
