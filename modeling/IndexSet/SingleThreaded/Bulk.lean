import IndexSet.SingleThreaded.Operations
import Mathlib.Data.List.Nodup

/-!
# Bulk Operations of the Single-Threaded `BTreeSet`

- `retain`: positions collected in one pass stay right while the deletions run from
  the back (`deleteEach_spec`);
- `split_off`, `split_off_cmp`: the element list is cut at the key;
- `append`: the loop ends and leaves the union, the other set's elements winning.
-/

namespace IndexSet

open KeyedList

namespace BTreeSet

variable {T F K : Type} [LinearOrder K] [Keyed T K] [LawfulFenwickTree F]

/-! ## §1 Retaining -/

omit [LawfulFenwickTree F] in
/-- A position that holds an element cuts the nodes there. -/
theorem elementAt_eq_some {s : BTreeSet T F} {i j : ℕ} {x : T} (h : s.elementAt i j = some x) :
    ∃ pre a b post, s.inner = pre ++ (a ++ x :: b) :: post ∧ i = pre.length ∧ j = a.length := by
  obtain ⟨node, hnode, hx⟩ := Option.bind_eq_some_iff.mp h
  obtain ⟨hi, rfl⟩ := List.getElem?_eq_some_iff.mp hnode
  obtain ⟨hj, rfl⟩ := List.getElem?_eq_some_iff.mp hx
  refine ⟨s.inner.take i, s.inner[i].take j, s.inner[i].drop (j + 1), s.inner.drop (i + 1),
    ?_, ?_, ?_⟩
  · rw [List.getElem_cons_drop, List.take_append_drop, List.getElem_cons_drop,
      List.take_append_drop]
  · rw [List.length_take_of_le hi.le]
  · rw [List.length_take_of_le hj.le]

/-- The first of several descending deletions: it takes the element at its position and leaves
those at the other positions in place. -/
theorem deleteAt_first {s : BTreeSet T F} (hs : s.Valid) {p : ℕ × ℕ} {ps : List (ℕ × ℕ)}
    (hsome : (s.elementAt p.1 p.2).isSome) (hbefore : ∀ q ∈ ps, PosBefore q p) :
    ∃ s₁ y, s.elementAt p.1 p.2 = some y ∧ s.deleteAt p.1 p.2 = some (s₁, y) ∧ s₁.Valid ∧
      s₁.nodeCapacity = s.nodeCapacity ∧ s₁.toList = erase key (key y) s.toList ∧
      ∀ q ∈ ps, s₁.elementAt q.1 q.2 = s.elementAt q.1 q.2 := by
  obtain ⟨y, hy⟩ := Option.isSome_iff_exists.mp hsome
  obtain ⟨pre, a, b, post, hinner, hi, hj⟩ := elementAt_eq_some hy
  obtain ⟨s₁, hdel, hs₁, hcap₁, -, hlist₁⟩ := deleteAt_spec hs hinner
  refine ⟨s₁, y, hy, ?_, hs₁, hcap₁, hlist₁, ?_⟩
  · rw [hi, hj, hdel]
  · intro q hq
    exact deleteAt_frame hs hinner hdel (hi ▸ hj ▸ hbefore q hq)

/-- **Deleting from the back**: when the positions are descending and all hold elements, no
deletion disturbs a later one, and exactly the elements at these positions go. -/
theorem deleteEach_spec {s : BTreeSet T F} (hs : s.Valid) {ps : List (ℕ × ℕ)}
    (hsome : ∀ p ∈ ps, (s.elementAt p.1 p.2).isSome)
    (hdesc : ps.Pairwise fun p q => PosBefore q p) :
    ∃ s', s.deleteEach ps = some s' ∧ s'.Valid ∧ s'.nodeCapacity = s.nodeCapacity ∧
      ∀ x, x ∈ s'.toList ↔ x ∈ s.toList ∧ ∀ p ∈ ps, s.elementAt p.1 p.2 ≠ some x := by
  induction ps generalizing s with
  | nil => exact ⟨s, rfl, hs, rfl, by simp⟩
  | cons p ps ih =>
    obtain ⟨hbefore, hrest⟩ := List.pairwise_cons.mp hdesc
    obtain ⟨s₁, y, hy, hdel, hs₁, hcap₁, hlist₁, hframe⟩ :=
      deleteAt_first hs (hsome p (List.mem_cons_self ..)) hbefore
    obtain ⟨s', heach, hs', hcap', hmem⟩ := ih hs₁
      (fun q hq => by rw [hframe q hq]; exact hsome q (List.mem_cons_of_mem _ hq)) hrest
    refine ⟨s', ?_, hs', hcap'.trans hcap₁, ?_⟩
    · rw [deleteEach, List.foldlM_cons, hdel]
      exact heach
    · have hyl : y ∈ s.toList := by
        obtain ⟨node, hnode, hx⟩ := Option.bind_eq_some_iff.mp hy
        exact List.mem_flatten.mpr ⟨node, List.mem_of_getElem? hnode, List.mem_of_getElem? hx⟩
      have herased : ∀ x, x ∈ s₁.toList ↔ x ∈ s.toList ∧ s.elementAt p.1 p.2 ≠ some x := by
        intro x
        rw [hlist₁, mem_erase, hy]
        refine and_congr_right fun hx => not_congr ⟨fun hkey => ?_, fun heq => ?_⟩
        · exact congrArg some (hs.layout.ascending.eq_of_key_eq hyl hx hkey.symm)
        · rw [Option.some.inj heq]
      intro x
      rw [hmem, herased, List.forall_mem_cons, and_assoc]
      refine and_congr_right fun _ => and_congr_right fun _ => ?_
      exact forall₂_congr fun q hq => by rw [hframe q hq]

/-- When a deletion's turn comes, its position still holds the element recorded there. -/
theorem deleteEach_fresh {s : BTreeSet T F} (hs : s.Valid) {before after : List (ℕ × ℕ)}
    {p : ℕ × ℕ} (hsome : ∀ q ∈ before ++ p :: after, (s.elementAt q.1 q.2).isSome)
    (hdesc : (before ++ p :: after).Pairwise fun p q => PosBefore q p) :
    ∃ s₁ s₂ x, s.deleteEach before = some s₁ ∧ s₁.deleteAt p.1 p.2 = some (s₂, x) ∧
      s.elementAt p.1 p.2 = some x := by
  induction before generalizing s with
  | nil =>
    have hnone : ∀ q ∈ ([] : List (ℕ × ℕ)), PosBefore q p := by simp
    obtain ⟨s₂, x, hx, hdel, -⟩ := deleteAt_first hs (hsome p (by simp)) hnone
    exact ⟨s, s₂, x, rfl, hdel, hx⟩
  | cons q before ih =>
    rw [List.cons_append, List.pairwise_cons] at hdesc
    obtain ⟨s₀, y, -, hdel₀, hs₀, -, -, hframe⟩ :=
      deleteAt_first hs (hsome q (by simp)) hdesc.1
    obtain ⟨s₁, s₂, x, heach, hdel, hx⟩ := ih hs₀
      (fun r hr => by rw [hframe r hr]; exact hsome r (by simp [hr])) hdesc.2
    refine ⟨s₁, s₂, x, ?_, hdel, ?_⟩
    · rw [deleteEach, List.foldlM_cons, hdel₀]
      exact heach
    · rw [← hframe p (by simp), hx]

/-- What the closure of `retain` answers for an entry, and what it leaves in its place. -/
structure Answer (T : Type) where
  keep : Bool
  left : T

/-- The answers for the entries of a list, the closure called on one after the other. -/
def ask {σ : Type} (f : σ → T → Bool × T × σ) : List T → σ → List (Answer T) × σ
  | [], st => ([], st)
  | x :: l, st =>
    let (answers, last) := ask f l (f st x).2.2
    (⟨(f st x).1, (f st x).2.1⟩ :: answers, last)

/-- What is left of the entries answered with `true`. -/
def kept (answers : List (Answer T)) : List T := (answers.filter Answer.keep).map Answer.left

/-- What is left of the entries answered with `false`. -/
def rejected (answers : List (Answer T)) : List T :=
  (answers.filter fun answer => !answer.keep).map Answer.left

theorem kept_sublist (answers : List (Answer T)) :
    (kept answers).Sublist (answers.map Answer.left) :=
  List.filter_sublist.map Answer.left

theorem rejected_append (l l' : List (Answer T)) :
    rejected (l ++ l') = rejected l ++ rejected l' := by
  simp [rejected]

/-- Without repetitions, what is kept is what is not rejected. -/
theorem mem_kept {answers : List (Answer T)} (h : (answers.map Answer.left).Nodup) {x : T} :
    x ∈ kept answers ↔ x ∈ answers.map Answer.left ∧ x ∉ rejected answers := by
  constructor
  · intro hx
    obtain ⟨answer, hmem, rfl⟩ := List.mem_map.mp hx
    obtain ⟨hanswer, hkeep⟩ := List.mem_filter.mp hmem
    refine ⟨List.mem_map_of_mem hanswer, fun hrej => ?_⟩
    obtain ⟨other, hother, hleft⟩ := List.mem_map.mp hrej
    obtain ⟨hother, hdrop⟩ := List.mem_filter.mp hother
    cases List.inj_on_of_nodup_map h hother hanswer hleft
    simp [hkeep] at hdrop
  · rintro ⟨hx, hrej⟩
    obtain ⟨answer, hanswer, rfl⟩ := List.mem_map.mp hx
    refine List.mem_map.mpr ⟨answer, List.mem_filter.mpr ⟨hanswer, ?_⟩, rfl⟩
    by_contra hdrop
    exact hrej (List.mem_map.mpr ⟨answer, List.mem_filter.mpr ⟨hanswer, by simpa using hdrop⟩, rfl⟩)

section Scan

variable {σ : Type} (f : σ → T → Bool × T × σ)

/-- What happens for two lists in a row. -/
theorem ask_append (l l' : List T) (st : σ) :
    ask f (l ++ l') st =
      ((ask f l st).1 ++ (ask f l' (ask f l st).2).1, (ask f l' (ask f l st).2).2) := by
  induction l generalizing st with
  | nil => rfl
  | cons x l ih => simp only [List.cons_append, ask, ih]

omit [LinearOrder K] in
/-- A closure that leaves the keys leaves them in all its answers. -/
theorem ask_keys (hf : ∀ st x, key (f st x).2.1 = key x) (l : List T) (st : σ) :
    ((ask f l st).1.map Answer.left).map key = l.map key := by
  induction l generalizing st with
  | nil => rfl
  | cons x l ih => simp only [ask, List.map_cons, hf, ih]

/-- The scan of a node asks for its elements one after the other and leaves what is answered. -/
theorem scanNode_ask (i j : ℕ) (node : List T) (st : σ) :
    (scanNode f i j node st).1 = (ask f node st).1.map Answer.left ∧
      (scanNode f i j node st).2.2 = (ask f node st).2 := by
  induction node generalizing j st with
  | nil => exact ⟨rfl, rfl⟩
  | cons x node ih =>
    obtain ⟨hleft, hlast⟩ := ih (j + 1) (f st x).2.2
    exact ⟨by simp only [scanNode, ask, List.map_cons, hleft], hlast⟩

/-- The positions a node's scan records are those of the elements answered with `false`. -/
theorem scanNode_rejected (i : ℕ) (front node : List T) (st : σ) :
    (scanNode f i front.length node st).2.1.map
        (fun p => (front ++ (scanNode f i front.length node st).1)[p.2]?) =
      (rejected (ask f node st).1).map some := by
  induction node generalizing front st with
  | nil => rfl
  | cons x node ih =>
    have hrest := ih (front ++ [(f st x).2.1]) (f st x).2.2
    rw [List.length_append, List.length_singleton, List.append_assoc, List.singleton_append]
      at hrest
    by_cases hkeep : (f st x).1
    · simpa [scanNode, ask, rejected, hkeep] using hrest
    · simpa [scanNode, ask, rejected, hkeep] using hrest

omit [LinearOrder K] in
/-- The positions recorded for a node lie in it and ascend. -/
theorem scanNode_positions (i j : ℕ) (node : List T) (st : σ) :
    (∀ p ∈ (scanNode f i j node st).2.1, p.1 = i ∧ j ≤ p.2) ∧
      (scanNode f i j node st).2.1.Pairwise PosBefore := by
  induction node generalizing j st with
  | nil => simp [scanNode]
  | cons x node ih =>
    obtain ⟨hpos, hasc⟩ := ih (j + 1) (f st x).2.2
    have hrest : ∀ p ∈ (scanNode f i (j + 1) node (f st x).2.2).2.1, p.1 = i ∧ j < p.2 := hpos
    simp only [scanNode]
    split
    · exact ⟨fun p hp => ⟨(hrest p hp).1, (hrest p hp).2.le⟩, hasc⟩
    · refine ⟨List.forall_mem_cons.mpr ⟨⟨rfl, le_rfl⟩, fun p hp => ?_⟩,
        List.pairwise_cons.mpr ⟨fun p hp => Or.inr ?_, hasc⟩⟩
      · exact ⟨(hrest p hp).1, (hrest p hp).2.le⟩
      · exact ⟨(hrest p hp).1.symm, (hrest p hp).2⟩

omit [LinearOrder K] in
/-- A closure that leaves the keys leaves them node by node. -/
theorem scanInner_keys (hf : ∀ st x, key (f st x).2.1 = key x) (i : ℕ) (inner : List (List T))
    (st : σ) : (scanInner f i inner st).1.map (List.map key) = inner.map (List.map key) := by
  induction inner generalizing i st with
  | nil => rfl
  | cons node inner ih =>
    simp only [scanInner, List.map_cons, ih, (scanNode_ask f i 0 node st).1, ask_keys f hf]

omit [LinearOrder K] in
/-- The recorded positions ascend. -/
theorem scanInner_positions (i : ℕ) (inner : List (List T)) (st : σ) :
    (∀ p ∈ (scanInner f i inner st).2.1, i ≤ p.1) ∧
      (scanInner f i inner st).2.1.Pairwise PosBefore := by
  induction inner generalizing i st with
  | nil => simp [scanInner]
  | cons node inner ih =>
    obtain ⟨hhere, hasc⟩ := scanNode_positions f i 0 node st
    obtain ⟨hrest, hasc'⟩ := ih (i + 1) (scanNode f i 0 node st).2.2
    simp only [scanInner]
    refine ⟨fun p hp => ?_,
      List.pairwise_append.mpr ⟨hasc, hasc', fun p hp q hq => Or.inl ?_⟩⟩
    · rcases List.mem_append.mp hp with hp | hp
      · exact (hhere p hp).1.ge
      · exact (Nat.le_succ i).trans (hrest p hp)
    · rw [(hhere p hp).1]
      exact hrest q hq

/-- The scan of all nodes asks for all elements in order. -/
theorem scanInner_ask (i : ℕ) (inner : List (List T)) (st : σ) :
    (scanInner f i inner st).1.flatten = (ask f inner.flatten st).1.map Answer.left ∧
      (scanInner f i inner st).2.2 = (ask f inner.flatten st).2 := by
  induction inner generalizing i st with
  | nil => exact ⟨rfl, rfl⟩
  | cons node inner ih =>
    obtain ⟨hleft, hlast⟩ := scanNode_ask f i 0 node st
    obtain ⟨hleft', hlast'⟩ := ih (i + 1) (scanNode f i 0 node st).2.2
    simp only [scanInner, List.flatten_cons, ask_append, List.map_append]
    rw [hleft, hleft', hlast', hlast]
    exact ⟨rfl, rfl⟩

/-- The positions the scan records are those of the elements answered with `false`. -/
theorem scanInner_rejected (front inner : List (List T)) (st : σ) :
    (scanInner f front.length inner st).2.1.map
        (fun p => (front ++ (scanInner f front.length inner st).1)[p.1]?.bind fun l => l[p.2]?) =
      (rejected (ask f inner.flatten st).1).map some := by
  induction inner generalizing front st with
  | nil => rfl
  | cons node inner ih =>
    have hhere := scanNode_rejected f front.length [] node st
    have hrest := ih (front ++ [(scanNode f front.length 0 node st).1])
      (scanNode f front.length 0 node st).2.2
    rw [List.length_append, List.length_singleton, List.append_assoc, List.singleton_append]
      at hrest
    simp only [scanInner, List.flatten_cons, ask_append, rejected_append, List.map_append]
    rw [hrest, (scanNode_ask f front.length 0 node st).2, ← hhere]
    -- the positions of this node all name it
    refine congrArg (· ++ _) (List.map_congr_left fun p hp => ?_)
    rw [((scanNode_positions f front.length 0 node st).1 p hp).1, List.getElem?_append_right le_rfl]
    simp

end Scan

/-- Elements with the same keys, node by node, make the same layout. -/
theorem Valid.congr_keys {s : BTreeSet T F} (hs : s.Valid) {inner : List (List T)}
    (hkeys : inner.map (List.map key) = s.inner.map (List.map key)) :
    ({ s with inner } : BTreeSet T F).Valid := by
  have hlengths : inner.map List.length = s.inner.map List.length := by
    have h := congrArg (List.map List.length) hkeys
    simpa [List.map_map, Function.comp_def] using h
  have hcount : inner.length = s.inner.length := by
    simpa using congrArg List.length hlengths
  have hflat : inner.flatten.map key = s.inner.flatten.map key := by
    rw [List.map_flatten, List.map_flatten, hkeys]
  refine ⟨⟨?_, ?_, ?_⟩, ?_, ?_⟩
  · rintro rfl
    exact hs.layout.ne_nil (List.length_eq_zero_iff.mp hcount.symm)
  · intro node hnode hnil
    have hzero : 0 ∈ s.inner.map List.length := by
      rw [← hlengths]
      exact List.mem_map.mpr ⟨node, hnode, by simp [hnil]⟩
    obtain ⟨old, hold, hlen⟩ := List.mem_map.mp hzero
    rw [hcount]
    exact hs.layout.alone_of_nil old hold (List.length_eq_zero_iff.mp hlen)
  · have h : (s.inner.flatten.map key).Pairwise (· < ·) :=
      List.pairwise_map.mpr hs.layout.ascending
    rw [← hflat] at h
    exact List.pairwise_map.mp h
  · have h := congrArg List.length hflat
    rw [List.length_map, List.length_map] at h
    exact hs.len_eq.trans h.symm
  · exact hs.index_eq.trans hlengths.symm

/-- What the deletions of `retain` start from: the nodes as the closure leaves them. -/
def scanned {σ : Type} (s : BTreeSet T F) (f : σ → T → Bool × T × σ) (st : σ) : BTreeSet T F :=
  { s with inner := (scanInner f 0 s.inner st).1 }

/-- The positions `retain` deletes, in the order of the deletions. -/
def toDelete {σ : Type} (s : BTreeSet T F) (f : σ → T → Bool × T × σ) (st : σ) :
    List (ℕ × ℕ) :=
  (scanInner f 0 s.inner st).2.1.reverse

/-- A closure that only reads the entry leaves it as it is. -/
def reading {σ : Type} (f : σ → T → Bool × σ) (st : σ) (item : T) : Bool × T × σ :=
  ((f st item).1, item, (f st item).2)

/-- It leaves the entries themselves. -/
theorem ask_reading {σ : Type} (f : σ → T → Bool × σ) (l : List T) (st : σ) :
    (ask (reading f) l st).1.map Answer.left = l := by
  induction l generalizing st with
  | nil => rfl
  | cons x l ih => exact congrArg (x :: ·) (ih _)

section Retain

variable {s : BTreeSet T F} {σ : Type} (f : σ → T → Bool × T × σ) (st : σ)

omit [LinearOrder K] [Keyed T K] [LawfulFenwickTree F] in
theorem retainWith_eq [FenwickTree F] (s : BTreeSet T F) :
    s.retainWith f st =
      ((s.scanned f st).deleteEach (s.toDelete f st)).map fun s' =>
        (s', (ask f s.toList st).2) := by
  rw [toList, ← (scanInner_ask f 0 s.inner st).2, Option.map_eq_bind]
  rfl

omit [LinearOrder K] [Keyed T K] [LawfulFenwickTree F] in
/-- The recorded positions hold the rejected elements. -/
theorem elementAt_toDelete :
    (s.toDelete f st).map (fun p => (s.scanned f st).elementAt p.1 p.2) =
      ((rejected (ask f s.toList st).1).map some).reverse := by
  have h := scanInner_rejected f [] s.inner st
  rw [List.nil_append, List.length_nil] at h
  rw [toDelete, List.map_reverse, toList, ← h]
  rfl

omit [LinearOrder K] [Keyed T K] [LawfulFenwickTree F] in
theorem toDelete_isSome :
    ∀ p ∈ s.toDelete f st, ((s.scanned f st).elementAt p.1 p.2).isSome := by
  intro p hp
  have hmem := List.mem_map_of_mem (f := fun p => (s.scanned f st).elementAt p.1 p.2) hp
  rw [elementAt_toDelete, List.mem_reverse] at hmem
  obtain ⟨x, -, hx⟩ := List.mem_map.mp hmem
  rw [← hx]
  rfl

omit [LinearOrder K] [Keyed T K] [LawfulFenwickTree F] in
theorem toDelete_descending : (s.toDelete f st).Pairwise fun p q => PosBefore q p :=
  List.pairwise_reverse.mpr (scanInner_positions f 0 s.inner st).2

/-- No deletion of `retain` is at a stale or an out-of-range position. -/
theorem toDelete_fresh (hs : s.Valid) (hf : ∀ st x, key (f st x).2.1 = key x)
    {before after : List (ℕ × ℕ)} {p : ℕ × ℕ} (hcut : s.toDelete f st = before ++ p :: after) :
    ∃ s₁ s₂ x, (s.scanned f st).deleteEach before = some s₁ ∧
      s₁.deleteAt p.1 p.2 = some (s₂, x) ∧ (s.scanned f st).elementAt p.1 p.2 = some x :=
  deleteEach_fresh (hs.congr_keys (scanInner_keys f hf 0 s.inner st))
    (hcut ▸ toDelete_isSome f st) (hcut ▸ toDelete_descending f st)

/-- **`retain`**, also when the closure changes what hangs on a key: the entries are asked for
once each, in order, and those answered with `true` stay. -/
theorem retainWith_spec (hs : s.Valid) (hf : ∀ st x, key (f st x).2.1 = key x) :
    ∃ s', s.retainWith f st = some (s', (ask f s.toList st).2) ∧ s'.Valid ∧
      s'.nodeCapacity = s.nodeCapacity ∧ s'.toList = kept (ask f s.toList st).1 := by
  have hvalid : (s.scanned f st).Valid := hs.congr_keys (scanInner_keys f hf 0 s.inner st)
  have hleft := (scanInner_ask f 0 s.inner st).1
  obtain ⟨s', heach, hs', hcap, hmem⟩ := deleteEach_spec hvalid (toDelete_isSome f st)
    (toDelete_descending f st)
  refine ⟨s', ?_, hs', hcap, ?_⟩
  · rw [retainWith_eq, heach, Option.map_some]
  · have hscanned : (ask f s.toList st).1.map Answer.left = (s.scanned f st).toList := hleft.symm
    have hasc : Ascending key ((ask f s.toList st).1.map Answer.left) := by
      rw [hscanned]
      exact hvalid.layout.ascending
    have hkept := hasc.sublist (kept_sublist _)
    refine Ascending.eq_of_mem_iff (l := s'.toList) hs'.layout.ascending hkept fun x => ?_
    rw [hmem, mem_kept hasc.nodup, hscanned]
    refine and_congr_right fun _ => ?_
    have hreject : some x ∈ (s.toDelete f st).map (fun p => (s.scanned f st).elementAt p.1 p.2) ↔
        x ∈ rejected (ask f s.toList st).1 := by
      rw [elementAt_toDelete, List.mem_reverse,
        List.mem_map_of_injective fun _ _ => Option.some.inj]
    rw [← hreject, List.mem_map]
    simp

end Retain

/-- **`retain`** of the set. -/
theorem retain_spec {s : BTreeSet T F} (hs : s.Valid) {σ : Type} (f : σ → T → Bool × σ) (st : σ) :
    ∃ s', s.retain f st = some (s', (ask (reading f) s.toList st).2) ∧ s'.Valid ∧
      s'.nodeCapacity = s.nodeCapacity ∧ s'.toList = kept (ask (reading f) s.toList st).1 :=
  retainWith_spec (reading f) st hs fun _ _ => rfl

/-! ## §2 Splitting off -/

/-- **`split_off`** leaves what is below the value and returns the rest. -/
theorem splitOff_spec {s : BTreeSet T F} (hs : s.Valid) (q : K) :
    ∃ s₁ s₂ : BTreeSet T F, s.splitOff q = some (s₁, s₂) ∧ s₁.Valid ∧ s₂.Valid ∧
      s₁.nodeCapacity = s.nodeCapacity ∧ s₂.nodeCapacity = defaultInnerSize ∧
      s₁.toList = s.toList.filter (fun x => key x < q) ∧
      s₂.toList = s.toList.filter (fun x => q ≤ key x) := by
  obtain ⟨pre, a, b, post, hinner, hloc, -, hlow, hhigh, hstop⟩ := locateValue_spec hs.layout q
  obtain ⟨s₁, s₂, heval, hs₁, hs₂, hcap₁, hcap₂, hlist₁, hlist₂⟩ := splitOffAt_spec hs hinner hstop
  have ⟨hbelow, habove⟩ := filter_cut (l := s.toList) (by simp [toList, hinner]) hlow hhigh
  exact ⟨s₁, s₂, by simp [splitOff, hloc, heval], hs₁, hs₂, hcap₁, hcap₂,
    hlist₁.trans hbelow.symm, hlist₂.trans habove.symm⟩

/-- `split_off_cmp` on a key cuts as `split_off` does. -/
theorem splitOffCmp_spec {s : BTreeSet T F} (hs : s.Valid) (q : K) :
    ∃ s₁ s₂ : BTreeSet T F, s.splitOffCmp (fun x => key x < q) = some (s₁, s₂) ∧ s₁.Valid ∧
      s₂.Valid ∧ s₁.nodeCapacity = s.nodeCapacity ∧ s₂.nodeCapacity = defaultInnerSize ∧
      s₁.toList = s.toList.filter (fun x => key x < q) ∧
      s₂.toList = s.toList.filter (fun x => q ≤ key x) := by
  obtain ⟨pre, a, b, post, hinner, hloc, hlow, hhigh, hstop, -⟩ := locateValueCmp_find hs q
  obtain ⟨s₁, s₂, heval, hs₁, hs₂, hcap₁, hcap₂, hlist₁, hlist₂⟩ := splitOffAt_spec hs hinner hstop
  have ⟨hbelow, habove⟩ := filter_cut (l := s.toList) (by simp [toList, hinner]) hlow hhigh
  exact ⟨s₁, s₂, by simp [splitOffCmp, hloc, heval], hs₁, hs₂, hcap₁, hcap₂,
    hlist₁.trans hbelow.symm, hlist₂.trans habove.symm⟩

/-! ## §3 Appending -/

/-- Every round pops the head of `other` and stores it in `s`, until `other` is empty. -/
theorem appendLoop_spec {s other : BTreeSet T F} (hs : s.Valid) (hcap : 2 ≤ s.nodeCapacity)
    (hother : other.Valid) {fuel : ℕ} (hfuel : other.toList.length < fuel) :
    ∃ s₁ s₂, appendLoop fuel s other = some (s₁, s₂) ∧ s₁.Valid ∧ s₂.Valid ∧
      s₁.nodeCapacity = s.nodeCapacity ∧ s₂.nodeCapacity = other.nodeCapacity ∧
      s₁.toList = union key s.toList other.toList ∧ s₂.toList = [] := by
  induction fuel generalizing s other with
  | zero => exact absurd hfuel (Nat.not_lt_zero _)
  | succ fuel ih =>
    obtain ⟨other₁, hpop, hother₁, hcap₁, hlist₁⟩ := popFirst_spec hother
    cases hl : other.toList with
    | nil =>
      rw [hl] at hpop hlist₁
      refine ⟨s, other₁, ?_, hs, hother₁, rfl, hcap₁, by simp, by simpa using hlist₁⟩
      simp [appendLoop, hpop]
    | cons v rest =>
      rw [hl] at hpop hlist₁ hfuel
      obtain ⟨s', hrepl, hs', hcap', hlist'⟩ := replace_spec hs hcap v
      obtain ⟨s₁, s₂, hloop, hs₁, hs₂, hc₁, hc₂, hl₁, hl₂⟩ := ih hs' (hcap' ▸ hcap) hother₁
        (by rw [hlist₁]; simpa using hfuel)
      refine ⟨s₁, s₂, ?_, hs₁, hs₂, hc₁.trans hcap', hc₂.trans hcap₁, ?_, hl₂⟩
      · simp only [appendLoop, hpop, List.head?_cons, Option.bind_eq_bind, Option.bind_some, hrepl,
          hloop]
      · rw [hl₁, hlist₁, hlist', union_cons, List.tail_cons]

/-- **`append`**: the union, with the elements of `other` winning, and `other` empty. -/
theorem append_spec {s other : BTreeSet T F} (hs : s.Valid) (hcap : 2 ≤ s.nodeCapacity)
    (hother : other.Valid) :
    ∃ s₁ s₂, s.append other = some (s₁, s₂) ∧ s₁.Valid ∧ s₂.Valid ∧
      s₁.nodeCapacity = s.nodeCapacity ∧ s₂.nodeCapacity = other.nodeCapacity ∧
      s₁.toList = union key s.toList other.toList ∧ s₂.toList = [] :=
  appendLoop_spec hs hcap hother (Nat.lt_succ_self _)

/-! ## §4 Ranks -/

/-- `rank_cmp` counts the elements on the lower side of its question. -/
theorem rankCmp_lower {s : BTreeSet T F} (hs : s.Valid) {p : T → Bool} (hp : Lower p) :
    s.rankCmp p = some (s.toList.filter p).length := by
  obtain ⟨pre, a, b, post, hinner, hloc, hlow, hhigh, -⟩ := locateValueCmp_spec hs.layout hp
  have hlist : s.toList = (pre.flatten ++ a) ++ (b ++ post.flatten) := by simp [toList, hinner]
  have h₁ : (pre.flatten ++ a).filter p = pre.flatten ++ a := List.filter_eq_self.mpr hlow
  have h₂ : (b ++ post.flatten).filter p = [] :=
    List.filter_eq_nil_iff.mpr fun x hx => by simp [hhigh x hx]
  rw [hlist, List.filter_append, h₁, h₂, List.append_nil, List.length_append]
  simp only [rankCmp, hloc, Option.bind_eq_bind, Option.bind_some, prefixSum_eq_length hs, hinner,
    List.take_left']
  rfl

/-- `rank_cmp` on a key counts the elements below it. -/
theorem rankCmp_spec {s : BTreeSet T F} (hs : s.Valid) (q : K) :
    s.rankCmp (fun x => key x < q) = some (s.toList.filter fun x => key x < q).length :=
  rankCmp_lower hs (lower_lt q)

end BTreeSet

end IndexSet
