import IndexSet.Concurrent.Cuts
import IndexSet.Concurrent.Sequential
import IndexSet.Core.Search

/-!
# Lookups by a Borrowed Form

`contains`, `get` and `remove_cdc` of `concurrent/set.rs` take any form `Q` the elements are
borrowed as.  A multimap borrows its entries as their keys: then many elements are equal to one
needle, and the search in a node stops at any of them.

- `locateNodeOf`, …, `removeCdcOf`: the code, for any borrowed form;
- §2 the search in a node whose elements are only in weak order;
- `containsOf_iff`, `getOf_spec`: a lookup finds an equal element if there is one;
- `removeCdcOf_spec`: removing by a borrowed form is removing one of the equal elements.
-/

namespace IndexSet

open KeyedList

/-! ## §1 The code -/

namespace Node

variable {T Q : Type} [LinearOrder Q]

/-- `Vec::contains`, of a borrowed form. -/
def containsOf (borrow : T → Q) (l : List T) (value : Q) : Bool :=
  @contains T Q _ ⟨borrow⟩ l value

/-- `Vec::try_select`, of a borrowed form. -/
def trySelectOf (borrow : T → Q) (l : List T) (value : Q) : Option ℕ :=
  @trySelect T Q _ ⟨borrow⟩ l value

/-- `Vec::delete`, of a borrowed form. -/
def deleteOf (borrow : T → Q) (l : List T) (value : Q) : List T × Option (T × ℕ) :=
  @delete T Q _ ⟨borrow⟩ l value

end Node

namespace Concurrent

variable {M T K Q : Type} [LinearOrder K] [Keyed T K] [LinearOrder Q]

namespace BTreeSet

section Code

variable [SkipMap M T K] (borrow : T → Q) (s : BTreeSet M T)

/-- `BTreeSet::locate_node`. -/
def locateNodeOf (value : Q) : Option NodeId :=
  match SkipMap.lowerBoundOf borrow s.index (.included value) with
  | some entry => some entry.2
  | none =>
    match SkipMap.back s.index with
    | some last => some last.2
    | none => (SkipMap.front s.index).map Prod.snd

/-- `BTreeSet::contains`. -/
def containsOf (value : Q) : Bool :=
  match s.locateNodeOf borrow value with
  | some n => Node.containsOf borrow (s.nodes n) value
  | none => false

/-- `BTreeSet::get`: the element its `Ref` points at. -/
def getOf (value : Q) : Option T :=
  match s.locateNodeOf borrow value with
  | some n => (Node.trySelectOf borrow (s.nodes n) value).bind fun position =>
      (s.nodes n)[position]?
  | none => none

/-- The node edit of `remove_cdc`; `none` is the panic of one of its `expect`s. -/
def removeEditOf (entry : T × NodeId) (value : Q) : Option (BTreeSet M T × RemoveOutcome T) :=
  let oldMax := Node.max (s.nodes entry.2)
  match Node.deleteOf borrow (s.nodes entry.2) value with
  | (_, none) => some (s, .absent)
  | (node, some (deleted, idx)) =>
    match oldMax with
    | none => none
    | some oldMax =>
      let s := s.setNode entry.2 node
      if 0 < node.length then
        let (s, cdc) := s.emit [.removeAt oldMax deleted idx]
        if some (key oldMax) = (Node.max node).map key then some (s, .done deleted cdc)
        else some (s, .deferred deleted (.updateMax entry.2 oldMax) cdc)
      else some (s, .deferred deleted (.makeUnreachable entry.2 oldMax) [])

/-- `BTreeSet::remove_cdc`. -/
def removeCdcOf (value : Q) : Option (BTreeSet M T × Option T × List (ChangeEvent T)) :=
  match SkipMap.lowerBoundOf borrow s.index (.included value) with
  | none => some (s, none, [])
  | some entry =>
    match s.removeEditOf borrow entry value with
    | none => none
    | some (s, .absent) => some (s, none, [])
    | some (s, .done deleted cdc) => some (s, some deleted, cdc)
    | some (s, .deferred deleted operation cdc) =>
      match s.commitDeferred operation cdc with
      | none => none
      | some (s, some (_, cdc)) => some (s, some deleted, cdc)
      | some (s, none) => some (s, some deleted, cdc)

/-- `BTreeSet::remove`. -/
def removeOf (value : Q) : Option (BTreeSet M T × Option T) := do
  let (s, removed, _) ← s.removeCdcOf borrow value
  return (s, removed)

end Code

end BTreeSet

end Concurrent

/-! ## §2 The search among elements in weak order -/

section Search

variable {T Q : Type} [LinearOrder Q] {borrow : T → Q} {l : List T}

/-- What is before `i` is less than the needle, and what is from `j` on is greater. -/
theorem searchLoop_locates (hsorted : l.Pairwise fun x y => borrow x ≤ borrow y) (needle : Q)
    (fuel i j : ℕ) (hij : i ≤ j) (hj : j ≤ l.length)
    (hless : ∀ x ∈ l.take i, borrow x < needle) (hgreater : ∀ x ∈ l.drop j, needle < borrow x)
    {r : Except ℕ ℕ}
    (hr : @searchLoop T Q _ ⟨borrow⟩ l needle fuel i j ((i + j) / 2) = some r) :
    Locates l borrow needle r := by
  induction fuel generalizing i j with
  | zero => cases hr
  | succ fuel ih =>
    unfold searchLoop at hr
    by_cases hend : i = j
    · rw [if_pos hend] at hr
      cases hr
      exact ⟨hless, hend ▸ hgreater⟩
    · have hprobe : (i + j) / 2 < l.length := by omega
      rw [if_neg hend, List.getElem?_eq_getElem hprobe] at hr
      dsimp only at hr
      -- the probe cuts the node
      have hcut : l.take ((i + j) / 2) ++ l[(i + j) / 2] :: l.drop ((i + j) / 2 + 1) = l := by
        rw [List.getElem_cons_drop, List.take_append_drop]
      obtain ⟨-, hright, hleft⟩ := List.pairwise_append.mp (hcut.symm ▸ hsorted)
      cases hcmp : compare (borrow l[(i + j) / 2]) needle with
      | eq =>
        rw [hcmp] at hr
        cases hr
        exact ⟨l[(i + j) / 2], List.getElem?_eq_getElem hprobe, compare_eq_iff_eq.mp hcmp⟩
      | lt =>
        rw [hcmp] at hr
        have hlt := compare_lt_iff_lt.mp hcmp
        apply ih ((i + j) / 2 + 1) j (by omega) hj _ hgreater hr
        intro x hx
        rw [List.take_succ_eq_append_getElem hprobe, List.mem_append, List.mem_singleton] at hx
        rcases hx with hx | rfl
        · exact (hleft x hx _ (List.mem_cons_self ..)).trans_lt hlt
        · exact hlt
      | gt =>
        rw [hcmp] at hr
        have hgt := compare_gt_iff_gt.mp hcmp
        apply ih i ((i + j) / 2) (by omega) (by omega) hless _ hr
        intro x hx
        rw [← List.getElem_cons_drop hprobe] at hx
        rcases List.mem_cons.mp hx with rfl | hx
        · exact hgt
        · exact hgt.trans_le ((List.pairwise_cons.mp hright).1 x hx)

theorem search_locates (hsorted : l.Pairwise fun x y => borrow x ≤ borrow y) (needle : Q) :
    Locates l borrow needle (@search T Q _ ⟨borrow⟩ l needle) := by
  obtain ⟨r, hr⟩ := Option.isSome_iff_exists.mp
    (@searchLoop_isSome T Q _ ⟨borrow⟩ l needle (l.length + 1) 0 l.length (by omega) le_rfl
      (by omega))
  have hlocates := searchLoop_locates hsorted needle _ 0 l.length (by omega) le_rfl (by simp)
    (by simp) hr
  have hsearch : @search T Q _ ⟨borrow⟩ l needle = r := by
    rw [Nat.zero_add] at hr
    exact congrArg (fun answer => Option.getD answer (.error 0)) hr
  rwa [hsearch]

/-- The search fails only when there is nothing to find. -/
theorem Locates.ne_of_error {q : Q} {i : ℕ} (h : Locates l borrow q (.error i)) :
    ∀ x ∈ l, borrow x ≠ q := by
  intro x hx
  rw [← List.take_append_drop i l, List.mem_append] at hx
  rcases hx with hx | hx
  · exact (h.1 x hx).ne
  · exact (h.2 x hx).ne'

end Search

/-! ## §3 Nodes -/

namespace Node

variable {T K Q : Type} [LinearOrder K] [Keyed T K] [LinearOrder Q] {borrow : T → Q} {l : List T}

/-- Deleting an element by its own key. -/
theorem delete_split {a b : List T} {x : T} (h : Ascending key (a ++ x :: b)) :
    delete (a ++ x :: b) (key x) = (a ++ b, some (x, a.length)) := by
  obtain ⟨-, -, ha, hb⟩ := ascending_append_cons.mp h
  rcases delete_spec (key x) h with
    ⟨a', x', b', hl, hx', ha', hb', heval⟩ | ⟨a', b', hl, ha', hb', -⟩
  · -- both cuts are at the elements below the key
    have hlow : ∀ {c d : List T} {y : T}, Below key c (key x) → key y = key x →
        Above key (key x) d → (c ++ y :: d).filter (fun z => key z < key x) = c := by
      intro c d y hc hy hd
      rw [List.filter_append, filter_lt_eq_self hc, List.filter_cons_of_neg (by simp [hy]),
        filter_lt_eq_nil hd, List.append_nil]
    have hsame : a = a' := by rw [← hlow ha rfl hb, hl, hlow ha' hx' hb']
    subst hsame
    obtain ⟨rfl, rfl⟩ := List.cons.inj (List.append_cancel_left hl)
    exact heval
  · have hmem : x ∈ a' ++ b' := by simp [← hl]
    rcases List.mem_append.mp hmem with hx | hx
    · exact absurd rfl (ha' x hx).ne
    · exact absurd rfl (hb' x hx).ne

omit [LinearOrder K] [Keyed T K] in
theorem containsOf_iff (hsorted : l.Pairwise fun x y => borrow x ≤ borrow y) (q : Q) :
    containsOf borrow l q = true ↔ ∃ x ∈ l, borrow x = q := by
  have hlocates := search_locates hsorted q
  unfold containsOf contains
  cases hr : @search T Q _ ⟨borrow⟩ l q with
  | ok i =>
    rw [hr] at hlocates
    obtain ⟨x, hx, hxq⟩ := hlocates
    exact iff_of_true rfl ⟨x, List.mem_of_getElem? hx, hxq⟩
  | error i =>
    rw [hr] at hlocates
    apply iff_of_false Bool.false_ne_true
    rintro ⟨x, hx, hxq⟩
    exact hlocates.ne_of_error x hx hxq

omit [LinearOrder K] [Keyed T K] in
theorem trySelectOf_spec (hsorted : l.Pairwise fun x y => borrow x ≤ borrow y) (q : Q) :
    (∃ x ∈ l, borrow x = q ∧
        ((trySelectOf borrow l q).bind fun position => l[position]?) = some x) ∨
      (∀ x ∈ l, borrow x ≠ q) ∧ trySelectOf borrow l q = none := by
  have hlocates := search_locates hsorted q
  unfold trySelectOf trySelect
  cases hr : @search T Q _ ⟨borrow⟩ l q with
  | ok i =>
    rw [hr] at hlocates
    obtain ⟨x, hx, hxq⟩ := hlocates
    exact Or.inl ⟨x, List.mem_of_getElem? hx, hxq, hx⟩
  | error i =>
    rw [hr] at hlocates
    exact Or.inr ⟨hlocates.ne_of_error, rfl⟩

omit [LinearOrder K] [Keyed T K] in
theorem deleteOf_of_ok {q : Q} {i : ℕ} {x : T} (h : @search T Q _ ⟨borrow⟩ l q = .ok i)
    (hx : l[i]? = some x) : deleteOf borrow l q = (l.eraseIdx i, some (x, i)) := by
  simp [deleteOf, delete, h, hx]

omit [LinearOrder K] [Keyed T K] in
theorem deleteOf_of_error {q : Q} {i : ℕ} (h : @search T Q _ ⟨borrow⟩ l q = .error i) :
    deleteOf borrow l q = (l, none) := by
  simp [deleteOf, delete, h]

/-- Deleting by a borrowed form is deleting one of the equal elements by its key. -/
theorem deleteOf_spec (hasc : Ascending key l)
    (hsorted : l.Pairwise fun x y => borrow x ≤ borrow y) (q : Q) :
    (∃ x ∈ l, borrow x = q ∧ deleteOf borrow l q = delete l (key x)) ∨
      (∀ x ∈ l, borrow x ≠ q) ∧ deleteOf borrow l q = (l, none) := by
  have hlocates := search_locates hsorted q
  cases hr : @search T Q _ ⟨borrow⟩ l q with
  | ok i =>
    rw [hr] at hlocates
    obtain ⟨x, hx, hxq⟩ := hlocates
    obtain ⟨hi, rfl⟩ := List.getElem?_eq_some_iff.mp hx
    refine Or.inl ⟨_, List.getElem_mem hi, hxq, ?_⟩
    have hcut : l.take i ++ l[i] :: l.drop (i + 1) = l := by
      rw [List.getElem_cons_drop, List.take_append_drop]
    have hdelete := delete_split (hcut.symm ▸ hasc)
    rw [hcut, List.length_take_of_le hi.le] at hdelete
    rw [hdelete, deleteOf_of_ok hr hx, List.eraseIdx_eq_take_drop_succ]
  | error i =>
    rw [hr] at hlocates
    exact Or.inr ⟨hlocates.ne_of_error, deleteOf_of_error hr⟩

end Node

/-! ## §4 Sets at rest -/

namespace Concurrent

namespace BTreeSet

variable {M T K Q : Type} [LinearOrder K] [Keyed T K] [LinearOrder Q] [LawfulSkipMap M T K]
  {s : BTreeSet M T} {borrow : T → Q}

/-- The elements of a node are in weak order as they are borrowed. -/
theorem AtRest.sorted_borrowed (hs : s.AtRest) (hborrow : Coarsens borrow) (n : NodeId) :
    (s.nodes n).Pairwise fun x y => borrow x ≤ borrow y :=
  (hs.sorted n).imp fun hlt => hborrow _ _ hlt.le

/-- Every index key is an element. -/
theorem AtRest.exists_last (hs : s.AtRest) {e : T × NodeId} (he : e ∈ s.entries) :
    ∃ x ∈ s.nodes e.2, key x = key e.1 :=
  ((hs.sorted e.2).le_maxKey (hs.exact e he)).2

/-- **The lookup of a borrowed form** leads to a node that holds an equal element, if there is
one anywhere. -/
theorem AtRest.lookup_borrowed (hs : s.AtRest) (hborrow : Coarsens borrow) (q : Q) :
    (SkipMap.lowerBoundOf borrow s.index (.included q) = none ∧ ∀ x ∈ s.elements, borrow x ≠ q) ∨
      ∃ e ∈ s.entries, SkipMap.lowerBoundOf borrow s.index (.included q) = some e ∧
        ((∀ x ∈ s.nodes e.2, borrow x ≠ q) → ∀ x ∈ s.elements, borrow x ≠ q) ∧
        ∀ x ∈ s.nodes e.2, borrow x = q → s.lookupRemove (key x) = some e := by
  rcases hs.startCut hborrow (.included q) with ⟨hnone, hall⟩ | ⟨pre, e, post, a, b, hlookup, hcut⟩
  · exact Or.inl ⟨hnone, fun x hx heq => hall x hx (heq ▸ le_refl (borrow x))⟩
  have he : e ∈ s.entries := by simp [hcut.entries]
  refine Or.inr ⟨e, he, hlookup, fun hmiss x hx => ?_, fun x hx hxq => ?_⟩
  · rw [elements_cut hcut.entries, hcut.node] at hx
    rcases List.mem_append.mp hx with hx | hx
    · exact fun heq => hcut.before x (List.mem_append_left _ hx) (heq ▸ le_refl (borrow x))
    rcases List.mem_append.mp hx with hx | hx
    · exact hmiss x (hcut.node ▸ hx)
    · -- behind the node everything is borrowed as more than its last element
      obtain ⟨y, hy, hkey⟩ := hs.exists_last he
      obtain ⟨z, hz⟩ := List.exists_mem_of_ne_nil b hcut.ne_nil
      have hzy : borrow z ≤ borrow y := by
        apply hborrow
        rw [hkey]
        exact hs.le_entry he (hcut.node ▸ List.mem_append_right _ hz)
      have hqy : q < borrow y := lt_of_le_of_ne
        (le_trans (hcut.behind z (List.mem_append_left _ hz)) hzy) (hmiss y hy).symm
      have hyx : borrow y ≤ borrow x :=
        hborrow _ _ (hkey.trans_le (hs.above_entry hcut.entries x hx).le)
      exact (hqy.trans_le hyx).ne'
  · -- the entries before end below the element, and the entry itself does not
    rw [lookupRemove, LawfulSkipMap.lowerBound_eq, List.find?_eq_some_iff_append]
    refine ⟨decide_eq_true (hs.le_entry he hx), pre, post, hcut.entries, fun p hp => ?_⟩
    have hp' : p ∈ s.entries := by simp [hcut.entries, hp]
    obtain ⟨y, hy, hkey⟩ := hs.exists_last hp'
    rw [Bool.not_eq_true', decide_eq_false_iff_not, not_le]
    by_contra hle
    rw [not_lt] at hle
    refine hcut.before y (List.mem_append_left _ (List.mem_flatMap.mpr ⟨p, hp, hy⟩)) ?_
    exact (hxq ▸ hborrow x y (hle.trans_eq hkey.symm) : q ≤ borrow y)

/-- The node of a lookup holds an equal element if there is one anywhere. -/
theorem AtRest.locateNodeOf_spec (hs : s.AtRest) (hborrow : Coarsens borrow) (q : Q) :
    match s.locateNodeOf borrow q with
    | some n => (∀ x ∈ s.nodes n, x ∈ s.elements) ∧
        ((∀ x ∈ s.nodes n, borrow x ≠ q) → ∀ x ∈ s.elements, borrow x ≠ q)
    | none => ∀ x ∈ s.elements, borrow x ≠ q := by
  have hmem : ∀ e ∈ s.entries, ∀ x ∈ s.nodes e.2, x ∈ s.elements := fun e he x hx => by
    rw [← itemsOf_entries]
    exact List.mem_flatMap.mpr ⟨e, he, hx⟩
  rw [locateNodeOf]
  rcases hs.lookup_borrowed hborrow q with ⟨hnone, hall⟩ | ⟨e, he, hlookup, hmiss, -⟩
  · rw [hnone]
    dsimp only
    rw [LawfulSkipMap.back_eq, LawfulSkipMap.front_eq, ← entries]
    cases hlast : s.entries.getLast? with
    | some e => exact ⟨hmem e (List.mem_of_getLast? hlast), fun _ => hall⟩
    | none =>
      rw [List.getLast?_eq_none_iff.mp hlast]
      exact hall
  · rw [hlookup]
    exact ⟨hmem e he, hmiss⟩

/-- **`contains`** by a borrowed form. -/
theorem containsOf_iff (hs : s.AtRest) (hborrow : Coarsens borrow) (q : Q) :
    s.containsOf borrow q = true ↔ ∃ x ∈ s.elements, borrow x = q := by
  have hlocate := hs.locateNodeOf_spec hborrow q
  rw [containsOf]
  cases hn : s.locateNodeOf borrow q with
  | none =>
    rw [hn] at hlocate
    apply iff_of_false Bool.false_ne_true
    rintro ⟨x, hx, hxq⟩
    exact hlocate x hx hxq
  | some n =>
    rw [hn] at hlocate
    rw [Node.containsOf_iff (hs.sorted_borrowed hborrow n)]
    constructor
    · rintro ⟨x, hx, hxq⟩
      exact ⟨x, hlocate.1 x hx, hxq⟩
    · rintro ⟨x, hx, hxq⟩
      by_contra hnot
      exact hlocate.2 (fun y hy hyq => hnot ⟨y, hy, hyq⟩) x hx hxq

/-- **`get`** by a borrowed form. -/
theorem getOf_spec (hs : s.AtRest) (hborrow : Coarsens borrow) (q : Q) :
    (∃ x ∈ s.elements, borrow x = q ∧ s.getOf borrow q = some x) ∨
      (∀ x ∈ s.elements, borrow x ≠ q) ∧ s.getOf borrow q = none := by
  have hlocate := hs.locateNodeOf_spec hborrow q
  rw [getOf]
  cases hn : s.locateNodeOf borrow q with
  | none =>
    rw [hn] at hlocate
    exact Or.inr ⟨hlocate, rfl⟩
  | some n =>
    rw [hn] at hlocate
    rcases Node.trySelectOf_spec (hs.sorted_borrowed hborrow n) q with
      ⟨x, hx, hxq, hselect⟩ | ⟨hmiss, hselect⟩
    · exact Or.inl ⟨x, hlocate.1 x hx, hxq, hselect⟩
    · refine Or.inr ⟨hlocate.2 hmiss, ?_⟩
      dsimp only
      rw [hselect, Option.bind_none]

/-- **`remove_cdc`** by a borrowed form removes one of the equal elements, as by its own key. -/
theorem removeCdcOf_spec (hs : s.AtRest) (hborrow : Coarsens borrow) (q : Q) :
    (∃ x ∈ s.elements, borrow x = q ∧ s.removeCdcOf borrow q = s.removeCdc (key x)) ∨
      (∀ x ∈ s.elements, borrow x ≠ q) ∧ s.removeCdcOf borrow q = some (s, none, []) := by
  rcases hs.lookup_borrowed hborrow q with ⟨hnone, hall⟩ | ⟨e, he, hlookup, hmiss, hfound⟩
  · exact Or.inr ⟨hall, by rw [removeCdcOf, hnone]⟩
  rcases Node.deleteOf_spec (hs.sorted e.2) (hs.sorted_borrowed hborrow e.2) q with
    ⟨x, hx, hxq, hdelete⟩ | ⟨hmiss', hdelete⟩
  · have hedit : s.removeEditOf borrow e q = s.removeEdit e (key x) := by
      rw [removeEditOf, hdelete]
      rfl
    refine Or.inl ⟨x, ?_, hxq, ?_⟩
    · rw [← itemsOf_entries]
      exact List.mem_flatMap.mpr ⟨e, he, hx⟩
    · rw [removeCdcOf, removeCdc, hlookup, hfound x hx hxq]
      dsimp only
      generalize hr : s.removeEditOf borrow e q = r
      obtain rfl := hr.symm.trans hedit
      rfl
  · refine Or.inr ⟨hmiss hmiss', ?_⟩
    simp only [removeCdcOf, hlookup, removeEditOf, hdelete]

/-- A key of no element. -/
theorem removeCdc_absent (hs : s.AtRest) {q : K} (h : ∀ x ∈ s.elements, key x ≠ q) :
    s.removeCdc q = some (s, none, []) := by
  cases he : s.lookupRemove q with
  | none => simp [removeCdc, he]
  | some e =>
    obtain ⟨s₁, outcome, heval, hedit⟩ := s.removeEdit_spec e q (hs.sorted e.2)
    have hmem : ∀ x ∈ s.nodes e.2, key x ≠ q := by
      obtain ⟨a, b, hcut, -, -⟩ := lookupPut_eq_some (lookupPut_of_lookupRemove he)
      intro x hx
      refine h x ?_
      rw [← itemsOf_entries]
      exact List.mem_flatMap.mpr ⟨e, by simp [hcut], hx⟩
    cases hedit with
    | absent _ => simp [removeCdc, he, heval]
    | inside hl hx => exact absurd hx (hmem _ (by simp [hl]))
    | lowered hl hx => exact absurd hx (hmem _ (by simp [hl]))
    | emptied hl hx => exact absurd hx (hmem _ (by simp [hl]))

end BTreeSet

end Concurrent

end IndexSet
