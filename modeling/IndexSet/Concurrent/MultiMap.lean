import IndexSet.Concurrent.Borrowed
import IndexSet.Concurrent.MultiPairOrder
import IndexSet.Concurrent.RankCount

/-!
# The Concurrent `BTreeMultiMap`

`concurrent/multimap.rs` with both kinds of entries.  Entries are added and removed as whole pairs;
`contains_key`, `get` and `remove_some` look for a key, which many entries may share.

An `OrdMultiPair` is found by its place in the order.  A `RandomMultiPair` is put at random among
those of its key, so `remove` goes through them; its comparison looks at the values before the
discriminators, and is the order of keys and discriminators as long as no two entries have both
key and value in common.

- §1 the code;
- §2 the multimap as a list of pairs in order; `remove_some` may take any entry of its key;
- §3 one call, for any kind of entries that finds what it has to;
- §4 whole runs on `OrdMultiPair`s;
- §5 whole runs on `RandomMultiPair`s.
-/

namespace IndexSet.Concurrent

open KeyedList DoubleEnded

variable {M T K Q V : Type} [LinearOrder K] [Keyed T K] [LinearOrder Q]

/-! ## §1 The code -/

/-- `impl Into<(K, V)>`, the same for both kinds of entries. -/
def MultiPairLike.into [MultiPairLike T Q V] (pair : T) : Q × V :=
  (MultiPairLike.key pair, MultiPairLike.value pair)

/-- `trait MultiPairRemoveHelper`. -/
class MultiPairRemoveHelper (M T : Type) (Q V : outParam Type) where
  removeCdcFrom : BTreeSet M T → Q → V →
    Option (BTreeSet M T × Option (Q × V) × List (ChangeEvent T))

/-- `MultiPairRemoveHelper::remove_from`. -/
def MultiPairRemoveHelper.removeFrom [MultiPairRemoveHelper M T Q V] (set : BTreeSet M T) (k : Q)
    (value : V) : Option (BTreeSet M T × Option (Q × V)) := do
  let (set, res, _) ← removeCdcFrom set k value
  return (set, res)

/-- `OrdMultiPair::remove_cdc_from`: the pair is found in the order of the pairs. -/
def OrdMultiPair.removeCdcFrom [LinearOrder V] [SkipMap M (OrdMultiPair Q V) (Q ×ₗ V)]
    (set : BTreeSet M (OrdMultiPair Q V)) (k : Q) (value : V) :
    Option (BTreeSet M (OrdMultiPair Q V) × Option (Q × V) ×
      List (ChangeEvent (OrdMultiPair Q V))) := do
  let pairToRemove : OrdMultiPair Q V := ⟨k, value⟩
  let (set, res, evs) ← set.removeCdc (Keyed.key pairToRemove)
  return (set, res.map MultiPairLike.into, evs)

instance [LinearOrder V] [SkipMap M (OrdMultiPair Q V) (Q ×ₗ V)] :
    MultiPairRemoveHelper M (OrdMultiPair Q V) Q V :=
  ⟨OrdMultiPair.removeCdcFrom⟩

namespace RandomMultiPair

/-- `RandomMultiPair::new`, with the number that is drawn. -/
def new (discriminator : ℕ) (key : Q) (value : V) : RandomMultiPair Q V :=
  ⟨key, value, discriminator⟩

/-- The order of entries no two of which have both key and value in common
(`Consistent`, `consistent_of_nodup`). -/
instance : Keyed (RandomMultiPair Q V) (Q ×ₗ ℕ) := ⟨fun p => toLex (p.key, p.discriminator)⟩

/-- `RandomMultiPair::remove_cdc_from`: the pair is looked for among those of its key. -/
def removeCdcFrom [DecidableEq V] [SkipMap M (RandomMultiPair Q V) (Q ×ₗ ℕ)]
    (set : BTreeSet M (RandomMultiPair Q V)) (k : Q) (value : V) :
    Option (BTreeSet M (RandomMultiPair Q V) × Option (Q × V) ×
      List (ChangeEvent (RandomMultiPair Q V))) := do
  let range ← set.range MultiPairLike.key (.included k) (.included k)
  let pairToRemove ← findNext set.pull (fun pair => pair.key = k ∧ pair.value = value)
    (set.len + 1) range
  match pairToRemove with
  | some pairToRemove =>
    let (set, res, evs) ← set.removeCdc (Keyed.key pairToRemove)
    return (set, res.map MultiPairLike.into, evs)
  | none => return (set, none, [])

end RandomMultiPair

instance [DecidableEq V] [SkipMap M (RandomMultiPair Q V) (Q ×ₗ ℕ)] :
    MultiPairRemoveHelper M (RandomMultiPair Q V) Q V :=
  ⟨RandomMultiPair.removeCdcFrom⟩

namespace BTreeMultiMap

variable [SkipMap M T K] [MultiPairLike T Q V]

/-- `BTreeMultiMap::with_maximum_node_size`. -/
def withMaximumNodeSize (cdc : Bool) (elementSize nodeCapacity : ℕ) : BTreeMultiMap M T :=
  ⟨BTreeSet.withMaximumNodeSize cdc elementSize nodeCapacity⟩

variable (m : BTreeMultiMap M T)

/-- `BTreeMultiMap::insert_cdc`; `new` is `M::new`. -/
def insertCdc (new : Q → V → T) (fuel : ℕ) (k : Q) (value : V) :
    Option (BTreeMultiMap M T × Option V × List (ChangeEvent T)) := do
  let newEntry := new k value
  let (set, oldValue, cdc) ← m.set.putCdc fuel newEntry
  return (⟨set⟩, oldValue.map fun pair => (MultiPairLike.into pair).2, cdc)

/-- `BTreeMultiMap::insert`. -/
def insert (new : Q → V → T) (fuel : ℕ) (k : Q) (value : V) :
    Option (BTreeMultiMap M T × Option V) := do
  let newEntry := new k value
  let (set, oldValue, _) ← m.set.putCdc fuel newEntry
  return (⟨set⟩, oldValue.map fun pair => (MultiPairLike.into pair).2)

/-- `BTreeMultiMap::remove_cdc`. -/
def removeCdc [MultiPairRemoveHelper M T Q V] (k : Q) (value : V) :
    Option (BTreeMultiMap M T × Option (Q × V) × List (ChangeEvent T)) := do
  let (set, removed, cdc) ← MultiPairRemoveHelper.removeCdcFrom m.set k value
  return (⟨set⟩, removed, cdc)

/-- `BTreeMultiMap::remove`. -/
def remove [MultiPairRemoveHelper M T Q V] (k : Q) (value : V) :
    Option (BTreeMultiMap M T × Option (Q × V)) := do
  let (set, removed) ← MultiPairRemoveHelper.removeFrom m.set k value
  return (⟨set⟩, removed)

/-- `BTreeMultiMap::remove_some_cdc`. -/
def removeSomeCdc (k : Q) : Option (BTreeMultiMap M T × Option (Q × V) × List (ChangeEvent T)) := do
  let (set, oldValue, cdc) ← m.set.removeCdcOf MultiPairLike.key k
  return (⟨set⟩, oldValue.map MultiPairLike.into, cdc)

/-- `BTreeMultiMap::remove_some`. -/
def removeSome (k : Q) : Option (BTreeMultiMap M T × Option (Q × V)) := do
  let (set, oldValue) ← m.set.removeOf MultiPairLike.key k
  return (⟨set⟩, oldValue.map MultiPairLike.into)

/-- `BTreeMultiMap::contains_key`. -/
def containsKey (k : Q) : Bool := m.set.containsOf MultiPairLike.key k

/-- `BTreeMultiMap::len`. -/
def len : ℕ := m.set.len

/-- `BTreeMultiMap::is_empty`. -/
def isEmpty : Bool := m.set.len == 0

end BTreeMultiMap

/-! ## §2 Calls and what they may answer -/

/-- A call on the multimap; an iterator comes with the calls made on it. -/
inductive MultiOp (Q V : Type) where
  | insert (k : Q) (value : V)
  | remove (k : Q) (value : V)
  | removeSome (k : Q)
  | containsKey (k : Q)
  | get (k : Q) (calls : List End)
  | iter (calls : List End)
  | len
  | isEmpty

/-- What a call answers. -/
inductive MultiAnswer (Q V : Type) where
  | flag (b : Bool)
  | value (v : Option V)
  | removed (entry : Option (Q × V))
  | entries (items : List (Option (Q × V)))
  | size (n : ℕ)
  deriving DecidableEq

/-- The call on the concurrent multimap. -/
def MultiOp.exec [SkipMap M T K] [MultiPairLike T Q V] [MultiPairRemoveHelper M T Q V]
    (new : Q → V → T) (fuel : ℕ) (m : BTreeMultiMap M T) :
    MultiOp Q V → Option (BTreeMultiMap M T × MultiAnswer Q V)
  | .insert k v => (m.insert new fuel k v).map fun r => (r.1, .value r.2)
  | .remove k v => (m.remove k v).map fun r => (r.1, .removed r.2)
  | .removeSome k => (m.removeSome k).map fun r => (r.1, .removed r.2)
  | .containsKey k => some (m, .flag (m.containsKey k))
  | .get k calls => ((m.get k).bind fun it => outputs m.pull it calls).map fun items =>
      (m, .entries items)
  | .iter calls => (outputs m.pull m.iter calls).map fun items => (m, .entries items)
  | .len => some (m, .size m.len)
  | .isEmpty => some (m, .flag m.isEmpty)

/-- **What a multimap is**: pairs in order, each there once.  What a call may answer, and the
pairs it may leave; only `remove_some` has a choice. -/
inductive MultiOp.Allows [MultiPairLike T Q V] [DecidableEq V] (new : Q → V → T) (l : List T) :
    MultiOp Q V → MultiAnswer Q V → List T → Prop where
  /-- The value comes back if the pair was there. -/
  | insert (k : Q) (v : V) :
      Allows new l (.insert k v)
        (.value (if (k, v) ∈ l.map MultiPairLike.into then some v else none)) (put key (new k v) l)
  | remove (k : Q) (v : V) :
      Allows new l (.remove k v)
        (.removed (if (k, v) ∈ l.map MultiPairLike.into then some (k, v) else none))
        (l.filter fun pair => MultiPairLike.into pair ≠ (k, v))
  /-- Any pair of the key. -/
  | removedSome {k : Q} {v : V} : (k, v) ∈ l.map MultiPairLike.into →
      Allows new l (.removeSome k) (.removed (some (k, v)))
        (l.filter fun pair => MultiPairLike.into pair ≠ (k, v))
  | removedNone {k : Q} : (∀ v, (k, v) ∉ l.map MultiPairLike.into) →
      Allows new l (.removeSome k) (.removed none) l
  | containsKey (k : Q) :
      Allows new l (.containsKey k) (.flag (decide (∃ pair ∈ l, MultiPairLike.key pair = k))) l
  /-- The pairs of the key in their order, from both ends. -/
  | get (k : Q) (calls : List End) :
      Allows new l (.get k calls)
        (.entries (reference
          ((l.filter fun pair => MultiPairLike.key pair = k).map MultiPairLike.into) calls)) l
  | iter (calls : List End) :
      Allows new l (.iter calls) (.entries (reference (l.map MultiPairLike.into) calls)) l
  | len : Allows new l .len (.size l.length) l
  | isEmpty : Allows new l .isEmpty (.flag l.isEmpty) l

/-- Calls one after another, each answered as it may be. -/
inductive AllowsAll {τ α β : Type} (allows : τ → α → β → τ → Prop) :
    τ → List α → List β → τ → Prop where
  | nil (l : τ) : AllowsAll allows l [] [] l
  | cons {l l₁ l' : τ} {op : α} {answer : β} {ops : List α} {answers : List β} :
      allows l op answer l₁ → AllowsAll allows l₁ ops answers l' →
      AllowsAll allows l (op :: ops) (answer :: answers) l'

/-- In every state of a run the condition holds of the call to come. -/
def ExecAlong {σ α β : Type} (exec : σ → α → Option (σ × β)) (P : σ → α → Prop) :
    σ → List α → Prop
  | _, [] => True
  | s, op :: ops => P s op ∧ ∀ r ∈ exec s op, ExecAlong exec P r.1 ops

instance decidableExecAlong {σ α β : Type} {exec : σ → α → Option (σ × β)} {P : σ → α → Prop}
    [∀ s op, Decidable (P s op)] : ∀ s ops, Decidable (ExecAlong exec P s ops)
  | _, [] => isTrue trivial
  | s, op :: ops =>
    let _ (r : σ × β) : Decidable (ExecAlong exec P r.1 ops) := decidableExecAlong r.1 ops
    inferInstanceAs (Decidable (P s op ∧ ∀ r ∈ exec s op, ExecAlong exec P r.1 ops))

theorem execAlong_of {σ α β : Type} {exec : σ → α → Option (σ × β)} {P : σ → α → Prop}
    (h : ∀ s op, P s op) (s : σ) (ops : List α) : ExecAlong exec P s ops := by
  induction ops generalizing s with
  | nil => trivial
  | cons op ops ih => exact ⟨h s op, fun r _ => ih r.1⟩

/-- A state that no call leaves. -/
theorem execAlong_of_stays {σ α β : Type} {exec : σ → α → Option (σ × β)} {P : σ → α → Prop} {s : σ}
    {answer : β} (hstay : ∀ op, exec s op = none ∨ exec s op = some (s, answer))
    (h : ∀ op, P s op) (ops : List α) : ExecAlong exec P s ops := by
  induction ops with
  | nil => trivial
  | cons op ops ih =>
    refine ⟨h op, fun r hr => ?_⟩
    rcases hstay op with hnone | hsome
    · cases hnone.symm.trans hr
    · cases hsome.symm.trans hr
      exact ih

/-- A step-by-step simulation of what is allowed lifts to whole runs. -/
theorem execAll_allowed {σ τ α β : Type} {exec : σ → α → Option (σ × β)}
    (allows : τ → α → β → τ → Prop) {R : σ → τ → Prop} {P : σ → α → Prop}
    (hstep : ∀ s l op, R s l → P s op → ∃ s' answer l', exec s op = some (s', answer) ∧
      allows l op answer l' ∧ R s' l') (s : σ) (l : τ) (h : R s l) (ops : List α)
    (hops : ExecAlong exec P s ops) :
    ∃ s' answers l', execAll exec s ops = some (s', answers) ∧
      AllowsAll allows l ops answers l' ∧ R s' l' := by
  induction ops generalizing s l with
  | nil => exact ⟨s, [], l, rfl, .nil l, h⟩
  | cons op ops ih =>
    obtain ⟨hop, hops⟩ := hops
    obtain ⟨s₁, answer, l₁, hexec, hallows, h₁⟩ := hstep s l op h hop
    obtain ⟨s', answers, l', hrest, hall, h'⟩ := ih s₁ l₁ h₁ (hops _ hexec)
    exact ⟨s', answer :: answers, l', by simp [execAll, hexec, hrest], .cons hallows hall, h'⟩

/-! ## §3 One call -/

section Exec

variable [LawfulSkipMap M T K] [MultiPairLike T Q V] [DecidableEq V] {m : BTreeMultiMap M T}
  {l : List T} {k : Q} {v : V}

/-- A settled multimap with each pair once. -/
structure BTreeMultiMap.Good (m : BTreeMultiMap M T) : Prop where
  settled : m.set.Settled
  nodup : (m.set.elements.map MultiPairLike.into).Nodup

/-- The order finds the stored pair with the key and the value of a new one, if there is one. -/
def MultiOp.Finds (new : Q → V → T) (l : List T) : MultiOp Q V → Prop
  | .insert k v => find key (key (new k v)) l = l.find? fun pair => MultiPairLike.into pair = (k, v)
  | _ => True

/-- A pair is removed by its place in the order, and nothing is when there is none. -/
def BTreeMultiMap.RemovesPairs [MultiPairRemoveHelper M T Q V] (m : BTreeMultiMap M T) : Prop :=
  ∀ k v, (∃ x ∈ m.set.elements, MultiPairLike.into x = (k, v) ∧
      MultiPairRemoveHelper.removeCdcFrom m.set k v =
        (m.set.removeCdc (key x)).map fun r => (r.1, r.2.1.map MultiPairLike.into, r.2.2)) ∨
    (k, v) ∉ m.set.elements.map MultiPairLike.into ∧
      MultiPairRemoveHelper.removeCdcFrom m.set k v = some (m.set, none, [])

omit [LinearOrder K] [Keyed T K] [LawfulSkipMap M T K] in
/-- Pairs each there once, found by key and value. -/
theorem find?_into (l : List T) (k : Q) (v : V) :
    ((l.find? fun pair => MultiPairLike.into pair = (k, v)).map MultiPairLike.into) =
      if (k, v) ∈ l.map MultiPairLike.into then some (k, v) else none := by
  cases hfind : l.find? fun pair => MultiPairLike.into pair = (k, v) with
  | none =>
    rw [if_neg]
    · rfl
    · rintro hmem
      obtain ⟨pair, hpair, hinto⟩ := List.mem_map.mp hmem
      simpa [hinto] using List.find?_eq_none.mp hfind pair hpair
  | some pair =>
    have hinto : MultiPairLike.into pair = (k, v) := by simpa using List.find?_some hfind
    have hmem : (k, v) ∈ l.map MultiPairLike.into :=
      hinto ▸ List.mem_map_of_mem (List.mem_of_find?_eq_some hfind)
    rw [if_pos hmem, Option.map_some, hinto]

/-- Removing a stored pair by its place in the order. -/
theorem BTreeMultiMap.Good.removeCdc (hm : m.Good) {x : T} (hx : x ∈ m.set.elements) :
    ∃ s' cdc, m.set.removeCdc (key x) = some (s', some x, cdc) ∧ s'.Settled ∧
      m.set.SameBuild s' ∧
      s'.elements =
        m.set.elements.filter fun pair => MultiPairLike.into pair ≠ MultiPairLike.into x := by
  have hasc := hm.settled.atRest.elements_ascending
  obtain ⟨s', cdc, heval, hs', hbuild, helements⟩ := BTreeSet.removeCdc_spec hm.settled (key x)
  rw [find_eq_some_of_mem hasc hx rfl] at heval
  refine ⟨s', cdc, heval, hs', hbuild, helements.trans (List.filter_congr fun y hy => ?_)⟩
  have hiff : key y = key x ↔ MultiPairLike.into y = MultiPairLike.into x := by
    constructor
    · exact fun h => congrArg _ (hasc.eq_of_key_eq hy hx h)
    · exact fun h => congrArg _ (List.inj_on_of_nodup_map hm.nodup hy hx h)
  simp [hiff]

omit [LinearOrder Q] [DecidableEq V] in
/-- A set with fewer of the pairs is good. -/
theorem BTreeMultiMap.Good.of_filter (hm : m.Good) {s' : BTreeSet M T} (hs' : s'.Settled)
    {p : T → Bool} (helements : s'.elements = m.set.elements.filter p) :
    (⟨s'⟩ : BTreeMultiMap M T).Good :=
  ⟨hs', by rw [helements]; exact hm.nodup.sublist (List.filter_sublist.map _)⟩

/-- Removing a pair takes exactly that one. -/
theorem BTreeMultiMap.Good.removeCdcFrom [MultiPairRemoveHelper M T Q V] (hm : m.Good)
    (hremoves : m.RemovesPairs) (k : Q) (v : V) :
    ∃ s' cdc, MultiPairRemoveHelper.removeCdcFrom m.set k v =
        some (s', if (k, v) ∈ m.set.elements.map MultiPairLike.into then some (k, v) else none,
          cdc) ∧
      s'.Settled ∧ m.set.SameBuild s' ∧
      s'.elements = m.set.elements.filter fun pair => MultiPairLike.into pair ≠ (k, v) := by
  rcases hremoves k v with ⟨x, hx, hinto, hremove⟩ | ⟨hnot, hremove⟩
  · obtain ⟨s', cdc, heval, hs', hbuild, helements⟩ := hm.removeCdc hx
    have hmem : (k, v) ∈ m.set.elements.map MultiPairLike.into := hinto ▸ List.mem_map_of_mem hx
    rw [hinto] at helements
    exact ⟨s', cdc, by simp [hremove, heval, hmem, hinto], hs', hbuild, helements⟩
  · refine ⟨m.set, [], by rw [hremove, if_neg hnot], hm.settled, ⟨rfl, rfl, rfl⟩, ?_⟩
    refine (List.filter_eq_self.mpr fun x hx => ?_).symm
    rw [decide_eq_true_eq]
    exact fun hinto => hnot (hinto ▸ List.mem_map_of_mem hx)

omit [LinearOrder Q] [DecidableEq V] in
theorem BTreeMultiMap.withMaximumNodeSize_good (cdc : Bool) (elementSize capacity : ℕ) :
    (withMaximumNodeSize cdc elementSize capacity : BTreeMultiMap M T).Good ∧
      (withMaximumNodeSize cdc elementSize capacity : BTreeMultiMap M T).set.elements = [] := by
  obtain ⟨hset, hempty⟩ :=
    BTreeSet.withMaximumNodeSize_settled (M := M) (T := T) cdc elementSize capacity
  refine ⟨⟨hset, ?_⟩, hempty⟩
  rw [withMaximumNodeSize, hempty]
  exact List.nodup_nil

omit [DecidableEq V] in
/-- `get` gives the pairs of the key. -/
theorem BTreeMultiMap.get_yields (hm : m.set.Settled)
    (hborrow : Coarsens (MultiPairLike.key : T → Q)) (k : Q) :
    ∃ it, m.get k = some it ∧
      Yields m.set.pull it (m.set.elements.filter fun pair => MultiPairLike.key pair = k) := by
  have hside : (∃ x ∈ m.set.elements, (Bound.included k).Starts (MultiPairLike.key x)) ∨
      ∀ x ∈ m.set.elements, (Bound.included k).Ends (MultiPairLike.key x) := by
    by_cases h : ∃ x ∈ m.set.elements, k ≤ MultiPairLike.key x
    · exact Or.inl h
    · simp only [not_exists, not_and, not_le] at h
      exact Or.inr fun x hx => (h x hx).le
  obtain ⟨it, hrange, hgives⟩ := BTreeSet.range_gives hm.atRest hborrow hside
  have hsame : (m.set.elements.filter fun x =>
      InRange (.included k) (.included k) (MultiPairLike.key x)) =
      m.set.elements.filter fun pair => MultiPairLike.key pair = k := by
    refine List.filter_congr fun x _ => decide_eq_decide.mpr ?_
    exact ⟨fun h => le_antisymm h.2 h.1, fun h => ⟨h.ge, h.le⟩⟩
  rw [hsame] at hgives
  exact ⟨it, hrange, hgives.yields hm.atRest⟩

/-- Storing a new entry where the order finds the stored pair keeps each pair there once. -/
theorem nodup_put {new : T} (hl : Ascending key l) (hnodup : (l.map MultiPairLike.into).Nodup)
    (hfind : find key (key new) l =
      l.find? fun pair => MultiPairLike.into pair = MultiPairLike.into new) :
    ((put key new l).map MultiPairLike.into).Nodup := by
  rcases hl.exists_cut (key new) with ⟨a, x, b, rfl, hx, ha, hb⟩ | ⟨a, b, rfl, ha, hb⟩
  · -- the entry in its place is the same pair
    have hstored := find_hit hx ha (b := b)
    have hinto : MultiPairLike.into x = MultiPairLike.into new := by
      simpa using List.find?_some (hfind.symm.trans hstored)
    rwa [map_put_of_find hl hstored hinto.symm]
  · have hnone := hfind.symm.trans (find_gap ha hb)
    have hnew : MultiPairLike.into new ∉ (a ++ b).map MultiPairLike.into := by
      intro hmem
      obtain ⟨pair, hpair, hinto⟩ := List.mem_map.mp hmem
      simpa [hinto] using List.find?_eq_none.mp hnone pair hpair
    rw [put_gap ha hb, List.map_append, List.map_cons, List.nodup_middle, List.nodup_cons,
      ← List.map_append]
    exact ⟨hnew, hnodup⟩

/-- **One call** on a multimap of any kind of entries. -/
theorem BTreeMultiMap.Good.exec [MultiPairRemoveHelper M T Q V] (hm : m.Good)
    (hborrow : Coarsens (MultiPairLike.key : T → Q)) {new : Q → V → T}
    (hnew : ∀ k v, MultiPairLike.into (new k v) = (k, v)) (hremoves : m.RemovesPairs)
    (hfits : m.set.Allocates) (fuel : ℕ) (op : MultiOp Q V) (hfinds : op.Finds new m.set.elements) :
    ∃ m' answer, op.exec new (fuel + 1) m = some (m', answer) ∧
      op.Allows new m.set.elements answer m'.set.elements ∧ m'.Good ∧
      m.set.SameBuild m'.set := by
  have hasc := hm.settled.atRest.elements_ascending
  cases op with
  | insert k v =>
    obtain ⟨s', cdc, heval, hs', hbuild, helements⟩ :=
      BTreeSet.putCdc_spec hm.settled hfits fuel (new k v)
    have hanswer : (MultiOp.insert k v).Allows new m.set.elements _ _ := .insert k v
    rw [← helements] at hanswer
    refine ⟨⟨s'⟩, _, ?_, hanswer, ⟨hs', ?_⟩, hbuild⟩
    · have hold : (find key (key (new k v)) m.set.elements).map
          (fun pair => (MultiPairLike.into pair).2) =
          if (k, v) ∈ m.set.elements.map MultiPairLike.into then some v else none := by
        have hvalue := congrArg (Option.map Prod.snd) (find?_into m.set.elements k v)
        rw [Option.map_map, apply_ite (Option.map Prod.snd)] at hvalue
        rw [show find key (key (new k v)) m.set.elements = _ from hfinds]
        exact hvalue
      simp only [MultiOp.exec, insert, heval, Option.bind_eq_bind, Option.bind_some, hold]
      rfl
    · rw [helements]
      exact nodup_put hasc hm.nodup (by rw [hnew]; exact hfinds)
  | remove k v =>
    obtain ⟨s', cdc, heval, hs', hbuild, helements⟩ := hm.removeCdcFrom hremoves k v
    have hanswer : (MultiOp.remove k v).Allows new m.set.elements _ _ := .remove k v
    rw [← helements] at hanswer
    refine ⟨⟨s'⟩, _, ?_, hanswer, hm.of_filter hs' helements, hbuild⟩
    simp [MultiOp.exec, remove, MultiPairRemoveHelper.removeFrom, heval]
  | removeSome k =>
    rcases BTreeSet.removeCdcOf_spec hm.settled.atRest hborrow k with
      ⟨x, hx, rfl, hremove⟩ | ⟨hmiss, hremove⟩
    · -- the search stops at `x`, and `x` goes
      obtain ⟨s', cdc, heval, hs', hbuild, helements⟩ := hm.removeCdc hx
      have hmem : (MultiPairLike.key x, MultiPairLike.value x) ∈
          m.set.elements.map MultiPairLike.into := List.mem_map_of_mem hx
      have hanswer : (MultiOp.removeSome _).Allows new m.set.elements _ _ := .removedSome hmem
      refine ⟨⟨s'⟩, _, ?_, helements ▸ hanswer, hm.of_filter hs' helements, hbuild⟩
      simp [MultiOp.exec, removeSome, BTreeSet.removeOf, hremove, heval, MultiPairLike.into]
    · refine ⟨m, .removed none, ?_, .removedNone fun v hv => ?_, hm, ⟨rfl, rfl, rfl⟩⟩
      · simp [MultiOp.exec, removeSome, BTreeSet.removeOf, hremove]
      · obtain ⟨pair, hpair, hinto⟩ := List.mem_map.mp hv
        exact hmiss pair hpair (congrArg Prod.fst hinto)
  | containsKey k =>
    refine ⟨m, _, ?_, .containsKey k, hm, ⟨rfl, rfl, rfl⟩⟩
    have hcontains : m.containsKey k =
        decide (∃ pair ∈ m.set.elements, MultiPairLike.key pair = k) := by
      rw [Bool.eq_iff_iff, decide_eq_true_eq]
      exact BTreeSet.containsOf_iff hm.settled.atRest hborrow k
    rw [MultiOp.exec, hcontains]
  | get k calls =>
    obtain ⟨it, hget, hyields⟩ := get_yields hm.settled hborrow k
    have hpairs : Yields m.pull it _ := hyields.mapped MultiPairLike.into
    refine ⟨m, _, ?_, .get k calls, hm, ⟨rfl, rfl, rfl⟩⟩
    rw [MultiOp.exec, hget, Option.bind_some, yields_iff.mp hpairs calls]
    rfl
  | iter calls =>
    have hyields : Yields m.pull m.iter (m.set.elements.map MultiPairLike.into) :=
      (BTreeSet.iter_gives.yields hm.settled.atRest).mapped _
    refine ⟨m, _, ?_, .iter calls, hm, ⟨rfl, rfl, rfl⟩⟩
    rw [MultiOp.exec, yields_iff.mp hyields calls]
    rfl
  | len => exact ⟨m, _, by rw [MultiOp.exec, len, BTreeSet.len_eq], .len, hm, ⟨rfl, rfl, rfl⟩⟩
  | isEmpty =>
    refine ⟨m, _, ?_, .isEmpty, hm, ⟨rfl, rfl, rfl⟩⟩
    rw [MultiOp.exec, isEmpty, BTreeSet.len_eq]
    cases m.set.elements <;> rfl

end Exec

/-! ## §4 Whole runs on `OrdMultiPair`s -/

section Ord

variable [LinearOrder V] [LawfulSkipMap M (OrdMultiPair Q V) (Q ×ₗ V)]

omit [LinearOrder Q] [LinearOrder V] in
theorem pair_key_iff {x : OrdMultiPair Q V} {k : Q} {v : V} :
    Keyed.key x = Keyed.key (⟨k, v⟩ : OrdMultiPair Q V) ↔ MultiPairLike.into x = (k, v) :=
  toLex.injective.eq_iff

/-- A pair has one place in the order. -/
theorem OrdMultiPair.finds (l : List (OrdMultiPair Q V)) (op : MultiOp Q V) :
    op.Finds OrdMultiPair.mk l := by
  cases op with
  | insert k v =>
    exact congrArg (List.find? · l) (funext fun x => decide_eq_decide.mpr pair_key_iff)
  | _ => trivial

/-- The pair at its place is removed, or there is none. -/
theorem OrdMultiPair.removesPairs {m : BTreeMultiMap M (OrdMultiPair Q V)} (hm : m.Good) :
    m.RemovesPairs := by
  intro k v
  have hcode : MultiPairRemoveHelper.removeCdcFrom m.set k v =
      (m.set.removeCdc (Keyed.key (⟨k, v⟩ : OrdMultiPair Q V))).map fun r =>
        (r.1, r.2.1.map MultiPairLike.into, r.2.2) := by
    cases h : m.set.removeCdc (Keyed.key (⟨k, v⟩ : OrdMultiPair Q V)) <;>
      simp [MultiPairRemoveHelper.removeCdcFrom, removeCdcFrom, h]
  by_cases hmem : (k, v) ∈ m.set.elements.map MultiPairLike.into
  · obtain ⟨x, hx, hinto⟩ := List.mem_map.mp hmem
    exact Or.inl ⟨x, hx, hinto, by rw [hcode, pair_key_iff.mpr hinto]⟩
  · have hnone : ∀ x ∈ m.set.elements, Keyed.key x ≠ Keyed.key (⟨k, v⟩ : OrdMultiPair Q V) :=
      fun x hx hkey => hmem (pair_key_iff.mp hkey ▸ List.mem_map_of_mem hx)
    refine Or.inr ⟨hmem, ?_⟩
    rw [hcode, BTreeSet.removeCdc_absent hm.settled.atRest hnone]
    rfl

/-- **The multimap is one**: for every capacity that a node can be allocated at and that `rank`
can count to, any calls one after another on an empty multimap answer as a list of pairs in order
may, and leave its pairs; the nodes stay within their size and the index keys are their maxima. -/
theorem multimap_refines (cdc : Bool) {elementSize capacity : ℕ}
    (hfits : capacity * elementSize ≤ Node.isizeMax) (hcounts : capacity ≤ 2 ^ 31) (fuel : ℕ)
    (ops : List (MultiOp Q V)) :
    ∃ (m : BTreeMultiMap M (OrdMultiPair Q V)) (answers : List (MultiAnswer Q V)),
      execAll (MultiOp.exec OrdMultiPair.mk (fuel + 1))
          (BTreeMultiMap.withMaximumNodeSize cdc elementSize capacity) ops = some (m, answers) ∧
        AllowsAll (MultiOp.Allows OrdMultiPair.mk) [] ops answers m.set.elements ∧
        m.set.AtRest ∧ (∀ e ∈ m.set.entries, (m.set.nodes e.2).length ≤ max capacity 2) ∧
        m.set.RanksExact key ∧ m.set.RanksExact (MultiPairLike.key : OrdMultiPair Q V → Q) := by
  obtain ⟨hgood, hempty⟩ :=
    BTreeMultiMap.withMaximumNodeSize_good (M := M) (T := OrdMultiPair Q V) cdc elementSize capacity
  obtain ⟨m, answers, l, hexec, hall, hm, hbuild, rfl⟩ := execAll_allowed
    (MultiOp.Allows OrdMultiPair.mk)
    (R := fun (m : BTreeMultiMap M (OrdMultiPair Q V)) l => m.Good ∧
      (BTreeSet.withMaximumNodeSize cdc elementSize capacity).SameBuild m.set ∧
      m.set.elements = l)
    (fun m l op h _ => by
      obtain ⟨hm, hbuild, rfl⟩ := h
      obtain ⟨m', answer, hexec, hallows, hm', hbuild'⟩ := hm.exec OrdMultiPair.coarsens
        (fun _ _ => rfl) (OrdMultiPair.removesPairs hm) (hbuild.allocates hfits) fuel op
        (OrdMultiPair.finds _ op)
      exact ⟨m', answer, _, hexec, hallows, hm', hbuild.trans hbuild', rfl⟩)
    (BTreeMultiMap.withMaximumNodeSize cdc elementSize capacity) [] ⟨hgood, .refl _, hempty⟩ ops
    (execAlong_of (P := fun _ _ => True) (fun _ _ => trivial) _ _)
  have hcap : m.set.nodeCapacity = capacity := hbuild.nodeCapacity
  have hbounded := hm.settled.bounded
  rw [BTreeSet.Bounded, hcap] at hbounded
  have hlen : m.set.NodesFit := fun e he => (hbounded e he).trans (max_le hcounts (by decide))
  exact ⟨m, answers, hexec, hall, hm.settled.atRest, hbounded, hlen.ranksExact _,
    hlen.ranksExact _⟩

/-- Two pairs of one key, one of them twice. -/
theorem multimap_refines_twoPairs :
    ∃ (m : BTreeMultiMap (SortedIndex (OrdMultiPair ℕ ℕ)) (OrdMultiPair ℕ ℕ))
      (answers : List (MultiAnswer ℕ ℕ)),
      execAll (MultiOp.exec OrdMultiPair.mk 1) (BTreeMultiMap.withMaximumNodeSize true 16 2)
          [.insert 1 5, .insert 1 6, .insert 1 5, .len] = some (m, answers) ∧ m.set.AtRest := by
  obtain ⟨m, answers, hexec, -, hrest, -⟩ := multimap_refines
    (M := SortedIndex (OrdMultiPair ℕ ℕ)) (Q := ℕ) (V := ℕ) true (by decide : 2 * 16 ≤ _)
    (by decide) 0 [.insert 1 5, .insert 1 6, .insert 1 5, .len]
  exact ⟨m, answers, hexec, hrest⟩

end Ord

/-! ## §5 Whole runs on `RandomMultiPair`s -/

section Random

variable [DecidableEq V] [LawfulSkipMap M (RandomMultiPair Q V) (Q ×ₗ ℕ)]

namespace RandomMultiPair

/-- A call, with the number that is drawn if it is an insertion. -/
def execCall (fuel : ℕ) (m : BTreeMultiMap M (RandomMultiPair Q V)) (call : MultiOp Q V × ℕ) :
    Option (BTreeMultiMap M (RandomMultiPair Q V) × MultiAnswer Q V) :=
  call.1.exec (new call.2) fuel m

/-- The comparison of the code is the order of keys and discriminators. -/
def Consistent (l : List (RandomMultiPair Q V)) : Prop :=
  ∀ x ∈ l, ∀ y ∈ l, @cmp Q V Q _ ⟨id⟩ _ x y = compare (Keyed.key x) (Keyed.key y)

/-- A pair that is inserted is not there yet, and the number drawn for it is that of no other
pair of its key. -/
def Fresh (l : List (RandomMultiPair Q V)) : MultiOp Q V × ℕ → Prop
  | (.insert k v, discriminator) =>
    ∀ pair ∈ l, pair.key = k → pair.value ≠ v ∧ pair.discriminator ≠ discriminator
  | _ => True

instance (l : List (RandomMultiPair Q V)) : ∀ call, Decidable (Fresh l call)
  | (.insert k v, discriminator) =>
    inferInstanceAs (Decidable (∀ pair ∈ l, pair.key = k →
      pair.value ≠ v ∧ pair.discriminator ≠ discriminator))
  | (.remove _ _, _) => isTrue trivial
  | (.removeSome _, _) => isTrue trivial
  | (.containsKey _, _) => isTrue trivial
  | (.get _ _, _) => isTrue trivial
  | (.iter _, _) => isTrue trivial
  | (.len, _) => isTrue trivial
  | (.isEmpty, _) => isTrue trivial

/-- Values are compared before discriminators, but no two pairs of a key have the same. -/
theorem consistent_of_nodup {l : List (RandomMultiPair Q V)}
    (h : (l.map MultiPairLike.into).Nodup) : Consistent l := by
  intro x hx y hy
  have hcompare : compare (Keyed.key x) (Keyed.key y) =
      (compare x.key y.key).then (compare x.discriminator y.discriminator) := rfl
  let _ : Keyed Q Q := ⟨id⟩
  rw [hcompare]
  rcases lt_trichotomy x.key y.key with hlt | heq | hgt
  · rw [compare_lt_iff_lt.mpr hlt]
    exact cmp_of_lt hlt
  · rw [compare_eq_iff_eq.mpr heq, Ordering.eq_then]
    refine (cmp_of_eq heq).trans ?_
    by_cases hvalue : x.value = y.value
    · obtain rfl := List.inj_on_of_nodup_map h hx hy (Prod.ext heq hvalue)
      simp
    · simp [hvalue]
  · rw [compare_gt_iff_gt.mpr hgt]
    exact cmp_of_gt hgt

omit [DecidableEq V] in
theorem coarsens : Coarsens (MultiPairLike.key : RandomMultiPair Q V → Q) :=
  fun _ _ h => Prod.Lex.monotone_fst _ _ h

/-- Neither the order nor key and value find anything for a fresh pair. -/
theorem Fresh.finds {l : List (RandomMultiPair Q V)} {call : MultiOp Q V × ℕ}
    (h : Fresh l call) : call.1.Finds (new call.2) l := by
  obtain ⟨op, discriminator⟩ := call
  cases op with
  | insert k v =>
    have horder : find Keyed.key (Keyed.key (new discriminator k v)) l = none := by
      refine find_eq_none.mpr fun pair hpair hkey => ?_
      obtain ⟨hk, hd⟩ := Prod.mk.inj (toLex.injective hkey)
      exact (h pair hpair hk).2 hd
    have hinto : l.find? (fun pair => MultiPairLike.into pair = (k, v)) = none := by
      refine List.find?_eq_none.mpr fun pair hpair hpairs => ?_
      obtain ⟨hk, hv⟩ := Prod.mk.inj (of_decide_eq_true hpairs)
      exact (h pair hpair hk).1 hv
    exact horder.trans hinto.symm
  | _ => trivial

/-- The pair that the range gives is removed, or there is none. -/
theorem removesPairs {m : BTreeMultiMap M (RandomMultiPair Q V)} (hm : m.Good) :
    m.RemovesPairs := by
  intro k v
  obtain ⟨it, hget, hyields⟩ := BTreeMultiMap.get_yields hm.settled coarsens k
  have hrange : m.set.range MultiPairLike.key (.included k) (.included k) = some it := hget
  have hlength : (m.set.elements.filter fun pair => MultiPairLike.key pair = k).length <
      m.set.len + 1 := by
    rw [BTreeSet.len_eq]
    exact Nat.lt_succ_of_le (List.length_filter_le _ _)
  have hfind := hyields.findNext (p := fun pair => pair.key = k ∧ pair.value = v) hlength
  have hsame : (m.set.elements.filter fun pair => MultiPairLike.key pair = k).find?
      (fun pair => decide (pair.key = k ∧ pair.value = v)) =
      m.set.elements.find? fun pair => MultiPairLike.into pair = (k, v) := by
    rw [List.find?_filter]
    refine congrArg (List.find? · m.set.elements) (funext fun pair => ?_)
    simp [MultiPairLike.into, MultiPairLike.key, MultiPairLike.value]
  rw [hsame] at hfind
  cases hstored : m.set.elements.find? fun pair => MultiPairLike.into pair = (k, v) with
  | some x =>
    have hinto : MultiPairLike.into x = (k, v) := by simpa using List.find?_some hstored
    rw [hstored] at hfind
    refine Or.inl ⟨x, List.mem_of_find?_eq_some hstored, hinto, ?_⟩
    simp only [MultiPairRemoveHelper.removeCdcFrom, removeCdcFrom, hrange, hfind,
      Option.bind_eq_bind, Option.bind_some]
    cases m.set.removeCdc (Keyed.key x) <;> rfl
  | none =>
    rw [hstored] at hfind
    refine Or.inr ⟨fun hmem => ?_, ?_⟩
    · obtain ⟨x, hx, hinto⟩ := List.mem_map.mp hmem
      simpa [hinto] using List.find?_eq_none.mp hstored x hx
    · simp only [MultiPairRemoveHelper.removeCdcFrom, removeCdcFrom, hrange, hfind,
        Option.bind_eq_bind, Option.bind_some]
      rfl

end RandomMultiPair

/-- **The multimap of random pairs is one** as long as no pair is inserted that is there already
and the numbers drawn for one key differ: for every capacity that a node can be allocated at and
that `rank` can count to, any calls one after another on an empty multimap answer as a list of pairs
in order may, and leave its pairs; and in every state the comparison of the code is an order on
them. -/
theorem random_multimap_refines (cdc : Bool) {elementSize capacity : ℕ}
    (hfits : capacity * elementSize ≤ Node.isizeMax) (hcounts : capacity ≤ 2 ^ 31) (fuel : ℕ)
    (calls : List (MultiOp Q V × ℕ))
    (hfresh : ExecAlong (RandomMultiPair.execCall (M := M) (fuel + 1))
      (fun m call => RandomMultiPair.Fresh m.set.elements call)
      (BTreeMultiMap.withMaximumNodeSize cdc elementSize capacity) calls) :
    ∃ (m : BTreeMultiMap M (RandomMultiPair Q V)) (answers : List (MultiAnswer Q V)),
      execAll (RandomMultiPair.execCall (fuel + 1))
          (BTreeMultiMap.withMaximumNodeSize cdc elementSize capacity) calls = some (m, answers) ∧
        AllowsAll (fun l call answer l' => RandomMultiPair.Consistent l' ∧
          call.1.Allows (RandomMultiPair.new call.2) l answer l') [] calls answers
          m.set.elements ∧
        m.set.AtRest ∧ (∀ e ∈ m.set.entries, (m.set.nodes e.2).length ≤ max capacity 2) ∧
        m.set.RanksExact key ∧ m.set.RanksExact (MultiPairLike.key : RandomMultiPair Q V → Q) := by
  obtain ⟨hgood, hempty⟩ := BTreeMultiMap.withMaximumNodeSize_good (M := M)
    (T := RandomMultiPair Q V) cdc elementSize capacity
  obtain ⟨m, answers, l, hexec, hall, hm, hbuild, rfl⟩ := execAll_allowed
    (fun l (call : MultiOp Q V × ℕ) answer l' => RandomMultiPair.Consistent l' ∧
      call.1.Allows (RandomMultiPair.new call.2) l answer l')
    (R := fun (m : BTreeMultiMap M (RandomMultiPair Q V)) l => m.Good ∧
      (BTreeSet.withMaximumNodeSize cdc elementSize capacity).SameBuild m.set ∧
      m.set.elements = l)
    (fun m l call h hcall => by
      obtain ⟨hm, hbuild, rfl⟩ := h
      obtain ⟨m', answer, hexec, hallows, hm', hbuild'⟩ := hm.exec RandomMultiPair.coarsens
        (fun _ _ => rfl) (RandomMultiPair.removesPairs hm) (hbuild.allocates hfits) fuel call.1
        (RandomMultiPair.Fresh.finds hcall)
      exact ⟨m', answer, _, hexec, ⟨RandomMultiPair.consistent_of_nodup hm'.nodup, hallows⟩, hm',
        hbuild.trans hbuild', rfl⟩)
    (BTreeMultiMap.withMaximumNodeSize cdc elementSize capacity) [] ⟨hgood, .refl _, hempty⟩ calls
    hfresh
  have hcap : m.set.nodeCapacity = capacity := hbuild.nodeCapacity
  have hbounded := hm.settled.bounded
  rw [BTreeSet.Bounded, hcap] at hbounded
  have hlen : m.set.NodesFit := fun e he => (hbounded e he).trans (max_le hcounts (by decide))
  exact ⟨m, answers, hexec, hall, hm.settled.atRest, hbounded, hlen.ranksExact _,
    hlen.ranksExact _⟩

theorem random_multimap_refines_removeAndInsert :
    ∃ (m : BTreeMultiMap (SortedIndex (RandomMultiPair ℕ ℕ)) (RandomMultiPair ℕ ℕ))
      (answers : List (MultiAnswer ℕ ℕ)),
      execAll (RandomMultiPair.execCall 1)
          (BTreeMultiMap.withMaximumNodeSize true 24 2)
          [(.insert 1 5, 30), (.insert 1 6, 10), (.insert 1 7, 20), (.remove 1 5, 0),
            (.insert 1 5, 15)] = some (m, answers) ∧ m.set.AtRest := by
  obtain ⟨m, answers, hexec, -, hrest, -⟩ := random_multimap_refines
    (M := SortedIndex (RandomMultiPair ℕ ℕ)) (Q := ℕ) (V := ℕ) true (by decide : 2 * 24 ≤ _)
    (by decide) 0
    [(.insert 1 5, 30), (.insert 1 6, 10), (.insert 1 7, 20), (.remove 1 5, 0),
      (.insert 1 5, 15)] (by decide)
  exact ⟨m, answers, hexec, hrest⟩

end Random

end IndexSet.Concurrent
