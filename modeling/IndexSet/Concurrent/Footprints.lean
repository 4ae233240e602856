import IndexSet.Concurrent.Mirror

/-!
# Entries With a Claim on Keys

When no key is inserted twice, the entries of the index stay apart without any order between
their nodes: each entry claims its index key and the keys of its node, and no key is claimed
twice.  That is enough for the receiver to tell the nodes from each other.

- `Apart`: no key is claimed by two entries;
- `Copies`: the receiver has what every node is known to hold, under its maximum;
- `Swaps`: the entry of one node gives way to fresh ones.  It keeps both, whatever the step
  that does it.

What a node is known to hold (`held`) is its contents, or what the receiver still has of an
emptied node.
-/

namespace IndexSet.Concurrent

open KeyedList PersistedBTreeMap

variable {M T K : Type} [LinearOrder K] [Keyed T K]

/-- The keys an entry claims: its index key and those of what its node is known to hold. -/
def Claims (held : NodeId → List T) (e : T × NodeId) (q : K) : Prop :=
  key e.1 = q ∨ ∃ x ∈ held e.2, key x = q

namespace BTreeSet

variable [LawfulSkipMap M T K] {s s' : BTreeSet M T} {held held' : NodeId → List T} {n : NodeId}
  {e : T × NodeId} {q : K} {base m : PersistedBTreeMap K T}

/-! ## §1 Claims and copies -/

/-- No key is claimed by two entries. -/
def Apart (s : BTreeSet M T) (held : NodeId → List T) : Prop :=
  ∀ e ∈ s.entries, ∀ e' ∈ s.entries, ∀ q, Claims held e q → Claims held e' q → e = e'

/-- Some entry claims the key. -/
def Claimed (s : BTreeSet M T) (held : NodeId → List T) (q : K) : Prop :=
  ∃ e ∈ s.entries, Claims held e q

/-- An entry of another node than `n` claims the key. -/
def ClaimedElsewhere (s : BTreeSet M T) (held : NodeId → List T) (n : NodeId) (q : K) : Prop :=
  ∃ e ∈ s.entries, e.2 ≠ n ∧ Claims held e q

theorem ClaimedElsewhere.claimed (h : s.ClaimedElsewhere held n q) : s.Claimed held q :=
  h.imp fun _ hq => ⟨hq.1, hq.2.2⟩

/-- The receiver has what every node is known to hold, under its maximum, and no more. -/
def Copies (s : BTreeSet M T) (held : NodeId → List T) (m : PersistedBTreeMap K T) : Prop :=
  ∀ k l, m.nodes k = some l ↔ ∃ e ∈ s.entries, held e.2 = l ∧ maxKey key l = some k

/-- The same without the node `n`. -/
def CopiesOthers (s : BTreeSet M T) (held : NodeId → List T) (n : NodeId)
    (base : PersistedBTreeMap K T) : Prop :=
  ∀ k l, base.nodes k = some l ↔
    ∃ e ∈ s.entries, e.2 ≠ n ∧ held e.2 = l ∧ maxKey key l = some k

omit [LinearOrder K] [LawfulSkipMap M T K] in
theorem claims_of_maxKey {k : K} (h : maxKey key (held e.2) = some k) : Claims held e k :=
  Or.inr (mem_of_maxKey h)

/-- A node has one entry. -/
theorem Apart.entry_eq (h : s.Apart held) (hne : held e.2 ≠ []) {e' : T × NodeId}
    (he : e ∈ s.entries) (he' : e' ∈ s.entries) (hnode : e.2 = e'.2) : e = e' := by
  obtain ⟨x, hx⟩ := List.exists_mem_of_ne_nil _ hne
  exact h e he e' he' (key x) (Or.inr ⟨x, hx, rfl⟩) (Or.inr ⟨x, hnode ▸ hx, rfl⟩)

/-- What one entry claims is claimed nowhere else. -/
theorem Apart.not_elsewhere (h : s.Apart held) (he : e ∈ s.entries) (hq : Claims held e q) :
    ¬ s.ClaimedElsewhere held e.2 q := by
  rintro ⟨e', he', hne, hq'⟩
  exact hne (congrArg Prod.snd (h e' he' e he q hq' hq))

/-- The receiver has nothing of other nodes under a key they do not claim. -/
theorem CopiesOthers.vacant (h : s.CopiesOthers held n base)
    (hq : ¬ s.ClaimedElsewhere held n q) : base.nodes q = none := by
  cases hnode : base.nodes q with
  | none => rfl
  | some l =>
    obtain ⟨e, he, hen, rfl, hmax⟩ := (h q l).mp hnode
    exact absurd ⟨e, he, hen, claims_of_maxKey hmax⟩ hq

/-- **The copy from one of its nodes.** -/
theorem Copies.cut (h : s.Copies held m) (hapart : s.Apart held) (he : e ∈ s.entries) {k : K}
    (hk : maxKey key (held e.2) = some k) :
    ∃ base, s.CopiesOthers held e.2 base ∧ m = base.insert k (held e.2) := by
  have hself : m.nodes k = some (held e.2) := (h k _).mpr ⟨e, he, rfl, hk⟩
  refine ⟨m.remove k, fun k' l => ?_, ?_⟩
  · by_cases hkk : k' = k
    · subst hkk
      refine iff_of_false (by simp [PersistedBTreeMap.remove]) ?_
      rintro ⟨e', he', hne, rfl, hk'⟩
      exact hapart.not_elsewhere he (claims_of_maxKey hk) ⟨e', he', hne, claims_of_maxKey hk'⟩
    · rw [nodes_remove_of_ne hkk, h k' l]
      refine exists_congr fun e' => and_congr_right fun _ => (and_iff_right_of_imp ?_).symm
      rintro ⟨hl, hk'⟩ hnode
      rw [← hl, hnode, hk] at hk'
      exact hkk (Option.some.inj hk').symm
  · exact (insert_remove hself).symm

/-- The copy when nothing of the node is left to tell. -/
theorem Copies.others (h : s.Copies held m) (hn : ∀ e ∈ s.entries, e.2 ≠ n) :
    s.CopiesOthers held n m := fun k l =>
  (h k l).trans (exists_congr fun e => and_congr_right fun he =>
    ⟨fun hl => ⟨hn e he, hl⟩, And.right⟩)

/-! ## §2 One entry gives way -/

/-- The entry of `n` gives way to the entries `fresh`.  They claim what it claimed, and
`added`, a key that nothing claimed. -/
structure Swaps (s s' : BTreeSet M T) (held held' : NodeId → List T) (n : NodeId)
    (added : Option K) (fresh : List (T × NodeId)) : Prop where
  mem : ∀ e, e ∈ s'.entries ↔ e ∈ fresh ∨ e ∈ s.entries ∧ e.2 ≠ n
  kept : ∀ e ∈ s.entries, e.2 ≠ n → held' e.2 = held e.2
  new : ∀ q ∈ added, ¬ s.Claimed held q
  own : ∀ e ∈ fresh, ∀ q, Claims held' e q →
    (∃ o ∈ s.entries, o.2 = n ∧ Claims held o q) ∨ added = some q
  apart : ∀ e ∈ fresh, ∀ e' ∈ fresh, ∀ q, Claims held' e q → Claims held' e' q → e = e'

variable {fresh : List (T × NodeId)} {added : Option K}

theorem Swaps.claims_kept (h : s.Swaps s' held held' n added fresh) (he : e ∈ s.entries)
    (hne : e.2 ≠ n) : Claims held' e q ↔ Claims held e q := by
  rw [Claims, Claims, h.kept e he hne]

theorem Swaps.not_elsewhere (h : s.Swaps s' held held' n added fresh) (hs : s.Apart held)
    (he : e ∈ fresh) (hq : Claims held' e q) : ¬ s.ClaimedElsewhere held n q := by
  rcases h.own e he q hq with ⟨o, ho, rfl, hoq⟩ | hadded
  · exact hs.not_elsewhere ho hoq
  · exact fun helse => h.new q hadded helse.claimed

/-- Only the added key is claimed in addition. -/
theorem Swaps.claimed (h : s.Swaps s' held held' n added fresh) (hq : s'.Claimed held' q) :
    s.Claimed held q ∨ added = some q := by
  obtain ⟨e, he, hq⟩ := hq
  rcases (h.mem e).mp he with hf | ⟨ho, hne⟩
  · exact (h.own e hf q hq).imp_left fun hown => hown.imp fun _ ho => ⟨ho.1, ho.2.2⟩
  · exact Or.inl ⟨e, ho, (h.claims_kept ho hne).mp hq⟩

/-- **The entries stay apart.** -/
theorem Swaps.keeps_apart (h : s.Swaps s' held held' n added fresh) (hs : s.Apart held) :
    s'.Apart held' := by
  intro e he e' he' q hq hq'
  rcases (h.mem e).mp he with hf | ⟨ho, hne⟩ <;> rcases (h.mem e').mp he' with hf' | ⟨ho', hne'⟩
  · exact h.apart e hf e' hf' q hq hq'
  · exact absurd ⟨e', ho', hne', (h.claims_kept ho' hne').mp hq'⟩ (h.not_elsewhere hs hf hq)
  · exact absurd ⟨e, ho, hne, (h.claims_kept ho hne).mp hq⟩ (h.not_elsewhere hs hf' hq')
  · exact hs e ho e' ho' q ((h.claims_kept ho hne).mp hq) ((h.claims_kept ho' hne').mp hq')

/-- The copy with the fresh nodes. -/
def addNodes (held' : NodeId → List T) (top : T × NodeId → K) (fresh : List (T × NodeId))
    (base : PersistedBTreeMap K T) : PersistedBTreeMap K T :=
  fresh.foldr (fun e m => m.insert (top e) (held' e.2)) base

/-- **The copy stays one** when the fresh nodes are added under their maxima. -/
theorem Swaps.copies (h : s.Swaps s' held held' n added fresh) (hs : s.Apart held)
    (hbase : s.CopiesOthers held n base) {top : T × NodeId → K}
    (htop : ∀ e ∈ fresh, maxKey key (held' e.2) = some (top e)) :
    s'.Copies held' (addNodes held' top fresh base) := by
  have hclaims : ∀ e ∈ fresh, Claims held' e (top e) := fun e he => claims_of_maxKey (htop e he)
  have hlookup : ∀ l : List (T × NodeId), l ⊆ fresh → ∀ k items,
      (addNodes held' top l base).nodes k = some items ↔
        (∃ e ∈ l, held' e.2 = items ∧ maxKey key items = some k) ∨ base.nodes k = some items := by
    intro l
    induction l with
    | nil => simp [addNodes]
    | cons e l ih =>
      intro hsub k items
      obtain ⟨he, hl⟩ := List.cons_subset.mp hsub
      have hih := ih hl k items
      simp only [addNodes, List.foldr_cons] at hih ⊢
      by_cases hk : k = top e
      · subst hk
        have hnone := hbase.vacant (h.not_elsewhere hs he (hclaims e he))
        simp only [nodes_insert_self, Option.some.injEq, hnone, reduceCtorEq, or_false]
        refine ⟨fun hitems => ⟨e, List.mem_cons_self, hitems, hitems ▸ htop e he⟩, ?_⟩
        rintro ⟨e', he', rfl, hmax⟩
        -- the maximum is claimed once
        rw [h.apart e he e' (hsub he') _ (hclaims e he) (claims_of_maxKey hmax)]
      · rw [nodes_insert_of_ne hk, hih]
        refine or_congr_left ⟨?_, ?_⟩
        · rintro ⟨e', he', hmax⟩
          exact ⟨e', List.mem_cons_of_mem _ he', hmax⟩
        · rintro ⟨e', he', rfl, hmax⟩
          rcases List.mem_cons.mp he' with rfl | he'
          · rw [htop e' he, Option.some.injEq] at hmax
            exact absurd hmax.symm hk
          · exact ⟨e', he', rfl, hmax⟩
  intro k items
  rw [hlookup fresh (List.Subset.refl _) k items, hbase k items]
  constructor
  · rintro (⟨e, he, hl, hk⟩ | ⟨e, he, hne, hl, hk⟩)
    · exact ⟨e, (h.mem e).mpr (Or.inl he), hl, hk⟩
    · exact ⟨e, (h.mem e).mpr (Or.inr ⟨he, hne⟩), (h.kept e he hne).trans hl, hk⟩
  · rintro ⟨e, he, hl, hk⟩
    rcases (h.mem e).mp he with hf | ⟨ho, hne⟩
    · exact Or.inl ⟨e, hf, hl, hk⟩
    · exact Or.inr ⟨e, ho, hne, (h.kept e ho hne).symm.trans hl, hk⟩

end BTreeSet

end IndexSet.Concurrent
