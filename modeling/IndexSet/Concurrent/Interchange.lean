import IndexSet.Concurrent.Sequential
import IndexSet.SingleThreaded.Map
import Mathlib.Data.Prod.Basic

/-!
# One Interface, Two Implementations

The calls that the single-threaded and the concurrent set have in common, and those of the two
maps, one after another on each.

The two keep different ones of equal keys: the single-threaded map writes the value beside the key
it holds and the single-threaded set leaves its element, where the concurrent ones store what
they are given.  Up to that they answer the same and hold the same.

- §1 the calls on the single-threaded side;
- §2 what is left of an answer when equal keys are not told apart;
- §3 one call on each side;
- §4 whole runs.
-/

namespace IndexSet

open KeyedList Concurrent

variable {T Q V F K M : Type} [LinearOrder K]

/-! ## §1 The calls -/

section Code

variable [FenwickTree F]

/-- The call on the single-threaded set; `put` is `replace` there, and `remove` is `take`. -/
def BTreeSet.exec [Keyed T K] (s : BTreeSet T F) :
    Op T K → Option (BTreeSet T F × Concurrent.Answer T)
  | .insert v => (s.insert v).map fun r => (r.1, .flag r.2)
  | .put v => (s.replace v).map fun r => (r.1, .element r.2)
  | .remove q => (s.take q).map fun r => (r.1, .element r.2)
  | .contains q => (s.contains q).map fun b => (s, .flag b)
  | .get q => (s.get q).map fun x => (s, .element x)
  | .len => some (s, .size s.len)

/-- The call on the single-threaded map; `remove` is `remove_entry` there, and `get` is
`get_key_value`. -/
def BTreeMap.exec [Keyed Q K] (m : BTreeMap Q V F) :
    MapOp Q V K → Option (BTreeMap Q V F × MapAnswer Q V)
  | .insert k v => (m.insert k v).map fun r => (r.1, .value r.2)
  | .remove k => (m.removeEntry k).map fun r => (r.1, .removed r.2)
  | .containsKey k => (m.containsKey k).map fun b => (m, .flag b)
  | .get k => (m.getKeyValue k).map fun entry =>
      (m, .pair (entry.map fun entry => ⟨entry.1, entry.2⟩))
  | .len => some (m, .size m.set.len)

end Code

/-! ## §2 Equal keys -/

section Forget

variable [Keyed T K] [Keyed Q K]

/-- A pair, its key whichever of the equal ones. -/
def Pair.forget (p : Pair Q V) : Pair K V := ⟨Keyed.key p, p.value⟩

/-- An answer of the set, its element whichever of the equal ones. -/
def Concurrent.Answer.forget : Answer T → Answer K
  | .flag b => .flag b
  | .element x => .element (x.map key)
  | .size n => .size n

/-- An answer of the map, its key whichever of the equal ones. -/
def Concurrent.MapAnswer.forget : MapAnswer Q V → MapAnswer K V
  | .flag b => .flag b
  | .value v => .value v
  | .removed entry => .removed (entry.map (Prod.map key id))
  | .pair p => .pair (p.map Pair.forget)
  | .size n => .size n

omit [LinearOrder K] in
theorem Pair.forget_injective (h : Function.Injective (Keyed.key : Q → K)) :
    Function.Injective (Pair.forget : Pair Q V → Pair K V) := by
  intro p p' heq
  obtain ⟨hkey, hvalue⟩ := Pair.mk.inj heq
  cases p
  cases p'
  exact congrArg₂ Pair.mk (h hkey) hvalue

omit [LinearOrder K] in
theorem Concurrent.Answer.forget_injective (h : Function.Injective (key : T → K)) :
    Function.Injective (Answer.forget : Answer T → Answer K) := by
  rintro (b | x | n) (b' | x' | n') heq <;> simp only [forget, reduceCtorEq] at heq
  · exact congrArg Answer.flag (Answer.flag.inj heq)
  · exact congrArg Answer.element (Option.map_injective h (Answer.element.inj heq))
  · exact congrArg Answer.size (Answer.size.inj heq)

omit [LinearOrder K] in
theorem Concurrent.MapAnswer.forget_injective (h : Function.Injective (key : Q → K)) :
    Function.Injective (MapAnswer.forget : MapAnswer Q V → MapAnswer K V) := by
  rintro (b | v | x | x | n) (b' | v' | x' | x' | n') heq <;>
    simp only [forget, reduceCtorEq] at heq
  · exact congrArg MapAnswer.flag (MapAnswer.flag.inj heq)
  · exact congrArg MapAnswer.value (MapAnswer.value.inj heq)
  · exact congrArg MapAnswer.removed
      (Option.map_injective (Function.Injective.prodMap h Function.injective_id)
        (MapAnswer.removed.inj heq))
  · exact congrArg MapAnswer.pair
      (Option.map_injective (Pair.forget_injective h) (MapAnswer.pair.inj heq))
  · exact congrArg MapAnswer.size (MapAnswer.size.inj heq)

end Forget

/-! ## §3 One call -/

section OneCall

variable [LawfulFenwickTree F]

/-- The elements are the same up to which of the equal ones is kept. -/
structure BTreeSet.Matches [Keyed T K] [LawfulSkipMap M T K] (s : BTreeSet T F)
    (s' : Concurrent.BTreeSet M T) : Prop where
  valid : s.Valid
  capacity : 2 ≤ s.nodeCapacity
  settled : s'.Settled
  allocates : s'.Allocates
  keys : s.toList.map key = s'.elements.map key

/-- The entries are the same up to which of the equal keys is kept. -/
structure BTreeMap.Matches [Keyed Q K] [LawfulSkipMap M (Pair Q V) K] (m : BTreeMap Q V F)
    (m' : Concurrent.BTreeMap M Q V) : Prop where
  valid : m.Valid
  capacity : 2 ≤ m.set.nodeCapacity
  settled : m'.set.Settled
  allocates : m'.set.Allocates
  entries : m.toList.map Pair.forget = m'.set.elements.map Pair.forget

/-- Lists with the same keys answer the same, up to the element found. -/
theorem find_congr_map {α β κ : Type} [LinearOrder κ] {k : α → κ} {k' : β → κ} {f : α → β}
    (hf : ∀ x, k' (f x) = k x) {l l' : List α} (h : l.map f = l'.map f) (q : κ) :
    (find k q l).map f = (find k q l').map f := by
  rw [← find_map_of_key hf, ← find_map_of_key hf, h]

theorem isSome_congr_map {α β : Type} {f : α → β} {o o' : Option α} (h : o.map f = o'.map f) :
    o.isSome = o'.isSome := by
  rw [← Option.isSome_map (f := f), h, Option.isSome_map]

theorem put_congr_map {α β κ : Type} [LinearOrder κ] {k : α → κ} {k' : β → κ} {f : α → β}
    (hf : ∀ x, k' (f x) = k x) {l l' : List α} (h : l.map f = l'.map f) {v v' : α}
    (hv : f v = f v') : (put k v l).map f = (put k v' l').map f := by
  rw [← put_map_of_key hf, ← put_map_of_key hf, h, hv]

theorem erase_congr_map {α β κ : Type} [LinearOrder κ] {k : α → κ} {k' : β → κ} {f : α → β}
    (hf : ∀ x, k' (f x) = k x) {l l' : List α} (h : l.map f = l'.map f) (q : κ) :
    (erase k q l).map f = (erase k q l').map f := by
  rw [← erase_map_of_key hf, ← erase_map_of_key hf, h]

/-- Leaving an equal element or taking its place makes no difference to the keys. -/
theorem add_keys_eq_put_keys {α κ : Type} [LinearOrder κ] {k : α → κ} {l : List α}
    (h : Ascending k l) (v : α) : (add k v l).map k = (put k v l).map k := by
  cases hfind : find k (k v) l with
  | none => simp [add, hfind]
  | some x =>
    have hx := (find_eq_some h).mp hfind
    rw [add, hfind, map_put_of_find h hfind hx.2.symm]
    rfl

/-- **One call on both sets**, `get` apart. -/
theorem BTreeSet.Matches.exec [Keyed T K] [LawfulSkipMap M T K] {s : BTreeSet T F}
    {s' : Concurrent.BTreeSet M T} (h : s.Matches s') (fuel : ℕ) (op : Op T K)
    (hop : ∀ q, op ≠ .get q) :
    ∃ s₁ answer s₁' answer', s.exec op = some (s₁, answer) ∧
      op.exec (fuel + 1) s' = some (s₁', answer') ∧ answer.forget = answer'.forget ∧
      s₁.Matches s₁' := by
  have hkey : ∀ x : T, id (key x) = key x := fun _ => rfl
  have hasc : Ascending key s.toList := h.valid.layout.ascending
  have hfind : ∀ q, (find key q s.toList).map key = (find key q s'.elements).map key :=
    find_congr_map hkey h.keys
  obtain ⟨s₁', hexec, hsettled, hbuild, helements⟩ := h.settled.exec fuel op fun _ => h.allocates
  have hfits := hbuild.allocates h.allocates
  cases op with
  | insert v =>
    obtain ⟨s₁, hinsert, hvalid, hcap, hlist⟩ := BTreeSet.insert_spec h.valid h.capacity v
    refine ⟨s₁, _, s₁', _, by rw [BTreeSet.exec, hinsert, Option.map_some], hexec, ?_, hvalid,
      hcap ▸ h.capacity, hsettled, hfits, ?_⟩
    · simp only [Answer.forget, Op.reference, ← Option.not_isSome, isSome_congr_map (hfind _)]
    · rw [hlist, helements, add_keys_eq_put_keys hasc]
      exact put_congr_map hkey h.keys rfl
  | put v =>
    obtain ⟨s₁, hreplace, hvalid, hcap, hlist⟩ := BTreeSet.replace_spec h.valid h.capacity v
    refine ⟨s₁, _, s₁', _, by rw [BTreeSet.exec, hreplace, Option.map_some], hexec, ?_, hvalid,
      hcap ▸ h.capacity, hsettled, hfits, ?_⟩
    · exact congrArg Answer.element (hfind _)
    · rw [hlist, helements]
      exact put_congr_map hkey h.keys rfl
  | remove q =>
    obtain ⟨s₁, htake, hvalid, hcap, hlist⟩ := BTreeSet.take_spec h.valid q
    refine ⟨s₁, _, s₁', _, by rw [BTreeSet.exec, htake, Option.map_some], hexec, ?_, hvalid,
      hcap ▸ h.capacity, hsettled, hfits, ?_⟩
    · exact congrArg Answer.element (hfind _)
    · rw [hlist, helements]
      exact erase_congr_map hkey h.keys q
  | contains q =>
    refine ⟨s, _, s₁', _, by rw [BTreeSet.exec, BTreeSet.contains_spec h.valid, Option.map_some],
      hexec, ?_, h.valid, h.capacity, hsettled, hfits, ?_⟩
    · exact congrArg Answer.flag (isSome_congr_map (hfind q))
    · rw [helements]
      exact h.keys
  | get q => exact absurd rfl (hop q)
  | len =>
    refine ⟨s, _, s₁', _, rfl, hexec, ?_, h.valid, h.capacity, hsettled, hfits, ?_⟩
    · have hlength := congrArg List.length h.keys
      rw [List.length_map, List.length_map, ← h.valid.len_eq] at hlength
      exact congrArg Answer.size hlength
    · rw [helements]
      exact h.keys

/-- **One call on both maps.** -/
theorem BTreeMap.Matches.exec [Keyed Q K] [LawfulSkipMap M (Pair Q V) K] {m : BTreeMap Q V F}
    {m' : Concurrent.BTreeMap M Q V} (h : m.Matches m') (fuel : ℕ) (op : MapOp Q V K) :
    ∃ m₁ answer m₁' answer', m.exec op = some (m₁, answer) ∧
      op.exec (fuel + 1) m' = some (m₁', answer') ∧ answer.forget = answer'.forget ∧
      m₁.Matches m₁' := by
  have hkey : ∀ p : Pair Q V, (Pair.forget p).key = key p := fun _ => rfl
  have hfind : ∀ q, (find key q m.toList).map Pair.forget =
      (find key q m'.set.elements).map Pair.forget := find_congr_map hkey h.entries
  have hget : ∀ (q : K) {β : Type} (g : Pair K V → β),
      (find key q m.toList).map (g ∘ Pair.forget) =
        (find key q m'.set.elements).map (g ∘ Pair.forget) := by
    intro q β g
    rw [← Option.map_map, ← Option.map_map, hfind]
  obtain ⟨m₁', hexec, hsettled, hbuild, helements⟩ :=
    Concurrent.BTreeMap.exec_settled h.settled fuel op fun _ => h.allocates
  have hfits := hbuild.allocates h.allocates
  cases op with
  | insert k v =>
    obtain ⟨m₁, hinsert, hvalid, hcap, hlist⟩ := BTreeMap.insert_spec h.valid h.capacity k v
    refine ⟨m₁, _, m₁', _, by rw [BTreeMap.exec, hinsert, Option.map_some], hexec, ?_, hvalid,
      hcap ▸ h.capacity, hsettled, hfits, ?_⟩
    · exact congrArg MapAnswer.value (hget (key k) Pair.value)
    · -- the key kept and the key stored are equal
      rw [hlist, helements]
      refine put_congr_map hkey h.entries ?_
      cases hstored : find key (key k) m.toList with
      | none => rfl
      | some p =>
        have hkeys := ((find_eq_some h.valid.layout.ascending).mp hstored).2
        exact congrArg (Pair.mk · v) hkeys
  | remove k =>
    obtain ⟨m₁, hremove, hvalid, hcap, hlist⟩ := BTreeMap.removeEntry_spec h.valid k
    refine ⟨m₁, _, m₁', _, by rw [BTreeMap.exec, hremove, Option.map_some], hexec, ?_, hvalid,
      hcap ▸ h.capacity, hsettled, hfits, ?_⟩
    · simpa [MapAnswer.forget, MapOp.reference, Function.comp_def, Prod.map, Pair.forget,
        Pair.key_eq] using hget k fun p => (p.key, p.value)
    · rw [hlist, helements]
      exact erase_congr_map hkey h.entries k
  | containsKey k =>
    have hcontains : m.containsKey k = some (find key k m.toList).isSome := by
      rw [BTreeMap.containsKey, Pair.cmp_eq, Pair.cmp2_eq]
      exact BTreeSet.containsCmp_spec h.valid k
    refine ⟨m, _, m₁', _, by rw [BTreeMap.exec, hcontains, Option.map_some], hexec, ?_, h.valid,
      h.capacity, hsettled, hfits, ?_⟩
    · exact congrArg MapAnswer.flag (isSome_congr_map (hfind k))
    · rw [helements]
      exact h.entries
  | get k =>
    refine ⟨m, _, m₁', _, by rw [BTreeMap.exec, BTreeMap.getKeyValue_spec h.valid, Option.map_some],
      hexec, ?_, h.valid, h.capacity, hsettled, hfits, ?_⟩
    · simpa [MapAnswer.forget, MapOp.reference, Function.comp_def] using hfind k
    · rw [helements]
      exact h.entries
  | len =>
    refine ⟨m, _, m₁', _, rfl, hexec, ?_, h.valid, h.capacity, hsettled, hfits, ?_⟩
    · have hlength := congrArg List.length h.entries
      rw [List.length_map, List.length_map, BTreeMap.toList, ← BTreeSet.Valid.len_eq h.valid]
        at hlength
      exact congrArg MapAnswer.size hlength
    · rw [helements]
      exact h.entries

end OneCall

/-! ## §4 Whole runs -/

/-- Two systems that answer every call the same, up to what `forget` forgets, answer any calls
one after another the same. -/
theorem execAll_agree {σ τ α β γ : Type} {exec : σ → α → Option (σ × β)}
    {exec' : τ → α → Option (τ × β)} {forget : β → γ} {R : σ → τ → Prop} {P : α → Prop}
    (hstep : ∀ s t op, P op → R s t → ∃ s' answer t' answer', exec s op = some (s', answer) ∧
      exec' t op = some (t', answer') ∧ forget answer = forget answer' ∧ R s' t')
    (s : σ) (t : τ) (h : R s t) (ops : List α) (hops : ∀ op ∈ ops, P op) :
    ∃ s' answers t' answers', execAll exec s ops = some (s', answers) ∧
      execAll exec' t ops = some (t', answers') ∧
      answers.map forget = answers'.map forget ∧ R s' t' := by
  induction ops generalizing s t with
  | nil => exact ⟨s, [], t, [], rfl, rfl, rfl, h⟩
  | cons op ops ih =>
    obtain ⟨s₁, answer, t₁, answer', hexec, hexec', hanswer, h₁⟩ :=
      hstep s t op (hops op (by simp)) h
    obtain ⟨s', answers, t', answers', hrest, hrest', hanswers, h'⟩ :=
      ih s₁ t₁ h₁ fun op hop => hops op (by simp [hop])
    exact ⟨s', answer :: answers, t', answer' :: answers', by simp [execAll, hexec, hrest],
      by simp [execAll, hexec', hrest'], by simp [hanswer, hanswers], h'⟩

/-- **The two implementations agree**: for every maximum node size of the concurrent one at which a
node can be allocated and every one from two on of the single-threaded one, any calls one after
another on an empty set (`get` apart) or an empty map are answered the same by both and leave the
same behind, up to which of two equal keys is kept; exactly the same, if equal keys are
identical. -/
theorem implementations_agree {N : Type} [Keyed T K] [Keyed Q K] [LawfulFenwickTree F]
    [LawfulSkipMap M T K] [LawfulSkipMap N (Pair Q V) K] (maximumNodeSize : ℕ)
    (h : 2 ≤ maximumNodeSize) (cdc : Bool) {elementSize nodeCapacity : ℕ}
    (hfits : nodeCapacity * elementSize ≤ Node.isizeMax) (fuel : ℕ) :
    (∀ ops : List (Op T K), (∀ q, .get q ∉ ops) →
      ∃ (s : BTreeSet T F) (answers : List (Answer T)) (s' : Concurrent.BTreeSet M T)
        (answers' : List (Answer T)),
        execAll BTreeSet.exec (BTreeSet.withMaximumNodeSize maximumNodeSize) ops =
            some (s, answers) ∧
          execAll (Op.exec (fuel + 1))
            (Concurrent.BTreeSet.withMaximumNodeSize cdc elementSize nodeCapacity) ops =
              some (s', answers') ∧
          answers.map Answer.forget = answers'.map Answer.forget ∧
          s.toList.map key = s'.elements.map key ∧
          (Function.Injective (key : T → K) → answers = answers' ∧ s.toList = s'.elements)) ∧
    ∀ ops : List (MapOp Q V K),
      ∃ (m : BTreeMap Q V F) (answers : List (MapAnswer Q V)) (m' : Concurrent.BTreeMap N Q V)
        (answers' : List (MapAnswer Q V)),
        execAll BTreeMap.exec (BTreeMap.withMaximumNodeSize maximumNodeSize) ops =
            some (m, answers) ∧
          execAll (MapOp.exec (fuel + 1))
            (Concurrent.BTreeMap.withMaximumNodeSize cdc elementSize nodeCapacity) ops =
              some (m', answers') ∧
          answers.map MapAnswer.forget = answers'.map MapAnswer.forget ∧
          m.toList.map Pair.forget = m'.set.elements.map Pair.forget ∧
          (Function.Injective (key : Q → K) → answers = answers' ∧
            m.toList = m'.set.elements) := by
  constructor
  · intro ops hops
    obtain ⟨hset, hempty⟩ :=
      Concurrent.BTreeSet.withMaximumNodeSize_settled (M := M) (T := T) cdc elementSize nodeCapacity
    have hstart : (BTreeSet.withMaximumNodeSize maximumNodeSize : BTreeSet T F).Matches
        (Concurrent.BTreeSet.withMaximumNodeSize cdc elementSize nodeCapacity :
          Concurrent.BTreeSet M T) :=
      ⟨BTreeSet.withMaximumNodeSize_valid _, h, hset, hfits, by rw [hempty]; rfl⟩
    obtain ⟨s, answers, s', answers', hexec, hexec', hanswers, hs⟩ := execAll_agree
      (R := fun (s : BTreeSet T F) (s' : Concurrent.BTreeSet M T) => s.Matches s')
      (P := fun op : Op T K => ∀ q, op ≠ .get q)
      (fun _ _ op hop hmatches => BTreeSet.Matches.exec hmatches fuel op hop) _ _ hstart ops
      (fun op hop q heq => hops q (heq ▸ hop))
    refine ⟨s, answers, s', answers', hexec, hexec', hanswers, hs.keys, fun hinj => ⟨?_, ?_⟩⟩
    · exact List.map_injective_iff.mpr (Answer.forget_injective hinj) hanswers
    · exact List.map_injective_iff.mpr hinj hs.keys
  · intro ops
    obtain ⟨hset, hempty⟩ := Concurrent.BTreeSet.withMaximumNodeSize_settled (M := N)
      (T := Pair Q V) cdc elementSize nodeCapacity
    have hstart : (BTreeMap.withMaximumNodeSize maximumNodeSize : BTreeMap Q V F).Matches
        (Concurrent.BTreeMap.withMaximumNodeSize cdc elementSize nodeCapacity :
          Concurrent.BTreeMap N Q V) :=
      ⟨BTreeSet.withMaximumNodeSize_valid _, h, hset, hfits,
        (congrArg (List.map Pair.forget) hempty).symm⟩
    obtain ⟨m, answers, m', answers', hexec, hexec', hanswers, hm⟩ := execAll_agree
      (R := fun (m : BTreeMap Q V F) (m' : Concurrent.BTreeMap N Q V) => m.Matches m')
      (P := fun _ => True)
      (fun _ _ op _ hmatches => BTreeMap.Matches.exec hmatches fuel op) _ _ hstart ops
      (fun _ _ => trivial)
    refine ⟨m, answers, m', answers', hexec, hexec', hanswers, hm.entries, fun hinj => ⟨?_, ?_⟩⟩
    · exact List.map_injective_iff.mpr (MapAnswer.forget_injective hinj) hanswers
    · exact List.map_injective_iff.mpr (Pair.forget_injective hinj) hm.entries

theorem implementations_agree_smallNodes :
    (∃ (s : BTreeSet ℕ CountList) (s' : Concurrent.BTreeSet (SortedIndex ℕ) ℕ)
      (answers : List (Answer ℕ)),
      execAll BTreeSet.exec (BTreeSet.withMaximumNodeSize 2)
          [.insert 2, .insert 1, .put 2, .insert 3, .remove 1, .contains 1, .len] =
          some (s, answers) ∧
        execAll (Op.exec 1) (Concurrent.BTreeSet.withMaximumNodeSize true 8 4)
          [.insert 2, .insert 1, .put 2, .insert 3, .remove 1, .contains 1, .len] =
          some (s', answers)) ∧
    ∃ (m : BTreeMap ℕ ℕ CountList) (m' : Concurrent.BTreeMap (SortedIndex (Pair ℕ ℕ)) ℕ ℕ)
      (answers : List (MapAnswer ℕ ℕ)),
      execAll BTreeMap.exec (BTreeMap.withMaximumNodeSize 2)
          [.insert 2 5, .insert 1 7, .insert 2 6, .remove 1, .get 2, .len] = some (m, answers) ∧
        execAll (MapOp.exec 1) (Concurrent.BTreeMap.withMaximumNodeSize true 16 4)
          [.insert 2 5, .insert 1 7, .insert 2 6, .remove 1, .get 2, .len] =
          some (m', answers) := by
  obtain ⟨hset, -⟩ := implementations_agree (T := ℕ) (Q := ℕ) (V := ℕ) (F := CountList)
    (M := SortedIndex ℕ) (N := SortedIndex (Pair ℕ ℕ)) 2 (by decide) true
    (by decide : 4 * 8 ≤ _) 0
  obtain ⟨-, hmap⟩ := implementations_agree (T := ℕ) (Q := ℕ) (V := ℕ) (F := CountList)
    (M := SortedIndex ℕ) (N := SortedIndex (Pair ℕ ℕ)) 2 (by decide) true
    (by decide : 4 * 16 ≤ _) 0
  obtain ⟨s, answers, s', _, hexec, hexec', -, -, hsame⟩ :=
    hset [.insert 2, .insert 1, .put 2, .insert 3, .remove 1, .contains 1, .len] (by simp)
  obtain ⟨m, replies, m', _, hexecm, hexecm', -, -, hsamem⟩ :=
    hmap [.insert 2 5, .insert 1 7, .insert 2 6, .remove 1, .get 2, .len]
  obtain ⟨rfl, -⟩ := hsame Function.injective_id
  obtain ⟨rfl, -⟩ := hsamem Function.injective_id
  exact ⟨⟨s, s', answers, hexec, hexec'⟩, m, m', replies, hexecm, hexecm'⟩

end IndexSet
