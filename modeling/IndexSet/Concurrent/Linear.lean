import IndexSet.Concurrent.Turns

/-!
# When a Call Takes Effect

Seen from the elements of the set, a call waits, takes effect in one step, and then at most
has an index entry left to repair.  `Linear` says so for one step; it holds as long as the
tree stays coherent, which takes two conditions on the steps:

- `FirstOnEmpty`: a thread inserts a first node only while the index is still empty;
- `SplitFits`: a split finds its node non-empty, and its value between the neighbours.

A third one keeps the elements of a node that is taken out of the index:

- `DropsEmpty`: a `MakeUnreachable` that goes through finds its node empty.

The code does not ensure the three; each is a condition on the state before a step.
-/

namespace IndexSet.Concurrent

open KeyedList

variable {ι M T K : Type} [LinearOrder K] [Keyed T K] [LawfulSkipMap M T K]

/-! ## §1 Conditions on steps -/

namespace BTreeSet

/-- Next to the entry registered under `m`, the value stays between the neighbours. -/
def Fits (s : BTreeSet M T) (m v : T) : Prop :=
  ∀ c ∈ s.view, (key c.bound < key m → key c.bound < key v) ∧
    (key m < key c.bound → key v < key c.bound ∧ ∀ x ∈ c.items, key v < key x)

instance (s : BTreeSet M T) (m v : T) : Decidable (s.Fits m v) :=
  inferInstanceAs (Decidable (∀ c ∈ s.view, _ ∧ _))

theorem Fits.admissible {s : BTreeSet M T} {m v : T} (h : s.Fits m v)
    {a b : List (T × NodeId)} {e : T × NodeId} (hcut : s.entries = a ++ e :: b)
    (hkey : key e.1 = key m) : Admissible key (a.map s.cell) (b.map s.cell) (key v) := by
  have hasc := s.entries_ascending
  rw [hcut] at hasc
  have ⟨_, _, ha, hb⟩ := ascending_append_cons.mp hasc
  have hview := view_cut hcut
  constructor
  · intro c hc
    obtain ⟨p, hp, rfl⟩ := List.mem_map.mp hc
    exact (h (s.cell p) (by rw [hview]; exact List.mem_append_left _ hc)).1 (hkey ▸ ha p hp)
  · intro c hc
    obtain ⟨p, hp, rfl⟩ := List.mem_map.mp hc
    refine (h (s.cell p) ?_).2 (hkey ▸ hb p hp)
    rw [hview]
    exact List.mem_append_right _ (List.mem_cons_of_mem _ hc)

end BTreeSet

/-- The phase before the index insertion of a first node. -/
def Phase.first : Phase T → Bool
  | .insertFirst => true
  | _ => false

/-- The node, the key and the value of a split that waits for its commit. -/
def Phase.split : Phase T → Option (NodeId × T × T)
  | .commit (.split n m v) _ _ => some (n, m, v)
  | _ => none

/-- The node and the key of a rekeying that waits for its commit. -/
def Phase.rekey : Phase T → Option (NodeId × T)
  | .commit (.updateMax n m) _ _ => some (n, m)
  | _ => none

/-- The node and the key of a removal from the index that waits for its commit. -/
def Phase.drop : Phase T → Option (NodeId × T)
  | .commit (.makeUnreachable n m) _ _ => some (n, m)
  | _ => none

namespace State

/-- The call and the phase a label continues. -/
def active (s : State ι M T K) : Label ι T K → Option (Call T K × Phase T)
  | .call _ _ => none
  | .turn t =>
    match s.threads t with
    | .running call phase => some (call, phase)
    | _ => none

variable (s : State ι M T K) (l : Label ι T K)

/-- A first node goes into an empty index. -/
def FirstOnEmpty : Prop := ∀ p ∈ s.active l, p.2.first → s.shared.entries = []

/-- A split that goes through finds a node that is not empty, and a value that fits in. -/
def SplitFits : Prop :=
  ∀ p ∈ s.active l, ∀ op ∈ p.2.split, s.shared.Registered op.1 (key op.2.1) →
    s.shared.nodes op.1 ≠ [] ∧ s.shared.Fits op.2.1 op.2.2

/-- A node that leaves the index is empty. -/
def DropsEmpty : Prop :=
  ∀ p ∈ s.active l, ∀ op ∈ p.2.drop, s.shared.Registered op.1 (key op.2) →
    ∀ k ∈ maxKey key (s.shared.nodes op.1), key op.2 ≤ k

instance : Decidable (s.FirstOnEmpty l) :=
  inferInstanceAs (Decidable (∀ p ∈ s.active l, _ → _))

instance : Decidable (s.SplitFits l) :=
  inferInstanceAs (Decidable (∀ p ∈ s.active l, ∀ op ∈ p.2.split, _ → _ ∧ _))

instance : Decidable (s.DropsEmpty l) :=
  inferInstanceAs (Decidable (∀ p ∈ s.active l, ∀ op ∈ p.2.drop, _ → ∀ k ∈ _, _))

/-- The conditions that keep the tree coherent, and inserts from losing elements. -/
def CarefulInserts : Prop := s.FirstOnEmpty l ∧ s.SplitFits l

instance : Decidable (s.CarefulInserts l) := inferInstanceAs (Decidable (_ ∧ _))

end State

/-! ## §2 Taking effect -/

/-- The lookup a call starts with. -/
def Call.route (s : BTreeSet M T) : Call T K → Option (T × NodeId)
  | .insert _ v => s.lookupPut (key v)
  | .remove q => s.lookupRemove q
  | _ => none

/-- The call has taken effect, and an index entry is left to repair. -/
def Phase.applied : Phase T → Bool
  | .commit (.updateMax _ _) _ _ => true
  | .commit (.makeUnreachable _ _) _ _ => true
  | _ => false

/-- The element a remove waits to return. -/
def Phase.deleted : Phase T → Option T
  | .commit _ d _ => d
  | _ => none

/-- The effect of a call: the elements after it, and what it returns.  A remove whose lookup
finds no index key misses an element in the last node. -/
inductive Effect (s : BTreeSet M T) : Call T K → List T → Ret T → Prop
  | put {c : Bool} {v : T} :
      Effect s (.insert c v) (put key v s.elements) (.put (find key (key v) s.elements))
  | refused {v : T} : find key (key v) s.elements ≠ none →
      Effect s (.insert true v) s.elements .refused
  | removed {q : K} :
      Effect s (.remove q) (erase key q s.elements) (.removed (find key q s.elements))
  | missed {q : K} : s.lookupRemove q = none →
      Effect s (.remove q) s.elements (.removed none)
  | read {call : Call T K} {q : K} {ret : Ret T} : call = .contains q ∨ call = .get q →
      Effect s call s.elements ret

/-- Only a remove of its own key takes a key out. -/
theorem Effect.keeps {s : BTreeSet M T} {call : Call T K} {l : List T} {ret : Ret T} {q : K}
    (h : Effect s call l ret) (hcall : call ≠ .remove q)
    (hq : (find key q s.elements).isSome) : (find key q l).isSome := by
  cases h with
  | put => exact find_put_isSome.mpr (Or.inr hq)
  | refused => exact hq
  | @removed p => exact find_erase_isSome.mpr ⟨fun hqp => hcall (hqp ▸ rfl), hq⟩
  | missed => exact hq
  | read => exact hq

/-- An insert leaves its key in the set. -/
theorem Effect.stores {s : BTreeSet M T} {c : Bool} {v : T} {l : List T} {ret : Ret T}
    (h : Effect s (.insert c v) l ret) : (find key (key v) l).isSome := by
  cases h with
  | put => exact find_put_isSome.mpr (Or.inl rfl)
  | refused hne => exact Option.isSome_iff_ne_none.mpr hne
  | read hread => rcases hread with h | h <;> cases h

/-- One step of a call, on the elements. -/
inductive Linear (s : BTreeSet M T) (call : Call T K) : Phase T → List T → Next T → Prop
  /-- The call waits. -/
  | wait {ph ph' : Phase T} : ph.applied = false → ph'.applied = false →
      Linear s call ph s.elements (.goto ph')
  /-- It takes effect and returns. -/
  | act {ph : Phase T} {l : List T} {ret : Ret T} {cdc : List (ChangeEvent T)} :
      ph.applied = false → Effect s call l ret → Linear s call ph l (.done ret cdc)
  /-- It takes effect, with an entry to repair. -/
  | defer {ph ph' : Phase T} {l : List T} : ph.applied = false → ph'.applied = true →
      Effect s call l (call.answer ph'.deleted) → Linear s call ph l (.goto ph')
  /-- It has taken effect, and returns. -/
  | finish {ph : Phase T} {cdc : List (ChangeEvent T)} : ph.applied = true →
      Linear s call ph s.elements (.done (call.answer ph.deleted) cdc)
  /-- It panics, with nothing done: the first node cannot be allocated. -/
  | panic {ph : Phase T} : ph.applied = false → ¬ s.Allocates →
      Linear s call ph s.elements .panic

section Steps

variable {s s' : BTreeSet M T} {events : List (ChangeEvent T)}

/-- An element added to the node its lookup leads to, where no equal one is. -/
theorem BTreeSet.Wrote.stored {e : T × NodeId} {v : T} {a b : List T} (hs : s.Coherent)
    (hsorted : s.Sorted) (he : s.lookupPut (key v) = some e) (hl : s.nodes e.2 = a ++ b)
    (ha : Below key a (key v)) (hb : Above key (key v) b) (h : s.Wrote e.2 (a ++ v :: b) s') :
    s'.Coherent ∧ s'.Sorted ∧ s'.elements = put key v s.elements ∧
      find key (key v) s.elements = none := by
  have hput : a ++ v :: b = put key v (s.nodes e.2) := by rw [hl, put_gap ha hb]
  have hasc := put_ascending (v := v) (hsorted e.2)
  rw [← hput] at hasc
  have ⟨hcoh, helems⟩ := (hput ▸ h).coherent_put hs he
  refine ⟨hcoh, h.sorted hsorted hasc, helems, ?_⟩
  rw [hs.find_elements he, hl, find_gap ha hb]

/-- An element written over the equal one. -/
theorem BTreeSet.Wrote.overwritten {e : T × NodeId} {v x : T} {a b : List T} (hs : s.Coherent)
    (hsorted : s.Sorted) (he : s.lookupPut (key v) = some e) (hl : s.nodes e.2 = a ++ x :: b)
    (hx : key x = key v) (ha : Below key a (key v)) (hb : Above key (key v) b)
    (h : s.Wrote e.2 (a ++ v :: b) s') :
    s'.Coherent ∧ s'.Sorted ∧ s'.elements = put key v s.elements ∧
      find key (key v) s.elements = some x := by
  have hput : a ++ v :: b = put key v (s.nodes e.2) := by rw [hl, put_hit hx ha hb]
  have hasc := put_ascending (v := v) (hsorted e.2)
  rw [← hput] at hasc
  have ⟨hcoh, helems⟩ := (hput ▸ h).coherent_put hs he
  refine ⟨hcoh, h.sorted hsorted hasc, helems, ?_⟩
  rw [hs.find_elements he, hl, find_hit hx ha]

/-- An element taken out of the node its lookup leads to. -/
theorem BTreeSet.Wrote.taken {e : T × NodeId} {x : T} {a b : List T} (hs : s.Coherent)
    (hsorted : s.Sorted) (he : s.lookupPut (key x) = some e) (hl : s.nodes e.2 = a ++ x :: b)
    (h : s.Wrote e.2 (a ++ b) s') :
    s'.Coherent ∧ s'.Sorted ∧ s'.elements = erase key (key x) s.elements ∧
      find key (key x) s.elements = some x := by
  have hasc := hsorted e.2
  rw [hl] at hasc
  have ⟨_, _, ha, hb⟩ := ascending_append_cons.mp hasc
  have herase : a ++ b = erase key (key x) (s.nodes e.2) := by rw [hl, erase_hit rfl ha hb]
  have ⟨hcoh, helems⟩ := (herase ▸ h).coherent_erase hs he
  refine ⟨hcoh, h.sorted hsorted (herase ▸ erase_ascending (hsorted e.2)), helems, ?_⟩
  rw [hs.find_elements he, hl, find_hit rfl ha]

/-- A split that goes through. -/
theorem BTreeSet.Coherent.splitCommit {n : NodeId} {m v : T} (hs : s.Coherent)
    (hsorted : s.Sorted) (hreg : s.Registered n (key m)) (hne : s.nodes n ≠ [])
    (hfits : s.Fits m v) :
    (s.commitSplit n m v).1.Coherent ∧ (s.commitSplit n m v).1.Sorted ∧
      (s.commitSplit n m v).1.elements = put key v s.elements ∧
      (s.commitSplit n m v).2.1 = find key (key v) s.elements := by
  obtain ⟨e, hmem, rfl, hkey⟩ := hreg
  obtain ⟨a, b, hcut⟩ := List.append_of_mem hmem
  have hadm := hfits.admissible hcut hkey
  obtain ⟨lowerMax, lower, upperMax, upper, hstate, hold, hput, hlower, hupper, -⟩ :=
    commitSplit_spec s e.2 m v (hsorted e.2) hne
  have ⟨hcoh, helems, _⟩ := hs.split hcut rfl hkey (hsorted e.2) hadm hput hlower hupper
  rw [hstate, hold]
  refine ⟨hcoh, splitState_sorted hsorted hput, helems, ?_⟩
  rw [elements, view_cut hcut, (hs.cut hcut).find_contents hadm]
  rfl

/-- Rekeying an entry. -/
theorem BTreeSet.Coherent.rekeyCommit {n : NodeId} {m max : T} (hs : s.Coherent)
    (hsorted : s.Sorted) (hreg : s.Registered n (key m)) (hmax : (s.nodes n).getLast? = some max) :
    (s.rekeyState n m max).Coherent ∧ (s.rekeyState n m max).elements = s.elements := by
  obtain ⟨e, hmem, rfl, hkey⟩ := hreg
  obtain ⟨a, b, hcut⟩ := List.append_of_mem hmem
  have hm : maxKey key (s.nodes e.2) = some (key max) := by simp [maxKey, hmax]
  exact hs.rekey hcut hm (hs.rekeyState_entries hcut hkey (hsorted e.2) hm) rfl rfl

/-- Taking an entry out of the index. -/
theorem BTreeSet.Coherent.dropCommit {n : NodeId} {m : T} (hs : s.Coherent)
    (hreg : s.Registered n (key m)) :
    (s.dropState m).Coherent ∧ (s.nodes n = [] → (s.dropState m).elements = s.elements) := by
  obtain ⟨e, hmem, rfl, hkey⟩ := hreg
  obtain ⟨a, b, hcut⟩ := List.append_of_mem hmem
  exact hs.drop hcut (dropState_entries hcut hkey) rfl rfl

/-- **One step**: it keeps the tree coherent and every node sorted, and it waits, takes
effect or returns, if no non-empty node leaves the index. -/
theorem Turn.linear {call : Call T K} {phase : Phase T} {next : Next T}
    {changes : List (ChangeEventUnassigned T)} (h : Turn s events call phase s' next changes)
    (hs : s.Coherent) (hsorted : s.Sorted)
    (hroute : ∀ e, phase = .edit e → call.route s = some e)
    (hfirst : phase.first → s.entries = [])
    (hfits : ∀ op ∈ phase.split, s.Registered op.1 (key op.2.1) →
      s.nodes op.1 ≠ [] ∧ s.Fits op.2.1 op.2.2) :
    s'.Coherent ∧ s'.Sorted ∧
      ((∀ op ∈ phase.drop, s.Registered op.1 (key op.2) →
          ∀ k ∈ maxKey key (s.nodes op.1), key op.2 ≤ k) →
        Linear s call phase s'.elements next) := by
  cases h with
  | lookupPut | lookupFirst | release | locked | retry | full | lookupRemove | splitGone
  | located =>
    -- nothing is written: the call looks, waits for a lock or starts over
    exact ⟨hs, hsorted, fun _ => .wait rfl rfl⟩
  | overflow hfull => exact ⟨hs, hsorted, fun _ => .panic rfl hfull⟩
  | @first c v s' hcreated =>
    -- the only step that adds a node without a split
    have ⟨_, hcoh, hempty, helems⟩ := hcreated.coherent (hfirst rfl)
    refine ⟨hcoh, hcreated.sorted hsorted, fun _ => .act rfl ?_⟩
    have heff := Effect.put (s := s) (c := c) (v := v)
    rwa [hempty, put_nil, find_nil, ← helems] at heff
  | added _ hl ha hb _ hwrote =>
    have ⟨hcoh, hsort, helems, hnone⟩ := hwrote.stored hs hsorted (hroute _ rfl) hl ha hb
    refine ⟨hcoh, hsort, fun _ => .act rfl ?_⟩
    rw [helems, ← hnone]
    exact .put
  | @raised c v m e _ _ hm hbelow hwrote =>
    -- the value is there at once, only the index key waits for the commit
    have ⟨hcoh, hsort, helems, hnone⟩ := hwrote.stored (b := []) hs hsorted (hroute _ rfl) (by simp)
      hbelow (above_nil _)
    refine ⟨hcoh, hsort, fun _ => .defer rfl rfl ?_⟩
    have heff := Effect.put (s := s) (c := c) (v := v)
    rwa [← helems, hnone] at heff
  | refused hl hx ha hb =>
    refine ⟨hs, hsorted, fun _ => .act rfl (.refused ?_)⟩
    rw [hs.find_elements (hroute _ rfl), hl, find_hit hx ha]
    simp
  | replaced hl hx ha hb _ hwrote =>
    have ⟨hcoh, hsort, helems, hsome⟩ := hwrote.overwritten hs hsorted (hroute _ rfl) hl hx ha hb
    refine ⟨hcoh, hsort, fun _ => .act rfl ?_⟩
    rw [helems, ← hsome]
    exact .put
  | missed hnone => exact ⟨hs, hsorted, fun _ => .act rfl (.missed hnone)⟩
  | @absent q e habsent =>
    refine ⟨hs, hsorted, fun _ => .act rfl ?_⟩
    -- a key that is not in the node it routes to is nowhere
    have he := BTreeSet.lookupPut_of_lookupRemove (hroute e rfl)
    have hnone : find key q s.elements = none :=
      (hs.find_elements he).trans (find_eq_none.mpr habsent)
    have heff := Effect.removed (s := s) (q := q)
    rwa [hnone, erase_eq_self (find_eq_none.mp hnone)] at heff
  | @inside q e a b x m s' hl hx hb hm hwrote =>
    subst hx
    have he := BTreeSet.lookupPut_of_lookupRemove (hroute e rfl)
    have ⟨hcoh, hsort, helems, hsome⟩ := hwrote.taken hs hsorted he hl
    refine ⟨hcoh, hsort, fun _ => .act rfl ?_⟩
    rw [helems, ← hsome]
    exact .removed
  | @lowered q e a x s' hl hx ha hwrote =>
    subst hx
    -- as for `raised`: the element goes now, the index key later
    have he := BTreeSet.lookupPut_of_lookupRemove (hroute e rfl)
    rw [← List.append_nil a] at hwrote
    have ⟨hcoh, hsort, helems, hsome⟩ := hwrote.taken hs hsorted he hl
    refine ⟨hcoh, hsort, fun _ => .defer rfl rfl ?_⟩
    have heff := Effect.removed (s := s) (q := key x)
    rwa [hsome, ← helems] at heff
  | @emptied q e x s' hl hx hwrote =>
    subst hx
    have he := BTreeSet.lookupPut_of_lookupRemove (hroute e rfl)
    have ⟨hcoh, hsort, helems, hsome⟩ := hwrote.taken (a := []) (b := []) hs hsorted he hl
    refine ⟨hcoh, hsort, fun _ => .defer rfl rfl ?_⟩
    have heff := Effect.removed (s := s) (q := key x)
    rwa [hsome, ← helems] at heff
  | splitPanic hreg hnil => exact absurd hnil (hfits _ rfl hreg).1
  | @split c v m n cdc eventId hreg =>
    -- a full node: here the commit itself stores the value
    have ⟨hne, hfit⟩ := hfits (n, m, v) rfl hreg
    have ⟨hcoh, hsort, helems, hold⟩ := hs.splitCommit hsorted hreg hne hfit
    refine ⟨⟨hcoh.1, hcoh.2, hcoh.3⟩, hsort, fun _ => .act rfl ?_⟩
    have heff := Effect.put (s := s) (c := c) (v := v)
    rwa [← helems, ← hold] at heff
  | maxEmpty | maxGone | maxSame | dropGone | kept => exact ⟨hs, hsorted, fun _ => .finish rfl⟩
  | rekeyed hreg hmax =>
    have ⟨hcoh, helems⟩ := hs.rekeyCommit hsorted hreg hmax
    exact ⟨⟨hcoh.1, hcoh.2, hcoh.3⟩, hsorted, fun _ => helems ▸ .finish rfl⟩
  | @dropped call m n d cdc eventId hreg hlt =>
    have ⟨hcoh, helems⟩ := hs.dropCommit hreg
    refine ⟨⟨hcoh.1, hcoh.2, hcoh.3⟩, hsorted, fun hdrop => ?_⟩
    -- the code lets a node go whose maximum has grown; the condition leaves only empty ones
    have hnil : s.nodes n = [] := by
      cases hmax : maxKey key (s.nodes n) with
      | none => exact maxKey_eq_none.mp hmax
      | some k => exact absurd (hlt k hmax) (not_lt.mpr (hdrop (n, m) rfl hreg k hmax))
    exact helems hnil ▸ .finish rfl
  | unlocated hread =>
    refine ⟨hs, hsorted, fun _ => .act rfl ?_⟩
    rcases hread with ⟨rfl, -⟩ | ⟨rfl, -⟩
    · exact .read (Or.inl rfl)
    · exact .read (Or.inr rfl)
  | searched hread =>
    refine ⟨hs, hsorted, fun _ => .act rfl ?_⟩
    rcases hread with ⟨rfl, -⟩ | ⟨rfl, -⟩
    · exact .read (Or.inl rfl)
    · exact .read (Or.inr rfl)

/-- The phases whose step may change the index. -/
def Phase.writesIndex : Phase T → Bool
  | .insertFirst => true
  | .commit _ _ _ => true
  | _ => false

/-- Lookups and edits leave the index alone. -/
theorem Turn.index {call : Call T K} {phase : Phase T} {next : Next T}
    {changes : List (ChangeEventUnassigned T)} (h : Turn s events call phase s' next changes)
    (hphase : phase.writesIndex = false) : s'.index = s.index := by
  cases h with
  | added _ _ _ _ _ hwrote => exact hwrote.index
  | raised _ _ _ hwrote => exact hwrote.index
  | replaced _ _ _ _ _ hwrote => exact hwrote.index
  | inside _ _ _ _ hwrote => exact hwrote.index
  | lowered _ _ _ hwrote => exact hwrote.index
  | emptied _ _ hwrote => exact hwrote.index
  | _ => first | rfl | simp [Phase.writesIndex] at hphase

/-- A thread goes to edit the node its lookup leads to. -/
theorem Turn.routed {call : Call T K} {phase : Phase T} {e : T × NodeId}
    {changes : List (ChangeEventUnassigned T)}
    (h : Turn s events call phase s' (.goto (.edit e)) changes) : call.route s' = some e := by
  cases h with
  | lookupPut he => exact he
  | lookupRemove he => exact he

/-- A thread waits with an operation of its own call. -/
theorem Turn.defers {call : Call T K} {phase : Phase T} {op : Operation T} {d : Option T}
    {cdc : List (ChangeEvent T)} {changes : List (ChangeEventUnassigned T)}
    (h : Turn s events call phase s' (.goto (.commit op d cdc)) changes) :
    call.Defers op d := by
  cases h with
  | full => exact ⟨rfl, rfl⟩
  | raised => exact rfl
  | lowered _ hx => exact ⟨_, rfl, hx⟩
  | emptied _ hx => exact ⟨_, rfl, hx⟩

/-- No step puts a node out of order, whatever the index says. -/
theorem Turn.sorted {call : Call T K} {phase : Phase T} {next : Next T}
    {changes : List (ChangeEventUnassigned T)} (h : Turn s events call phase s' next changes)
    (hs : s.Sorted) : s'.Sorted := by
  cases h with
  | first hcreated => exact hcreated.sorted hs
  | @added _ _ e _ _ _ _ hl ha hb _ hwrote =>
    have hasc := hs e.2
    rw [hl, ascending_append] at hasc
    exact hwrote.sorted hs (ascending_append_cons.mpr ⟨hasc.1, hasc.2.1, ha, hb⟩)
  | raised _ _ hbelow hwrote =>
    exact hwrote.sorted hs (ascending_append_cons.mpr ⟨hs _, ascending_nil, hbelow, above_nil _⟩)
  | @replaced _ _ _ e _ _ _ _ hl _ ha hb _ hwrote =>
    have hasc := hs e.2
    rw [hl, ascending_append_cons] at hasc
    exact hwrote.sorted hs (ascending_append_cons.mpr ⟨hasc.1, hasc.2.1, ha, hb⟩)
  | @inside _ e _ _ _ _ _ hl _ _ _ hwrote =>
    have hasc := hs e.2
    rw [hl] at hasc
    exact hwrote.sorted hs (hasc.sublist (by simp))
  | @lowered _ e _ _ _ hl _ _ hwrote =>
    have hasc := hs e.2
    rw [hl] at hasc
    exact hwrote.sorted hs (hasc.sublist (by simp))
  | emptied _ _ hwrote => exact hwrote.sorted hs ascending_nil
  | @split _ v m n =>
    by_cases hnil : s.nodes n = []
    · -- an empty node has two empty halves
      have hempty : (s.commitSplit n m v).1.nodes = Function.update s.nodes n [] := by
        simp [BTreeSet.commitSplit, hnil, Node.halve, Node.max, BTreeSet.setNode]
      intro k
      show Ascending key ((s.commitSplit n m v).1.nodes k)
      rw [hempty]
      by_cases hk : k = n
      · subst hk
        simp
      · simpa [hk] using hs k
    · obtain ⟨_, _, _, _, hstate, -, hput, -⟩ :=
        BTreeSet.commitSplit_spec s n m v (hs n) hnil
      intro k
      show Ascending key ((s.commitSplit n m v).1.nodes k)
      rw [hstate]
      exact BTreeSet.splitState_sorted hs hput k
  | _ => exact hs

/-- A lookup only reads the index. -/
theorem Call.route_congr (h : s'.index = s.index) (call : Call T K) :
    call.route s' = call.route s := by
  cases call <;> simp [Call.route, BTreeSet.lookupPut, BTreeSet.lookupRemove, h]

/-- A lookup finds an entry of the index. -/
theorem Call.route_mem {call : Call T K} {e : T × NodeId} (h : call.route s = some e) :
    e ∈ s.entries := by
  have hmem : ∀ {q : K}, s.lookupPut q = some e → e ∈ s.entries := by
    intro q he
    obtain ⟨a, b, hcut, -, -⟩ := BTreeSet.lookupPut_eq_some he
    simp [hcut]
  cases call with
  | insert c v => exact hmem h
  | remove q => exact hmem (BTreeSet.lookupPut_of_lookupRemove h)
  | contains q => cases h
  | get q => cases h

end Steps

/-! ## §3 Steps of the machine -/

namespace State

/-- What holds in every state the machine reaches: the tree is coherent, a thread about to
edit is at the node its lookup leads to, and waits with an operation of its own call. -/
structure Inv (s : State ι M T K) : Prop where
  coherent : s.shared.Coherent
  sorted : s.shared.Sorted
  routed : ∀ t call e, s.threads t = .running call (.edit e) → call.route s.shared = some e
  defers : ∀ t call op d cdc, s.threads t = .running call (.commit op d cdc) → call.Defers op d

theorem inv_start {shared : BTreeSet M T} (hs : shared.Coherent) (hsorted : shared.Sorted) :
    (start shared : State ι M T K).Inv :=
  ⟨hs, hsorted, fun _ _ _ h => by simp [start] at h, fun _ _ _ _ _ h => by simp [start] at h⟩

variable [DecidableEq ι] [Fintype ι] {s s' : State ι M T K} {t : ι}

theorem step_call {call : Call T K} (h : s.step (.call t call) = some s') :
    s.threads t = .idle ∧ s' = s.invoke t call := by
  cases ht : s.threads t with
  | idle =>
    simp only [step, ht, Option.some.injEq] at h
    exact ⟨rfl, h.symm⟩
  | running call phase => simp [step, ht] at h
  | panicked => simp [step, ht] at h

/-- A turn of a thread is a step of its call. -/
theorem step_turn_eq (h : s.step (.turn t) = some s') :
    ∃ call phase shared next, s.threads t = .running call phase ∧
      turn s.shared (s.alone t) call phase = some (shared, next) ∧
      s' = s.advance t call shared next := by
  cases ht : s.threads t with
  | idle => simp [step, ht] at h
  | panicked => simp [step, ht] at h
  | running call phase =>
    simp only [step, ht, Option.map_eq_some_iff] at h
    obtain ⟨⟨shared, next⟩, hturn, rfl⟩ := h
    exact ⟨call, phase, shared, next, rfl, hturn, rfl⟩

/-- It is one of `Turn`'s as soon as the nodes are ascending and operations belong to calls. -/
theorem step_turn_of (hsorted : s.shared.Sorted)
    (hdefers : ∀ t call op d cdc, s.threads t = .running call (.commit op d cdc) →
      call.Defers op d)
    (h : s.step (.turn t) = some s') :
    ∃ call phase shared next, s.threads t = .running call phase ∧
      Turned s.shared (s.alone t) call phase shared next ∧
      s' = s.advance t call shared next := by
  obtain ⟨call, phase, shared, next, ht, hturn, rfl⟩ := step_turn_eq h
  refine ⟨call, phase, shared, next, ht, turn_spec hsorted ?_ hturn, rfl⟩
  rintro op d cdc rfl
  exact hdefers t call op d cdc ht

theorem step_turn (hs : s.Inv) (h : s.step (.turn t) = some s') :
    ∃ call phase shared next, s.threads t = .running call phase ∧
      Turned s.shared (s.alone t) call phase shared next ∧
      s' = s.advance t call shared next :=
  step_turn_of hs.sorted hs.defers h

omit [Fintype ι] [LinearOrder K] [Keyed T K] [LawfulSkipMap M T K] in
theorem threads_advance_self (call : Call T K) (shared : BTreeSet M T) (next : Next T) :
    (s.advance t call shared next).threads t = next.thread call :=
  Function.update_self ..

omit [Fintype ι] [LinearOrder K] [Keyed T K] [LawfulSkipMap M T K] in
theorem threads_advance_of_ne {u : ι} (hu : u ≠ t) (call : Call T K) (shared : BTreeSet M T)
    (next : Next T) : (s.advance t call shared next).threads u = s.threads u :=
  Function.update_of_ne hu ..

omit [Fintype ι] [LinearOrder K] [Keyed T K] [LawfulSkipMap M T K] in
/-- A fact about every thread, after a step of one of them. -/
theorem forall_threads_advance {P : ι → Thread T K → Prop} {call : Call T K}
    {shared : BTreeSet M T} {next : Next T} (hself : P t (next.thread call))
    (hother : ∀ u, u ≠ t → P u (s.threads u)) :
    ∀ u, P u ((s.advance t call shared next).threads u) := by
  intro u
  by_cases hu : u = t
  · subst hu
    rw [threads_advance_self]
    exact hself
  · rw [threads_advance_of_ne hu]
    exact hother u hu

omit [DecidableEq ι] [Fintype ι] [LinearOrder K] [Keyed T K] [LawfulSkipMap M T K] in
/-- The label of a thread continues its call. -/
theorem active_turn {call : Call T K} {phase : Phase T} (ht : s.threads t = .running call phase) :
    s.active (.turn t) = some (call, phase) := by
  simp [active, ht]

omit [LinearOrder K] [Keyed T K] [LawfulSkipMap M T K] in
/-- A commit runs while no other thread is between its lookup and its edit. -/
theorem not_edit_of_alone (h : s.alone t = true) {u : ι} (hu : u ≠ t) {call : Call T K}
    {e : T × NodeId} : s.threads u ≠ .running call (.edit e) := by
  intro hedit
  have hread := of_decide_eq_true h u hu
  rw [hedit] at hread
  cases hread

omit [Fintype ι] in
/-- **The invariant holds after a step of a call** that keeps to the two conditions, when no
other thread is about to edit while it commits. -/
theorem Inv.advance {call : Call T K} {phase : Phase T} {shared : BTreeSet M T} {next : Next T}
    {events : List (ChangeEvent T)} {changes : List (ChangeEventUnassigned T)} (hs : s.Inv)
    (ht : s.threads t = .running call phase)
    (hturn : Turn s.shared events call phase shared next changes)
    (hempty : phase.first → s.shared.entries = [])
    (hfits : ∀ op ∈ phase.split, s.shared.Registered op.1 (key op.2.1) →
      s.shared.nodes op.1 ≠ [] ∧ s.shared.Fits op.2.1 op.2.2)
    (halone : ∀ op d cdc, phase = .commit op d cdc →
      ∀ u, u ≠ t → ∀ c e, s.threads u ≠ .running c (.edit e)) :
    (s.advance t call shared next).Inv := by
  have ⟨hcoh, hsorted, _⟩ := hturn.linear hs.coherent hs.sorted
    (fun e he => hs.routed t call e (he ▸ ht)) hempty hfits
  refine ⟨hcoh, hsorted, ?_, ?_⟩
  · refine forall_threads_advance (P := fun _ th => ∀ c e, th = .running c (.edit e) →
      c.route shared = some e) (fun c e he => ?_) fun u hu c e he => ?_
    · cases next with
      | goto ph =>
        cases he
        exact hturn.routed
      | done ret cdc => cases he
      | panic => cases he
    · have hroute := hs.routed u c e he
      cases hphase : phase.writesIndex with
      | false => rw [Call.route_congr (hturn.index hphase), hroute]
      | true =>
        -- the index changed, so nobody else was about to edit
        cases phase with
        | insertFirst => exact absurd (hempty rfl) (List.ne_nil_of_mem (Call.route_mem hroute))
        | commit op d cdc => exact absurd he (halone op d cdc rfl u hu c e)
        | _ => cases hphase
  · refine forall_threads_advance (P := fun _ th => ∀ c op d cdc,
      th = .running c (.commit op d cdc) → c.Defers op d) (fun c op d cdc he => ?_)
      fun u _ => hs.defers u
    cases next with
    | goto ph =>
      cases he
      exact hturn.defers
    | done ret cdc => cases he
    | panic => cases he

omit [Fintype ι] in
/-- A call begins. -/
theorem Inv.invoke {call : Call T K} (hs : s.Inv) : (s.invoke t call).Inv := by
  refine ⟨hs.coherent, hs.sorted, fun u c e hu => ?_, fun u c op d cdc hu => ?_⟩
  · by_cases hut : u = t
    · subst hut
      simp [State.invoke] at hu
    · exact hs.routed u c e (by simpa [State.invoke, hut] using hu)
  · by_cases hut : u = t
    · subst hut
      simp [State.invoke] at hu
    · exact hs.defers u c op d cdc (by simpa [State.invoke, hut] using hu)

/-- **The invariant holds after every step** that keeps to the two conditions. -/
theorem Inv.step {l : Label ι T K} (hs : s.Inv) (hfirst : s.FirstOnEmpty l)
    (hfits : s.SplitFits l) (h : s.step l = some s') : s'.Inv := by
  cases l with
  | call t call =>
    obtain ⟨_, rfl⟩ := step_call h
    exact hs.invoke
  | turn t =>
    obtain ⟨call, phase, shared, next, ht, ⟨changes, hturn, -, halone⟩, rfl⟩ := step_turn hs h
    have hactive := active_turn ht
    exact hs.advance ht hturn (hfirst _ hactive) (hfits _ hactive) fun op d cdc hphase u hu c e =>
      not_edit_of_alone (halone op d cdc hphase) hu

omit [DecidableEq ι] [Fintype ι] [LinearOrder K] [Keyed T K] [LawfulSkipMap M T K] in
theorem active_eq_some {l : Label ι T K} {p : Call T K × Phase T} (h : s.active l = some p) :
    ∃ t, l = .turn t ∧ s.threads t = .running p.1 p.2 := by
  cases l with
  | call t call => cases h
  | turn t =>
    cases ht : s.threads t with
    | idle => simp [active, ht] at h
    | panicked => simp [active, ht] at h
    | running call phase =>
      rw [active_turn ht] at h
      cases h
      exact ⟨t, rfl, ht⟩

omit [DecidableEq ι] [Fintype ι] in
/-- An insert never waits to take a node out of the index. -/
theorem Inv.dropsEmpty {l : Label ι T K} (hs : s.Inv)
    (hinsert : ∀ p ∈ s.active l, ∃ c v, p.1 = .insert c v) : s.DropsEmpty l := by
  rintro ⟨call, phase⟩ hactive ⟨n, m⟩ hdrop
  obtain ⟨t, -, ht⟩ := active_eq_some hactive
  obtain ⟨c, v, rfl⟩ := hinsert _ hactive
  cases phase with
  | commit op d cdc =>
    have hdefers := hs.defers t _ op d cdc ht
    cases op with
    | makeUnreachable n m => exact hdefers.elim
    | split n m w => cases hdrop
    | updateMax n m => cases hdrop
  | _ => cases hdrop

/-- The step of a thread, seen from the elements. -/
theorem Inv.turn_linear (hs : s.Inv) (hfirst : s.FirstOnEmpty (.turn t))
    (hfits : s.SplitFits (.turn t)) (h : s.step (.turn t) = some s') :
    ∃ call phase shared next, s.threads t = .running call phase ∧
      s' = s.advance t call shared next ∧
      (s.DropsEmpty (.turn t) → Linear s.shared call phase shared.elements next) := by
  obtain ⟨call, phase, shared, next, ht, ⟨changes, hturn, -, -⟩, rfl⟩ := step_turn hs h
  have hactive := active_turn ht
  have ⟨_, _, hlinear⟩ := hturn.linear hs.coherent hs.sorted
    (fun e he => hs.routed t call e (he ▸ ht)) (hfirst _ hactive) (hfits _ hactive)
  exact ⟨call, phase, shared, next, ht, rfl, fun hdrop => hlinear (hdrop _ hactive)⟩

/-! ## §4 The record of calls -/

/-- Calls are recorded when they begin, and again when they return. -/
structure Recorded (s : State ι M T K) : Prop where
  running : ∀ t call phase, s.threads t = .running call phase → (t, call) ∈ s.invoked
  returned : ∀ r ∈ s.returned, (r.thread, r.call) ∈ s.invoked
  answered : ∀ p ∈ s.invoked, (∃ r ∈ s.returned, r.thread = p.1 ∧ r.call = p.2) ∨
    (∃ phase, s.threads p.1 = .running p.2 phase) ∨ s.threads p.1 = .panicked

theorem Recorded.step {l : Label ι T K} (hs : s.Recorded) (h : s.step l = some s') :
    s'.Recorded ∧ s.invoked ⊆ s'.invoked ∧ s.returned ⊆ s'.returned := by
  cases l with
  | call t call =>
    obtain ⟨hidle, rfl⟩ := step_call h
    refine ⟨⟨fun u c ph hu => ?_, fun r hr => ?_, fun p hp => ?_⟩,
      List.subset_append_left .., List.Subset.refl _⟩
    -- the thread was idle, so no call of it was waiting for an answer
    · by_cases hut : u = t
      · subst hut
        simp only [invoke, Function.update_self, Thread.running.injEq] at hu
        simp [invoke, hu.1]
      · simp only [invoke, Function.update_of_ne hut] at hu
        exact List.mem_append_left _ (hs.running u c ph hu)
    · exact List.mem_append_left _ (hs.returned r hr)
    · rcases List.mem_append.mp hp with hp | hp
      · rcases hs.answered p hp with hret | ⟨ph, hrun⟩ | hpanic
        · exact Or.inl hret
        · have hpt : p.1 ≠ t := fun heq => by simp [heq, hidle] at hrun
          exact Or.inr (Or.inl ⟨ph, by simp [invoke, hpt, hrun]⟩)
        · have hpt : p.1 ≠ t := fun heq => by simp [heq, hidle] at hpanic
          exact Or.inr (Or.inr (by simp [invoke, hpt, hpanic]))
      · rw [List.mem_singleton] at hp
        subst hp
        exact Or.inr (Or.inl ⟨.lookup, by simp [invoke]⟩)
  | turn t =>
    obtain ⟨call, phase, shared, next, ht, -, rfl⟩ := step_turn_eq h
    have hmem := hs.running t call phase ht
    refine ⟨⟨?_, fun r hr => ?_, fun p hp => ?_⟩, List.Subset.refl _,
      List.subset_append_left ..⟩
    · refine forall_threads_advance (P := fun u th => ∀ c ph, th = .running c ph →
        (u, c) ∈ s.invoked) (fun c ph he => ?_) fun u _ => hs.running u
      cases next <;> cases he
      exact hmem
    · rcases List.mem_append.mp hr with hr | hr
      · exact hs.returned r hr
      · cases next with
        | done ret cdc =>
          rw [Next.record, List.mem_singleton] at hr
          subst hr
          exact hmem
        | goto ph => cases hr
        | panic => cases hr
    · rcases hs.answered p hp with ⟨r, hr, heq⟩ | hrun | hpanic
      · exact Or.inl ⟨r, List.mem_append_left _ hr, heq⟩
      · by_cases hpt : p.1 = t
        · obtain ⟨ph, hrun⟩ := hrun
          rw [hpt, ht, Thread.running.injEq] at hrun
          obtain ⟨rfl, rfl⟩ := hrun
          rw [hpt, threads_advance_self]
          cases next with
          | goto ph' => exact Or.inr (Or.inl ⟨ph', rfl⟩)
          | done ret cdc =>
            exact Or.inl ⟨⟨t, p.2, ret, cdc⟩, List.mem_append_right _ (List.mem_singleton.mpr rfl),
              rfl, rfl⟩
          | panic => exact Or.inr (Or.inr rfl)
        · rw [threads_advance_of_ne hpt]
          exact Or.inr (Or.inl hrun)
      · have hpt : p.1 ≠ t := fun heq => by simp [heq, ht] at hpanic
        rw [threads_advance_of_ne hpt]
        exact Or.inr (Or.inr hpanic)

end State

end IndexSet.Concurrent
