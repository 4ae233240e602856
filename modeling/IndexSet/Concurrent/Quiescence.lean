import IndexSet.Concurrent.Linear

/-!
# The Index When No Call Is in Flight

Between an edit and its commit the index key of a node is stale.  The invariant `Guarded`
says who is responsible: an entry is exact, or some thread waits to commit an operation that
names it.  A commit that leaves the entry as it is — `UpdateMax` on an empty node,
`MakeUnreachable` on a refilled one — keeps the invariant only while another thread is still
responsible (`GivesWay`).
-/

namespace IndexSet.Concurrent

open KeyedList

variable {ι M T K : Type} [LinearOrder K] [Keyed T K] [LawfulSkipMap M T K]

/-! ## §1 Who repairs an entry -/

/-- The entry a waiting operation will repair: its node and its key. -/
def Phase.repairing : Phase T → Option (NodeId × K)
  | .commit (.split n m _) _ _ => some (n, key m)
  | .commit (.updateMax n m) _ _ => some (n, key m)
  | .commit (.makeUnreachable n m) _ _ => some (n, key m)
  | _ => none

def Thread.repairing : Thread T K → Option (NodeId × K)
  | .running _ phase => phase.repairing
  | _ => none

/-- The entry a commit finds and leaves as it is, although its key is not the maximum. -/
def Phase.givesUp (s : BTreeSet M T) : Phase T → Option (NodeId × K)
  | .commit (.updateMax n m) _ _ =>
    if s.Registered n (key m) ∧ maxKey key (s.nodes n) = none then some (n, key m) else none
  | .commit (.makeUnreachable n m) _ _ =>
    if s.Registered n (key m) ∧ (maxKey key (s.nodes n)).any (key m < ·) then some (n, key m)
    else none
  | _ => none

namespace State

variable [DecidableEq ι]

/-- A commit gives up only while another thread waits to repair the entry. -/
def GivesWay [Fintype ι] (s : State ι M T K) : Label ι T K → Prop
  | .call _ _ => True
  | .turn t => ∀ p ∈ s.active (.turn t), ∀ name ∈ p.2.givesUp s.shared,
      ∃ u, u ≠ t ∧ (s.threads u).repairing = some name

instance [Fintype ι] (s : State ι M T K) : ∀ l, Decidable (s.GivesWay l)
  | .call _ _ => isTrue trivial
  | .turn t => inferInstanceAs (Decidable (∀ p ∈ s.active (.turn t), ∀ name ∈ p.2.givesUp s.shared,
      ∃ u, u ≠ t ∧ (s.threads u).repairing = some name))

omit [DecidableEq ι] in
/-- **The invariant**: an entry is exact, or a thread waits to repair it. -/
def Guarded (s : State ι M T K) : Prop :=
  ∀ e ∈ s.shared.entries, s.shared.Exact e ∨
    ∃ t, (s.threads t).repairing = some (e.2, key e.1)

end State

/-! ## §2 One step -/

section Steps

variable {s s' : BTreeSet M T} {P R : NodeId × K → Prop}

/-- A write to one node: it is enough that a former maximum is kept, or answered for. -/
theorem BTreeSet.Wrote.covers {n : NodeId} {items : List T} (h : s.Wrote n items s')
    (hcover : ∀ e ∈ s.entries, s.Exact e ∨ P (e.2, key e.1)) (hweak : ∀ name, P name → R name)
    (hedit : ∀ k, maxKey key (s.nodes n) = some k → maxKey key items = some k ∨ R (n, k)) :
    ∀ e ∈ s'.entries, s'.Exact e ∨ R (e.2, key e.1) := by
  intro e he
  rw [h.entries] at he
  refine (hcover e he).elim (fun hexact => ?_) fun hP => Or.inr (hweak _ hP)
  unfold BTreeSet.Exact at hexact ⊢
  rw [h.nodes]
  by_cases hen : e.2 = n
  · rw [hen, Function.update_self]
    exact hedit _ (hen ▸ hexact)
  · rw [Function.update_of_ne hen]
    exact Or.inl hexact

omit [LinearOrder K] [LawfulSkipMap M T K] in
/-- Entries that stay, with their nodes, stay covered. -/
theorem covers_of_kept {e : T × NodeId} (hnodes : s'.nodes e.2 = s.nodes e.2)
    (hcover : s.Exact e ∨ P (e.2, key e.1)) : s'.Exact e ∨ P (e.2, key e.1) := by
  refine hcover.imp_left fun hexact => ?_
  unfold BTreeSet.Exact at hexact ⊢
  rw [hnodes, hexact]

/-- A change of the index that leaves every entry exact, or as it was with a node other than
`n`. -/
def Settles (s s' : BTreeSet M T) (n : NodeId) : Prop :=
  ∀ p ∈ s'.entries, s'.Exact p ∨ p ∈ s.entries ∧ p.2 ≠ n ∧ s'.nodes p.2 = s.nodes p.2

/-- **One step**, when those that change the index settle the node they are about: entries
that are exact or answered for by the moving thread or by others are so after the step, if
the thread gives up nothing that others do not cover. -/
theorem Turn.covers_of {events : List (ChangeEvent T)} {call : Call T K} {phase : Phase T}
    {next : Next T} {changes : List (ChangeEventUnassigned T)}
    (h : Turn s events call phase s' next changes)
    (hfirst : ∀ c v, call = .insert c v → phase.first → s.Created v s' →
      Settles s s' s.nextNode)
    (hsplit : ∀ c n m v eventId, call = .insert c v → phase.split = some (n, m, v) →
      s.Registered n (key m) → s' = { (s.commitSplit n m v).1 with eventId } → Settles s s' n)
    (hrekey : ∀ n m max eventId, phase.rekey = some (n, m) → s.Registered n (key m) →
      (s.nodes n).getLast? = some max → s' = { s.rekeyState n m max with eventId } →
      Settles s s' n)
    (hdrop : ∀ n m eventId, phase.drop = some (n, m) → s.Registered n (key m) →
      s' = { s.dropState m with eventId } → Settles s s' n)
    (hfull : ∀ op ∈ phase.split, s.Registered op.1 (key op.2.1) → s.nodes op.1 ≠ [])
    (others : NodeId × K → Prop)
    (hcover : ∀ e ∈ s.entries,
      s.Exact e ∨ phase.repairing = some (e.2, key e.1) ∨ others (e.2, key e.1))
    (hgive : ∀ name ∈ phase.givesUp s, others name) :
    ∀ e ∈ s'.entries,
      s'.Exact e ∨ (next.thread call).repairing = some (e.2, key e.1) ∨ others (e.2, key e.1) := by
  -- outside a repairing commit nobody counts on the moving thread
  have hothers : phase.repairing = none → ∀ e ∈ s.entries, s.Exact e ∨ others (e.2, key e.1) :=
    fun hnone e he => (hcover e he).imp_right fun hrep => hrep.resolve_left (by simp [hnone])
  have hsame : phase.repairing = none → ∀ e ∈ s.entries,
      s.Exact e ∨ (next.thread call).repairing = some (e.2, key e.1) ∨ others (e.2, key e.1) :=
    fun hnone e he => (hothers hnone e he).imp_right Or.inr
  -- what a write has to answer for: the entries under the former maximum of the node
  have hwrite : phase.repairing = none → ∀ {n : NodeId} {items : List T}, s.Wrote n items s' →
      (∀ k, maxKey key (s.nodes n) = some k →
        maxKey key items = some k ∨ (next.thread call).repairing = some (n, k)) →
      ∀ e ∈ s'.entries,
        s'.Exact e ∨ (next.thread call).repairing = some (e.2, key e.1) ∨ others (e.2, key e.1) :=
    fun hnone n items hwrote hedit => hwrote.covers
      (R := fun name => (next.thread call).repairing = some name ∨ others name)
      (hothers hnone) (fun _ => Or.inr) fun k hk => (hedit k hk).imp_right Or.inl
  -- what a change of the index has to answer for: nothing of the node it is about
  have hindex : ∀ {n : NodeId}, (∀ name, phase.repairing = some name → name.1 = n) →
      Settles s s' n → ∀ e ∈ s'.entries,
        s'.Exact e ∨ (next.thread call).repairing = some (e.2, key e.1) ∨
          others (e.2, key e.1) := by
    intro n hname hsettles e he
    rcases hsettles e he with hexact | ⟨hold, hne, hnodes⟩
    · exact Or.inl hexact
    · refine (covers_of_kept hnodes ((hcover e hold).imp_right fun hrep =>
        hrep.resolve_left fun hself => hne (hname _ hself))).imp_right Or.inr
  -- who would repair an entry finds that the index has none under its key
  have hgone : ∀ {n : NodeId} {m : T}, phase.repairing = some (n, key m) →
      ¬ s.Registered n (key m) → ∀ e ∈ s.entries,
        s.Exact e ∨ (next.thread call).repairing = some (e.2, key e.1) ∨ others (e.2, key e.1) := by
    intro n m hself hnot e he
    refine (hcover e he).imp_right fun hrep => Or.inr (hrep.resolve_left fun hrep => hnot ?_)
    have hname := Option.some.inj (hself.symm.trans hrep)
    exact ⟨e, he, (congrArg Prod.fst hname).symm, (congrArg Prod.snd hname).symm⟩
  cases h with
  | lookupPut | lookupFirst | release | overflow | locked | retry | full | refused | lookupRemove |
      missed | absent | located | unlocated | searched => exact hsame rfl
  | first hcreated => exact hindex (by simp [Phase.repairing]) (hfirst _ _ rfl rfl hcreated)
  | added _ hl _ _ hin hwrote =>
    refine hwrite rfl hwrote fun k hk => Or.inl ?_
    rcases hin with hnil | hne
    · rw [hnil] at hk
      cases hk
    · rw [maxKey_put_inside hl hne, hk]
  | raised _ hm _ hwrote =>
    refine hwrite rfl hwrote fun k hk => Or.inr ?_
    rw [maxKey, hm, Option.map_some, Option.some.injEq] at hk
    rw [← hk]
    rfl
  | replaced hl hx _ _ _ hwrote =>
    refine hwrite rfl hwrote fun k hk => Or.inl ?_
    rw [maxKey_replace hl hx, hk]
  | inside hl _ hb _ hwrote =>
    refine hwrite rfl hwrote fun k hk => Or.inl ?_
    rw [← maxKey_put_inside rfl hb, ← hl, hk]
  | lowered hl _ _ hwrote =>
    refine hwrite rfl hwrote fun k hk => Or.inr ?_
    rw [hl, maxKey_concat, Option.some.injEq] at hk
    rw [← hk]
    rfl
  | emptied hl _ hwrote =>
    refine hwrite rfl hwrote fun k hk => Or.inr ?_
    rw [hl, maxKey, List.getLast?_singleton, Option.map_some, Option.some.injEq] at hk
    rw [← hk]
    rfl
  | splitGone hnot => exact hgone rfl hnot
  | splitPanic hreg hnil => exact absurd hnil (hfull _ rfl hreg)
  | split hreg =>
    refine hindex (fun name hname => ?_) (hsplit _ _ _ _ _ rfl rfl hreg rfl)
    exact congrArg Prod.fst (Option.some.inj hname).symm
  | @maxEmpty _ m n _ _ hnil =>
    intro e he
    refine (hcover e he).imp_right fun hrep => Or.inr (hrep.elim (fun hrep => ?_) id)
    have hname := Option.some.inj hrep
    have hreg : s.Registered n (key m) := ⟨e, he, (congrArg Prod.fst hname).symm,
      (congrArg Prod.snd hname).symm⟩
    refine hname ▸ hgive _ ?_
    simp [Phase.givesUp, hreg, hnil]
  | maxGone _ hnot => exact hgone rfl hnot
  | @maxSame _ m n _ _ _ hmax =>
    intro e he
    rcases hcover e he with hexact | hrep | hother
    · exact Or.inl hexact
    · have hname := Option.some.inj hrep
      have hn : n = e.2 := congrArg Prod.fst hname
      have hk : key m = key e.1 := congrArg Prod.snd hname
      exact Or.inl (by rw [BTreeSet.Exact, ← hn, ← hk, hmax])
    · exact Or.inr (Or.inr hother)
  | rekeyed hreg hmax _ =>
    refine hindex (fun name hname => ?_) (hrekey _ _ _ _ rfl hreg hmax rfl)
    exact congrArg Prod.fst (Option.some.inj hname).symm
  | dropGone hnot => exact hgone rfl hnot
  | @kept _ m n _ _ k hreg hmax hle =>
    intro e he
    rcases hcover e he with hexact | hrep | hother
    · exact Or.inl hexact
    · have hname := Option.some.inj hrep
      rcases hle.eq_or_lt with heq | hlt
      · have hn : n = e.2 := congrArg Prod.fst hname
        have hk : key m = key e.1 := congrArg Prod.snd hname
        exact Or.inl (by rw [BTreeSet.Exact, ← hn, ← hk, hmax, heq])
      · refine Or.inr (Or.inr (hname ▸ hgive _ ?_))
        simp [Phase.givesUp, hreg, hmax, hlt]
    · exact Or.inr (Or.inr hother)
  | dropped hreg _ =>
    refine hindex (fun name hname => ?_) (hdrop _ _ _ rfl hreg rfl)
    exact congrArg Prod.fst (Option.some.inj hname).symm

/-- **One step on a coherent set** whose first nodes go into an empty index and whose splits
fit. -/
theorem Turn.covers {events : List (ChangeEvent T)} {call : Call T K} {phase : Phase T}
    {next : Next T} {changes : List (ChangeEventUnassigned T)}
    (h : Turn s events call phase s' next changes) (hs : s.Coherent) (hsorted : s.Sorted)
    (hfirst : phase.first → s.entries = [])
    (hfits : ∀ op ∈ phase.split, s.Registered op.1 (key op.2.1) →
      s.nodes op.1 ≠ [] ∧ s.Fits op.2.1 op.2.2)
    (others : NodeId × K → Prop)
    (hcover : ∀ e ∈ s.entries,
      s.Exact e ∨ phase.repairing = some (e.2, key e.1) ∨ others (e.2, key e.1))
    (hgive : ∀ name ∈ phase.givesUp s, others name) :
    ∀ e ∈ s'.entries,
      s'.Exact e ∨ (next.thread call).repairing = some (e.2, key e.1) ∨ others (e.2, key e.1) := by
  refine h.covers_of ?_ ?_ ?_ ?_ (fun op hop hreg => (hfits op hop hreg).1) others hcover hgive
  · rintro c v - hphase hcreated p hp
    rw [(hcreated.coherent (hfirst hphase)).1, List.mem_singleton] at hp
    subst hp
    exact Or.inl (by simp [BTreeSet.Exact, hcreated.nodes, maxKey])
  · rintro c n m v eventId - hphase hreg rfl
    obtain ⟨hne, hfit⟩ := hfits (n, m, v) hphase hreg
    obtain ⟨e, hmem, rfl, hkey⟩ := hreg
    obtain ⟨a, b, hcut⟩ := List.append_of_mem hmem
    obtain ⟨lowerMax, lower, upperMax, upper, hstate, -, hput, hlower, hupper, -⟩ :=
      BTreeSet.commitSplit_spec s e.2 m v (hsorted e.2) hne
    obtain ⟨_, _, hentries⟩ := hs.split hcut rfl hkey (hsorted e.2) (hfit.admissible hcut hkey) hput
      hlower hupper
    have hcases := hs.split_entries hcut hentries hlower hupper
    rw [← hstate] at hcases
    intro p hp
    rcases hcases p hp with hexact | ⟨hold, hnodes⟩
    · exact Or.inl hexact
    · exact Or.inr ⟨BTreeSet.mem_of_cut hcut hold, hs.ne_of_cut hcut p hold, hnodes⟩
  · rintro n m max eventId - hreg hmax rfl p hp
    obtain ⟨e, hmem, rfl, hkey⟩ := hreg
    obtain ⟨a, b, hcut⟩ := List.append_of_mem hmem
    have hm : maxKey key (s.nodes e.2) = some (key max) := by simp [maxKey, hmax]
    have hp' : p ∈ a ++ (max, e.2) :: b := hs.rekeyState_entries hcut hkey (hsorted e.2) hm ▸ hp
    have hold : p ∈ a ++ b ∨ p = (max, e.2) := by
      simp only [List.mem_append, List.mem_cons] at hp' ⊢
      tauto
    rcases hold with hold | rfl
    · exact Or.inr ⟨BTreeSet.mem_of_cut hcut hold, hs.ne_of_cut hcut p hold, rfl⟩
    · exact Or.inl hm
  · rintro n m eventId - hreg rfl p hp
    obtain ⟨e, hmem, rfl, hkey⟩ := hreg
    obtain ⟨a, b, hcut⟩ := List.append_of_mem hmem
    have hold : p ∈ a ++ b := BTreeSet.dropState_entries hcut hkey ▸ hp
    exact Or.inr ⟨BTreeSet.mem_of_cut hcut hold, hs.ne_of_cut hcut p hold, rfl⟩

end Steps

/-! ## §3 Runs -/

namespace State

variable [DecidableEq ι] [Fintype ι] {s s' : State ι M T K}

/-- The conditions under which some thread always answers for a stale entry. -/
def Orderly (s : State ι M T K) (l : Label ι T K) : Prop :=
  s.FirstOnEmpty l ∧ s.SplitFits l ∧ s.GivesWay l

instance (s : State ι M T K) (l : Label ι T K) : Decidable (s.Orderly l) :=
  inferInstanceAs (Decidable (_ ∧ _ ∧ _))

theorem Guarded.step {l : Label ι T K} (hs : s.Inv) (hguard : s.Guarded) (hcond : s.Orderly l)
    (h : s.step l = some s') : s'.Guarded := by
  obtain ⟨hfirst, hfits, hgive⟩ := hcond
  cases l with
  | call t call =>
    obtain ⟨hidle, rfl⟩ := step_call h
    intro e he
    refine (hguard e he).imp_right ?_
    rintro ⟨u, hu⟩
    have hut : u ≠ t := fun hut => by
      rw [hut, hidle] at hu
      cases hu
    exact ⟨u, by simpa [invoke, hut] using hu⟩
  | turn t =>
    obtain ⟨call, phase, shared, next, ht, ⟨changes, hturn, -, -⟩, rfl⟩ := step_turn hs h
    have hactive := active_turn ht
    intro e he
    have hcover := hturn.covers hs.coherent hs.sorted (hfirst _ hactive) (hfits _ hactive)
      (fun name => ∃ u, u ≠ t ∧ (s.threads u).repairing = some name)
      (fun e he => (hguard e he).imp_right fun hrep => by
        obtain ⟨u, hu⟩ := hrep
        by_cases hut : u = t
        · subst hut
          rw [ht] at hu
          exact Or.inl hu
        · exact Or.inr ⟨u, hut, hu⟩)
      (hgive _ hactive) e he
    refine hcover.imp_right ?_
    rintro (hself | ⟨u, hut, hu⟩)
    · exact ⟨t, by rw [threads_advance_self, hself]⟩
    · exact ⟨u, by rw [threads_advance_of_ne hut, hu]⟩

end State

end IndexSet.Concurrent
