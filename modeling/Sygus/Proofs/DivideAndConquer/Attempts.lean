import Sygus.Proofs.Chains
import Sygus.Proofs.DivideAndConquer.Exhaustion
import Sygus.Proofs.Sifting

/-!
# How often a run attempts to stitch

Before every attempt the sizes of the pools are reported, so a run's reports tell how many entries
there were for each of its attempts. Between two attempts some pool has grown, or else the flag is
up and there is no further attempt. And no pool outgrows the labels that there are for it. The
first attempt has an entry for each role, as both pools cover the examples by then. So the numbers
ascend between two bounds, and there are not many of them.
-/

namespace Sygus

open Relation (ReflTransGen)

/-- A pool has fewer entries than there are sets of examples, as no label is empty. -/
theorem Pool.Sifted.length_entries_lt {problem : Problem} {role : Role}
    {answers : List (Except Fault (Option Program))} {p : Pool}
    (h : p.Sifted problem role answers) :
    p.entries.length < 2 ^ problem.examples.length := by
  have hnil : [] ∉ p.entries.map (·.label) := fun hmem =>
    let ⟨e, he, hlabel⟩ := List.mem_map.mp hmem
    h.nonempty e he hlabel
  rw [← List.length_map]
  refine Role.length_labels_lt h.distinct hnil fun s hs => ?_
  obtain ⟨e, he, rfl⟩ := List.mem_map.mp hs
  exact (h.marks he).sublist

namespace DivideAndConquer

variable {c : Setting} {s s' : State} {r : Run} {pools : Pools} {role : Role} {fuel : Nat}
  {j : Journal} {g : Growth}

/-! ## The size of the pools -/

/-- The number of entries of both pools. -/
def Pools.size (pools : Pools) : Nat :=
  pools.expressions.entries.length + pools.predicates.entries.length

/-- Each pool is what is left of some answers of its source. -/
def Pools.Sifted (problem : Problem) (pools : Pools) : Prop :=
  ∀ role, ∃ answers, (pools.of role).Sifted problem role answers

theorem Pools.sifted_fresh (problem : Problem) (bound : Option Nat) :
    (Pools.fresh bound).Sifted problem := by
  intro role
  cases role <;> exact ⟨[], Pool.sifted_fresh _ _ _⟩

theorem Turn.sifted (h : Turn c s s') (hs : s.pools.Sifted c.problem) :
    s'.pools.Sifted c.problem :=
  Turn.preserves (P := fun role p => ∃ answers, p.Sifted c.problem role answers)
    (fun ⟨_, hp⟩ hg _ => ⟨_, hp.grow hg⟩) h hs

theorem Pools.Sifted.size_le (h : pools.Sifted c.problem) :
    pools.size + 2 ≤ 2 ^ (c.problem.examples.length + 1) := by
  obtain ⟨_, hexpressions⟩ := h .expression
  obtain ⟨_, hpredicates⟩ := h .predicate
  have hlt : pools.expressions.entries.length < 2 ^ c.problem.examples.length :=
    hexpressions.length_entries_lt
  have hlt' : pools.predicates.entries.length < 2 ^ c.problem.examples.length :=
    hpredicates.length_entries_lt
  rw [Pools.size, Nat.pow_succ]
  omega

/-- Pools that cover some examples have an entry each. -/
theorem Pools.Sifted.two_le_size (h : pools.Sifted c.problem) (hne : c.problem.examples ≠ [])
    (hcover : pools.Cover c) : 2 ≤ pools.size := by
  have hpos : ∀ role, (pools.of role).covers c.problem.examples.length = true →
      0 < (pools.of role).entries.length := by
    intro role hcovers
    obtain ⟨_, hsifted⟩ := h role
    obtain ⟨e, he, _⟩ := hsifted.covers_iff.mp hcovers 0 (List.length_pos_of_ne_nil hne)
    exact List.length_pos_of_mem he
  have hexpressions : 0 < pools.expressions.entries.length := hpos .expression hcover.1
  have hpredicates : 0 < pools.predicates.entries.length := hpos .predicate hcover.2
  rw [Pools.size]
  omega

theorem Pools.size_set_add (pools : Pools) (p : Pool) (role : Role) :
    (pools.set p role).size + (pools.of role).entries.length = pools.size + p.entries.length := by
  cases role <;> simp only [size, set, of] <;> omega

/-- With a pool that has grown there is one entry more. -/
theorem Pools.size_set_of_grew (h : (pools.of role).grow c.problem c.stop fuel j = some g)
    (hgrew : g.grew = .ok true) : (pools.set g.pool role).size = pools.size + 1 := by
  have hsize := pools.size_set_add g.pool role
  rcases Pool.grow_entries h with ⟨hnot, _⟩ | ⟨_, e, heq, _⟩
  · exact absurd hgrew hnot
  · rw [heq, List.length_append, List.length_singleton] at hsize
    omega

/-- With a pool that has not grown there are as many entries. -/
theorem Pools.size_set_of_not_grew (h : (pools.of role).grow c.problem c.stop fuel j = some g)
    (hgrew : g.grew ≠ .ok true) : (pools.set g.pool role).size = pools.size := by
  have hsize := pools.size_set_add g.pool role
  rcases Pool.grow_entries h with ⟨_, heq⟩ | ⟨hgrown, _⟩
  · rw [heq] at hsize
    omega
  · exact absurd hgrown hgrew

theorem Pools.size_le_set (h : (pools.of role).grow c.problem c.stop fuel j = some g) :
    pools.size ≤ (pools.set g.pool role).size := by
  by_cases hgrew : g.grew = .ok true
  · rw [size_set_of_grew h hgrew]
    exact Nat.le_succ _
  · rw [size_set_of_not_grew h hgrew]

theorem Pools.size_le_growToCover (h : growToCover c fuel (pools.of role) j = some g) :
    pools.size ≤ (pools.set g.pool role).size := by
  rcases growToCover_cases h with ⟨_, rfl⟩ | ⟨_, hgrow⟩
  · exact (Nat.add_right_cancel (pools.size_set_add (pools.of role) role)).ge
  · exact size_le_set hgrow

/-! ## The attempts of a run -/

/-- The numbers of entries that the attempts had before them, in order. -/
def attempts (events : List Event) : List Nat :=
  events.filterMap fun
    | .stitching expressions predicates => some (expressions + predicates)
    | _ => none

theorem attempts_append (events events' : List Event) :
    attempts (events ++ events') = attempts events ++ attempts events' :=
  List.filterMap_append

/-- To grow a pool is no attempt. -/
theorem attempts_of_grow {problem : Problem} {stop : Stop} {p : Pool}
    (h : p.grow problem stop fuel j = some g) :
    attempts g.journal.events = attempts j.events := by
  rcases Pool.grow_events h with heq | ⟨program, s, heq⟩
  · rw [heq]
  · rw [heq, attempts_append]
    exact List.append_nil _

theorem attempts_of_growToCover {p : Pool} (h : growToCover c fuel p j = some g) :
    attempts g.journal.events = attempts j.events := by
  rcases growToCover_cases h with ⟨_, rfl⟩ | ⟨_, hgrow⟩
  · rfl
  · exact attempts_of_grow hgrow

theorem attempts_attemptJournal (pools : Pools) (j : Journal) :
    attempts (attemptJournal pools j).events = attempts j.events ++ [pools.size] :=
  attempts_append _ _

/-- The pools have grown since the last attempt, if there has been one and there will be another. -/
def State.Risen (c : Setting) (s : State) : Prop :=
  match s.stage with
  | .first | .covering _ | .growingPredicates true => True
  | .attempting => c.stop.isRaised s.journal = false
  | .searching | .growing | .growingPredicates false => False

/-- What the attempts up to a state have had before them. -/
structure State.Counted (c : Setting) (s : State) : Prop where
  sifted : s.pools.Sifted c.problem
  /-- Once both pools cover the examples there is an entry in each of them. -/
  filled : ¬ s.stage.Early → 2 ≤ s.pools.size
  ascending : (attempts s.journal.events).Pairwise (· < ·)
  two_le : ∀ n ∈ attempts s.journal.events, 2 ≤ n
  le_size : ∀ n ∈ attempts s.journal.events, n ≤ s.pools.size
  lt_size : s.Risen c → ∀ n ∈ attempts s.journal.events, n < s.pools.size

theorem counted_initial (c : Setting) (bound : Option Nat) : (State.initial c bound).Counted c where
  sifted := Pools.sifted_fresh _ _
  filled := by
    intro hlate
    refine absurd ?_ hlate
    unfold State.initial
    dsimp only
    split <;> trivial
  ascending := .nil
  two_le := nofun
  le_size := nofun
  lt_size := fun _ => nofun

/-- While no attempt is made and no entry goes, what has been counted stays. -/
theorem State.Counted.mono (hs : s.Counted c) (hsifted : s'.pools.Sifted c.problem)
    (hattempts : attempts s'.journal.events = attempts s.journal.events)
    (hsize : s.pools.size ≤ s'.pools.size) (hfilled : ¬ s'.stage.Early → 2 ≤ s'.pools.size)
    (hrisen : s'.Risen c → s.Risen c ∨ s.pools.size < s'.pools.size) : s'.Counted c where
  sifted := hsifted
  filled := hfilled
  ascending := hattempts ▸ hs.ascending
  two_le := hattempts ▸ hs.two_le
  le_size := by
    rw [hattempts]
    exact fun n hn => (hs.le_size n hn).trans hsize
  lt_size := by
    rw [hattempts]
    intro hrisen' n hn
    rcases hrisen hrisen' with hold | hgrown
    · exact (hs.lt_size hold n hn).trans_le hsize
    · exact (hs.le_size n hn).trans_lt hgrown

/-- **A turn makes no attempt, or one with more entries than all before it.** -/
theorem Turn.counted (h : Turn c s s') (hne : c.problem.examples ≠ []) (hs : s.Counted c) :
    s'.Counted c := by
  have hsifted := h.sifted hs.sifted
  cases h with
  | covered hcover =>
      exact hs.mono hsifted rfl le_rfl (fun _ => hs.sifted.two_le_size hne hcover)
        (fun _ => Or.inl trivial)
  | covers _ hgrow _ =>
      exact hs.mono hsifted (attempts_of_growToCover hgrow) (Pools.size_le_growToCover hgrow)
        (fun hlate => absurd trivial hlate) (fun _ => Or.inl trivial)
  | @announced pools j hdown =>
      have hlt := hs.lt_size hdown
      have hattempts : attempts (attemptJournal pools j.polled).events
          = attempts j.events ++ [pools.size] := attempts_attemptJournal pools j.polled
      refine ⟨hsifted, hs.filled, ?_, ?_, ?_, False.elim⟩
      · rw [hattempts, List.pairwise_append]
        exact ⟨hs.ascending, List.pairwise_singleton _ _, by simpa using hlt⟩
      · rw [hattempts, List.forall_mem_append]
        exact ⟨hs.two_le, List.forall_mem_singleton.mpr (hs.filled id)⟩
      · rw [hattempts, List.forall_mem_append]
        exact ⟨hs.le_size, List.forall_mem_singleton.mpr le_rfl⟩
  | failed hsearch =>
      exact hs.mono hsifted (congrArg attempts (search_events hsearch)) le_rfl hs.filled False.elim
  | @grew pools j fuel g grewExpression hgrow hgrew =>
      have hsize : pools.size ≤ (pools.set g.pool .expression).size := Pools.size_le_set hgrow
      refine hs.mono hsifted (attempts_of_grow hgrow) hsize
        (fun _ => (hs.filled id).trans hsize) fun hrisen => Or.inr ?_
      cases grewExpression with
      | false => exact hrisen.elim
      | true =>
          have hgrown : (pools.set g.pool .expression).size = pools.size + 1 :=
            Pools.size_set_of_grew hgrow hgrew
          exact hgrown ▸ Nat.lt_succ_self _
  | @again pools j fuel g grewExpression grewPredicate hgrow hgrew hany =>
      have hsize : pools.size ≤ (pools.set g.pool .predicate).size := Pools.size_le_set hgrow
      refine hs.mono hsifted (attempts_of_grow hgrow) hsize
        (fun _ => (hs.filled id).trans hsize) fun _ => ?_
      -- one of the two pools has grown, the expressions before this turn or the predicates in it
      cases grewExpression with
      | true => exact Or.inl trivial
      | false =>
          rw [Bool.false_or] at hany
          subst hany
          have hgrown : (pools.set g.pool .predicate).size = pools.size + 1 :=
            Pools.size_set_of_grew hgrow hgrew
          exact Or.inr (hgrown ▸ Nat.lt_succ_self _)
  | @stopped pools j fuel g hgrow hgrew hraised =>
      have hsize : pools.size ≤ (pools.set g.pool .predicate).size := Pools.size_le_set hgrow
      refine hs.mono hsifted (attempts_of_grow hgrow) hsize
        (fun _ => (hs.filled id).trans hsize) fun hdown => ?_
      -- the flag is up, so there will be no other attempt
      have hdown' : c.stop.isRaised g.journal.polled = false := hdown
      rw [Stop.isRaised_polled hraised] at hdown'
      cases hdown'

/-- An ending makes no attempt. -/
theorem Ending.attempts_eq (h : Ending c s r) :
    attempts r.journal.events = attempts s.journal.events := by
  have hreport : ∀ (j : Journal) (e : Event), (∀ m n, e ≠ .stitching m n) →
      attempts (j.report e).events = attempts j.events := by
    intro j e he
    refine (attempts_append _ _).trans ?_
    cases e with
    | stitching m n => exact absurd rfl (he m n)
    | _ => exact List.append_nil _
  cases h with
  | first hpull => exact congrArg attempts (Enumerator.next_events hpull)
  | faultyCovering _ hgrow _ => exact attempts_of_growToCover hgrow
  | fallsShort _ hgrow _ => exact (hreport _ _ (by simp)).trans (attempts_of_growToCover hgrow)
  | cancelled _ => exact hreport _ _ (by simp)
  | concluded hsearch =>
      refine Eq.trans ?_ (congrArg attempts (search_events hsearch))
      unfold conclude
      split
      · rfl
      · exact hreport _ _ (by simp)
      · exact hreport _ _ (by simp)
  | faultyExpression hgrow _ => exact attempts_of_grow hgrow
  | faultyPredicate hgrow _ => exact attempts_of_grow hgrow
  | bothDry hgrow _ _ => exact (hreport _ _ (by simp)).trans (attempts_of_grow hgrow)

/-- Ascending numbers between bounds are no more than there are between them. -/
theorem length_le_of_ascending {ns : List Nat} {m : Nat} (h : ns.Pairwise (· < ·))
    (hlow : ∀ n ∈ ns, 2 ≤ n) (hhigh : ∀ n ∈ ns, n + 2 ≤ m) : ns.length ≤ m - 3 := by
  have hnodup : ns.Nodup := h.imp Nat.ne_of_lt
  have hsub : ns ⊆ List.range' 2 (m - 3) := by
    intro n hn
    have hlow' := hlow n hn
    have hhigh' := hhigh n hn
    exact List.mem_range'_1.mpr ⟨hlow', by omega⟩
  have hle := (hnodup.subperm hsub).length_le
  rwa [List.length_range'] at hle

/-- **There are fewer attempts than there could be entries.** -/
theorem State.Counted.length_attempts_le (hs : s.Counted c) :
    (attempts s.journal.events).length ≤ 2 ^ (c.problem.examples.length + 1) - 3 := by
  have hsize := hs.sifted.size_le
  refine length_le_of_ascending hs.ascending hs.two_le fun n hn => ?_
  have hle := hs.le_size n hn
  omega

end DivideAndConquer

end Sygus
