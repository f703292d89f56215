import Sygus.Proofs.DivideAndConquer.Attempts
import Sygus.Proofs.DivideAndConquer.SingleEntry
import Sygus.Proofs.Potential

/-!
# What keeps a run from ending

In every state a run makes a turn, ends, or is about to grow a pool and does not come back from
this one call (`exists_turn_or_ending`). Turns come to an end, because there is only so much
`room` in the pools: a round of the second phase has a fixed number of turns, and in the first
phase some pool grows at least with every other turn. So a run that never ends waits for a single
pool to grow.

A pool that does not come back is not stopped, and its source goes on for ever. Each stir is a visit
of the sweep that the source makes, and if the sweep were over after some number of visits, then
there would be no more stirs than that.
-/

namespace Sygus

open Relation (ReflTransGen)

/-! ## A pool that grows for ever -/

/-- Stirring ends if the sweep of the source does. -/
theorem Pool.acc_stir_of_queue_nil {problem : Problem} {bound : Option Nat} {k : Nat} {p : Pool}
    {w : Sweep} (hat : Enumerator.At bound w p.source)
    (h : ((Sweep.step problem.grammar bound)^[k] w).queue = []) :
    Acc (fun a b => Stir problem b a) p := by
  induction k generalizing p w with
  | zero =>
      -- the frontier is empty, and nothing comes out of it
      have hw : w.queue = [] := h
      have hempty : p.source.frontier.toList = [] := by rw [hat.frontier, hw, List.map_nil]
      have hpop := Frontier.pop?_eq_none_iff.mpr hempty
      refine Acc.intro _ fun p' hstir => ?_
      cases hstir with
      | turn hturn =>
          cases hturn with
          | expand hp _ _ => cases hpop.symm.trans hp
      | spurn hp _ _ => cases hpop.symm.trans hp
  | succ k ih =>
      rw [Function.iterate_succ_apply] at h
      refine Acc.intro _ fun p' hstir => ?_
      cases hstir with
      | @turn e hturn => exact ih (p := p.withSource e) (hat.of_turn hturn).1 h
      | @spurn program frontier s hp _ _ =>
          refine ih (p := p.withSource { p.source with frontier }) ?_ h
          rcases hat.of_ending (.handed hp) with ⟨_, hnone, _⟩ | ⟨hat', _⟩
          · cases hnone
          · exact hat'

/-- A sweep that is over stays so. -/
theorem Sweep.queue_iterate_of_nil {g : Grammar} {bound : Option Nat} {s : Symbol} {m n : Nat}
    (h : (after g bound s n).queue = []) :
    ((step g bound)^[n] (after g bound s m)).queue = [] := by
  unfold after at h ⊢
  rw [← Function.iterate_add_apply, Nat.add_comm, Function.iterate_add_apply,
    Function.iterate_fixed (step_eq_self h)]
  exact h

/-- **A pool that nobody has disturbed comes back from growing if its enumeration is finite.** -/
theorem Pool.Undisturbed.exists_grow {problem : Problem} {bound : Option Nat} {role : Role}
    {p : Pool} (h : p.Undisturbed problem bound role) {n : Nat}
    (hover : (Sweep.after problem.grammar bound role.symbol n).queue = []) (stop : Stop)
    (j : Journal) : ∃ fuel g, p.grow problem stop fuel j = some g := by
  obtain ⟨answers, hcalls, _⟩ := h
  obtain ⟨m, _, _, hat, _⟩ := (Enumerator.at_start role.symbol bound).of_calls hcalls
  exact Pool.exists_grow (acc_stir_of_queue_nil hat (Sweep.queue_iterate_of_nil (m := m) hover)) j

/-! ## A category without programs

Here the first pool of a run grows for ever. -/

/-- The only production is `E ::= Not(E)`. -/
def Problem.endless : Problem where
  grammar := ⟨"E", [⟨"E", "Not", [.nonTerminal "E"]⟩]⟩
  examples := [⟨.ofList [("x", 1)], 1⟩]

/-- A hole under so many negations. -/
def Term.negations : Nat → Term
  | 0 => .hole "E"
  | n + 1 => .op "Not" [negations n]

theorem Term.isComplete_negations (n : Nat) : (negations n).isComplete = false := by
  induction n with
  | zero => rfl
  | succ n ih => simp [negations, op, isComplete, allComplete, ih]

theorem Term.expand_negations (n : Nat) :
    (negations n).expand Problem.endless.grammar = .ok [negations (n + 1)] := by
  induction n with
  | zero => rfl
  | succ n ih =>
      rw [negations, op, expand, expandFirst?, isComplete_negations, if_neg Bool.false_ne_true, ih]
      rfl

/-- All that the pool has left is one hole under negations. -/
def Pool.Endless (p : Pool) : Prop :=
  p.source.bound = none ∧ ∃ n, p.source.frontier.toList = [.negations n]

theorem Pool.Endless.of_pop? {p : Pool} (h : p.Endless) {t : Term} {frontier : Frontier}
    (hp : p.source.frontier.pop? = some (t, frontier)) :
    ∃ n, t = .negations n ∧ frontier.toList = [] := by
  obtain ⟨_, n, hn⟩ := h
  rw [Frontier.toList_of_pop? hp, List.cons.injEq] at hn
  exact ⟨n, hn⟩

theorem Pool.Endless.not_program {p : Pool} (h : p.Endless) {program : Program}
    {frontier : Frontier} : p.source.frontier.pop? ≠ some (program.root, frontier) := by
  intro hp
  obtain ⟨n, hn, _⟩ := h.of_pop? hp
  have hpartial := Term.isComplete_negations n
  rw [← hn, program.complete] at hpartial
  cases hpartial

theorem Pool.Endless.stir {p p' : Pool} (h : p.Endless) (hstir : Stir .endless p p') :
    p'.Endless := by
  cases hstir with
  | turn hturn =>
      cases hturn with
      | expand hp _ hexp =>
          obtain ⟨n, rfl, hnil⟩ := h.of_pop? hp
          rw [Term.expand_negations] at hexp
          cases hexp
          refine ⟨h.1, n + 1, ?_⟩
          simp [Enumerator.toList_enqueue, hnil, h.1, Term.fits]
  | spurn hp _ _ => exact absurd hp h.not_program

/-- Such a pool does not come back from growing. -/
theorem Pool.Endless.grow_eq_none {p : Pool} (h : p.Endless) (fuel : Nat) (j : Journal) :
    p.grow .endless .never fuel j = none := by
  refine Option.eq_none_iff_forall_ne_some.mpr fun g hg => ?_
  obtain ⟨p', hstirs, hend⟩ := grow_cases hg
  have h' : p'.Endless := by
    clear hend
    induction hstirs with
    | refl => exact h
    | tail _ hstir ih => exact ih.stir hstir
  generalize g.grew = grew, g.pool = pool at hend
  cases hend with
  | dry hdry =>
      obtain ⟨_, n, hn⟩ := h'
      cases hdry.symm.trans hn
  | stopped hraised => cases hraised
  | took hp _ _ => exact h'.not_program hp
  | unexpandable hp _ hexp =>
      obtain ⟨n, rfl, _⟩ := h'.of_pop? hp
      cases (Term.expand_negations n).symm.trans hexp
  | unlabelled hp _ => exact h'.not_program hp

namespace DivideAndConquer

variable {c : Setting} {s s' : State} {r : Run} {pools pools' : Pools} {role : Role} {fuel : Nat}
  {j : Journal} {g : Growth}

/-! ## One more turn -/

/-- The run is about to grow the pool of a role. -/
inductive State.Grows (c : Setting) : State → Role → Prop where
  | covering {role : Role} {pools : Pools} {j : Journal} :
      (role = .expression → ¬ pools.Cover c) →
      (pools.of role).covers c.problem.examples.length = false →
      Grows c ⟨.covering role, pools, j⟩ role
  | growing {pools : Pools} {j : Journal} : Grows c ⟨.growing, pools, j⟩ .expression
  | growingPredicates {grewExpression : Bool} {pools : Pools} {j : Journal} :
      Grows c ⟨.growingPredicates grewExpression, pools, j⟩ .predicate

/-- The run does not come back from growing a pool. -/
structure State.Stuck (c : Setting) (s : State) (role : Role) : Prop where
  grows : s.Grows c role
  never : ∀ fuel, (s.pools.of role).grow c.problem c.stop fuel s.journal = none

/-- A pool comes back from growing or never does. -/
theorem exists_grow_or_never (c : Setting) (p : Pool) (j : Journal) :
    (∃ fuel g, p.grow c.problem c.stop fuel j = some g)
      ∨ ∀ fuel, p.grow c.problem c.stop fuel j = none := by
  by_cases h : ∃ fuel g, p.grow c.problem c.stop fuel j = some g
  · exact Or.inl h
  · refine Or.inr fun fuel => Option.eq_none_iff_forall_not_mem.mpr fun g hg => h ⟨fuel, g, hg⟩

/-- **A run makes a turn, ends, or is stuck.** -/
theorem exists_turn_or_ending (c : Setting) (s : State) (hfirst : s.stage ≠ .first) :
    (∃ s', Turn c s s') ∨ (∃ r, Ending c s r) ∨ ∃ role, s.Stuck c role := by
  obtain ⟨stage, pools, j⟩ := s
  cases stage with
  | first => exact absurd rfl hfirst
  | covering role =>
      by_cases hdone : role = .expression ∧ pools.Cover c
      · obtain ⟨rfl, hcover⟩ := hdone
        exact Or.inl ⟨_, .covered hcover⟩
      · have hcover : role = .expression → ¬ pools.Cover c := fun hrole hcover =>
          hdone ⟨hrole, hcover⟩
        cases hcovers : (pools.of role).covers c.problem.examples.length with
        | true =>
            have hgrow : growToCover c 0 (pools.of role) j = some ⟨.ok true, pools.of role, j⟩ :=
              if_pos hcovers
            exact Or.inl ⟨_, .covers hcover hgrow rfl⟩
        | false =>
            rcases exists_grow_or_never c (pools.of role) j with ⟨fuel, g, hg⟩ | hnever
            · have hgrow : growToCover c fuel (pools.of role) j = some g :=
                (if_neg (by simp [hcovers])).trans hg
              rcases hgrew : g.grew with fault | _ | _
              · exact Or.inr (Or.inl ⟨_, .faultyCovering hcover hgrow hgrew⟩)
              · exact Or.inr (Or.inl ⟨_, .fallsShort hcover hgrow hgrew⟩)
              · exact Or.inl ⟨_, .covers hcover hgrow hgrew⟩
            · exact Or.inr (Or.inr ⟨role, .covering hcover hcovers, hnever⟩)
  | attempting =>
      cases hraised : c.stop.isRaised j with
      | true => exact Or.inr (Or.inl ⟨_, .cancelled hraised⟩)
      | false => exact Or.inl ⟨_, .announced hraised⟩
  | searching =>
      rcases hsearch : search c pools j with ⟨_ | tree, j'⟩
      · exact Or.inl ⟨_, .failed hsearch⟩
      · exact Or.inr (Or.inl ⟨_, .concluded hsearch⟩)
  | growing =>
      rcases exists_grow_or_never c pools.expressions j with ⟨fuel, g, hg⟩ | hnever
      · rcases hgrew : g.grew with fault | grewExpression
        · exact Or.inr (Or.inl ⟨_, .faultyExpression hg hgrew⟩)
        · exact Or.inl ⟨_, .grew hg hgrew⟩
      · exact Or.inr (Or.inr ⟨.expression, .growing, hnever⟩)
  | growingPredicates grewExpression =>
      rcases exists_grow_or_never c pools.predicates j with ⟨fuel, g, hg⟩ | hnever
      · rcases hgrew : g.grew with fault | grewPredicate
        · exact Or.inr (Or.inl ⟨_, .faultyPredicate hg hgrew⟩)
        · cases hany : grewExpression || grewPredicate with
          | true => exact Or.inl ⟨_, .again hg hgrew hany⟩
          | false =>
              rw [Bool.or_eq_false_iff] at hany
              obtain ⟨rfl, rfl⟩ := hany
              cases hraised : c.stop.isRaised g.journal with
              | true => exact Or.inl ⟨_, .stopped hg hgrew hraised⟩
              | false => exact Or.inr (Or.inl ⟨_, .bothDry hg hgrew hraised⟩)
      · exact Or.inr (Or.inr ⟨.predicate, .growingPredicates, hnever⟩)

/-! ## No turns for ever -/

theorem Pools.Sifted.room_lt (h : pools'.Sifted c.problem) (hlt : pools.size < pools'.size) :
    pools'.room c < pools.room c := by
  have hsize := h.size_le
  rw [Nat.pow_succ] at hsize
  unfold Pools.room
  unfold Pools.size at hlt hsize
  omega

theorem Pools.room_le (h : pools.size ≤ pools'.size) : pools'.room c ≤ pools.room c :=
  Nat.sub_le_sub_left h _

/-- The turns of the first phase before a pool has to grow. -/
def Pools.lag (c : Setting) (pools : Pools) : Role → Nat
  | .expression =>
    if pools.expressions.covers c.problem.examples.length
      && !pools.predicates.covers c.problem.examples.length then 1 else 0
  | .predicate => if pools.predicates.covers c.problem.examples.length then 1 else 0

/-- A number that every turn lowers. A round of the second phase has four turns and grows some pool,
so the room in the pools counts five times there. Once the flag is up there is nothing left to do
at the beginning of a round. -/
def State.rank (c : Setting) (s : State) : Nat :=
  match s.stage with
  | .first => 0
  | .covering role => 10 * 2 ^ c.problem.examples.length + 5 + 2 * s.pools.room c + s.pools.lag c role
  | .growingPredicates true => 5 * s.pools.room c + 5
  | .attempting => if c.stop.isRaised s.journal then 0 else 5 * s.pools.room c + 4
  | .searching => 5 * s.pools.room c + 3
  | .growing => 5 * s.pools.room c + 2
  | .growingPredicates false => 5 * s.pools.room c + 1

theorem Pools.lag_le (c : Setting) (pools : Pools) (role : Role) : pools.lag c role ≤ 1 := by
  cases role <;> unfold lag <;> dsimp only <;> split <;> omega

theorem rank_attempting_le (c : Setting) (pools : Pools) (j : Journal) :
    State.rank c ⟨.attempting, pools, j⟩ ≤ 5 * pools.room c + 4 := by
  unfold State.rank
  dsimp only
  split <;> omega

/-- In the first phase a pool grows at least with every other turn. -/
theorem rank_covering_lt (hcover : role = .expression → ¬ pools.Cover c)
    (hsifted : (pools.set g.pool role).Sifted c.problem)
    (hgrow : growToCover c fuel (pools.of role) j = some g) (hgrew : g.grew = .ok true) :
    State.rank c ⟨.covering role.other, pools.set g.pool role, g.journal⟩
      < State.rank c ⟨.covering role, pools, j⟩ := by
  unfold State.rank
  dsimp only
  rcases growToCover_cases hgrow with ⟨hcovers, rfl⟩ | ⟨_, hgrow'⟩
  · -- the pool covers the examples and stays as it is, so the other one has to grow next
    have hset : pools.set (pools.of role) role = pools := by cases role <;> rfl
    have hlag : pools.lag c role.other < pools.lag c role := by
      cases role with
      | expression =>
          have hcovers' : pools.expressions.covers c.problem.examples.length = true := hcovers
          have hno : pools.predicates.covers c.problem.examples.length = false := by
            rw [Bool.eq_false_iff]
            exact fun hyes => hcover rfl ⟨hcovers', hyes⟩
          simp [Pools.lag, Role.other, hcovers', hno]
      | predicate =>
          have hcovers' : pools.predicates.covers c.problem.examples.length = true := hcovers
          simp [Pools.lag, Role.other, hcovers']
    rw [hset]
    omega
  · have hroom : (pools.set g.pool role).room c < pools.room c := by
      refine hsifted.room_lt ?_
      rw [Pools.size_set_of_grew hgrow' hgrew]
      exact Nat.lt_succ_self _
    have hlag := Pools.lag_le c (pools.set g.pool role) role.other
    omega

/-- **Every turn lowers the rank.** -/
theorem Turn.rank_lt (h : Turn c s s') (hs : s.pools.Sifted c.problem) : s'.rank c < s.rank c := by
  have hsifted := h.sifted hs
  cases h with
  | @covered pools j _ =>
      have hattempting := rank_attempting_le c pools j
      have hroom : pools.room c ≤ 2 * 2 ^ c.problem.examples.length := Nat.sub_le _ _
      refine hattempting.trans_lt ?_
      unfold State.rank
      dsimp only
      omega
  | covers hcover hgrow hgrew => exact rank_covering_lt hcover hsifted hgrow hgrew
  | announced hdown => simp [State.rank, hdown]
  | failed _ => exact Nat.lt_succ_self _
  | @grew pools j fuel g grewExpression hgrow hgrew =>
      unfold State.rank
      cases grewExpression with
      | true =>
          have hgrown : (pools.set g.pool .expression).size = pools.size + 1 :=
            Pools.size_set_of_grew hgrow hgrew
          have hroom : (pools.set g.pool .expression).room c < pools.room c :=
            hsifted.room_lt (hgrown ▸ Nat.lt_succ_self _)
          dsimp only
          omega
      | false =>
          have hroom : (pools.set g.pool .expression).room c ≤ pools.room c :=
            Pools.room_le (Pools.size_le_set hgrow)
          dsimp only
          omega
  | @again pools j fuel g grewExpression grewPredicate hgrow hgrew hany =>
      refine (rank_attempting_le c _ _).trans_lt ?_
      unfold State.rank
      cases grewExpression with
      | true =>
          have hroom : (pools.set g.pool .predicate).room c ≤ pools.room c :=
            Pools.room_le (Pools.size_le_set hgrow)
          dsimp only
          omega
      | false =>
          rw [Bool.false_or] at hany
          subst hany
          have hgrown : (pools.set g.pool .predicate).size = pools.size + 1 :=
            Pools.size_set_of_grew hgrow hgrew
          have hroom : (pools.set g.pool .predicate).room c < pools.room c :=
            hsifted.room_lt (hgrown ▸ Nat.lt_succ_self _)
          dsimp only
          omega
  | stopped _ _ hraised => simp [State.rank, Stop.isRaised_polled hraised]

/-! ## Runs -/

variable {problem : Problem} {recalls : Bool} {bound : Option Nat} {stop : Stop}

theorem counted_of_reaches (hne : problem.examples ≠ [])
    (h : (machine problem recalls bound).Reaches stop s) :
    s.Counted (.of problem recalls stop) := by
  have hne' : (Setting.of problem recalls stop).problem.examples ≠ [] :=
    mt examples_of_eq_nil_iff.mp hne
  induction h with
  | refl => exact counted_initial (.of problem recalls stop) bound
  | tail _ hturn ih => exact Turn.counted hturn hne' ih

/-- A run ends, or it comes to a state in which it is stuck. -/
theorem yields_or_stuck (hne : problem.examples ≠ [])
    (hs : (machine problem recalls bound).Reaches stop s) :
    (∃ r, (machine problem recalls bound).Yields stop r)
      ∨ ∃ s' role, (machine problem recalls bound).Reaches stop s'
        ∧ s'.Stuck (.of problem recalls stop) role := by
  induction hrank : s.rank (.of problem recalls stop) using Nat.strong_induction_on
    generalizing s with
  | _ rank ih =>
      rcases exists_turn_or_ending (.of problem recalls stop) s (stage_ne_first hne hs)
        with ⟨s', hturn⟩ | ⟨r, hend⟩ | ⟨role, hstuck⟩
      · exact ih _ (hrank ▸ hturn.rank_lt (counted_of_reaches hne hs).sifted) (hs.tail hturn) rfl
      · exact Or.inl ⟨r, s, hs, hend⟩
      · exact Or.inr ⟨s, role, hs, hstuck⟩

/-- **The enumeration that a run is stuck in never ends.** -/
theorem State.Stuck.queue_ne_nil (h : s.Stuck (.of problem recalls stop) role)
    (hs : (machine problem recalls bound).Reaches stop s) (n : Nat) :
    (Sweep.after problem.grammar bound role.symbol n).queue ≠ [] := by
  intro hover
  rcases (stoppable problem recalls bound).reaches hs with hcalm | ⟨hraised, _⟩
  · obtain ⟨fuel, g, hg⟩ := (undisturbed_of_reaches hcalm role).exists_grow hover stop s.journal
    cases (h.never fuel).symm.trans hg
  · -- a pool that finds the flag up comes back
    have hback : ∃ g, (s.pools.of role).grow (Setting.of problem recalls stop).problem stop 2
        s.journal = some g ∧ g.grew = .ok false := Pool.exists_grow_of_raised hraised _
    obtain ⟨g, hg, _⟩ := hback
    cases (h.never 2).symm.trans hg

/-- A round of the first phase does not come back if its first pool does not. -/
theorem cover_eq_none (hcover : ¬ pools.Cover c)
    (he : growToCover c fuel pools.expressions j = none) : cover c (fuel + 1) pools j = none := by
  rw [cover, if_neg (fun h => hcover (Pools.cover_iff.mpr h)), Option.bind_eq_bind, he,
    Option.bind_none]

/-- No run over `Problem.endless` ends. -/
theorem run_endless (fuel : Nat) : run .endless false none .never fuel = none := by
  rw [run_eq]
  dsimp only
  rw [if_neg nofun, Option.bind_eq_none_iff]
  intro phase hphase
  cases fuel with
  | zero => cases hphase
  | succ fuel =>
      have hnever : growToCover (.of .endless false .never) fuel (.fresh .expression none) .empty
          = none := Pool.Endless.grow_eq_none ⟨rfl, 0, rfl⟩ fuel .empty
      cases (cover_eq_none (fun h => absurd h.1 (by decide)) hnever).symm.trans hphase

/--
**A run cannot go on attempting for ever.**

Take a run with examples, under any bound, whether it recalls answers or not and whenever its flag
goes up. At every moment, and in the end, it has made fewer attempts than there could be entries,
and each of them had more entries before it than the one before. The search of an attempt is never
cut off: to allow it more depth changes nothing. So if the run does not end however much fuel it
gets, then it comes to a state in which it is about to grow one of its pools, this one call does
not come back, and the derivations from the category of its role never run out.
-/
theorem attempts_bounded (problem : Problem) (recalls : Bool) (bound : Option Nat)
    (stop : Stop) (hne : problem.examples ≠ []) :
    (∀ s, (machine problem recalls bound).Reaches stop s →
      (attempts s.journal.events).length ≤ 2 ^ (problem.examples.eraseDups.length + 1) - 3
        ∧ (attempts s.journal.events).Pairwise (· < ·))
    ∧ (∀ fuel r, run problem recalls bound stop fuel = some r →
      (attempts r.journal.events).length ≤ 2 ^ (problem.examples.eraseDups.length + 1) - 3
        ∧ (attempts r.journal.events).Pairwise (· < ·))
    ∧ (∀ (pools : Pools) (needed : ExampleSet) (depth : Nat), needed.length < depth →
      (pools.stitcher recalls stop).solve depth needed = (pools.stitcher recalls stop).unify needed)
    ∧ ((∀ fuel, run problem recalls bound stop fuel = none) →
      ∃ s role, (machine problem recalls bound).Reaches stop s
        ∧ s.Stuck (.of problem recalls stop) role
        ∧ ∀ n, (Sweep.after problem.grammar bound role.symbol n).queue ≠ []) := by
  have hattempts : ∀ s, (machine problem recalls bound).Reaches stop s →
      (attempts s.journal.events).length ≤ 2 ^ (problem.examples.eraseDups.length + 1) - 3
        ∧ (attempts s.journal.events).Pairwise (· < ·) := fun s hs =>
    have hcounted := counted_of_reaches hne hs
    ⟨hcounted.length_attempts_le, hcounted.ascending⟩
  refine ⟨hattempts, ?_, fun _ _ _ => Stitcher.solve_eq_unify, ?_⟩
  · intro fuel r h
    obtain ⟨s, hs, hend⟩ := run_cases h
    rw [hend.attempts_eq]
    exact hattempts s hs
  · intro hnever
    have hstart : (machine problem recalls bound).Reaches stop
        (machine problem recalls bound).initial := .refl
    rcases yields_or_stuck hne hstart with ⟨r, hr⟩ | ⟨s, role, hs, hstuck⟩
    · obtain ⟨fuel₀, hfuel⟩ := (computedBy problem recalls bound).exists_fuel hr
      cases (hnever fuel₀).symm.trans (hfuel fuel₀ le_rfl)
    · exact ⟨s, role, hs, hstuck, hstuck.queue_ne_nil hs⟩

/-- The attempts to stitch the examples of `Problem.branching` are five at most, and a run over
`Problem.endless` waits for its first pool. -/
theorem attempts_bounded_endless :
    (∀ fuel r, run .branching true none .never fuel = some r →
      (attempts r.journal.events).length ≤ 5 ∧ (attempts r.journal.events).Pairwise (· < ·))
    ∧ (∀ fuel, run .endless false none .never fuel = none)
    ∧ ∃ s role, (machine .endless false none).Reaches .never s
      ∧ s.Stuck (.of .endless false .never) role
      ∧ ∀ n, (Sweep.after Problem.endless.grammar none role.symbol n).queue ≠ [] := by
  obtain ⟨-, hbranching, -, -⟩ := attempts_bounded .branching true none .never nofun
  obtain ⟨-, -, -, hendless⟩ := attempts_bounded .endless false none .never nofun
  exact ⟨hbranching, run_endless, hendless run_endless⟩

end DivideAndConquer

end Sygus
