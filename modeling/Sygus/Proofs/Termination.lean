import Sygus.Proofs.DivideAndConquer.Totality
import Sygus.Proofs.Search.Turns
import Sygus.Proofs.Stopping
import Sygus.Proofs.Work
import Sygus.Strategy

/-!
# Bounded runs end

Whatever a run does, every round of its loops takes a term out of a frontier or ends the run.
Under a bound there is only so much work in a frontier, so there are only so many rounds. The work
is a matter of the grammar and the bound alone: examples, faults and the stop flag do not come
into it, and the same amount of fuel is enough for all of them.
-/

namespace Sygus

variable {d : Nat}

/-! ## Breadth-first searches -/

namespace BreadthFirst

variable {m : Manner} {problem : Problem} {stop : Stop} {s s' : State}

/-- **A bounded turn of a search lowers the work.** -/
theorem Turn.work_lt (h : Turn m problem (some d) stop s s') :
    s'.frontier.work problem.grammar d < s.frontier.work problem.grammar d := by
  cases h with
  | refuted hp _ _ => exact Frontier.work_lt_of_pop? hp
  | pruned hp _ _ _ => exact Frontier.work_lt_of_pop? hp
  | expanded hp _ _ _ hexp => exact Frontier.work_append_lt hp hexp

/-- **A bounded search ends.** -/
theorem exists_search {fuel : Nat} (h : s.frontier.work problem.grammar d < fuel) :
    ∃ run, search m problem (some d) stop fuel s = some run := by
  induction fuel generalizing s with
  | zero => omega
  | succ fuel ih =>
      rcases turn_or_ending m problem (some d) stop s with ⟨s', hturn⟩ | ⟨run, hend⟩
      · have hlt := hturn.work_lt
        rw [hturn.search_eq]
        exact ih (by omega)
      · exact ⟨run, hend.search_eq (some d) fuel⟩

end BreadthFirst

/-! ## Growing -/

namespace Pool

variable {problem : Problem} {stop : Stop}

/-- **A bounded attempt to grow ends.** -/
theorem exists_grow_of_work {fuel : Nat} {p : Pool} (hd : p.source.bound = some d)
    (hfuel : p.source.frontier.work problem.grammar d + 1 < fuel) (j : Journal) :
    ∃ g, p.grow problem stop fuel j = some g := by
  induction fuel generalizing p j with
  | zero => omega
  | succ fuel ih =>
      obtain ⟨pull, hpull⟩ : ∃ pull, p.source.next problem.grammar stop fuel j = some pull :=
        Enumerator.exists_next_of_work hd (by omega) j
      have hbound := (Enumerator.bound_of_next hpull).trans hd
      have hwork := Enumerator.work_of_next hpull hd
      rw [grow, hpull, Option.bind_eq_bind, Option.bind_some]
      obtain ⟨result, rest, journal⟩ := pull
      rcases result with fault | _ | program
      · exact ⟨_, rfl⟩
      · exact ⟨_, rfl⟩
      · dsimp only at hbound hwork ⊢
        have hlt := hwork.resolve_left (by simp)
        split
        · exact ⟨_, rfl⟩
        · split
          · -- the program is spurned, and there is less work left
            exact ih hbound (by dsimp only; omega) journal
          · exact ⟨_, rfl⟩

/-- What an attempt does to a bounded source: it makes no work, and less is left if the pool has
grown. -/
theorem work_of_grow {fuel : Nat} {p : Pool} {j : Journal} {g : Growth}
    (hd : p.source.bound = some d) (h : p.grow problem stop fuel j = some g) :
    g.pool.source.bound = some d
      ∧ g.pool.source.frontier.work problem.grammar d
        ≤ p.source.frontier.work problem.grammar d
      ∧ (g.grew = .ok true → g.pool.source.frontier.work problem.grammar d
        < p.source.frontier.work problem.grammar d) := by
  induction fuel generalizing p j with
  | zero => exact absurd h (by simp [grow])
  | succ fuel ih =>
      rw [grow, Option.bind_eq_bind, Option.bind_eq_some_iff] at h
      obtain ⟨pull, hpull, h⟩ := h
      have hbound := (Enumerator.bound_of_next hpull).trans hd
      have hle := Enumerator.work_le_of_next hpull hd
      have hwork := Enumerator.work_of_next hpull hd
      obtain ⟨result, rest, journal⟩ := pull
      rcases result with fault | _ | program
      · cases h
        exact ⟨hbound, hle, by simp⟩
      · cases h
        exact ⟨hbound, hle, by simp⟩
      · dsimp only at h hbound hle hwork
        have hlt := hwork.resolve_left (by simp)
        split at h
        · cases h
          exact ⟨hbound, hle, by simp⟩
        · split at h
          · obtain ⟨hbound', hle', hlt'⟩ := ih hbound h
            dsimp only at hle' hlt'
            exact ⟨hbound', by omega, fun hgrew => Nat.lt_trans (hlt' hgrew) hlt⟩
          · cases h
            exact ⟨hbound, hle, fun _ => hlt⟩

end Pool

/-! ## Divide and conquer -/

namespace DivideAndConquer

variable {c : Setting}

/-- The work that is left in the sources of both pools. -/
def Pools.work (g : Grammar) (d : Nat) (pools : Pools) : Nat :=
  pools.expressions.source.frontier.work g d + pools.predicates.source.frontier.work g d

/-- The sources of both pools keep to a bound. -/
structure Pools.Bounded (d : Nat) (pools : Pools) : Prop where
  expressions : pools.expressions.source.bound = some d
  predicates : pools.predicates.source.bound = some d

theorem Pools.bounded_fresh (d : Nat) : (Pools.fresh (some d)).Bounded d := ⟨rfl, rfl⟩

/-- Growing to cover ends. It makes no work, and less is left if the pool did not cover the
examples and has grown. -/
theorem exists_growToCover {fuel : Nat} {p : Pool} (hd : p.source.bound = some d)
    (hfuel : p.source.frontier.work c.problem.grammar d + 1 < fuel) (j : Journal) :
    ∃ g, growToCover c fuel p j = some g ∧ g.pool.source.bound = some d
      ∧ g.pool.source.frontier.work c.problem.grammar d
        ≤ p.source.frontier.work c.problem.grammar d
      ∧ (p.covers c.problem.examples.length = false → g.grew = .ok true →
        g.pool.source.frontier.work c.problem.grammar d
          < p.source.frontier.work c.problem.grammar d) := by
  cases hcovers : p.covers c.problem.examples.length with
  | true =>
      exact ⟨⟨.ok true, p, j⟩, by simp [growToCover, hcovers], hd, Nat.le_refl _, by simp⟩
  | false =>
      obtain ⟨g, hg⟩ : ∃ g, p.grow c.problem c.stop fuel j = some g :=
        Pool.exists_grow_of_work hd hfuel j
      obtain ⟨hbound, hle, hlt⟩ := Pool.work_of_grow hd hg
      exact ⟨g, by simpa [growToCover, hcovers] using hg, hbound, hle, fun _ => hlt⟩

/-- **The first phase of a bounded run ends,** and it makes no work. -/
theorem exists_cover {fuel : Nat} {pools : Pools} (hd : pools.Bounded d)
    (hfuel : pools.work c.problem.grammar d + 2 < fuel) (j : Journal) :
    ∃ phase, cover c fuel pools j = some phase
      ∧ ∀ pools' j', phase = .ready pools' j' → pools'.Bounded d
        ∧ pools'.work c.problem.grammar d ≤ pools.work c.problem.grammar d := by
  induction fuel generalizing pools j with
  | zero => omega
  | succ fuel ih =>
      unfold Pools.work at hfuel
      rw [cover]
      cases hboth : (pools.expressions.covers c.problem.examples.length
          && pools.predicates.covers c.problem.examples.length) with
      | true =>
          refine ⟨.ready pools j, rfl, ?_⟩
          intro pools' j' hready
          cases hready
          exact ⟨hd, Nat.le_refl _⟩
      | false =>
          have hfuel' : pools.expressions.source.frontier.work c.problem.grammar d + 1 < fuel
              ∧ pools.predicates.source.frontier.work c.problem.grammar d + 1 < fuel := by
            omega
          obtain ⟨e, he, hebound, hele, helt⟩ := exists_growToCover hd.expressions hfuel'.1 j
          obtain ⟨p, hp, hpbound, hple, hplt⟩ := exists_growToCover hd.predicates hfuel'.2 e.journal
          simp only [Bool.false_eq_true, if_false, Option.bind_eq_bind, he, Option.bind_some]
          rcases hegrew : e.grew with fault | _ | _
          · exact ⟨_, rfl, fun _ _ h => by cases h⟩
          · exact ⟨_, rfl, fun _ _ h => by cases h⟩
          · simp only [hp, Option.bind_some]
            rcases hpgrew : p.grew with fault | _ | _
            · exact ⟨_, rfl, fun _ _ h => by cases h⟩
            · exact ⟨_, rfl, fun _ _ h => by cases h⟩
            · -- one of the pools did not cover the examples, so less work is left
              have hlt : (⟨e.pool, p.pool⟩ : Pools).work c.problem.grammar d
                  < pools.work c.problem.grammar d := by
                unfold Pools.work
                dsimp only
                rcases Bool.and_eq_false_iff.mp hboth with hcovers | hcovers
                · have := helt hcovers hegrew
                  omega
                · have := hplt hcovers hpgrew
                  omega
              have hbounded : (⟨e.pool, p.pool⟩ : Pools).Bounded d := ⟨hebound, hpbound⟩
              obtain ⟨phase, hphase, hready⟩ :=
                ih hbounded (by unfold Pools.work at hlt ⊢; omega) p.journal
              refine ⟨phase, hphase, fun pools' j' heq => ?_⟩
              obtain ⟨hbounded, hle⟩ := hready pools' j' heq
              exact ⟨hbounded, Nat.le_trans hle (Nat.le_of_lt hlt)⟩

/-- **The second phase of a bounded run ends.** -/
theorem exists_conquer {fuel : Nat} {pools : Pools} (hd : pools.Bounded d)
    (hfuel : pools.work c.problem.grammar d + 2 < fuel) (j : Journal) :
    ∃ run, conquer c fuel pools j = some run := by
  induction fuel generalizing pools j with
  | zero => omega
  | succ fuel ih =>
      unfold Pools.work at hfuel
      rw [conquer]
      split
      · exact ⟨_, rfl⟩
      · rcases ha : attempt c pools j.polled with ⟨_ | tree, j'⟩
        · obtain ⟨e, he⟩ : ∃ e, pools.expressions.grow c.problem c.stop fuel j' = some e :=
            Pool.exists_grow_of_work hd.expressions (by omega) j'
          obtain ⟨p, hp⟩ : ∃ p, pools.predicates.grow c.problem c.stop fuel e.journal = some p :=
            Pool.exists_grow_of_work hd.predicates (by omega) e.journal
          obtain ⟨hebound, hele, helt⟩ := Pool.work_of_grow hd.expressions he
          obtain ⟨hpbound, hple, hplt⟩ := Pool.work_of_grow hd.predicates hp
          simp only [Option.bind_eq_bind, he, Option.bind_some]
          rcases hegrew : e.grew with fault | grewExpression
          · exact ⟨_, rfl⟩
          · simp only [hp, Option.bind_some]
            rcases hpgrew : p.grew with fault | grewPredicate
            · exact ⟨_, rfl⟩
            · dsimp only
              split
              · -- one of the pools has grown, so less work is left
                rename_i hany
                have hbounded : (⟨e.pool, p.pool⟩ : Pools).Bounded d := ⟨hebound, hpbound⟩
                refine ih hbounded ?_ p.journal
                unfold Pools.work
                dsimp only
                rcases Bool.or_eq_true_iff.mp hany with rfl | rfl
                · have := helt hegrew
                  omega
                · have := hplt hpgrew
                  omega
              · split
                · -- the flag is up, so the next round is the last one
                  rename_i hraised
                  obtain ⟨fuel, rfl⟩ : ∃ k, fuel = k + 1 := ⟨fuel - 1, by omega⟩
                  exact ⟨_, by rw [conquer, if_pos (Stop.isRaised_polled hraised)]⟩
                · exact ⟨_, rfl⟩
        · exact ⟨_, rfl⟩

/-- More fuel changes nothing about a run that ends. -/
theorem run_mono {problem : Problem} {recalls : Bool} {bound : Option Nat} {stop : Stop}
    {fuel fuel' : Nat} {r : Run} (h : run problem recalls bound stop fuel = some r)
    (hle : fuel ≤ fuel') : run problem recalls bound stop fuel' = some r := by
  rw [run_eq] at h ⊢
  dsimp only at h ⊢
  split
  · rename_i hnil
    rw [if_pos hnil] at h
    unfold firstExpression at h ⊢
    rw [Option.bind_eq_bind, Option.bind_eq_some_iff] at h ⊢
    obtain ⟨pull, hpull, h⟩ := h
    exact ⟨pull, Enumerator.next_mono hpull hle, h⟩
  · rename_i hne
    rw [if_neg hne, Option.bind_eq_some_iff] at h
    obtain ⟨phase, hphase, h⟩ := h
    rw [cover_mono hphase hle, Option.bind_some]
    cases phase with
    | ended run => exact h
    | ready pools j => exact conquer_mono h hle

/-- **A bounded run of divide and conquer ends.** -/
theorem exists_run {problem : Problem} {recalls : Bool} {stop : Stop} {fuel : Nat}
    (hfuel : (Pools.fresh (some d)).work problem.grammar d + 2 < fuel) :
    ∃ r, run problem recalls (some d) stop fuel = some r := by
  have hd := Pools.bounded_fresh d
  rw [run_eq]
  dsimp only
  split
  · obtain ⟨pull, hpull⟩ : ∃ pull, ((Enumerator.ofRole .expression).withBound (some d)).next
        problem.grammar stop fuel .empty = some pull := by
      refine Enumerator.exists_next_of_work rfl ?_ .empty
      unfold Pools.work at hfuel
      exact Nat.lt_of_le_of_lt (Nat.le_trans (Nat.le_add_right _ _) (Nat.le_add_right _ 2)) hfuel
    refine ⟨⟨pull.result, pull.journal⟩, ?_⟩
    unfold firstExpression Setting.of
    rw [hpull]
    rfl
  · obtain ⟨phase, hphase, hready⟩ :=
      exists_cover (c := .of problem recalls stop) hd hfuel .empty
    rw [hphase, Option.bind_some]
    cases phase with
    | ended run => exact ⟨run, rfl⟩
    | ready pools j =>
        obtain ⟨hbounded, hle⟩ := hready pools j rfl
        exact exists_conquer hbounded (Nat.lt_of_le_of_lt (Nat.add_le_add_right hle 2) hfuel) j

end DivideAndConquer

/-! ## All strategies -/

namespace Settings

/-- More fuel changes nothing about a run that ends. -/
theorem run_mono {settings : Settings} {problem : Problem} {stop : Stop} {fuel fuel' : Nat}
    {r : Run} (h : settings.run problem stop fuel = some r) (hle : fuel ≤ fuel') :
    settings.run problem stop fuel' = some r := by
  obtain ⟨strategy, recalls, bound⟩ := settings
  cases strategy with
  | topDown => exact BreadthFirst.search_mono h hle
  | divideAndConquer => exact DivideAndConquer.run_mono h hle
  | constraintBased => exact BreadthFirst.search_mono h hle

/-- So much fuel is enough for a run under a bound. -/
def fuelFor (g : Grammar) (d : Nat) : Nat :=
  (BreadthFirst.State.initial g).frontier.work g d
    + (DivideAndConquer.Pools.fresh (some d)).work g d + 3

/-- **A bounded run ends,** whatever the strategy. -/
theorem exists_run (strategy : Strategy) (recalls : Bool) (problem : Problem) (stop : Stop) :
    ∃ r, Settings.run ⟨strategy, recalls, some d⟩ problem stop (fuelFor problem.grammar d)
      = some r := by
  have hsearch : (BreadthFirst.State.initial problem.grammar).frontier.work problem.grammar d
      < fuelFor problem.grammar d := by
    unfold fuelFor
    omega
  cases strategy with
  | topDown => exact BreadthFirst.exists_search hsearch
  | divideAndConquer =>
      refine DivideAndConquer.exists_run ?_
      unfold fuelFor
      omega
  | constraintBased => exact BreadthFirst.exists_search hsearch

end Settings

/--
**A bound on depth makes everything end.**

Take any grammar and any bound. Whatever an enumerator's frontier holds when the bound is set, a
call ends, at whatever moment it may be stopped; and after finitely many calls the frontier is
empty, so that every further call says so at once. Runs of all strategies end too, within an
amount of fuel that is enough for all examples and for all moments at which the flag may go up.
-/
theorem bounded_runs_end (g : Grammar) (d : Nat) :
    (∀ e : Enumerator,
      (∃ fuel₀, ∀ stop j, ∃ pull, ∀ fuel ≥ fuel₀,
        (e.withBound (some d)).next g stop fuel j = some pull)
      ∧ ∃ n, ∀ answers e', Enumerator.Pulls g (e.withBound (some d)) answers e' →
        n ≤ answers.length → ∀ stop fuel j, e'.next g stop (fuel + 1) j = some ⟨.ok none, e', j⟩)
      ∧ ∃ fuel₀, ∀ (strategy : Strategy) (recalls : Bool) (examples : List Example) (stop : Stop),
        ∃ r, ∀ fuel ≥ fuel₀,
          Settings.run ⟨strategy, recalls, some d⟩ ⟨g, examples⟩ stop fuel = some r := by
  refine ⟨?_, ?_⟩
  · intro e
    refine ⟨⟨(e.withBound (some d)).frontier.work g d + 1, ?_⟩,
      (e.withBound (some d)).frontier.work g d, ?_⟩
    · intro stop j
      obtain ⟨pull, hpull⟩ : ∃ pull, (e.withBound (some d)).next g stop _ j = some pull :=
        Enumerator.exists_next_of_work rfl (Nat.lt_succ_self _) j
      exact ⟨pull, fun fuel hle => Enumerator.next_mono hpull hle⟩
    · intro answers e' hpulls hlength stop fuel j
      have hempty : e'.frontier.toList = [] := by
        rcases hpulls.work_add_length_le rfl with hempty | hle
        · exact hempty
        · -- as many calls as there was work have left nothing
          exact Frontier.work_eq_zero_iff (g := g) (d := d).mp (by omega)
      exact Enumerator.next_of_empty hempty fuel j
  · refine ⟨Settings.fuelFor g d, ?_⟩
    intro strategy recalls examples stop
    obtain ⟨r, hr⟩ := Settings.exists_run (d := d) strategy recalls ⟨g, examples⟩ stop
    exact ⟨r, fun fuel hle => Settings.run_mono hr hle⟩

end Sygus
