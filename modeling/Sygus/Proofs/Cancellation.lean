import Sygus.Proofs.DivideAndConquer.Cancellation
import Sygus.Proofs.Search.Cancellation
import Sygus.Strategy

/-!
# Stopping a run

Somebody who stops a run takes away its answer and changes nothing else: the answer to a run that is
stopped is nothing, or the one that it would have given anyway. The searches are stoppable machines,
so all of this has been proved for a single turn.
-/

namespace Sygus

namespace Settings

/-- The search under these settings as a machine. -/
def machine (settings : Settings) (problem : Problem) : (σ : Type) × Machine σ :=
  match settings.strategy with
  | .topDown => ⟨_, BreadthFirst.machine TopDown.manner problem settings.bound⟩
  | .divideAndConquer =>
    ⟨_, DivideAndConquer.machine problem settings.recalls settings.bound⟩
  | .constraintBased =>
    ⟨_, BreadthFirst.machine (ConstraintBased.manner problem.examples) problem settings.bound⟩

/-- At some moment of a run that is not stopped, this is what it has reported. -/
def Reports (settings : Settings) (problem : Problem) (events : List Event) : Prop :=
  (settings.machine problem).2.Reports events

variable (settings : Settings) (problem : Problem)

theorem stoppable : (settings.machine problem).2.Stoppable := by
  obtain ⟨strategy, recalls, bound⟩ := settings
  cases strategy with
  | topDown => exact BreadthFirst.stoppable _ _ _
  | divideAndConquer => exact DivideAndConquer.stoppable _ _ _
  | constraintBased => exact BreadthFirst.stoppable _ _ _

theorem computedBy : (settings.machine problem).2.ComputedBy (settings.run problem) := by
  obtain ⟨strategy, recalls, bound⟩ := settings
  cases strategy with
  | topDown => exact BreadthFirst.computedBy _ _ _
  | divideAndConquer => exact DivideAndConquer.computedBy _ _ _
  | constraintBased => exact BreadthFirst.computedBy _ _ _

end Settings

/--
**Stopping a run can only turn its outcome into nothing.**

Take any settings and any problem. Whenever the flag goes up, a run that ends has found nothing, or
it is the very run that ends without a flag. If the flag is up before the start, the run ends and
has found nothing. If the flag goes up with the report number `n`, the first `n` reports are those
of the run without a flag, be it one that ends or one that goes on for ever; unless that run ends
earlier, there are so many of them.
-/
theorem run_stopped_or_undisturbed (settings : Settings) (problem : Problem) :
    (∀ stop fuel r, settings.run problem stop fuel = some r →
        r.result = .ok none
          ∨ ∃ fuel₀, ∀ fuel' ≥ fuel₀, settings.run problem .never fuel' = some r)
      ∧ (∀ stop : Stop, stop.isRaised .empty = true →
        ∃ fuel₀ r, (∀ fuel ≥ fuel₀, settings.run problem stop fuel = some r)
          ∧ r.result = .ok none)
      ∧ ∀ n fuel r, settings.run problem (.atEvent n) fuel = some r →
        (∀ fuel₀ r₀, settings.run problem .never fuel₀ = some r₀ →
            r.journal.events.take n = r₀.journal.events.take n)
          ∧ ((∃ fuel₀, ∀ fuel' ≥ fuel₀, settings.run problem .never fuel' = some r)
            ∨ ∃ events, settings.Reports problem events ∧ n ≤ events.length
              ∧ r.journal.events.take n = events.take n) := by
  have hM := settings.stoppable problem
  have hrun := settings.computedBy problem
  refine ⟨?_, ?_, ?_⟩
  · intro stop fuel r h
    exact hM.none_or_same hrun h
  · intro stop hraised
    exact hM.none_of_raised hrun hraised
  · intro n fuel r h
    exact ⟨fun fuel₀ r₀ h₀ => hM.take_events_eq hrun h h₀, hM.reports_or_same hrun h⟩

/-- The run for the greater of two numbers finds a program. If it is stopped with its second report,
it finds nothing, and these two reports are the same. -/
theorem run_stopped_or_undisturbed_branching :
    ∃ r r₀, (⟨.divideAndConquer, true, none⟩ : Settings).run .branching (.atEvent 2) 100 = some r
      ∧ (⟨.divideAndConquer, true, none⟩ : Settings).run .branching .never 100 = some r₀
      ∧ r.result = .ok none ∧ (∃ p, r₀.result = .ok (some p)) ∧ 2 ≤ r.journal.events.length
      ∧ r.journal.events.take 2 = r₀.journal.events.take 2 :=
  ⟨_, _, rfl, rfl, rfl, ⟨_, rfl⟩, by decide,
    ((run_stopped_or_undisturbed ⟨.divideAndConquer, true, none⟩ .branching).2.2 2 100 _ rfl).1
      100 _ rfl⟩

end Sygus
