import Mathlib.Logic.Relation
import Sygus.Proofs.Stopping
import Sygus.Search.Problem

/-!
# Machines that can be stopped

Searches run in turns until they come to an ending, and a stop flag shows in both. What a flag may
do to one turn and to one ending is said in `Stoppable`. It follows for a whole run
(`Stoppable.outcome`) that its turns are those of an undisturbed run up to some moment, and that
from then on the flag is up: the run has the same outcome as without a flag, or it ends with
nothing.

Up to that moment nothing has been reported that an undisturbed run does not report. A flag that
waits for a number of reports has heard them all by then.
-/

namespace Sygus

open Relation (ReflTransGen)

/-- A search, taken apart into turns and endings. -/
structure Machine (σ : Type) where
  initial : σ
  journal : σ → Journal
  /-- A turn after which the run goes on. -/
  turn : Stop → σ → σ → Prop
  /-- A way in which the run ends. -/
  ending : Stop → σ → Run → Prop

namespace Machine

variable {σ : Type} {M : Machine σ} {stop : Stop} {s s' : σ} {r r₀ : Run}

/-- The states that a run comes by. -/
def Reaches (M : Machine σ) (stop : Stop) (s : σ) : Prop := ReflTransGen (M.turn stop) M.initial s

/-- The outcomes that a run can have. -/
def Yields (M : Machine σ) (stop : Stop) (r : Run) : Prop :=
  ∃ s, M.Reaches stop s ∧ M.ending stop s r

/-- At some moment of an undisturbed run, this is what it has reported. -/
def Reports (M : Machine σ) (events : List Event) : Prop :=
  ∃ s, M.Reaches .never s ∧ (M.journal s).events = events

/-- What a flag may do to turns and endings. -/
structure Stoppable (M : Machine σ) : Prop where
  begins : M.journal M.initial = .empty
  deterministic : ∀ {stop s s' s''}, M.turn stop s s' → M.turn stop s s'' → s' = s''
  no_turn : ∀ {stop s s' r}, M.ending stop s r → ¬ M.turn stop s s'
  /-- A turn is undisturbed, or it leaves the flag up without a report. -/
  turn_never : ∀ {stop s s'}, M.turn stop s s' → M.turn .never s s'
    ∨ (stop.isRaised (M.journal s') = true ∧ stop.Heard (M.journal s))
  turn_raised : ∀ {stop s s'}, M.turn stop s s' → stop.isRaised (M.journal s) = true →
    stop.isRaised (M.journal s') = true
  turn_events : ∀ {stop s s'}, M.turn stop s s' → (M.journal s).events <+: (M.journal s').events
  /-- An ending is undisturbed, or it comes from the flag and gives nothing. -/
  ending_never : ∀ {stop s r}, M.ending stop s r → M.ending .never s r
    ∨ (r.result = .ok none ∧ stop.Heard (M.journal s))
  ending_raised : ∀ {stop s r}, M.ending stop s r → stop.isRaised (M.journal s) = true →
    r.result = .ok none
  ending_events : ∀ {stop s r}, M.ending stop s r → (M.journal s).events <+: r.journal.events
  /-- If the flag is up before the start, the run ends. -/
  initial_raised : ∀ {stop : Stop}, stop.isRaised .empty = true → ∃ r, M.Yields stop r

namespace Stoppable

/-- A state is undisturbed, or the flag is up and the run has gone through an undisturbed state
in which it has made the reports that the flag waits for. -/
theorem reaches (hM : M.Stoppable) (h : M.Reaches stop s) :
    M.Reaches .never s ∨ (stop.isRaised (M.journal s) = true
      ∧ ∃ s₁, M.Reaches .never s₁ ∧ stop.Heard (M.journal s₁)
        ∧ (M.journal s₁).events <+: (M.journal s).events) := by
  induction h with
  | refl => exact Or.inl .refl
  | @tail s s' _ hturn ih =>
      rcases ih with hcalm | ⟨hraised, s₁, hs₁, hheard, hevents⟩
      · rcases hM.turn_never hturn with hnever | ⟨hraised, hheard⟩
        · exact Or.inl (hcalm.tail hnever)
        · exact Or.inr ⟨hraised, s, hcalm, hheard, hM.turn_events hturn⟩
      · exact Or.inr ⟨hM.turn_raised hturn hraised, s₁, hs₁, hheard,
          hevents.trans (hM.turn_events hturn)⟩

/-- **A run has the outcome that it has without a flag, or it ends with nothing.** -/
theorem outcome (hM : M.Stoppable) (h : M.Yields stop r) :
    M.Yields .never r ∨ (r.result = .ok none
      ∧ ∃ s₁, M.Reaches .never s₁ ∧ stop.Heard (M.journal s₁)
        ∧ (M.journal s₁).events <+: r.journal.events) := by
  obtain ⟨s, hs, hend⟩ := h
  rcases hM.reaches hs with hcalm | ⟨hraised, s₁, hs₁, hheard, hevents⟩
  · rcases hM.ending_never hend with hnever | ⟨hnone, hheard⟩
    · exact Or.inl ⟨s, hcalm, hnever⟩
    · exact Or.inr ⟨hnone, s, hcalm, hheard, hM.ending_events hend⟩
  · exact Or.inr ⟨hM.ending_raised hend hraised, s₁, hs₁, hheard,
      hevents.trans (hM.ending_events hend)⟩

/-- With the flag up before the start, a run gives nothing. -/
theorem result_of_raised (hM : M.Stoppable) (hraised : stop.isRaised .empty = true)
    (h : M.Yields stop r) : r.result = .ok none := by
  obtain ⟨s, hs, hend⟩ := h
  have hup : stop.isRaised (M.journal s) = true := by
    clear hend
    induction hs with
    | refl => rwa [hM.begins]
    | tail _ hturn ih => exact hM.turn_raised hturn ih
  exact hM.ending_raised hend hup

theorem events_of_turns (hM : M.Stoppable) (h : ReflTransGen (M.turn stop) s s') :
    (M.journal s).events <+: (M.journal s').events := by
  induction h with
  | refl => exact List.prefix_refl _
  | tail _ hturn ih => exact ih.trans (hM.turn_events hturn)

/-- What has been reported at some moment is reported first. -/
theorem events_prefix (hM : M.Stoppable) (hs : M.Reaches stop s) (hr : M.Yields stop r) :
    (M.journal s).events <+: r.journal.events := by
  obtain ⟨s', hs', hend⟩ := hr
  have hlast := hM.ending_events hend
  -- there is but one way to go on, and none after an ending
  have hunique : Relator.RightUnique (M.turn stop) := fun _ _ _ h h' => hM.deterministic h h'
  rcases ReflTransGen.total_of_right_unique hunique hs hs' with hbefore | hafter
  · exact (hM.events_of_turns hbefore).trans hlast
  · rcases ReflTransGen.cases_head hafter with rfl | ⟨_, hturn, _⟩
    · exact hlast
    · exact absurd hturn (hM.no_turn hend)

end Stoppable

/-- A function that computes what a machine yields, given enough fuel. -/
structure ComputedBy (M : Machine σ) (run : Stop → Nat → Option Run) : Prop where
  yields : ∀ {stop fuel r}, run stop fuel = some r → M.Yields stop r
  exists_fuel : ∀ {stop r}, M.Yields stop r → ∃ fuel₀, ∀ fuel ≥ fuel₀, run stop fuel = some r

variable {run : Stop → Nat → Option Run} {fuel fuel₀ n : Nat}

theorem ComputedBy.eq_of_yields (hrun : M.ComputedBy run) (h : M.Yields stop r)
    (h₀ : M.Yields stop r₀) : r = r₀ := by
  obtain ⟨fuel, hfuel⟩ := hrun.exists_fuel h
  obtain ⟨fuel₀, hfuel₀⟩ := hrun.exists_fuel h₀
  have heq := (hfuel (max fuel fuel₀) (Nat.le_max_left _ _)).symm.trans
    (hfuel₀ (max fuel fuel₀) (Nat.le_max_right _ _))
  exact Option.some.inj heq

namespace Stoppable

/-- A run that is stopped ends with nothing, or as it would have ended anyway. -/
theorem none_or_same (hM : M.Stoppable) (hrun : M.ComputedBy run)
    (h : run stop fuel = some r) :
    r.result = .ok none ∨ ∃ fuel₀, ∀ fuel ≥ fuel₀, run .never fuel = some r := by
  rcases hM.outcome (hrun.yields h) with hsame | ⟨hnone, _⟩
  · exact Or.inr (hrun.exists_fuel hsame)
  · exact Or.inl hnone

/-- A run that is stopped before the start ends with nothing. -/
theorem none_of_raised (hM : M.Stoppable) (hrun : M.ComputedBy run)
    (hraised : stop.isRaised .empty = true) :
    ∃ fuel₀ r, (∀ fuel ≥ fuel₀, run stop fuel = some r) ∧ r.result = .ok none := by
  obtain ⟨r, hr⟩ := hM.initial_raised hraised
  obtain ⟨fuel₀, hfuel⟩ := hrun.exists_fuel hr
  exact ⟨fuel₀, r, hfuel, hM.result_of_raised hraised hr⟩

/-- A run whose flag goes up with the report number `n` has made `n` reports of an undisturbed run,
or it has ended as an undisturbed run ends. -/
theorem reports_or_same (hM : M.Stoppable) (hrun : M.ComputedBy run)
    (h : run (.atEvent n) fuel = some r) :
    (∃ fuel₀, ∀ fuel ≥ fuel₀, run .never fuel = some r)
      ∨ ∃ events, M.Reports events ∧ n ≤ events.length
        ∧ r.journal.events.take n = events.take n := by
  rcases hM.outcome (hrun.yields h) with hsame | ⟨_, s, hs, hheard, hevents⟩
  · exact Or.inl (hrun.exists_fuel hsame)
  · refine Or.inr ⟨_, ⟨s, hs, rfl⟩, hheard n rfl, ?_⟩
    obtain ⟨rest, hrest⟩ := hevents
    rw [← hrest, List.take_append_of_le_length (hheard n rfl)]

/-- If the undisturbed run ends, these are the reports that it begins with. -/
theorem take_events_eq (hM : M.Stoppable) (hrun : M.ComputedBy run)
    (h : run (.atEvent n) fuel = some r) (h₀ : run .never fuel₀ = some r₀) :
    r.journal.events.take n = r₀.journal.events.take n := by
  rcases hM.outcome (hrun.yields h) with hsame | ⟨_, s, hs, hheard, hevents⟩
  · rw [hrun.eq_of_yields hsame (hrun.yields h₀)]
  · obtain ⟨rest, hrest⟩ := hevents
    obtain ⟨rest₀, hrest₀⟩ := hM.events_prefix hs (hrun.yields h₀)
    rw [← hrest, ← hrest₀, List.take_append_of_le_length (hheard n rfl),
      List.take_append_of_le_length (hheard n rfl)]

end Stoppable

end Machine

end Sygus
