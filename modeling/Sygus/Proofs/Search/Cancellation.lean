import Sygus.Proofs.Machines
import Sygus.Proofs.Search.Turns

/-!
# Stopping a breadth-first search

A breadth-first search looks at the flag before every turn and ends if it is up. So every turn
that it makes is undisturbed, and only the ending can come from the flag.
-/

namespace Sygus.BreadthFirst

variable {m : Manner} {problem : Problem} {bound : Option Nat} {stop : Stop} {s s' s'' : State}
  {r : Run}

/-- A breadth-first search as a machine. -/
def machine (m : Manner) (problem : Problem) (bound : Option Nat) : Machine State where
  initial := .initial problem.grammar
  journal := State.journal
  turn := Turn m problem bound
  ending := Ending m problem

/-- There is but one turn to make. -/
theorem Turn.deterministic (h : Turn m problem bound stop s s')
    (h' : Turn m problem bound stop s s'') : s' = s'' := by
  have hpop : ∀ {t t' : Term} {rest rest' : Frontier}, s.frontier.pop? = some (t, rest) →
      s.frontier.pop? = some (t', rest') → t = t' ∧ rest = rest' :=
    fun hp hp' => Prod.mk.inj (Option.some.inj (hp.symm.trans hp'))
  cases h with
  | @refuted p _ hp _ _ =>
      cases h' with
      | refuted hp' _ _ =>
          obtain ⟨_, rfl⟩ := hpop hp hp'
          rfl
      | pruned hp' _ hpartial _ =>
          obtain ⟨rfl, _⟩ := hpop hp hp'
          exact absurd p.complete (by simp [hpartial])
      | expanded hp' _ hpartial _ _ =>
          obtain ⟨rfl, _⟩ := hpop hp hp'
          exact absurd p.complete (by simp [hpartial])
  | pruned hp _ hpartial hworth =>
      cases h' with
      | @refuted p _ hp' _ _ =>
          obtain ⟨rfl, _⟩ := hpop hp hp'
          exact absurd p.complete (by simp [hpartial])
      | pruned hp' _ _ _ =>
          obtain ⟨rfl, rfl⟩ := hpop hp hp'
          rfl
      | expanded hp' _ _ hworth' _ =>
          obtain ⟨rfl, _⟩ := hpop hp hp'
          cases hworth.symm.trans hworth'
  | expanded hp _ hpartial hworth hexp =>
      cases h' with
      | @refuted p _ hp' _ _ =>
          obtain ⟨rfl, _⟩ := hpop hp hp'
          exact absurd p.complete (by simp [hpartial])
      | pruned hp' _ _ hworth' =>
          obtain ⟨rfl, _⟩ := hpop hp hp'
          cases hworth.symm.trans hworth'
      | expanded hp' _ _ _ hexp' =>
          obtain ⟨rfl, rfl⟩ := hpop hp hp'
          cases hexp.symm.trans hexp'
          rfl

/-- A search that ends makes no turn: with fuel for one step it would do both. -/
theorem Ending.no_turn (h : Ending m problem stop s r) : ¬ Turn m problem bound stop s s' := by
  intro hturn
  have hends : search m problem bound stop 1 s = some r := h.search_eq bound 0
  rw [hturn.search_eq] at hends
  simp [search] at hends

theorem Turn.before (h : Turn m problem bound stop s s') : s.journal.Before s'.journal := by
  cases h with
  | refuted _ _ _ => exact .polled _
  | pruned _ _ _ _ => exact (Journal.Before.polled _).trans (.reportAll _ _)
  | expanded _ _ _ _ _ => exact (Journal.Before.polled _).trans (.reportAll _ _)

/-- No turn depends on the flag that was down when it was made. -/
theorem Turn.never (h : Turn m problem bound stop s s') : Turn m problem bound .never s s' := by
  cases h with
  | refuted hp _ hvalid => exact .refuted hp rfl hvalid
  | pruned hp _ hpartial hworth => exact .pruned hp rfl hpartial hworth
  | expanded hp _ hpartial hworth hexp => exact .expanded hp rfl hpartial hworth hexp

theorem Ending.before (h : Ending m problem stop s r) : s.journal.Before r.journal := by
  have hreport : ∀ e, s.journal.Before (s.journal.polled.report e) :=
    fun e => (Journal.Before.polled _).trans (.report _ e)
  cases h with
  | exhausted _ => exact .report _ _
  | stopped _ _ => exact hreport _
  | accepted _ _ _ => exact hreport _
  | faultyCandidate _ _ _ => exact .polled _
  | faultyVerdict _ _ _ _ => exact .polled _
  | faultyExpansion _ _ _ _ _ => exact (Journal.Before.polled _).trans (.reportAll _ _)

theorem Ending.never_or_none (h : Ending m problem stop s r) :
    Ending m problem .never s r ∨ (r.result = .ok none ∧ stop.Heard s.journal) := by
  cases h with
  | exhausted hempty => exact Or.inl (.exhausted hempty)
  | stopped _ hraised => exact Or.inr ⟨rfl, Stop.heard_of_isRaised hraised rfl⟩
  | accepted hp _ hvalid => exact Or.inl (.accepted hp rfl hvalid)
  | faultyCandidate hp _ hvalid => exact Or.inl (.faultyCandidate hp rfl hvalid)
  | faultyVerdict hp _ hpartial hworth => exact Or.inl (.faultyVerdict hp rfl hpartial hworth)
  | faultyExpansion hp _ hpartial hworth hexp =>
      exact Or.inl (.faultyExpansion hp rfl hpartial hworth hexp)

/-- Under a raised flag a search finds nothing. -/
theorem Ending.none_of_raised (h : Ending m problem stop s r)
    (hraised : stop.isRaised s.journal = true) : r.result = .ok none := by
  have hcalm : stop.isRaised s.journal ≠ false := by simp [hraised]
  cases h with
  | exhausted _ => rfl
  | stopped _ _ => rfl
  | accepted _ hdown _ => exact absurd hdown hcalm
  | faultyCandidate _ hdown _ => exact absurd hdown hcalm
  | faultyVerdict _ hdown _ _ => exact absurd hdown hcalm
  | faultyExpansion _ hdown _ _ _ => exact absurd hdown hcalm

/-- **A flag does to a breadth-first search what it may do.** -/
theorem stoppable (m : Manner) (problem : Problem) (bound : Option Nat) :
    (machine m problem bound).Stoppable where
  begins := rfl
  deterministic h h' := Turn.deterministic h h'
  no_turn h := Ending.no_turn h
  turn_never h := Or.inl (Turn.never h)
  turn_raised h hraised := (Turn.before h).isRaised hraised
  turn_events h := (Turn.before h).events
  ending_never h := Ending.never_or_none h
  ending_raised h hraised := Ending.none_of_raised h hraised
  ending_events h := (Ending.before h).events
  initial_raised hraised := ⟨_, _, .refl, .stopped rfl hraised⟩

/-- A search computes what its machine yields. -/
theorem computedBy (m : Manner) (problem : Problem) (bound : Option Nat) :
    (machine m problem bound).ComputedBy (run m problem bound) where
  yields h := exists_ending_of_search (P := fun s => (machine m problem bound).Reaches _ s)
    (fun hs hturn => hs.tail hturn) h .refl
  exists_fuel h := by
    obtain ⟨_, hs, hend⟩ := h
    exact exists_search_of_turns hs hend

end Sygus.BreadthFirst
