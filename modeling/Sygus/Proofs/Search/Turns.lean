import Sygus.Proofs.Enumeration
import Sygus.Search.BreadthFirst

/-!
# What a breadth-first search does

A search makes **turns** until it comes to an **ending**. Each of them says what the search does
next, and in every state there is one or the other. Only `Turn.search_eq` and
`Ending.search_eq` open the recursion of `search`: what is said of a search is said of a single
turn and of the endings.
-/

namespace Sygus.BreadthFirst

open Relation (ReflTransGen)

variable {m : Manner} {problem : Problem} {bound : Option Nat} {stop : Stop} {s s' : State}

/-- A turn after which the search goes on. -/
inductive Turn (m : Manner) (problem : Problem) (bound : Option Nat) (stop : Stop) (s : State) :
    State → Prop where
  /-- A candidate is not valid. -/
  | refuted {p : Program} {rest : Frontier} :
      s.frontier.pop? = some (p.root, rest) → stop.isRaised s.journal = false →
      p.isValid problem.examples = .ok false →
      Turn m problem bound stop s
        ⟨rest, { s.tally with tried := s.tally.tried + 1 }, s.journal.polled⟩
  /-- A partial term is not worth expanding. -/
  | pruned {t : Term} {rest : Frontier} :
      s.frontier.pop? = some (t, rest) → stop.isRaised s.journal = false →
      t.isComplete = false → m.worthwhile t = .ok false →
      Turn m problem bound stop s
        ⟨rest, { s.tally with pruned := s.tally.pruned + 1 },
          s.journal.polled.reportAll (m.remarks t)⟩
  /-- A partial term makes way for its expansions. -/
  | expanded {t : Term} {rest : Frontier} {terms : List Term} :
      s.frontier.pop? = some (t, rest) → stop.isRaised s.journal = false →
      t.isComplete = false → m.worthwhile t = .ok true → t.expand problem.grammar = .ok terms →
      Turn m problem bound stop s
        ⟨rest.append (terms.filter (·.fits bound)), s.tally,
          s.journal.polled.reportAll (m.remarks t)⟩

/-- The ways in which a search ends. -/
inductive Ending (m : Manner) (problem : Problem) (stop : Stop) (s : State) : Run → Prop where
  | exhausted : s.frontier.toList = [] →
      Ending m problem stop s ⟨.ok none, s.journal.report (m.exhausted s.tally)⟩
  | stopped {t : Term} {rest : Frontier} :
      s.frontier.pop? = some (t, rest) → stop.isRaised s.journal = true →
      Ending m problem stop s ⟨.ok none, s.journal.polled.report (m.cancelled s.tally)⟩
  | accepted {p : Program} {rest : Frontier} :
      s.frontier.pop? = some (p.root, rest) → stop.isRaised s.journal = false →
      p.isValid problem.examples = .ok true →
      Ending m problem stop s ⟨.ok (some p),
        s.journal.polled.report (m.accepted p { s.tally with tried := s.tally.tried + 1 })⟩
  | faultyCandidate {p : Program} {rest : Frontier} {fault : Fault} :
      s.frontier.pop? = some (p.root, rest) → stop.isRaised s.journal = false →
      p.isValid problem.examples = .error fault →
      Ending m problem stop s ⟨.error fault, s.journal.polled⟩
  | faultyVerdict {t : Term} {rest : Frontier} {fault : Fault} :
      s.frontier.pop? = some (t, rest) → stop.isRaised s.journal = false →
      t.isComplete = false → m.worthwhile t = .error fault →
      Ending m problem stop s ⟨.error fault, s.journal.polled⟩
  | faultyExpansion {t : Term} {rest : Frontier} {fault : Fault} :
      s.frontier.pop? = some (t, rest) → stop.isRaised s.journal = false →
      t.isComplete = false → m.worthwhile t = .ok true → t.expand problem.grammar = .error fault →
      Ending m problem stop s ⟨.error fault, s.journal.polled.reportAll (m.remarks t)⟩

/-- A search that finds a program has just taken it out of the frontier. -/
theorem Ending.exists_pop? {run : Run} {p : Program} (h : Ending m problem stop s run)
    (hfound : run.result = .ok (some p)) :
    ∃ rest, s.frontier.pop? = some (p.root, rest) ∧ p.isValid problem.examples = .ok true := by
  cases h with
  | accepted hp _ hvalid =>
      cases hfound
      exact ⟨_, hp, hvalid⟩
  | exhausted _ => cases hfound
  | stopped _ _ => cases hfound
  | faultyCandidate _ _ _ => cases hfound
  | faultyVerdict _ _ _ _ => cases hfound
  | faultyExpansion _ _ _ _ _ => cases hfound

/-- A search that makes a turn goes on from the state after it. -/
theorem Turn.search_eq (h : Turn m problem bound stop s s') (fuel : Nat) :
    search m problem bound stop (fuel + 1) s = search m problem bound stop fuel s' := by
  cases h with
  | @refuted p _ hp hraised hvalid => simp [search, hp, hraised, p.complete, hvalid]
  | pruned hp hraised hpartial hworth => simp [search, hp, hraised, hpartial, hworth]
  | expanded hp hraised hpartial hworth hexp =>
      simp [search, hp, hraised, hpartial, hworth, hexp]

/-- A search that comes to an ending ends there. -/
theorem Ending.search_eq {run : Run} (h : Ending m problem stop s run) (bound : Option Nat)
    (fuel : Nat) : search m problem bound stop (fuel + 1) s = some run := by
  cases h with
  | exhausted hempty => simp [search, Frontier.pop?_eq_none_iff.mpr hempty]
  | stopped hp hraised => simp [search, hp, hraised]
  | @accepted p _ hp hraised hvalid => simp [search, hp, hraised, p.complete, hvalid]
  | @faultyCandidate p _ _ hp hraised hvalid => simp [search, hp, hraised, p.complete, hvalid]
  | faultyVerdict hp hraised hpartial hworth => simp [search, hp, hraised, hpartial, hworth]
  | faultyExpansion hp hraised hpartial hworth hexp =>
      simp [search, hp, hraised, hpartial, hworth, hexp]

/-- **In every state a search makes a turn or ends.** -/
theorem turn_or_ending (m : Manner) (problem : Problem) (bound : Option Nat) (stop : Stop)
    (s : State) : (∃ s', Turn m problem bound stop s s') ∨ ∃ run, Ending m problem stop s run := by
  cases hp : s.frontier.pop? with
  | none => exact Or.inr ⟨_, .exhausted (Frontier.pop?_eq_none_iff.mp hp)⟩
  | some r =>
      obtain ⟨t, rest⟩ := r
      cases hraised : stop.isRaised s.journal with
      | true => exact Or.inr ⟨_, .stopped hp hraised⟩
      | false =>
          cases hcomplete : t.isComplete with
          | true =>
              have hp' : s.frontier.pop? = some ((⟨t, hcomplete⟩ : Program).root, rest) := hp
              cases hvalid : (⟨t, hcomplete⟩ : Program).isValid problem.examples with
              | error fault => exact Or.inr ⟨_, .faultyCandidate hp' hraised hvalid⟩
              | ok valid =>
                  cases valid with
                  | true => exact Or.inr ⟨_, .accepted hp' hraised hvalid⟩
                  | false => exact Or.inl ⟨_, .refuted hp' hraised hvalid⟩
          | false =>
              cases hworth : m.worthwhile t with
              | error fault => exact Or.inr ⟨_, .faultyVerdict hp hraised hcomplete hworth⟩
              | ok worth =>
                  cases worth with
                  | false => exact Or.inl ⟨_, .pruned hp hraised hcomplete hworth⟩
                  | true =>
                      cases hexp : t.expand problem.grammar with
                      | error fault =>
                          exact Or.inr ⟨_, .faultyExpansion hp hraised hcomplete hworth hexp⟩
                      | ok terms => exact Or.inl ⟨_, .expanded hp hraised hcomplete hworth hexp⟩

/-- A search that ends within its fuel ends at once or makes a turn and ends within the rest. -/
theorem search_cases {fuel : Nat} {run : Run}
    (h : search m problem bound stop (fuel + 1) s = some run) :
    Ending m problem stop s run
      ∨ ∃ s', Turn m problem bound stop s s' ∧ search m problem bound stop fuel s' = some run := by
  rcases turn_or_ending m problem bound stop s with ⟨s', hturn⟩ | ⟨run', hend⟩
  · rw [hturn.search_eq] at h
    exact Or.inr ⟨s', hturn, h⟩
  · rw [hend.search_eq] at h
    cases h
    exact Or.inl hend

/-- More fuel changes nothing about a search that ends. -/
theorem search_mono {fuel fuel' : Nat} {run : Run}
    (h : search m problem bound stop fuel s = some run) (hle : fuel ≤ fuel') :
    search m problem bound stop fuel' s = some run := by
  induction fuel generalizing fuel' s with
  | zero => exact absurd h (by simp [search])
  | succ fuel ih =>
      obtain ⟨fuel', rfl⟩ : ∃ k, fuel' = k + 1 := ⟨fuel' - 1, by omega⟩
      rcases search_cases h with hend | ⟨s', hturn, hsearch⟩
      · exact hend.search_eq bound fuel'
      · rw [hturn.search_eq]
        exact ih hsearch (by omega)

/-- **Turns and an ending make a search,** with any amount of fuel beyond some number. -/
theorem exists_search_of_turns {run : Run} (h : ReflTransGen (Turn m problem bound stop) s s')
    (hend : Ending m problem stop s' run) :
    ∃ fuel₀, ∀ fuel ≥ fuel₀, search m problem bound stop fuel s = some run := by
  induction h using ReflTransGen.head_induction_on with
  | refl =>
      refine ⟨1, fun fuel hle => ?_⟩
      obtain ⟨fuel, rfl⟩ : ∃ k, fuel = k + 1 := ⟨fuel - 1, by omega⟩
      exact hend.search_eq bound fuel
  | head hturn _ ih =>
      obtain ⟨fuel₀, hfuel⟩ := ih
      refine ⟨fuel₀ + 1, fun fuel hle => ?_⟩
      obtain ⟨fuel, rfl⟩ : ∃ k, fuel = k + 1 := ⟨fuel - 1, by omega⟩
      rw [hturn.search_eq]
      exact hfuel fuel (by omega)

/-- **What turns preserve holds where a search ends.** -/
theorem exists_ending_of_search {P : State → Prop}
    (hstep : ∀ {s s'}, P s → Turn m problem bound stop s s' → P s') {fuel : Nat} {run : Run}
    (h : search m problem bound stop fuel s = some run) (hs : P s) :
    ∃ s', P s' ∧ Ending m problem stop s' run := by
  induction fuel generalizing s with
  | zero => exact absurd h (by simp [search])
  | succ fuel ih =>
      rcases search_cases h with hend | ⟨s', hturn, hsearch⟩
      · exact ⟨s, hs, hend⟩
      · exact ih hsearch (hstep hs hturn)

/-- The terms in the frontier are met by walks from the start symbol. -/
def State.Met (problem : Problem) (bound : Option Nat) (s : State) : Prop :=
  ∀ t ∈ s.frontier.toList, t.Met problem.grammar bound problem.grammar.startSymbol

theorem met_initial (problem : Problem) (bound : Option Nat) :
    (State.initial problem.grammar).Met problem bound := by
  intro t ht
  cases List.mem_singleton.mp ht
  exact .start

/-- A turn meets only what walks meet. -/
theorem Turn.met (h : Turn m problem bound stop s s') (hs : s.Met problem bound) :
    s'.Met problem bound := by
  unfold State.Met at hs ⊢
  cases h with
  | refuted hp _ _ =>
      rw [Frontier.toList_of_pop? hp, List.forall_mem_cons] at hs
      exact hs.2
  | pruned hp _ _ _ =>
      rw [Frontier.toList_of_pop? hp, List.forall_mem_cons] at hs
      exact hs.2
  | @expanded t rest terms hp _ _ _ hexp =>
      rw [Frontier.toList_of_pop? hp, List.forall_mem_cons] at hs
      intro u hu
      rw [Frontier.toList_append] at hu
      rcases List.mem_append.mp hu with hu | hu
      · exact hs.2 u hu
      · obtain ⟨hmem, hfits⟩ := List.mem_filter.mp hu
        exact .step hs.1 ((Term.mem_expand_iff t hexp).mp hmem) hfits

/-- **What a search finds is met by walks and valid.** -/
theorem met_and_isValid_of_search {fuel : Nat} {run : Run} {p : Program}
    (h : search m problem bound stop fuel s = some run) (hs : s.Met problem bound)
    (hrun : run.result = .ok (some p)) :
    p.root.Met problem.grammar bound problem.grammar.startSymbol
      ∧ p.isValid problem.examples = .ok true := by
  obtain ⟨s', hmet, hend⟩ := exists_ending_of_search (fun hs hturn => hturn.met hs) h hs
  obtain ⟨rest, hp, hvalid⟩ := hend.exists_pop? hrun
  exact ⟨hmet _ (Frontier.mem_of_pop? hp), hvalid⟩

end Sygus.BreadthFirst
