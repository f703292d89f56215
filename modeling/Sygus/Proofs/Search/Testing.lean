import Sygus.Proofs.Enumeration.Order
import Sygus.Proofs.Search.Turns
import Sygus.Search.TopDown

/-!
# Top-down search enumerates and tests

The frontier of a top-down search is the frontier of an enumerator that starts at the same
symbol and keeps to the same bound. Both move in **lockstep**: where the search expands a partial
term the enumerator makes a turn, and where the search tests a candidate a call of the enumerator
ends and hands it out. So the search ends with the first answer that **settles** the matter, and
it has counted the programs that were handed out up to there.

The converse is proved along with it. If calls come to an answer that settles the matter, the
search ends, and there is nothing else for it to end with.
-/

namespace Sygus

open Term (Derives)

variable {problem : Problem} {bound : Option Nat}

namespace BreadthFirst

/-- The enumerator with the frontier of a search. -/
def State.walk (bound : Option Nat) (s : State) : Enumerator := ⟨s.frontier, bound⟩

theorem walk_initial (g : Grammar) (bound : Option Nat) :
    (State.initial g).walk bound = (Enumerator.ofSymbol g.startSymbol).withBound bound := rfl

end BreadthFirst

namespace TopDown

open BreadthFirst (State search)

/-- What a search makes of an answer of the enumerator. Only a program that is not valid leaves
the matter open. -/
def settles? (examples : List Example) :
    Except Fault (Option Program) → Option (Except Fault (Option Program))
  | .error fault => some (.error fault)
  | .ok none => some (.ok none)
  | .ok (some p) =>
    match p.isValid examples with
    | .error fault => some (.error fault)
    | .ok true => some (.ok (some p))
    | .ok false => none

/-- What a search reports at its end, after so many candidates. -/
def closing : Except Fault (Option Program) → Nat → List Event
  | .error _, _ => []
  | .ok none, tried => [.candidatesExhausted tried]
  | .ok (some p), tried => [.candidateAccepted p tried]

/-- What a search that is not stopped does next, and what the enumerator does meanwhile. -/
inductive Lockstep (problem : Problem) (bound : Option Nat) (s : State) : Prop where
  /-- Both expand a partial term. -/
  | expanded {s' : State} :
      BreadthFirst.Turn manner problem bound .never s s' →
      Enumerator.Turn problem.grammar (s.walk bound) (s'.walk bound) →
      s'.tally.tried = s.tally.tried → s'.journal.events = s.journal.events →
      Lockstep problem bound s
  /-- A program is handed out and turned down. -/
  | refuted {s' : State} {p : Program} :
      BreadthFirst.Turn manner problem bound .never s s' →
      Enumerator.Ending problem.grammar .never (s.walk bound) (.ok (some p)) (s'.walk bound) →
      p.isValid problem.examples = .ok false →
      s'.tally.tried = s.tally.tried + 1 → s'.journal.events = s.journal.events →
      Lockstep problem bound s
  /-- An answer settles the matter. -/
  | settled {answer : Except Fault (Option Program)} {e' : Enumerator} {run : Run} :
      BreadthFirst.Ending manner problem .never s run →
      Enumerator.Ending problem.grammar .never (s.walk bound) answer e' →
      settles? problem.examples answer = some run.result →
      run.journal.events
        = s.journal.events
          ++ closing run.result (s.tally.tried + (programs [answer]).length) →
      Lockstep problem bound s

/-- **A search and its enumerator move in lockstep.** -/
theorem lockstep (problem : Problem) (bound : Option Nat) (s : State) :
    Lockstep problem bound s := by
  rcases BreadthFirst.turn_or_ending manner problem bound .never s with ⟨s', hturn⟩ | ⟨run, hend⟩
  · have hturn' := hturn
    cases hturn with
    | refuted hp _ hvalid => exact .refuted hturn' (.handed hp) hvalid rfl rfl
    | pruned _ _ _ hworth => cases hworth
    | expanded hp _ hpartial _ hexp =>
        -- the plain search remarks nothing
        exact .expanded hturn' (.expand hp hpartial hexp) rfl (List.append_nil _)
  · have hend' := hend
    cases hend with
    | exhausted hempty => exact .settled hend' (.dry hempty) rfl rfl
    | stopped _ hraised => cases hraised
    | accepted hp _ hvalid =>
        exact .settled hend' (.handed hp) (by simp [settles?, hvalid]) rfl
    | faultyCandidate hp _ hvalid =>
        exact .settled hend' (.handed hp) (by simp [settles?, hvalid])
          (by simp [closing, Journal.polled])
    | faultyVerdict _ _ _ hworth => cases hworth
    | faultyExpansion hp _ hpartial _ hexp =>
        exact .settled hend' (.failed hp hpartial hexp) rfl
          (by simp [closing, Journal.polled, manner])

/-- Answers of which the last is the first to settle the matter. -/
inductive Settled (examples : List Example) (result : Except Fault (Option Program)) :
    List (Except Fault (Option Program)) → Prop where
  | last {answer : Except Fault (Option Program)} :
      settles? examples answer = some result → Settled examples result [answer]
  | cons {answer : Except Fault (Option Program)} {answers : List (Except Fault (Option Program))} :
      settles? examples answer = none → Settled examples result answers →
      Settled examples result (answer :: answers)

theorem Settled.ne_nil {examples : List Example} {result : Except Fault (Option Program)}
    {answers : List (Except Fault (Option Program))} (h : Settled examples result answers) :
    answers ≠ [] := by
  cases h <;> exact List.cons_ne_nil _ _

variable {s s' : State} {fuel : Nat} {run : Run} {result : Except Fault (Option Program)}
  {answers : List (Except Fault (Option Program))}

theorem settles?_of_refuted {examples : List Example} {p : Program}
    (h : p.isValid examples = .ok false) : settles? examples (.ok (some p)) = none := by
  simp [settles?, h]

/-- **A search that ends has made calls that settle the matter.** -/
theorem exists_calls_of_search (h : search manner problem bound .never fuel s = some run) :
    ∃ answers e', Enumerator.Calls problem.grammar (s.walk bound) answers e'
      ∧ Settled problem.examples run.result answers
      ∧ run.journal.events = s.journal.events
          ++ closing run.result (s.tally.tried + (programs answers).length) := by
  induction fuel generalizing s with
  | zero => exact absurd h (by simp [search])
  | succ fuel ih =>
      cases lockstep problem bound s with
      | expanded hturn hwalk htried hevents =>
          rw [hturn.search_eq] at h
          obtain ⟨answers, e', hcalls, hsettled, hjournal⟩ := ih h
          rw [htried, hevents] at hjournal
          exact ⟨answers, e', hwalk.calls hcalls hsettled.ne_nil, hsettled, hjournal⟩
      | @refuted s' p hturn hwalk hvalid htried hevents =>
          rw [hturn.search_eq] at h
          obtain ⟨answers, e', hcalls, hsettled, hjournal⟩ := ih h
          rw [htried, hevents, Nat.add_right_comm, Nat.add_assoc] at hjournal
          exact ⟨.ok (some p) :: answers, e', .cons_of_turns .refl hwalk hcalls,
            .cons (settles?_of_refuted hvalid) hsettled, hjournal⟩
      | @settled answer e' run' hend hwalk hsettles hevents =>
          rw [hend.search_eq] at h
          cases h
          exact ⟨[answer], e', .cons_of_turns .refl hwalk .nil, .last hsettles, hevents⟩

/-- What a search does during one call: it turns down what is handed out, or it ends. -/
theorem search_of_next {j : Journal} {pull : Pull}
    (h : (s.walk bound).next problem.grammar .never fuel j = some pull) :
    (∃ n s' p, (∀ k, search manner problem bound .never (k + n) s
          = search manner problem bound .never k s')
        ∧ pull.result = .ok (some p) ∧ pull.rest = s'.walk bound
        ∧ p.isValid problem.examples = .ok false
        ∧ s'.tally.tried = s.tally.tried + 1 ∧ s'.journal.events = s.journal.events)
      ∨ ∃ n run, search manner problem bound .never n s = some run
        ∧ settles? problem.examples pull.result = some run.result
        ∧ run.journal.events = s.journal.events
          ++ closing run.result (s.tally.tried + (programs [pull.result]).length) := by
  induction fuel generalizing s j with
  | zero => exact absurd h (by simp [Enumerator.next])
  | succ fuel ih =>
      cases lockstep problem bound s with
      | expanded hturn hwalk htried hevents =>
          rw [hwalk.next_eq] at h
          rcases ih h with ⟨n, s', p, hsearch, hrest⟩ | ⟨n, run, hsearch, hrest⟩
          · refine Or.inl ⟨n + 1, s', p, fun k => ?_, ?_⟩
            · rw [← Nat.add_assoc, hturn.search_eq]
              exact hsearch k
            · rwa [htried, hevents] at hrest
          · refine Or.inr ⟨n + 1, run, ?_, ?_⟩
            · rw [hturn.search_eq]
              exact hsearch
            · rwa [htried, hevents] at hrest
      | @refuted s' p hturn hwalk hvalid htried hevents =>
          obtain ⟨j', hnext⟩ := hwalk.exists_next_eq fuel j
          rw [hnext] at h
          cases h
          exact Or.inl ⟨1, s', p, hturn.search_eq, rfl, rfl, hvalid, htried, hevents⟩
      | @settled answer e' run hend hwalk hsettles hevents =>
          obtain ⟨j', hnext⟩ := hwalk.exists_next_eq fuel j
          rw [hnext] at h
          cases h
          exact Or.inr ⟨1, run, hend.search_eq bound 0, hsettles, hevents⟩

/-- **Calls that settle the matter end the search.** -/
theorem exists_search_of_calls {e e' : Enumerator}
    (h : Enumerator.Calls problem.grammar e answers e') (he : s.walk bound = e)
    (hsettled : Settled problem.examples result answers) :
    ∃ fuel run, search manner problem bound .never fuel s = some run ∧ run.result = result
      ∧ run.journal.events = s.journal.events
          ++ closing result (s.tally.tried + (programs answers).length) := by
  induction h generalizing s with
  | nil => exact absurd rfl hsettled.ne_nil
  | cons hnext _ ih =>
      subst he
      rcases search_of_next hnext with
        ⟨n, s', p, hsearch, hanswer, hrest, hvalid, htried, hevents⟩
        | ⟨n, run, hsearch, hsettles, hjournal⟩
      · have hopen := settles?_of_refuted hvalid
        rw [hanswer] at hsettled ⊢
        cases hsettled with
        | last hsettles => simp [hopen] at hsettles
        | cons _ hsettled =>
            obtain ⟨k, run, hk, hresult, hjournal⟩ := ih hrest.symm hsettled
            refine ⟨k + n, run, (hsearch k).trans hk, hresult, ?_⟩
            rw [hjournal, htried, hevents, Nat.add_right_comm, Nat.add_assoc]
            rfl
      · cases hsettled with
        | last hlast =>
            rw [hsettles] at hlast
            cases hlast
            exact ⟨n, run, hsearch, rfl, hjournal⟩
        | cons hopen _ => simp [hopen] at hsettles

/-! ## What nothing means -/

variable {stop : Stop}

/-- **A search loses nothing.** What is due stays due until it has been tested. -/
theorem pending_of_turn (h : BreadthFirst.Turn manner problem bound stop s s') {q : Program}
    (hfits : q.root.fits bound = true) (hdue : (s.walk bound).Pending problem.grammar q.root) :
    (s'.walk bound).Pending problem.grammar q.root ∨ q.isValid problem.examples = .ok false := by
  obtain ⟨n, i, hdue⟩ := hdue
  cases h with
  | @refuted p rest hp _ hvalid =>
      have hp' : (s.walk bound).frontier.pop? = some (p.root, rest) := hp
      rcases Enumerator.due_of_pop? hp' hdue with heq | ⟨k, _, hdue⟩
      · obtain rfl : q = p := Program.eq_of_root heq
        exact Or.inr hvalid
      · exact Or.inl ⟨n, k, hdue⟩
  | pruned _ _ _ hworth => cases hworth
  | expanded hp _ hpartial _ hexp =>
      have hturn : Enumerator.Turn problem.grammar (s.walk bound) _ := .expand hp hpartial hexp
      obtain ⟨m, k, _, hdue⟩ := hturn.due hfits hdue
      exact Or.inl ⟨m, k, hdue⟩

/-- A search that finds nothing has turned down all that was due. -/
theorem isValid_of_search_none (h : search manner problem bound .never fuel s = some run)
    (hnone : run.result = .ok none) {q : Program} (hfits : q.root.fits bound = true)
    (hdue : (s.walk bound).Pending problem.grammar q.root) :
    q.isValid problem.examples = .ok false := by
  have hstep : ∀ {s s' : State}, ((s.walk bound).Pending problem.grammar q.root
        ∨ q.isValid problem.examples = .ok false) →
      BreadthFirst.Turn manner problem bound .never s s' →
      ((s'.walk bound).Pending problem.grammar q.root
        ∨ q.isValid problem.examples = .ok false) := by
    intro s s' hor hturn
    rcases hor with hdue | hinvalid
    · exact pending_of_turn hturn hfits hdue
    · exact Or.inr hinvalid
  obtain ⟨s', hor, hend⟩ := BreadthFirst.exists_ending_of_search hstep h (Or.inl hdue)
  rcases hor with hdue | hinvalid
  · cases hend with
    | exhausted hempty =>
        -- nothing is due if the frontier is empty
        obtain ⟨n, i, u, hu, _⟩ := hdue
        have hmem := List.mem_of_getElem? hu
        rw [State.walk, hempty] at hmem
        cases hmem
    | stopped _ hraised => cases hraised
    | accepted _ _ _ => cases hnone
    | faultyCandidate _ _ _ => cases hnone
    | faultyVerdict _ _ _ _ => cases hnone
    | faultyExpansion _ _ _ _ _ => cases hnone
  · exact hinvalid

/--
**Top-down search is enumerate and test.**

A run that is not stopped ends with a result and with certain reports if and only if calls of an
enumerator of the start symbol with the same bound come to a first answer that settles the matter,
with this result, and the reports are the closing one with the number of programs handed out.
So a run that finds nothing has turned down every program that derives from the start symbol and
fits the bound.
-/
theorem run_iff_settled_calls (problem : Problem) (bound : Option Nat) :
    (∀ result events,
      (∃ fuel run, TopDown.run problem bound .never fuel = some run
        ∧ run.result = result ∧ run.journal.events = events)
      ↔ ∃ answers e', Enumerator.Calls problem.grammar
          ((Enumerator.ofSymbol problem.grammar.startSymbol).withBound bound) answers e'
        ∧ Settled problem.examples result answers
        ∧ events = closing result (programs answers).length)
    ∧ ∀ fuel run, TopDown.run problem bound .never fuel = some run → run.result = .ok none →
      ∀ p : Program, Derives problem.grammar problem.grammar.startSymbol p.root →
        p.root.fits bound = true → p.isValid problem.examples = .ok false := by
  refine ⟨?_, ?_⟩
  · intro result events
    constructor
    · rintro ⟨fuel, run, hrun, rfl, rfl⟩
      obtain ⟨answers, e', hcalls, hsettled, hevents⟩ := exists_calls_of_search hrun
      refine ⟨answers, e', hcalls, hsettled, hevents.trans ?_⟩
      simp [State.initial, Journal.empty]
    · rintro ⟨answers, e', hcalls, hsettled, rfl⟩
      obtain ⟨fuel, run, hrun, hresult, hevents⟩ :=
        exists_search_of_calls hcalls (BreadthFirst.walk_initial _ bound) hsettled
      refine ⟨fuel, run, hrun, hresult, hevents.trans ?_⟩
      simp [State.initial, Journal.empty]
  · intro fuel run hrun hnone p hderives hfits
    exact isValid_of_search_none hrun hnone hfits (Enumerator.pending_ofSymbol hderives bound)

/-- Five is asked for, and none of the variables has this value. -/
def five : List Example := [⟨.ofList [("x", 7), ("y", 8), ("z", 9)], 5⟩]

/-- Under the bound one there are the three variables and the three literals. They are handed
out before the enumerator is dry, and none of them will do. -/
theorem run_iff_settled_calls_five :
    (∃ answers e', Enumerator.Calls .arithmetic
        ((Enumerator.ofSymbol Grammar.arithmetic.startSymbol).withBound (some 1)) answers e'
      ∧ Settled five (.ok none) answers ∧ (programs answers).length = 6)
    ∧ ∀ p : Program, Derives .arithmetic Grammar.arithmetic.startSymbol p.root →
      p.root.fits (some 1) = true → p.isValid five = .ok false := by
  have htop : (TopDown.run ⟨.arithmetic, five⟩ (some 1) .never 100).map
      (fun run => (run.result, run.journal.events))
      = some (.ok none, [.candidatesExhausted 6]) := by decide +kernel
  obtain ⟨run, hrun, hvisible⟩ := Option.map_eq_some_iff.mp htop
  obtain ⟨hresult, hevents⟩ := Prod.mk.inj hvisible
  obtain ⟨hiff, hnone⟩ := run_iff_settled_calls ⟨.arithmetic, five⟩ (some 1)
  refine ⟨?_, hnone 100 run hrun hresult⟩
  obtain ⟨answers, e', hcalls, hsettled, hclosing⟩ :=
    (hiff _ _).mp ⟨100, run, hrun, hresult, hevents⟩
  have hcount : 6 = (programs answers).length := by simpa [closing] using hclosing
  exact ⟨answers, e', hcalls, hsettled, hcount.symm⟩

end TopDown

end Sygus
