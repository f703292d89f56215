import Sygus.Frontier
import Sygus.Search.Problem
import Sygus.Term.Expansion

/-!
# Breadth-first search

Enumerate and test: terms are taken from a frontier that starts with the grammar's
start symbol. A complete term is a candidate, and the first valid one is the
answer. A partial term is judged as the search's `Manner` has it: it is replaced by
those of its expansions that fit the bound on depth, unless it is not worth expanding.
-/

namespace Sygus

/-- What a search has counted so far. -/
structure Tally where
  /-- The complete terms tested. -/
  tried : Nat := 0
  /-- The partial terms not expanded. -/
  pruned : Nat := 0
  deriving DecidableEq, Repr

/-- What one breadth-first search does differently from another. -/
structure Manner where
  /-- Whether a partial term is expanded. -/
  worthwhile : Term → Except Fault Bool
  /-- What is reported when a partial term has been judged. -/
  remarks : Term → List Event := fun _ => []
  /-- The reports with which a run ends. -/
  accepted : Program → Tally → Event
  exhausted : Tally → Event
  cancelled : Tally → Event

namespace BreadthFirst

/-- A search under way. -/
structure State where
  frontier : Frontier
  tally : Tally
  journal : Journal
  deriving DecidableEq

/-- A search that has not begun. -/
def State.initial (g : Grammar) : State := ⟨.singleton (.leaf g.startSymbol), {}, .empty⟩

/-- Searches until a program is found, the frontier is empty, the flag is raised or something
is wrong. Each turn takes one term and costs one unit of fuel; `none` says that the fuel
ran out. -/
def search (m : Manner) (problem : Problem) (bound : Option Nat) (stop : Stop) :
    Nat → State → Option Run
  | 0, _ => none
  | fuel + 1, s =>
    match s.frontier.pop? with
    | none => some ⟨.ok none, s.journal.report (m.exhausted s.tally)⟩
    | some (t, rest) =>
      let j := s.journal.polled
      if stop.isRaised s.journal then some ⟨.ok none, j.report (m.cancelled s.tally)⟩
      else if h : t.isComplete then
        let p : Program := ⟨t, h⟩
        let tally := { s.tally with tried := s.tally.tried + 1 }
        match p.isValid problem.examples with
        | .error fault => some ⟨.error fault, j⟩
        | .ok true => some ⟨.ok (some p), j.report (m.accepted p tally)⟩
        | .ok false => search m problem bound stop fuel ⟨rest, tally, j⟩
      else
        match m.worthwhile t with
        | .error fault => some ⟨.error fault, j⟩
        | .ok false =>
          let tally := { s.tally with pruned := s.tally.pruned + 1 }
          search m problem bound stop fuel ⟨rest, tally, j.reportAll (m.remarks t)⟩
        | .ok true =>
          let j := j.reportAll (m.remarks t)
          match t.expand problem.grammar with
          | .error fault => some ⟨.error fault, j⟩
          | .ok terms =>
            let rest := rest.append (terms.filter (·.fits bound))
            search m problem bound stop fuel ⟨rest, s.tally, j⟩

/-- A whole search. -/
def run (m : Manner) (problem : Problem) (bound : Option Nat) (stop : Stop) (fuel : Nat) :
    Option Run :=
  search m problem bound stop fuel (.initial problem.grammar)

end BreadthFirst

end Sygus
