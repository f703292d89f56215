import Sygus.Feasibility.Decision
import Sygus.Search.BreadthFirst

/-!
# Constraint-based search

Top-down search that asks a solver before it expands a partial term. A term that the
solver finds infeasible for some example is dropped together with everything that
derives from it; if the solver gives up on an example, that is reported and the term
is kept. Feasibility is a matter of unbounded integers, so what the search accepts is
still tested by evaluation.

The search does not depend on how good its solver is: `runWith` takes any, `run` the
one that is built in.
-/

namespace Sygus.ConstraintBased

/-- Terms that the solver finds infeasible are pruned. -/
def mannerWith (solver : Solver) (examples : List Example) : Manner where
  worthwhile t := t.isFeasibleBy solver examples
  remarks t := (t.undecidedBy solver examples).map (.undecided t)
  accepted p tally := .prunedAccepted p tally.pruned
  exhausted tally := .prunedExhausted tally.pruned
  cancelled _ := .prunedCancelled

/-- A run of constraint-based search with this solver. -/
def runWith (solver : Solver) (problem : Problem) (bound : Option Nat) (stop : Stop) (fuel : Nat) :
    Option Run :=
  BreadthFirst.run (mannerWith solver problem.examples) problem bound stop fuel

/-- The search as the program has it. -/
def manner (examples : List Example) : Manner := mannerWith .builtIn examples

/-- A run of constraint-based search. -/
def run (problem : Problem) (bound : Option Nat) (stop : Stop) (fuel : Nat) : Option Run :=
  runWith .builtIn problem bound stop fuel

end Sygus.ConstraintBased
