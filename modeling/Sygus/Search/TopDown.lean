import Sygus.Search.BreadthFirst

/-!
# Top-down search

Plain enumerate and test: every partial term is expanded.
-/

namespace Sygus.TopDown

/-- No partial term is pruned. -/
def manner : Manner where
  worthwhile _ := .ok true
  accepted p tally := .candidateAccepted p tally.tried
  exhausted tally := .candidatesExhausted tally.tried
  cancelled tally := .candidatesCancelled tally.tried

/-- A run of top-down search. -/
def run (problem : Problem) (bound : Option Nat) (stop : Stop) (fuel : Nat) : Option Run :=
  BreadthFirst.run manner problem bound stop fuel

end Sygus.TopDown
