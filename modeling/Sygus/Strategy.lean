import Sygus.Search.ConstraintBased
import Sygus.Search.DivideAndConquer
import Sygus.Search.TopDown

/-!
# Strategies

The three searches behind one face. The settings of a strategy outlive its runs; a
run depends on nothing else but the problem and the moment at which it is stopped.
-/

namespace Sygus

/-- A way to search. -/
inductive Strategy where
  | topDown
  | divideAndConquer
  | constraintBased
  deriving DecidableEq, Repr

/-- A strategy and how it is set up. -/
structure Settings where
  strategy : Strategy
  /-- Whether divide and conquer recalls answers; the others have no use for this. -/
  recalls : Bool := false
  /-- Terms deeper than this are not looked at. -/
  bound : Option Nat := none
  deriving DecidableEq, Repr

/-- A run under these settings. -/
def Settings.run (s : Settings) (problem : Problem) (stop : Stop) (fuel : Nat) : Option Run :=
  match s.strategy with
  | .topDown => TopDown.run problem s.bound stop fuel
  | .divideAndConquer => DivideAndConquer.run problem s.recalls s.bound stop fuel
  | .constraintBased => ConstraintBased.run problem s.bound stop fuel

end Sygus
