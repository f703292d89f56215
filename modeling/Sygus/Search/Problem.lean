import Sygus.Grammar
import Sygus.Journal

/-!
# Problems and runs

A synthesis problem asks for a program of a grammar that fits a list of examples.
A run of a search on a problem ends with a program, with nothing, or with a fault,
and leaves a journal. Finding nothing means that the search space is exhausted or
that the run was stopped; the journal tells which.
-/

namespace Sygus

/-- A grammar and the examples that a program of it has to fit. -/
structure Problem where
  grammar : Grammar
  examples : List Example
  deriving DecidableEq

/-- How a run ended, and what it reported on the way. -/
structure Run where
  result : Except Fault (Option Program)
  journal : Journal

end Sygus
