import Sygus.Strategy

/-!
# Hosting a run

A host runs a strategy for somebody who waits for the answer. It may be given a
deadline: if the deadline passes before the run has ended, the host raises the stop
flag, waits for the run to end, and says that time ran out.

Here a deadline is the number of looks at the flag that the run gets to make before
it passes. How much time that is only a clock can tell, and `Clock` holds one.
-/

namespace Sygus.Host

/-- What a host says about a run. -/
structure Report where
  program : Option Program
  /-- Whether the deadline passed first. -/
  timedOut : Bool
  /-- What the run reported. -/
  events : List Event
  deriving DecidableEq

/-- The moment at which a host raises the flag. -/
def stopAt : Option Nat → Stop
  | none => .never
  | some polls => .atPoll polls

/-- A run under a deadline. It ran out of time if it looked at the flag once the deadline had
passed. -/
def run (settings : Settings) (problem : Problem) (deadline : Option Nat) (fuel : Nat) :
    Option (Except Fault Report) := do
  let run ← settings.run problem (stopAt deadline) fuel
  let timedOut := deadline.any (· < run.journal.polls)
  return run.result.map (⟨·, timedOut, run.journal.events⟩)

end Sygus.Host
