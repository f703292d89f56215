import Sygus.Host

/-!
# Deadlines by the clock

The outer layer that lets runs take real time. A run without a deadline has as much
fuel as a machine word can count. A run with a deadline is begun with little fuel, and
again with more whenever that was not enough, until it ends or time is up.
-/

namespace Sygus.Clock

/-- More fuel than any run can burn. -/
def ample : Nat := Nat.pow 2 62

/-- The fuel that a run with a deadline begins with. -/
def spark : Nat := 256

/-- Only a run that never ends needs more than ample fuel. -/
def outOfFuel {α : Type} : IO α := throw (IO.userError "the run does not end")

/-- A run to its end. -/
def run (settings : Settings) (problem : Problem) : IO (Except Fault Host.Report) :=
  match Host.run settings problem none ample with
  | some report => return report
  | none => outOfFuel

/-- The fuel to go on with when `fuel` lasted for `spent` milliseconds and so many are left:
twice as much, but only a quarter more once time is short. -/
def refuel (fuel spent left : Nat) : Nat :=
  if 4 * spent ≤ left then 2 * fuel else fuel + fuel / 4

/-- A run that is stopped after so many milliseconds. Every turn of a run looks at the flag, so
a run that burns its first fuel has looked at it more often than that, and is stopped there
once time is up. -/
def runWithin (milliseconds : Nat) (settings : Settings) (problem : Problem) :
    IO (Except Fault Host.Report) := do
  let start ← IO.monoMsNow
  let mut fuel := spark
  for _ in [0:4096] do
    let begun ← IO.monoMsNow
    if let some report := Host.run settings problem none fuel then return report
    let now ← IO.monoMsNow
    if milliseconds ≤ now - start then
      if let some report := Host.run settings problem (some spark) ample then return report
    fuel := refuel fuel (now - begun) (milliseconds - (now - start))
  outOfFuel

/-- A run with a deadline if there is one. -/
def host (timeout : Option Nat) (settings : Settings) (problem : Problem) :
    IO (Except Fault Host.Report) :=
  match timeout with
  | none => run settings problem
  | some milliseconds => runWithin milliseconds settings problem

end Sygus.Clock
