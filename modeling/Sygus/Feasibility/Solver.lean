import Sygus.Example
import Sygus.Feasibility.Sketch

/-!
# Solvers

A partial term is **feasible** for an example if values for its holes exist under
which its sketch computes the example's output, over the unbounded integers. Each
example is looked at by itself: a hole may have another value for each.

The input of an example fixes the variables that it binds, and the unknown integer
number `i` if it binds the name `Ei`. What it does not bind is unknown.

Nobody can tell in every case whether such values exist. A **solver** is asked, and
may give up. A term is kept unless the solver says for some example that there are
no such values.
-/

namespace Sygus

/-- What is known about a sketch before it is filled. -/
structure Known where
  int : Nat → Option Int
  var : Variable → Option Int

/-- What an input fixes. -/
def Known.ofInput (a : Assignment) : Known where
  int i := (a.get? s!"E{i}").map Int64.toInt
  var v := (a.get? v.name).map Int64.toInt

/-- Whether a filling agrees with all that is known. -/
structure Filling.Respects (f : Filling) (k : Known) : Prop where
  int {i : Nat} {n : Int} : k.int i = some n → f.int i = n
  var {v : Variable} {n : Int} : k.var v = some n → f.var v = n

/-- Some filling that agrees with the input has the sketch compute the output. -/
def IntSketch.Reaches (s : IntSketch) (e : Example) : Prop :=
  ∃ f : Filling, f.Respects (.ofInput e.input) ∧ s.value f = e.output.toInt

/-- What a solver says to the question whether something is possible. -/
inductive Verdict where
  | sat
  | unsat
  /-- The solver gives up. -/
  | unknown
  deriving DecidableEq, Repr

/-- A solver is asked whether a sketch can compute the output of an example. -/
abbrev Solver := IntSketch → Example → Verdict

/-- A solver that rules nothing out that is possible. -/
def Solver.Sound (solver : Solver) : Prop := ∀ s e, solver s e = .unsat → ¬ s.Reaches e

namespace Term

/-- Whether the solver rules out a partial term for none of the examples. The term has to have a
sketch even if there is no example. -/
def isFeasibleBy (solver : Solver) (examples : List Example) (t : Term) : Except Fault Bool := do
  let s ← t.sketch
  return examples.all fun e => solver s e ≠ .unsat

/-- The examples on which the solver gives up. Once it has ruled out the term for an example, it
is not asked about the next ones. -/
def undecidedBy (solver : Solver) (examples : List Example) (t : Term) : List Example :=
  match t.sketch with
  | .error _ => []
  | .ok s =>
    (examples.takeWhile fun e => solver s e ≠ .unsat).filter fun e => solver s e = .unknown

end Term

end Sygus
