import Sygus.Term

/-!
# Faults

What can be wrong with a grammar, a term or the input it is run on. That a search
finds no program is not a fault.
-/

namespace Sygus

/-- The reasons for which an expansion or an evaluation fails. -/
inductive Fault where
  /-- A hole whose category has no production. -/
  | undefinedNonTerminal (name : String)
  /-- A variable that the input does not bind. -/
  | undefinedVariable (name : String)
  /-- A terminal that means nothing where it stands. -/
  | unknownOperator (name : String)
  /-- An operator with a wrong number of arguments. -/
  | arity (operator : String) (expected found : Nat)
  /-- Evaluation reached this term, which is a hole. -/
  | incompleteTerm (term : Term)
  deriving DecidableEq, Repr

/-- The wording of a fault. -/
def Fault.message : Fault → String
  | undefinedNonTerminal name => s!"grammar has no productions for non-terminal `{name}`"
  | undefinedVariable name => s!"variable `{name}` is not defined by the example input"
  | unknownOperator name => s!"cannot evaluate operator `{name}`"
  | arity operator expected found =>
    s!"operator `{operator}` expects {expected} arguments, got {found}"
  | incompleteTerm term => s!"cannot evaluate incomplete term `{term.text}`"

/-- The children of a term that should have exactly `n` of them. -/
def Term.args (n : Nat) (t : Term) : Except Fault (List Term) :=
  if t.arity = n then .ok t.children else .error (.arity t.symbol.name n t.arity)

end Sygus
