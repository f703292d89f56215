import Sygus.Term.Marked

/-!
# Expansion

One step of a leftmost derivation: the hole that comes first, children before
their node, is replaced in all the ways that the grammar offers for its category,
each production's operator standing over fresh, childless arguments. A complete
term has no expansion.

A derivation is a row of such steps. It is followed on marked terms and with a
catalogue, so that a step costs no more than the way to the hole.
-/

namespace Sygus.Term

mutual

/-- All results of one step, in the order of the productions. -/
def expand (g : Grammar) : Term → Except Fault (List Term)
  | node s cs =>
    match expandFirst? g cs with
    | some results => return (← results).map (node s)
    | none =>
      match s with
      | .terminal _ => .ok []
      | .nonTerminal category => return (← g.productionsOf category).map Production.term

/-- All results of one step in the first incomplete term of a list, if there is one. -/
def expandFirst? (g : Grammar) : List Term → Option (Except Fault (List (List Term)))
  | [] => none
  | c :: cs =>
    if c.isComplete then
      (expandFirst? g cs).map fun results => do return (← results).map (c :: ·)
    else some do return (← c.expand g).map (· :: cs)

end

/-- Whether a term keeps to a bound on its depth; without a bound every term does. -/
def fits (bound : Option Nat) (t : Term) : Bool :=
  match bound with
  | none => true
  | some limit => t.depth ≤ limit

/-- What became of one choice in a derivation. -/
inductive DerivationStep where
  /-- The term chosen, out of so many. -/
  | chosen (choices : Nat) (term : Term)
  /-- The term was complete. -/
  | finished
  | failed (fault : Fault)
  deriving DecidableEq, Repr

end Sygus.Term

namespace Sygus

/-- Follows a derivation from `t`: each number picks an expansion, counted around if there
are fewer. The derivation ends early at a complete term or a fault. -/
def MarkedTerm.derive (k : Catalogue) (t : MarkedTerm) : List Nat → List Term.DerivationStep
  | [] => []
  | pick :: picks =>
    match t.expand k with
    | .error fault => [.failed fault]
    | .ok results =>
      match results[pick % results.length]? with
      | none => [.finished]
      | some next => .chosen results.length next.term :: derive k next picks

/-- Follows a derivation in a grammar. -/
def Term.derive (g : Grammar) (t : Term) (picks : List Nat) : List Term.DerivationStep :=
  (MarkedTerm.ofTerm t).derive g.catalogue picks

end Sygus
