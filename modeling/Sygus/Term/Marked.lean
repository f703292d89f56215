import Sygus.Grammar

/-!
# Marked terms

A long derivation asks again and again which parts of a term are complete. A marked
term has the answer written down at each node. The mark of a node is found when the
node is built, from the marks of its children alone, and is never changed.

An expansion step goes down by the marks. The nodes on the way are built anew over
the result, all others are taken over with their marks.
-/

namespace Sygus

/-- A tree of symbols with a mark at each node. -/
inductive MarkedTerm where
  | node (symbol : Symbol) (children : List MarkedTerm) (complete : Bool)
  deriving Repr

namespace MarkedTerm

mutual

/-- Equality of marked terms is decided node by node. The marks are compared as well. -/
def decEq : (a b : MarkedTerm) → Decidable (a = b)
  | node s cs m, node t ds n =>
    if hs : s = t then
      match decEqList cs ds with
      | isTrue hc =>
        if hm : m = n then isTrue (by rw [hs, hc, hm]) else isFalse fun h => hm (node.inj h).2.2
      | isFalse hc => isFalse fun h => hc (node.inj h).2.1
    else isFalse fun h => hs (node.inj h).1

/-- Equality of lists of marked terms, element by element. -/
def decEqList : (as bs : List MarkedTerm) → Decidable (as = bs)
  | [], [] => isTrue rfl
  | [], _ :: _ => isFalse (by simp)
  | _ :: _, [] => isFalse (by simp)
  | a :: as, b :: bs =>
    match decEq a b, decEqList as bs with
    | isTrue ha, isTrue hs => isTrue (by rw [ha, hs])
    | isFalse ha, _ => isFalse fun h => ha (List.cons.inj h).1
    | _, isFalse hs => isFalse fun h => hs (List.cons.inj h).2

end

instance : DecidableEq MarkedTerm := decEq

/-- Whether the term is marked as complete. -/
def isComplete : MarkedTerm → Bool
  | node _ _ m => m

/-- A node over marked children, with its own mark. -/
def build (s : Symbol) (cs : List MarkedTerm) : MarkedTerm :=
  node s cs (s.isTerminal && cs.all isComplete)

/-- A node without children. -/
def leaf (s : Symbol) : MarkedTerm := build s []

/-- An operator applied to arguments. -/
def op (name : String) (args : List MarkedTerm) : MarkedTerm := build (.terminal name) args

/-- A variable or a literal. -/
def atom (name : String) : MarkedTerm := leaf (.terminal name)

/-- A place for any term of the category `name`. -/
def hole (name : String) : MarkedTerm := leaf (.nonTerminal name)

mutual

/-- All symbols, a node before its children and children from left to right. -/
def symbols : MarkedTerm → List Symbol
  | node s cs _ => s :: symbolsOfAll cs

/-- The symbols of a list of terms, from left to right. -/
def symbolsOfAll : List MarkedTerm → List Symbol
  | [] => []
  | c :: cs => c.symbols ++ symbolsOfAll cs

end

mutual

/-- Marks a term, children before their node. -/
def ofTerm : Term → MarkedTerm
  | .node s cs => build s (ofTerms cs)

/-- Marks the terms of a list. -/
def ofTerms : List Term → List MarkedTerm
  | [] => []
  | c :: cs => ofTerm c :: ofTerms cs

end

mutual

/-- The term without its marks. -/
def term : MarkedTerm → Term
  | node s cs _ => .node s (terms cs)

/-- The terms of a list without their marks. -/
def terms : List MarkedTerm → List Term
  | [] => []
  | c :: cs => c.term :: terms cs

end

/-- The operator of a production over fresh, childless arguments. -/
def ofProduction (p : Production) : MarkedTerm := build p.operatorSymbol (p.args.map leaf)

mutual

/-- All results of one leftmost step, in the order of the productions. -/
def expand (k : Catalogue) : MarkedTerm → Except Fault (List MarkedTerm)
  | node s cs _ =>
    match expandFirst? k cs with
    | some results => return (← results).map (build s)
    | none =>
      match s with
      | .terminal _ => .ok []
      | .nonTerminal category => return (← k.productionsOf category).map ofProduction

/-- All results of one step in the first term of a list that is not marked as complete, if there
is one. -/
def expandFirst? (k : Catalogue) :
    List MarkedTerm → Option (Except Fault (List (List MarkedTerm)))
  | [] => none
  | c :: cs =>
    if c.isComplete then
      (expandFirst? k cs).map fun results => do return (← results).map (c :: ·)
    else some do return (← c.expand k).map (· :: cs)

end

end MarkedTerm

end Sygus
