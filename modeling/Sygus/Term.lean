import Sygus.Symbol

/-!
# Terms

A term is a tree of symbols: a program, finished or not. A node whose symbol is
a non-terminal is a **hole**, which expansion will replace; a term without holes
is **complete**. Nothing stops a hole from having children, and the definitions
below say what that means.

Every function here recurses on the tree, with a companion for the list of
children beside it.
-/

namespace Sygus

/-- A tree of symbols. -/
inductive Term where
  | node (symbol : Symbol) (children : List Term)
  deriving Repr

namespace Term

mutual

/-- Equality of terms is decided node by node. -/
def decEq : (a b : Term) → Decidable (a = b)
  | node s cs, node t ds =>
    if hs : s = t then
      match decEqList cs ds with
      | isTrue hc => isTrue (by rw [hs, hc])
      | isFalse hc => isFalse fun h => hc (node.inj h).2
    else isFalse fun h => hs (node.inj h).1

/-- Equality of lists of terms, element by element. -/
def decEqList : (as bs : List Term) → Decidable (as = bs)
  | [], [] => isTrue rfl
  | [], _ :: _ => isFalse (by simp)
  | _ :: _, [] => isFalse (by simp)
  | a :: as, b :: bs =>
    match decEq a b, decEqList as bs with
    | isTrue ha, isTrue hs => isTrue (by rw [ha, hs])
    | isFalse ha, _ => isFalse fun h => ha (List.cons.inj h).1
    | _, isFalse hs => isFalse fun h => hs (List.cons.inj h).2

end

instance : DecidableEq Term := decEq

/-- A node without children. -/
def leaf (s : Symbol) : Term := node s []

/-- An operator applied to arguments. -/
def op (name : String) (args : List Term) : Term := node (.terminal name) args

/-- A variable or a literal. -/
def atom (name : String) : Term := leaf (.terminal name)

/-- A place for any term of the category `name`. -/
def hole (name : String) : Term := leaf (.nonTerminal name)

def symbol : Term → Symbol
  | node s _ => s

def children : Term → List Term
  | node _ cs => cs

/-- The number of children. -/
def arity (t : Term) : Nat := t.children.length

mutual

/-- Whether no non-terminal occurs anywhere in the term. -/
def isComplete : Term → Bool
  | node s cs => s.isTerminal && allComplete cs

/-- Whether every term of a list is complete. -/
def allComplete : List Term → Bool
  | [] => true
  | c :: cs => c.isComplete && allComplete cs

end

mutual

/-- The number of nodes on a longest path from the root to a leaf. -/
def depth : Term → Nat
  | node _ cs => 1 + maxDepth cs

/-- The depth of the deepest term of a list, zero for none. -/
def maxDepth : List Term → Nat
  | [] => 0
  | c :: cs => max c.depth (maxDepth cs)

end

mutual

/-- The number of nodes. -/
def size : Term → Nat
  | node _ cs => 1 + totalSize cs

/-- The number of nodes of a list of terms. -/
def totalSize : List Term → Nat
  | [] => 0
  | c :: cs => c.size + totalSize cs

end

mutual

/-- All symbols, a node before its children and children from left to right. -/
def symbols : Term → List Symbol
  | node s cs => s :: symbolsOfAll cs

/-- The symbols of a list of terms, from left to right. -/
def symbolsOfAll : List Term → List Symbol
  | [] => []
  | c :: cs => c.symbols ++ symbolsOfAll cs

end

mutual

/-- A term is written `Op(arg, arg)`, or as its bare name if it has no children.
A hole is written as its category. -/
def text : Term → String
  | node s [] => s.name
  | node s (c :: cs) => s.name ++ "(" ++ c.text ++ textOfRest cs

/-- The arguments after the first one, and the closing parenthesis. -/
def textOfRest : List Term → String
  | [] => ")"
  | c :: cs => ", " ++ c.text ++ textOfRest cs

end

instance : ToString Term := ⟨text⟩

/-- For each term of a list, whether it is new after those seen. -/
def noveltiesAfter (seen : List Term) : List Term → List Bool
  | [] => []
  | t :: ts => (!seen.contains t) :: noveltiesAfter (t :: seen) ts

/-- For each term of a list, whether it differs from all terms before it. -/
def novelties (terms : List Term) : List Bool := noveltiesAfter [] terms

end Term

/-- A complete term: what a search returns and what can be evaluated. -/
structure Program where
  root : Term
  /-- A program has no holes. -/
  complete : root.isComplete = true
  deriving DecidableEq

namespace Program

/-- A term as a program, if it is complete. -/
def ofTerm? (t : Term) : Option Program :=
  if h : t.isComplete then some ⟨t, h⟩ else none

/-- A program is written as its term. -/
def text (p : Program) : String := p.root.text

instance : ToString Program := ⟨text⟩

end Program

end Sygus
