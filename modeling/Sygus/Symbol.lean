/-!
# Symbols

The alphabet of a grammar. A **terminal** names an operator, a variable or a
literal; a **non-terminal** names a syntactic category that productions refine.
The two kinds have separate name spaces: a terminal `E` is not the category `E`.
-/

namespace Sygus

/-- A letter of a grammar's alphabet. -/
inductive Symbol where
  | terminal (name : String)
  | nonTerminal (name : String)
  deriving DecidableEq, Repr

namespace Symbol

/-- The name, which does not tell the two kinds apart. -/
def name : Symbol → String
  | terminal n => n
  | nonTerminal n => n

def isTerminal : Symbol → Bool
  | terminal _ => true
  | nonTerminal _ => false

def isNonTerminal (s : Symbol) : Bool := !s.isTerminal

/-- Terminals come before non-terminals; within a kind, names compare by code point. -/
def compare : Symbol → Symbol → Ordering
  | terminal a, terminal b => Ord.compare a b
  | terminal _, nonTerminal _ => .lt
  | nonTerminal _, terminal _ => .gt
  | nonTerminal a, nonTerminal b => Ord.compare a b

instance : Ord Symbol := ⟨compare⟩

/-- Puts `s` in its place in an ascending list, unless it is there already. -/
def insertAscending (s : Symbol) : List Symbol → List Symbol
  | [] => [s]
  | t :: rest =>
    match compare s t with
    | .lt => s :: t :: rest
    | .eq => t :: rest
    | .gt => t :: insertAscending s rest

/-- The symbols of a list in ascending order, each once. -/
def ascending (symbols : List Symbol) : List Symbol :=
  symbols.foldr insertAscending []

end Symbol

end Sygus
