import Sygus.Fault

/-!
# Grammars

A grammar is a start category and a list of productions. Each category owns the
productions that return it, in the order of the list; how the productions of
different categories interleave shows in nothing but the listing, which takes the
categories in order of first appearance.

A **catalogue** holds the productions sorted by category: it is built up one production
at a time, and then answers for each category without a look at the others.
-/

namespace Sygus

/-- A way to make a term of category `target`: an operator over arguments. -/
structure Production where
  target : String
  operator : String
  args : List Symbol
  deriving DecidableEq, Repr

namespace Production

/-- A production without arguments. -/
def leaf (target operator : String) : Production := ⟨target, operator, []⟩

/-- The category as a symbol. -/
def targetSymbol (p : Production) : Symbol := .nonTerminal p.target

/-- The operator as a symbol. -/
def operatorSymbol (p : Production) : Symbol := .terminal p.operator

/-- The operator over fresh, childless arguments. -/
def term (p : Production) : Term := .node p.operatorSymbol (p.args.map Term.leaf)

/-- A production is written `E ::= Add(E, E)`, or `E ::= x` without arguments. -/
def text (p : Production) : String := s!"{p.target} ::= {p.term}"

end Production

/-- Productions sorted by category. The table does not tell in which order its categories came,
so the order is kept beside it. -/
structure Catalogue where
  /-- The categories, in order of first appearance. -/
  order : List String
  /-- The productions of a category, if it has appeared. -/
  table : String → Option (List Production)
  /-- The order and the table are in step. -/
  inStep : ∀ category, category ∈ order ↔ (table category).isSome

namespace Catalogue

/-- A catalogue without productions. -/
def empty : Catalogue := ⟨[], fun _ => none, by simp⟩

/-- Adds a production behind the others of its category, which now appears if it has not yet. -/
def add (k : Catalogue) (p : Production) : Catalogue where
  order := if (k.table p.target).isSome then k.order else k.order ++ [p.target]
  table category :=
    if category = p.target then some ((k.table category).getD [] ++ [p]) else k.table category
  inStep category := by
    by_cases hnew : (k.table p.target).isSome <;> by_cases hcategory : category = p.target <;>
      simp [hnew, hcategory, k.inStep]

/-- The catalogue of a list of productions. -/
def ofList (productions : List Production) : Catalogue := productions.foldl add empty

/-- The productions of a category. One that has not appeared is undefined. -/
def productionsOf (k : Catalogue) (category : String) : Except Fault (List Production) :=
  match k.table category with
  | none => .error (.undefinedNonTerminal category)
  | some ps => .ok ps

/-- The productions of a category that has appeared. -/
def productionsIn (k : Catalogue) (category : String) (h : category ∈ k.order) :
    List Production :=
  (k.table category).get ((k.inStep category).mp h)

/-- All productions, category after category. -/
def listing (k : Catalogue) : List Production :=
  k.order.attach.flatMap fun category => k.productionsIn category.1 category.2

end Catalogue

/-- A start category and productions. -/
structure Grammar where
  start : String
  productions : List Production
  deriving DecidableEq, Repr

namespace Grammar

/-- The start category as a symbol. -/
def startSymbol (g : Grammar) : Symbol := .nonTerminal g.start

/-- The productions that return `category`, in order. A category without any is
undefined. -/
def productionsOf (g : Grammar) (category : String) : Except Fault (List Production) :=
  match g.productions.filter (·.target = category) with
  | [] => .error (.undefinedNonTerminal category)
  | p :: ps => .ok (p :: ps)

/-- The catalogue of the productions. -/
def catalogue (g : Grammar) : Catalogue := .ofList g.productions

/-- The listing of a grammar: its start category, then a line for each production. -/
def text (g : Grammar) : String :=
  s!"Start symbol: {g.start}\nProductions:\n" ++
    String.join (g.catalogue.listing.map fun p => s!"  {p.text}\n")

/-- Conditional arithmetic over `x`, `y` and `z`:

```text
E ::= Ite(B, E, E) | Add(E, E) | Multiply(E, E) | x | y | z | 1 | 2 | 3
B ::= Lt(E, E) | Eq(E, E) | And(B, B) | Or(B, B) | Not(B)
```
-/
def arithmetic : Grammar where
  start := "E"
  productions :=
    let e := Symbol.nonTerminal "E"
    let b := Symbol.nonTerminal "B"
    [⟨"E", "Ite", [b, e, e]⟩, ⟨"E", "Add", [e, e]⟩, ⟨"E", "Multiply", [e, e]⟩,
      .leaf "E" "x", .leaf "E" "y", .leaf "E" "z",
      .leaf "E" "1", .leaf "E" "2", .leaf "E" "3",
      ⟨"B", "Lt", [e, e]⟩, ⟨"B", "Eq", [e, e]⟩,
      ⟨"B", "And", [b, b]⟩, ⟨"B", "Or", [b, b]⟩, ⟨"B", "Not", [b]⟩]

end Grammar

end Sygus
